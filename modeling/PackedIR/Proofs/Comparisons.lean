/-
Comparisons of integers.

Two values are compared as numbers, and the left one says how both are read. It cannot matter which
one is left: types of the same representation are equal, or they are pointers, and pointers are read
unsigned. So each value has one number, all seven comparisons are about the numbers of their
operands, and what is known of the order of the integers carries over.

A three-way comparison has no type of its own for its result. It computes a word, and the
instruction writes the number of this word in the type that the result is declared with.
-/
import Mathlib.Logic.ExistsUnique
import PackedIR.Proofs.Arithmetic
import PackedIR.Proofs.Evaluation

set_option autoImplicit false

namespace PackedIR

/-! ## Relations of numbers -/

namespace Relation

/-- What a relation says of numbers. -/
def Between : Relation → Int → Int → Prop
  | .equal, i, j => i = j
  | .notEqual, i, j => i ≠ j
  | .greater, i, j => j < i
  | .less, i, j => i < j
  | .greaterEqual, i, j => j ≤ i
  | .lessEqual, i, j => i ≤ j

instance (rel : Relation) (i j : Int) : Decidable (rel.Between i j) :=
  match rel with
  | .equal => inferInstanceAs (Decidable (i = j))
  | .notEqual => inferInstanceAs (Decidable (i ≠ j))
  | .greater => inferInstanceAs (Decidable (j < i))
  | .less => inferInstanceAs (Decidable (i < j))
  | .greaterEqual => inferInstanceAs (Decidable (j ≤ i))
  | .lessEqual => inferInstanceAs (Decidable (i ≤ j))

theorem holds_iff (rel : Relation) (i j : Int) :
    rel.holds (compare i j) = true ↔ rel.Between i j := by
  cases rel with
  | equal | notEqual => simp [holds, Between]
  | greater => simp [holds, Between, Int.compare_eq_gt]
  | less => simp [holds, Between, Int.compare_eq_lt]
  | greaterEqual => simp [holds, Between, Int.compare_ne_lt]
  | lessEqual => simp [holds, Between, Int.compare_ne_gt]

/-- The one of less, equal and greater that an order is. -/
def ofOrdering : Ordering → Relation
  | .lt => .less
  | .eq => .equal
  | .gt => .greater

theorem ofOrdering_mem (o : Ordering) : ofOrdering o ∈ [less, .equal, .greater] := by
  cases o <;> decide

theorem holds_iff_eq_ofOrdering {rel : Relation} (h : rel ∈ [less, .equal, .greater])
    (o : Ordering) : rel.holds o = true ↔ rel = ofOrdering o := by
  revert rel
  cases o <;> decide

end Relation

/-! ## Types with an order -/

namespace Ty

variable {t u : Ty}

/-- Values of the type are numbers: integers of a size that can be read, booleans, pointers. -/
def isOrdered (t : Ty) : Bool :=
  (t.isInteger || t.isBool || t.isPointer) && Value.isIntSize t.size

theorem isOrdered_iff : t.isOrdered = true ↔
    (t.isInteger || t.isBool || t.isPointer) = true ∧ Value.isIntSize t.size = true := by
  unfold isOrdered
  rw [Bool.and_eq_true]

theorem Holds.isOrdered {w : Nat} {signed : Bool} (h : t.Holds w signed) : t.isOrdered = true := by
  have hsize := h.isIntSize
  refine isOrdered_iff.mpr ⟨?_, hsize⟩
  cases h <;> rfl

/-- Only pointers have the same representation as another type, and there the pointees agree. -/
theorem sameRepr_iff : t.sameRepr u = true ↔ t = u ∨
    ∃ pointee mutable mutable', t = .pointer pointee mutable ∧ u = .pointer pointee mutable' := by
  constructor
  · intro h
    unfold sameRepr at h
    rw [Bool.or_eq_true, beq_iff_eq] at h
    rcases h with rfl | h
    · exact .inl rfl
    · cases t <;> cases u <;> simp [pointee?] at h
      subst h
      exact .inr ⟨_, _, _, rfl, rfl⟩
  · rintro (rfl | ⟨pointee, mutable, mutable', rfl, rfl⟩)
    · exact sameRepr_refl t
    · exact sameRepr_pointer pointee mutable mutable'

theorem sameRepr_symm (h : t.sameRepr u = true) : u.sameRepr t = true := by
  rcases sameRepr_iff.mp h with rfl | ⟨pointee, mutable, mutable', rfl, rfl⟩
  · exact h
  · exact sameRepr_pointer pointee mutable' mutable

theorem sameRepr_trans {v : Ty} (h : t.sameRepr u = true) (h' : u.sameRepr v = true) :
    t.sameRepr v = true := by
  rcases sameRepr_iff.mp h with rfl | ⟨pointee, mutable, mutable', rfl, rfl⟩
  · exact h'
  · rcases sameRepr_iff.mp h' with rfl | ⟨pointee', _, mutable'', heq, rfl⟩
    · exact h
    · cases heq
      exact sameRepr_pointer pointee mutable mutable''

/-- Either type says how values of both are read. -/
theorem isSigned_eq_of_sameRepr (h : t.sameRepr u = true) : t.isSigned = u.isSigned := by
  rcases sameRepr_iff.mp h with rfl | ⟨pointee, mutable, mutable', rfl, rfl⟩ <;> rfl

theorem isOrdered_eq_of_sameRepr (h : t.sameRepr u = true) : t.isOrdered = u.isOrdered := by
  rcases sameRepr_iff.mp h with rfl | ⟨pointee, mutable, mutable', rfl, rfl⟩
  · rfl
  · simp only [isOrdered, isPointer, Ty.size]
    rfl

end Ty

/-! ## Comparable values -/

variable {l r : Value} {i j : Int}

/-- Reading a number needs no more than a size that can be read. -/
theorem Value.asInt?_eq_number {v : Value} (h : isIntSize v.size = true) :
    v.asInt? = some (number v.ty.isSigned (v.bits (8 * v.size))) := by
  have hlength : 8 * v.bytes.length = 8 * v.size := rfl
  unfold asInt? toInt? number bits
  rw [if_pos h, Bytes.toInt_bits hlength, Bytes.toNat_bits hlength]

/-- Two values that have an order. -/
structure Comparable (l r : Value) : Prop where
  left : l.HasTy l.ty
  right : r.HasTy r.ty
  ordered : l.ty.isOrdered = true
  alike : l.ty.sameRepr r.ty = true

namespace Comparable

theorem symm (h : Comparable l r) : Comparable r l where
  left := h.right
  right := h.left
  ordered := by rw [← Ty.isOrdered_eq_of_sameRepr h.alike, h.ordered]
  alike := Ty.sameRepr_symm h.alike

theorem trans {s : Value} (h : Comparable l r) (h' : Comparable r s) : Comparable l s where
  left := h.left
  right := h'.right
  ordered := h.ordered
  alike := Ty.sameRepr_trans h.alike h'.alike

theorem asInt?_eq (h : Comparable l r) :
    l.asInt? = some (number l.ty.isSigned (l.bits (8 * l.size))) := by
  refine Value.asInt?_eq_number ?_
  rw [h.left.2]
  exact (Ty.isOrdered_iff.mp h.ordered).2

theorem numbers (h : Comparable l r) : ∃ i j, l.asInt? = some i ∧ r.asInt? = some j :=
  ⟨_, _, h.asInt?_eq, h.symm.asInt?_eq⟩

/-- Values of the same representation have one number only if they have the same bytes. -/
theorem eq_iff (h : Comparable l r) (hi : l.asInt? = some i) (hj : r.asInt? = some j) :
    i = j ↔ l.bytes = r.bytes := by
  have hsize : r.size = l.size := by
    have hl : l.size = l.ty.size := h.left.2
    have hr : r.size = r.ty.size := h.right.2
    rw [hl, hr, Ty.size_eq_of_sameRepr h.alike]
  rw [h.asInt?_eq, Option.some.injEq] at hi
  rw [h.symm.asInt?_eq, ← Ty.isSigned_eq_of_sameRepr h.alike, hsize, Option.some.injEq] at hj
  subst hi hj
  -- Read in one way and at one width, numbers are words, and words are bytes.
  rw [number_inj]
  constructor
  · intro hbits
    calc l.bytes = Bytes.ofNat l.size (l.bits (8 * l.size)).toNat := (Bytes.ofNat_bits rfl).symm
      _ = Bytes.ofNat r.size (r.bits (8 * l.size)).toNat := by rw [hbits, hsize]
      _ = r.bytes := Bytes.ofNat_bits (congrArg (8 * ·) hsize)
  · intro hbytes
    unfold Value.bits
    rw [hbytes]

end Comparable

/-! ## Comparisons -/

namespace BinaryOp

theorem intOrdering_eq (op : Opcode) (h : Comparable l r) (hi : l.asInt? = some i)
    (hj : r.asInt? = some j) : intOrdering op l r = .ok (compare i j) := by
  have hleft : intOperand op l l.ty.isSigned = .ok i := by
    unfold intOperand
    rw [show l.toInt? l.ty.isSigned = some i from hi]
  have hright : intOperand op r l.ty.isSigned = .ok j := by
    rw [Ty.isSigned_eq_of_sameRepr h.alike]
    unfold intOperand
    rw [show r.toInt? r.ty.isSigned = some j from hj]
  unfold intOrdering
  dsimp only
  rw [(Ty.isOrdered_iff.mp h.ordered).1, h.alike, hleft, hright]
  rfl

theorem intOrdering_refused (op : Opcode) (hl : l.HasTy l.ty) (hr : r.HasTy r.ty)
    (h : ¬Comparable l r) :
    ∃ types, (types = [l.ty, r.ty] ∨ types = [l.ty]) ∧
      intOrdering op l r = raise (.unsupportedTypes (.opcode op) (.given types)) := by
  unfold intOrdering
  by_cases hrefused :
      (!(l.ty.isInteger || l.ty.isBool || l.ty.isPointer) || !l.ty.sameRepr r.ty) = true
  · exact ⟨_, .inl rfl, if_pos hrefused⟩
  · have haccepted : (l.ty.isInteger || l.ty.isBool || l.ty.isPointer) = true ∧
        l.ty.sameRepr r.ty = true := by
      rw [Bool.not_eq_true, Bool.or_eq_false_iff, Bool.not_eq_false', Bool.not_eq_false']
        at hrefused
      exact hrefused
    -- What is wrong can only be the size of an integer.
    have hsize : ¬Value.isIntSize l.size = true := by
      intro hsize
      rw [hl.2] at hsize
      exact h ⟨hl, hr, Ty.isOrdered_iff.mpr ⟨haccepted.1, hsize⟩, haccepted.2⟩
    have hunread : intOperand op l l.ty.isSigned = unsupported op [l] := by
      unfold intOperand Value.toInt?
      rw [if_neg hsize]
    refine ⟨_, .inr rfl, (if_neg hrefused).trans ?_⟩
    dsimp only
    rw [hunread]
    rfl

/-- The comparisons of integers. -/
def comparesInts : BinaryOp → Bool
  | .intCompare _ | .intOrder => true
  | _ => false

/-- The operator fails because of the types of its operands, or of the left one if that cannot be
read. -/
def Refuses (op : BinaryOp) (l r : Value) : Prop :=
  ∃ types, (types = [l.ty, r.ty] ∨ types = [l.ty]) ∧ (Opcode.binary op).evalBinary l r =
    raise (.unsupportedTypes (.opcode (.binary op)) (.given types))

/-- Values without an order are refused by all comparisons. -/
theorem refuses {op : BinaryOp} (hop : op.comparesInts = true) (hl : l.HasTy l.ty)
    (hr : r.HasTy r.ty) (h : ¬Comparable l r) : op.Refuses l r := by
  obtain ⟨types, htypes, hrefused⟩ := intOrdering_refused (.binary op) hl hr h
  refine ⟨types, htypes, ?_⟩
  cases op with
  | intCompare rel =>
    change (do return Value.ofBool (rel.holds (← intOrdering _ l r)) : Result Value) = _
    rw [hrefused]
    rfl
  | intOrder =>
    change (do return orderValue (some (← intOrdering _ l r)) : Result Value) = _
    rw [hrefused]
    rfl
  | _ => cases hop

end BinaryOp

/-- The comparison answers that the relation holds. -/
def Relation.On (rel : Relation) (l r : Value) : Prop :=
  (Opcode.binary (.intCompare rel)).evalBinary l r = .ok (.ofBool true)

namespace Comparable

theorem evalBinary_eq (h : Comparable l r) (hi : l.asInt? = some i) (hj : r.asInt? = some j)
    (rel : Relation) : (Opcode.binary (.intCompare rel)).evalBinary l r =
      .ok (.ofBool (decide (rel.Between i j))) := by
  have hanswer : rel.holds (compare i j) = decide (rel.Between i j) := by
    rw [Bool.eq_iff_iff, decide_eq_true_iff, rel.holds_iff]
  change (do return Value.ofBool (rel.holds (← BinaryOp.intOrdering _ l r)) : Result Value) = _
  rw [BinaryOp.intOrdering_eq _ h hi hj, ← hanswer]
  rfl

theorem on_iff (h : Comparable l r) (hi : l.asInt? = some i) (hj : r.asInt? = some j)
    {rel : Relation} : rel.On l r ↔ rel.Between i j := by
  unfold Relation.On
  rw [h.evalBinary_eq hi hj]
  by_cases hrel : rel.Between i j
  · simp [hrel]
  · simp [hrel, Value.ofBool]

/-- Of less, equal and greater the one holds that is the order of the numbers. -/
theorem on_iff_eq_ofOrdering (h : Comparable l r) (hi : l.asInt? = some i) (hj : r.asInt? = some j)
    {rel : Relation} (hrel : rel ∈ [Relation.less, .equal, .greater]) :
    rel.On l r ↔ rel = .ofOrdering (compare i j) := by
  rw [h.on_iff hi hj, ← Relation.holds_iff, Relation.holds_iff_eq_ofOrdering hrel]

theorem existsUnique_on (h : Comparable l r) :
    ∃! rel, rel ∈ [Relation.less, .equal, .greater] ∧ rel.On l r := by
  obtain ⟨i, j, hi, hj⟩ := h.numbers
  have hmem := Relation.ofOrdering_mem (compare i j)
  refine ⟨.ofOrdering (compare i j), ⟨hmem, (h.on_iff_eq_ofOrdering hi hj hmem).mpr rfl⟩, ?_⟩
  rintro rel ⟨hrel, hon⟩
  exact (h.on_iff_eq_ofOrdering hi hj hrel).mp hon

theorem less_trans {s : Value} (h : Comparable l r) (h' : Comparable r s)
    (hless : Relation.less.On l r) (hless' : Relation.less.On r s) : Relation.less.On l s := by
  obtain ⟨i, j, hi, hj⟩ := h.numbers
  obtain ⟨_, k, _, hk⟩ := h'.numbers
  rw [h.on_iff hi hj] at hless
  rw [h'.on_iff hj hk] at hless'
  rw [(h.trans h').on_iff hi hk]
  exact Int.lt_trans hless hless'

end Comparable

/-! ## The three-way comparison -/

/-- The number that stands for an order. -/
def orderNumber : Ordering → Int
  | .lt => -1
  | .eq => 0
  | .gt => 1

/-- The value of the low bytes of a number. -/
def Value.wrapped (ty : Ty) (k : Int) : Value := { ty, bytes := Bytes.ofInt ty.size k }

theorem Value.hasTy_wrapped (ty : Ty) (k : Int) : (wrapped ty k).HasTy ty :=
  ⟨rfl, Bytes.length_ofNat _ _⟩

/-- Wrapping takes a number modulo the number of words of the type. -/
theorem Value.toNat_wrapped (ty : Ty) (k : Int) :
    (Bytes.toNat (wrapped ty k).bytes : Int) = k % 2 ^ (8 * ty.size) := by
  have hword : Bytes.toNat (Bytes.ofNat ty.size (BitVec.ofInt (8 * ty.size) k).toNat) =
      (BitVec.ofInt (8 * ty.size) k).toNat := by
    rw [Bytes.toNat_ofNat, Bytes.pow_eq, Nat.mod_eq_of_lt (BitVec.isLt _)]
  unfold wrapped
  rw [Bytes.ofInt_eq rfl, hword]
  exact number_false_ofInt k

theorem asInt?_orderValue (o : Ordering) :
    (orderValue (some o)).asInt? = some (orderNumber o) := by
  cases o <;> decide

theorem mem_orderNumber (o : Ordering) :
    (Relation.ofOrdering o, orderNumber o) ∈
      [(Relation.less, (-1 : Int)), (.equal, 0), (.greater, 1)] := by
  cases o <;> decide

variable {p : Program} {s u : State} {fr : Frame} {rest : List Frame} {f : Function} {d : Local}

/-- In `s` the next instruction compares `l` and `r` three ways, and has evaluated both in `u`. -/
inductive AtOrder (p : Program) (s u : State) (fr : Frame) (rest : List Frame) (f : Function)
    (d : Local) (l r : Value) : Prop where
  | intro {block : Block} {a b : Operand} {t : State} (frames : s.frames = fr :: rest)
      (current : fr.current p.module = .ok (f, block, ⟨.binary .intOrder, [a, b], some d⟩))
      (left : Exec.operand p a s = .ok l t) (right : Exec.operand p b t = .ok r u) :
      AtOrder p s u fr rest f d l r

/-- Operands fill their types. -/
theorem Exec.hasTy_of_operand {t : State} {o : Operand} {v : Value} (hs : WellTyped p s)
    (h : operand p o s = .ok v t) : v.HasTy v.ty := by
  cases o with
  | «local» l =>
    obtain ⟨_, _, _, _, _, _, _, hv⟩ := hasTy_of_localOperand hs h
    exact ⟨rfl, hv.1 ▸ hv.2⟩
  | const id =>
    obtain ⟨_, _, hv⟩ := hasTy_of_constOperand hs h
    exact ⟨rfl, hv.1 ▸ hv.2⟩
  | block | type => exact absurd (lift_eq_ok_iff.mp h).1 (by simp)

/-- The order of the operands is written in the declared type of the result. -/
theorem Exec.execute_intOrder {t : State} {a b : Operand} {bits : Nat} {signed : Bool}
    (hl : operand p a s = .ok l t) (hr : operand p b t = .ok r u) (h : Comparable l r)
    (hi : l.asInt? = some i) (hj : r.asInt? = some j)
    (hdecl : f.local? d = some ⟨.int bits signed, false⟩)
    (hsize : (Ty.int bits signed).size ≤ Value.maxIntSize) :
    execute p f ⟨.binary .intOrder, [a, b], some d⟩ s =
      .ok (.complete (some (.wrapped (.int bits signed) (orderNumber (compare i j))))) u := by
  have heval : BinaryOp.intOrder.eval l r = .ok (orderValue (some (compare i j))) := by
    change (do return orderValue (some (← BinaryOp.intOrdering _ l r)) : Result Value) = _
    rw [BinaryOp.intOrdering_eq _ h hi hj]
    rfl
  have hrebuilt : BinaryOp.intOrder.rebuilt f ⟨.binary .intOrder, [a, b], some d⟩
      (orderValue (some (compare i j))) =
        .ok (.wrapped (.int bits signed) (orderNumber (compare i j))) := by
    refine (if_pos rfl).trans ?_
    rw [resultDecl_eq_ok_iff.mpr ⟨d, rfl, hdecl⟩, asInt?_orderValue]
    exact if_pos hsize
  rw [execute_binary .intOrder hl hr, heval]
  change finished (BinaryOp.intOrder.rebuilt f _ _) u = _
  rw [hrebuilt]
  rfl

namespace AtOrder

theorem step_eq {bits : Nat} {signed : Bool} (h : AtOrder p s u fr rest f d l r)
    (hs : WellTyped p s) (hlr : Comparable l r) (hi : l.asInt? = some i) (hj : r.asInt? = some j)
    (hdecl : f.local? d = some ⟨.int bits signed, false⟩)
    (hsize : (Ty.int bits signed).size ≤ Value.maxIntSize) (base : Nat) :
    Exec.step p base s =
      .ok none (u.bound fr rest d (.wrapped (.int bits signed) (orderNumber (compare i j)))) := by
  cases h with
  | @intro block a b t hfr hcur hl hr =>
    -- Evaluating the operands leaves the frame as it is, so the result is bound where it belongs.
    have hst := (Exec.operand_makes a).of_ok hl
    have htu := (Exec.operand_makes b).of_ok hr
    have hu : u.frames = fr :: rest := by rw [htu.frames_eq, hst.frames_eq, hfr]
    have hx := Exec.execute_intOrder hl hr hlr hi hj hdecl hsize
    have hv := Value.hasTy_wrapped (.int bits signed) (orderNumber (compare i j))
    have hcomplete : Exec.complete f ⟨.binary .intOrder, [a, b], some d⟩ (some _) u = _ :=
      Exec.complete_eq ((hs.makes hst).makes htu) hu (Exec.current_eq_ok hcur).1 rfl hdecl hv
    rw [Exec.step_of_executed base hfr hcur hx, Exec.proceed, Exec.bind_of_ok hcomplete]
    rfl

theorem step_refused (h : AtOrder p s u fr rest f d l r) (hs : WellTyped p s)
    (hlr : ¬Comparable l r) (base : Nat) :
    ∃ types, (types = [l.ty, r.ty] ∨ types = [l.ty]) ∧ Exec.step p base s =
      .error (.of (.unsupportedTypes (.opcode (.binary .intOrder)) (.given types))) u := by
  cases h with
  | @intro block a b t hfr hcur hl hr =>
    have ht := hs.makes ((Exec.operand_makes a).of_ok hl)
    have hrefuses : BinaryOp.intOrder.Refuses l r :=
      BinaryOp.refuses rfl (Exec.hasTy_of_operand hs hl) (Exec.hasTy_of_operand ht hr) hlr
    obtain ⟨types, htypes, hrefused⟩ := hrefuses
    have heval : BinaryOp.intOrder.eval l r =
      raise (.unsupportedTypes (.opcode (.binary .intOrder)) (.given types)) := hrefused
    refine ⟨types, htypes, Exec.step_of_execute_error base hfr hcur ?_⟩
    rw [Exec.execute_binary .intOrder hl hr, heval]
    rfl

end AtOrder

/-! ## One order -/

/-- The comparisons are about one total order of values. -/
structure OneOrder : Prop where
  numbers : ∀ l r : Value, Comparable l r → ∃ i j, l.asInt? = some i ∧ r.asInt? = some j ∧
    ∀ rel : Relation, (Opcode.binary (.intCompare rel)).evalBinary l r =
      .ok (.ofBool (decide (rel.Between i j)))
  exactlyOne : ∀ l r : Value, Comparable l r →
    ∃! rel, rel ∈ [Relation.less, .equal, .greater] ∧ rel.On l r
  trans : ∀ l r s : Value, Comparable l r → Comparable r s → Relation.less.On l r →
    Relation.less.On r s → Comparable l s ∧ Relation.less.On l s
  /-- Pointers may differ in whether they are mutable; the order does not tell left from right. -/
  swap : ∀ l r : Value, Comparable l r → Comparable r l ∧
    (Relation.less.On l r ↔ Relation.greater.On r l) ∧
    (Relation.greater.On l r ↔ Relation.less.On r l) ∧
    (Relation.equal.On l r ↔ Relation.equal.On r l)
  equal : ∀ l r : Value, Comparable l r → (Relation.equal.On l r ↔ l.bytes = r.bytes)

theorem oneOrder : OneOrder where
  numbers l r h := by
    obtain ⟨i, j, hi, hj⟩ := h.numbers
    exact ⟨i, j, hi, hj, h.evalBinary_eq hi hj⟩
  exactlyOne l r h := h.existsUnique_on
  trans l r s h h' hless hless' := ⟨h.trans h', h.less_trans h' hless hless'⟩
  swap l r h := by
    obtain ⟨i, j, hi, hj⟩ := h.numbers
    refine ⟨h.symm, ?_, ?_, ?_⟩
    · rw [h.on_iff hi hj, h.symm.on_iff hj hi]
      exact Iff.rfl
    · rw [h.on_iff hi hj, h.symm.on_iff hj hi]
      exact Iff.rfl
    · rw [h.on_iff hi hj, h.symm.on_iff hj hi]
      exact eq_comm
  equal l r h := by
    obtain ⟨i, j, hi, hj⟩ := h.numbers
    rw [h.on_iff hi hj]
    exact h.eq_iff hi hj

/-- Comparisons of integers, booleans and pointers are one total order, that of the numbers which
the values denote. As an instruction the three-way comparison binds -1, 0 or 1 in the type of its
result. Values of all other types are refused, in either order. -/
theorem integer_comparisons_form_one_order :
    OneOrder ∧
    (∀ (t : Ty) (w : Nat) (signed : Bool) (v : Value), t.Holds w signed → v.HasTy t →
      t.isOrdered = true ∧ v.asInt? = some (number signed (v.bits w))) ∧
    (∀ (l r : Value) (op : BinaryOp), op.comparesInts = true → l.HasTy l.ty → r.HasTy r.ty →
      ¬Comparable l r → op.Refuses l r ∧ op.Refuses r l) ∧
    ∀ (p : Program) (s u : State) (fr : Frame) (rest : List Frame) (f : Function) (d : Local)
      (l r : Value) (base : Nat), p.module.Built → Reachable p s →
      AtOrder p s u fr rest f d l r →
      (∀ bits signed, Comparable l r → f.local? d = some ⟨.int bits signed, false⟩ →
        (Ty.int bits signed).size ≤ Value.maxIntSize → ∃ rel k v,
          (rel, k) ∈ [(Relation.less, (-1 : Int)), (.equal, 0), (.greater, 1)] ∧ rel.On l r ∧
          v.HasTy (.int bits signed) ∧ (Bytes.toNat v.bytes : Int) = k % 2 ^ (8 * v.size) ∧
          Exec.step p base s = .ok none (u.bound fr rest d v)) ∧
      (¬Comparable l r → ∃ types, (types = [l.ty, r.ty] ∨ types = [l.ty]) ∧ Exec.step p base s =
        .error (.of (.unsupportedTypes (.opcode (.binary .intOrder)) (.given types))) u) := by
  refine ⟨oneOrder, fun t w signed v ht hv => ⟨ht.isOrdered, Value.asInt?_eq ht hv⟩, ?_, ?_⟩
  · intro l r op hop hl hr h
    exact ⟨BinaryOp.refuses hop hl hr h, BinaryOp.refuses hop hr hl fun h' => h h'.symm⟩
  · intro p s u fr rest f d l r base hp hs hat
    have htyped := hs.wellTyped hp
    refine ⟨fun bits signed hlr hdecl hsize => ?_, fun hlr => hat.step_refused htyped hlr base⟩
    obtain ⟨i, j, hi, hj⟩ := hlr.numbers
    have hrel := (hlr.on_iff_eq_ofOrdering hi hj (Relation.ofOrdering_mem _)).mpr rfl
    refine ⟨_, _, _, mem_orderNumber _, hrel, Value.hasTy_wrapped _ _, ?_,
      hat.step_eq htyped hlr hi hj hdecl hsize base⟩
    rw [Value.toNat_wrapped, (Value.hasTy_wrapped _ _).2]

namespace Ranking

/-- Compares its arguments. -/
def rank : Build Unit := do
  let order ← Build.emitValue (.binary .intOrder) [.local ⟨0⟩, .local ⟨1⟩] Ty.u16
  Build.ret (some order)

def built : Builder :=
  (Doubling.fill { name := "ranking" } "rank" (.function [Ty.i8, Ty.i8] Ty.u16 false)
    rank).toOption.get (by decide +kernel)

def program : Program := { module := built.module }

theorem module_built : program.module.Built := by
  have hfill : Doubling.fill { name := "ranking" } "rank" (.function [Ty.i8, Ty.i8] Ty.u16 false)
      rank = .ok built := rfl
  have happends : Build.Appends rank :=
    (Build.appends_emitValue _ _ _).bind fun _ => Build.appends_emitVoid _ _
  exact ⟨"ranking", Doubling.grows_fill happends hfill⟩

def low : Value := { ty := Ty.i8, origin := .local ⟨0⟩, bytes := [0xFE] }

def high : Value := { ty := Ty.i8, origin := .local ⟨1⟩, bytes := [1] }

/-- The state in which the arguments are to be compared. -/
def entered : State := (Exec.startCall program ⟨0⟩ [low, high]).after {}

def frame : Frame := { function := ⟨0⟩, locals := #[some low, some high, none] }

theorem atOrder : ∃ f, AtOrder program entered entered frame [] f ⟨2⟩ low high ∧
    f.local? ⟨2⟩ = some ⟨Ty.u16, false⟩ :=
  ⟨_, .intro rfl rfl rfl rfl, rfl⟩

theorem comparable : Comparable low high := ⟨⟨rfl, rfl⟩, ⟨rfl, rfl⟩, by decide, by decide⟩

end Ranking

/-- The byte -2 is less than 1 and not comparable with an unsigned byte. A function that compares
both finds 65535 in its unsigned result. -/
theorem integer_comparisons_form_one_order_ranking :
    Relation.less.On Ranking.low Ranking.high ∧ Relation.greater.On Ranking.high Ranking.low ∧
    BinaryOp.intOrder.Refuses Ranking.low { ty := Ty.u8, bytes := [1] } ∧
    ∃ v, Bytes.toNat v.bytes = 65535 ∧ Exec.step Ranking.program 0 Ranking.entered =
      .ok none (Ranking.entered.bound Ranking.frame [] ⟨2⟩ v) := by
  obtain ⟨horder, _, hrefuses, horders⟩ := integer_comparisons_form_one_order
  have hless : Relation.less.On Ranking.low Ranking.high := by
    obtain ⟨i, j, hi, hj, hanswers⟩ := horder.numbers _ _ Ranking.comparable
    cases hi
    cases hj
    exact hanswers .less
  refine ⟨hless, (horder.swap _ _ Ranking.comparable).2.1.mp hless, ?_, ?_⟩
  · refine (hrefuses _ _ .intOrder rfl ⟨rfl, rfl⟩ ⟨rfl, rfl⟩ fun h => ?_).1
    exact absurd h.alike (by decide)
  · obtain ⟨f, hat, hdecl⟩ := Ranking.atOrder
    have hentered : Reachable Ranking.program Ranking.entered :=
      .entered ⟨0⟩ [Ranking.low, Ranking.high] .fresh rfl
    obtain ⟨rel, k, v, hmem, hrel, hv, hbytes, hstep⟩ :=
      (horders _ _ _ _ _ f _ _ _ 0 Ranking.module_built hentered hat).1 16 false Ranking.comparable
        hdecl (by decide)
    refine ⟨v, ?_, hstep⟩
    simp only [List.mem_cons, Prod.mk.injEq, List.not_mem_nil, or_false] at hmem
    -- Less is the one relation that holds, and minus one wraps around.
    have hunique : rel = .less := by
      refine (horder.exactlyOne _ _ Ranking.comparable).unique ⟨?_, hrel⟩ ⟨by decide, hless⟩
      rcases hmem with ⟨rfl, _⟩ | ⟨rfl, _⟩ | ⟨rfl, _⟩ <;> decide
    subst hunique
    obtain rfl : k = -1 := by simpa using hmem
    have hwrapped : (-1 : Int) % 2 ^ (8 * (Ty.int 16 false).size) = 65535 := by decide
    rw [hv.2, hwrapped] at hbytes
    omega

end PackedIR
