/-
Address arithmetic.

Pointers are moved by elements, arrays are indexed twice, and members are found from l-values and
from pointers. Indices are scaled and added, and the sum wraps around the address space once. Since
wrapping early or late makes no difference, an instruction that moves twice computes what the
simpler ones compute one after the other, for every base address and every index, negative ones
included. The offset of a member is added without wrapping, after everything else. Where it leads out
of the address space the instruction fails, and so does the one that the longer way ends with.

Indices have at most one word and sizes stay far below one, so the sums fit twice the width of a
word before they wrap. In live storage nothing wraps or fails: a member is found at its offset,
inside the storage, and apart from all other members.
-/
import PackedIR.Proofs.Access
import PackedIR.Proofs.Conversions
import PackedIR.Proofs.Lenses
import PackedIR.Proofs.PhiGroups

set_option autoImplicit false

namespace PackedIR

variable {p : Program} {s t u : State} {f : Function}

/-! ## Pointers and indices as words -/

namespace Value

/-- The pointer of type `ty` to the address that a number is congruent to. -/
def pointerTo (ty : Ty) (a : Int) : Value := .ofAddress ty (a % 2 ^ 64).toNat

theorem hasTy_pointerTo (pointee : Ty) (mutable : Bool) (a : Int) :
    (pointerTo (.pointer pointee mutable) a).HasTy (.pointer pointee mutable) :=
  hasTy_ofAddress_pointer pointee mutable _

theorem asAddress_eq {v : Value} {pointee : Ty} {mutable : Bool}
    (hv : v.HasTy (.pointer pointee mutable)) : v.asAddress = .ok (v.bits 64).toNat := by
  have hlength : 8 * v.bytes.length = 64 := (Ty.Holds.pointer pointee mutable).length_bytes hv
  have hsize : v.size = wordSize := by
    unfold Value.size wordSize
    omega
  unfold asAddress address? bits
  rw [if_pos hsize, Bytes.toNat_bits hlength]

@[simp] theorem toNat_bits_pointerTo (ty : Ty) (a : Int) :
    ((pointerTo ty a).bits 64).toNat = (a % 2 ^ 64).toNat := by
  have hlength : 8 * (pointerTo ty a).bytes.length = 64 := by
    unfold pointerTo ofAddress
    rw [Bytes.length_ofNat]
    rfl
  have hlt : (a % 2 ^ 64).toNat < 2 ^ 64 := by omega
  unfold bits
  rw [Bytes.toNat_bits hlength]
  unfold pointerTo ofAddress
  rw [Bytes.toNat_ofNat, Bytes.pow_eq]
  exact Nat.mod_eq_of_lt hlt

/-- Wrapping on the way makes no difference. -/
theorem pointerTo_wrapped (ty : Ty) (a d : Int) :
    pointerTo ty ((a % 2 ^ 64).toNat + d) = pointerTo ty (a + d) := by
  have hnonneg : 0 ≤ a % 2 ^ 64 := Int.emod_nonneg a (by decide)
  unfold pointerTo
  rw [Int.toNat_of_nonneg hnonneg, Int.emod_add_emod]

/-- Inside the address space nothing wraps. -/
theorem pointerTo_of_lt (ty : Ty) {address : Nat} (h : address < 2 ^ 64) :
    pointerTo ty address = ofAddress ty address := by
  have hsame : ((address : Int) % 2 ^ 64).toNat = address := by omega
  unfold pointerTo
  rw [hsame]

theorem toNat_bits_ofAddress (ty : Ty) {address : Nat} (h : address < 2 ^ 64) :
    ((ofAddress ty address).bits 64).toNat = address := by
  rw [← pointerTo_of_lt ty h, toNat_bits_pointerTo]
  omega

/-- What is added after wrapping does not wrap again unless it leads out of the address space. -/
theorem ofAddress_wrapped (ty : Ty) {x : Int} {d : Nat} (h : (x % 2 ^ 64).toNat + d < 2 ^ 64) :
    ofAddress ty ((x % 2 ^ 64).toNat + d) = pointerTo ty (x + d) := by
  rw [← pointerTo_of_lt ty h, Int.natCast_add, pointerTo_wrapped]

end Value

namespace Exec

/-- The operand evaluates to a pointer of type `ty` to an address. -/
def Points (p : Program) (o : Operand) (ty : Ty) (address : Nat) (s t : State) : Prop :=
  ∃ v, operand p o s = .ok v t ∧ v.HasTy ty ∧ (v.bits 64).toNat = address

/-- The operand evaluates to a number of some integer type with one, two, four or eight bytes, which
are read with the signedness of the type. -/
def Counts (p : Program) (o : Operand) (i : Int) (s t : State) : Prop :=
  ∃ v w signed, operand p o s = .ok v t ∧ v.HasTy (.int w signed) ∧
    Value.isIntSize v.size = true ∧ number signed (v.bits (8 * v.size)) = i

/-- The operand is a constant for the number of a member. -/
def Numbers (p : Program) (o : Operand) (k : Nat) : Prop :=
  ∃ id ty, o = .const id ∧ p.module.constant id = .ok ⟨ty, .int k⟩ ∧ k < 2 ^ 64

variable {o ptr index first second selector : Operand} {T : Ty} {mutable : Bool} {a k : Nat}
  {i j : Int} {member : Member}

theorem Points.makes {ty : Ty} (h : Points p o ty a s t) : Makes p s t := by
  obtain ⟨v, hv, _⟩ := h
  exact (operand_makes o).of_ok hv

theorem Counts.makes (h : Counts p o i s t) : Makes p s t := by
  obtain ⟨v, w, signed, hv, _⟩ := h
  exact (operand_makes o).of_ok hv

theorem Points.lt {ty : Ty} (h : Points p o ty a s t) : a < 2 ^ 64 := by
  obtain ⟨v, _, _, rfl⟩ := h
  exact (v.bits 64).isLt

/-- An index is a signed or an unsigned word. -/
theorem Counts.bounds (h : Counts p o i s t) : -2 ^ 63 ≤ i ∧ i < 2 ^ 64 := by
  obtain ⟨v, w, signed, _, _, hsize, rfl⟩ := h
  have hrange := inRange_number signed (v.bits (8 * v.size))
  generalize number signed (v.bits (8 * v.size)) = i at hrange ⊢
  -- The lower bound is that of the widest signed type, the upper bound that of the widest unsigned.
  simp only [Value.isIntSize, Bool.or_eq_true, beq_iff_eq] at hsize
  rcases hsize with ((hsize | hsize) | hsize) | hsize <;> rw [hsize] at hrange <;> cases signed <;>
    simp only [InRange, if_true, Bool.false_eq_true, if_false] at hrange <;> omega

theorem Points.pointerOperand_eq (h : Points p o (.pointer T mutable) a s t) :
    pointerOperand p o s = .ok (a, T) t := by
  obtain ⟨v, hv, hty, rfl⟩ := h
  have hpointee : v.ty.pointee? = some T := by rw [hty.1]; rfl
  unfold pointerOperand
  rw [bind_of_ok hv]
  simp only [hpointee]
  rw [Value.asAddress_eq hty, bind_of_ok (lift_ok _ _)]
  rfl

theorem Counts.integerOperand_eq (h : Counts p o i s t) (activity : Activity) :
    integerOperand p activity o s = .ok i t := by
  obtain ⟨v, w, signed, hv, hty, hsize, rfl⟩ := h
  have hinteger : v.ty.isInteger = true := by rw [hty.1]; rfl
  have hread : v.asInt? = some (number signed (v.bits (8 * v.size))) := by
    have hsigned : v.ty.isSigned = signed := by rw [hty.1]; rfl
    have hlength : 8 * v.bytes.length = 8 * v.size := rfl
    unfold Value.asInt? Value.toInt? number Value.bits
    rw [if_pos hsize, hsigned, Bytes.toInt_bits hlength, Bytes.toNat_bits hlength]
  unfold integerOperand
  rw [bind_of_ok hv]
  simp only [hread, if_pos hinteger]
  rfl

theorem Numbers.constIndex_eq (h : Numbers p o k) (s : State) : constIndex p o s = .ok k s := by
  obtain ⟨id, ty, rfl, hid, hk⟩ := h
  exact Exec.constIndex_eq hid hk

/-! ## What the instructions compute -/

/-- Executing the instruction, whatever its result is bound to, gives the value. -/
def Computes (p : Program) (f : Function) (op : PlaceOp) (args : List Operand) (s : State)
    (v : Value) (t : State) : Prop :=
  ∀ result, execute p f ⟨.place op, args, result⟩ s = .ok (.complete (some v)) t

theorem computes_getPointer (hptr : Points p ptr (.pointer T mutable) a s t)
    (hindex : Counts p index i t u) :
    Computes p f .getPointer [ptr, index] s
      (.pointerTo (.pointer T mutable) (a + i * T.size)) u := by
  intro result
  obtain ⟨base, hbase, hty, rfl⟩ := hptr
  have hvalue : getPointer p ptr index s =
      .ok (.pointerTo (.pointer T mutable) ((base.bits 64).toNat + i * T.size)) u := by
    unfold getPointer
    rw [bind_of_ok hbase]
    simp only [show base.ty.pointee? = some T by rw [hty.1]; rfl]
    rw [bind_of_ok (hindex.integerOperand_eq _), Value.asAddress_eq hty, bind_of_ok (lift_ok _ _),
      hty.1]
    rfl
  exact bind_of_ok (bind_of_ok hvalue)

theorem computes_getGep2 {elem : Ty} {len : Nat}
    (hptr : Points p ptr (.pointer (.array elem len) mutable) a s t)
    {t' : State} (hfirst : Counts p first i t t') (hsecond : Counts p second j t' u) :
    Computes p f .getGep2 [ptr, first, second] s
      (.pointerTo (Ty.mutPtrTo elem) (a + i * (Ty.array elem len).size + j * elem.size)) u := by
  intro result
  have hvalue : getGep2 p ptr first second s = .ok
      (.pointerTo (Ty.mutPtrTo elem) (a + i * (Ty.array elem len).size + j * elem.size)) u := by
    unfold getGep2
    rw [bind_of_ok hptr.pointerOperand_eq]
    simp only [Ty.element?]
    rw [bind_of_ok (hfirst.integerOperand_eq _), bind_of_ok (hsecond.integerOperand_eq _),
      Int.add_assoc]
    rfl
  exact bind_of_ok (bind_of_ok hvalue)

/-- Executing the instruction comes to a member of what is at the address. It gives a pointer to the
member, or fails if the offset of the member leads out of the address space. -/
def ReachesMember (p : Program) (f : Function) (op : PlaceOp) (args : List Operand) (s : State)
    (a : Nat) (member : Member) (t : State) : Prop :=
  ∀ result, execute p f ⟨.place op, args, result⟩ s =
    if a + member.offset < 2 ^ 64 then
      .ok (.complete (some (.ofAddress (Ty.mutPtrTo member.ty) (a + member.offset)))) t
    else .error (.fault (.memberOutOfReach a member.offset)) t

theorem ReachesMember.computes {op : PlaceOp} {args : List Operand}
    (h : ReachesMember p f op args s a member t) (hlt : a + member.offset < 2 ^ 64) :
    Computes p f op args s (.ofAddress (Ty.mutPtrTo member.ty) (a + member.offset)) t := by
  intro result
  rw [h result, if_pos hlt]

/-- Executing the instruction fails because a member lies outside of the address space. -/
def Overflows (p : Program) (f : Function) (op : PlaceOp) (args : List Operand) (s : State)
    (a : Nat) (member : Member) (t : State) : Prop :=
  ∀ result, execute p f ⟨.place op, args, result⟩ s =
    .error (.fault (.memberOutOfReach a member.offset)) t

theorem ReachesMember.overflows {op : PlaceOp} {args : List Operand}
    (h : ReachesMember p f op args s a member t) (hle : 2 ^ 64 ≤ a + member.offset) :
    Overflows p f op args s a member t := by
  intro result
  rw [h result, if_neg (Nat.not_lt.mpr hle)]

/-- The address of a member is the last thing that is computed. -/
theorem reachesMember_of_eq {op : PlaceOp} {args : List Operand} {x : Exec Value}
    (hplace : ∀ result, place p f ⟨.place op, args, result⟩ op s =
      (do return some (← x) : Exec (Option Value)) s)
    (hx : x s = (do
      return Value.ofAddress (Ty.mutPtrTo member.ty) (← memberAddress a member) : Exec Value) t) :
    ReachesMember p f op args s a member t := by
  intro result
  change (do return .complete (← place p f ⟨.place op, args, result⟩ op) : Exec Flow) s = _
  rw [bind_apply, hplace result, bind_apply, hx]
  by_cases hlt : a + member.offset < 2 ^ 64
  · rw [if_pos hlt, memberAddress_eq hlt]
    rfl
  · rw [if_neg hlt, memberAddress_eq_error (Nat.le_of_not_lt hlt)]
    rfl

theorem reachesMember_getStructMember (haddress : operandAddress p o s = .ok (a, T) t)
    (hselector : Numbers p selector k) (hmember : (Layout.of T).member? k = some member) :
    ReachesMember p f .getStructMember [o, selector] s a member t := by
  refine reachesMember_of_eq (x := getStructMember p o selector) (fun _ => rfl) ?_
  unfold getStructMember
  rw [bind_of_ok haddress]
  dsimp only
  rw [bind_of_ok (hselector.constIndex_eq t), memberOf_eq hmember, bind_of_ok (lift_ok _ _)]

/-- The member is one of the element that the index leads to. -/
theorem reachesMember_getPointerToStructMember
    (hptr : Points p ptr (.pointer T mutable) a s t) (hindex : Counts p index i t u)
    (hselector : Numbers p selector k) (hmember : (Layout.of T).member? k = some member) :
    ReachesMember p f .getPointerToStructMember [ptr, index, selector] s
      ((a + i * T.size) % 2 ^ 64).toNat member u := by
  refine reachesMember_of_eq (x := getPointerToStructMember p ptr index selector) (fun _ => rfl) ?_
  unfold getPointerToStructMember
  rw [bind_of_ok hptr.pointerOperand_eq]
  dsimp only
  rw [bind_of_ok (hselector.constIndex_eq t), memberOf_eq hmember, bind_of_ok (lift_ok _ _),
    bind_of_ok (hindex.integerOperand_eq _)]
  rfl

theorem computes_dereference (hptr : Points p o (.pointer T mutable) a s t) :
    Computes p f .dereference [o] s (.ofAddress (Ty.mutPtrTo T) a) t := by
  intro result
  exact bind_of_ok (bind_of_ok hptr.pointerOperand_eq)

theorem computes_addressOf (haddress : operandAddress p o s = .ok (a, T) t) :
    Computes p f .addressOf [o] s (.ofAddress (Ty.mutPtrTo T) a) t := by
  intro result
  exact bind_of_ok (bind_of_ok haddress)

/-- A change of type leaves a pointer where it is. -/
theorem execute_retype {op : CastOp} (hop : op.reinterprets = true)
    (hptr : Points p o (.pointer T mutable) a s t) (T' : Ty) (mutable' : Bool)
    (result : Option Local) :
    ∃ v, execute p f ⟨.cast op, [o, .type (.pointer T' mutable')], result⟩ s =
        .ok (.complete (some v)) t ∧
      v.HasTy (.pointer T' mutable') ∧ (v.bits 64).toNat = a := by
  obtain ⟨base, hbase, hty, rfl⟩ := hptr
  have hsize : (Ty.pointer T' mutable').size = base.size := by
    rw [hty.2]
    simp only [Ty.size]
  have hretype : base.retype (.pointer T' mutable') =
      .ok { base with ty := .pointer T' mutable' } := Value.retype_eq_ok_iff.mpr ⟨hsize, rfl⟩
  have hcast : cast p ⟨.cast op, [o, .type (.pointer T' mutable')], result⟩ op s =
      .ok { base with ty := .pointer T' mutable' } t := by
    change (do op.eval (← operand p o) (.pointer T' mutable') : Exec Value) s = _
    rw [bind_of_ok hbase, CastOp.eval_of_reinterprets hop, hretype]
    rfl
  exact ⟨_, bind_of_ok hcast, ⟨rfl, hsize.symm⟩, rfl⟩

/-! ## Results as operands -/

/-- Operands that had a value have it still, but for these locals. -/
def KeepsOperands (p : Program) (ls : List Local) (s t : State) : Prop :=
  ∀ o v, (∀ l ∈ ls, o ≠ .local l) → operand p o s = .ok v s → operand p o t = .ok v t

theorem KeepsOperands.trans {ls ls' : List Local} (h : KeepsOperands p ls s t)
    (h' : KeepsOperands p ls' t u) : KeepsOperands p (ls ++ ls') s u := by
  intro o v ho hv
  refine h' o v (fun l hl => ho l (List.mem_append_right _ hl)) (h o v (fun l hl => ?_) hv)
  exact ho l (List.mem_append_left _ hl)

theorem Counts.kept {ls : List Local} (h : Counts p o i s s) (hkeeps : KeepsOperands p ls s t)
    (ho : ∀ l ∈ ls, o ≠ .local l) : Counts p o i t t := by
  obtain ⟨v, w, signed, hv, hcounts⟩ := h
  exact ⟨v, w, signed, hkeeps o v ho hv, hcounts⟩

/-- Binding a result leaves all other operands alone. -/
theorem keepsOperands_bound {fr : Frame} {rest : List Frame} (hfr : s.frames = fr :: rest)
    (hf : p.module.function fr.function = .ok f) (l : Local) (v : Value) :
    KeepsOperands p [l] s (s.bound fr rest l v) := by
  intro o w ho hw
  refine operand_of_settled hfr hf rfl hf rfl rfl ?_ (fun _ _ h => h) ?_ hw
  · rintro l' rfl
    have hne : ¬(l' = l ∧ l.index < fr.locals.size) := by
      rintro ⟨rfl, _⟩
      exact ho l' List.mem_cons_self rfl
    change (fr.set l _).lookup? l' = _
    rw [Frame.lookup?_set, if_neg hne]
  · -- A load looks at memory alone.
    intro address ty loaded hload
    obtain ⟨hmemory, _⟩ := lift_eq_ok_iff.mp hload
    exact lift_eq_ok_iff.mpr ⟨hmemory, rfl⟩

/-- The function is being executed in the innermost frame. -/
structure Executing (p : Program) (f : Function) (s : State) : Prop where
  typed : WellTyped p s
  active : ∃ fr rest, s.frames = fr :: rest ∧ p.module.function fr.function = .ok f

namespace Executing

variable {op : Opcode} {args : List Operand} {l : Local} {decl : LocalDecl} {v : Value}

/-- The value of an instruction can be looked up once it is bound. -/
theorem bind (h : Executing p f s)
    (hx : execute p f ⟨op, args, some l⟩ s = .ok (.complete (some v)) t) (hmakes : Makes p s t)
    (hdecl : f.local? l = some decl) (hv : v.HasTy decl.boundTy) :
    ∃ t', Executes p f [⟨op, args, some l⟩] s t' ∧ Executing p f t' ∧ KeepsOperands p [l] t t' ∧
      ∃ fr rest, t'.frames = fr :: rest ∧ p.module.function fr.function = .ok f ∧
        fr.lookup? l = some (v.withOrigin (.local l)) := by
  obtain ⟨fr, rest, hfr, hf⟩ := h.active
  rw [← hmakes.frames_eq] at hfr
  have htyped := h.typed.makes hmakes
  -- A value of the declared type is bound as it is, and the frame has a slot for it.
  have hcomplete : complete f ⟨op, args, some l⟩ (some v) t = .ok () (t.bound fr rest l v) :=
    complete_eq htyped hfr hf rfl hdecl hv
  refine ⟨_, .cons hx hcomplete (.nil _), ⟨htyped.bound hfr hf hdecl hv, _, _, rfl, hf⟩,
    keepsOperands_bound hfr hf l v, _, _, rfl, hf, ?_⟩
  exact htyped.lookup?_set_self hfr hf hdecl _

theorem bind_pointer (h : Executing p f s)
    (hx : execute p f ⟨op, args, some l⟩ s = .ok (.complete (some v)) t) (hmakes : Makes p s t)
    (hdecl : f.local? l = some ⟨.pointer T mutable, false⟩) (hv : v.HasTy (.pointer T mutable)) :
    ∃ t', Executes p f [⟨op, args, some l⟩] s t' ∧ Executing p f t' ∧ KeepsOperands p [l] t t' ∧
      Points p (.local l) (.pointer T mutable) (v.bits 64).toNat t' t' := by
  obtain ⟨t', hexec, hrun, hkeeps, fr, rest, hfr, hf, hlookup⟩ := h.bind hx hmakes hdecl hv
  exact ⟨t', hexec, hrun, hkeeps, _, operand_local hfr hf hlookup hdecl, hv, rfl⟩

theorem bind_lvalue (h : Executing p f s)
    (hx : execute p f ⟨op, args, some l⟩ s = .ok (.complete (some v)) t) (hmakes : Makes p s t)
    (hdecl : f.local? l = some ⟨T, true⟩) (hv : v.HasTy (Ty.mutPtrTo T)) :
    ∃ t', Executes p f [⟨op, args, some l⟩] s t' ∧ Executing p f t' ∧
      operandAddress p (.local l) t' = .ok ((v.bits 64).toNat, T) t' := by
  obtain ⟨t', hexec, hrun, _, fr, rest, hfr, hf, hlookup⟩ := h.bind hx hmakes hdecl hv
  have haddress : (v.withOrigin (.local l)).asAddress = .ok (v.bits 64).toNat :=
    Value.asAddress_eq (v := v.withOrigin (.local l)) hv
  exact ⟨t', hexec, hrun, operandAddress_local hfr hf hlookup hdecl haddress⟩

/-- A moved pointer as an operand. -/
theorem bind_getPointer (h : Executing p f s) (hptr : Points p ptr (.pointer T mutable) a s t)
    (hindex : Counts p index i t u) (hdecl : f.local? l = some ⟨.pointer T mutable, false⟩) :
    ∃ s', Executes p f [⟨.place .getPointer, [ptr, index], some l⟩] s s' ∧ Executing p f s' ∧
      KeepsOperands p [l] u s' ∧
      Points p (.local l) (.pointer T mutable) ((a + i * T.size) % 2 ^ 64).toNat s' s' := by
  have hpoints := h.bind_pointer (computes_getPointer hptr hindex (some l))
    (hptr.makes.trans hindex.makes) hdecl (Value.hasTy_pointerTo T mutable _)
  rwa [Value.toNat_bits_pointerTo] at hpoints

/-- An element pointer in the place of an array pointer. -/
theorem bind_retyped (h : Executing p f s) {op : CastOp} (hop : op.reinterprets = true)
    (hptr : Points p o (.pointer T mutable) a s t) {T' : Ty} {mutable' : Bool}
    (hdecl : f.local? l = some ⟨.pointer T' mutable', false⟩) :
    ∃ s', Executes p f [⟨.cast op, [o, .type (.pointer T' mutable')], some l⟩] s s' ∧
      Executing p f s' ∧ KeepsOperands p [l] t s' ∧
      Points p (.local l) (.pointer T' mutable') a s' s' := by
  obtain ⟨v, hx, hv, rfl⟩ := execute_retype (f := f) hop hptr T' mutable' (some l)
  exact h.bind_pointer hx hptr.makes hdecl hv

theorem bind_dereference (h : Executing p f s) (hptr : Points p o (.pointer T mutable) a s t)
    (hdecl : f.local? l = some ⟨T, true⟩) :
    ∃ s', Executes p f [⟨.place .dereference, [o], some l⟩] s s' ∧ Executing p f s' ∧
      operandAddress p (.local l) s' = .ok (a, T) s' := by
  have haddress := h.bind_lvalue (computes_dereference hptr (some l)) hptr.makes hdecl
    (Value.hasTy_ofAddress_pointer T true a)
  rwa [Value.toNat_bits_ofAddress _ hptr.lt] at haddress

theorem bind_getStructMember (h : Executing p f s) (haddress : operandAddress p o s = .ok (a, T) t)
    (hselector : Numbers p selector k) (hmember : (Layout.of T).member? k = some member)
    (hlt : a + member.offset < 2 ^ 64) (hdecl : f.local? l = some ⟨member.ty, true⟩) :
    ∃ s', Executes p f [⟨.place .getStructMember, [o, selector], some l⟩] s s' ∧
      Executing p f s' ∧
      operandAddress p (.local l) s' = .ok (a + member.offset, member.ty) s' := by
  have hx := (reachesMember_getStructMember (f := f) haddress hselector hmember).computes hlt
  have hbound := h.bind_lvalue (hx (some l)) ((operandAddress_makes o).of_ok haddress) hdecl
    (Value.hasTy_ofAddress_pointer member.ty true _)
  rwa [Value.toNat_bits_ofAddress _ hlt] at hbound

end Executing

end Exec

/-! ## Room for the sums -/

/-- A word times the size of a type. -/
theorem scaled_bounds {i : Int} {n : Nat} (hi : -2 ^ 63 ≤ i ∧ i < 2 ^ 64) (hn : n < 2 ^ 62) :
    -2 ^ 125 ≤ i * n ∧ i * n ≤ (2 ^ 64 - 1) * (2 ^ 62 - 1) := by
  have hn' : (n : Int) ≤ 2 ^ 62 - 1 := by omega
  constructor
  · calc (-2 ^ 125 : Int) ≤ -2 ^ 63 * (2 ^ 62 - 1) := by decide
      _ ≤ -2 ^ 63 * n := Int.mul_le_mul_of_nonpos_left (by decide) hn'
      _ ≤ i * n := Int.mul_le_mul_of_nonneg_right hi.1 (Int.natCast_nonneg n)
  · calc i * n ≤ (2 ^ 64 - 1) * n :=
          Int.mul_le_mul_of_nonneg_right (by omega) (Int.natCast_nonneg n)
      _ ≤ (2 ^ 64 - 1) * (2 ^ 62 - 1) := Int.mul_le_mul_of_nonneg_left hn' (by decide)

theorem inRange_scaled {i : Int} {n : Nat} (hi : -2 ^ 63 ≤ i ∧ i < 2 ^ 64) (hn : n < 2 ^ 62) :
    InRange 128 true (i * n) := by
  have hbounds := scaled_bounds hi hn
  constructor <;> omega

/-- Not even the largest address and two largest indices leave twice the width of a word. -/
theorem inRange_add_scaled {a n m : Nat} {i j : Int} (ha : a < 2 ^ 64)
    (hi : -2 ^ 63 ≤ i ∧ i < 2 ^ 64) (hn : n < 2 ^ 62) (hj : -2 ^ 63 ≤ j ∧ j < 2 ^ 64)
    (hm : m < 2 ^ 62) :
    InRange 128 true (i * n + j * m) ∧ InRange 128 true (a + (i * n + j * m)) := by
  have hfirst := scaled_bounds hi hn
  have hsecond := scaled_bounds hj hm
  refine ⟨⟨?_, ?_⟩, ?_, ?_⟩ <;> omega

/-! ## Members of live storage -/

open Exec

/-- The instruction asks for the part with number `k` of the storage of type `T` at `a`: for a
member of an l-value, for a member of the element that a pointer and an index name, for an element
of such an array, or for the element that the pointer to the first element and an index name. -/
inductive Selects (p : Program) (s : State) (T : Ty) (a k : Nat) :
    PlaceOp → List Operand → State → Prop where
  | place {o selector : Operand} {t : State} (lvalue : operandAddress p o s = .ok (a, T) t)
      (number : Numbers p selector k) : Selects p s T a k .getStructMember [o, selector] t
  | pointee {ptr index selector : Operand} {mutable : Bool} {base : Nat} {i : Int} {t u : State}
      (pointer : Points p ptr (.pointer T mutable) base s t) (position : Counts p index i t u)
      (located : (a : Int) = (base + i * T.size) % 2 ^ 64) (number : Numbers p selector k) :
      Selects p s T a k .getPointerToStructMember [ptr, index, selector] u
  | array {elem : Ty} {len : Nat} {ptr first second : Operand} {mutable : Bool} {base : Nat}
      {i : Int} {t t' u : State} (type : T = .array elem len)
      (pointer : Points p ptr (.pointer (.array elem len) mutable) base s t)
      (position : Counts p first i t t')
      (located : (a : Int) = (base + i * (Ty.array elem len).size) % 2 ^ 64)
      (number : Counts p second k t' u) : Selects p s T a k .getGep2 [ptr, first, second] u
  | element {elem : Ty} {len : Nat} {ptr index : Operand} {mutable : Bool} {t u : State}
      (type : T = .array elem len) (pointer : Points p ptr (.pointer elem mutable) a s t)
      (number : Counts p index k t u) : Selects p s T a k .getPointer [ptr, index] u

/-- Member `k` of an array is an element. -/
theorem Layout.member?_array {elem : Ty} {len k : Nat} {member : Member}
    (h : (Layout.of (.array elem len)).member? k = some member) :
    member = ⟨k * elem.size, elem.size, elem⟩ := by
  change (if k < len then some (⟨k * elem.size, elem.size, elem⟩ : Member) else none) = _ at h
  split at h
  · exact (Option.some.inj h).symm
  · cases h

/-- However a member is asked for, the answer is its offset from the start of the storage, where
that is in the address space. -/
theorem Selects.computes {T : Ty} {a k : Nat} {op : PlaceOp} {args : List Operand}
    (h : Selects p s T a k op args t) {member : Member}
    (hmember : (Layout.of T).member? k = some member) (hlt : a + member.offset < 2 ^ 64) :
    ∃ mutable, Computes p f op args s
      (.ofAddress (.pointer member.ty mutable) (a + member.offset)) t := by
  -- Where the element is located by a wrapping sum, the storage is where the sum has wrapped to.
  have hwrapped {x : Int} (hx : (a : Int) = x % 2 ^ 64) : a = (x % 2 ^ 64).toNat := by omega
  cases h with
  | place lvalue number =>
    exact ⟨true, (reachesMember_getStructMember lvalue number hmember).computes hlt⟩
  | pointee pointer position located number =>
    have hreaches :=
      reachesMember_getPointerToStructMember (f := f) pointer position number hmember
    rw [← hwrapped located] at hreaches
    exact ⟨true, hreaches.computes hlt⟩
  | array type pointer position located number =>
    subst type
    obtain rfl := Layout.member?_array hmember
    refine ⟨true, ?_⟩
    rw [hwrapped located] at hlt ⊢
    rw [Value.ofAddress_wrapped _ hlt, Int.natCast_mul]
    exact computes_getGep2 pointer position number
  | @element _ _ _ _ mutable _ _ type pointer number =>
    subst type
    obtain rfl := Layout.member?_array hmember
    refine ⟨mutable, ?_⟩
    rw [← Value.pointerTo_of_lt _ hlt, Int.natCast_add, Int.natCast_mul]
    exact computes_getPointer pointer number

/-- The parts of the storage of type `T` at `a`. -/
structure Parts (p : Program) (f : Function) (s : State) (T : Ty) (a : Nat) : Prop where
  /-- Every way to ask for a part leads to its offset, without wrapping or failing. -/
  reached : ∀ k member op args t, (Layout.of T).member? k = some member →
    Selects p s T a k op args t → ∃ v mutable, Computes p f op args s v t ∧
      v.HasTy (.pointer member.ty mutable) ∧ (v.bits 64).toNat = a + member.offset
  inside : ∀ k member, (Layout.of T).member? k = some member →
    s.memory.Live (a + member.offset) member.ty.size ∧
      a + member.offset + member.ty.size ≤ a + T.size
  apart : T.isUnion = false → ∀ k k' member member', k ≠ k' →
    (Layout.of T).member? k = some member → (Layout.of T).member? k' = some member' →
    a + member.offset + member.ty.size ≤ a + member'.offset ∨
      a + member'.offset + member'.ty.size ≤ a + member.offset

theorem parts_of_live {T : Ty} {a : Nat} (hs : s.memory.Housed) (hlive : s.memory.Live a T.size) :
    Parts p f s T a where
  reached k member op args t hmember h := by
    have hfits := (Layout.member?_eq_some hmember).2.2
    have hlimit : a + T.size < 2 ^ 64 := hlive.lt_addressLimit hs
    have hlt : a + member.offset < 2 ^ 64 := by omega
    obtain ⟨mutable, hcomputes⟩ := h.computes (f := f) hmember hlt
    exact ⟨_, mutable, hcomputes, Value.hasTy_ofAddress_pointer _ _ _,
      Value.toNat_bits_ofAddress _ hlt⟩
  inside k member hmember := by
    have hfits := (Layout.member?_eq_some hmember).2.2
    exact ⟨hlive.part (by omega) (by omega), by omega⟩
  apart hunion k k' member member' hne hmember hmember' := by
    have hapart := Layout.apart hunion hmember hmember' hne
    rw [(Layout.member?_eq_some hmember).2.1, (Layout.member?_eq_some hmember').2.1] at hapart
    omega

/-! ## The laws of address arithmetic -/

/-- Computing addresses from the pointers and indices of a state. -/
structure ComputesAddresses (p : Program) (f : Function) (s : State) : Prop where
  /-- A pointer is moved by whole elements. -/
  moved : ∀ ptr index T mutable a i t u, Points p ptr (.pointer T mutable) a s t →
    Counts p index i t u →
    Computes p f .getPointer [ptr, index] s (.pointerTo (.pointer T mutable) (a + i * T.size)) u
  /-- Moving twice is moving by the sum, if an operand has it. -/
  movedTwice : ∀ ptr index T mutable a i t u l, Points p ptr (.pointer T mutable) a s t →
    Counts p index i t u → f.local? l = some ⟨.pointer T mutable, false⟩ →
    ∃ s', Executes p f [⟨.place .getPointer, [ptr, index], some l⟩] s s' ∧
      KeepsOperands p [l] u s' ∧
      ∀ next j u' sum t', Counts p next j s' u' → Counts p sum (i + j) t t' →
        ∃ v, Computes p f .getPointer [.local l, next] s' v u' ∧
          Computes p f .getPointer [ptr, sum] s v t'
  /-- Indexing a pointer to an array is moving it by arrays, changing its type and moving it by
  elements. -/
  indexed : ∀ ptr first elem len mutable a i t u op l q,
    Points p ptr (.pointer (.array elem len) mutable) a s t → Counts p first i t u →
    CastOp.reinterprets op = true →
    f.local? l = some ⟨.pointer (.array elem len) mutable, false⟩ →
    f.local? q = some ⟨Ty.mutPtrTo elem, false⟩ →
    ∃ s', Executes p f [⟨.place .getPointer, [ptr, first], some l⟩,
        ⟨.cast op, [.local l, .type (Ty.mutPtrTo elem)], some q⟩] s s' ∧
      KeepsOperands p [l, q] u s' ∧
      ∀ second j t' next u', Counts p second j u t' → Counts p next j s' u' →
        ∃ v, v = .pointerTo (Ty.mutPtrTo elem)
            (a + i * (Ty.array elem len).size + j * elem.size) ∧
          Computes p f .getGep2 [ptr, first, second] s v t' ∧
          Computes p f .getPointer [.local q, next] s' v u'
  /-- A member of an l-value is at its offset, or out of reach. -/
  placed : ∀ o selector T a k member t, operandAddress p o s = .ok (a, T) t →
    Numbers p selector k → (Layout.of T).member? k = some member →
    ReachesMember p f .getStructMember [o, selector] s a member t
  /-- The pointer to a member of an element is the address of the member of what the moved pointer
  points to. If one of them is out of reach, so is the other, and both fail alike. -/
  member : ∀ ptr index selector T mutable a i k member t u l c m,
    Points p ptr (.pointer T mutable) a s t → Counts p index i t u → Numbers p selector k →
    (Layout.of T).member? k = some member → f.local? l = some ⟨.pointer T mutable, false⟩ →
    f.local? c = some ⟨T, true⟩ → f.local? m = some ⟨member.ty, true⟩ →
    ∃ s₁, Executes p f [⟨.place .getPointer, [ptr, index], some l⟩,
        ⟨.place .dereference, [.local l], some c⟩] s s₁ ∧
      let element := ((a + i * T.size) % 2 ^ 64).toNat
      (element + member.offset < 2 ^ 64 → ∃ s' v,
        Executes p f [⟨.place .getStructMember, [.local c, selector], some m⟩] s₁ s' ∧
        v = .pointerTo (Ty.mutPtrTo member.ty) (a + i * T.size + member.offset) ∧
        Computes p f .addressOf [.local m] s' v s' ∧
        Computes p f .getPointerToStructMember [ptr, index, selector] s v u) ∧
      (2 ^ 64 ≤ element + member.offset →
        Overflows p f .getStructMember [.local c, selector] s₁ element member s₁ ∧
        Overflows p f .getPointerToStructMember [ptr, index, selector] s element member u)

theorem computesAddresses (hrun : Executing p f s) : ComputesAddresses p f s where
  placed _ _ _ _ _ _ _ haddress hselector hmember :=
    reachesMember_getStructMember haddress hselector hmember
  moved _ _ _ _ _ _ _ _ hptr hindex := computes_getPointer hptr hindex
  movedTwice ptr index T mutable a i t u l hptr hindex hl := by
    obtain ⟨s', hexec, _, hkeeps, hmoved⟩ := hrun.bind_getPointer hptr hindex hl
    refine ⟨s', hexec, hkeeps, fun next j u' sum t' hnext hsum => ?_⟩
    refine ⟨_, ?_, computes_getPointer hptr hsum⟩
    -- The second move starts from an address that has been wrapped already.
    have hlast := computes_getPointer (f := f) hmoved hnext
    rwa [Value.pointerTo_wrapped, Int.add_assoc, ← Int.add_mul] at hlast
  indexed ptr first elem len mutable a i t u op l q hptr hfirst hop hl hq := by
    obtain ⟨s₁, hexec₁, hrun₁, hkeeps₁, hmoved⟩ := hrun.bind_getPointer hptr hfirst hl
    obtain ⟨s', hexec', _, hkeeps', hretyped⟩ := hrun₁.bind_retyped hop hmoved hq
    refine ⟨s', hexec₁.append hexec', hkeeps₁.trans hkeeps', ?_⟩
    intro second j t' next u' hsecond hnext
    have hlast := computes_getPointer (f := f) hretyped hnext
    rw [Value.pointerTo_wrapped] at hlast
    exact ⟨_, rfl, computes_getGep2 hptr hfirst hsecond, hlast⟩
  member ptr index selector T mutable a i k member t u l c m hptr hindex hselector hmember hl hc
      hm := by
    obtain ⟨s₁, hexec₁, hrun₁, _, hmoved⟩ := hrun.bind_getPointer hptr hindex hl
    obtain ⟨s₂, hexec₂, hrun₂, hplace⟩ := hrun₁.bind_dereference hmoved hc
    -- Both ways have come to the element, and look for the member there.
    have hstepwise := reachesMember_getStructMember (f := f) hplace hselector hmember
    have hthrough :=
      reachesMember_getPointerToStructMember (f := f) hptr hindex hselector hmember
    refine ⟨s₂, hexec₁.append hexec₂, fun hlt => ?_, fun hle => ?_⟩
    · obtain ⟨s', hexec', _, haddress⟩ := hrun₂.bind_getStructMember hplace hselector hmember hlt hm
      have hvalue := Value.ofAddress_wrapped (Ty.mutPtrTo member.ty) hlt
      refine ⟨s', _, hexec', rfl, ?_, ?_⟩
      · rw [← hvalue]
        exact computes_addressOf haddress
      · rw [← hvalue]
        exact hthrough.computes hlt
    · exact ⟨hstepwise.overflows hle, hthrough.overflows hle⟩

/-- What is computed from an address and indices before it wraps. -/
structure FitsTwoWords (a : Nat) (i j : Int) (T U : Ty) : Prop where
  scaled : InRange 128 true (i * T.size)
  moved : InRange 128 true (a + i * T.size)
  indexed : InRange 128 true (i * T.size + j * U.size)
  summed : InRange 128 true (a + (i * T.size + j * U.size))

theorem fitsTwoWords {o o' ptr : Operand} {ty : Ty} {a : Nat} {i j : Int}
    {s₁ s₂ s₃ t₁ t₂ t₃ : State} (hptr : Points p ptr ty a s₁ t₁) (hi : Counts p o i s₂ t₂)
    (hj : Counts p o' j s₃ t₃) {T U : Ty} (hT : T.size < 2 ^ 62) (hU : U.size < 2 ^ 62) :
    FitsTwoWords a i j T U where
  scaled := inRange_scaled hi.bounds hT
  moved := by
    -- Moving is indexing with zero for the second index.
    have hsum := (inRange_add_scaled (j := 0) (m := 0) hptr.lt hi.bounds hT (by decide) (by decide)).2
    rwa [Int.zero_mul, Int.add_zero] at hsum
  indexed := (inRange_add_scaled hptr.lt hi.bounds hT hj.bounds hU).1
  summed := (inRange_add_scaled hptr.lt hi.bounds hT hj.bounds hU).2

/-- Address computations agree modulo 2^64. Wherever a function is being executed, for every base
address and every index of an integer type, moving a pointer adds the scaled index; moving it twice
adds the sum; indexing an array through a pointer, and finding a member through a pointer, add what
the instructions they stand for add one after the other. What they compute before wrapping fits twice
the width of a word, and all of them complete, except that a member whose offset leads out of the
address space cannot be found, whichever way it is looked for. If native code leaves storage where it
is, the parts of live storage are found inside it, and those of arrays and structures apart from each
other. -/
theorem address_computations_compose {fr : Frame} {rest : List Frame} (hp : p.module.Built)
    (hs : Reachable p s) (hfr : s.frames = fr :: rest)
    (hf : p.module.function fr.function = .ok f) :
    ComputesAddresses p f s ∧
    (∀ ptr ty a s₁ t₁ o i s₂ t₂ o' j s₃ t₃, Points p ptr ty a s₁ t₁ → Counts p o i s₂ t₂ →
      Counts p o' j s₃ t₃ → ∀ T U : Ty, T.size < 2 ^ 62 → U.size < 2 ^ 62 →
      FitsTwoWords a i j T U) ∧
    (p.host.KeepsExtent → ∀ T a, s.memory.Live a T.size → Parts p f s T a) := by
  refine ⟨computesAddresses ⟨hs.wellTyped hp, fr, rest, hfr, hf⟩, ?_, ?_⟩
  · intro ptr ty a s₁ t₁ o i s₂ t₂ o' j s₃ t₃ hptr hi hj T U hT hU
    exact fitsTwoWords hptr hi hj hT hU
  · intro hhost T a hlive
    exact parts_of_live (hs.housed hhost) hlive

namespace Walking

def pairTy : Ty := .struct "pair" [Ty.i8, Ty.i32]

def rowsTy : Ty := .array pairTy 3

/-- Makes room for three pairs and then walks from the first argument to a pair. -/
def body : Build Unit := do
  let storage ← Build.createLVal rowsTy
  let rows ← Build.emitValue (.place .getPointer) [.local ⟨0⟩, .local ⟨1⟩] (Ty.mutPtrTo rowsTy)
  let pairs ← Build.emitValue (.cast .bitcast) [rows, .type (Ty.mutPtrTo pairTy)]
    (Ty.mutPtrTo pairTy)
  let _ ← Build.emitValue (.place .getPointer) [pairs, .local ⟨2⟩] (Ty.mutPtrTo pairTy)
  let second ← Build.constInt Ty.word 1
  let _ ← Build.emitLValue (.place .getStructMember) [storage, second] pairTy
  Build.ret none

theorem appends_body : Build.Appends body :=
  (Build.appends_emitLValue _ _ _).bind fun _ => (Build.appends_emitValue _ _ _).bind fun _ =>
    (Build.appends_emitValue _ _ _).bind fun _ => (Build.appends_emitValue _ _ _).bind fun _ =>
      (Build.appends_constInt _ _).bind fun _ => (Build.appends_emitLValue _ _ _).bind fun _ =>
        Build.appends_emitVoid _ _

def filled : Builder :=
  (Doubling.fill { name := "walking" } "walk"
    (.function [Ty.mutPtrTo rowsTy, Ty.i8, Ty.i8, Ty.mutPtrTo rowsTy] .void false) body).toOption.get
    (by decide +kernel)

theorem filled_built : filled.module.Built := by
  have hfill : Doubling.fill { name := "walking" } "walk"
      (.function [Ty.mutPtrTo rowsTy, Ty.i8, Ty.i8, Ty.mutPtrTo rowsTy] .void false) body =
        .ok filled := rfl
  exact ⟨"walking", Doubling.grows_fill appends_body hfill⟩

def program : Program := { module := filled.module }

/-- A pointer to an address near zero, the indices -1 and 2, and a pointer to an address that is less
than one array away from zero. -/
def args : List Value :=
  [.ofAddress (Ty.mutPtrTo rowsTy) 4, { ty := Ty.i8, bytes := [0xFF] },
    { ty := Ty.i8, bytes := [2] }, .ofAddress (Ty.mutPtrTo rowsTy) 13]

/-- The state in which there is room for the pairs. -/
def made : State := (Exec.step program 0).after ((Exec.startCall program ⟨0⟩ args).after {})

theorem made_reachable : Reachable program made := by
  have hentered : Reachable program ((Exec.startCall program ⟨0⟩ args).after {}) :=
    .entered ⟨0⟩ args .fresh rfl
  exact .stepped hentered

def function : Function := filled.module.functions.getD 0 default

/-- The frame of the function, in which the arguments and the storage of the pairs are bound. -/
def frame : Frame where
  function := ⟨0⟩
  locals :=
    #[some ((Value.ofAddress (Ty.mutPtrTo rowsTy) 4).withOrigin (.local ⟨0⟩)),
      some ⟨Ty.i8, .local ⟨1⟩, [0xFF]⟩, some ⟨Ty.i8, .local ⟨2⟩, [2]⟩,
      some ((Value.ofAddress (Ty.mutPtrTo rowsTy) 13).withOrigin (.local ⟨3⟩)),
      some ((Value.ofAddress (Ty.mutPtrTo rowsTy) Arena.base).withOrigin (.local ⟨4⟩)),
      none, none, none, none]
  pc := 1
  allocs := [(Arena.base, 15)]

theorem frames_eq : made.frames = [frame] := by decide +kernel

theorem found : program.module.function frame.function = .ok function := rfl

theorem live : made.memory.Live Arena.base rowsTy.size :=
  ⟨⟨Arena.base, 15, .frame⟩, .inl (by decide +kernel), Nat.le_refl _, Nat.le_refl _⟩

theorem operand_arg {l : Local} {v : Value} (hbound : frame.lookup? l = some v)
    (hdecl : function.local? l = some ⟨v.ty, false⟩) :
    operand program (.local l) made = .ok v made :=
  operand_local frames_eq found hbound hdecl

theorem points : Points program (.local ⟨0⟩) (Ty.mutPtrTo rowsTy) 4 made made :=
  ⟨_, operand_arg rfl rfl, ⟨rfl, rfl⟩, by decide⟩

theorem points_near : Points program (.local ⟨3⟩) (Ty.mutPtrTo rowsTy) 13 made made :=
  ⟨_, operand_arg rfl rfl, ⟨rfl, rfl⟩, by decide⟩

theorem counts_back : Counts program (.local ⟨1⟩) (-1) made made :=
  ⟨_, 8, true, operand_arg rfl rfl, ⟨rfl, rfl⟩, rfl, by decide⟩

theorem counts_two : Counts program (.local ⟨2⟩) 2 made made :=
  ⟨_, 8, true, operand_arg rfl rfl, ⟨rfl, rfl⟩, rfl, by decide⟩

theorem numbers : Numbers program (.const ⟨0⟩) 1 := ⟨⟨0⟩, Ty.word, rfl, rfl, by decide⟩

theorem second_pair : (Layout.of rowsTy).member? 1 = some ⟨5, 5, pairTy⟩ := rfl

theorem third_pair : (Layout.of rowsTy).member? 2 = some ⟨10, 5, pairTy⟩ := rfl

theorem selects : Selects program made rowsTy Arena.base 1 .getStructMember
    [.local ⟨4⟩, .const ⟨0⟩] made := by
  have hbound : frame.lookup? ⟨4⟩ = some
      ((Value.ofAddress (Ty.mutPtrTo rowsTy) Arena.base).withOrigin (.local ⟨4⟩)) := rfl
  exact .place (operandAddress_local frames_eq found hbound rfl rfl) numbers

end Walking

/-- From address 4, one array back is below zero and so at the upper end of the address space, and
so are the last pair of that array and the second one, each by two ways. The second pair of the
array in memory is five bytes from its start and does not touch the third. -/
theorem address_computations_compose_walking :
    Computes Walking.program Walking.function .getPointer [.local ⟨0⟩, .local ⟨1⟩] Walking.made
      (.ofAddress (Ty.mutPtrTo Walking.rowsTy) (2 ^ 64 - 11)) Walking.made ∧
    (∃ s', Executes Walking.program Walking.function
        [⟨.place .getPointer, [.local ⟨0⟩, .local ⟨1⟩], some ⟨5⟩⟩,
          ⟨.cast .bitcast, [.local ⟨5⟩, .type (Ty.mutPtrTo Walking.pairTy)], some ⟨6⟩⟩]
        Walking.made s' ∧
      Computes Walking.program Walking.function .getGep2 [.local ⟨0⟩, .local ⟨1⟩, .local ⟨2⟩]
        Walking.made (.ofAddress (Ty.mutPtrTo Walking.pairTy) (2 ^ 64 - 1)) Walking.made ∧
      Computes Walking.program Walking.function .getPointer [.local ⟨6⟩, .local ⟨2⟩] s'
        (.ofAddress (Ty.mutPtrTo Walking.pairTy) (2 ^ 64 - 1)) s') ∧
    (∃ s₁ s', Executes Walking.program Walking.function
        [⟨.place .getPointer, [.local ⟨0⟩, .local ⟨1⟩], some ⟨5⟩⟩,
          ⟨.place .dereference, [.local ⟨5⟩], some ⟨4⟩⟩] Walking.made s₁ ∧
      Executes Walking.program Walking.function
        [⟨.place .getStructMember, [.local ⟨4⟩, .const ⟨0⟩], some ⟨8⟩⟩] s₁ s' ∧
      Computes Walking.program Walking.function .addressOf [.local ⟨8⟩] s'
        (.ofAddress (Ty.mutPtrTo Walking.pairTy) (2 ^ 64 - 6)) s' ∧
      Computes Walking.program Walking.function .getPointerToStructMember
        [.local ⟨0⟩, .local ⟨1⟩, .const ⟨0⟩] Walking.made
        (.ofAddress (Ty.mutPtrTo Walking.pairTy) (2 ^ 64 - 6)) Walking.made) ∧
    FitsTwoWords 4 (-1) 2 Walking.rowsTy Walking.pairTy ∧
    (∃ v, Computes Walking.program Walking.function .getStructMember [.local ⟨4⟩, .const ⟨0⟩]
      Walking.made v Walking.made ∧ (v.bits 64).toNat = Arena.base + 5) ∧
    (Arena.base + 5 + 5 ≤ Arena.base + 10 ∨ Arena.base + 10 + 5 ≤ Arena.base + 5) := by
  obtain ⟨hcomputes, hfits, hparts⟩ :=
    address_computations_compose Walking.filled_built Walking.made_reachable Walking.frames_eq
      Walking.found
  have hstorage := hparts Native.host_keepsExtent Walking.rowsTy Arena.base Walking.live
  refine ⟨?_, ?_, ?_, ?_, ?_, ?_⟩
  · exact hcomputes.moved _ _ _ _ _ _ _ _ Walking.points Walking.counts_back
  · obtain ⟨s', hexec, hkeeps, hindexed⟩ := hcomputes.indexed _ _ _ _ _ _ _ _ _ .bitcast ⟨5⟩ ⟨6⟩
      Walking.points Walking.counts_back rfl rfl rfl
    have hnext := Walking.counts_two.kept hkeeps (by decide)
    obtain ⟨v, rfl, hgep, hmoved⟩ := hindexed _ _ _ _ _ Walking.counts_two hnext
    exact ⟨s', hexec, hgep, hmoved⟩
  · obtain ⟨s₁, hexec, hreached, _⟩ := hcomputes.member _ _ _ _ _ _ _ _ _ _ _ ⟨5⟩ ⟨4⟩ ⟨8⟩
      Walking.points Walking.counts_back Walking.numbers Walking.second_pair rfl rfl rfl
    obtain ⟨s', v, hexec', rfl, haddress, hmember⟩ := hreached (by decide)
    exact ⟨s₁, s', hexec, hexec', haddress, hmember⟩
  · exact hfits _ _ _ _ _ _ _ _ _ _ _ _ _ Walking.points Walking.counts_back Walking.counts_two
      _ _ (by decide) (by decide)
  · obtain ⟨v, _, hv, _, haddress⟩ := hstorage.reached _ _ _ _ _ Walking.second_pair Walking.selects
    exact ⟨v, hv, haddress⟩
  · exact hstorage.apart rfl 1 2 _ _ (by decide) Walking.second_pair Walking.third_pair

/-- From address 13, one array back is two bytes before the end of the address space. The second pair
of that array, five bytes further on, is not found at address 3. Both ways to it fail. -/
theorem address_computations_overflow :
    Points Walking.program (.local ⟨3⟩) (Ty.mutPtrTo Walking.rowsTy) 13 Walking.made Walking.made ∧
    Counts Walking.program (.local ⟨1⟩) (-1) Walking.made Walking.made ∧
    (Layout.of Walking.rowsTy).member? 1 = some ⟨5, 5, Walking.pairTy⟩ ∧
    Overflows Walking.program Walking.function .getPointerToStructMember
      [.local ⟨3⟩, .local ⟨1⟩, .const ⟨0⟩] Walking.made (2 ^ 64 - 2) ⟨5, 5, Walking.pairTy⟩
      Walking.made ∧
    ∃ s₁, Executes Walking.program Walking.function
        [⟨.place .getPointer, [.local ⟨3⟩, .local ⟨1⟩], some ⟨5⟩⟩,
          ⟨.place .dereference, [.local ⟨5⟩], some ⟨4⟩⟩] Walking.made s₁ ∧
      Overflows Walking.program Walking.function .getStructMember [.local ⟨4⟩, .const ⟨0⟩] s₁
        (2 ^ 64 - 2) ⟨5, 5, Walking.pairTy⟩ s₁ := by
  have hrun : Executing Walking.program Walking.function Walking.made :=
    ⟨Walking.made_reachable.wellTyped Walking.filled_built, _, _, Walking.frames_eq, Walking.found⟩
  obtain ⟨s₁, hexec, _, hover⟩ := (computesAddresses hrun).member _ _ _ _ _ _ _ _ _ _ _ ⟨5⟩ ⟨4⟩ ⟨8⟩
    Walking.points_near Walking.counts_back Walking.numbers Walking.second_pair rfl rfl rfl
  obtain ⟨hstepwise, hthrough⟩ := hover (by decide)
  exact ⟨Walking.points_near, Walking.counts_back, Walking.second_pair, hthrough, s₁, hexec,
    hstepwise⟩

end PackedIR
