/-
Conversions of integers and pointers.

A conversion that changes the width reads its operand as a number and writes the word of that number
in the target type. Reading a word and writing it again at the same width changes nothing, and a
narrow word is determined by a wide one that the number had on the way. The laws of two conversions
in a row follow from these two facts, whichever way each of the steps reads its operand.

The reinterpreting conversions change nothing but the type and ask only for equal sizes.
-/
import PackedIR.Proofs.Arithmetic

set_option autoImplicit false

namespace PackedIR

variable {w w' m : Nat}

/-! ## Words of one number -/

/-- Cutting the word of a number gives its narrower word. -/
theorem setWidth_ofInt (hle : w' ≤ w) (i : Int) :
    (BitVec.ofInt w i).setWidth w' = BitVec.ofInt w' i := by
  have hdvd : ((2 ^ w' : Nat) : Int) ∣ ((2 ^ w : Nat) : Int) :=
    Int.natCast_dvd_natCast.mpr (Nat.pow_dvd_pow 2 hle)
  have hpos : 0 < 2 ^ w := Nat.two_pow_pos w
  have hnonneg : 0 ≤ i % ((2 ^ w : Nat) : Int) := Int.emod_nonneg i (by omega)
  -- The smaller power divides the larger one, so the first remainder can be left out.
  apply BitVec.eq_of_toNat_eq
  rw [BitVec.toNat_setWidth, BitVec.toNat_ofInt, BitVec.toNat_ofInt,
    ← Int.emod_emod_of_dvd i hdvd, Int.toNat_emod hnonneg (Int.natCast_nonneg _), Int.toNat_natCast]

/-- A number that has been a word of at least the width needed has lost nothing of its word. -/
theorem ofInt_number_ofInt (hle : w' ≤ w) (signed : Bool) (i : Int) :
    BitVec.ofInt w' (number signed (BitVec.ofInt w i)) = BitVec.ofInt w' i := by
  rw [← setWidth_ofInt hle, ofInt_number, setWidth_ofInt hle]

/-- Wider words denote all numbers that narrower ones denote. -/
theorem InRange.mono {signed : Bool} {i : Int} (hle : w ≤ w') (h : InRange w signed i) :
    InRange w' signed i := by
  have hpow {k n : Nat} (hkn : k ≤ n) : (2 : Int) ^ k ≤ 2 ^ n := by
    exact_mod_cast Nat.pow_le_pow_right Nat.zero_lt_two hkn
  unfold InRange at h ⊢
  cases signed with
  | true =>
    have hbound := hpow (Nat.sub_le_sub_right hle 1)
    obtain ⟨hlow, hhigh⟩ := h
    exact ⟨Int.le_trans (Int.neg_le_neg hbound) hlow, Int.lt_of_lt_of_le hhigh hbound⟩
  | false => exact ⟨h.1, Int.lt_of_lt_of_le h.2 (hpow hle)⟩

/-! ## Changes of width -/

namespace CastOp

variable {S M T : Ty} {s sM s' signed signed' : Bool} {v : Value} {op back : CastOp}

theorem resize_eq (hS : S.Holds w s) (hT : T.Holds w' s') (hv : v.HasTy S) (op : CastOp)
    (signed : Bool) :
    op.resize v T signed = .ok (.ofBits T (BitVec.ofInt w' (number signed (v.bits w)))) := by
  unfold resize
  rw [intOperand_eq _ hS hv]
  exact Value.ofInt_eq hT _

/-- A value that keeps its type keeps its bytes, however it is read. -/
theorem resize_self (hS : S.Holds w s) (hv : v.HasTy S) (op : CastOp) (signed : Bool) :
    op.resize v S signed = .ok (v.withOrigin .intermediate) := by
  rw [resize_eq hS hS hv, ofInt_number, Value.ofBits_bits hS hv]

/-- A detour through a type as wide as the target changes nothing, however its word is read. -/
theorem resize_resize (hS : S.Holds w s) (hM : M.Holds m sM) (hT : T.Holds w' s')
    (hv : v.HasTy S) (hle : w' ≤ m) :
    (op.resize v M signed >>= fun y => back.resize y T signed') = op.resize v T signed := by
  -- The word in between may denote another number, but one with the same low bits.
  rw [resize_eq hS hM hv, resize_eq hS hT hv]
  change back.resize (.ofBits M _) T signed' = _
  rw [resize_eq hM hT (Value.hasTy_ofBits _ _), Value.bits_ofBits hM, ofInt_number_ofInt hle]

/-- A detour through a type that holds the number itself changes nothing, be it narrower than the
target. -/
theorem resize_resize_of_le (hS : S.Holds w s) (hM : M.Holds m sM) (hT : T.Holds w' s')
    (hv : v.HasTy S) (hle : w ≤ m) :
    (op.resize v M signed >>= fun y => back.resize y T signed) = op.resize v T signed := by
  have hnumber : number signed (BitVec.ofInt m (number signed (v.bits w))) =
      number signed (v.bits w) :=
    number_ofInt hM.pos ((inRange_number signed _).mono hle)
  rw [resize_eq hS hM hv, resize_eq hS hT hv]
  change back.resize (.ofBits M _) T signed = _
  rw [resize_eq hM hT (Value.hasTy_ofBits _ _), Value.bits_ofBits hM, hnumber]

/-- The conversions that change the width, the types that they accept and how they read the
source. -/
inductive Resizes (S T : Ty) : CastOp → Bool → Prop where
  | intSize (source : S.isIntLike = true) (target : T.isInteger = true) :
      Resizes S T .intSize S.isSigned
  | zeroExtend (source : S.isIntLike = true) (target : T.isIntLike = true) :
      Resizes S T .zeroExtend false
  | intTruncate (source : S.isIntLike = true) (target : T.isIntLike = true) :
      Resizes S T .intTruncate false
  | pointerToInt (source : S.isPointer = true) (target : T.isInteger = true) :
      Resizes S T .pointerToInt false
  | intToPointer (source : S.isIntLike = true) (target : T.isPointer = true) :
      Resizes S T .intToPointer S.isSigned

theorem Resizes.eval_eq (h : Resizes S T op signed) (hv : v.HasTy S) :
    op.eval v T = op.resize v T signed := by
  have hty : v.ty = S := hv.1
  subst hty
  cases h with
  | intSize source target | zeroExtend source target | intTruncate source target
  | pointerToInt source target | intToPointer source target =>
    exact if_pos (by rw [source, target]; rfl)

/-- Two accepted conversions in a row resize twice. -/
theorem Resizes.eval_eval (hS : S.Holds w s) (hM : M.Holds m sM) (hv : v.HasTy S)
    (hop : Resizes S M op signed) (hback : Resizes M T back signed') :
    (op.eval v M >>= fun y => back.eval y T) =
      op.resize v M signed >>= fun y => back.resize y T signed' := by
  rw [hop.eval_eq hv, resize_eq hS hM hv]
  exact hback.eval_eq (Value.hasTy_ofBits _ _)

/-- A type at least as wide holds all there is to a value, so the way back restores it. -/
theorem Resizes.restores (hS : S.Holds w s) (hM : M.Holds m sM) (hv : v.HasTy S)
    (hop : Resizes S M op signed) (hback : Resizes M S back signed') (hle : w ≤ m) :
    (op.eval v M >>= fun y => back.eval y S) = .ok (v.withOrigin .intermediate) := by
  rw [hop.eval_eval hS hM hv hback, resize_resize hS hM hS hv hle, resize_self hS hv]

/-! ## Changes of type -/

/-- The conversions that keep the bytes. -/
def reinterprets : CastOp → Bool
  | .bitcast | .signedness | .intSignedness | .pointerType => true
  | _ => false

theorem eval_of_reinterprets (hop : op.reinterprets = true) (v : Value) (T : Ty) :
    op.eval v T = v.retype T := by
  cases op with
  | bitcast | signedness | intSignedness | pointerType => rfl
  | _ => cases hop

end CastOp

/-! ## The laws of conversions -/

/-- The conversions of an integer type or of the booleans, with words of `w` bits. -/
structure ConvertsIntegers (S : Ty) (w : Nat) : Prop where
  /-- A change of size keeps the number modulo the number of words, and keeps it altogether if the
  target has it. -/
  intSize : ∀ (x : Value) (w' : Nat) (s' : Bool), x.HasTy S → IsWidth w' →
    ∃ i y, x.asInt? = some i ∧ CastOp.intSize.eval x (.int w' s') = .ok y ∧
      y.toInt? false = some (i % 2 ^ w') ∧ (InRange w' s' i → y.asInt? = some i)
  /-- Zero extension and truncation do the same to the unsigned number. -/
  unsigned : ∀ (x : Value) (op : CastOp) (T : Ty) (w' : Nat) (s' : Bool), x.HasTy S →
    op = .zeroExtend ∨ op = .intTruncate → T.isIntLike = true → T.Holds w' s' →
    ∃ i y, x.toInt? false = some i ∧ op.eval x T = .ok y ∧ y.toInt? false = some (i % 2 ^ w')
  /-- Truncation undoes what widens, with the sign or with zeros. -/
  restored : ∀ (x : Value) (op : CastOp) (w' : Nat) (s' : Bool), x.HasTy S →
    op = .intSize ∨ op = .zeroExtend → IsWidth w' → w ≤ w' →
    (op.eval x (.int w' s') >>= fun y => CastOp.intTruncate.eval y S) =
      .ok (x.withOrigin .intermediate)
  /-- A detour changes nothing if it is as wide as the target, or as wide as the source and read in
  the same way. -/
  through : ∀ (x : Value) (m : Nat) (sM : Bool) (w' : Nat) (s' : Bool), x.HasTy S → IsWidth m →
    IsWidth w' → w' ≤ m ∨ w ≤ m ∧ sM = S.isSigned →
    (CastOp.intSize.eval x (.int m sM) >>= fun y => CastOp.intSize.eval y (.int w' s')) =
      CastOp.intSize.eval x (.int w' s')

theorem convertsIntegers {S : Ty} {s : Bool} (hS : S.Holds w s) (hlike : S.isIntLike = true) :
    ConvertsIntegers S w where
  intSize x w' s' hx hw' := by
    have hT : (Ty.int w' s').Holds w' s' := .int s' hw'
    have heval := CastOp.Resizes.eval_eq (T := .int w' s') (.intSize hlike rfl) hx
    refine ⟨_, _, Value.asInt?_eq hS hx, heval.trans (CastOp.resize_eq hS hT hx _ _), ?_, ?_⟩
    · rw [Value.toInt?_eq hT (Value.hasTy_ofBits _ _), Value.bits_ofBits hT, number_false_ofInt,
        hS.isSigned_eq]
    · intro hrange
      rw [Value.asInt?_eq hT (Value.hasTy_ofBits _ _), Value.bits_ofBits hT, hS.isSigned_eq,
        number_ofInt hT.pos hrange]
  unsigned x op T w' s' hx hop hlikeT hT := by
    have hresizes : CastOp.Resizes S T op false := by
      rcases hop with rfl | rfl
      · exact .zeroExtend hlike hlikeT
      · exact .intTruncate hlike hlikeT
    refine ⟨_, _, Value.toInt?_eq hS hx false,
      (hresizes.eval_eq hx).trans (CastOp.resize_eq hS hT hx _ _), ?_⟩
    rw [Value.toInt?_eq hT (Value.hasTy_ofBits _ _), Value.bits_ofBits hT, number_false_ofInt]
  restored x op w' s' hx hop hw' hle := by
    have hback : CastOp.Resizes (.int w' s') S .intTruncate false := .intTruncate rfl hlike
    rcases hop with rfl | rfl
    · exact CastOp.Resizes.restores hS (.int s' hw') hx (.intSize hlike rfl) hback hle
    · exact CastOp.Resizes.restores hS (.int s' hw') hx (.zeroExtend hlike rfl) hback hle
  through x m sM w' s' hx hm hw' h := by
    have hM : (Ty.int m sM).Holds m sM := .int sM hm
    have hT : (Ty.int w' s').Holds w' s' := .int s' hw'
    have hto {U : Ty} (hU : U.isIntLike = true) {k : Nat} {b : Bool} :
        CastOp.Resizes U (.int k b) .intSize U.isSigned := .intSize hU rfl
    rw [(hto hlike).eval_eval hS hM hx (hto rfl), (hto hlike).eval_eq hx]
    rcases h with hle | ⟨hle, rfl⟩
    · exact CastOp.resize_resize hS hM hT hx hle
    · exact CastOp.resize_resize_of_le hS hM hT hx hle

/-- Integers of the width of an address and pointers hold the same words. -/
structure ConvertsPointers (pointee : Ty) (mutable signed : Bool) : Prop where
  integer : ∀ x : Value, x.HasTy (.int 64 signed) →
    (CastOp.intToPointer.eval x (.pointer pointee mutable) >>= fun y =>
      CastOp.pointerToInt.eval y (.int 64 signed)) = .ok (x.withOrigin .intermediate)
  pointer : ∀ x : Value, x.HasTy (.pointer pointee mutable) →
    (CastOp.pointerToInt.eval x (.int 64 signed) >>= fun y =>
      CastOp.intToPointer.eval y (.pointer pointee mutable)) = .ok (x.withOrigin .intermediate)

theorem convertsPointers (pointee : Ty) (mutable signed : Bool) :
    ConvertsPointers pointee mutable signed := by
  have hint : (Ty.int 64 signed).Holds 64 signed := .int signed (by decide)
  have hpointer : (Ty.pointer pointee mutable).Holds 64 false := .pointer pointee mutable
  constructor
  · intro x hx
    exact CastOp.Resizes.restores hint hpointer hx (.intToPointer rfl rfl) (.pointerToInt rfl rfl)
      (Nat.le_refl 64)
  · intro x hx
    exact CastOp.Resizes.restores hpointer hint hx (.pointerToInt rfl rfl) (.intToPointer rfl rfl)
      (Nat.le_refl 64)

/-- A conversion that keeps the bytes of every value, of whatever types. -/
structure Reinterprets (op : CastOp) : Prop where
  succeeds_iff : ∀ (x : Value) (S T : Ty), x.HasTy S →
    ((∃ y, op.eval x T = .ok y) ↔ S.size = T.size)
  mismatch : ∀ (x : Value) (S T : Ty), x.HasTy S → S.size ≠ T.size →
    op.eval x T = raise (.sizeMismatch T.size S.size)
  bytes : ∀ (x y : Value) (T : Ty), op.eval x T = .ok y → y.bytes = x.bytes
  /-- Any conversion of this kind leads back. -/
  undone : ∀ (x y : Value) (S T : Ty) (back : CastOp), x.HasTy S → back.reinterprets = true →
    op.eval x T = .ok y → back.eval y S = .ok x

theorem reinterprets {op : CastOp} (hop : op.reinterprets = true) : Reinterprets op where
  succeeds_iff x S T hx := by
    have hsize : x.size = S.size := hx.2
    constructor
    · rintro ⟨y, h⟩
      rw [CastOp.eval_of_reinterprets hop, Value.retype_eq_ok_iff, hsize] at h
      exact h.1.symm
    · intro h
      refine ⟨{ x with ty := T }, ?_⟩
      rw [CastOp.eval_of_reinterprets hop, Value.retype_eq_ok_iff, hsize]
      exact ⟨h.symm, rfl⟩
  mismatch x S T hx hne := by
    have hsize : x.size = S.size := hx.2
    rw [CastOp.eval_of_reinterprets hop]
    unfold Value.retype checkSize
    rw [hsize, if_neg hne.symm]
    rfl
  bytes x y T h := by
    rw [CastOp.eval_of_reinterprets hop, Value.retype_eq_ok_iff] at h
    rw [h.2]
  undone x y S T back hx hback h := by
    rw [CastOp.eval_of_reinterprets hop, Value.retype_eq_ok_iff] at h
    obtain ⟨_, rfl⟩ := h
    rw [CastOp.eval_of_reinterprets hback, Value.retype_eq_ok_iff]
    refine ⟨hx.2.symm, ?_⟩
    rw [← hx.1]

/-- Conversions keep what they promise: changes of size the number or its low bits, those between
pointers and integers of their width the whole word, reinterpretations the bytes. All give a value
of the target type, and this is what the instructions compute. -/
theorem conversions_keep_numbers_and_bytes :
    (∀ (S : Ty) (w : Nat) (s : Bool), S.Holds w s → S.isIntLike = true → ConvertsIntegers S w) ∧
    (∀ (pointee : Ty) (mutable signed : Bool), ConvertsPointers pointee mutable signed) ∧
    (∀ op : CastOp, op.reinterprets = true → Reinterprets op) ∧
    (∀ (op : CastOp) (x y : Value) (T : Ty), op.eval x T = .ok y → y.HasTy T) ∧
    ∀ (p : Program) (f : Function) (s t : State) (op : CastOp) (o : Operand) (x : Value) (T : Ty)
      (result : Option Local), Exec.operand p o s = .ok x t →
      Exec.execute p f ⟨.cast op, [o, .type T], result⟩ s = Exec.finished (op.eval x T) t := by
  refine ⟨fun S w s hS hlike => convertsIntegers hS hlike, convertsPointers,
    fun op hop => reinterprets hop, fun op x y T h => CastOp.hasTy_of_eval h, ?_⟩
  intro p f s t op o x T result ho
  exact (Applies.cast result ho).execute_eq f

/-- The byte -2 widened with its sign and with zeros, cut back, and taken for an unsigned one. -/
theorem conversions_keep_numbers_and_bytes_of_minus_two :
    let x : Value := { ty := Ty.i8, bytes := [0xFE] }
    (∃ y, CastOp.intSize.eval x Ty.i32 = .ok y ∧ y.asInt? = some (-2)) ∧
    (∃ y, CastOp.zeroExtend.eval x Ty.i32 = .ok y ∧ y.toInt? false = some 254) ∧
    (CastOp.zeroExtend.eval x Ty.i32 >>= fun y => CastOp.intTruncate.eval y Ty.i8) = .ok x ∧
    (∃ y, CastOp.signedness.eval x Ty.u8 = .ok y ∧ CastOp.bitcast.eval y Ty.i8 = .ok x) ∧
    CastOp.bitcast.eval x Ty.u16 = raise (.sizeMismatch 2 1) := by
  obtain ⟨hintegers, _, hkept, _⟩ := conversions_keep_numbers_and_bytes
  have hbyte := hintegers Ty.i8 8 true (.int true (by decide)) rfl
  intro x
  have hx : x.HasTy Ty.i8 := ⟨rfl, rfl⟩
  have hrestored :=
    hbyte.restored x .zeroExtend 32 true hx (.inr rfl) (by decide) (by decide)
  refine ⟨?_, ?_, hrestored, ?_, ?_⟩
  · obtain ⟨i, y, hi, hy, _, hnumber⟩ := hbyte.intSize x 32 true hx (by decide)
    cases hi
    exact ⟨y, hy, hnumber (by decide)⟩
  · obtain ⟨i, y, hi, hy, hnumber⟩ :=
      hbyte.unsigned x .zeroExtend Ty.i32 32 true hx (.inl rfl) rfl (.int true (by decide))
    cases hi
    exact ⟨y, hy, hnumber⟩
  · obtain ⟨y, hy⟩ := ((hkept .signedness rfl).succeeds_iff x Ty.i8 Ty.u8 hx).mpr rfl
    exact ⟨y, hy, (hkept .signedness rfl).undone x y Ty.i8 Ty.u8 .bitcast hx rfl hy⟩
  · exact (hkept .bitcast rfl).mismatch x Ty.i8 Ty.u16 hx (by decide)

end PackedIR
