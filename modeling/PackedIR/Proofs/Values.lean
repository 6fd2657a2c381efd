/-
The types of computed values.

`v.HasTy t` says that `v` carries exactly the type `t` and exactly as many bytes as `t`
is large. Values come out of constructors, operators, casts, member accesses and native
calls, and each of these names the type of its result beforehand. The lemmas here say
that a success keeps that promise. They ask nothing of the operands: where the bytes of
an operand decide the size of the result, the operation checks them.
-/
import PackedIR.Proofs.Computation

set_option autoImplicit false

namespace PackedIR

/-- The value has exactly this type, and the bytes to fill it. -/
def Value.HasTy (v : Value) (ty : Ty) : Prop := v.ty = ty ∧ v.size = ty.size

namespace Value

variable {v w : Value} {ty : Ty}

/-! ## Constructors -/

@[simp] theorem hasTy_withOrigin {o : Origin} : (v.withOrigin o).HasTy ty ↔ v.HasTy ty := Iff.rfl

theorem hasTy_zeroed (ty : Ty) : (zeroed ty).HasTy ty := by
  simp [HasTy, zeroed, Value.size]

theorem ofBytes_eq_ok_iff {bytes : Bytes} :
    ofBytes ty bytes = .ok v ↔ ty.size = bytes.length ∧ v = { ty, bytes } := by
  unfold ofBytes checkSize
  split <;> simp_all [bind, Except.bind, pure, Except.pure, raise, eq_comm]

theorem retype_eq_ok_iff : v.retype ty = .ok w ↔ ty.size = v.size ∧ w = { v with ty } := by
  unfold retype checkSize
  split <;> simp_all [bind, Except.bind, pure, Except.pure, raise, eq_comm]

theorem hasTy_of_ofBytes {bytes : Bytes} (h : ofBytes ty bytes = .ok v) : v.HasTy ty := by
  obtain ⟨hsize, rfl⟩ := ofBytes_eq_ok_iff.mp h
  exact ⟨rfl, hsize.symm⟩

theorem hasTy_of_retype (h : v.retype ty = .ok w) : w.HasTy ty := by
  obtain ⟨hsize, rfl⟩ := retype_eq_ok_iff.mp h
  exact ⟨rfl, hsize.symm⟩

/-- An integer fills its type with its low bytes. -/
theorem ofInt_eq_ok {i : Int} (h : ofInt ty i = .ok v) :
    v = { ty, bytes := Bytes.ofInt ty.size i } := by
  unfold ofInt at h
  split at h
  -- Types that are no integers, addresses or truth values.
  case h_5 => simp at h
  all_goals
    split at h
    · cases h
      rfl
    · cases h

theorem hasTy_of_ofInt {i : Int} (h : ofInt ty i = .ok v) : v.HasTy ty := by
  rw [ofInt_eq_ok h]
  exact ⟨rfl, Bytes.length_ofInt _ _⟩

theorem hasTy_ofWord (i : Int) : (ofWord i).HasTy Ty.word :=
  ⟨rfl, Bytes.length_ofInt _ _⟩

theorem hasTy_ofBool (b : Bool) : (ofBool b).HasTy .bool := ⟨rfl, rfl⟩

theorem hasTy_ofAddress (h : ty.size = wordSize) (address : Nat) :
    (ofAddress ty address).HasTy ty :=
  ⟨rfl, (Bytes.length_ofNat _ _).trans h.symm⟩

/-- A pointer is address-sized whatever it points to. -/
theorem hasTy_ofAddress_pointer (pointee : Ty) (mutable : Bool) (address : Nat) :
    (ofAddress (.pointer pointee mutable) address).HasTy (.pointer pointee mutable) :=
  hasTy_ofAddress (by simp only [Ty.size]) address

theorem hasTy_ofFloatBits (width : FloatWidth) (bits : Nat) :
    (ofFloatBits width bits).HasTy (.float width) :=
  ⟨rfl, Bytes.length_ofNat _ _⟩

theorem hasTy_of_ofDouble {bits : Nat} (h : ofDouble ty bits = .ok v) : v.HasTy ty := by
  unfold ofDouble at h
  split at h
  · cases h
    exact hasTy_ofFloatBits _ _
  · simp at h

/-! ## Members -/

theorem readAt_eq_ok_iff {offset : Nat} :
    v.readAt offset ty = .ok w ↔
      offset + ty.size ≤ v.size ∧ w = { ty, bytes := (v.bytes.drop offset).take ty.size } := by
  unfold readAt
  split
  · rename_i hfits
    -- The bytes are cut to the right length because they are all there.
    have hlen : ty.size = ((v.bytes.drop offset).take ty.size).length := by
      rw [List.length_take, List.length_drop]
      unfold Value.size at hfits
      omega
    rw [ofBytes_eq_ok_iff]
    exact ⟨fun h => ⟨hfits, h.2⟩, fun h => ⟨hlen, h.2⟩⟩
  · rename_i hlong
    simp [hlong]

theorem writeAt_eq_ok_iff {offset : Nat} {bytes : Bytes} :
    v.writeAt offset bytes = .ok w ↔ offset + bytes.length ≤ v.size ∧
      w = { v with
        bytes := v.bytes.take offset ++ bytes ++ v.bytes.drop (offset + bytes.length) } := by
  unfold writeAt
  split
  · rename_i hfits
    simp only [Except.ok.injEq, hfits, true_and]
    exact eq_comm
  · rename_i hlong
    simp [hlong]

theorem getMember_eq_ok_iff {m : Member} :
    v.getMember m = .ok w ↔ m.offset + m.ty.size ≤ v.size ∧
      w = { ty := m.ty, bytes := (v.bytes.drop m.offset).take m.ty.size } :=
  readAt_eq_ok_iff

/-- Replacing a member succeeds exactly when the new member has its size and the aggregate is
whole and large enough. -/
theorem setMember_eq_ok_iff {m : Member} {element : Value} :
    v.setMember m element = .ok w ↔
      m.size = element.size ∧ v.ty.size = v.size ∧ m.offset + element.size ≤ v.size ∧
        w = { ty := v.ty
              bytes := v.bytes.take m.offset ++ element.bytes
                ++ v.bytes.drop (m.offset + element.size) } := by
  unfold setMember
  simp only [except_bind_eq_ok_iff, checkSize_eq_ok_iff, ofBytes_eq_ok_iff]
  constructor
  · rintro ⟨_, hsize, _, ⟨hwhole, rfl⟩, hwrite⟩
    obtain ⟨hfits, rfl⟩ := writeAt_eq_ok_iff.mp hwrite
    exact ⟨hsize, hwhole, hfits, rfl⟩
  · rintro ⟨hsize, hwhole, hfits, rfl⟩
    exact ⟨(), hsize, _, ⟨hwhole, rfl⟩, writeAt_eq_ok_iff.mpr ⟨hfits, rfl⟩⟩

theorem hasTy_of_getMember {m : Member} (h : v.getMember m = .ok w) : w.HasTy m.ty := by
  obtain ⟨hfits, rfl⟩ := getMember_eq_ok_iff.mp h
  refine ⟨rfl, ?_⟩
  change ((v.bytes.drop m.offset).take m.ty.size).length = m.ty.size
  rw [List.length_take, List.length_drop]
  unfold Value.size at hfits
  omega

theorem hasTy_of_setMember {m : Member} {element : Value} (h : v.setMember m element = .ok w) :
    w.HasTy v.ty := by
  obtain ⟨_, hwhole, hfits, rfl⟩ := setMember_eq_ok_iff.mp h
  refine ⟨rfl, ?_⟩
  simp only [Value.size, List.length_append, List.length_take, List.length_drop] at hwhole hfits ⊢
  omega

end Value

/-! ## Operators -/

/-- The type of a binary operator's result, by the type of its left operand. -/
def BinaryOp.resultTy (op : BinaryOp) (left : Ty) : Ty :=
  match op with
  | .intOrder | .floatOrder => Ty.word
  | .intCompare _ | .floatCompare _ _ => .bool
  | _ => left

theorem hasTy_orderValue (o : Option Ordering) : (orderValue o).HasTy Ty.word := by
  unfold orderValue
  split <;> exact Value.hasTy_ofWord _

namespace BinaryOp

variable {left right v : Value}

theorem hasTy_of_evalIntArith {signed : Bool} {op : ArithOp}
    (h : evalIntArith signed op left right = .ok v) : v.HasTy left.ty := by
  unfold evalIntArith at h
  split at h
  · simp [unsupported] at h
  · simp only [except_bind_eq_ok_iff] at h
    obtain ⟨_, _, _, _, _, _, h⟩ := h
    exact Value.hasTy_of_ofInt h

theorem hasTy_of_evalFloatArith {op : ArithOp} (h : evalFloatArith op left right = .ok v) :
    v.HasTy left.ty := by
  unfold evalFloatArith at h
  split at h
  · simp [unsupported] at h
  · split at h
    · rename_i width hty
      simp only [except_bind_eq_ok_iff] at h
      obtain ⟨_, _, _, _, h⟩ := h
      cases h
      rw [hty]
      exact Value.hasTy_ofFloatBits _ _
    · simp [unsupported] at h

theorem hasTy_of_evalBitwise {op : BitOp} (h : evalBitwise op left right = .ok v) :
    v.HasTy left.ty := by
  unfold evalBitwise at h
  split at h
  · simp [unsupported] at h
  · exact Value.hasTy_of_ofBytes h

theorem hasTy_of_evalShift {op : ShiftOp} (h : evalShift op left right = .ok v) :
    v.HasTy left.ty := by
  unfold evalShift at h
  split at h
  · simp [unsupported] at h
  · simp only [except_bind_eq_ok_iff] at h
    obtain ⟨_, _, _, _, _, _, h⟩ := h
    exact Value.hasTy_of_ofInt h

/-- A binary operator gives the type that its group announces. -/
theorem hasTy_of_eval {op : BinaryOp} (h : op.eval left right = .ok v) :
    v.HasTy (op.resultTy left.ty) := by
  cases op with
  | int signed a => exact hasTy_of_evalIntArith h
  | float a => exact hasTy_of_evalFloatArith h
  | bitwise b => exact hasTy_of_evalBitwise h
  | shift s => exact hasTy_of_evalShift h
  | intCompare rel | floatCompare rel unordered =>
    obtain ⟨_, _, h⟩ := except_bind_eq_ok_iff.mp h
    cases h
    exact Value.hasTy_ofBool _
  | intOrder | floatOrder =>
    obtain ⟨_, _, h⟩ := except_bind_eq_ok_iff.mp h
    cases h
    exact hasTy_orderValue _

end BinaryOp

/-- A unary operator keeps the type of its operand. -/
theorem UnaryOp.hasTy_of_eval {op : UnaryOp} {v w : Value} (h : op.eval v = .ok w) :
    w.HasTy v.ty := by
  unfold UnaryOp.eval at h
  simp only at h
  split at h
  · obtain ⟨_, _, h⟩ := except_bind_eq_ok_iff.mp h
    exact Value.hasTy_of_ofInt h
  · rename_i width hty
    obtain ⟨_, _, h⟩ := except_bind_eq_ok_iff.mp h
    cases h
    rw [hty]
    exact Value.hasTy_ofFloatBits _ _
  · exact Value.hasTy_of_ofBytes h
  · rename_i hty
    rw [hty]
    split at h
    · cases h
      exact Value.hasTy_ofBool _
    · simp [unsupported] at h
  · simp [unsupported] at h

namespace CastOp

variable {op : CastOp} {v w : Value} {target : Ty}

@[simp] theorem unsupportedCast_ne_ok : unsupportedCast op v target ≠ .ok w := by
  simp [unsupportedCast]

theorem hasTy_of_resize {signed : Bool} (h : op.resize v target signed = .ok w) :
    w.HasTy target := by
  obtain ⟨_, _, h⟩ := except_bind_eq_ok_iff.mp h
  exact Value.hasTy_of_ofInt h

theorem hasTy_of_floatToIntValue (h : floatToIntValue v target = .ok w) : w.HasTy target := by
  unfold floatToIntValue at h
  split at h
  · exact Value.hasTy_of_ofInt h
  · simp at h

theorem hasTy_of_intToFloatValue (h : intToFloatValue v target = .ok w) : w.HasTy target := by
  obtain ⟨_, _, h⟩ := except_bind_eq_ok_iff.mp h
  split at h
  · cases h
    exact Value.hasTy_ofFloatBits _ _
  · simp at h

theorem hasTy_of_floatWidthValue (h : op.floatWidthValue v target = .ok w) : w.HasTy target := by
  unfold floatWidthValue at h
  split at h
  · exact Value.hasTy_of_ofDouble h
  · simp at h

/-- A cast gives its target type. -/
theorem hasTy_of_eval (h : op.eval v target = .ok w) : w.HasTy target := by
  -- Most casts look at the types first and are refused when these do not match.
  have guarded {ok : Bool} {result : Result Value}
      (h : (if ok then result else unsupportedCast op v target) = .ok w) : result = .ok w := by
    split at h
    · exact h
    · simp at h
  cases op with
  | bitcast | signedness | intSignedness | pointerType => exact Value.hasTy_of_retype h
  | intSize | zeroExtend | intTruncate | pointerToInt | intToPointer =>
    exact hasTy_of_resize (guarded h)
  | floatToInt => exact hasTy_of_floatToIntValue (guarded h)
  | intToFloat => exact hasTy_of_intToFloatValue (guarded h)
  | floatTruncate | floatExtend => exact hasTy_of_floatWidthValue (guarded h)

end CastOp

/-! ## Native results -/

/-- What comes back from native code has the declared return type, whatever the registers hold. -/
theorem Returned.hasTy_of_value {r : Returned} {ret : Ty} {c : AbiClass} {v : Value}
    (h : r.value ret c = .ok v) : v.HasTy ret ∧ v.origin = .intermediate := by
  unfold Returned.value at h
  split at h
  · cases h
    exact ⟨Value.hasTy_zeroed ret, rfl⟩
  all_goals
    obtain ⟨hsize, rfl⟩ := Value.ofBytes_eq_ok_iff.mp h
    exact ⟨⟨rfl, hsize.symm⟩, rfl⟩

end PackedIR
