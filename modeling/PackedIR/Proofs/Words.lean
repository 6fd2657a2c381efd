/-
Machine words.

A scalar is a list of bytes. Read as a vector of bits it denotes a number in two ways, unsigned and
in two's complement, and both readings are the ones that the evaluator uses. Writing a number takes
its low bytes, which is the word that the number is congruent to. So an operator that reads numbers,
computes without a bound and writes the result back computes on words, and what it computes can be
looked up among the operations of bit vectors.

`Ty.Holds` says which types hold words, of how many bits, and how they are read.
-/
import Mathlib.Algebra.Group.Int.Defs
import Mathlib.Algebra.Group.Nat.Defs
import PackedIR.Proofs.Values

set_option autoImplicit false

namespace PackedIR

variable {w : Nat}

/-! ## Bytes and bits -/

namespace Bytes

/-- The bytes as a word of `w` bits, the first byte lowest. -/
def bits (bs : Bytes) (w : Nat) : BitVec w := BitVec.ofNat w (toNat bs)

/-- The numbers of `size` bytes are those of eight times as many bits. -/
theorem pow_eq (size : Nat) : Nat.pow 256 size = 2 ^ (8 * size) := by
  rw [Nat.pow_mul]
  rfl

theorem toNat_bits {bs : Bytes} (h : 8 * bs.length = w) : (bs.bits w).toNat = toNat bs := by
  have hlt := toNat_lt bs
  rw [pow_eq, h] at hlt
  rw [bits, BitVec.toNat_ofNat, Nat.mod_eq_of_lt hlt]

theorem toInt_bits {bs : Bytes} (h : 8 * bs.length = w) : (bs.bits w).toInt = toInt bs := by
  rw [BitVec.toInt_eq_toNat_cond, toNat_bits h]
  unfold toInt
  rw [pow_eq, h]

/-- The bytes of a word are read back as this word. -/
theorem bits_ofNat {size : Nat} (h : 8 * size = w) (x : BitVec w) :
    (ofNat size x.toNat).bits w = x := by
  rw [bits, toNat_ofNat, pow_eq, h, Nat.mod_eq_of_lt x.isLt, BitVec.ofNat_toNat, BitVec.setWidth_eq]

/-- Bytes are determined by the word that they are. -/
theorem ofNat_bits {bs : Bytes} (h : 8 * bs.length = w) :
    ofNat bs.length (bs.bits w).toNat = bs := by
  rw [toNat_bits h, ofNat_toNat]

/-- The low bytes of a number are the word that it is congruent to. -/
theorem ofInt_eq {size : Nat} (h : 8 * size = w) (i : Int) :
    ofInt size i = ofNat size (BitVec.ofInt w i).toNat := by
  rw [ofInt, BitVec.toNat_ofInt, pow_eq, h]

theorem testBit_toNat_cons (b : UInt8) (bs : Bytes) (i : Nat) :
    (toNat (b :: bs)).testBit i =
      if i < 8 then b.toNat.testBit i else (toNat bs).testBit (i - 8) := by
  have hb : b.toNat < 2 ^ 8 := b.toNat_lt
  rw [toNat, Nat.add_comm, ← Nat.testBit_two_pow_mul_add _ hb]

/-- What is done bit by bit to each pair of bytes is done bit by bit to the words. -/
theorem testBit_zipWith {f : UInt8 → UInt8 → UInt8} {g : Bool → Bool → Bool}
    (hf : ∀ b c i, i < 8 → (f b c).toNat.testBit i = g (b.toNat.testBit i) (c.toNat.testBit i))
    {bs cs : Bytes} (hlength : bs.length = cs.length) {i : Nat} (hi : i < 8 * bs.length) :
    (toNat (List.zipWith f bs cs)).testBit i = g ((toNat bs).testBit i) ((toNat cs).testBit i) := by
  induction bs generalizing cs i with
  | nil =>
    rw [List.length_nil] at hi
    omega
  | cons b bs ih =>
    cases cs with
    | nil => cases hlength
    | cons c cs =>
      rw [List.length_cons] at hi
      rw [List.zipWith_cons_cons, testBit_toNat_cons, testBit_toNat_cons, testBit_toNat_cons]
      by_cases hlow : i < 8
      · rw [if_pos hlow, if_pos hlow, if_pos hlow, hf b c i hlow]
      · rw [if_neg hlow, if_neg hlow, if_neg hlow, ih (Nat.succ.inj hlength) (by omega)]

/-- A word is known by its bits, and these are the bits of its bytes. -/
theorem bits_eq_of_testBit {bs : Bytes} {x : BitVec w}
    (h : ∀ i < w, (toNat bs).testBit i = x.getLsbD i) : bs.bits w = x := by
  apply BitVec.eq_of_getLsbD_eq
  intro i hi
  rw [bits, BitVec.getLsbD_ofNat, h i hi, decide_eq_true hi, Bool.true_and]

theorem getLsbD_bits {bs : Bytes} {i : Nat} (hi : i < w) :
    (bs.bits w).getLsbD i = (toNat bs).testBit i := by
  rw [bits, BitVec.getLsbD_ofNat, decide_eq_true hi, Bool.true_and]

end Bytes

/-! ## Numbers -/

/-- The number that a word denotes, in two's complement if `signed`. -/
def number (signed : Bool) (x : BitVec w) : Int := if signed then x.toInt else x.toNat

/-- However a word is read, it is the word of what is read. -/
theorem ofInt_number (signed : Bool) (x : BitVec w) : BitVec.ofInt w (number signed x) = x := by
  cases signed with
  | true => exact BitVec.ofInt_toInt
  | false =>
    change BitVec.ofInt w (x.toNat : Int) = x
    rw [BitVec.ofInt_natCast, BitVec.ofNat_toNat, BitVec.setWidth_eq]

theorem number_inj {signed : Bool} {x y : BitVec w} :
    number signed x = number signed y ↔ x = y := by
  constructor
  · intro h
    rw [← ofInt_number signed x, h, ofInt_number]
  · intro h
    rw [h]

theorem number_eq_zero_iff {signed : Bool} {x : BitVec w} : number signed x = 0 ↔ x = 0#w := by
  have hzero : number signed (0#w) = 0 := by
    cases signed with
    | true => exact BitVec.toInt_zero
    | false => simp [number]
  rw [← hzero, number_inj]

/-- Read unsigned, the word of a number is what is left of it modulo the number of words. -/
theorem number_false_ofInt (i : Int) : number false (BitVec.ofInt w i) = i % 2 ^ w := by
  have hpos : 0 < 2 ^ w := Nat.two_pow_pos w
  have hnonneg : 0 ≤ i % ((2 ^ w : Nat) : Int) := Int.emod_nonneg i (by omega)
  change ((BitVec.ofInt w i).toNat : Int) = _
  rw [BitVec.toNat_ofInt, Int.toNat_of_nonneg hnonneg, Int.natCast_pow]
  rfl

/-- The numbers that words of `w` bits denote. -/
def InRange (w : Nat) (signed : Bool) (i : Int) : Prop :=
  if signed then -2 ^ (w - 1) ≤ i ∧ i < 2 ^ (w - 1) else 0 ≤ i ∧ i < 2 ^ w

instance (w : Nat) (signed : Bool) : DecidablePred (InRange w signed) := fun i =>
  inferInstanceAs (Decidable
    (if signed then -2 ^ (w - 1) ≤ i ∧ i < 2 ^ (w - 1) else 0 ≤ i ∧ i < 2 ^ w))

/-- A number that some word denotes is denoted by its own word. -/
theorem number_ofInt {signed : Bool} {i : Int} (hw : 0 < w) (h : InRange w signed i) :
    number signed (BitVec.ofInt w i) = i := by
  unfold InRange at h
  cases signed with
  | true => exact BitVec.toInt_ofInt_eq_self hw h.1 h.2
  | false =>
    obtain ⟨n, rfl⟩ := Int.eq_ofNat_of_zero_le h.1
    have hlt : n < 2 ^ w := by exact_mod_cast h.2
    change ((BitVec.ofInt w (n : Int)).toNat : Int) = n
    rw [BitVec.ofInt_natCast, BitVec.toNat_ofNat, Nat.mod_eq_of_lt hlt]

/-- What a word denotes can be denoted. -/
theorem inRange_number (signed : Bool) (x : BitVec w) : InRange w signed (number signed x) := by
  cases signed with
  | true => exact ⟨BitVec.le_toInt x, BitVec.toInt_lt⟩
  | false =>
    have hlt : (x.toNat : Int) < 2 ^ w := by exact_mod_cast x.isLt
    exact ⟨Int.natCast_nonneg _, hlt⟩

/-! ## Types that hold words -/

/-- The widths of integers. -/
def IsWidth (w : Nat) : Prop := w = 8 ∨ w = 16 ∨ w = 32 ∨ w = 64

instance : DecidablePred IsWidth := fun w =>
  inferInstanceAs (Decidable (w = 8 ∨ w = 16 ∨ w = 32 ∨ w = 64))

/-- The type holds words of `w` bits, and these are read signed or unsigned. -/
inductive Ty.Holds : Ty → Nat → Bool → Prop where
  | int {w : Nat} (signed : Bool) (width : IsWidth w) : Holds (.int w signed) w signed
  | bool : Holds .bool 8 false
  | pointer (pointee : Ty) (mutable : Bool) : Holds (.pointer pointee mutable) 64 false

namespace Ty.Holds

variable {ty : Ty} {signed : Bool}

theorem isWidth (h : ty.Holds w signed) : IsWidth w := by
  cases h with
  | int _ width => exact width
  | bool | pointer => decide

theorem pos (h : ty.Holds w signed) : 0 < w := by
  rcases h.isWidth with rfl | rfl | rfl | rfl <;> decide

theorem size_eq (h : ty.Holds w signed) : 8 * ty.size = w := by
  cases h with
  | int _ width =>
    rw [Ty.size]
    rcases width with rfl | rfl | rfl | rfl <;> rfl
  | bool | pointer => simp only [Ty.size, wordSize]

theorem isIntSize (h : ty.Holds w signed) : Value.isIntSize ty.size = true := by
  have hsize := h.size_eq
  simp only [Value.isIntSize, Bool.or_eq_true, beq_iff_eq]
  rcases h.isWidth with rfl | rfl | rfl | rfl <;> omega

theorem isSigned_eq (h : ty.Holds w signed) : ty.isSigned = signed := by
  cases h <;> rfl

theorem length_bytes {v : Value} (h : ty.Holds w signed) (hv : v.HasTy ty) :
    8 * v.bytes.length = w := by
  have hlength : v.bytes.length = ty.size := hv.2
  rw [hlength, h.size_eq]

end Ty.Holds

/-! ## Values as words -/

namespace Value

variable {v : Value} {ty : Ty} {signed : Bool}

/-- The bits of a value. -/
def bits (v : Value) (w : Nat) : BitVec w := v.bytes.bits w

/-- The value of a type that has these bits. -/
def ofBits (ty : Ty) (x : BitVec w) : Value := { ty, bytes := Bytes.ofNat ty.size x.toNat }

theorem hasTy_ofBits (ty : Ty) (x : BitVec w) : (ofBits ty x).HasTy ty :=
  ⟨rfl, Bytes.length_ofNat _ _⟩

theorem bits_ofBits (hty : ty.Holds w signed) (x : BitVec w) : (ofBits ty x).bits w = x :=
  Bytes.bits_ofNat hty.size_eq x

theorem bytes_eq (hty : ty.Holds w signed) (hv : v.HasTy ty) :
    v.bytes = Bytes.ofNat ty.size (v.bits w).toNat := by
  have hlength : v.bytes.length = ty.size := hv.2
  rw [← hlength]
  exact (Bytes.ofNat_bits (hty.length_bytes hv)).symm

/-- A value is determined by its type and its bits, but for where it came from. -/
theorem ofBits_bits (hty : ty.Holds w signed) (hv : v.HasTy ty) :
    ofBits ty (v.bits w) = v.withOrigin .intermediate := by
  unfold ofBits withOrigin
  rw [← bytes_eq hty hv, ← hv.1]

/-- Bytes that fill a type are the value of their bits. -/
theorem ofBytes_eq (hty : ty.Holds w signed) {bytes : Bytes} (hlength : bytes.length = ty.size) :
    ofBytes ty bytes = .ok (ofBits ty (bytes.bits w)) := by
  have hvalue : Value.HasTy { ty, bytes } ty := ⟨rfl, hlength⟩
  rw [ofBytes_eq_ok_iff]
  exact ⟨hlength.symm, ofBits_bits hty hvalue⟩

/-- A number is written as its word. -/
theorem ofInt_eq (hty : ty.Holds w signed) (i : Int) :
    ofInt ty i = .ok (ofBits ty (BitVec.ofInt w i)) := by
  have hfits : ty.size ≤ maxIntSize := by
    have hsize := hty.size_eq
    unfold maxIntSize
    rcases hty.isWidth with rfl | rfl | rfl | rfl <;> omega
  unfold ofInt ofBits
  rw [← Bytes.ofInt_eq hty.size_eq]
  cases hty with
  | int | bool | pointer => exact if_pos hfits

/-- Reading an integer gives the number that its bits denote. -/
theorem toInt?_eq (hty : ty.Holds w signed) (hv : v.HasTy ty) (asSigned : Bool) :
    v.toInt? asSigned = some (number asSigned (v.bits w)) := by
  have hlength := hty.length_bytes hv
  unfold toInt? number bits
  rw [hv.2, if_pos hty.isIntSize, Bytes.toInt_bits hlength, Bytes.toNat_bits hlength]

theorem asInt?_eq (hty : ty.Holds w signed) (hv : v.HasTy ty) :
    v.asInt? = some (number signed (v.bits w)) := by
  unfold asInt?
  rw [hv.1, hty.isSigned_eq, toInt?_eq hty hv]

end Value

/-- An operand of an opcode is read as the number that its bits denote. -/
theorem intOperand_eq {v : Value} {ty : Ty} {signed : Bool} (op : Opcode) (hty : ty.Holds w signed)
    (hv : v.HasTy ty) (asSigned : Bool) :
    intOperand op v asSigned = .ok (number asSigned (v.bits w)) := by
  unfold intOperand
  rw [Value.toInt?_eq hty hv]

end PackedIR
