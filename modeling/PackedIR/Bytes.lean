/-
Little-endian words as lists of bytes.

Every scalar of the intermediate representation is stored least significant byte
first. `ofNat` writes the low bytes of a number and `toNat` reads a list back, so
reading what was written is reduction modulo a power of 256; `ofInt` and `toInt` are
the same pair for two's complement. These four functions and their round trips are
all that the rest of the library knows about byte order.
-/

set_option autoImplicit false

namespace PackedIR

/-- Bytes in memory order. -/
abbrev Bytes := List UInt8

namespace Bytes

/-! ## Unsigned words -/

/-- The low `size` bytes of `n`, least significant first. -/
def ofNat : (size : Nat) → (n : Nat) → Bytes
  | 0, _ => []
  | size + 1, n => UInt8.ofNat n :: ofNat size (n / 256)

/-- The number whose base-256 digits are the bytes, least significant first. -/
def toNat : Bytes → Nat
  | [] => 0
  | b :: bs => b.toNat + 256 * toNat bs

@[simp] theorem length_ofNat (size n : Nat) : (ofNat size n).length = size := by
  induction size generalizing n with
  | zero => rfl
  | succ size ih => simp [ofNat, ih]

/-- Reading back what was written keeps the number modulo the range of the word. -/
theorem toNat_ofNat (size n : Nat) : toNat (ofNat size n) = n % Nat.pow 256 size := by
  induction size generalizing n with
  | zero => simp [ofNat, toNat, Nat.mod_one]
  | succ size ih =>
    have hrange : Nat.pow 256 (size + 1) = 256 * Nat.pow 256 size := by
      rw [Nat.mul_comm]
      rfl
    simp only [ofNat, toNat, ih, UInt8.toNat_ofNat', hrange, Nat.mod_mul]

/-- A word is below the range of its width. -/
theorem toNat_lt (bs : Bytes) : toNat bs < Nat.pow 256 bs.length := by
  induction bs with
  | nil => simp [toNat]
  | cons b bs ih =>
    have hb := b.toNat_lt
    have hrange : Nat.pow 256 (bs.length + 1) = Nat.pow 256 bs.length * 256 := rfl
    simp only [toNat, List.length_cons, hrange]
    omega

/-- Writing back what was read restores the bytes. -/
theorem ofNat_toNat (bs : Bytes) : ofNat bs.length (toNat bs) = bs := by
  induction bs with
  | nil => rfl
  | cons b bs ih =>
    have hb := b.toNat_lt
    have hhigh : (b.toNat + 256 * toNat bs) / 256 = toNat bs := by omega
    simp only [toNat, List.length_cons, ofNat, hhigh, ih, List.cons.injEq, and_true]
    apply UInt8.toNat_inj.mp
    simp

/-! ## Two's complement words -/

/-- The low `size` bytes of the two's complement form of `i`. -/
def ofInt (size : Nat) (i : Int) : Bytes :=
  ofNat size (i % Nat.pow 256 size).toNat

/-- The bytes read as a two's complement number: the top bit counts negatively. -/
def toInt (bs : Bytes) : Int :=
  let n := toNat bs
  if 2 * n < Nat.pow 256 bs.length then n else n - Nat.pow 256 bs.length

@[simp] theorem length_ofInt (size : Nat) (i : Int) : (ofInt size i).length = size :=
  length_ofNat _ _

/-! ## Text -/

/-- The lower-case hexadecimal digits of `n`, without leading zeros. -/
def hexDigits (n : Nat) : String :=
  String.ofList (Nat.toDigits 16 n)

/-- One byte as two hexadecimal digits. -/
def hexByte (b : UInt8) : String :=
  String.ofList [Nat.digitChar (b.toNat / 16), Nat.digitChar (b.toNat % 16)]

end Bytes

end PackedIR
