/-
Binary floating-point formats, read and written exactly.

A bit pattern is decoded into a `Datum`: not a number, an infinity, or a signed
significand times a power of two. Going back, `round` takes an exact positive
quotient of natural numbers and picks the nearest representable magnitude, a tie
going to the even significand.

The magnitude bits of a finite number are `(u - uMin) * 2 ^ fraction + m`, where
`2 ^ u` is the unit in the last place, `uMin` the smallest such exponent and `m` the
significand counted in units. The formula covers subnormal numbers (`u = uMin` and a
small `m`), and a significand that rounding carried up to the next power of two
falls into the next binade by itself; so does overflow into the infinity pattern.
-/

set_option autoImplicit false

namespace PackedIR.Binary

/-- A binary interchange format, by the widths of its two bit fields. -/
structure Format where
  fraction : Nat
  exponent : Nat
deriving DecidableEq, Repr

/-- The 32-bit format. -/
def single : Format := ⟨23, 8⟩

/-- The 64-bit format. -/
def double : Format := ⟨52, 11⟩

/-- What a bit pattern stands for. -/
inductive Datum where
  | nan (negative : Bool) (payload : Nat)
  | infinite (negative : Bool)
  /-- The number `significand * 2 ^ exponent`, with its sign; zero keeps its sign too. -/
  | finite (negative : Bool) (significand : Nat) (exponent : Int)
deriving DecidableEq, Repr

namespace Format

/-- The exponent of the smallest unit in the last place. -/
def minUnit (f : Format) : Int :=
  2 - Nat.pow 2 (f.exponent - 1) - f.fraction

/-- The pattern of the sign bit. -/
def signBit (f : Format) : Nat := Nat.pow 2 (f.fraction + f.exponent)

/-- The magnitude pattern of infinity: all exponent bits and no fraction bit. -/
def infinityBits (f : Format) : Nat := (Nat.pow 2 f.exponent - 1) * Nat.pow 2 f.fraction

/-- The fraction bit that marks a quiet NaN. -/
def quietBit (f : Format) : Nat := Nat.pow 2 (f.fraction - 1)

/-- Sign and magnitude put together. -/
def withSign (f : Format) (negative : Bool) (magnitude : Nat) : Nat :=
  if negative then f.signBit + magnitude else magnitude

/-- The meaning of a bit pattern. -/
def decode (f : Format) (bits : Nat) : Datum :=
  let negative := bits / f.signBit % 2 == 1
  let exponent := bits / Nat.pow 2 f.fraction % Nat.pow 2 f.exponent
  let fraction := bits % Nat.pow 2 f.fraction
  if exponent = Nat.pow 2 f.exponent - 1 then
    if fraction = 0 then .infinite negative else .nan negative fraction
  else if exponent = 0 then
    .finite negative fraction f.minUnit
  else
    .finite negative (Nat.pow 2 f.fraction + fraction) (f.minUnit + (exponent - 1 : Nat))

end Format

/-! ## Rounding -/

/-- `num / den` rounded to the nearest natural number, a tie going to the even one. -/
def roundDivEven (num den : Nat) : Nat :=
  let q := num / den
  let r := num % den
  if 2 * r < den then q
  else if den < 2 * r then q + 1
  else if q % 2 = 0 then q else q + 1

/-- Multiplies the quotient `num / den` by `2 ^ e`, keeping it a quotient of naturals. -/
def scale (num den : Nat) (e : Int) : Nat × Nat :=
  if 0 ≤ e then (num * Nat.pow 2 e.toNat, den) else (num, den * Nat.pow 2 (-e).toNat)

/-- The largest `e` with `2 ^ e ≤ num / den`, for positive `num` and `den`. -/
def floorLog2 (num den : Nat) : Int :=
  let e : Int := (num.log2 : Int) - den.log2
  let (n, d) := scale num den (-e)
  if n < d then e - 1 else e

namespace Format

/-- The pattern of the representable number nearest to `num / den`, with the given sign. -/
def round (f : Format) (negative : Bool) (num den : Nat) : Nat :=
  if num = 0 then f.withSign negative 0
  else
    let unit := max (floorLog2 num den - f.fraction) f.minUnit
    let (n, d) := scale num den (-unit)
    let magnitude := (unit - f.minUnit).toNat * Nat.pow 2 f.fraction + roundDivEven n d
    f.withSign negative (min magnitude f.infinityBits)

/-- The pattern nearest to `significand * 2 ^ exponent`. -/
def roundScaled (f : Format) (negative : Bool) (significand : Nat) (exponent : Int) : Nat :=
  let (n, d) := scale significand 1 exponent
  f.round negative n d

/-- The pattern an invalid operation yields: a quiet NaN with the sign bit set. -/
def invalid (f : Format) : Nat :=
  f.withSign true (f.infinityBits + f.quietBit)

/-- A NaN pattern with its quiet bit set. -/
def quiet (f : Format) (negative : Bool) (payload : Nat) : Nat :=
  f.withSign negative (f.infinityBits + (payload ||| f.quietBit))

end Format

end PackedIR.Binary
