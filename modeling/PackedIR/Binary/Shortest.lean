/-
The shortest decimal text of a double.

A double stands for every real number that rounds to it: an interval around its
exact value, whose ends belong to it when the significand is even. For 1, 2, … 17
digits the two decimal neighbours of the value on that grid are tested against the
interval. The first grid with a hit decides the number of digits, and of two hits
the nearer one is taken. All comparisons are between natural numbers, after
multiplying out the denominators.

The text itself is always positional: no exponent is ever written, and an integral
value has no decimal point.
-/
import PackedIR.Binary.Format

set_option autoImplicit false

namespace PackedIR.Binary

/-- The decimal number `digits * 10 ^ exponent`. -/
structure Decimal where
  digits : Nat
  exponent : Int
deriving DecidableEq, Repr

/-- How many decimal digits `n` is written with. -/
def decimalLength (n : Nat) : Nat := (Nat.toDigits 10 n).length

/-- The least `k` with `num / den < 10 ^ k`, for positive `num` and `den`. -/
def ceilLog10 (num den : Nat) : Int :=
  if den ≤ num then decimalLength (num / den)
  else 1 - (decimalLength ((den - 1) / num) : Int)

/-- Multiplies the quotient `num / den` by `10 ^ e`. -/
def scale10 (num den : Nat) (e : Int) : Nat × Nat :=
  if 0 ≤ e then (num * Nat.pow 10 e.toNat, den) else (num, den * Nat.pow 10 (-e).toNat)

/-- The numbers that round to one double, as multiples of a common fraction `num / den`. -/
structure Interval where
  low : Nat
  value : Nat
  high : Nat
  num : Nat
  den : Nat
  closed : Bool

namespace Interval

/-- The interval of `significand * 2 ^ exponent`, in quarters of the unit. Below a power of two
the next double is only half as far away. -/
def around (f : Format) (significand : Nat) (exponent : Int) : Interval :=
  let boundary := significand = Nat.pow 2 f.fraction ∧ f.minUnit < exponent
  let (num, den) := scale 1 1 (exponent - 2)
  { low := 4 * significand - (if boundary then 1 else 2)
    value := 4 * significand
    high := 4 * significand + 2
    num := num
    den := den
    closed := significand % 2 = 0 }

/-- Whether `c * 10 ^ e` lies in the interval. -/
def contains (i : Interval) (c : Nat) (e : Int) : Bool :=
  let (n, d) := scale10 c 1 e
  let x := n * i.den
  let lo := i.low * i.num * d
  let hi := i.high * i.num * d
  if i.closed then lo ≤ x && x ≤ hi else lo < x && x < hi

/-- The shortest decimal of at most `17 - tried` further digits; the last grid is always fine
enough. -/
def shortestFrom (i : Interval) (k : Int) : (left : Nat) → (count : Nat) → Decimal
  | 0, count =>
    let e := k - count
    let (n, d) := scale10 (i.value * i.num) i.den (-e)
    ⟨n / d, e⟩
  | left + 1, count =>
    let e := k - count
    let (n, d) := scale10 (i.value * i.num) i.den (-e)
    let down := n / d
    let up := down + 1
    match i.contains down e, i.contains up e with
    | true, true => if 2 * (n % d) < d then ⟨down, e⟩ else ⟨up, e⟩
    | true, false => ⟨down, e⟩
    | false, true => ⟨up, e⟩
    | false, false => shortestFrom i k left (count + 1)

/-- The shortest decimal in the interval, nearest to its value. -/
def shortest (i : Interval) : Decimal :=
  shortestFrom i (ceilLog10 (i.value * i.num) i.den) 17 1

end Interval

namespace Decimal

/-- The digits with trailing zeros moved into the exponent. -/
def trim : Nat → Decimal → Decimal
  | 0, x => x
  | fuel + 1, x =>
    if x.digits ≠ 0 ∧ x.digits % 10 = 0 then trim fuel ⟨x.digits / 10, x.exponent + 1⟩ else x

/-- Positional text, without an exponent and without a point after an integer. -/
def positional (x : Decimal) : String :=
  let ds := Nat.toDigits 10 x.digits
  if 0 ≤ x.exponent then
    String.ofList (ds ++ List.replicate x.exponent.toNat '0')
  else
    let places := (-x.exponent).toNat
    if places < ds.length then
      let (whole, part) := ds.splitAt (ds.length - places)
      String.ofList (whole ++ '.' :: part)
    else
      String.ofList ('0' :: '.' :: List.replicate (places - ds.length) '0' ++ ds)

end Decimal

/-- The text of a double. -/
def doubleText (bits : Nat) : String :=
  match double.decode bits with
  | .nan _ _ => "NaN"
  | .infinite negative => if negative then "-inf" else "inf"
  | .finite negative m e =>
    let sign := if negative then "-" else ""
    if m = 0 then sign ++ "0"
    else
      let shortest := (Interval.around double m e).shortest
      sign ++ (shortest.trim (decimalLength shortest.digits)).positional

end PackedIR.Binary
