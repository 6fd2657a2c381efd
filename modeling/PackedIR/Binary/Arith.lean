/-
Arithmetic on bit patterns of one binary format.

Each operation computes the exact result of the two numbers and rounds it once, so
the only rounding rule is the one of `Format.round`. The special operands are set
apart first: a NaN operand comes back quieted, the left one before the right one;
an operation without a meaningful result gives the format's invalid pattern.
-/
import PackedIR.Binary.Format
import PackedIR.Operator

set_option autoImplicit false

namespace PackedIR.Binary

/-- A significand as an integer multiple of the unit `2 ^ (exponent - unit)`. -/
def alignTo (unit : Int) (negative : Bool) (significand : Nat) (exponent : Int) : Int :=
  let n : Int := (significand * Nat.pow 2 (exponent - unit).toNat : Nat)
  if negative then -n else n

namespace Format

variable (f : Format)

/-- The pattern of infinity with the given sign. -/
def infinity (negative : Bool) : Nat := f.withSign negative f.infinityBits

/-- The pattern of zero with the given sign. -/
def zero (negative : Bool) : Nat := f.withSign negative 0

/-- Exact sum of two finite numbers, rounded. An exact zero is positive unless both are negative. -/
def addFinite (s₁ : Bool) (m₁ : Nat) (e₁ : Int) (s₂ : Bool) (m₂ : Nat) (e₂ : Int) : Nat :=
  let unit := min e₁ e₂
  let sum := alignTo unit s₁ m₁ e₁ + alignTo unit s₂ m₂ e₂
  if sum = 0 then f.zero (s₁ && s₂)
  else f.roundScaled (sum < 0) sum.natAbs unit

/-- Sum of two decoded operands that are not NaN. -/
def addDatum : Datum → Datum → Nat
  | .infinite s₁, .infinite s₂ => if s₁ = s₂ then f.infinity s₁ else f.invalid
  | .infinite s, _ => f.infinity s
  | _, .infinite s => f.infinity s
  | .finite s₁ m₁ e₁, .finite s₂ m₂ e₂ => f.addFinite s₁ m₁ e₁ s₂ m₂ e₂
  | _, _ => f.invalid

/-- Product of two decoded operands that are not NaN. -/
def mulDatum : Datum → Datum → Nat
  | .infinite s₁, .infinite s₂ => f.infinity (s₁ != s₂)
  | .infinite s₁, .finite s₂ m _ => if m = 0 then f.invalid else f.infinity (s₁ != s₂)
  | .finite s₁ m _, .infinite s₂ => if m = 0 then f.invalid else f.infinity (s₁ != s₂)
  | .finite s₁ m₁ e₁, .finite s₂ m₂ e₂ => f.roundScaled (s₁ != s₂) (m₁ * m₂) (e₁ + e₂)
  | _, _ => f.invalid

/-- Quotient of two decoded operands that are not NaN. -/
def divDatum : Datum → Datum → Nat
  | .infinite _, .infinite _ => f.invalid
  | .infinite s₁, .finite s₂ _ _ => f.infinity (s₁ != s₂)
  | .finite s₁ _ _, .infinite s₂ => f.zero (s₁ != s₂)
  | .finite s₁ m₁ e₁, .finite s₂ m₂ e₂ =>
    if m₂ = 0 then if m₁ = 0 then f.invalid else f.infinity (s₁ != s₂)
    else
      let (n, d) := scale m₁ m₂ (e₁ - e₂)
      f.round (s₁ != s₂) n d
  | _, _ => f.invalid

/-- Remainder of two decoded operands that are not NaN: the exact remainder of the truncated
quotient, with the sign of the dividend. -/
def modDatum : Datum → Datum → Nat
  | .finite s m e, .infinite _ => f.roundScaled s m e
  | .finite s₁ m₁ e₁, .finite _ m₂ e₂ =>
    if m₂ = 0 then f.invalid
    else
      let unit := min e₁ e₂
      let r := (m₁ * Nat.pow 2 (e₁ - unit).toNat) % (m₂ * Nat.pow 2 (e₂ - unit).toNat)
      f.roundScaled s₁ r unit
  | _, _ => f.invalid

/-- A decoded number with its sign turned. -/
def negDatum : Datum → Datum
  | .nan s p => .nan (!s) p
  | .infinite s => .infinite (!s)
  | .finite s m e => .finite (!s) m e

/-- One arithmetic operation on two bit patterns. -/
def arith (op : ArithOp) (left right : Nat) : Nat :=
  match f.decode left, f.decode right with
  | .nan s p, _ => f.quiet s p
  | _, .nan s p => f.quiet s p
  | l, r => match op with
    | .add => f.addDatum l r
    | .sub => f.addDatum l (negDatum r)
    | .mul => f.mulDatum l r
    | .div => f.divDatum l r
    | .mod => f.modDatum l r

/-- The pattern with its sign bit turned, whatever it stands for. -/
def neg (bits : Nat) : Nat :=
  if bits / f.signBit % 2 = 1 then bits - f.signBit else bits + f.signBit

/-! ## Order -/

/-- The order of two numbers, or nothing when one of them is NaN. Both zeros are equal. -/
def compare (left right : Nat) : Option Ordering :=
  match f.decode left, f.decode right with
  | .nan _ _, _ => none
  | _, .nan _ _ => none
  | .infinite s₁, .infinite s₂ =>
    some (if s₁ = s₂ then .eq else if s₁ then .lt else .gt)
  | .infinite s, .finite _ _ _ => some (if s then .lt else .gt)
  | .finite _ _ _, .infinite s => some (if s then .gt else .lt)
  | .finite s₁ m₁ e₁, .finite s₂ m₂ e₂ =>
    let unit := min e₁ e₂
    some (Ord.compare (alignTo unit s₁ m₁ e₁) (alignTo unit s₂ m₂ e₂))

/-- Whether the pattern is a NaN. -/
def isNaN (bits : Nat) : Bool :=
  match f.decode bits with
  | .nan _ _ => true
  | _ => false

/-! ## Conversions -/

/-- The pattern nearest to an integer. -/
def ofInt (i : Int) : Nat := f.round (i < 0) i.natAbs 1

/-- The number truncated toward zero and clamped to `lo ..= hi`; a NaN gives 0. -/
def toIntClamped (lo hi : Int) (bits : Nat) : Int :=
  match f.decode bits with
  | .nan _ _ => 0
  | .infinite negative => if negative then lo else hi
  | .finite negative m e =>
    let (n, d) := scale m 1 e
    let i : Int := (n / d : Nat)
    max lo (min hi (if negative then -i else i))

end Format

/-- Converts a pattern between formats, rounding once. A NaN keeps the leading bits of its
payload and becomes quiet. Within one format every pattern stays as it is. -/
def convert (source target : Format) (bits : Nat) : Nat :=
  if source = target then bits
  else match source.decode bits with
  | .nan negative payload =>
    target.quiet negative
      (if source.fraction ≤ target.fraction then payload * Nat.pow 2 (target.fraction - source.fraction)
       else payload / Nat.pow 2 (source.fraction - target.fraction))
  | .infinite negative => target.infinity negative
  | .finite negative m e => target.roundScaled negative m e

end PackedIR.Binary
