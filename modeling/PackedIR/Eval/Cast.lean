/-
Casts.

Only the conversions between integers and floating-point numbers and the
floating-point width changes are numeric. Every other cast keeps the bits: integers
are extended or cut as the cast asks, and the reinterpreting casts change nothing
but the type.
-/
import PackedIR.Eval.Operators

set_option autoImplicit false

namespace PackedIR

/-- Integers and booleans. -/
def Ty.isIntLike (ty : Ty) : Bool := ty.isInteger || ty.isBool

namespace CastOp

/-- Fails because a cast does not support its source and target. -/
def unsupportedCast {α : Type} (op : CastOp) (v : Value) (target : Ty) : Result α :=
  raise (.unsupportedTypes (.opcode (.cast op)) (.cast v.ty target))

/-- The bounds that a number converted to an integer type is clamped to. Only the common widths
have bounds of their own; every other width takes those of an unsigned word. -/
def clampBounds (bits : Nat) (signed : Bool) : Int × Int :=
  match bits, signed with
  | 8, true => (-0x80, 0x7F)
  | 16, true => (-0x8000, 0x7FFF)
  | 32, true => (-0x80000000, 0x7FFFFFFF)
  | 64, true => (-0x8000000000000000, 0x7FFFFFFFFFFFFFFF)
  | 8, false => (0, 0xFF)
  | 16, false => (0, 0xFFFF)
  | 32, false => (0, 0xFFFFFFFF)
  | _, _ => (0, 0xFFFFFFFFFFFFFFFF)

/-- Extends or cuts an integer, reading the source as `signed` says. -/
def resize (op : CastOp) (v : Value) (target : Ty) (signed : Bool) : Result Value := do
  Value.ofInt target (← intOperand (.cast op) v signed)

/-- A floating-point value truncated toward zero into an integer type; NaN gives 0. -/
def floatToIntValue (v : Value) (target : Ty) : Result Value :=
  match v.asDouble?, target with
  | some bits, .int width signed =>
    let (lo, hi) := clampBounds width signed
    Value.ofInt target (Binary.double.toIntClamped lo hi bits)
  | _, _ => unsupportedCast .floatToInt v target

/-- The floating-point value nearest to an integer. -/
def intToFloatValue (v : Value) (target : Ty) : Result Value := do
  let i ← intOperand (.cast .intToFloat) v v.ty.isSigned
  match target with
  | .float width => return Value.ofFloatBits width (width.format.ofInt i)
  | _ => unsupportedCast .intToFloat v target

/-- A floating-point value in another width. -/
def floatWidthValue (op : CastOp) (v : Value) (target : Ty) : Result Value :=
  match v.asDouble? with
  | some bits => Value.ofDouble target bits
  | none => unsupportedCast op v target

/-- Casts a value to the target type. -/
def eval (op : CastOp) (v : Value) (target : Ty) : Result Value :=
  let source := v.ty
  let accepts (ok : Bool) (result : Result Value) : Result Value :=
    if ok then result else unsupportedCast op v target
  match op with
  | .intSize => accepts (source.isIntLike && target.isInteger) (resize op v target source.isSigned)
  | .zeroExtend | .intTruncate =>
    accepts (source.isIntLike && target.isIntLike) (resize op v target false)
  | .bitcast | .signedness | .intSignedness | .pointerType => v.retype target
  | .pointerToInt => accepts (source.isPointer && target.isInteger) (resize op v target false)
  | .intToPointer =>
    accepts (source.isIntLike && target.isPointer) (resize op v target source.isSigned)
  | .floatToInt => accepts source.isFloat (floatToIntValue v target)
  | .intToFloat => accepts source.isIntLike (intToFloatValue v target)
  | .floatTruncate | .floatExtend => accepts source.isFloat (floatWidthValue op v target)

end CastOp

end PackedIR
