/-
Unary and binary operators on values.

Integers are computed in 128 bits, after reading both operands signed or unsigned as
the operator asks, and are then cut back to the width of the left operand's type.
Cutting commutes with the ring operations, so this is two's complement arithmetic for
every width at once, and the wide cut does not show in the end.

An operator looks at the types first and at the bytes second; whatever it does not
accept is reported with the types of the operands concerned.
-/
import PackedIR.Value

set_option autoImplicit false

namespace PackedIR

/-- Fails because an opcode does not support the types of the operands. -/
def unsupported {α : Type} (op : Opcode) (operands : List Value) : Result α :=
  raiseTypes (.opcode op) (operands.map Value.ty)

/-- Reads an integer operand of an opcode. -/
def intOperand (op : Opcode) (v : Value) (signed : Bool) : Result Int :=
  match v.toInt? signed with
  | some i => .ok i
  | none => unsupported op [v]

/-- Reads the bit pattern of a floating-point operand of an opcode. -/
def floatOperand (op : Opcode) (v : Value) (width : FloatWidth) : Result Nat :=
  match v.floatBits? width with
  | some bits => .ok bits
  | none => unsupported op [v]

/-- The three-way result: 1, 0 or -1; unordered counts as less. -/
def orderValue : Option Ordering → Value
  | some .gt => Value.ofWord 1
  | some .eq => Value.ofWord 0
  | _ => Value.ofWord (-1)

/-- The signed number of 128 bits that an integer is cut to while it is computed with. -/
def wide (i : Int) : Int := i.bmod (Nat.pow 2 128)

namespace ArithOp

/-- Integer arithmetic. Division truncates and the remainder has the sign of the dividend. -/
def evalInt (op : ArithOp) (l r : Int) : Result Int :=
  match op with
  | .add => .ok (wide (l + r))
  | .sub => .ok (wide (l - r))
  | .mul => .ok (wide (l * r))
  | .div => if r = 0 then raise .divisionByZero else .ok (l.tdiv r)
  | .mod => if r = 0 then raise .divisionByZero else .ok (l.tmod r)

end ArithOp

namespace BitOp

def evalByte : BitOp → UInt8 → UInt8 → UInt8
  | .and, l, r => l &&& r
  | .or, l, r => l ||| r
  | .xor, l, r => l ^^^ r

end BitOp

namespace ShiftOp

/-- Whether the shifted operand is read as a signed number. -/
def readsSigned : ShiftOp → Bool
  | .arithmeticRight => true
  | _ => false

/-- Shifts an integer. A right shift rounds down, which is the sign fill for signed numbers and
the zero fill for unsigned ones. -/
def evalInt (op : ShiftOp) (l : Int) (amount : Nat) : Int :=
  match op with
  | .left => wide (l * Nat.pow 2 amount)
  | _ => l / Nat.pow 2 amount

end ShiftOp

namespace BinaryOp

/-- The operator as an opcode, for messages. -/
abbrev opcode (op : BinaryOp) : Opcode := .binary op

/-! ## Binary operators -/

def evalIntArith (signed : Bool) (op : ArithOp) (left right : Value) : Result Value := do
  let self := opcode (.int signed op)
  if left.ty ≠ right.ty ∨ !left.ty.isInteger then unsupported self [left, right]
  else
    let l ← intOperand self left signed
    let r ← intOperand self right signed
    Value.ofInt left.ty (← op.evalInt l r)

def evalFloatArith (op : ArithOp) (left right : Value) : Result Value := do
  let self := opcode (.float op)
  if left.ty ≠ right.ty then unsupported self [left, right]
  else match left.ty with
    | .float width =>
      let l ← floatOperand self left width
      let r ← floatOperand self right width
      return Value.ofFloatBits width (width.format.arith op l r)
    | _ => unsupported self [left, right]

/-- The order of two integers, booleans or pointers of the same representation. The left type
decides how both are read. -/
def intOrdering (self : Opcode) (left right : Value) : Result Ordering := do
  let comparable := left.ty.isInteger || left.ty.isBool || left.ty.isPointer
  if !comparable || !left.ty.sameRepr right.ty then unsupported self [left, right]
  else
    let signed := left.ty.isSigned
    let l ← intOperand self left signed
    let r ← intOperand self right signed
    return Ord.compare l r

/-- The order of two floating-point values of one type; nothing when one is NaN. -/
def floatOrdering (self : Opcode) (left right : Value) : Result (Option Ordering) :=
  if left.ty ≠ right.ty then unsupported self [left, right]
  else match left.asDouble?, right.asDouble? with
    | some l, some r => .ok (Binary.double.compare l r)
    | _, _ => unsupported self [left, right]

def evalBitwise (op : BitOp) (left right : Value) : Result Value :=
  if left.ty ≠ right.ty ∨ !(left.ty.isInteger || left.ty.isBool) then
    unsupported (opcode (.bitwise op)) [left, right]
  else Value.ofBytes left.ty (List.zipWith op.evalByte left.bytes right.bytes)

/-- The number of bits of a value that is shifted. There must be some. -/
def shiftWidth (v : Value) : Result Nat :=
  if v.size = 0 then .error (.fault .noBits) else .ok (8 * v.size)

/-- The amount may have any integer type and counts modulo the width of the shifted value. -/
def evalShift (op : ShiftOp) (left right : Value) : Result Value := do
  let self := opcode (.shift op)
  if !left.ty.isInteger || !right.ty.isInteger then unsupported self [left, right]
  else
    let amount ← intOperand self right false
    let width ← shiftWidth left
    let l ← intOperand self left op.readsSigned
    Value.ofInt left.ty (op.evalInt l (amount.toNat % width))

/-- Applies a binary operator. -/
def eval (op : BinaryOp) (left right : Value) : Result Value :=
  match op with
  | .int signed a => evalIntArith signed a left right
  | .float a => evalFloatArith a left right
  | .intCompare rel => do
    return Value.ofBool (rel.holds (← intOrdering op.opcode left right))
  | .intOrder => do
    return orderValue (some (← intOrdering op.opcode left right))
  | .floatCompare rel unordered => do
    return Value.ofBool (match ← floatOrdering op.opcode left right with
      | some o => rel.holds o
      | none => unordered)
  | .floatOrder => do
    return orderValue (← floatOrdering op.opcode left right)
  | .bitwise b => evalBitwise b left right
  | .shift s => evalShift s left right

end BinaryOp

/-! ## Unary operators -/

/-- Applies a unary operator. -/
def UnaryOp.eval (op : UnaryOp) (v : Value) : Result Value := do
  let self := Opcode.unary op
  match op, v.ty with
  | .intNeg, .int .. => Value.ofInt v.ty (wide (-(← intOperand self v true)))
  | .floatNeg, .float width =>
    return Value.ofFloatBits width (width.format.neg (← floatOperand self v width))
  | .bitNot, .int .. => Value.ofBytes v.ty (v.bytes.map (~~~ ·))
  | .logicalNot, .bool => match v.asBool? with
    | some b => return Value.ofBool (!b)
    | none => unsupported self [v]
  | _, _ => unsupported self [v]

namespace Opcode

/-- Evaluates an opcode on two values; only binary operators accept any. -/
def evalBinary (op : Opcode) (left right : Value) : Result Value :=
  match op with
  | .binary b => b.eval left right
  | _ => unsupported op [left, right]

/-- Evaluates an opcode on one value; only unary operators accept any. -/
def evalUnary (op : Opcode) (v : Value) : Result Value :=
  match op with
  | .unary u => u.eval v
  | _ => unsupported op [v]

end Opcode

end PackedIR
