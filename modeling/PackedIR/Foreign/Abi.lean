/-
Passing values to native code.

Each argument goes over as a `Scalar`: a number of a definite C type. The C type is
that of the value's own type, except that an argument past the fixed parameters
follows the default promotions: integers narrower than an `int` become an `int`, and
a `float` becomes a `double`. A result comes back in one of two registers, and the
declared return type says which one is read and how much of it.
-/
import PackedIR.Value

set_option autoImplicit false

namespace PackedIR

/-- The category of a type in native calls. -/
inductive AbiClass where
  | int (size : Nat) (signed : Bool)
  | float (width : FloatWidth)
  | void
deriving DecidableEq, Repr, Inhabited

/-- A number under the C type it is passed as. -/
inductive Scalar where
  | int (size : Nat) (signed : Bool) (value : Int)
  | float (width : FloatWidth) (bits : Nat)
deriving DecidableEq, Repr, Inhabited

/-- The registers in which a native function leaves its result. -/
structure Returned where
  integer : Nat := 0
  vector : Nat := 0
deriving DecidableEq, Repr, Inhabited

namespace AbiClass

/-- The category of a type; aggregates have none. -/
def ofTy (ty : Ty) : Result AbiClass :=
  match ty with
  | .void => .ok .void
  | .bool => .ok (.int 1 false)
  | .int bits signed => .ok (.int (bits / 8) signed)
  | .pointer .. | .function .. => .ok (.int wordSize false)
  | .float width => .ok (.float width)
  | _ => raise (.unsupportedAbi (.type ty))

/-- Succeeds when the category has a C type: integers must have 1, 2, 4 or 8 bytes. -/
def check : AbiClass → Result Unit
  | .int size _ =>
    if Value.isIntSize size then .ok () else raise (.unsupportedAbi (.integerSize size))
  | _ => .ok ()

end AbiClass

/-- An integer reduced to the range of a C integer type. -/
def wrapInt (size : Nat) (signed : Bool) (i : Int) : Int :=
  if signed then Bytes.toInt (Bytes.ofInt size i) else Bytes.toNat (Bytes.ofInt size i)

namespace Scalar

/-- The category of a scalar. -/
def abiClass : Scalar → AbiClass
  | .int size signed _ => .int size signed
  | .float width _ => .float width

/-- The C integer that an integer of a given size is passed as; the widest one takes every other
size. -/
def ofInt (size : Nat) (signed promoted : Bool) (i : Int) : Scalar :=
  let narrow := size == 1 || size == 2
  if promoted && narrow then .int 4 true (wrapInt 4 true i)
  else if narrow || size == 4 then .int size signed (wrapInt size signed i)
  else .int 8 signed (wrapInt 8 signed i)

/-- Converts an argument; `promoted` says that it stands past the fixed parameters. -/
def ofValue (v : Value) (promoted : Bool) : Result Scalar := do
  match ← AbiClass.ofTy v.ty with
  | .int size signed => match v.toInt? signed with
    | some i => return ofInt size signed promoted i
    | none => raise (.sizeMismatch v.ty.size v.size)
  | .float width => match v.floatBits? width with
    | some bits =>
      if promoted then return .float .f64 (Binary.convert width.format Binary.double bits)
      else return .float width bits
    | none => raise (.sizeMismatch v.ty.size v.size)
  | .void => raise (.unsupportedAbi (.type v.ty))

end Scalar

/-- Converts the arguments of a call from position `index` on, of which the first `fixed` are
declared parameters. -/
def marshal (fixed : Nat) : (index : Nat) → List Value → Result (List Scalar)
  | _, [] => .ok []
  | index, v :: vs => do
    let scalar ← Scalar.ofValue v (fixed ≤ index)
    return scalar :: (← marshal fixed (index + 1) vs)

/-- The value of type `ret` in the registers after a call. -/
def Returned.value (r : Returned) (ret : Ty) : AbiClass → Result Value
  | .void => .ok (Value.zeroed ret)
  | .int size _ => Value.ofBytes ret (Bytes.ofNat size r.integer)
  | .float width => Value.ofBytes ret (Bytes.ofNat (Ty.float width).size r.vector)

end PackedIR
