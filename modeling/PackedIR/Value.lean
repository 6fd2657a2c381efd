/-
Runtime values: a type and its packed bytes.

Every constructor but one checks that the bytes fill the type exactly; `ofAddress`
alone trusts its caller, because it is used for types that are address-sized
already. Reading goes the other way: a scalar view exists only when the bytes have
one of the sizes it knows, and its signedness comes from the type or from the
reader, never from the bytes.
-/
import PackedIR.Binary.Arith
import PackedIR.Binary.Shortest
import PackedIR.Error

set_option autoImplicit false

namespace PackedIR

/-- What produced a value; only shown, never acted on. -/
inductive Origin where
  | intermediate
  | local (l : Local)
  | const (id : ConstId)
  | global (id : GlobalId)
deriving DecidableEq, Repr, Inhabited

/-- A typed, packed value. -/
structure Value where
  ty : Ty
  origin : Origin := .intermediate
  bytes : Bytes
deriving DecidableEq, Inhabited

/-- The binary format of a floating-point width. -/
def FloatWidth.format : FloatWidth → Binary.Format
  | .f32 => Binary.single
  | .f64 => Binary.double

/-- Succeeds when both sizes agree. -/
def checkSize (expected found : Nat) : Result Unit :=
  if expected = found then .ok () else raise (.sizeMismatch expected found)

/-- Fails because an activity does not support the given types. -/
def raiseTypes {α : Type} (activity : Activity) (types : List Ty) : Result α :=
  raise (.unsupportedTypes activity (.given types))

namespace Value

/-! ## Construction -/

/-- The all-zero value of a type. -/
def zeroed (ty : Ty) : Value := { ty, bytes := List.replicate ty.size 0 }

/-- A value from exactly the bytes of its type. -/
def ofBytes (ty : Ty) (bytes : Bytes) : Result Value := do
  checkSize ty.size bytes.length
  return { ty, bytes }

/-- A value of an address-sized type. -/
def ofAddress (ty : Ty) (address : Nat) : Value := { ty, bytes := Bytes.ofNat wordSize address }

def ofBool (b : Bool) : Value := { ty := .bool, bytes := [if b then 1 else 0] }

/-- The widest integer literal, in bytes. -/
def maxIntSize : Nat := 16

/-- A value of an integer-like type from the low bytes of an integer. -/
def ofInt (ty : Ty) (i : Int) : Result Value :=
  match ty with
  | .int .. | .bool | .pointer .. | .function .. =>
    if ty.size ≤ maxIntSize then .ok { ty, bytes := Bytes.ofInt ty.size i }
    else .error (.fault (.integerTooWide ty))
  | _ => raiseTypes .integerConstruction [ty]

/-- A native word from an integer. -/
def ofWord (i : Int) : Value := { ty := Ty.word, bytes := Bytes.ofInt wordSize i }

/-- A value of the given floating-point width from a bit pattern of that width. -/
def ofFloatBits (width : FloatWidth) (bits : Nat) : Value :=
  { ty := .float width, bytes := Bytes.ofNat (Ty.float width).size bits }

/-- A floating-point value from a double, rounded to the width of the type. -/
def ofDouble (ty : Ty) (bits : Nat) : Result Value :=
  match ty with
  | .float width => .ok (ofFloatBits width (Binary.convert Binary.double width.format bits))
  | _ => raiseTypes .floatConstruction [ty]

/-! ## Views -/

def size (v : Value) : Nat := v.bytes.length

/-- Values up to this many bytes are stored without a buffer of their own. -/
def inlineSize : Nat := 32

def isInline (v : Value) : Bool := v.size ≤ inlineSize

def withOrigin (v : Value) (origin : Origin) : Value := { v with origin }

/-- Same type and same bytes, whatever the origins. -/
def sameAs (v w : Value) : Bool := v.ty == w.ty && v.bytes == w.bytes

def asBool? (v : Value) : Option Bool :=
  match v.bytes with
  | [b] => some (b != 0)
  | _ => none

/-- The sizes of the integers that can be read. -/
def isIntSize (size : Nat) : Bool := size == 1 || size == 2 || size == 4 || size == 8

/-- Reads an integer of 1, 2, 4 or 8 bytes. -/
def toInt? (v : Value) (signed : Bool) : Option Int :=
  if isIntSize v.size then some (if signed then Bytes.toInt v.bytes else Bytes.toNat v.bytes)
  else none

/-- Reads an integer with the signedness of its type. -/
def asInt? (v : Value) : Option Int := v.toInt? v.ty.isSigned

/-- The bit pattern of a floating-point value of the given width. -/
def floatBits? (v : Value) (width : FloatWidth) : Option Nat :=
  if v.size = (Ty.float width).size then some (Bytes.toNat v.bytes) else none

/-- Reads a floating-point value, widened to a double. -/
def asDouble? (v : Value) : Option Nat :=
  match v.ty with
  | .float width => (v.floatBits? width).map (Binary.convert width.format Binary.double)
  | _ => none

/-- Reads an address-sized value. -/
def address? (v : Value) : Option Nat :=
  if v.size = wordSize then some (Bytes.toNat v.bytes) else none

/-- The address a value holds, or an error naming its type. -/
def asAddress (v : Value) : Result Nat :=
  match v.address? with
  | some a => .ok a
  | none => raiseTypes .address [v.ty]

/-! ## Change -/

/-- The same bytes under another type of the same size. -/
def retype (v : Value) (ty : Ty) : Result Value := do
  checkSize ty.size v.size
  return { v with ty }

/-- Replaces every byte. -/
def writeBytes (v : Value) (bytes : Bytes) : Result Value := do
  checkSize v.size bytes.length
  return { v with bytes }

/-- Replaces the bytes from `offset` on. -/
def writeAt (v : Value) (offset : Nat) (bytes : Bytes) : Result Value :=
  if offset + bytes.length ≤ v.size then
    .ok { v with bytes := v.bytes.take offset ++ bytes ++ v.bytes.drop (offset + bytes.length) }
  else raiseOperand (.writeOutside bytes.length offset v.ty)

/-- Copies the bytes of a `ty` from `offset` on. -/
def readAt (v : Value) (offset : Nat) (ty : Ty) : Result Value :=
  if offset + ty.size ≤ v.size then ofBytes ty ((v.bytes.drop offset).take ty.size)
  else raiseOperand (.readOutside ty offset v.ty)

/-! ## Text -/

/-- The text of a value: scalars by their number, everything else by its bytes. -/
def render (v : Value) : String :=
  let invalid := "invalid_" ++ v.ty.render
  match v.ty with
  | .void => "void"
  | .bool => match v.asBool? with
    | some b => if b then "true" else "false"
    | none => invalid
  | .int .. => match v.asInt? with
    | some i => toString i
    | none => invalid
  | .float _ => match v.asDouble? with
    | some bits => Binary.doubleText bits
    | none => invalid
  | .pointer .. | .function .. => match v.address? with
    | some a => addressText a
    | none => "invalid_ptr"
  | _ => v.ty.render ++ " \x7b" ++ " ".intercalate (v.bytes.map Bytes.hexByte) ++ "\x7d"

end Value

end PackedIR
