/-
The operators of the instruction set, grouped by what they compute.

An opcode carries one of these as data, so an evaluator has one case for each group
and the members of a group share its typing rule: all arithmetic wants two operands
of one integer type, all orders of a group differ only in the relation they test.
-/

set_option autoImplicit false

namespace PackedIR

/-- Arithmetic, on integers or on floating-point numbers. -/
inductive ArithOp where
  | add
  | sub
  | mul
  | div
  | mod
deriving DecidableEq, Repr, Inhabited

/-- The relations that a comparison can test. -/
inductive Relation where
  | equal
  | notEqual
  | greater
  | less
  | greaterEqual
  | lessEqual
deriving DecidableEq, Repr, Inhabited

/-- Whether the relation holds between two items with the given order. -/
def Relation.holds : Relation → Ordering → Bool
  | .equal, o => o == .eq
  | .notEqual, o => o != .eq
  | .greater, o => o == .gt
  | .less, o => o == .lt
  | .greaterEqual, o => o != .lt
  | .lessEqual, o => o != .gt

/-- Bit-by-bit operators. -/
inductive BitOp where
  | and
  | or
  | xor
deriving DecidableEq, Repr, Inhabited

/-- Shifts; a right shift fills with zeros or with the sign. -/
inductive ShiftOp where
  | left
  | logicalRight
  | arithmeticRight
deriving DecidableEq, Repr, Inhabited

/-- Operators of two values. -/
inductive BinaryOp where
  /-- Integer arithmetic; `signed` says how the operands are read, whatever their type. -/
  | int (signed : Bool) (op : ArithOp)
  | float (op : ArithOp)
  | intCompare (rel : Relation)
  /-- Three-way comparison, giving -1, 0 or 1. -/
  | intOrder
  /-- Floating-point comparison; `unordered` is the answer when an operand is NaN. -/
  | floatCompare (rel : Relation) (unordered : Bool)
  | floatOrder
  | bitwise (op : BitOp)
  | shift (op : ShiftOp)
deriving DecidableEq, Repr, Inhabited

/-- Operators of one value. -/
inductive UnaryOp where
  | intNeg
  | floatNeg
  | bitNot
  | logicalNot
deriving DecidableEq, Repr, Inhabited

/-- Conversions of a value to a target type. -/
inductive CastOp where
  | floatTruncate
  | floatExtend
  /-- Changes the width of an integer; signed sources are sign-extended. -/
  | intSize
  | zeroExtend
  | intTruncate
  /-- This and the next three keep the bytes and change only the type. -/
  | bitcast
  | signedness
  | intSignedness
  | pointerType
  | pointerToInt
  | intToPointer
  | floatToInt
  | intToFloat
deriving DecidableEq, Repr, Inhabited

/-- Instructions on addresses, l-values and storage. -/
inductive PlaceOp where
  | readPtr
  | writePtr
  | store
  | stackAlloc
  | createLVal
  | addressOf
  | dereference
  | getPointer
  | getGep2
  | getStructMember
  | getPointerToStructMember
  | rawUnionGep
  | sizeof
  | select
deriving DecidableEq, Repr, Inhabited

/-- The families of builtin containers. Strings and dynamic arrays are one family. -/
inductive Container where
  | dynArray
  | slice
  | any
  | range
  | enum
  | union
deriving DecidableEq, Repr, Inhabited

/-- The named members of the builtin containers. -/
inductive Field where
  | arrayData
  | arrayLength
  | arrayCapacity
  | arrayRefCount
  | sliceData
  | sliceLength
  | anyTypeId
  | anyRefCount
  | anyData
  | rangeLower
  | rangeUpper
  | rangeStep
  | enumIndex
  | enumValue
deriving DecidableEq, Repr, Inhabited

namespace Field

/-- The container family a field belongs to. -/
def container : Field → Container
  | .arrayData | .arrayLength | .arrayCapacity | .arrayRefCount => .dynArray
  | .sliceData | .sliceLength => .slice
  | .anyTypeId | .anyRefCount | .anyData => .any
  | .rangeLower | .rangeUpper | .rangeStep => .range
  | .enumIndex | .enumValue => .enum

/-- The index of the field among the members of its container. -/
def slot : Field → Nat
  | .arrayData => 0
  | .arrayLength => 1
  | .arrayCapacity => 2
  | .arrayRefCount => 3
  | .sliceData => 0
  | .sliceLength => 1
  | .anyTypeId => 0
  | .anyRefCount => 1
  | .anyData => 2
  | .rangeLower => 0
  | .rangeUpper => 1
  | .rangeStep => 2
  | .enumIndex => 0
  | .enumValue => 1

end Field

/-- Access to tagged unions. -/
inductive UnionOp where
  | getVariantId
  | setVariantId
  | getValue
  | setValue
deriving DecidableEq, Repr, Inhabited

/-- How a call names its callee. -/
inductive CallOp where
  | direct
  | pointer
  | virtual
deriving DecidableEq, Repr, Inhabited

end PackedIR
