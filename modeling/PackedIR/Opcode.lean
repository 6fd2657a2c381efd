/-
Opcodes and their mnemonics.

An opcode is an operator of one of the groups together with its role in an
instruction. `name` spells the mnemonic that listings and messages use; `ofName?`
reads it back by searching the full list `all`.
-/
import PackedIR.Operator

set_option autoImplicit false

namespace PackedIR

/-- The operation tag of an instruction. -/
inductive Opcode where
  | binary (op : BinaryOp)
  | unary (op : UnaryOp)
  /-- Takes a value and a target type. -/
  | cast (op : CastOp)
  | place (op : PlaceOp)
  /-- Takes an aggregate, an element and an index. -/
  | insertValue
  /-- Takes an aggregate and an index. -/
  | extractValue
  | getField (field : Field)
  | setField (field : Field)
  | union (op : UnionOp)
  | call (op : CallOp)
  /-- Takes pairs of a predecessor block and a value. -/
  | phi
  /-- Takes a value or nothing. -/
  | ret
  /-- Takes the target block. -/
  | branch
  /-- Takes a condition and the blocks for true and false. -/
  | condBranch
  | unreachable
deriving DecidableEq, Repr, Inhabited

/-! ## Mnemonics -/

def ArithOp.name : ArithOp → String
  | .add => "Add"
  | .sub => "Sub"
  | .mul => "Mul"
  | .div => "Div"
  | .mod => "Mod"

def Relation.name : Relation → String
  | .equal => "Equal"
  | .notEqual => "NotEqual"
  | .greater => "Greater"
  | .less => "Less"
  | .greaterEqual => "GreaterEqual"
  | .lessEqual => "LessEqual"

def BinaryOp.name : BinaryOp → String
  | .int signed op => (if signed then "Signed" else "Unsigned") ++ op.name
  | .float op => "Floating" ++ op.name
  | .intCompare rel => "ICompare" ++ rel.name
  | .intOrder => "ICompareMulti"
  | .floatCompare rel unordered => "FCompare" ++ rel.name ++ (if unordered then "Unord" else "Ord")
  | .floatOrder => "FCompareMulti"
  | .bitwise .and => "BitwiseAnd"
  | .bitwise .or => "BitwiseOr"
  | .bitwise .xor => "BitwiseXor"
  | .shift .left => "BitwiseShl"
  | .shift .logicalRight => "BitwiseLogicalShr"
  | .shift .arithmeticRight => "BitwiseArithmeticShr"

def UnaryOp.name : UnaryOp → String
  | .intNeg => "SignedNeg"
  | .floatNeg => "FloatingNeg"
  | .bitNot => "BitwiseNot"
  | .logicalNot => "LogicalNot"

def CastOp.name : CastOp → String
  | .floatTruncate => "FloatingTruncate"
  | .floatExtend => "FloatingExtend"
  | .intSize => "CastIntSize"
  | .zeroExtend => "IntegerZeroExt"
  | .intTruncate => "IntegerTruncate"
  | .bitcast => "CastBitcast"
  | .signedness => "CastSignedness"
  | .intSignedness => "CastIntSignedness"
  | .pointerType => "CastPointerType"
  | .pointerToInt => "CastPointerToInt"
  | .intToPointer => "CastIntToPointer"
  | .floatToInt => "CastFloatToInt"
  | .intToFloat => "CastIntToFloat"

def PlaceOp.name : PlaceOp → String
  | .readPtr => "ReadPtr"
  | .writePtr => "WritePtr"
  | .store => "Store"
  | .stackAlloc => "StackAlloc"
  | .createLVal => "CreateLVal"
  | .addressOf => "AddressOf"
  | .dereference => "Dereference"
  | .getPointer => "GetPointer"
  | .getGep2 => "GetGep2"
  | .getStructMember => "GetStructMember"
  | .getPointerToStructMember => "GetPointerToStructMember"
  | .rawUnionGep => "RawUnionGep"
  | .sizeof => "Sizeof"
  | .select => "Select"

/-- The family and the member part of a field mnemonic; the access verb stands between them. -/
def Field.nameParts : Field → String × String
  | .arrayData => ("Saa", "Data")
  | .arrayLength => ("Saa", "Length")
  | .arrayCapacity => ("Saa", "Capacity")
  | .arrayRefCount => ("Saa", "RefCountPtr")
  | .sliceData => ("ArraySlice", "Data")
  | .sliceLength => ("ArraySlice", "Length")
  | .anyTypeId => ("Any", "TypeId")
  | .anyRefCount => ("Any", "RefCountPtr")
  | .anyData => ("Any", "Data")
  | .rangeLower => ("Range", "Lower")
  | .rangeUpper => ("Range", "Upper")
  | .rangeStep => ("Range", "Step")
  | .enumIndex => ("Enum", "Index")
  | .enumValue => ("Enum", "Value")

def UnionOp.name : UnionOp → String
  | .getVariantId => "UnionGetVariantId"
  | .setVariantId => "UnionSetVariantId"
  | .getValue => "UnionGetValue"
  | .setValue => "UnionSetValue"

def CallOp.name : CallOp → String
  | .direct => "CallFunction"
  | .pointer => "CallFunctionPointer"
  | .virtual => "CallVirtualMethod"

namespace Opcode

/-- The mnemonic of an opcode. -/
def name : Opcode → String
  | .binary op => op.name
  | .unary op => op.name
  | .cast op => op.name
  | .place op => op.name
  | .insertValue => "InsertValue"
  | .extractValue => "ExtractValue"
  | .getField f => f.nameParts.1 ++ "Get" ++ f.nameParts.2
  | .setField f => f.nameParts.1 ++ "Set" ++ f.nameParts.2
  | .union op => op.name
  | .call op => op.name
  | .phi => "CreatePhi"
  | .ret => "Return"
  | .branch => "Branch"
  | .condBranch => "CondBranch"
  | .unreachable => "Unreachable"

/-- Instructions that end a block. -/
def isTerminator : Opcode → Bool
  | .ret | .branch | .condBranch | .unreachable => true
  | _ => false

/-! ## The full list -/

def arithOps : List ArithOp := [.add, .sub, .mul, .div, .mod]

def relations : List Relation :=
  [.equal, .notEqual, .greater, .less, .greaterEqual, .lessEqual]

def fields : List Field :=
  [.arrayData, .arrayLength, .arrayCapacity, .arrayRefCount, .sliceData, .sliceLength,
   .anyTypeId, .anyRefCount, .anyData, .rangeLower, .rangeUpper, .rangeStep,
   .enumIndex, .enumValue]

def binaryOps : List BinaryOp :=
  arithOps.map (.int true) ++ arithOps.map (.int false) ++ arithOps.map .float
    ++ relations.map .intCompare ++ [.intOrder]
    ++ relations.map (.floatCompare · false) ++ relations.map (.floatCompare · true)
    ++ [.floatOrder, .bitwise .and, .bitwise .or, .bitwise .xor,
        .shift .left, .shift .logicalRight, .shift .arithmeticRight]

def unaryOps : List UnaryOp := [.intNeg, .floatNeg, .bitNot, .logicalNot]

def castOps : List CastOp :=
  [.floatTruncate, .floatExtend, .intSize, .zeroExtend, .intTruncate, .bitcast, .signedness,
   .intSignedness, .pointerType, .pointerToInt, .intToPointer, .floatToInt, .intToFloat]

def placeOps : List PlaceOp :=
  [.readPtr, .writePtr, .store, .stackAlloc, .createLVal, .addressOf, .dereference, .getPointer,
   .getGep2, .getStructMember, .getPointerToStructMember, .rawUnionGep, .sizeof, .select]

/-- Every opcode, once. -/
def all : List Opcode :=
  binaryOps.map .binary ++ unaryOps.map .unary ++ castOps.map .cast ++ placeOps.map .place
    ++ [.insertValue, .extractValue] ++ fields.map .getField ++ fields.map .setField
    ++ [.union .getVariantId, .union .setVariantId, .union .getValue, .union .setValue,
        .call .direct, .call .pointer, .call .virtual,
        .phi, .ret, .branch, .condBranch, .unreachable]

/-- The opcode with the given mnemonic. -/
def ofName? (name : String) : Option Opcode :=
  all.find? fun op => op.name == name

end Opcode

end PackedIR
