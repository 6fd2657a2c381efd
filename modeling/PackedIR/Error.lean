/-
Failures of interpretation, and their wording.

An `Error` is a cause: what was wrong, with the types, ids and numbers involved and
no text. While a failure unwinds, each enclosing activity adds a `Context`. All
wording is in the `message` functions at the end of the file; a failure reads as its
contexts, outermost first, and then its cause.
-/
import PackedIR.Bytes
import PackedIR.Module

set_option autoImplicit false

namespace PackedIR

/-! ## Causes -/

/-- What an operation with unsupported operand types was doing. -/
inductive Activity where
  | opcode (op : Opcode)
  | integerConstruction
  | floatConstruction
  | address
  | condition
  | index
  | pointer
  | tableIndex
  | variantId
  | dynArrayConstant
deriving DecidableEq, Inhabited

/-- The types that an operation does not support. -/
inductive OperandTypes where
  | given (types : List Ty)
  | cast (source target : Ty)
deriving DecidableEq, Inhabited

/-- How an operand or an instruction is malformed. -/
inductive OperandError where
  | writeOutside (count offset : Nat) (ty : Ty)
  | readOutside (ty : Ty) (offset : Nat) (source : Ty)
  | unterminatedBlock (block function : String)
  | outsideFrame (l : Local) (func : FuncId) (count : Nat)
  | noBlock (function : String) (block : BlockId)
  | fellOffBlock (block function : String)
  | arity (op : Opcode) (expected : String) (found : Nat)
  | noDeclaredResult (op : Opcode)
  | notBlock (operand : Operand)
  | notValue (operand : Operand)
  | localNotLValue (l : Local)
  | constantNotLValue (id : ConstId)
  | operandNotLValue (operand : Operand)
  | notConstIndex (operand : Operand)
  | noMember (ty : Ty) (index : Nat)
  | malformed (op : Opcode) (args : List Operand)
  | notFunctionConstant (id : ConstId)
  | notAggregate (op : Opcode)
deriving DecidableEq, Inhabited

/-- A type that native calls cannot pass or return. -/
inductive AbiGap where
  | type (ty : Ty)
  | integerSize (size : Nat)
deriving DecidableEq, Inhabited

/-- Why interpretation failed. -/
inductive Error where
  | sizeMismatch (expected found : Nat)
  | unsupportedTypes (activity : Activity) (types : OperandTypes)
  | unboundValue (l : Local) (function : String)
  | unresolvedGlobal (name : String)
  | unlistedPredecessor (function : String) (block : Option String)
  | argumentCount (function : String) (expected found : Nat)
  | foreignSymbolNotFound (symbol : String)
  | unsupportedAbi (gap : AbiGap)
  | reachedUnreachable (function : String)
  | stackOverflow (depth limit : Nat)
  | divisionByZero
  | invalidMemoryAccess (address size : Nat)
  | unknownFunction (address : Nat)
  | invalidOperand (reason : OperandError)
deriving DecidableEq, Inhabited

/-- Why a text is not a natural number of 64 bits. -/
inductive NumberError where
  | empty
  | invalidDigit
  | tooLarge
deriving DecidableEq, Inhabited

/-- What a failure goes back to. -/
inductive Cause where
  | error (e : Error)
  | functionNotFound (name : String)
  | noActiveFrame
  | notNumber (e : NumberError)
  | notBoolean (text : String)
deriving DecidableEq, Inhabited

/-- An activity that was under way when a failure arose. -/
inductive Context where
  | running (function : String)
  | executing (op : Opcode) (function block : String)
  | materializing (id : ConstId)
  | initializingGlobal (name : String)
  | runningGlobalInit
  | readingSetting (setting text : String)
deriving DecidableEq, Inhabited

/-- The outcomes of a computation that gave no value. -/
inductive Failure where
  /-- A cause and the activities around it, outermost first. -/
  | raised (context : List Context) (cause : Cause)
  /-- A broken precondition; nothing can go on after it. -/
  | fault (f : Fault)
  /-- The step budget ran out. -/
  | outOfFuel
deriving Inhabited

namespace Failure

/-- A failure without context. -/
def of (e : Error) : Failure := .raised [] (.error e)

/-- Adds an enclosing activity. Faults and exhausted budgets carry none. -/
def within (c : Context) : Failure → Failure
  | .raised context cause => .raised (c :: context) cause
  | failure => failure

/-- The error at the root of a failure, however many contexts surround it. -/
def error? : Failure → Option Error
  | .raised _ (.error e) => some e
  | _ => none

end Failure

/-- Pure computations that may fail. -/
abbrev Result := Except Failure

/-- Fails with an error. -/
def raise {α : Type} (e : Error) : Result α := .error (.of e)

/-- Fails because an operand or an instruction is malformed. -/
def raiseOperand {α : Type} (reason : OperandError) : Result α := raise (.invalidOperand reason)

/-- Turns a broken precondition into a failure. -/
def liftFault {α : Type} : Except Fault α → Result α
  | .ok a => .ok a
  | .error f => .error (.fault f)

instance : MonadLift (Except Fault) (Except Failure) := ⟨liftFault⟩

/-! ## Wording -/

def Activity.message : Activity → String
  | .opcode op => op.name
  | .integerConstruction => "integer construction"
  | .floatConstruction => "float construction"
  | .address => "address"
  | .condition => "condition"
  | .index => "index"
  | .pointer => "pointer"
  | .tableIndex => "vtable index"
  | .variantId => "variant id"
  | .dynArrayConstant => "dynamic array constant"

def OperandTypes.message : OperandTypes → String
  | .given types => ", ".intercalate (types.map Ty.render)
  | .cast source target => source.render ++ " -> " ++ target.render

def OperandError.message : OperandError → String
  | .writeOutside count offset ty =>
    "write of " ++ toString count ++ " bytes at offset " ++ toString offset ++ " into " ++ ty.render
  | .readOutside ty offset source =>
    "read of " ++ ty.render ++ " at offset " ++ toString offset ++ " from " ++ source.render
  | .unterminatedBlock block function =>
    "block `" ++ block ++ "` of `" ++ function ++ "` does not end with a terminator"
  | .outsideFrame l func count =>
    toString l ++ " is outside the frame of " ++ toString func ++ " (" ++ toString count ++ " locals)"
  | .noBlock function block => "`" ++ function ++ "` has no block " ++ toString block
  | .fellOffBlock block function =>
    "control fell off the end of block `" ++ block ++ "` in `" ++ function ++ "`"
  | .arity op expected found =>
    op.name ++ " expects " ++ expected ++ " operands, found " ++ toString found
  | .noDeclaredResult op => op.name ++ " has no declared result"
  | .notBlock operand => "expected a block, found " ++ operand.render
  | .notValue operand => operand.render ++ " is not a value"
  | .localNotLValue l => toString l ++ " is not an l-value"
  | .constantNotLValue id => "constant " ++ toString id ++ " is not an l-value"
  | .operandNotLValue operand => operand.render ++ " is not an l-value"
  | .notConstIndex operand => "expected a constant index, found " ++ operand.render
  | .noMember ty index => ty.render ++ " has no member " ++ toString index
  | .malformed op args => "malformed operands for " ++ op.name ++ ": " ++ Operand.renderList args
  | .notFunctionConstant id => "constant " ++ toString id ++ " is not a function"
  | .notAggregate op => op.name ++ " is not an aggregate operation"

def AbiGap.message : AbiGap → String
  | .type ty => ty.render
  | .integerSize size => toString size ++ "-byte integer"

/-- An address as messages show it. -/
def addressText (address : Nat) : String := "0x" ++ Bytes.hexDigits address

/-- The wording of an error, with addresses shown by `showAddress`. -/
def Error.message (showAddress : Nat → String) : Error → String
  | .sizeMismatch expected found =>
    "size mismatch: expected " ++ toString expected ++ " bytes, found " ++ toString found
  | .unsupportedTypes activity types =>
    "unsupported operand types for " ++ activity.message ++ ": " ++ types.message
  | .unboundValue l function => toString l ++ " has no binding in `" ++ function ++ "`"
  | .unresolvedGlobal name => "global `" ++ name ++ "` has not been registered"
  | .unlistedPredecessor function block =>
    "PHI in `" ++ function ++ "` has no entry for predecessor " ++ block.getD "<entry>"
  | .argumentCount function expected found =>
    "`" ++ function ++ "` expects " ++ toString expected ++ " arguments, but " ++ toString found
      ++ " were given"
  | .foreignSymbolNotFound symbol => "foreign symbol `" ++ symbol ++ "` not found"
  | .unsupportedAbi gap => "type " ++ gap.message ++ " has no foreign ABI mapping"
  | .reachedUnreachable function => "reached unreachable code in `" ++ function ++ "`"
  | .stackOverflow depth limit =>
    "call depth " ++ toString depth ++ " exceeds the limit of " ++ toString limit ++ " frames"
  | .divisionByZero => "integer division by zero"
  | .invalidMemoryAccess address size =>
    "invalid memory access of " ++ toString size ++ " bytes at " ++ showAddress address
  | .unknownFunction address => "no function at address " ++ showAddress address
  | .invalidOperand reason => "invalid operand: " ++ reason.message

def NumberError.message : NumberError → String
  | .empty => "cannot parse integer from empty string"
  | .invalidDigit => "invalid digit found in string"
  | .tooLarge => "number too large to fit in target type"

def Cause.message (showAddress : Nat → String) : Cause → String
  | .error e => e.message showAddress
  | .functionNotFound name => "Function '" ++ name ++ "' not found"
  | .noActiveFrame => "No active stack frame"
  | .notNumber e => e.message
  | .notBoolean text => "expected a boolean, found `" ++ text ++ "`"

def Context.message : Context → String
  | .running function => "Failed to run `" ++ function ++ "`"
  | .executing op function block => op.name ++ " in `" ++ function ++ "` block `" ++ block ++ "`"
  | .materializing id => "Failed to materialize constant " ++ toString id
  | .initializingGlobal name => "Failed to initialize global `" ++ name ++ "`"
  | .runningGlobalInit => "Failed to run global initializers"
  | .readingSetting setting text => "invalid " ++ setting ++ " value `" ++ text ++ "`"

/-- Contexts, outermost first, and then the cause. -/
def failureText (showAddress : Nat → String) (context : List Context) (cause : Cause) : String :=
  ": ".intercalate (context.map Context.message ++ [cause.message showAddress])

end PackedIR
