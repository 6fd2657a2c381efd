/-
Modules: constants, functions, globals and strings.

A module is built by appending declarations, and every declaration is named by the
position it was appended at, so an id keeps denoting the same declaration however
the module grows afterwards. Instructions name their inputs by `Operand`s; nothing
here checks that the operands fit the opcode.
-/
import PackedIR.Fault

set_option autoImplicit false

namespace PackedIR

/-! ## Constants -/

/-- How an immutable constant is made. -/
inductive ConstKind where
  /-- An integer literal, cut to the width of the constant's type. -/
  | int (value : Int)
  /-- A floating-point literal, by its double bit pattern. -/
  | float (bits : Nat)
  | bool (value : Bool)
  /-- The all-zero value of the type; also the null pointer. -/
  | zero
  /-- A string literal: a pointer to its bytes and a closing zero byte. -/
  | text (value : String)
  /-- Another constant's bytes under this constant's type. -/
  | bitcast (inner : ConstId)
  | array (elements : List ConstId)
  | tuple (elements : List ConstId)
  | enumCase (index value : ConstId)
  | slice (data len : ConstId)
  /-- A dynamic array over storage of its own, filled from an array constant. -/
  | owned (array : ConstId)
  /-- A dynamic array from an explicit data pointer, length and capacity. -/
  | parts (data len capacity : ConstId)
  /-- A function as a value. -/
  | function (func : FuncId)
  /-- A global variable as an l-value; the constant has the variable's type. -/
  | globalVar (global : GlobalId)
  /-- An entry of the string pool. -/
  | globalString (string : StringId)
deriving DecidableEq, Inhabited

/-- A constant shared between instructions. -/
structure Constant where
  ty : Ty
  kind : ConstKind
deriving DecidableEq, Inhabited

/-! ## Instructions -/

/-- An input of an instruction. -/
inductive Operand where
  | local (l : Local)
  | const (id : ConstId)
  /-- A successor block, or a predecessor listed by a PHI. -/
  | block (block : BlockId)
  /-- A type, such as a cast target. -/
  | type (ty : Ty)
deriving DecidableEq, Inhabited

namespace Operand

/-- The operand as diagnostics show it. -/
def render : Operand → String
  | .local l => "Local(Local(" ++ toString l.index ++ "))"
  | .const id => "Const(ConstId(" ++ toString id.index ++ "))"
  | .block b => "Block(BlockIdx(" ++ toString b.index ++ "))"
  | .type ty => "Type(" ++ ty.render ++ ")"

/-- A list of operands as diagnostics show it. -/
def renderList (operands : List Operand) : String :=
  "[" ++ ", ".intercalate (operands.map render) ++ "]"

end Operand

/-- One instruction; `result` is the local it binds. -/
structure Instruction where
  op : Opcode
  args : List Operand
  result : Option Local
deriving DecidableEq, Inhabited

/-- A named sequence of instructions. -/
structure Block where
  name : String
  instructions : Array Instruction
deriving DecidableEq, Inhabited

/-- The declaration of an argument or of an instruction result. An l-value holds the address of
its storage. -/
structure LocalDecl where
  ty : Ty
  lvalue : Bool
deriving DecidableEq, Inhabited

/-! ## Functions -/

/-- A function; without blocks it is a declaration, provided by native code. -/
structure Function where
  name : String
  ty : Ty
  locals : Array LocalDecl
  blocks : Array Block
deriving DecidableEq, Inhabited

namespace Function

/-- A function without a body, whose first locals are its parameters. -/
def declare (name : String) (ty : Ty) : Except Fault Function :=
  match ty.signature? with
  | some sig => .ok ⟨name, ty, (sig.params.map fun t => ⟨t, false⟩).toArray, #[]⟩
  | none => .error (.declaredNonFunction name ty)

/-- The signature. A function declared through a pointer type has none to show. -/
def signature (f : Function) : Except Fault Signature :=
  match f.ty with
  | .function params ret variadic => .ok ⟨params, ret, variadic⟩
  | _ => .error .indirectSignature

/-- The local bound to argument `index`. -/
def arg (f : Function) (index : Nat) : Except Fault Local := do
  let sig ← f.signature
  if index < sig.params.length then .ok ⟨index⟩ else .error (.argumentRange index)

def local? (f : Function) (l : Local) : Option LocalDecl := f.locals[l.index]?

def block? (f : Function) (b : BlockId) : Option Block := f.blocks[b.index]?

def isDeclaration (f : Function) : Bool := f.blocks.isEmpty

/-- The first block that does not end with a terminator. -/
def unterminated? (f : Function) : Option Block :=
  f.blocks.find? fun b => !(b.instructions.back?.any fun i => i.op.isTerminator)

end Function

/-! ## Modules -/

/-- A global variable and the constant it starts from. -/
structure Global where
  name : String
  ty : Ty
  init : Option ConstId
deriving DecidableEq, Inhabited

/-- A compilation unit. -/
structure Module where
  name : String
  constants : Array Constant := #[]
  functions : Array Function := #[]
  globals : Array Global := #[]
  strings : Array String := #[]
  /-- Intrinsic names and the functions that stand for them, in order of registration. -/
  intrinsics : List (String × FuncId) := []
  /-- The function that runs the global initializers that are not constants. -/
  globalInit : Option FuncId := none
deriving DecidableEq, Inhabited

/-- The entry, or a fault when there is none. -/
def orMissing {α : Type} : Option α → Except Fault α
  | some a => .ok a
  | none => .error .missing

namespace Module

/-! ### Look-up -/

def constant (m : Module) (id : ConstId) : Except Fault Constant :=
  orMissing m.constants[id.index]?

def function (m : Module) (id : FuncId) : Except Fault Function :=
  orMissing m.functions[id.index]?

def global (m : Module) (id : GlobalId) : Except Fault Global :=
  orMissing m.globals[id.index]?

def string (m : Module) (id : StringId) : Except Fault String :=
  orMissing m.strings[id.index]?

/-- The first function with the given name. -/
def functionByName? (m : Module) (name : String) : Option FuncId :=
  (m.functions.findIdx? fun f => f.name == name).map FuncId.mk

/-! ### Growth -/

def addConstant (m : Module) (ty : Ty) (kind : ConstKind) : ConstId × Module :=
  (⟨m.constants.size⟩, { m with constants := m.constants.push ⟨ty, kind⟩ })

def constInt (m : Module) (ty : Ty) (value : Int) : ConstId × Module :=
  m.addConstant ty (.int value)

def constBool (m : Module) (value : Bool) : ConstId × Module :=
  m.addConstant .bool (.bool value)

def constFloat (m : Module) (ty : Ty) (bits : Nat) : ConstId × Module :=
  m.addConstant ty (.float bits)

def constZero (m : Module) (ty : Ty) : ConstId × Module :=
  m.addConstant ty .zero

def constText (m : Module) (value : String) : ConstId × Module :=
  m.addConstant (Ty.ptrTo Ty.i8) (.text value)

/-- A function as a value, under its declared type. -/
def constFunction (m : Module) (func : FuncId) : Except Fault (ConstId × Module) := do
  let f ← m.function func
  return m.addConstant f.ty (.function func)

/-- An l-value reference to a global variable. -/
def constGlobal (m : Module) (global : GlobalId) : Except Fault (ConstId × Module) := do
  let g ← m.global global
  return m.addConstant g.ty (.globalVar global)

def constGlobalString (m : Module) (string : StringId) : ConstId × Module :=
  m.addConstant (Ty.ptrTo Ty.i8) (.globalString string)

/-- Declares a function; it stays a declaration until it gets blocks. -/
def declareFunction (m : Module) (name : String) (ty : Ty) : Except Fault (FuncId × Module) := do
  let f ← Function.declare name ty
  return (⟨m.functions.size⟩, { m with functions := m.functions.push f })

def addGlobal (m : Module) (name : String) (ty : Ty) (init : Option ConstId) : GlobalId × Module :=
  (⟨m.globals.size⟩, { m with globals := m.globals.push ⟨name, ty, init⟩ })

def addString (m : Module) (value : String) : StringId × Module :=
  (⟨m.strings.size⟩, { m with strings := m.strings.push value })

/-- Marks `func` as the function of the intrinsic `name`. -/
def addIntrinsic (m : Module) (name : String) (func : FuncId) : Module :=
  { m with intrinsics := m.intrinsics ++ [(name, func)] }

def setGlobalInit (m : Module) (func : FuncId) : Module :=
  { m with globalInit := some func }

/-- Replaces one function. -/
def setFunction (m : Module) (id : FuncId) (f : Function) : Module :=
  { m with functions := m.functions.setIfInBounds id.index f }

end Module

end PackedIR
