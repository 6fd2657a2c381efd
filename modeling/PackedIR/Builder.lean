/-
Assembling function bodies.

A `Builder` appends to one function of a module, at the end of the block it is
positioned on. Each emitter declares the local its instruction binds, with the type
that evaluation gives the result, and returns that local as an operand. The types
are computed from the operands alone: `memberTy` and `fieldTy` say which member an
access reads. Nothing is verified; a call that makes no sense is a fault.
-/
import PackedIR.Module

set_option autoImplicit false

namespace PackedIR

/-- A module under construction and the place where instructions go. -/
structure Builder where
  module : Module
  func : FuncId
  current : Option BlockId := none
deriving Inhabited

/-- Building steps: they change the builder or stop with a fault. -/
abbrev Build := StateT Builder (Except Fault)

/-! ## Types of members -/

/-- Type of member `index` of a struct, class, tuple, array or union. -/
def Ty.memberTy? (ty : Ty) (index : Nat) : Option Ty :=
  match ty with
  | .struct _ fields => fields[index]?
  | .object _ fields _ => match index with
    | 0 => some (Ty.ptrTo Ty.i8)
    | i + 1 => fields[i]?
  | .tuple members => members[index]?
  | .union _ variants => variants[index]?
  | .rawUnion _ variants => variants[index]?
  | .array elem len => if index < len then some elem else none
  | _ => none

/-- The type a container getter gives for a container of type `ty`. -/
def Ty.fieldTy (op : Opcode) (ty : Ty) : Except Fault Ty :=
  match op with
  | .getField .arrayData | .getField .sliceData => match ty with
    | .string => .ok (Ty.mutPtrTo Ty.i8)
    | _ => match ty.element? with
      | some elem => .ok (Ty.mutPtrTo elem)
      | none => .error (.noElement ty)
  | .getField .arrayLength | .getField .arrayCapacity | .getField .sliceLength
  | .getField .rangeLower | .getField .rangeUpper | .getField .rangeStep
  | .getField .enumIndex | .union .getVariantId => .ok Ty.word
  | .getField .arrayRefCount | .getField .anyRefCount => .ok (Ty.mutPtrTo Ty.word)
  | .getField .anyTypeId => .ok Ty.uword
  | .getField .anyData => .ok (.array Ty.i8 anyDataSize)
  | .getField .enumValue => match ty with
    | .enum _ caseTy => .ok caseTy
    | _ => .error (.notEnum ty)
  | _ => .error (.notGetter op)

namespace Build

/-- Applies a module operation that returns something. -/
def onModule {α : Type} (f : Module → α × Module) : Build α := do
  let b ← get
  let (a, m) := f b.module
  set { b with module := m }
  return a

/-- Applies a module operation that may fault. -/
def tryModule {α : Type} (f : Module → Except Fault (α × Module)) : Build α := do
  let b ← get
  let (a, m) ← f b.module
  set { b with module := m }
  return a

/-- The function under construction. -/
def function : Build Function := do
  let b ← get
  liftM (b.module.function b.func)

/-! ## Blocks and constants -/

/-- Appends an empty block. -/
def addBlock (name : String) : Build BlockId := do
  let f ← function
  modify fun b =>
    { b with module := b.module.setFunction b.func { f with blocks := f.blocks.push ⟨name, #[]⟩ } }
  return ⟨f.blocks.size⟩

/-- Later instructions go to the end of `block`. -/
def positionAtEnd (block : BlockId) : Build Unit :=
  modify fun b => { b with current := some block }

def arg (index : Nat) : Build Operand := do
  let f ← function
  return .local (← f.arg index)

def constInt (ty : Ty) (value : Int) : Build Operand :=
  return .const (← onModule (·.constInt ty value))

def constBool (value : Bool) : Build Operand :=
  return .const (← onModule (·.constBool value))

def constFloat (ty : Ty) (bits : Nat) : Build Operand :=
  return .const (← onModule (·.constFloat ty bits))

def constZero (ty : Ty) : Build Operand :=
  return .const (← onModule (·.constZero ty))

def constText (value : String) : Build Operand :=
  return .const (← onModule (·.constText value))

def constFunction (func : FuncId) : Build Operand :=
  return .const (← tryModule (·.constFunction func))

/-- An l-value operand for a global variable. -/
def global (global : GlobalId) : Build Operand :=
  return .const (← tryModule (·.constGlobal global))

def constGlobalString (string : StringId) : Build Operand :=
  return .const (← onModule (·.constGlobalString string))

/-! ## Instructions -/

/-- The static type of an operand; an l-value has the type of its contents. -/
def typeOf (operand : Operand) : Build Ty := do
  match operand with
  | .local l => match (← function).local? l with
    | some decl => return decl.ty
    | none => throw (.unknownLocal l)
  | .const id => return (← (← get).module.constant id).ty
  | .type ty => return ty
  | .block block => throw (.blockWithoutType block)

/-- Stores `f` with `inst` appended to one of its blocks. -/
def append (f : Function) (block : BlockId) (inst : Instruction) : Build Unit := do
  let target ← orMissing (f.block? block)
  let grown := { target with instructions := target.instructions.push inst }
  let f := { f with blocks := f.blocks.setIfInBounds block.index grown }
  modify fun b => { b with module := b.module.setFunction b.func f }

/-- The block that instructions go to. -/
def position : Build BlockId := do
  match (← get).current with
  | some block => return block
  | none => throw .notPositioned

/-- Appends an instruction that binds a new local. -/
def emitBound (op : Opcode) (args : List Operand) (decl : LocalDecl) : Build Local := do
  let block ← position
  let f ← function
  let bound : Local := ⟨f.locals.size⟩
  append { f with locals := f.locals.push decl } block ⟨op, args, some bound⟩
  return bound

/-- Appends an instruction without a result. -/
def emitVoid (op : Opcode) (args : List Operand) : Build Unit := do
  let block ← position
  append (← function) block ⟨op, args, none⟩

/-- Appends an instruction, with or without a result. -/
def emit (op : Opcode) (args : List Operand) : Option LocalDecl → Build (Option Local)
  | some decl => return some (← emitBound op args decl)
  | none => do
    emitVoid op args
    return none

/-- An instruction whose result is an ordinary value. -/
def emitValue (op : Opcode) (args : List Operand) (ty : Ty) : Build Operand :=
  return .local (← emitBound op args ⟨ty, false⟩)

/-- An instruction whose result is an l-value. -/
def emitLValue (op : Opcode) (args : List Operand) (ty : Ty) : Build Operand :=
  return .local (← emitBound op args ⟨ty, true⟩)

/-- Arithmetic, bitwise operators and comparisons. -/
def binary (op : Opcode) (left right : Operand) : Build Operand := do
  let ty ← match op with
    | .binary .intOrder | .binary .floatOrder => pure Ty.word
    | .binary (.intCompare _) | .binary (.floatCompare _ _) => pure Ty.bool
    | _ => typeOf left
  emitValue op [left, right] ty

/-- Negation and complements. -/
def unary (op : Opcode) (value : Operand) : Build Operand := do
  emitValue op [value] (← typeOf value)

def cast (op : Opcode) (value : Operand) (target : Ty) : Build Operand :=
  emitValue op [value, .type target] target

def ret (value : Option Operand) : Build Unit :=
  emitVoid .ret value.toList

def branch (target : BlockId) : Build Unit :=
  emitVoid .branch [.block target]

def condBranch (cond : Operand) (onTrue onFalse : BlockId) : Build Unit :=
  emitVoid .condBranch [cond, .block onTrue, .block onFalse]

def unreachable : Build Unit :=
  emitVoid .unreachable []

/-- A PHI node over pairs of a predecessor and the value it brings. -/
def phi (ty : Ty) (incoming : List (BlockId × Operand)) : Build Operand :=
  emitValue .phi (incoming.flatMap fun (block, value) => [.block block, value]) ty

/-- A call instruction; a void call has no result. -/
def emitCall (op : CallOp) (args : List Operand) (ret : Ty) : Build (Option Operand) := do
  if ret.isVoid then
    emitVoid (.call op) args
    return none
  else
    return some (← emitValue (.call op) args ret)

/-- A direct call. -/
def call (callee : FuncId) (args : List Operand) : Build (Option Operand) := do
  let f ← (← get).module.function callee
  let sig ← f.signature
  let calleeOperand ← constFunction callee
  emitCall .direct (calleeOperand :: args) sig.ret

/-- A call through a function value or a pointer to one. -/
def callPointer (callee : Operand) (args : List Operand) : Build (Option Operand) := do
  let ty ← typeOf callee
  match ty.signature? with
  | some sig => emitCall .pointer (callee :: args) sig.ret
  | none => throw (.notCallable ty)

/-- A call of slot `index` of the method table at the start of `receiver`. -/
def callVirtual (klass : Ty) (index : Int) (fnTy : Ty) (receiver : Operand)
    (args : List Operand) : Build (Option Operand) := do
  match fnTy.signature? with
  | some sig =>
    let slot ← constInt Ty.word index
    emitCall .virtual (.type klass :: slot :: .type fnTy :: receiver :: args) sig.ret
  | none => throw (.notVirtualCallable fnTy)

/-! ## Storage -/

/-- Zeroed storage of the running frame, as a mutable pointer. -/
def stackAlloc (ty : Ty) : Build Operand :=
  emitValue (.place .stackAlloc) [.type ty] (Ty.mutPtrTo ty)

/-- Zeroed storage of the running frame, as an l-value. -/
def createLVal (ty : Ty) : Build Operand :=
  emitLValue (.place .createLVal) [.type ty] ty

def store (value lvalue : Operand) : Build Unit :=
  emitVoid (.place .store) [value, lvalue]

def addressOf (lvalue : Operand) : Build Operand := do
  emitValue (.place .addressOf) [lvalue] (Ty.mutPtrTo (← typeOf lvalue))

/-- The pointee type of a pointer operand. -/
def pointeeOf (ptr : Operand) : Build Ty := do
  let ty ← typeOf ptr
  match ty.pointee? with
  | some pointee => return pointee
  | none => throw (.notPointer ty)

def dereference (ptr : Operand) : Build Operand := do
  emitLValue (.place .dereference) [ptr] (← pointeeOf ptr)

def readPtr (ptr : Operand) : Build Operand := do
  emitValue (.place .readPtr) [ptr] (← pointeeOf ptr)

def writePtr (value ptr : Operand) : Build Unit :=
  emitVoid (.place .writePtr) [value, ptr]

def getPointer (ptr index : Operand) : Build Operand := do
  emitValue (.place .getPointer) [ptr, index] (← typeOf ptr)

def getGep2 (ptr first second : Operand) : Build Operand := do
  let array ← pointeeOf ptr
  match array.element? with
  | some elem => emitValue (.place .getGep2) [ptr, first, second] (Ty.mutPtrTo elem)
  | none => throw (.notArray array)

/-- The type of a member, or a fault when there is none. -/
def memberTy (ty : Ty) (index : Nat) : Build Ty :=
  match ty.memberTy? index with
  | some member => return member
  | none => throw (.noMember ty index)

def getStructMember (lvalue : Operand) (member : Nat) : Build Operand := do
  let ty ← memberTy (← typeOf lvalue) member
  let index ← constInt Ty.word member
  emitLValue (.place .getStructMember) [lvalue, index] ty

def getPointerToStructMember (ptr ptrIndex : Operand) (member : Nat) : Build Operand := do
  let ty ← memberTy (← pointeeOf ptr) member
  let index ← constInt Ty.word member
  emitValue (.place .getPointerToStructMember) [ptr, ptrIndex, index] (Ty.mutPtrTo ty)

def sizeof (ty : Ty) : Build Operand :=
  emitValue (.place .sizeof) [.type ty] Ty.word

def select (cond onTrue onFalse : Operand) : Build Operand := do
  emitValue (.place .select) [cond, onTrue, onFalse] (← typeOf onTrue)

def rawUnionGep (lvalue : Operand) (variant : Ty) : Build Operand :=
  emitLValue (.place .rawUnionGep) [lvalue, .type variant] variant

/-! ## Aggregates and containers -/

def insertValue (aggregate element : Operand) (index : Nat) : Build Operand := do
  let ty ← typeOf aggregate
  let index ← constInt Ty.word index
  emitValue .insertValue [aggregate, element, index] ty

def extractValue (aggregate : Operand) (index : Nat) : Build Operand := do
  let ty ← memberTy (← typeOf aggregate) index
  let index ← constInt Ty.word index
  emitValue .extractValue [aggregate, index] ty

/-- A container getter, such as the length of a dynamic array. -/
def getField (op : Opcode) (aggregate : Operand) : Build Operand := do
  let ty ← Ty.fieldTy op (← typeOf aggregate)
  emitValue op [aggregate] ty

/-- A container setter; its result is the updated container. -/
def setField (op : Opcode) (aggregate value : Operand) : Build Operand := do
  emitValue op [aggregate, value] (← typeOf aggregate)

def unionGetValue (union : Operand) (variant : Nat) : Build Operand := do
  let ty ← memberTy (← typeOf union) variant
  let index ← constInt Ty.word variant
  emitValue (.union .getValue) [union, index] ty

def unionSetValue (union : Operand) (variant : Nat) (value : Operand) : Build Operand := do
  let ty ← typeOf union
  let index ← constInt Ty.word variant
  emitValue (.union .setValue) [union, index, value] ty

end Build

end PackedIR
