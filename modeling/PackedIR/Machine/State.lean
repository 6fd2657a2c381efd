/-
What a running interpreter holds.

A `Program` is everything that stays the same during a run: the module, the
configuration, the allocator, the symbols and the native code. A `State` is everything
that changes: memory, the frames of the active calls, and what has been made so far of
the module's constants, globals, strings and functions. `Exec` computations change the
state and may fail; a failure keeps the changes made up to it.
-/
import PackedIR.Config
import PackedIR.Foreign.Native
import PackedIR.Memory
import PackedIR.Table

set_option autoImplicit false

namespace PackedIR

/-- What is executed, and under which settings. -/
structure Program where
  module : Module
  config : Config := {}
  allocator : Allocator := .standard
  resolver : Resolver := Native.processSymbols
  host : Host := Native.host

/-- One active call. -/
structure Frame where
  function : FuncId
  /-- The binding of each argument and instruction result. -/
  locals : Array (Option Value)
  /-- The block that instructions are taken from. -/
  block : BlockId := ⟨0⟩
  /-- The block that was entered last in this call. -/
  entered : BlockId := ⟨0⟩
  /-- The block that was entered before it. -/
  previous : Option BlockId := none
  /-- The instruction of the block that is executed next. -/
  pc : Nat := 0
  /-- Start and size of the storage this call has allocated, latest first. -/
  allocs : List (Nat × Nat) := []
deriving DecidableEq, Inhabited

/-- The changing part of an interpreter. -/
structure State where
  memory : Memory := {}
  /-- The active calls, innermost first. -/
  frames : List Frame := []
  /-- Constants that have been materialized. -/
  constants : Table ConstId Value := {}
  /-- The address of each registered global, as a pointer. -/
  globals : Table GlobalId Value := {}
  /-- The address of each string of the pool that has been placed. -/
  strings : Table StringId Nat := {}
  /-- Functions that have been prepared for execution. -/
  compiled : List FuncId := []
  /-- Native symbols used in place of the declared names. -/
  aliases : Table FuncId String := {}
  initialized : Bool := false
deriving Inhabited

/-- Computations of the interpreter. -/
abbrev Exec := EStateM Failure State

instance : MonadLift (Except Failure) Exec where
  monadLift
    | .ok a => pure a
    | .error e => throw e

instance : MonadLift (Except Fault) Exec where
  monadLift
    | .ok a => pure a
    | .error f => throw (.fault f)

namespace Exec

/-- Adds a context to every failure of a computation. -/
def within {α : Type} (c : Context) (x : Exec α) : Exec α := fun s =>
  match x s with
  | .ok a s => .ok a s
  | .error e s => .error (e.within c) s

end Exec

/-! ## Function identities -/

/-- The most functions that can have an address. -/
def FuncId.limit : Nat := Nat.pow 2 32

/-- The address that stands for a function when it is used as a value. -/
def FuncId.identity (id : FuncId) : Nat := Nat.pow 2 40 + 16 * id.index

/-- The prepared function that an address stands for. -/
def State.functionAt? (s : State) (address : Nat) : Option FuncId :=
  s.compiled.find? fun id => id.identity == address

/-! ## Frames -/

namespace Frame

def lookup? (f : Frame) (l : Local) : Option Value := (f.locals[l.index]?).join

/-- Succeeds when the frame has a slot for the local. -/
def checkSlot (f : Frame) (l : Local) : Result Unit :=
  if l.index < f.locals.size then .ok ()
  else raiseOperand (.outsideFrame l f.function f.locals.size)

/-- Binds a local, replacing an earlier binding. -/
def set (f : Frame) (l : Local) (v : Value) : Frame :=
  { f with locals := f.locals.setIfInBounds l.index (some v) }

/-- Control moves to the start of another block. -/
def enterBlock (f : Frame) (target : BlockId) : Frame :=
  { f with previous := some f.entered, entered := target, block := target, pc := 0 }

/-- Control moves to the next instruction. -/
def advance (f : Frame) : Frame := { f with pc := f.pc + 1 }

end Frame

namespace Exec

/-- The innermost frame. -/
def frame : Exec Frame := do
  match (← get).frames with
  | f :: _ => return f
  | [] => throw (.raised [] .noActiveFrame)

/-- Changes the innermost frame, if there is one. -/
def modifyFrame (g : Frame → Frame) : Exec Unit :=
  modify fun s => match s.frames with
    | f :: rest => { s with frames := g f :: rest }
    | [] => s

/-- Binds a local of the innermost frame. -/
def bindLocal (l : Local) (v : Value) : Exec Unit := do
  (← frame).checkSlot l
  modifyFrame fun f => f.set l v

end Exec

/-! ## Memory -/

namespace Exec

variable (p : Program)

/-- Loads a value. -/
def load (address : Nat) (ty : Ty) : Exec Value := do
  (← get).memory.load p.config.sanitizeMemory address ty

/-- Stores bytes. -/
def storeBytes (address : Nat) (bytes : Bytes) : Exec Unit := do
  (← get).memory.checkAccess p.config.sanitizeMemory address bytes.length
  modify fun s => { s with memory := s.memory.put address bytes }

/-- The address that the allocator chooses for new storage. -/
def findRoom (size : Nat) : Exec Nat := do
  match p.allocator.place (← get).memory.ledger size with
  | some address => return address
  | none => throw (.fault .outOfAddresses)

/-- Allocates static storage with the given contents. Empty storage has a fixed address. -/
def allocStatic (kind : AllocKind) (bytes : Bytes) : Exec Nat := do
  if bytes.isEmpty then return Memory.emptyAddress
  let address ← findRoom p bytes.length
  let statics ← (← get).memory.statics.insert ⟨address, bytes.length, kind⟩
  modify fun s =>
    { s with memory := { (s.memory.claim address bytes.length).put address bytes with statics } }
  return address

/-- Allocates zeroed storage that belongs to the innermost frame. -/
def allocFrame (size : Nat) : Exec Nat := do
  let _ ← frame
  let address ← findRoom p size
  let stack ← (← get).memory.stack.insert ⟨address, size, .frame⟩
  modify fun s => { s with memory := { s.memory.claim address size with stack } }
  modifyFrame fun f => { f with allocs := (address, size) :: f.allocs }
  return address

end Exec

/-- The map without the given ranges. -/
def AllocMap.removeAll (m : AllocMap) : List (Nat × Nat) → Except Fault AllocMap
  | [] => .ok m
  | (start, size) :: rest => do (← m.remove start size).removeAll rest

namespace Exec

/-- Removes the innermost frame and releases its storage. -/
def popFrame : Exec Unit := do
  match (← get).frames with
  | f :: _ =>
    let stack ← (← get).memory.stack.removeAll f.allocs
    modify fun s => { s with frames := s.frames.tail, memory := { s.memory with stack } }
  | [] => throw (.raised [] .noActiveFrame)

end Exec

end PackedIR
