/-
Interpreter memory: an arena and the ranges owned in it.

Storage comes from an allocator. It belongs either to a frame of the call stack, and
is released with it, or to the statics: global variables, strings and the buffers of
constants, which are kept for good. Each side has its own map of owned ranges. With
sanitizing on, a load or store must lie inside one owned range; with it off, only the
null address is refused. Empty accesses always succeed.
-/
import PackedIR.Memory.Allocator
import PackedIR.Value

set_option autoImplicit false

namespace PackedIR

/-- Storage and its ownership. -/
structure Memory where
  arena : Arena := {}
  stack : AllocMap := {}
  statics : AllocMap := {}
  /-- How often storage has been handed out. -/
  taken : Nat := 0
deriving DecidableEq, Inhabited

namespace Memory

/-- What backs the range, looking at the stack first. -/
def owner? (m : Memory) (address size : Nat) : Option AllocKind :=
  (m.stack.owner? address size).or (m.statics.owner? address size)

/-! ## Access -/

/-- Whether an access is allowed. -/
def accessible (m : Memory) (sanitize : Bool) (address size : Nat) : Bool :=
  size == 0 || address != 0 && (!sanitize || (m.owner? address size).isSome)

/-- Succeeds when an access is allowed. -/
def checkAccess (m : Memory) (sanitize : Bool) (address size : Nat) : Result Unit :=
  if m.accessible sanitize address size then .ok ()
  else raise (.invalidMemoryAccess address size)

/-- Loads a value of type `ty`. -/
def load (m : Memory) (sanitize : Bool) (address : Nat) (ty : Ty) : Result Value := do
  m.checkAccess sanitize address ty.size
  Value.ofBytes ty (m.arena.read address ty.size)

/-- Replaces the bytes from `address` on, without a check. -/
def put (m : Memory) (address : Nat) (bytes : Bytes) : Memory :=
  { m with arena := m.arena.write address bytes }

/-! ## Allocation -/

/-- What the allocator gets to know. -/
def ledger (m : Memory) : Ledger := ⟨m.stack, m.statics, m.arena.bytes.size, m.taken⟩

/-- Storage at an address is handed out: it is zeroed, and no map records it yet. -/
def claim (m : Memory) (address size : Nat) : Memory :=
  { m with arena := m.arena.claim address size, taken := m.taken + 1 }

/-- The address of an empty static allocation, which owns nothing. -/
def emptyAddress : Nat := 1

end Memory

end PackedIR
