/-
Which address ranges are owned.

Every buffer whose address was handed out is recorded with its start, its size and
what it backs. The entries are kept by descending start, so the entry that could
cover an address is the first one that starts at or before it, and the entry that a
new range could meet is the first one that starts before its end. Looking at one
entry is enough because recorded ranges never meet, and `insert` keeps that up by
refusing a range that meets another.
-/
import PackedIR.Fault

set_option autoImplicit false

namespace PackedIR

/-- What an allocation backs. -/
inductive AllocKind where
  | frame
  | global
  | string
  | constant
deriving DecidableEq, Repr, Inhabited

/-- One owned range of addresses. -/
structure Allocation where
  start : Nat
  size : Nat
  kind : AllocKind
deriving DecidableEq, Repr, Inhabited

/-- The ranges have no address in common. -/
def Allocation.Apart (a b : Allocation) : Prop :=
  b.start + b.size ≤ a.start ∨ a.start + a.size ≤ b.start

/-- Owned ranges by descending start. -/
structure AllocMap where
  entries : List Allocation := []
deriving DecidableEq, Repr, Inhabited

/-- The first address past the address space. -/
def addressLimit : Nat := Nat.pow 2 64

namespace AllocMap

/-- Puts an entry in its place, replacing one with the same start. -/
def place (a : Allocation) : List Allocation → List Allocation
  | [] => [a]
  | b :: bs =>
    if b.start < a.start then a :: b :: bs
    else if b.start = a.start then a :: bs
    else b :: place a bs

/-- The recorded range that meets the given one, judged by the last range starting before its
end. -/
def overlapping? (m : AllocMap) (start size : Nat) : Option Allocation :=
  match m.entries.find? fun a => a.start < start + size with
  | some a => if start < a.start + a.size then some a else none
  | none => none

/-- Records a range. An empty range owns nothing and is not recorded. -/
def insert (m : AllocMap) (a : Allocation) : Except Fault AllocMap :=
  if a.size = 0 then .ok m
  else match m.overlapping? a.start a.size with
    | some other => .error (.overlappingAllocation a.start a.size other.start)
    | none => .ok ⟨place a m.entries⟩

/-- Forgets the range that starts at `start`. -/
def remove (m : AllocMap) (start size : Nat) : Except Fault AllocMap :=
  if size = 0 then .ok m
  else if m.entries.any fun a => a.start == start then
    .ok ⟨m.entries.eraseP fun a => a.start == start⟩
  else .error (.unrecordedAllocation start)

/-- What backs the single range that covers `size` bytes from `address` on. -/
def owner? (m : AllocMap) (address size : Nat) : Option AllocKind :=
  if address + size < addressLimit then
    match m.entries.find? fun a => a.start ≤ address with
    | some a => if address + size ≤ a.start + a.size then some a.kind else none
    | none => none
  else none

end AllocMap

end PackedIR
