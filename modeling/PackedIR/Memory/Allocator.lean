/-
Where new storage goes.

An allocator is asked for an address. It knows the ranges in use, how far the arena
reaches and how much it has handed out so far, but not what storage contains. Any
allocator will do that keeps to three laws: storage lies behind the base of the arena
and inside the address space, and it is apart from every range in use. A range that has
been released is not in use, and may be handed out again.
-/
import PackedIR.Memory.AllocMap
import PackedIR.Memory.Arena

set_option autoImplicit false

namespace PackedIR

/-- What an allocator can go by. -/
structure Ledger where
  /-- The ranges that belong to frames. -/
  stack : AllocMap
  /-- The ranges that are kept for good. -/
  statics : AllocMap
  /-- The number of bytes in the arena. -/
  extent : Nat
  /-- How often storage has been handed out. Equal requests need not be answered alike. -/
  taken : Nat

/-- The ranges in use. -/
def Ledger.inUse (l : Ledger) : List Allocation := l.stack.entries ++ l.statics.entries

/-- Chooses the addresses of new storage. -/
structure Allocator where
  /-- An address for `size` bytes, if there is room. -/
  place : Ledger → (size : Nat) → Option Nat
  base_le : ∀ {l : Ledger} {size address : Nat}, place l size = some address → Arena.base ≤ address
  lt_limit : ∀ {l : Ledger} {size address : Nat}, place l size = some address →
    address + size < addressLimit
  apart : ∀ {l : Ledger} {size address : Nat}, place l size = some address →
    ∀ a ∈ l.inUse, a.start + a.size ≤ address ∨ address + size ≤ a.start

namespace Allocator

/-- Whether `size` bytes at an address are among the first `limit` of the arena, inside the address
space, and neither meet nor touch a range in use. -/
def fits (limit : Nat) (l : Ledger) (size address : Nat) : Bool :=
  Arena.base ≤ address && address + size ≤ Arena.base + limit && address + size < addressLimit &&
    l.inUse.all fun a => a.start + a.size < address || address + size < a.start

/-- The addresses that are tried for `size` bytes. Storage of `large` bytes or more goes to the
start of the arena or behind a range in use, where there may be released storage; the last resort,
and the only one for less, is the end of the arena. -/
def candidates (large : Nat) (l : Ledger) (size : Nat) : List Nat :=
  let fresh := if l.extent = 0 then Arena.base else Arena.base + l.extent + 1
  if size < large then [fresh]
  else Arena.base :: (l.inUse.map fun a => a.start + a.size + 1) ++ [fresh]

/-- The first candidate that fits. At most `limit` bytes are used, and small storage is not used
again. -/
def firstFit (limit large : Nat) : Allocator where
  place l size := (candidates large l size).find? (fits limit l size)
  base_le h := by
    have hfits := List.find?_some h
    simp only [fits, Bool.and_eq_true, decide_eq_true_iff] at hfits
    exact hfits.1.1.1
  lt_limit h := by
    have hfits := List.find?_some h
    simp only [fits, Bool.and_eq_true, decide_eq_true_iff] at hfits
    exact hfits.1.2
  apart h a ha := by
    have hfits := List.find?_some h
    simp only [fits, Bool.and_eq_true, Bool.or_eq_true, decide_eq_true_iff, List.all_eq_true] at hfits
    have happart := hfits.2 a ha
    omega

/-- Up to a gigabyte of storage, of which ranges from 128 kilobytes on may be used again. -/
def standard : Allocator := firstFit (Nat.pow 2 30) (Nat.pow 2 17)

end Allocator

end PackedIR
