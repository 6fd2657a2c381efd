/-
Byte storage.

All storage lives in one arena, which reaches as far as storage has ever been handed
out. Where storage is handed out is not decided here. Reading and writing are total;
outside the arena a byte reads as zero and a write is lost, and it is the business of
the checks around the arena to keep accesses inside.
-/
import PackedIR.Bytes

set_option autoImplicit false

namespace PackedIR

/-- The bytes behind the addresses from `Arena.base` on. -/
structure Arena where
  bytes : Array UInt8 := #[]
deriving DecidableEq, Inhabited

namespace Arena

/-- The address of the first byte. -/
def base : Nat := Nat.pow 2 42

/-- The byte at an address. -/
def byteAt (a : Arena) (address : Nat) : UInt8 :=
  if base ≤ address then a.bytes.getD (address - base) 0 else 0

/-- The arena with one byte replaced. -/
def setByte (a : Arena) (address : Nat) (b : UInt8) : Arena :=
  if base ≤ address then ⟨a.bytes.setIfInBounds (address - base) b⟩ else a

/-- The `count` bytes from `address` on. -/
def read (a : Arena) (address : Nat) : (count : Nat) → Bytes
  | 0 => []
  | count + 1 => a.byteAt address :: a.read (address + 1) count

/-- The arena with bytes replaced from `address` on. -/
def write (a : Arena) (address : Nat) : Bytes → Arena
  | [] => a
  | b :: bs => (a.setByte address b).write (address + 1) bs

/-- The first address behind the arena. -/
def next (a : Arena) : Nat := base + a.bytes.size

/-- The arena with zero bytes appended, if need be, up to an address. -/
def reach (a : Arena) (limit : Nat) : Arena := ⟨a.bytes ++ Array.replicate (limit - a.next) 0⟩

/-- The arena with zeroed storage at an address. -/
def claim (a : Arena) (address size : Nat) : Arena :=
  (a.reach (address + size)).write address (List.replicate size 0)

end Arena

end PackedIR
