/-
Identifiers.

Everything a module declares is named by its position in the list of its kind. The
kinds are kept apart by type, so a constant's id cannot be used for a function, and
each kind has its own short text.
-/

set_option autoImplicit false

namespace PackedIR

/-- Identifies a function in its module. -/
structure FuncId where
  index : Nat
deriving DecidableEq, Repr, Inhabited

/-- Identifies a constant in its module. -/
structure ConstId where
  index : Nat
deriving DecidableEq, Repr, Inhabited

/-- Identifies a global variable in its module. -/
structure GlobalId where
  index : Nat
deriving DecidableEq, Repr, Inhabited

/-- Identifies an entry of the module's string pool. -/
structure StringId where
  index : Nat
deriving DecidableEq, Repr, Inhabited

/-- Index of a block inside its function. -/
structure BlockId where
  index : Nat
deriving DecidableEq, Repr, Inhabited

/-- Index of an argument or instruction result inside its function; arguments come first. -/
structure Local where
  index : Nat
deriving DecidableEq, Repr, Inhabited

instance : ToString FuncId := ⟨fun i => "fn" ++ toString i.index⟩
instance : ToString ConstId := ⟨fun i => "c" ++ toString i.index⟩
instance : ToString GlobalId := ⟨fun i => "g" ++ toString i.index⟩
instance : ToString StringId := ⟨fun i => "str" ++ toString i.index⟩
instance : ToString BlockId := ⟨fun i => "bb" ++ toString i.index⟩
instance : ToString Local := ⟨fun i => "%" ++ toString i.index⟩

end PackedIR
