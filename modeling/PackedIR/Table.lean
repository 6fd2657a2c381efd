/-
Small finite maps.

A table is a list of keys and values in which the first entry of a key counts. The
interpreter's caches are tables: they grow by one entry for each thing used, so they
stay short.
-/

set_option autoImplicit false

namespace PackedIR

/-- A finite map from `κ` to `α`. -/
structure Table (κ α : Type) where
  entries : List (κ × α) := []
deriving Inhabited

namespace Table

variable {κ α : Type} [DecidableEq κ]

/-- The value of a key. -/
def get? (t : Table κ α) (key : κ) : Option α := t.entries.lookup key

/-- The table with one key set. -/
def insert (t : Table κ α) (key : κ) (a : α) : Table κ α := ⟨(key, a) :: t.entries⟩

theorem get?_insert (t : Table κ α) (k k' : κ) (a : α) :
    (t.insert k a).get? k' = if k' = k then some a else t.get? k' := by
  by_cases h : k' = k
  · simp [get?, insert, h]
  · have hne : (k' == k) = false := by simpa using h
    simp [get?, insert, h, List.lookup_cons, hne]

@[simp] theorem get?_insert_self (t : Table κ α) (k : κ) (a : α) :
    (t.insert k a).get? k = some a := by
  simp [get?_insert]

end Table

end PackedIR
