/-
The map of owned ranges is an interval map.

A map comes about by changes, each of which records a range or forgets one. A change that is
refused has no result, so a map is there only after changes that all went through. Every one of
them keeps the entries apart, whatever it was given: a range to forget is looked up by its start
alone, and an empty range changes nothing. If what is recorded ends inside the address space, so
do the entries.

The ranges are intervals of addresses, and what is proved of the map is said about these sets:
a span is owned exactly when one interval contains it, a new range is refused exactly when its
interval meets a recorded one, and what goes in or out is one interval.
-/
import Mathlib.Order.Interval.Set.Basic
import PackedIR.Proofs.Allocations

set_option autoImplicit false

namespace PackedIR

namespace Allocation

variable {a b : Allocation}

/-- The addresses of a range. -/
def addresses (a : Allocation) : Set Nat := Set.Ico a.start (a.start + a.size)

/-- Of ranges that are not empty, the ends tell whether they have an address in common. -/
theorem not_apart_iff_nonempty (ha : 0 < a.size) (hb : 0 < b.size) :
    ¬a.Apart b ↔ (a.addresses ∩ b.addresses).Nonempty := by
  unfold Apart
  constructor
  · intro hmeets
    -- The start of the range that starts later is in both.
    exact ⟨max a.start b.start, ⟨by omega, by omega⟩, by omega, by omega⟩
  · rintro ⟨x, ⟨hxa, hxa'⟩, hxb, hxb'⟩
    omega

end Allocation

namespace AllocMap

variable {m m' : AllocMap}

/-! ## Changes -/

/-- A change of a map. -/
inductive Change where
  | insert (a : Allocation)
  | remove (start size : Nat)

namespace Change

/-- Makes one change. -/
def run (m : AllocMap) : Change → Except Fault AllocMap
  | .insert a => m.insert a
  | .remove start size => m.remove start size

/-- Makes changes one after the other. -/
def runAll : List Change → AllocMap → Except Fault AllocMap
  | [], m => .ok m
  | change :: changes, m => do
    let m ← change.run m
    runAll changes m

end Change

/-! ## What changes keep -/

/-- The entries are in order, and where an entry ends is still an address. -/
structure Addressable (m : AllocMap) : Prop where
  ordered : m.Ordered
  inside : ∀ a ∈ m.entries, a.start + a.size < addressLimit

namespace Addressable

theorem empty : Addressable {} := ⟨ordered_empty, fun _ h => absurd h List.not_mem_nil⟩

theorem insert (h : m.Addressable) {a : Allocation} (hend : a.start + a.size < addressLimit)
    (hins : m.insert a = .ok m') : m'.Addressable := by
  refine ⟨?_, fun b hb => ?_⟩
  · rcases Nat.eq_zero_or_pos a.size with hempty | hpos
    · -- An empty range is not recorded.
      rw [AllocMap.insert, if_pos hempty] at hins
      cases hins
      exact h.ordered
    · exact (insert_eq_ok h.ordered hpos hins).1
  · rcases mem_of_insert hins hb with rfl | hb
    · exact hend
    · exact h.inside b hb

theorem remove (h : m.Addressable) {start size : Nat} (hrem : m.remove start size = .ok m') :
    m'.Addressable := by
  have hsub := remove_sublist hrem
  exact ⟨h.ordered.of_sublist hsub, fun a ha => h.inside a (hsub.subset ha)⟩

theorem run (h : m.Addressable) {change : Change}
    (hfits : ∀ a, change = .insert a → a.start + a.size < addressLimit)
    (hrun : change.run m = .ok m') : m'.Addressable := by
  cases change with
  | insert a => exact h.insert (hfits a rfl) hrun
  | remove start size => exact h.remove hrun

/-- Any number of changes keep the entries in order and inside the address space. -/
theorem runAll {changes : List Change} (h : m.Addressable)
    (hfits : ∀ a, .insert a ∈ changes → a.start + a.size < addressLimit)
    (hrun : Change.runAll changes m = .ok m') : m'.Addressable := by
  induction changes generalizing m with
  | nil =>
    cases hrun
    exact h
  | cons change changes ih =>
    obtain ⟨m₁, hfirst, hrest⟩ := except_bind_eq_ok_iff.mp hrun
    have h₁ : m₁.Addressable := by
      refine h.run (fun a ha => hfits a ?_) hfirst
      rw [ha]
      exact List.mem_cons_self
    exact ih h₁ (fun a ha => hfits a (List.mem_cons_of_mem change ha)) hrest

/-! ## Intervals -/

variable {a : Allocation} {address size : Nat} {kind : AllocKind}

/-- A span belongs to the one range that contains it. -/
theorem owner?_eq_some_iff (h : m.Addressable) (hpos : 0 < size) :
    m.owner? address size = some kind ↔
      ∃ a ∈ m.entries, a.kind = kind ∧ a.start ≤ address ∧ address + size ≤ a.start + a.size := by
  constructor
  · exact exists_of_owner?_eq_some
  · rintro ⟨a, ha, rfl, hstart, hend⟩
    -- The sum cannot leave the address space before the range does.
    have hinside := h.inside a ha
    exact h.ordered.owner?_eq_some ha hpos hstart hend (by omega)

/-- A span with addresses of two ranges belongs to neither. -/
theorem owner?_of_two (h : m.Addressable) {b : Allocation} (ha : a ∈ m.entries)
    (hb : b ∈ m.entries) (hne : a ≠ b)
    (hmeets : (Set.Ico address (address + size) ∩ a.addresses).Nonempty)
    (hmeets' : (Set.Ico address (address + size) ∩ b.addresses).Nonempty) :
    m.owner? address size = none := by
  rw [Option.eq_none_iff_forall_ne_some]
  intro kind howner
  obtain ⟨c, hc, _, hstart, hend⟩ := exists_of_owner?_eq_some howner
  obtain ⟨x, ⟨hx, hx'⟩, hxa⟩ := hmeets
  obtain ⟨y, ⟨hy, hy'⟩, hyb⟩ := hmeets'
  -- Whatever contains the span shares an address with both.
  have hca : c = a := h.ordered.eq_of_meets hc ha ⟨by omega, by omega⟩ hxa
  have hcb : c = b := h.ordered.eq_of_meets hc hb ⟨by omega, by omega⟩ hyb
  exact hne (hca.symm.trans hcb)

/-- A range is refused for meeting a recorded one, which the fault names. -/
theorem meets_of_insert_eq_error (h : m.Addressable) (hpos : 0 < a.size) {fault : Fault}
    (hins : m.insert a = .error fault) :
    ∃ b ∈ m.entries, (a.addresses ∩ b.addresses).Nonempty ∧
      fault = .overlappingAllocation a.start a.size b.start := by
  obtain ⟨b, hb, hmeets, hfault⟩ := insert_eq_error hins
  have hpos' := h.ordered.positive b hb
  exact ⟨b, hb, (Allocation.not_apart_iff_nonempty hpos hpos').mp hmeets, hfault⟩

theorem insert_refused_iff (h : m.Addressable) (hpos : 0 < a.size) :
    (∃ fault, m.insert a = .error fault) ↔
      ∃ b ∈ m.entries, (a.addresses ∩ b.addresses).Nonempty := by
  constructor
  · rintro ⟨fault, hins⟩
    obtain ⟨b, hb, hmeets, _⟩ := h.meets_of_insert_eq_error hpos hins
    exact ⟨b, hb, hmeets⟩
  · rintro ⟨b, hb, hmeets⟩
    cases hins : m.insert a with
    | error fault => exact ⟨fault, rfl⟩
    | ok m' =>
      -- What is recorded is apart from every entry.
      have hapart := (insert_eq_ok h.ordered hpos hins).2.2 b hb
      have hpos' := h.ordered.positive b hb
      exact absurd hapart ((Allocation.not_apart_iff_nonempty hpos hpos').mpr hmeets)

theorem disjoint (h : m.Addressable) :
    m.entries.Pairwise fun a b => a.addresses ∩ b.addresses = ∅ := by
  refine h.ordered.apart.imp_of_mem fun {a b} ha hb hapart => ?_
  rw [← Set.not_nonempty_iff_eq_empty]
  intro hmeets
  have hpos := h.ordered.positive a ha
  have hpos' := h.ordered.positive b hb
  exact (Allocation.not_apart_iff_nonempty hpos hpos').mpr hmeets hapart

end Addressable

/-- The recorded ranges are disjoint intervals of addresses, and the operations are exact about
them. -/
structure IsIntervalMap (m : AllocMap) : Prop where
  nonempty : ∀ a ∈ m.entries, 0 < a.size
  disjoint : m.entries.Pairwise fun a b => a.addresses ∩ b.addresses = ∅
  /-- Where a recorded range ends is still an address, so no sum over one wraps. -/
  inside : ∀ a ∈ m.entries, a.start + a.size < addressLimit
  /-- What owns a span is the range that contains it. -/
  owned : ∀ address size kind, 0 < size → (m.owner? address size = some kind ↔
    ∃ a ∈ m.entries, a.kind = kind ∧ a.start ≤ address ∧ address + size ≤ a.start + a.size)
  /-- Nothing owns a span that leaves the address space. -/
  beyond : ∀ address size, addressLimit ≤ address + size → m.owner? address size = none
  /-- Nothing owns a span over two ranges, adjacent or not. -/
  straddling : ∀ address size, ∀ a ∈ m.entries, ∀ b ∈ m.entries, a ≠ b →
    (Set.Ico address (address + size) ∩ a.addresses).Nonempty →
    (Set.Ico address (address + size) ∩ b.addresses).Nonempty → m.owner? address size = none
  /-- A range is refused exactly when it meets a recorded one. -/
  refused : ∀ a : Allocation, 0 < a.size → ((∃ fault, m.insert a = .error fault) ↔
    ∃ b ∈ m.entries, (a.addresses ∩ b.addresses).Nonempty)
  /-- The fault names the range and a recorded one that it meets. -/
  named : ∀ (a : Allocation) (fault : Fault), 0 < a.size → m.insert a = .error fault →
    ∃ b ∈ m.entries, (a.addresses ∩ b.addresses).Nonempty ∧
      fault = .overlappingAllocation a.start a.size b.start
  /-- A range that is not refused is all that is added. -/
  added : ∀ (a : Allocation) (m' : AllocMap), 0 < a.size → m.insert a = .ok m' →
    m'.entries.Perm (a :: m.entries)
  /-- A recorded range can be removed, and is all that goes. -/
  removed : ∀ a ∈ m.entries, ∃ m', m.remove a.start a.size = .ok m' ∧
    m.entries.Perm (a :: m'.entries)

end AllocMap

/-- However ranges that end inside the address space are recorded and removed, as long as no change
is refused: the map that comes about is an interval map. -/
theorem allocations_form_interval_map {changes : List AllocMap.Change} {m : AllocMap}
    (hfits : ∀ a, .insert a ∈ changes → a.start + a.size < addressLimit)
    (hrun : AllocMap.Change.runAll changes {} = .ok m) : m.IsIntervalMap := by
  have h := AllocMap.Addressable.empty.runAll hfits hrun
  refine ⟨h.ordered.positive, h.disjoint, h.inside,
    fun address size kind hpos => h.owner?_eq_some_iff hpos, fun address size hbeyond => ?_,
    fun address size a ha b hb hne hmeets hmeets' => h.owner?_of_two ha hb hne hmeets hmeets',
    fun a hpos => h.insert_refused_iff hpos,
    fun a fault hpos hins => h.meets_of_insert_eq_error hpos hins, fun a m' hpos hins => ?_,
    fun a ha => ?_⟩
  · exact if_neg (Nat.not_lt.mpr hbeyond)
  · obtain ⟨_, hperm, _⟩ := AllocMap.insert_eq_ok h.ordered hpos hins
    exact hperm
  · obtain ⟨m', hremoved, _, hperm⟩ := AllocMap.remove_of_mem h.ordered ha
    exact ⟨m', hremoved, hperm⟩

/-! ## Neighbours -/

namespace Neighbours

/-- Two adjacent ranges, an empty one inside the second, one whose end is the last address, and one
that comes and goes. -/
def changes : List AllocMap.Change :=
  [.insert ⟨16, 16, .string⟩,
    .insert ⟨32, 16, .frame⟩,
    .insert ⟨40, 0, .constant⟩,
    .insert ⟨addressLimit - 9, 8, .global⟩,
    .insert ⟨8, 8, .constant⟩,
    .remove 8 8]

def map : AllocMap :=
  { entries := [⟨addressLimit - 9, 8, .global⟩, ⟨32, 16, .frame⟩, ⟨16, 16, .string⟩] }

theorem runAll_changes : AllocMap.Change.runAll changes {} = .ok map := rfl

theorem changes_fit (a : Allocation) (ha : .insert a ∈ changes) :
    a.start + a.size < addressLimit := by
  unfold changes at ha
  simp only [List.mem_cons, AllocMap.Change.insert.injEq, reduceCtorEq, List.not_mem_nil, or_self,
    or_false] at ha
  rcases ha with rfl | rfl | rfl | rfl | rfl <;> decide

end Neighbours

open Neighbours in
/-- The adjacent ranges own their own bytes and nothing across the border. The range at the end of
the address space owns its last byte, and a span that leaves the address space is not owned. A range
around both neighbours is refused, one that touches the first is recorded, and the first can go. -/
theorem allocations_form_interval_map_neighbours :
    map.owner? 40 8 = some .frame ∧ map.owner? 24 16 = none ∧
    map.owner? (addressLimit - 2) 1 = some .global ∧ map.owner? (addressLimit - 2) 2 = none ∧
    (∃ fault, map.insert ⟨8, 64, .constant⟩ = .error fault) ∧
    (∃ m', map.insert ⟨8, 8, .frame⟩ = .ok m' ∧
      m'.entries.Perm (⟨8, 8, .frame⟩ :: map.entries)) ∧
    ∃ m', map.remove 16 16 = .ok m' ∧ map.entries.Perm (⟨16, 16, .string⟩ :: m'.entries) := by
  have h := allocations_form_interval_map changes_fit runAll_changes
  refine ⟨?_, ?_, ?_, ?_, ?_, ?_, ?_⟩
  · exact (h.owned 40 8 .frame (by decide)).mpr ⟨⟨32, 16, .frame⟩, by decide⟩
  · refine h.straddling 24 16 ⟨16, 16, .string⟩ (by decide) ⟨32, 16, .frame⟩ (by decide)
      (by decide) ⟨24, ?_⟩ ⟨32, ?_⟩
    · exact ⟨⟨by decide, by decide⟩, by decide, by decide⟩
    · exact ⟨⟨by decide, by decide⟩, by decide, by decide⟩
  · exact (h.owned _ 1 .global (by decide)).mpr ⟨⟨addressLimit - 9, 8, .global⟩, by decide⟩
  · exact h.beyond _ 2 (by decide)
  · refine (h.refused ⟨8, 64, .constant⟩ (by decide)).mpr ⟨⟨32, 16, .frame⟩, by decide, 32, ?_⟩
    exact ⟨⟨by decide, by decide⟩, by decide, by decide⟩
  · exact ⟨_, rfl, h.added ⟨8, 8, .frame⟩ _ (by decide) rfl⟩
  · exact h.removed ⟨16, 16, .string⟩ (by decide)

end PackedIR
