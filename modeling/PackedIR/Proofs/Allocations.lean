/-
The map of owned ranges.

The entries of a map are kept by descending start, and no two of them meet. `Ordered`
says both at once: each entry ends before the one in front of it starts. It is what makes
looking at a single entry enough. `insert` judges a new range by the last entry that
starts before its end, and with `Ordered` this decides about all entries; `remove` finds
the entry of a start, and with `Ordered` there is only one; `owner?` judges an access by
the last entry that starts at or before it, and with `Ordered` no other can cover it. Up to
order a map is therefore the collection of what was inserted and not yet removed, and the
order is determined by the collection.
-/
import PackedIR.Proofs.Computation

set_option autoImplicit false

namespace PackedIR

namespace Allocation

theorem Apart.symm {a b : Allocation} (h : a.Apart b) : b.Apart a := Or.symm h

end Allocation

namespace AllocMap

variable {m m' : AllocMap} {a b : Allocation}

/-- The entries descend without meeting, and none of them is empty. -/
structure Ordered (m : AllocMap) : Prop where
  descending : m.entries.Pairwise fun a b => b.start + b.size ≤ a.start
  positive : ∀ a ∈ m.entries, 0 < a.size

theorem ordered_empty : Ordered {} := ⟨.nil, fun _ h => absurd h List.not_mem_nil⟩

theorem Ordered.of_sublist (h : m.Ordered) (hsub : m'.entries.Sublist m.entries) : m'.Ordered :=
  ⟨h.descending.sublist hsub, fun a ha => h.positive a (hsub.subset ha)⟩

/-- Recorded ranges have no address in common. -/
theorem Ordered.apart (h : m.Ordered) : m.entries.Pairwise Allocation.Apart :=
  h.descending.imp fun hbelow => .inl hbelow

/-- Two entries of a map with an address in common are one. -/
theorem Ordered.eq_of_meets (h : m.Ordered) (ha : a ∈ m.entries) (hb : b ∈ m.entries) {k : Nat}
    (hak : a.start ≤ k ∧ k < a.start + a.size) (hbk : b.start ≤ k ∧ k < b.start + b.size) :
    a = b := by
  obtain ⟨i, hi, rfl⟩ := List.mem_iff_getElem.mp ha
  obtain ⟨j, hj, rfl⟩ := List.mem_iff_getElem.mp hb
  have hdesc := List.pairwise_iff_getElem.mp h.descending
  rcases Nat.lt_trichotomy i j with hlt | rfl | hlt
  · have hbelow := hdesc i j hi hj hlt
    omega
  · rfl
  · have hbelow := hdesc j i hj hi hlt
    omega

/-- Entries are told apart by where they start. -/
theorem Ordered.eq_of_start_eq (h : m.Ordered) (ha : a ∈ m.entries) (hb : b ∈ m.entries)
    (hstart : a.start = b.start) : a = b := by
  have hpa := h.positive a ha
  have hpb := h.positive b hb
  exact h.eq_of_meets ha hb ⟨Nat.le_refl _, by omega⟩ ⟨by omega, by omega⟩

/-! ## Insertion -/

/-- The one entry that `overlapping?` looks at decides about all of them. -/
theorem apart_of_overlapping?_eq_none (h : m.Ordered)
    (hnone : m.overlapping? a.start a.size = none) : ∀ b ∈ m.entries, a.Apart b := by
  -- The induction takes entries off the front of the list; of the map only the order is
  -- needed.
  obtain ⟨entries⟩ := m
  have hdesc := h.descending
  unfold overlapping? at hnone
  dsimp only at hdesc hnone ⊢
  clear h
  induction entries with
  | nil => exact fun b hb => absurd hb List.not_mem_nil
  | cons c cs ih =>
    rw [List.pairwise_cons] at hdesc
    intro b hb
    by_cases hbefore : c.start < a.start + a.size
    · -- The first entry that starts early enough; all others end before it starts.
      rw [List.find?_cons_of_pos (by simpa using hbefore)] at hnone
      have hend : c.start + c.size ≤ a.start := by
        apply Nat.le_of_not_lt
        intro hmeets
        simp [hmeets] at hnone
      rcases List.mem_cons.mp hb with rfl | hb
      · exact .inl hend
      · have hbelow := hdesc.1 b hb
        exact .inl (by omega)
    · rw [List.find?_cons_of_neg (by simpa using hbefore)] at hnone
      rcases List.mem_cons.mp hb with rfl | hb
      · exact .inr (by omega)
      · exact ih hnone hdesc.2 b hb

/-- A range that is apart from all entries finds its place among them. -/
theorem place_spec {entries : List Allocation} (ha : 0 < a.size)
    (hdesc : entries.Pairwise fun a b => b.start + b.size ≤ a.start)
    (hpos : ∀ b ∈ entries, 0 < b.size) (hapart : ∀ b ∈ entries, a.Apart b) :
    (place a entries).Perm (a :: entries) ∧
      (place a entries).Pairwise fun a b => b.start + b.size ≤ a.start := by
  induction entries with
  | nil => exact ⟨.refl _, List.pairwise_singleton _ _⟩
  | cons b bs ih =>
    rw [List.pairwise_cons] at hdesc
    have hb : 0 < b.size := hpos b List.mem_cons_self
    have hab := hapart b List.mem_cons_self
    unfold Allocation.Apart at hab
    unfold place
    by_cases hlt : b.start < a.start
    · -- `a` goes in front of `b`, and what lies below `b` lies below `a`.
      rw [if_pos hlt]
      refine ⟨.refl _, List.pairwise_cons.mpr ⟨fun c hc => ?_, List.pairwise_cons.mpr hdesc⟩⟩
      rcases List.mem_cons.mp hc with rfl | hc
      · omega
      · have hbelow := hdesc.1 c hc
        omega
    · -- `a` starts below `b`: nonempty ranges that are apart do not start together.
      have hne : b.start ≠ a.start := by omega
      rw [if_neg hlt, if_neg hne]
      obtain ⟨hperm, hplaced⟩ := ih hdesc.2 (fun x hx => hpos x (List.mem_cons_of_mem b hx))
        (fun x hx => hapart x (List.mem_cons_of_mem b hx))
      refine ⟨(hperm.cons b).trans (.swap a b bs), List.pairwise_cons.mpr ⟨fun c hc => ?_, hplaced⟩⟩
      rcases List.mem_cons.mp (hperm.subset hc) with rfl | hc
      · omega
      · exact hdesc.1 c hc

/-- What `insert` records is apart from everything recorded before. -/
theorem insert_eq_ok (h : m.Ordered) (ha : 0 < a.size) (hins : m.insert a = .ok m') :
    m'.Ordered ∧ m'.entries.Perm (a :: m.entries) ∧ ∀ b ∈ m.entries, a.Apart b := by
  unfold insert at hins
  rw [if_neg (by omega)] at hins
  cases hover : m.overlapping? a.start a.size with
  | some other => simp [hover] at hins
  | none =>
    simp only [hover, Except.ok.injEq] at hins
    have hapart := apart_of_overlapping?_eq_none h hover
    obtain ⟨hperm, hplaced⟩ := place_spec ha h.descending h.positive hapart
    subst hins
    refine ⟨⟨hplaced, fun b hb => ?_⟩, hperm, hapart⟩
    rcases List.mem_cons.mp (hperm.subset hb) with rfl | hb
    · exact ha
    · exact h.positive b hb

/-- A range that is refused meets the entry that the fault names, ordered or not. -/
theorem insert_eq_error {fault : Fault} (hins : m.insert a = .error fault) :
    ∃ b ∈ m.entries, ¬a.Apart b ∧ fault = .overlappingAllocation a.start a.size b.start := by
  unfold insert at hins
  split at hins
  · cases hins
  · cases hover : m.overlapping? a.start a.size with
    | none => simp [hover] at hins
    | some b =>
      simp only [hover, Except.error.injEq] at hins
      unfold overlapping? at hover
      split at hover
      · rename_i c hfound
        split at hover
        · rename_i hmeets
          cases hover
          have hbefore : b.start < a.start + a.size := by simpa using List.find?_some hfound
          refine ⟨b, List.mem_of_find?_eq_some hfound, ?_, hins.symm⟩
          unfold Allocation.Apart
          omega
        · cases hover
      · cases hover

/-- Only the new range is added, ordered or not. -/
theorem mem_of_insert (hins : m.insert a = .ok m') (hb : b ∈ m'.entries) : b = a ∨ b ∈ m.entries := by
  have hplace : ∀ entries : List Allocation, b ∈ place a entries → b = a ∨ b ∈ entries := by
    intro entries
    induction entries with
    | nil => exact fun h => .inl (List.mem_singleton.mp h)
    | cons c cs ih =>
      intro h
      unfold place at h
      split at h
      · exact List.mem_cons.mp h
      · split at h
        · exact (List.mem_cons.mp h).imp_right (List.mem_cons_of_mem c)
        · rcases List.mem_cons.mp h with rfl | h
          · exact .inr List.mem_cons_self
          · exact (ih h).imp_right (List.mem_cons_of_mem c)
  unfold insert at hins
  split at hins
  · cases hins
    exact .inr hb
  · split at hins
    · cases hins
    · cases hins
      exact hplace m.entries hb

/-- A range that is apart from all entries is not refused, ordered or not. -/
theorem exists_insert (hapart : ∀ b ∈ m.entries, a.Apart b) : ∃ m', m.insert a = .ok m' := by
  cases hins : m.insert a with
  | ok m' => exact ⟨m', rfl⟩
  | error fault =>
    obtain ⟨b, hb, hmeets, _⟩ := insert_eq_error hins
    exact absurd (hapart b hb) hmeets

/-- The new range is there, and of the others those that do not start where it starts, ordered or
not. -/
theorem mem_insert (hins : m.insert a = .ok m') (ha : 0 < a.size) :
    a ∈ m'.entries ∧ ∀ b ∈ m.entries, b.start ≠ a.start → b ∈ m'.entries := by
  have hplace : ∀ entries : List Allocation,
      a ∈ place a entries ∧ ∀ b ∈ entries, b.start ≠ a.start → b ∈ place a entries := by
    intro entries
    induction entries with
    | nil => exact ⟨List.mem_singleton_self a, fun b hb => absurd hb List.not_mem_nil⟩
    | cons c cs ih =>
      unfold place
      split
      · exact ⟨List.mem_cons_self, fun b hb _ => List.mem_cons_of_mem a hb⟩
      · split
        · rename_i hstart
          refine ⟨List.mem_cons_self, fun b hb hne => ?_⟩
          rcases List.mem_cons.mp hb with rfl | hb
          · exact absurd hstart hne
          · exact List.mem_cons_of_mem a hb
        · refine ⟨List.mem_cons_of_mem c ih.1, fun b hb hne => ?_⟩
          rcases List.mem_cons.mp hb with rfl | hb
          · exact List.mem_cons_self
          · exact List.mem_cons_of_mem c (ih.2 b hb hne)
  unfold insert at hins
  rw [if_neg (by omega)] at hins
  split at hins
  · cases hins
  · cases hins
    exact hplace m.entries

/-! ## Removal -/

/-- Whatever is removed, the rest stays in order. -/
theorem remove_sublist {start size : Nat} (h : m.remove start size = .ok m') :
    m'.entries.Sublist m.entries := by
  unfold remove at h
  split at h
  · cases h
    exact .refl _
  · split at h
    · cases h
      exact List.eraseP_sublist
    · cases h

/-- Removing a recorded range succeeds and takes out that range alone. -/
theorem remove_of_mem (h : m.Ordered) (ha : a ∈ m.entries) :
    ∃ m', m.remove a.start a.size = .ok m' ∧ m'.Ordered ∧ m.entries.Perm (a :: m'.entries) := by
  have hpos := h.positive a ha
  have hany : (m.entries.any fun b => b.start == a.start) = true :=
    List.any_eq_true.mpr ⟨a, ha, beq_self_eq_true _⟩
  refine ⟨⟨m.entries.eraseP fun b => b.start == a.start⟩, ?_, ?_, ?_⟩
  · rw [remove, if_neg (by omega), if_pos hany]
  · exact h.of_sublist List.eraseP_sublist
  · -- The entry that is erased is the first one with this start, hence the only one.
    obtain ⟨b, before, after, _, hb, hentries, herased⟩ :=
      List.exists_of_eraseP (p := fun b => b.start == a.start) ha (beq_self_eq_true _)
    have hmem : b ∈ m.entries := by
      rw [hentries]
      exact List.mem_append_right before List.mem_cons_self
    have hba : b = a := h.eq_of_start_eq hmem ha (beq_iff_eq.mp hb)
    subst hba
    rw [herased, hentries]
    exact List.perm_middle

/-- Removing ranges that are all recorded succeeds and leaves the others. -/
theorem removeAll_of_perm {ranges : List (Nat × Nat)} {others : List Allocation} {kind : AllocKind}
    (h : m.Ordered)
    (hperm : m.entries.Perm ((ranges.map fun r => ⟨r.1, r.2, kind⟩) ++ others)) :
    ∃ m', m.removeAll ranges = .ok m' ∧ m'.Ordered ∧ m'.entries.Perm others := by
  induction ranges generalizing m with
  | nil => exact ⟨m, rfl, h, hperm⟩
  | cons r ranges ih =>
    obtain ⟨start, size⟩ := r
    rw [List.map_cons, List.cons_append] at hperm
    obtain ⟨m₁, hremove, h₁, hperm₁⟩ :=
      remove_of_mem h (a := ⟨start, size, kind⟩) (hperm.symm.subset List.mem_cons_self)
    -- One range is gone; the rest of the ranges and the others are what is left.
    obtain ⟨m₂, hrest, h₂, hperm₂⟩ := ih h₁ (hperm₁.symm.trans hperm).cons_inv
    refine ⟨m₂, ?_, h₂, hperm₂⟩
    rw [removeAll, hremove]
    exact hrest

theorem removeAll_sublist {ranges : List (Nat × Nat)} (h : m.removeAll ranges = .ok m') :
    m'.entries.Sublist m.entries := by
  induction ranges generalizing m with
  | nil =>
    cases h
    exact .refl _
  | cons r ranges ih =>
    obtain ⟨start, size⟩ := r
    unfold removeAll at h
    cases hremove : m.remove start size with
    | error e =>
      rw [hremove] at h
      cases h
    | ok m₁ =>
      rw [hremove] at h
      exact (ih h).trans (remove_sublist hremove)

/-- Two maps of the same ranges are equal. -/
theorem Ordered.eq_of_perm (h : m.Ordered) (h' : m'.Ordered)
    (hperm : m.entries.Perm m'.entries) : m = m' := by
  obtain ⟨entries⟩ := m
  obtain ⟨entries'⟩ := m'
  congr 1
  refine List.Perm.eq_of_pairwise (fun a b ha hb hab hba => ?_) h.descending h'.descending hperm
  -- Two nonempty ranges cannot each lie below the other.
  have hpos := h.positive a ha
  omega

/-! ## Ownership -/

variable {address size : Nat} {kind : AllocKind}

/-- The last entry that starts at or before an address of an entry is that entry. -/
theorem Ordered.find?_start_le (h : m.Ordered) (ha : a ∈ m.entries) (hstart : a.start ≤ address)
    (hend : address < a.start + a.size) :
    m.entries.find? (fun b => b.start ≤ address) = some a := by
  have hdesc := h.descending
  generalize m.entries = entries at ha hdesc
  induction entries with
  | nil => exact absurd ha List.not_mem_nil
  | cons c cs ih =>
    rw [List.pairwise_cons] at hdesc
    rcases List.mem_cons.mp ha with rfl | hmem
    · exact List.find?_cons_of_pos (by simpa using hstart)
    · -- Entries in front start only after the address.
      have habove := hdesc.1 a hmem
      have hafter : ¬c.start ≤ address := by omega
      rw [List.find?_cons_of_neg (by simpa using hafter)]
      exact ih hmem hdesc.2

/-- A range inside an entry belongs to it: the one entry that `owner?` looks at is the right one. -/
theorem Ordered.owner?_eq_some (h : m.Ordered) (ha : a ∈ m.entries) (hpos : 0 < size)
    (hstart : a.start ≤ address) (hend : address + size ≤ a.start + a.size)
    (hlimit : address + size < addressLimit) : m.owner? address size = some a.kind := by
  have hfound := h.find?_start_le ha hstart (by omega)
  unfold owner?
  rw [if_pos hlimit, hfound]
  exact if_pos hend

theorem Ordered.owner?_isSome (h : m.Ordered) (ha : a ∈ m.entries) (hpos : 0 < size)
    (hstart : a.start ≤ address) (hend : address + size ≤ a.start + a.size)
    (hlimit : address + size < addressLimit) : (m.owner? address size).isSome = true := by
  rw [h.owner?_eq_some ha hpos hstart hend hlimit]
  rfl

/-- What is owned lies inside an entry, ordered or not. -/
theorem exists_of_owner?_eq_some (h : m.owner? address size = some kind) :
    ∃ a ∈ m.entries, a.kind = kind ∧ a.start ≤ address ∧ address + size ≤ a.start + a.size := by
  unfold owner? at h
  split at h
  · split at h
    · rename_i a hfound
      split at h
      · rename_i hend
        cases h
        have hstart : a.start ≤ address := by simpa using List.find?_some hfound
        exact ⟨a, List.mem_of_find?_eq_some hfound, rfl, hstart, hend⟩
      · cases h
    · cases h
  · cases h

end AllocMap

/-! ## New ranges -/

namespace Allocator

variable {al : Allocator} {m : Memory} {size address : Nat}

/-- What the allocator chooses can be recorded as static storage, -/
theorem exists_insert_statics (h : al.place m.ledger size = some address) (kind : AllocKind) :
    ∃ statics, m.statics.insert ⟨address, size, kind⟩ = .ok statics :=
  AllocMap.exists_insert fun a ha => al.apart h a (List.mem_append_right _ ha)

/-- and as that of a frame. -/
theorem exists_insert_stack (h : al.place m.ledger size = some address) (kind : AllocKind) :
    ∃ stack, m.stack.insert ⟨address, size, kind⟩ = .ok stack :=
  AllocMap.exists_insert fun a ha => al.apart h a (List.mem_append_left _ ha)

end Allocator

end PackedIR
