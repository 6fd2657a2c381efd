/-
Life and death of storage.

Whatever happens in a session, memory changes in six ways only, and `Evolves` lists them. Storage
comes to life by being handed out and recorded, as a static range or as one of a frame, and it dies
when its frame is taken off. What is handed out is apart from what is live, so the live ranges of
both maps never meet. A byte that has died is live again only after the allocator has handed it out
anew.

With sanitizing on, a non-empty access is allowed exactly when it lies inside one live range.
-/
import PackedIR.Proofs.Storage

set_option autoImplicit false

namespace PackedIR

variable {p : Program} {s t : State} {m m' : Memory} {address size : Nat}

namespace Memory

/-! ## Changes of memory -/

/-- Zeroed storage is handed out and recorded, as static storage that is filled at once, or as that
of a frame. -/
inductive Takes (p : Program) (address size : Nat) : Memory → Memory → Prop where
  | static {m : Memory} {statics : AllocMap} (kind : AllocKind) (bytes : Bytes)
      (length : bytes.length = size) (positive : 0 < size)
      (room : p.allocator.place m.ledger size = some address)
      (recorded : m.statics.insert ⟨address, size, kind⟩ = .ok statics) :
      Takes p address size m { (m.claim address size).put address bytes with statics }
  | frame {m : Memory} {stack : AllocMap} (positive : 0 < size)
      (room : p.allocator.place m.ledger size = some address)
      (recorded : m.stack.insert ⟨address, size, .frame⟩ = .ok stack) :
      Takes p address size m { m.claim address size with stack }

/-- What can happen to memory. -/
inductive Evolves (p : Program) : Memory → Memory → Prop where
  | refl (m : Memory) : Evolves p m m
  | trans {m m' m'' : Memory} : Evolves p m m' → Evolves p m' m'' → Evolves p m m''
  | takes {m m' : Memory} {address size : Nat} : Takes p address size m m' → Evolves p m m'
  | store {m : Memory} (address : Nat) (bytes : Bytes)
      (allowed : m.accessible p.config.sanitizeMemory address bytes.length = true) :
      Evolves p m (m.put address bytes)
  | native {m : Memory} (address : Nat) {code : NativeCode} (args : List Scalar)
      (found : p.host address = some code) :
      Evolves p m { m with arena := (code args m.arena).2 }
  | release {m : Memory} (ranges : List (Nat × Nat)) {stack : AllocMap}
      (released : m.stack.removeAll ranges = .ok stack) : Evolves p m { m with stack }

end Memory

theorem Makes.evolves (h : Makes p s t) : Memory.Evolves p s.memory t.memory := by
  induction h with
  | refl | intern | prepare => exact .refl _
  | trans _ _ ih₁ ih₂ => exact ih₁.trans ih₂
  | make _ _ _ _ _ _ ih => exact ih
  | place kind bytes nonempty room recorded =>
    exact .takes (.static kind bytes rfl (List.length_pos_iff.mpr nonempty) room recorded)

theorem Effects.evolves (h : Effects p s t) : Memory.Evolves p s.memory t.memory := by
  induction h with
  | makes h => exact h.evolves
  | trans _ _ ih₁ ih₂ => exact ih₁.trans ih₂
  | store address bytes allowed => exact .store address bytes allowed
  | native address args found => exact .native address args found

theorem Prepares.evolves (h : Prepares p s t) : Memory.Evolves p s.memory t.memory := by
  induction h with
  | effects h => exact h.evolves
  | trans _ _ ih₁ ih₂ => exact ih₁.trans ih₂
  | register | route | ready => exact .refl _

theorem Moves.evolves (h : Moves p s t) : Memory.Evolves p s.memory t.memory := by
  induction h with
  | prepares h => exact h.evolves
  | trans _ _ ih₁ ih₂ => exact ih₁.trans ih₂
  | allocates h =>
    cases h with
    | intro _ hpos hroom hrecorded => exact .takes (.frame hpos hroom hrecorded)
  | leaves h =>
    cases h with
    | intro _ hreleased => exact .release _ hreleased
  | enters id h =>
    cases h
    exact .refl _
  | bind | goto => exact .refl _

namespace Memory

/-! ## Ranges never meet -/

/-- The maps are in order, what they record lies in the arena, and no two ranges meet. -/
structure Tidy (m : Memory) : Prop where
  housed : m.Housed
  stack : m.stack.Ordered
  apart : ∀ a ∈ m.stack.entries, ∀ b ∈ m.statics.entries, a.Apart b

theorem tidy_empty : Tidy {} :=
  ⟨housed_empty, AllocMap.ordered_empty, fun _ ha => absurd ha List.not_mem_nil⟩

theorem Tidy.of_size (h : m.Tidy) {arena : Arena} (hsize : arena.bytes.size = m.arena.bytes.size) :
    Tidy { m with arena } :=
  ⟨h.housed.of_size hsize, h.stack, h.apart⟩

theorem Tidy.of_sublist (h : m.Tidy) {stack : AllocMap}
    (hsub : stack.entries.Sublist m.stack.entries) : Tidy { m with stack } := by
  have hrecords {a : Allocation} (ha : Records { m with stack } a) : m.Records a :=
    ha.imp_left fun ha => hsub.subset ha
  refine ⟨⟨h.housed.statics, fun a ha => ?_, fun a ha => ?_⟩, ?_, fun a ha b hb => ?_⟩
  · exact h.housed.inside a (hrecords ha)
  · exact h.housed.limit a (hrecords ha)
  · exact h.stack.of_sublist hsub
  · exact h.apart a (hsub.subset ha) b hb

namespace Takes

variable {k : Nat}

/-- The address is one that the allocator has chosen. -/
theorem room (h : Takes p address size m m') : p.allocator.place m.ledger size = some address := by
  cases h with
  | static _ _ _ _ room _ | frame _ room _ => exact room

/-- A range that is live afterwards is the new one, or it was live before. -/
theorem records (h : Takes p address size m m') {a : Allocation} (ha : m'.Records a) :
    (∃ kind, a = ⟨address, size, kind⟩) ∨ m.Records a := by
  cases h with
  | static kind _ _ _ _ recorded =>
    rcases ha with ha | ha
    · exact .inr (.inl ha)
    · exact (AllocMap.mem_of_insert recorded ha).imp (⟨kind, ·⟩) .inr
  | frame _ _ recorded =>
    rcases ha with ha | ha
    · exact (AllocMap.mem_of_insert recorded ha).imp (⟨.frame, ·⟩) .inl
    · exact .inr (.inr ha)

/-- Static storage stays. -/
theorem statics_subset (h : Takes p address size m m') (hm : m.Tidy) :
    ∀ a ∈ m.statics.entries, a ∈ m'.statics.entries := by
  cases h with
  | static kind bytes length positive room recorded =>
    have hperm := (AllocMap.insert_eq_ok hm.housed.statics positive recorded).2.1
    exact fun a ha => hperm.symm.subset (List.mem_cons_of_mem _ ha)
  | frame => exact fun _ ha => ha

/-- Only the new storage is written to. -/
theorem byteAt_eq (h : Takes p address size m m') (hk : k < address ∨ address + size ≤ k) :
    m'.arena.byteAt k = m.arena.byteAt k := by
  cases h with
  | static _ bytes length _ _ _ =>
    rw [← length] at hk ⊢
    simp only [put_arena, claim_arena]
    rw [Arena.byteAt_write_of_outside hk, Arena.byteAt_claim_of_outside hk]
  | frame => exact Arena.byteAt_claim_of_outside hk

theorem tidy (h : Takes p address size m m') (hm : m.Tidy) : m'.Tidy := by
  -- The new range is apart from all others, whichever map they are in.
  have hapart (a : Allocation) (ha : m.Records a) (kind : AllocKind) :
      a.Apart ⟨address, size, kind⟩ := (p.allocator.apart h.room a ha.inUse).symm
  have hrecords := fun a => h.records (a := a)
  cases h with
  | @static statics kind bytes length positive room recorded =>
    have hordered := (AllocMap.insert_eq_ok hm.housed.statics positive recorded).1
    have hclaimed : Housed { m.claim address size with statics } := by
      refine hm.housed.claim room kind hordered ?_
      rintro a (ha | ha)
      · exact .inr (.inl ha)
      · exact (AllocMap.mem_of_insert recorded ha).imp_right .inr
    refine Tidy.of_size ⟨hclaimed, hm.stack, fun a ha b hb => ?_⟩ (Arena.size_write _ _ _)
    rcases AllocMap.mem_of_insert recorded hb with rfl | hb
    · exact hapart a (.inl ha) kind
    · exact hm.apart a ha b hb
  | @frame stack positive room recorded =>
    have hordered := (AllocMap.insert_eq_ok hm.stack positive recorded).1
    refine ⟨?_, hordered, fun a ha b hb => ?_⟩
    · refine hm.housed.claim room .frame hm.housed.statics ?_
      rintro a (ha | ha)
      · exact (AllocMap.mem_of_insert recorded ha).imp_right .inl
      · exact .inr (.inr ha)
    · rcases AllocMap.mem_of_insert recorded ha with rfl | ha
      · exact (hapart b (.inr hb) .frame).symm
      · exact hm.apart a ha b hb

end Takes

theorem Evolves.tidy (hhost : p.host.KeepsExtent) (h : Evolves p m m') (hm : m.Tidy) : m'.Tidy := by
  induction h with
  | refl => exact hm
  | trans _ _ ih₁ ih₂ => exact ih₂ (ih₁ hm)
  | takes h => exact h.tidy hm
  | store address bytes _ => exact hm.of_size (Arena.size_write _ _ _)
  | native address args found => exact hm.of_size (hhost address _ args _ found)
  | release ranges released => exact hm.of_sublist (AllocMap.removeAll_sublist released)

/-- Two live ranges with an address in common are one. -/
theorem Tidy.eq_of_meets (h : m.Tidy) {a b : Allocation} (ha : m.Records a) (hb : m.Records b)
    {k : Nat} (hak : a.start ≤ k ∧ k < a.start + a.size) (hbk : b.start ≤ k ∧ k < b.start + b.size) :
    a = b := by
  -- Ranges of different maps are apart, so both are in one map.
  rcases ha with ha | ha
  · rcases hb with hb | hb
    · exact h.stack.eq_of_meets ha hb hak hbk
    · have hapart := h.apart a ha b hb
      unfold Allocation.Apart at hapart
      omega
  · rcases hb with hb | hb
    · have hapart := h.apart b hb a ha
      unfold Allocation.Apart at hapart
      omega
    · exact h.housed.statics.eq_of_meets ha hb hak hbk

/-- An access that touches a live range and is not inside it is inside no live range: it runs past
an end, or from one range into another. -/
theorem Tidy.not_live (h : m.Tidy) {a : Allocation} (ha : m.Records a) {k : Nat}
    (hak : a.start ≤ k ∧ k < a.start + a.size) (hk : address ≤ k ∧ k < address + size)
    (hout : address < a.start ∨ a.start + a.size < address + size) : ¬m.Live address size := by
  rintro ⟨b, hb, hstart, hend⟩
  have hab := h.eq_of_meets ha hb hak ⟨by omega, by omega⟩
  subst hab
  omega

/-! ## What is allowed -/

/-- A single byte of a live range is live. -/
theorem Live.byte (h : m.Live address size) {k : Nat} (hk : address ≤ k ∧ k < address + size) :
    m.Live k 1 :=
  h.part hk.1 (by omega)

theorem live_of_owner? {n : AllocMap} (h : (n.owner? address size).isSome = true) :
    ∃ a ∈ n.entries, a.start ≤ address ∧ address + size ≤ a.start + a.size := by
  obtain ⟨kind, howner⟩ := Option.isSome_iff_exists.mp h
  obtain ⟨a, ha, _, hrange⟩ := AllocMap.exists_of_owner?_eq_some howner
  exact ⟨a, ha, hrange⟩

/-- With sanitizing on, an access is allowed when it is empty or inside one live range. -/
theorem Tidy.accessible_iff (h : m.Tidy) :
    m.accessible true address size = true ↔ size = 0 ∨ m.Live address size := by
  constructor
  · intro hallowed
    unfold accessible at hallowed
    rw [Bool.or_eq_true, Bool.and_eq_true] at hallowed
    rcases hallowed with hzero | ⟨_, howner⟩
    · exact .inl (by simpa using hzero)
    · right
      rw [Bool.not_true, Bool.false_or, owner?, Option.isSome_or, Bool.or_eq_true] at howner
      rcases howner with howner | howner
      · obtain ⟨a, ha, hrange⟩ := live_of_owner? howner
        exact ⟨a, .inl ha, hrange⟩
      · obtain ⟨a, ha, hrange⟩ := live_of_owner? howner
        exact ⟨a, .inr ha, hrange⟩
  · rintro (rfl | hlive)
    · rfl
    · exact hlive.accessible h.housed h.stack true

/-! ## Death -/

/-- On the way from one memory to the other, the allocator hands out the byte. -/
def HandsOut (p : Program) (m m' : Memory) (k : Nat) : Prop :=
  ∃ v w address size, Evolves p m v ∧ Takes p address size v w ∧ Evolves p w m' ∧
    address ≤ k ∧ k < address + size

namespace HandsOut

variable {k : Nat} {m'' : Memory}

theorem before (h : Evolves p m m') (h' : HandsOut p m' m'' k) : HandsOut p m m'' k := by
  obtain ⟨v, w, address, size, hv, hrest⟩ := h'
  exact ⟨v, w, address, size, h.trans hv, hrest⟩

theorem after (h : HandsOut p m m' k) (h' : Evolves p m' m'') : HandsOut p m m'' k := by
  obtain ⟨v, w, address, size, hv, htakes, hw, hk⟩ := h
  exact ⟨v, w, address, size, hv, htakes, hw.trans h', hk⟩

end HandsOut

theorem Takes.handsOut (h : Takes p address size m m') {k : Nat}
    (hk : address ≤ k ∧ k < address + size) : HandsOut p m m' k :=
  ⟨m, m', address, size, .refl m, h, .refl m', hk⟩

/-- What is dead stays dead until it is handed out. -/
theorem Evolves.handsOut (h : Evolves p m m') {k : Nat} (hdead : ¬m.Live k 1)
    (hlive : m'.Live k 1) : HandsOut p m m' k := by
  induction h with
  | refl | store | native => exact absurd hlive hdead
  | @trans _ m' _ h₁ h₂ ih₁ ih₂ =>
    by_cases hmid : m'.Live k 1
    · exact (ih₁ hdead hmid).after h₂
    · exact .before h₁ (ih₂ hmid hlive)
  | takes h =>
    obtain ⟨a, ha, hstart, hend⟩ := hlive
    rcases h.records ha with ⟨kind, rfl⟩ | ha
    · exact h.handsOut ⟨hstart, by dsimp only at hend; omega⟩
    · exact absurd ⟨a, ha, hstart, hend⟩ hdead
  | release ranges released =>
    obtain ⟨a, ha, hrange⟩ := hlive
    have hbefore := ha.imp_left fun ha => (AllocMap.removeAll_sublist released).subset ha
    exact absurd ⟨a, hbefore, hrange⟩ hdead

end Memory

/-! ## States -/

/-- The bytes lie inside one live allocation: a static one, or one that an active frame has made. -/
def State.Owns (s : State) (address size : Nat) : Prop :=
  (∃ a ∈ s.memory.statics.entries, a.start ≤ address ∧ address + size ≤ a.start + a.size) ∨
    ∃ fr ∈ s.frames, ∃ range ∈ fr.allocs,
      range.1 ≤ address ∧ address + size ≤ range.1 + range.2

theorem OwnsStack.live_iff (h : OwnsStack s) :
    s.memory.Live address size ↔ s.Owns address size := by
  have hmem (a : Allocation) : a ∈ s.memory.stack.entries ↔
      ∃ fr ∈ s.frames, ∃ range ∈ fr.allocs, (⟨range.1, range.2, .frame⟩ : Allocation) = a := by
    rw [h.owned.mem_iff, List.mem_flatMap]
    simp only [Frame.ranges, List.mem_map]
  constructor
  · rintro ⟨a, ha | ha, hrange⟩
    · obtain ⟨fr, hfr, range, hrange', rfl⟩ := (hmem a).mp ha
      exact .inr ⟨fr, hfr, range, hrange', hrange⟩
    · exact .inl ⟨a, ha, hrange⟩
  · rintro (⟨a, ha, hrange⟩ | ⟨fr, hfr, range, hmade, hrange⟩)
    · exact ⟨a, .inr ha, hrange⟩
    · exact ⟨_, .inl ((hmem _).mpr ⟨fr, hfr, range, hmade, rfl⟩), hrange⟩

theorem Moves.tidy (hhost : p.host.KeepsExtent) (h : Moves p {} s) : s.memory.Tidy :=
  h.evolves.tidy hhost Memory.tidy_empty

/-- The storage of a frame that is taken off dies. -/
theorem Leaves.dead (hs : OwnsStack s) (htidy : s.memory.Tidy) (h : Leaves s t) {fr : Frame}
    {rest : List Frame} (hfr : s.frames = fr :: rest) {range : Nat × Nat} (hmade : range ∈ fr.allocs)
    {k : Nat} (hk : range.1 ≤ k ∧ k < range.1 + range.2) :
    ¬t.memory.Live k 1 := by
  obtain ⟨stack, hpop, hordered, _, hreleased⟩ := hs.popFrame_eq_ok hfr
  cases h with
  | intro hfr' hremoved =>
    rw [hfr] at hfr'
    cases hfr'
    rw [Exec.popFrame_eq hfr, hremoved] at hpop
    cases hpop
    have hin : (⟨range.1, range.2, .frame⟩ : Allocation) ∈ fr.ranges :=
      List.mem_map.mpr ⟨range, hmade, rfl⟩
    have hrecorded := hreleased.symm.subset (List.mem_append_left _ hin)
    -- The ranges that are left are apart from the released ones.
    have hpairwise := (hreleased.pairwise_iff fun {a b} => Allocation.Apart.symm).mp hs.ordered.apart
    have hleft := (List.pairwise_append.mp hpairwise).2.2 _ hin
    rintro ⟨a, ha | ha, hstart, hend⟩
    · have hapart := hleft a ha
      unfold Allocation.Apart at hapart
      dsimp only at hapart
      omega
    · have hapart := htidy.apart _ hrecorded a ha
      unfold Allocation.Apart at hapart
      dsimp only at hapart
      omega

end PackedIR
