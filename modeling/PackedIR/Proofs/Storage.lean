/-
Bytes and who owns them.

Reading and writing an arena are total, and outside the arena a write is lost. What makes
a store stick is that every owned range lies inside the arena. `Housed` says so, together
with the order of the map of statics, and every move of the machine keeps it: ranges are
recorded for storage that has just been handed out, for which the arena is made long
enough, and the arena never shrinks. The only party that could take storage away is native
code, so it has to be assumed that native code changes bytes and not how many there are.

Evaluation adds storage, and changes no byte outside of what it adds.
-/
import PackedIR.Proofs.Frames

set_option autoImplicit false

namespace PackedIR

/-! ## Reading and writing -/

namespace Arena

variable {a b : Arena} {address k : Nat}

theorem length_read (a : Arena) (address count : Nat) : (a.read address count).length = count := by
  induction count generalizing address with
  | zero => rfl
  | succ count ih => rw [read, List.length_cons, ih]

theorem read_add (a : Arena) (address m n : Nat) :
    a.read address (m + n) = a.read address m ++ a.read (address + m) n := by
  induction m generalizing address with
  | zero => rw [Nat.zero_add, read, List.nil_append, Nat.add_zero]
  | succ m ih =>
    have hshift : address + (m + 1) = address + 1 + m := by omega
    rw [Nat.succ_add, read, ih, read, List.cons_append, hshift]

theorem read_congr {count : Nat}
    (h : ∀ k, address ≤ k → k < address + count → b.byteAt k = a.byteAt k) :
    b.read address count = a.read address count := by
  induction count generalizing address with
  | zero => rfl
  | succ count ih =>
    have hfirst := h address (by omega) (by omega)
    have hrest : b.read (address + 1) count = a.read (address + 1) count := by
      apply ih
      intro k hle hlt
      exact h k (by omega) (by omega)
    rw [read, read, hfirst, hrest]

/-- A part of what is read. -/
theorem read_drop_take {count offset size : Nat} (h : offset + size ≤ count) :
    ((a.read address count).drop offset).take size = a.read (address + offset) size := by
  obtain ⟨more, rfl⟩ := Nat.exists_eq_add_of_le h
  rw [Nat.add_assoc, read_add, List.drop_left' (length_read a address offset), read_add,
    List.take_left' (length_read a _ size)]

theorem size_setByte (a : Arena) (address : Nat) (x : UInt8) :
    (a.setByte address x).bytes.size = a.bytes.size := by
  unfold setByte
  split
  · exact Array.size_setIfInBounds
  · rfl

theorem size_write (a : Arena) (address : Nat) (bytes : Bytes) :
    (a.write address bytes).bytes.size = a.bytes.size := by
  induction bytes generalizing a address with
  | nil => rfl
  | cons x bytes ih => rw [write, ih, size_setByte]

theorem next_write (a : Arena) (address : Nat) (bytes : Bytes) :
    (a.write address bytes).next = a.next := by
  unfold next
  rw [size_write]

theorem byteAt_setByte_of_ne {x : UInt8} (h : k ≠ address) :
    (a.setByte address x).byteAt k = a.byteAt k := by
  unfold setByte
  by_cases hbase : base ≤ address
  · rw [if_pos hbase]
    unfold byteAt
    by_cases hk : base ≤ k
    · have hne : address - base ≠ k - base := by omega
      rw [if_pos hk, if_pos hk, Array.getD_eq_getD_getElem?, Array.getD_eq_getD_getElem?,
        Array.getElem?_setIfInBounds_ne hne]
    · rw [if_neg hk, if_neg hk]
  · rw [if_neg hbase]

theorem byteAt_setByte_self {x : UInt8} (hbase : base ≤ address) (hnext : address < a.next) :
    (a.setByte address x).byteAt address = x := by
  have hlt : address - base < a.bytes.size := by
    unfold next at hnext
    omega
  unfold setByte byteAt
  rw [if_pos hbase, if_pos hbase, Array.getD_eq_getD_getElem?,
    Array.getElem?_setIfInBounds_self_of_lt hlt, Option.getD_some]

/-- A write changes no byte outside its range. -/
theorem byteAt_write_of_outside {bytes : Bytes} (h : k < address ∨ address + bytes.length ≤ k) :
    (a.write address bytes).byteAt k = a.byteAt k := by
  induction bytes generalizing a address with
  | nil => rfl
  | cons x bytes ih =>
    rw [List.length_cons] at h
    rw [write, ih (by omega), byteAt_setByte_of_ne (by omega)]

/-- What is written inside the arena is read back. -/
theorem read_write_self {bytes : Bytes} (hbase : base ≤ address)
    (hnext : address + bytes.length ≤ a.next) :
    (a.write address bytes).read address bytes.length = bytes := by
  induction bytes generalizing a address with
  | nil => rfl
  | cons x bytes ih =>
    rw [List.length_cons] at hnext
    have hnext' : address + 1 + bytes.length ≤ (a.setByte address x).next := by
      unfold next at hnext ⊢
      rw [size_setByte]
      omega
    have hrest := ih (a := a.setByte address x) (by omega) hnext'
    rw [List.length_cons, write, read, hrest, byteAt_write_of_outside (by omega),
      byteAt_setByte_self hbase (by omega)]

/-- Writing a part of a range replaces that part of what is read. -/
theorem read_write {count offset : Nat} {bytes : Bytes} (hbase : base ≤ address)
    (hpart : offset + bytes.length ≤ count) (hnext : address + count ≤ a.next) :
    (a.write (address + offset) bytes).read address count =
      (a.read address count).take offset ++ bytes ++
        (a.read address count).drop (offset + bytes.length) := by
  obtain ⟨more, rfl⟩ := Nat.exists_eq_add_of_le hpart
  -- The range falls into what lies before the write, the write itself, and what lies after.
  have hself := read_write_self (a := a) (by omega : base ≤ address + offset)
    (by omega : address + offset + bytes.length ≤ a.next)
  have hleft : (a.write (address + offset) bytes).read address offset = a.read address offset :=
    read_congr fun k _ hlt => byteAt_write_of_outside (.inl (by omega))
  have hright : (a.write (address + offset) bytes).read (address + offset + bytes.length) more =
      a.read (address + offset + bytes.length) more :=
    read_congr fun k hle _ => byteAt_write_of_outside (.inr (by omega))
  have hsplit : a.read address (offset + bytes.length + more) =
      a.read address offset ++
        (a.read (address + offset) bytes.length ++
          a.read (address + offset + bytes.length) more) := by
    rw [Nat.add_assoc, read_add, read_add]
  have htake : (a.read address (offset + bytes.length + more)).take offset =
      a.read address offset := by
    rw [hsplit]
    exact List.take_left' (length_read a address offset)
  have hdrop : (a.read address (offset + bytes.length + more)).drop (offset + bytes.length) =
      a.read (address + offset + bytes.length) more := by
    rw [hsplit, ← List.append_assoc]
    apply List.drop_left'
    rw [List.length_append, length_read, length_read]
  rw [htake, hdrop, Nat.add_assoc, read_add, read_add, hleft, hself, hright, List.append_assoc]

theorem next_reach (a : Arena) (limit : Nat) : (a.reach limit).next = max a.next limit := by
  simp only [next, reach, Array.size_append, Array.size_replicate]
  omega

/-- What is appended reads as it did before, as zero. -/
theorem byteAt_reach (a : Arena) (limit k : Nat) : (a.reach limit).byteAt k = a.byteAt k := by
  unfold byteAt reach
  split
  · rw [Array.getD_eq_getD_getElem?, Array.getD_eq_getD_getElem?, Array.getElem?_append]
    split
    · rfl
    · rename_i hout
      rw [Array.getElem?_eq_none (by omega : a.bytes.size ≤ k - base), Array.getElem?_replicate]
      split <;> rfl
  · rfl

theorem next_claim (a : Arena) (address size : Nat) :
    (a.claim address size).next = max a.next (address + size) := by
  rw [claim, next_write, next_reach]

theorem byteAt_claim_of_outside {size : Nat} (h : k < address ∨ address + size ≤ k) :
    (a.claim address size).byteAt k = a.byteAt k := by
  rw [claim, byteAt_write_of_outside (by rwa [List.length_replicate]), byteAt_reach]

/-- What is handed out is zero. -/
theorem byteAt_claim_of_inside {size : Nat} (hbase : base ≤ address)
    (h : address ≤ k ∧ k < address + size) : (a.claim address size).byteAt k = 0 := by
  have hzeros : (a.claim address size).read address size = List.replicate size 0 := by
    have hroom : address + (List.replicate size (0 : UInt8)).length ≤
        (a.reach (address + size)).next := by
      rw [List.length_replicate, next_reach]
      omega
    have hself := read_write_self hbase hroom
    rwa [List.length_replicate] at hself
  have hpart : (((a.claim address size).read address size).drop (k - address)).take 1 =
      (a.claim address size).read (address + (k - address)) 1 :=
    read_drop_take (by omega)
  have hk : address + (k - address) = k := by omega
  have hleft : 1 ≤ size - (k - address) := by omega
  rw [hzeros, hk, List.drop_replicate, List.take_replicate, Nat.min_eq_left hleft] at hpart
  exact (List.cons.inj hpart).1.symm

/-- What is handed out and then filled reads as what it is filled with. -/
theorem read_claim_write {bytes : Bytes} (hbase : base ≤ address) :
    ((a.claim address bytes.length).write address bytes).read address bytes.length = bytes := by
  refine read_write_self hbase ?_
  rw [next_claim]
  omega

end Arena

/-! ## Owned ranges -/

/-- Native code changes bytes, and never how many there are. -/
def Host.KeepsExtent (host : Host) : Prop :=
  ∀ address code args arena, host address = some code →
    (code args arena).2.bytes.size = arena.bytes.size

namespace Memory

variable {m m' : Memory} {address size : Nat}

/-- The range is recorded in one of the maps. -/
def Records (m : Memory) (a : Allocation) : Prop := a ∈ m.stack.entries ∨ a ∈ m.statics.entries

/-- The bytes lie inside one live allocation. -/
def Live (m : Memory) (address size : Nat) : Prop :=
  ∃ a, m.Records a ∧ a.start ≤ address ∧ address + size ≤ a.start + a.size

/-- What is recorded lies in the arena and in the address space, and statics do not meet. -/
structure Housed (m : Memory) : Prop where
  statics : m.statics.Ordered
  inside : ∀ a, m.Records a → Arena.base ≤ a.start ∧ a.start + a.size ≤ m.arena.next
  limit : ∀ a, m.Records a → a.start + a.size < addressLimit

theorem not_records_empty (a : Allocation) : ¬Records {} a := by
  rintro (h | h) <;> exact absurd h List.not_mem_nil

theorem housed_empty : Housed {} :=
  ⟨AllocMap.ordered_empty, fun a ha => absurd ha (not_records_empty a),
    fun a ha => absurd ha (not_records_empty a)⟩

/-! ## Handing out -/

theorem Records.inUse {a : Allocation} (h : m.Records a) : a ∈ m.ledger.inUse :=
  List.mem_append.mpr h

@[simp] theorem claim_arena (m : Memory) (address size : Nat) :
    (m.claim address size).arena = m.arena.claim address size := rfl

@[simp] theorem claim_stack (m : Memory) (address size : Nat) :
    (m.claim address size).stack = m.stack := rfl

@[simp] theorem claim_statics (m : Memory) (address size : Nat) :
    (m.claim address size).statics = m.statics := rfl

@[simp] theorem put_arena (m : Memory) (address : Nat) (bytes : Bytes) :
    (m.put address bytes).arena = m.arena.write address bytes := rfl

@[simp] theorem put_stack (m : Memory) (address : Nat) (bytes : Bytes) :
    (m.put address bytes).stack = m.stack := rfl

@[simp] theorem put_statics (m : Memory) (address : Nat) (bytes : Bytes) :
    (m.put address bytes).statics = m.statics := rfl

/-- Storage that is handed out was not live. -/
theorem not_live_of_place {al : Allocator} (h : al.place m.ledger size = some address) {k : Nat}
    (hk : address ≤ k ∧ k < address + size) : ¬m.Live k 1 := by
  rintro ⟨a, ha, hstart, hend⟩
  have hapart := al.apart h a ha.inUse
  omega

namespace Housed

theorem of_size (h : m.Housed) {arena : Arena} (hsize : arena.bytes.size = m.arena.bytes.size) :
    Housed { m with arena } := by
  refine ⟨h.statics, fun a ha => ?_, h.limit⟩
  have hinside := h.inside a ha
  unfold Arena.next at hinside ⊢
  rw [hsize]
  exact hinside

theorem put (h : m.Housed) (address : Nat) (bytes : Bytes) : (m.put address bytes).Housed :=
  h.of_size (Arena.size_write m.arena address bytes)

/-- New storage may be recorded in either map. -/
theorem claim (h : m.Housed) {al : Allocator} (hroom : al.place m.ledger size = some address)
    {stack statics : AllocMap} (kind : AllocKind) (hstatics : statics.Ordered)
    (hrecords : ∀ a, a ∈ stack.entries ∨ a ∈ statics.entries →
      a = ⟨address, size, kind⟩ ∨ m.Records a) :
    Housed { m.claim address size with stack, statics } := by
  refine ⟨hstatics, fun a ha => ?_, fun a ha => ?_⟩
  · rw [claim_arena, Arena.next_claim]
    rcases hrecords a ha with rfl | ha
    · have hbase := al.base_le hroom
      dsimp only
      omega
    · have hinside := h.inside a ha
      omega
  · rcases hrecords a ha with rfl | ha
    · exact al.lt_limit hroom
    · exact h.limit a ha

end Housed

/-! ## Liveness -/

theorem Live.part (h : m.Live address size) {address' size' : Nat} (hle : address ≤ address')
    (hend : address' + size' ≤ address + size) : m.Live address' size' := by
  obtain ⟨a, ha, hstart, hlast⟩ := h
  exact ⟨a, ha, by omega, by omega⟩

theorem Live.inside (h : m.Live address size) (hm : m.Housed) :
    Arena.base ≤ address ∧ address + size ≤ m.arena.next := by
  obtain ⟨a, ha, hstart, hlast⟩ := h
  have hinside := hm.inside a ha
  exact ⟨by omega, by omega⟩

theorem Live.lt_addressLimit (h : m.Live address size) (hm : m.Housed) :
    address + size < addressLimit := by
  obtain ⟨a, ha, hstart, hlast⟩ := h
  have hlimit := hm.limit a ha
  omega

/-- Live bytes can be accessed, checked or not. -/
theorem Live.accessible (h : m.Live address size) (hm : m.Housed) (hstack : m.stack.Ordered)
    (sanitize : Bool) : m.accessible sanitize address size = true := by
  unfold Memory.accessible
  -- An access of no bytes is always allowed; for any other the owner has to be found.
  by_cases hzero : size = 0
  · simp [hzero]
  · have hpos : 0 < size := Nat.pos_of_ne_zero hzero
    have hlimit := h.lt_addressLimit hm
    have hbase := (h.inside hm).1
    have hnull : 0 < Arena.base := by decide
    have hne : address ≠ 0 := by omega
    have howner : (m.owner? address size).isSome = true := by
      obtain ⟨a, ha, hstart, hend⟩ := h
      unfold Memory.owner?
      rw [Option.isSome_or, Bool.or_eq_true]
      rcases ha with ha | ha
      · exact .inl (hstack.owner?_isSome ha hpos hstart hend hlimit)
      · exact .inr (hm.statics.owner?_isSome ha hpos hstart hend hlimit)
    simp [hne, howner]

/-! ## What evaluation keeps -/

/-- All storage is still there with the same contents; storage may have been added. No byte has
changed that was live or has not become so. -/
structure Keeps (m m' : Memory) : Prop where
  stack : m'.stack = m.stack
  statics : ∀ a ∈ m.statics.entries, a ∈ m'.statics.entries
  next : m.arena.next ≤ m'.arena.next
  bytes : ∀ k, (m'.Live k 1 → m.Live k 1) → m'.arena.byteAt k = m.arena.byteAt k

namespace Keeps

theorem refl (m : Memory) : Keeps m m := ⟨rfl, fun _ h => h, Nat.le_refl _, fun _ _ => rfl⟩

theorem records {a : Allocation} (h : Keeps m m') (ha : m.Records a) : m'.Records a := by
  rcases ha with ha | ha
  · rw [← h.stack] at ha
    exact .inl ha
  · exact .inr (h.statics a ha)

theorem live (h : Keeps m m') (hlive : m.Live address size) : m'.Live address size := by
  obtain ⟨a, ha, hrange⟩ := hlive
  exact ⟨a, h.records ha, hrange⟩

theorem trans {m'' : Memory} (h : Keeps m m') (h' : Keeps m' m'') : Keeps m m'' := by
  refine ⟨?_, fun a ha => h'.statics a (h.statics a ha), Nat.le_trans h.next h'.next, ?_⟩
  · rw [h'.stack, h.stack]
  · -- A byte that is live in the end only if it was at the start is so at each step.
    intro k hk
    rw [h'.bytes k fun hlive => h.live (hk hlive), h.bytes k fun hlive => hk (h'.live hlive)]

theorem read_eq (h : Keeps m m') (hlive : m.Live address size) :
    m'.arena.read address size = m.arena.read address size :=
  Arena.read_congr fun k hle hlt => h.bytes k fun _ => hlive.part hle (by omega)

end Keeps

end Memory

/-! ## States -/

section States

variable {p : Program} {s t : State}

theorem Makes.housed (h : Makes p s t) (hs : s.memory.Housed) : t.memory.Housed := by
  induction h with
  | refl | intern | prepare => exact hs
  | trans _ _ ih₁ ih₂ => exact ih₂ (ih₁ hs)
  | make _ _ _ _ _ _ ih => exact ih hs
  | place kind bytes nonempty room recorded =>
    have hpos : 0 < bytes.length := List.length_pos_iff.mpr nonempty
    have hordered := (AllocMap.insert_eq_ok hs.statics hpos recorded).1
    refine Memory.Housed.put (hs.claim room kind hordered ?_) _ bytes
    rintro a (ha | ha)
    · exact .inr (.inl ha)
    · exact (AllocMap.mem_of_insert recorded ha).imp_right .inr

theorem Makes.next_le (h : Makes p s t) : s.memory.arena.next ≤ t.memory.arena.next := by
  induction h with
  | refl | intern | prepare => exact Nat.le_refl _
  | make _ _ _ _ _ _ ih => exact ih
  | trans _ _ ih₁ ih₂ => exact Nat.le_trans ih₁ ih₂
  | place kind bytes nonempty room recorded =>
    simp only [Memory.put_arena, Memory.claim_arena, Arena.next_write, Arena.next_claim]
    omega

/-- What is live stays live while operands are evaluated, whatever the maps are like. -/
theorem Makes.live_byte (h : Makes p s t) {k : Nat} (hk : s.memory.Live k 1) :
    t.memory.Live k 1 := by
  induction h with
  | refl | intern | prepare => exact hk
  | make _ _ _ _ _ _ ih => exact ih hk
  | trans _ _ ih₁ ih₂ => exact ih₂ (ih₁ hk)
  | place kind bytes nonempty room recorded =>
    have hpos : 0 < bytes.length := List.length_pos_iff.mpr nonempty
    obtain ⟨a, ha, hstart, hend⟩ := hk
    refine ⟨a, ha.imp_right fun hmem => ?_, hstart, hend⟩
    -- The new range is apart from this one, so it does not take its place.
    have hapart := p.allocator.apart room a ha.inUse
    exact (AllocMap.mem_insert recorded hpos).2 a hmem (by dsimp only; omega)

/-- Evaluation changes no byte but those that it makes live. -/
theorem Makes.byteAt_eq (h : Makes p s t) {k : Nat}
    (hk : t.memory.Live k 1 → s.memory.Live k 1) :
    t.memory.arena.byteAt k = s.memory.arena.byteAt k := by
  induction h with
  | refl | intern | prepare => rfl
  | make _ _ _ _ _ _ ih => exact ih hk
  | trans h₁ h₂ ih₁ ih₂ =>
    rw [ih₂ fun hlive => h₁.live_byte (hk hlive), ih₁ fun hlive => hk (h₂.live_byte hlive)]
  | @place s address kind bytes statics nonempty room recorded =>
    have hpos : 0 < bytes.length := List.length_pos_iff.mpr nonempty
    have hout : k < address ∨ address + bytes.length ≤ k := by
      refine Classical.byContradiction fun hinside => ?_
      have hin : address ≤ k ∧ k < address + bytes.length := by omega
      refine Memory.not_live_of_place room hin (hk ?_)
      exact ⟨_, .inr (AllocMap.mem_insert recorded hpos).1, hin.1, by dsimp only; omega⟩
    simp only [Memory.put_arena, Memory.claim_arena]
    rw [Arena.byteAt_write_of_outside hout, Arena.byteAt_claim_of_outside hout]

/-- Evaluation adds storage and changes none. -/
theorem Makes.keeps (h : Makes p s t) (hs : s.memory.Housed) : s.memory.Keeps t.memory := by
  refine ⟨h.stack_eq, ?_, h.next_le, fun _ hk => h.byteAt_eq hk⟩
  induction h with
  | refl | intern | prepare => exact fun _ ha => ha
  | trans h₁ _ ih₁ ih₂ => exact fun a ha => ih₂ (h₁.housed hs) a (ih₁ hs a ha)
  | make _ _ _ _ _ _ ih => exact ih hs
  | place kind bytes nonempty room recorded =>
    have hpos : 0 < bytes.length := List.length_pos_iff.mpr nonempty
    have hperm := (AllocMap.insert_eq_ok hs.statics hpos recorded).2.1
    exact fun a ha => hperm.symm.subset (List.mem_cons_of_mem _ ha)

/-- What is placed in static storage is recorded, unless it is empty. -/
theorem Exec.recorded_of_allocStatic {kind : AllocKind} {bytes : Bytes} {address : Nat}
    (hne : bytes ≠ []) (h : Exec.allocStatic p kind bytes s = .ok address t) :
    ⟨address, bytes.length, kind⟩ ∈ t.memory.statics.entries := by
  obtain ⟨_, statics, hins, rfl⟩ := Exec.allocStatic_eq_ok hne h
  exact (AllocMap.mem_insert hins (List.length_pos_iff.mpr hne)).1

/-- What is placed in static storage is read there. -/
theorem Exec.read_of_allocStatic {kind : AllocKind} {bytes : Bytes} {address : Nat}
    (h : Exec.allocStatic p kind bytes s = .ok address t) :
    t.memory.arena.read address bytes.length = bytes := by
  by_cases hempty : bytes = []
  · rw [hempty]
    rfl
  · obtain ⟨hroom, _, _, rfl⟩ := Exec.allocStatic_eq_ok hempty h
    exact Arena.read_claim_write (p.allocator.base_le hroom)

theorem Effects.housed (hhost : p.host.KeepsExtent) (h : Effects p s t)
    (hs : s.memory.Housed) : t.memory.Housed := by
  induction h with
  | makes h => exact h.housed hs
  | trans _ _ ih₁ ih₂ => exact ih₂ (ih₁ hs)
  | store address bytes _ => exact hs.put address bytes
  | native address args found => exact hs.of_size (hhost address _ args _ found)

theorem Prepares.housed (hhost : p.host.KeepsExtent) (h : Prepares p s t)
    (hs : s.memory.Housed) : t.memory.Housed := by
  induction h with
  | effects h => exact h.housed hhost hs
  | trans _ _ ih₁ ih₂ => exact ih₂ (ih₁ hs)
  | register | route | ready => exact hs

theorem Moves.housed (hhost : p.host.KeepsExtent) (h : Moves p s t) (hs : s.memory.Housed) :
    t.memory.Housed := by
  induction h with
  | prepares h => exact h.housed hhost hs
  | trans _ _ ih₁ ih₂ => exact ih₂ (ih₁ hs)
  | allocates h =>
    cases h with
    | intro _ _ hroom hrecorded =>
      refine hs.claim hroom .frame hs.statics ?_
      rintro a (ha | ha)
      · exact (AllocMap.mem_of_insert hrecorded ha).imp_right .inl
      · exact .inr (.inr ha)
  | @leaves s _ h =>
    cases h with
    | @intro _ _ stack _ hreleased =>
      -- Ranges are only taken out of the map.
      have hrecords {a : Allocation} (ha : Memory.Records { s.memory with stack } a) :
          s.memory.Records a :=
        ha.imp_left fun ha => (AllocMap.removeAll_sublist hreleased).subset ha
      exact ⟨hs.statics, fun a ha => hs.inside a (hrecords ha), fun a ha => hs.limit a (hrecords ha)⟩
  | enters id h =>
    cases h
    exact hs
  | bind | goto => exact hs

/-- Everything recorded lies in the arena in every state of a session. -/
theorem Reachable.housed (hhost : p.host.KeepsExtent) (h : Reachable p s) : s.memory.Housed :=
  h.moves.housed hhost Memory.housed_empty

end States

/-- The functions that come with the interpreter only write bytes. -/
theorem Native.host_keepsExtent : Host.KeepsExtent Native.host := by
  intro address code args arena hcode
  obtain ⟨n, _, rfl⟩ := Option.map_eq_some_iff.mp hcode
  cases n with
  | pokeI64 | fill | snprintf => exact Arena.size_write _ _ _
  | _ => rfl

end PackedIR
