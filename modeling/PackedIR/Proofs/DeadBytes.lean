/-
Bytes that are not live.

The arena keeps the bytes of storage that has been released, and the bytes between allocations.
With sanitizing on, the interpreter neither changes them nor looks at them. That they are not
changed is a fact about one run. That they are not looked at is a fact about two: runs from states
that differ in such bytes alone go on alike, and their states keep differing in such bytes alone.

Native code may do as it likes with the bytes it can address, so both statements are about programs
whose native code works on its arguments only.
-/
import PackedIR.Proofs.Liveness
import PackedIR.Proofs.Simulation

set_option autoImplicit false

namespace PackedIR

variable {α : Type} {p : Program} {s t : State} {m m' : Memory}

/-- Native code gives what its arguments say, and leaves all bytes alone. -/
def Host.KeepsMemory (host : Host) : Prop :=
  ∀ address code args arena, host address = some code →
    code args arena = ((code args {}).1, arena)

theorem Host.KeepsMemory.keepsExtent {host : Host} (h : host.KeepsMemory) : host.KeepsExtent := by
  intro address code args arena hcode
  rw [h address code args arena hcode]

/-! ## Arenas of one size -/

namespace Arena

variable {a b : Arena} {address k : Nat}

theorem byteAt_setByte_congr (hsize : b.bytes.size = a.bytes.size) (x : UInt8)
    (h : b.byteAt k = a.byteAt k) :
    (b.setByte address x).byteAt k = (a.setByte address x).byteAt k := by
  by_cases hk : k = address
  · subst hk
    by_cases hin : base ≤ k ∧ k < a.next
    · have hin' : k < b.next := by
        unfold next at hin ⊢
        omega
      rw [byteAt_setByte_self hin.1 hin', byteAt_setByte_self hin.1 hin.2]
    · -- Outside the arena a write is lost.
      have hlost (c : Arena) (hc : c.bytes.size = a.bytes.size) : c.setByte k x = c := by
        unfold setByte
        by_cases hbase : base ≤ k
        · have hout : ¬k - base < c.bytes.size := by
            unfold next at hin
            omega
          rw [if_pos hbase, Array.setIfInBounds_eq_of_size_le (by omega)]
        · rw [if_neg hbase]
      rw [hlost b hsize, hlost a rfl, h]
  · rw [byteAt_setByte_of_ne hk, byteAt_setByte_of_ne hk, h]

/-- The same write keeps bytes equal that are equal. -/
theorem byteAt_write_congr (hsize : b.bytes.size = a.bytes.size) (bytes : Bytes)
    (h : b.byteAt k = a.byteAt k) :
    (b.write address bytes).byteAt k = (a.write address bytes).byteAt k := by
  induction bytes generalizing a b address with
  | nil => exact h
  | cons x bytes ih =>
    rw [write, write]
    apply ih
    · rw [size_setByte, size_setByte, hsize]
    · exact byteAt_setByte_congr hsize x h

theorem size_claim_congr (hsize : b.bytes.size = a.bytes.size) (address size : Nat) :
    (b.claim address size).bytes.size = (a.claim address size).bytes.size := by
  have hnext : b.next = a.next := by
    unfold next
    rw [hsize]
  unfold claim reach
  rw [size_write, size_write, Array.size_append, Array.size_append, hnext, hsize]

/-- The same claim keeps bytes equal that are equal. -/
theorem byteAt_claim_congr {size : Nat} (hbase : base ≤ address) (h : b.byteAt k = a.byteAt k) :
    (b.claim address size).byteAt k = (a.claim address size).byteAt k := by
  by_cases hk : address ≤ k ∧ k < address + size
  · rw [byteAt_claim_of_inside hbase hk, byteAt_claim_of_inside hbase hk]
  · rw [byteAt_claim_of_outside (by omega), byteAt_claim_of_outside (by omega), h]

end Arena

/-! ## Memories that agree -/

namespace Memory

/-- The memories own the same ranges, have the same bytes in them, and look the same to the
allocator. -/
structure Agrees (m m' : Memory) : Prop where
  stack : m'.stack = m.stack
  statics : m'.statics = m.statics
  extent : m'.arena.bytes.size = m.arena.bytes.size
  taken : m'.taken = m.taken
  bytes : ∀ k, m.Live k 1 → m'.arena.byteAt k = m.arena.byteAt k

namespace Agrees

/-- The allocator gives the same answer. -/
theorem place_eq (h : m.Agrees m') (al : Allocator) (size : Nat) :
    al.place m'.ledger size = al.place m.ledger size := by
  unfold ledger
  rw [h.stack, h.statics, h.extent, h.taken]

theorem accessible_eq (h : m.Agrees m') (sanitize : Bool) (address size : Nat) :
    m'.accessible sanitize address size = m.accessible sanitize address size := by
  unfold accessible owner?
  rw [h.stack, h.statics]

/-- What the sanitizer lets through reads the same in both. -/
theorem load_eq (h : m.Agrees m') (hm : m.Tidy) (address : Nat) (ty : Ty) :
    m'.load true address ty = m.load true address ty := by
  unfold load checkAccess
  rw [h.accessible_eq]
  by_cases hallowed : m.accessible true address ty.size = true
  · have hread : m'.arena.read address ty.size = m.arena.read address ty.size := by
      apply Arena.read_congr
      intro k hle hlt
      rcases hm.accessible_iff.mp hallowed with hzero | hlive
      · omega
      · exact h.bytes k (hlive.byte ⟨hle, hlt⟩)
    rw [if_pos hallowed, hread]
  · rw [if_neg hallowed]
    simp only [raise, bind, Except.bind]

theorem put (h : m.Agrees m') (address : Nat) (bytes : Bytes) :
    (m.put address bytes).Agrees (m'.put address bytes) := by
  refine ⟨h.stack, h.statics, ?_, h.taken, fun k hk => ?_⟩
  · unfold Memory.put
    dsimp only
    rw [Arena.size_write, Arena.size_write, h.extent]
  · exact Arena.byteAt_write_congr h.extent bytes (h.bytes k hk)

/-- New storage is the same in both, in whichever map it is recorded. -/
theorem claim (h : m.Agrees m') {address size : Nat} (hbase : Arena.base ≤ address)
    {stack statics : AllocMap}
    (hrecords : ∀ a, a ∈ stack.entries ∨ a ∈ statics.entries →
      (∃ kind, a = ⟨address, size, kind⟩) ∨ m.Records a) :
    Agrees { m.claim address size with stack, statics }
      { m'.claim address size with stack, statics } := by
  refine ⟨rfl, rfl, Arena.size_claim_congr h.extent address size, ?_, fun k hk => ?_⟩
  · exact congrArg (· + 1) h.taken
  · obtain ⟨a, ha, hstart, hend⟩ := hk
    rcases hrecords a ha with ⟨kind, rfl⟩ | hold
    · have hin : address ≤ k ∧ k < address + size := ⟨hstart, by dsimp only at hend; omega⟩
      exact (Arena.byteAt_claim_of_inside hbase hin).trans
        (Arena.byteAt_claim_of_inside hbase hin).symm
    · exact Arena.byteAt_claim_congr hbase (h.bytes k ⟨a, hold, hstart, hend⟩)

theorem release (h : m.Agrees m') {ranges : List (Nat × Nat)} {stack : AllocMap}
    (hreleased : m.stack.removeAll ranges = .ok stack) :
    Agrees { m with stack } { m' with stack } := by
  refine ⟨rfl, h.statics, h.extent, h.taken, fun k hk => h.bytes k ?_⟩
  obtain ⟨a, ha, hrange⟩ := hk
  exact ⟨a, ha.imp_left fun ha => (AllocMap.removeAll_sublist hreleased).subset ha, hrange⟩

end Agrees

/-- Bytes that are not live keep their values until they are handed out. -/
theorem Evolves.untouched (hon : p.config.sanitizeMemory = true) (hhost : p.host.KeepsMemory)
    (h : Evolves p m m') (hm : m.Tidy) {k : Nat} (hdead : ¬m.Live k 1) :
    m'.arena.byteAt k = m.arena.byteAt k ∨ HandsOut p m m' k := by
  induction h with
  | refl | release => exact .inl rfl
  | @trans _ v _ h₁ h₂ ih₁ ih₂ =>
    by_cases hmid : v.Live k 1
    · exact .inr ((h₁.handsOut hdead hmid).after h₂)
    · rcases ih₁ hm hdead with hbyte | hout
      · rcases ih₂ (h₁.tidy hhost.keepsExtent hm) hmid with hbyte' | hout
        · exact .inl (hbyte'.trans hbyte)
        · exact .inr (.before h₁ hout)
      · exact .inr (hout.after h₂)
  | @takes _ _ address size h =>
    by_cases hk : address ≤ k ∧ k < address + size
    · exact .inr (h.handsOut hk)
    · exact .inl (h.byteAt_eq (by omega))
  | store address bytes allowed =>
    left
    rw [hon] at allowed
    rcases hm.accessible_iff.mp allowed with hzero | hlive
    · rw [List.length_eq_zero_iff] at hzero
      subst hzero
      rfl
    · apply Arena.byteAt_write_of_outside
      apply Classical.byContradiction
      intro hinside
      exact hdead (hlive.byte ⟨by omega, by omega⟩)
  | native address args found =>
    left
    dsimp only
    rw [hhost address _ args _ found]

end Memory

/-! ## Runs that agree -/

/-- The states differ in bytes that are not live. -/
def Coupling.unread : Coupling where
  rel s t := s.memory.Tidy ∧ ∃ memory, s.memory.Agrees memory ∧ t = { s with memory }
  shared _ := True
  excused _ _ := False

namespace Coupling

theorem unread_lift (hst : unread.rel s t) (r : Result α) :
    unread.Matches ((liftM r : Exec α) s) ((liftM r : Exec α) t) := by
  cases r with
  | ok a => exact .ok a hst
  | error e => exact .error hst trivial

theorem unread_place (kind : AllocKind) (bytes : Bytes) :
    unread.Follows (Exec.allocStatic p kind bytes) (Exec.allocStatic p kind bytes) := by
  rintro s _ ⟨hs, m', hagrees, rfl⟩
  by_cases hempty : bytes = []
  · subst hempty
    exact .ok _ ⟨hs, m', hagrees, rfl⟩
  · -- The allocator is asked the same on both sides.
    cases hroom : p.allocator.place s.memory.ledger bytes.length with
    | none =>
      have hroom' := (hagrees.place_eq p.allocator bytes.length).trans hroom
      rw [Exec.allocStatic_of_none kind hempty hroom,
        Exec.allocStatic_of_none kind hempty (by exact hroom')]
      exact .error ⟨hs, m', hagrees, rfl⟩ trivial
    | some address =>
      obtain ⟨statics, hins⟩ := Allocator.exists_insert_statics hroom kind
      have hroom' := (hagrees.place_eq p.allocator bytes.length).trans hroom
      have hins' : m'.statics.insert ⟨address, bytes.length, kind⟩ = .ok statics := by
        rw [hagrees.statics, hins]
      rw [Exec.allocStatic_of_some hempty hroom hins,
        Exec.allocStatic_of_some hempty (by exact hroom') (by exact hins')]
      have htakes : Memory.Takes p address bytes.length s.memory _ :=
        .static kind bytes rfl (List.length_pos_iff.mpr hempty) hroom hins
      have hclaimed : Memory.Agrees
          { s.memory.claim address bytes.length with stack := s.memory.stack, statics }
          { m'.claim address bytes.length with stack := s.memory.stack, statics } :=
        hagrees.claim (p.allocator.base_le hroom) fun a ha => htakes.records ha
      refine .ok _ ⟨htakes.tidy hs, _, hclaimed.put address bytes, ?_⟩
      rw [← hagrees.stack]
      rfl

theorem unread_allocate {size : Nat} (hpos : 0 < size) :
    unread.Follows (Exec.allocFrame p size) (Exec.allocFrame p size) := by
  rintro s _ ⟨hs, m', hagrees, rfl⟩
  rcases s.frames_cases with hfr | ⟨fr, rest, hfr⟩
  · rw [Exec.allocFrame_nil hfr, Exec.allocFrame_nil (by exact hfr)]
    exact .error ⟨hs, m', hagrees, rfl⟩ trivial
  · cases hroom : p.allocator.place s.memory.ledger size with
    | none =>
      have hroom' := (hagrees.place_eq p.allocator size).trans hroom
      rw [Exec.allocFrame_of_none hfr hroom,
        Exec.allocFrame_of_none (by exact hfr) (by exact hroom')]
      exact .error ⟨hs, m', hagrees, rfl⟩ trivial
    | some address =>
      obtain ⟨stack, hins⟩ := Allocator.exists_insert_stack hroom .frame
      have hroom' := (hagrees.place_eq p.allocator size).trans hroom
      have hins' : m'.stack.insert ⟨address, size, .frame⟩ = .ok stack := by
        rw [hagrees.stack, hins]
      rw [Exec.allocFrame_of_some hfr hroom hins,
        Exec.allocFrame_of_some (by exact hfr) (by exact hroom') (by exact hins')]
      have htakes : Memory.Takes p address size s.memory _ := .frame hpos hroom hins
      have hclaimed : Memory.Agrees
          { s.memory.claim address size with stack, statics := s.memory.statics }
          { m'.claim address size with stack, statics := s.memory.statics } :=
        hagrees.claim (p.allocator.base_le hroom) fun a ha => htakes.records ha
      refine .ok _ ⟨htakes.tidy hs, _, hclaimed, ?_⟩
      rw [← hagrees.statics]
      rfl

theorem unread_leave (hhost : p.host.KeepsExtent) :
    unread.Follows Exec.popFrame Exec.popFrame := by
  rintro s _ ⟨hs, m', hagrees, rfl⟩
  rcases s.frames_cases with hfr | ⟨fr, rest, hfr⟩
  · rw [Exec.popFrame_nil hfr, Exec.popFrame_nil (by exact hfr)]
    exact .error ⟨hs, m', hagrees, rfl⟩ trivial
  · rw [Exec.popFrame_eq hfr, Exec.popFrame_eq (by exact hfr)]
    dsimp only
    rw [hagrees.stack]
    cases hrel : s.memory.stack.removeAll fr.allocs with
    | error f => exact .error ⟨hs, m', hagrees, rfl⟩ trivial
    | ok stack =>
      have htidy := (Memory.Evolves.release (p := p) fr.allocs hrel).tidy hhost hs
      exact .ok _ ⟨htidy, _, hagrees.release hrel, rfl⟩

theorem unread_native (hhost : p.host.KeepsMemory) (callee : Callee) (args : List Value) :
    unread.Follows (Exec.callNative p callee args) (Exec.callNative p callee args) := by
  rintro s _ ⟨hs, m', hagrees, rfl⟩
  rw [Exec.callNative_eq, Exec.callNative_eq]
  cases hprepare : callee.prepare p.host args with
  | error e => exact .error ⟨hs, m', hagrees, rfl⟩ trivial
  | ok call =>
    have hcode := Exec.host_of_prepare hprepare
    dsimp only
    rw [hhost _ _ call.args s.memory.arena hcode, hhost _ _ call.args m'.arena hcode]
    exact unread_lift ⟨hs, m', hagrees, rfl⟩ _

/-- With sanitizing on, bytes that are not live are not looked at. -/
theorem sound_unread (hon : p.config.sanitizeMemory = true) (hhost : p.host.KeepsMemory) :
    unread.Sound p p.config where
  shares := by
    rintro s _ ⟨_, m', _, rfl⟩
    exact ⟨m', s.constants, rfl⟩
  reframe := by
    rintro s _ frames ⟨hs, m', hagrees, rfl⟩ _
    exact ⟨hs, m', hagrees, rfl⟩
  push := by
    rintro s _ fr ⟨hs, m', hagrees, rfl⟩ _
    exact ⟨hs, m', hagrees, rfl⟩
  prepare := by
    rintro s _ id ⟨hs, m', hagrees, rfl⟩
    exact ⟨hs, m', hagrees, rfl⟩
  intern := by
    rintro s _ id address ⟨hs, m', hagrees, rfl⟩ _
    exact ⟨hs, m', hagrees, rfl⟩
  unrefused := fun _ => trivial
  shared_within := fun _ _ => trivial
  excused_within := fun _ he => he.elim
  excused_leave := fun he _ => he.elim
  load := by
    rintro address ty s _ ⟨hs, m', hagrees, rfl⟩
    rw [Exec.load_eq_lift, Exec.load_eq_lift]
    dsimp only
    rw [hon, hagrees.load_eq hs]
    exact unread_lift ⟨hs, m', hagrees, rfl⟩ _
  store := by
    rintro address bytes s _ ⟨hs, m', hagrees, rfl⟩
    rw [Exec.storeBytes_eq_ite, Exec.storeBytes_eq_ite]
    dsimp only
    rw [hagrees.accessible_eq]
    split
    · have hput : (s.memory.put address bytes).Tidy := hs.of_size (Arena.size_write _ _ _)
      exact .ok _ ⟨hput, _, hagrees.put address bytes, rfl⟩
    · exact .error ⟨hs, m', hagrees, rfl⟩ trivial
  place := unread_place
  allocate := unread_allocate
  leave := unread_leave hhost.keepsExtent
  native := unread_native hhost
  depth := Nat.le_refl _
  overflow := fun _ _ => .inr ⟨rfl, trivial⟩
  cached := by
    rintro s _ id v ⟨_, m', _, rfl⟩ hv
    exact hv
  cache := by
    rintro s _ s' _ id c budget made _ _ _ _ ⟨hs', m', hagrees, rfl⟩
    exact ⟨hs', m', hagrees, rfl⟩
  remake := by
    rintro s _ id v ⟨_, m', _, rfl⟩ hmissing hcached
    rw [show s.constants.get? id = some v from hcached] at hmissing
    cases hmissing

end Coupling

end PackedIR
