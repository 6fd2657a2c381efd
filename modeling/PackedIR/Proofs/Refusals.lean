/-
What a refusal says.

A run is coupled with itself, and an invariant of its memory and its depth goes along. Nothing can
be learned about values that way, but about failures: each of them is ordinary, or it comes from
the check at hand and says what the check has found. Two invariants are watched. With the number
of frames within the limit, a call is refused exactly one frame above the limit. With the maps of
storage in order, an access is refused only when it is not inside one live allocation.
-/
import PackedIR.Proofs.Sessions
import PackedIR.Proofs.Storage

set_option autoImplicit false

namespace PackedIR

variable {α β : Type} {p : Program} {s t : State}

/-! ## Computations without refusals -/

namespace Exec

/-- No failure of the computation is a refusal. -/
def Quiet (x : Exec α) : Prop := ∀ s e t, x s = .error e t → e.isRefusal = false

theorem Quiet.bind {x : Exec α} {f : α → Exec β} (hx : Quiet x) (hf : ∀ a, Quiet (f a)) :
    Quiet (x >>= f) := by
  intro s e t h
  rcases bind_eq_error_iff.mp h with h | ⟨a, u, _, h⟩
  · exact hx s e t h
  · exact hf a u e t h

theorem quiet_lift (r : Result α) [hr : Plain r] : Quiet (liftM r : Exec α) :=
  fun _ _ _ h => hr.not_refusal (lift_eq_error_iff.mp h).1

theorem quiet_liftFault (r : Except Fault α) : Quiet (liftM r : Exec α) := by
  intro s e t h
  cases r with
  | ok a => cases h
  | error f =>
    cases h
    rfl

theorem quiet_of_total {x : Exec α} (h : ∀ s, ∃ a t, x s = .ok a t) : Quiet x := by
  intro s e t herror
  obtain ⟨a, u, hok⟩ := h s
  rw [hok] at herror
  cases herror

theorem quiet_get : Quiet (get : Exec State) := quiet_of_total fun s => ⟨s, s, rfl⟩

theorem quiet_pure (a : α) : Quiet (pure a : Exec α) := quiet_of_total fun s => ⟨a, s, rfl⟩

theorem quiet_modify (g : State → State) : Quiet (modify g : Exec PUnit) :=
  quiet_of_total fun _ => ⟨_, _, rfl⟩

theorem quiet_throw {e : Failure} (he : e.isRefusal = false) : Quiet (throw e : Exec α) := by
  rintro s _ t ⟨⟩
  exact he

theorem quiet_frame : Quiet frame := by
  refine quiet_get.bind fun s => ?_
  split
  · exact quiet_pure _
  · exact quiet_throw rfl

theorem quiet_findRoom (size : Nat) : Quiet (findRoom p size) := by
  refine quiet_get.bind fun s => ?_
  split
  · exact quiet_pure _
  · exact quiet_throw rfl

theorem quiet_allocStatic (kind : AllocKind) (bytes : Bytes) : Quiet (allocStatic p kind bytes) := by
  unfold allocStatic
  split
  · exact quiet_pure _
  · exact (quiet_findRoom _).bind fun _ => quiet_get.bind fun _ => (quiet_liftFault _).bind fun _ =>
      (quiet_modify _).bind fun _ => quiet_pure _

theorem quiet_allocFrame (size : Nat) : Quiet (allocFrame p size) :=
  quiet_frame.bind fun _ => (quiet_findRoom size).bind fun _ => quiet_get.bind fun _ =>
    (quiet_liftFault _).bind fun _ => (quiet_modify _).bind fun _ => (quiet_modify _).bind fun _ =>
      quiet_pure _

theorem quiet_popFrame : Quiet popFrame := by
  refine quiet_get.bind fun s => ?_
  split
  · exact quiet_get.bind fun _ => (quiet_liftFault _).bind fun _ => quiet_modify _
  · exact quiet_throw rfl

theorem quiet_callNative (callee : Callee) (args : List Value) :
    Quiet (callNative p callee args) :=
  (quiet_lift _).bind fun _ => (quiet_of_total fun _ => ⟨_, _, rfl⟩).bind fun _ => quiet_lift _

theorem allocFrame_moves {size : Nat} (hpos : 0 < size) : Along (Moves p) (allocFrame p size) :=
  allocFrame_along fun hfr hroom hrecorded => .allocates (.intro hfr hpos hroom hrecorded)

/-! ## Checked accesses -/

/-- A load that fails has been refused, or has another cause. -/
theorem load_failure {address : Nat} {ty : Ty} {e : Failure} (h : load p address ty s = .error e t) :
    e.isOrdinary = true ∨ e = .of (.invalidMemoryAccess address ty.size) ∧ t = s ∧
      s.memory.accessible p.config.sanitizeMemory address ty.size = false := by
  unfold load Memory.load Memory.checkAccess at h
  rw [bind_of_ok (get_apply s)] at h
  by_cases hallowed : s.memory.accessible p.config.sanitizeMemory address ty.size = true
  · rw [if_pos hallowed] at h
    exact .inl (Plain.ordinary e (lift_eq_error_iff.mp h).1)
  · rw [if_neg hallowed] at h
    cases h
    exact .inr ⟨rfl, rfl, by simpa using hallowed⟩

theorem storeBytes_failure {address : Nat} {bytes : Bytes} {e : Failure}
    (h : storeBytes p address bytes s = .error e t) :
    e = .of (.invalidMemoryAccess address bytes.length) ∧ t = s ∧
      s.memory.accessible p.config.sanitizeMemory address bytes.length = false := by
  unfold storeBytes Memory.checkAccess at h
  rw [bind_of_ok (get_apply s)] at h
  by_cases hallowed : s.memory.accessible p.config.sanitizeMemory address bytes.length = true
  · rw [if_pos hallowed, bind_of_ok (lift_ok _ _)] at h
    cases h
  · rw [if_neg hallowed] at h
    cases h
    exact ⟨rfl, rfl, by simpa using hallowed⟩

end Exec

/-! ## Watching a run -/

/-- An invariant of memory and depth, and what it says about failures. -/
structure Watch where
  holds : Memory → Nat → Prop
  /-- A failure without a message for the watch. -/
  shared : Failure → Prop
  /-- A failure in a state, from the check that is watched. -/
  reported : Failure → State → Prop

namespace Watch

/-- The run is compared with itself. -/
def coupling (w : Watch) : Coupling where
  rel s t := s = t ∧ w.holds s.memory s.frames.length
  shared := w.shared
  excused := w.reported

/-- The watch is kept up along every run of the program. -/
structure Kept (w : Watch) (p : Program) : Prop where
  moves : ∀ {s t : State}, Moves p s t → w.holds s.memory s.frames.length →
    w.holds t.memory t.frames.length
  push : ∀ {m : Memory} {n : Nat}, w.holds m n → n < p.config.maxCallDepth → w.holds m (n + 1)
  ordinary : ∀ {e : Failure}, e.isRefusal = false → w.shared e
  shared_within : ∀ {e : Failure} (c : Context), w.shared e → w.shared (e.within c)
  reported_within : ∀ {e : Failure} {s : State} (c : Context), w.reported e s →
    w.reported (e.within c) s
  reported_leave : ∀ {e : Failure} {s t : State}, w.reported e s → Leaves s t → w.reported e t
  access : ∀ {s : State} (address size : Nat), w.holds s.memory s.frames.length →
    s.memory.accessible p.config.sanitizeMemory address size = false →
    let e := Failure.of (.invalidMemoryAccess address size)
    w.reported e s ∨ w.shared e
  overflow : ∀ {s : State}, w.holds s.memory s.frames.length →
    p.config.maxCallDepth ≤ s.frames.length →
    let e := Failure.of (.stackOverflow (s.frames.length + 1) p.config.maxCallDepth)
    w.reported e s ∨ w.shared e

namespace Kept

variable {w : Watch} (h : w.Kept p)

include h

theorem follows {x : Exec α} (hmoves : Exec.Along (Moves p) x)
    (hfails : ∀ s e t, w.holds s.memory s.frames.length → x s = .error e t →
      w.reported e t ∨ w.shared e) : w.coupling.Follows x x := by
  rintro s _ ⟨rfl, hs⟩
  have hafter := h.moves (hmoves s) hs
  cases hx : x s with
  | ok a t =>
    rw [Exec.after_of_ok hx] at hafter
    exact .ok a ⟨rfl, hafter⟩
  | error e t =>
    rw [Exec.after_of_error hx] at hafter
    rcases hfails s e t hs hx with hreported | hshared
    · exact .excused _ hreported
    · exact .error ⟨rfl, hafter⟩ hshared

theorem follows_quiet {x : Exec α} (hmoves : Exec.Along (Moves p) x) (hquiet : Exec.Quiet x) :
    w.coupling.Follows x x :=
  h.follows hmoves fun s e t _ hx => .inr (h.ordinary (hquiet s e t hx))

theorem sound : w.coupling.Sound p p.config where
  shares := by
    rintro s _ ⟨rfl, _⟩
    exact ⟨s.memory, s.constants, rfl⟩
  reframe := by
    rintro s _ frames ⟨rfl, hs⟩ hlen
    refine ⟨rfl, ?_⟩
    dsimp only
    rw [hlen]
    exact hs
  push := by
    rintro s _ fr ⟨rfl, hs⟩ hroom
    exact ⟨rfl, h.push hs hroom⟩
  prepare := by
    rintro s _ id ⟨rfl, hs⟩
    exact ⟨rfl, hs⟩
  intern := by
    rintro s _ id address ⟨rfl, hs⟩ _
    exact ⟨rfl, hs⟩
  unrefused := h.ordinary
  shared_within := h.shared_within
  excused_within := h.reported_within
  excused_leave := h.reported_leave
  load := by
    intro address ty
    refine h.follows (Exec.reads_load p address ty).along fun s e t hs hx => ?_
    rcases Exec.load_failure hx with hplain | ⟨rfl, rfl, hrefused⟩
    · exact .inr (h.ordinary (Failure.isRefusal_of_isOrdinary hplain))
    · exact h.access address ty.size hs hrefused
  store := by
    intro address bytes
    refine h.follows ?_ fun s e t hs hx => ?_
    · exact (Exec.storeBytes_effects address bytes).mono fun _ _ => .effects
    · obtain ⟨rfl, rfl, hrefused⟩ := Exec.storeBytes_failure hx
      exact h.access address bytes.length hs hrefused
  place := by
    intro kind bytes
    refine h.follows_quiet ?_ (Exec.quiet_allocStatic kind bytes)
    exact (Exec.allocStatic_makes kind bytes).mono fun _ _ => .of_makes
  allocate := fun hpos => h.follows_quiet (Exec.allocFrame_moves hpos) (Exec.quiet_allocFrame _)
  leave := h.follows_quiet Exec.popFrame_moves Exec.quiet_popFrame
  native := by
    intro callee args
    refine h.follows_quiet ?_ (Exec.quiet_callNative callee args)
    exact (Exec.callNative_effects callee args).mono fun _ _ => .effects
  depth := Nat.le_refl _
  overflow := by
    rintro s _ ⟨rfl, hs⟩ hfull
    rcases h.overflow hs hfull with hreported | hshared
    · exact .inl hreported
    · exact .inr ⟨rfl, hshared⟩
  cached := by
    rintro s _ id v ⟨rfl, _⟩ hv
    exact hv
  cache := by
    rintro s _ s' _ id c budget made _ _ _ _ ⟨rfl, hs'⟩
    exact ⟨rfl, hs'⟩
  remake := by
    rintro s _ id v ⟨rfl, _⟩ hmissing hcached
    rw [hmissing] at hcached
    cases hcached

theorem lasting : w.coupling.Lasting p p.config where
  toSound := h.sound
  globalInit := rfl
  register := by
    intro id g _
    refine h.sound.registerGlobal ?_ id g
    rintro s _ globals ⟨rfl, hs⟩
    exact ⟨rfl, hs⟩
  route := by
    rintro s _ aliases ⟨rfl, hs⟩
    exact ⟨rfl, hs⟩
  ready := by
    rintro s _ ⟨rfl, hs⟩
    exact ⟨rfl, hs⟩

end Kept

end Watch

end PackedIR
