/-
Settings that only refuse.

Two settings tell an interpreter to refuse something that it would do otherwise: the limit on the
call depth and the sanitizer. Under settings that refuse more, a run either does exactly what it
does under the others, down to the last byte of its state, or it ends in the refusal. Both runs
start from one state and stay in one state, so the coupling is equality; what has to be said is
only that the checks themselves agree or refuse.

A session is a list of calls from outside. Unless one of the answers is a refusal, the session has
the same answers and the same state under both settings.
-/
import PackedIR.Proofs.Sessions

set_option autoImplicit false

namespace PackedIR

variable {α : Type} {p : Program} {s t : State}

/-! ## Refusals -/

namespace Config

/-- The settings `c` refuse whatever `c'` refuse, and are the same otherwise. -/
structure Stricter (c c' : Config) : Prop where
  depth : c.maxCallDepth ≤ c'.maxCallDepth
  sanitize : c'.sanitizeMemory = true → c.sanitizeMemory = true
  globalInit : c'.runGlobalInit = c.runGlobalInit

/-- The failure is a refusal in which `c` and `c'` may differ. -/
def Refuses (c c' : Config) (e : Failure) : Prop :=
  match e.error? with
  | some (.stackOverflow _ _) => c.maxCallDepth ≠ c'.maxCallDepth
  | some (.invalidMemoryAccess _ _) => c.sanitizeMemory ≠ c'.sanitizeMemory
  | _ => False

end Config

/-- What a sanitizer allows is allowed without one too. -/
theorem Memory.accessible_of_sanitized {m : Memory} {address size : Nat} (sanitize : Bool)
    (h : m.accessible true address size = true) : m.accessible sanitize address size = true := by
  unfold accessible at h ⊢
  cases sanitize with
  | true => exact h
  | false =>
    simp only [Bool.or_eq_true, Bool.and_eq_true] at h ⊢
    rcases h with hzero | ⟨hnull, _⟩
    · exact .inl hzero
    · exact .inr ⟨hnull, .inl rfl⟩

/-! ## The coupling -/

/-- The run under `c` is compared with the run under `c'`. -/
def Coupling.limits (c c' : Config) : Coupling where
  rel := Eq
  shared _ := True
  excused e _ := c.Refuses c' e

namespace Coupling

variable {c c' : Config}

theorem Follows.refl (x : Exec α) : (limits c c').Follows x x := by
  rintro s _ rfl
  cases x s with
  | ok a t => exact .ok a rfl
  | error e t => exact .error rfl trivial

/-- Equal outcomes, or a refusal. -/
theorem matches_limits_iff {o o' : EStateM.Result Failure State α} :
    (limits c c').Matches o o' ↔ o' = o ∨ ∃ e t, o = .error e t ∧ c.Refuses c' e := by
  constructor
  · intro h
    cases h with
    | ok a hrel =>
      cases hrel
      exact .inl rfl
    | error hrel _ =>
      cases hrel
      exact .inl rfl
    | excused _ he => exact .inr ⟨_, _, rfl, he⟩
  · rintro (rfl | ⟨e, t, rfl, he⟩)
    · cases o' with
      | ok a t => exact .ok a rfl
      | error e t => exact .error rfl trivial
    · exact .excused _ he

/-- An access that is checked under both settings is checked alike, or refused. -/
theorem checkAccess_limits (h : p.config.Stricter c) (m : Memory) (address size : Nat) :
    m.checkAccess c.sanitizeMemory address size =
        m.checkAccess p.config.sanitizeMemory address size ∨
      m.checkAccess p.config.sanitizeMemory address size =
          .error (.of (.invalidMemoryAccess address size)) ∧
        p.config.sanitizeMemory ≠ c.sanitizeMemory := by
  cases hoff : c.sanitizeMemory with
  | true =>
    rw [h.sanitize hoff]
    exact .inl rfl
  | false =>
    cases hon : p.config.sanitizeMemory with
    | false => exact .inl rfl
    | true =>
      -- Only here do the settings differ: what the sanitizer allows is allowed anyway.
      unfold Memory.checkAccess
      by_cases hallowed : m.accessible true address size = true
      · left
        rw [if_pos hallowed, if_pos (Memory.accessible_of_sanitized false hallowed)]
      · right
        exact ⟨if_neg hallowed, by simp⟩

theorem limits_load (h : p.config.Stricter c) (address : Nat) (ty : Ty) :
    (limits p.config c).Follows (Exec.load p address ty) (Exec.load (p.under c) address ty) := by
  refine .get_bind ?_
  rintro s _ rfl
  unfold Memory.load
  rcases checkAccess_limits h s.memory address ty.size with hsame | ⟨hrefused, hne⟩
  · dsimp only
    rw [hsame]
    exact Follows.refl _ s s rfl
  · rw [hrefused]
    exact .excused _ hne

theorem limits_store (h : p.config.Stricter c) (address : Nat) (bytes : Bytes) :
    (limits p.config c).Follows (Exec.storeBytes p address bytes)
      (Exec.storeBytes (p.under c) address bytes) := by
  refine .get_bind ?_
  rintro s _ rfl
  rcases checkAccess_limits h s.memory address bytes.length with hsame | ⟨hrefused, hne⟩
  · dsimp only
    rw [hsame]
    exact Follows.refl _ s s rfl
  · rw [hrefused]
    exact .excused _ hne

theorem sound_limits (h : p.config.Stricter c) : (limits p.config c).Sound p c where
  shares := by
    rintro s _ rfl
    exact ⟨s.memory, s.constants, rfl⟩
  reframe := by
    rintro s _ frames rfl _
    rfl
  push := by
    rintro s _ fr rfl _
    rfl
  prepare := by
    rintro s _ id rfl
    rfl
  intern := by
    rintro s _ id address rfl _
    rfl
  unrefused := fun _ => trivial
  shared_within := fun _ _ => trivial
  excused_within := by
    intro e s ctx he
    change p.config.Refuses c (e.within ctx)
    unfold Config.Refuses
    rw [Failure.error?_within]
    exact he
  excused_leave := fun he _ => he
  load := limits_load h
  store := limits_store h
  place := fun _ _ => .refl _
  allocate := fun _ => .refl _
  leave := .refl _
  native := fun _ _ => .refl _
  depth := h.depth
  overflow := by
    rintro s _ rfl _
    by_cases hsame : c.maxCallDepth = p.config.maxCallDepth
    · exact .inr ⟨hsame, trivial⟩
    · exact .inl fun heq => hsame heq.symm
  cached := by
    rintro s _ id v rfl hv
    exact hv
  cache := by
    rintro s _ s' _ id c budget made rfl _ _ _ rfl
    rfl
  remake := by
    rintro s _ id v rfl hmissing hcached
    rw [hmissing] at hcached
    cases hcached

theorem lasting_limits (h : p.config.Stricter c) : (limits p.config c).Lasting p c where
  toSound := sound_limits h
  globalInit := h.globalInit
  register := by
    intro id g _
    refine (sound_limits h).registerGlobal ?_ id g
    rintro s _ globals rfl
    rfl
  route := by
    rintro s _ aliases rfl
    rfl
  ready := by
    rintro s _ rfl
    rfl

end Coupling

/-! ## Sessions -/

variable {c : Config}

/-- A command is obeyed alike under both settings, or refused under the stricter ones. -/
theorem obey_of_stricter (h : p.config.Stricter c) (hs : OwnsStack s) (command : Command) :
    command.obey (p.under c) s = command.obey p s ∨
      ∃ e t, command.obey p s = .error e t ∧ p.config.Refuses c e :=
  Coupling.matches_limits_iff.mp ((Coupling.lasting_limits h).obey hs rfl command)

/-- A session without refusals is the same under both settings. -/
theorem serve_of_stricter (h : p.config.Stricter c) (hs : OwnsStack s) (commands : List Command)
    (hanswers : ∀ e, .error e ∈ (serve p commands s).1 → ¬p.config.Refuses c e) :
    serve (p.under c) commands s = serve p commands s := by
  induction commands generalizing s with
  | nil => rfl
  | cons command commands ih =>
    have hmoved := command.obey_moves (p := p) s
    rcases obey_of_stricter h hs command with hsame | ⟨e, t, herror, hrefused⟩
    · -- The first command leaves one state for both, and the others go on from there.
      rw [serve] at hanswers ⊢
      rw [serve, hsame]
      cases hobey : command.obey p s with
      | ok a t =>
        rw [hobey] at hanswers
        rw [Exec.after_of_ok hobey] at hmoved
        have hrest := ih (hs.moves hmoved) fun e he => hanswers e (List.mem_cons_of_mem _ he)
        dsimp only
        rw [hrest]
      | error e t =>
        rw [hobey] at hanswers
        rw [Exec.after_of_error hobey] at hmoved
        cases e with
        | fault | outOfFuel => rfl
        | raised context cause =>
          have hrest := ih (hs.moves hmoved) fun e he => hanswers e (List.mem_cons_of_mem _ he)
          dsimp only
          rw [hrest]
    · -- A refusal would be among the answers.
      refine absurd hrefused (hanswers e ?_)
      rw [serve, herror]
      cases e with
      | fault | outOfFuel => exact List.mem_cons_self
      | raised context cause => exact List.mem_cons_self

end PackedIR
