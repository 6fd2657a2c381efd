/-
What it means that a session is set up.

Setting up registers every global and then runs the module's global initializer, and it is done
once: a session that has got as far as the initializer is never set up again. Up to there a failure
leaves everything to be done, and the next attempt does all of it. A failure of the initializer
itself is reported once. Later attempts find the session set up and succeed, though no run of the
initializer has come to its end.

The history of a session is the list of what its attempts came to. Whatever else happened in
between, at most one of them has reached the initializer, and exactly one if one has succeeded.
-/
import PackedIR.Proofs.Registration

set_option autoImplicit false

namespace PackedIR

open Exec

variable {p : Program} {s t : State} {fuel : Nat}

/-! ## Attempts -/

/-- The function that setting up ends with, if there is one and the configuration asks for it. -/
def Program.initializer? (p : Program) : Option FuncId :=
  if p.config.runGlobalInit then p.module.globalInit else none

/-- What an attempt to set up comes to. -/
inductive Stage where
  /-- The session was set up before, and nothing was done. -/
  | skipped
  /-- The attempt has failed before the initializer. -/
  | stopped
  /-- The initializer has failed. -/
  | broke
  /-- Everything was done, and the initializer, if there is one, has come to its end. -/
  | done
deriving DecidableEq, Repr

/-- What an attempt in the state `s` comes to. -/
def Stage.of (p : Program) (fuel : Nat) (s : State) : Stage :=
  if s.initialized then .skipped
  else match prepare p s with
    | .error _ _ => .stopped
    | .ok _ t => match p.initializer? with
      | none => .done
      | some init => match runFunction p fuel init [] t with
        | .ok _ _ => .done
        | .error _ _ => .broke

/-- How the stage shows in the outcome of the attempt. -/
inductive Stage.Outcome (p : Program) (fuel : Nat) (s : State) : Stage → Prop where
  | skipped (before : s.initialized = true) (outcome : setUp p fuel s = .ok () s) :
      Outcome p fuel s .skipped
  | stopped {e : Failure} {t : State} (first : s.initialized = false)
      (prepared : prepare p s = .error e t) (outcome : setUp p fuel s = .error e t) :
      Outcome p fuel s .stopped
  | broke {init : FuncId} {e : Failure} {t u : State} (first : s.initialized = false)
      (prepared : prepare p s = .ok () t) (last : p.initializer? = some init)
      (ran : runFunction p fuel init [] t = .error e u)
      (outcome : setUp p fuel s = .error (e.within .runningGlobalInit) u) :
      Outcome p fuel s .broke
  | done {t u : State} (first : s.initialized = false) (prepared : prepare p s = .ok () t)
      (last : ∀ init, p.initializer? = some init → ∃ v, runFunction p fuel init [] t = .ok v u)
      (otherwise : p.initializer? = none → u = t) (outcome : setUp p fuel s = .ok () u) :
      Outcome p fuel s .done

namespace Exec

theorem runGlobalInit_eq (fuel : Nat) : runGlobalInit p fuel = match p.initializer? with
    | some init => do let _ ← within .runningGlobalInit (runFunction p fuel init [])
    | none => return := by
  unfold runGlobalInit Program.initializer?
  by_cases hasked : p.config.runGlobalInit = true
  · cases p.module.globalInit with
    | some | none => simp only [if_pos hasked]
  · simp only [if_neg hasked]

end Exec

theorem Stage.outcome (p : Program) (fuel : Nat) (s : State) :
    Stage.Outcome p fuel s (Stage.of p fuel s) := by
  unfold Stage.of
  by_cases hbefore : s.initialized = true
  · rw [if_pos hbefore]
    exact .skipped hbefore (setUp_of_initialized fuel hbefore)
  · rw [if_neg hbefore]
    have hfirst : s.initialized = false := by simpa using hbefore
    have hsetUp := setUp_of_fresh (p := p) fuel hbefore
    rw [bind_apply] at hsetUp
    cases hprepare : prepare p s with
    | error e t =>
      rw [hprepare] at hsetUp
      exact .stopped hfirst hprepare hsetUp
    | ok _ t =>
      rw [hprepare] at hsetUp
      dsimp only at hsetUp
      rw [runGlobalInit_eq] at hsetUp
      cases hlast : p.initializer? with
      | none =>
        rw [hlast] at hsetUp
        exact .done hfirst hprepare (by simp [hlast]) (fun _ => rfl) hsetUp
      | some init =>
        rw [hlast] at hsetUp
        dsimp only at hsetUp
        rw [bind_apply, within] at hsetUp
        dsimp only
        cases hran : runFunction p fuel init [] t with
        | ok v u =>
          rw [hran] at hsetUp
          refine .done hfirst hprepare (fun init' hinit' => ?_) (by simp [hlast]) hsetUp
          rw [hlast] at hinit'
          cases hinit'
          exact ⟨v, hran⟩
        | error e u =>
          rw [hran] at hsetUp
          exact .broke hfirst hprepare hlast hran hsetUp

/-! ## Registering every global -/

/-- Every global of the module is registered. -/
def State.RegistersAll (s : State) (m : Module) : Prop :=
  ∀ id g, m.global id = .ok g → ∃ reference, s.globals.get? id = some reference

/-- A key that a table has is still there when the table has grown. -/
theorem Table.exists_get?_of_suffix {κ β : Type} [DecidableEq κ] {k k' : Table κ β} {key : κ}
    {a : β} (h : k.get? key = some a) (hsuffix : k.entries <:+ k'.entries) :
    ∃ b, k'.get? key = some b := by
  obtain ⟨front, hfront⟩ := hsuffix
  unfold get? at h ⊢
  rw [← hfront]
  clear hfront
  induction front with
  | nil => exact ⟨a, h⟩
  | cons entry front ih =>
    obtain ⟨key', b⟩ := entry
    rw [List.cons_append, List.lookup_cons]
    cases key == key' with
    | true => exact ⟨b, rfl⟩
    | false => exact ih

theorem State.RegistersAll.moves {m : Module} (h : s.RegistersAll m) (hst : Moves p s t) :
    t.RegistersAll m := by
  intro id g hg
  obtain ⟨reference, hreference⟩ := h id g hg
  exact Table.exists_get?_of_suffix hreference hst.globals_suffix

namespace Exec

/-- A global that has been registered is in the table. -/
theorem get?_of_registerGlobal {id : GlobalId} {g : Global}
    (h : registerGlobal p id g s = .ok () t) : ∃ reference, t.globals.get? id = some reference := by
  obtain ⟨address, u, _, hfill⟩ := bind_eq_ok_iff.mp h
  -- However the global is filled, it is registered afterwards.
  have registered {w : State} (reference : Value)
      (hw : (modify fun s => { s with globals := s.globals.insert id reference } : Exec Unit) w =
        .ok () t) : ∃ reference, t.globals.get? id = some reference := by
    cases hw
    exact ⟨reference, Table.get?_insert_self _ _ _⟩
  cases hinit : g.init with
  | none =>
    rw [hinit] at hfill
    exact registered _ hfill
  | some init =>
    rw [hinit] at hfill
    obtain ⟨v, _, _, hfill⟩ := bind_eq_ok_iff.mp hfill
    obtain ⟨_, _, _, hfill⟩ := bind_eq_ok_iff.mp hfill
    obtain ⟨_, _, _, hfill⟩ := bind_eq_ok_iff.mp hfill
    exact registered _ hfill

theorem get?_of_registerGlobals {index : Nat} {gs : List Global}
    (h : registerGlobals p index gs s = .ok () t) :
    ∀ k, k < gs.length → ∃ reference, t.globals.get? ⟨index + k⟩ = some reference := by
  induction gs generalizing index s with
  | nil =>
    intro k hk
    cases hk
  | cons g gs ih =>
    obtain ⟨_, u, hfirst, hrest⟩ := bind_eq_ok_iff.mp h
    intro k hk
    cases k with
    | zero =>
      -- The others leave the first one in the table.
      obtain ⟨reference, hreference⟩ := get?_of_registerGlobal hfirst
      have hsuffix := ((registerGlobals_prepares _ _).of_ok hrest).globals_suffix
      exact Table.exists_get?_of_suffix hreference hsuffix
    | succ k =>
      have hlater := ih hrest k (Nat.lt_of_succ_lt_succ hk)
      rwa [show index + 1 + k = index + (k + 1) by omega] at hlater

/-- What has to be done before a session counts as set up. -/
def registerAll (p : Program) : Exec Unit := do
  placeStrings p 0 p.module.strings.size
  registerGlobals p 0 p.module.globals.toList
  registerAliases p

theorem prepare_eq : prepare p = registerAll p >>= fun _ =>
    modify fun s => { s with initialized := true } := by
  unfold prepare registerAll
  simp only [bind_assoc]

theorem registersAll_of_prepare (h : prepare p s = .ok () t) : t.RegistersAll p.module := by
  obtain ⟨_, u, _, hrest⟩ := bind_eq_ok_iff.mp h
  obtain ⟨_, w, hglobals, hrest⟩ := bind_eq_ok_iff.mp hrest
  intro id g hg
  have hindex : id.index < p.module.globals.toList.length := by
    rw [Array.length_toList]
    exact (Array.getElem?_eq_some_iff.mp (orMissing_eq_ok_iff.mp hg)).1
  obtain ⟨reference, hreference⟩ := get?_of_registerGlobals hglobals id.index hindex
  rw [Nat.zero_add] at hreference
  refine Table.exists_get?_of_suffix hreference (Prepares.globals_suffix (p := p) ?_)
  refine Along.of_ok (registerAliases_prepares.bind fun _ => ?_) hrest
  exact fun _ => .ready

/-! ## Readiness -/

end Exec

/-- A session that has been set up still has, and one that has not still has not. -/
def SameReadiness (s t : State) : Prop := t.initialized = s.initialized

namespace SameReadiness

instance : Std.Refl SameReadiness := ⟨fun _ => rfl⟩

instance : IsTrans State SameReadiness := ⟨fun _ _ _ h h' => h'.trans h⟩

theorem of_makes (h : Makes p s t) : SameReadiness s t := by
  induction h with
  | refl | place | intern | prepare => rfl
  | trans _ _ ih₁ ih₂ => exact trans_of SameReadiness ih₁ ih₂
  | make _ _ _ _ _ _ ih => exact ih

end SameReadiness

namespace Exec

theorem registerGlobal_readiness (id : GlobalId) (g : Global) :
    Along SameReadiness (registerGlobal p id g) := by
  have hplace : Along SameReadiness (allocStatic p .global (List.replicate g.ty.size 0)) :=
    (allocStatic_retains _ _).mono fun _ _ h => h.initialized
  refine hplace.bind fun address => ?_
  cases g.init with
  | none => exact fun _ => rfl
  | some init =>
    have hinit : Along SameReadiness (within (.initializingGlobal g.name) (constOperand p init)) := by
      intro s
      rw [after_within]
      exact .of_makes (constOperand_makes init s)
    have hstore (v : Value) : Along SameReadiness (storeBytes p address v.bytes) :=
      (storeBytes_retains _ _).mono fun _ _ h => h.initialized
    exact hinit.bind fun v => (reads_lift _).along.bind fun _ => (hstore v).bind fun _ _ => rfl

theorem registerAll_readiness : Along SameReadiness (registerAll p) := by
  have hstrings : Along SameReadiness (placeStrings p 0 p.module.strings.size) :=
    (placeStrings_makes _ _).mono fun _ _ => .of_makes
  have hglobals (index : Nat) (gs : List Global) :
      Along SameReadiness (registerGlobals p index gs) := by
    induction gs generalizing index with
    | nil => exact (reads_pure ()).along
    | cons g gs ih => exact (registerGlobal_readiness _ g).bind fun _ => ih _
  refine hstrings.bind fun _ => (hglobals _ _).bind fun _ => ?_
  exact reads_get.along.bind fun _ => (reads_liftFault _).along.bind fun _ => fun _ => rfl

/-- A session counts as set up once all has been done that comes before the initializer, and not
earlier. -/
theorem initialized_of_prepare (h : prepare p s = .ok () t) : t.initialized = true := by
  rw [prepare_eq] at h
  obtain ⟨_, u, _, hready⟩ := bind_eq_ok_iff.mp h
  cases hready
  rfl

theorem initialized_of_prepare_error {e : Failure} (h : prepare p s = .error e t) :
    t.initialized = s.initialized := by
  rw [prepare_eq] at h
  rcases bind_eq_error_iff.mp h with h | ⟨_, _, _, h⟩
  · have hready := registerAll_readiness (p := p) s
    rwa [after_of_error h] at hready
  · cases h

/-- Runs do not set a session up. -/
theorem invariant_readiness (b : Bool) : Invariant p fun s => s.initialized = b where
  retain hs _ _ hinitialized _ := hinitialized.trans hs
  make _ _ _ ht := ht

end Exec

theorem Idle.runFunction_initialized (hs : Idle p s) (fuel : Nat) (id : FuncId)
    (args : List Value) : ((runFunction p fuel id args).after s).initialized = s.initialized := by
  have hordered := (invariant_registered.reachable_rel registered_fresh (.idle hs)).2.1
  have hrel : (Coupling.keeping fun t => t.initialized = s.initialized).rel s s :=
    ⟨rfl, hordered, rfl⟩
  have hmatches := (invariant_readiness (p := p) s.initialized).sound.runFunction
    (OwnsStack.fresh.moves hs.moves) hrel fuel id args
  exact (Coupling.rel_of_keeping_matches hmatches).2.2

/-! ## Histories -/

/-- The attempts to set up that a command makes. -/
def Command.stages (p : Program) (s : State) : Command → List Stage
  | .setUp fuel => [.of p fuel s]
  | _ => []

/-- The session has obeyed commands up to the state, and its attempts to set up have come to what
the list says, the latest first. -/
inductive Recorded (p : Program) : List Stage → State → Prop where
  | fresh : Recorded p [] {}
  | obeyed {log : List Stage} {s t : State} (c : Command) : Recorded p log s →
      Ends (c.obey p) s t → Recorded p (c.stages p s ++ log) t

/-- A command that is no attempt to set up keeps every invariant. -/
theorem Invariant.obeyed {K : State → Prop} (h : Invariant p K) (hs : Idle p s) (hK : K s)
    {c : Command} (hstages : c.stages p s = []) : K ((c.obey p).after s) := by
  have hordered := (invariant_registered.reachable_rel registered_fresh (.idle hs)).2.1
  have hrel : (Coupling.keeping K).rel s s := ⟨rfl, hordered, hK⟩
  have howns := OwnsStack.fresh.moves hs.moves
  have hrun (fuel : Nat) (id : FuncId) (args : List Value) :
      K ((runFunction p fuel id args).after s) :=
    (Coupling.rel_of_keeping_matches (h.sound.runFunction howns hrel fuel id args)).2.2
  cases c with
  | setUp fuel => cases hstages
  | compile id =>
    unfold Command.obey
    rw [after_bind_reads fun _ => reads_pure _]
    exact (Coupling.rel_of_keeping_matches (h.sound.compileFunction id s s hrel)).2.2
  | run fuel id args =>
    unfold Command.obey
    rw [after_bind_reads fun _ => reads_pure _]
    exact hrun fuel id args
  | runByName fuel name args =>
    unfold Command.obey
    rw [after_bind_reads fun _ => reads_pure _]
    unfold runFunctionByName
    cases p.module.functionByName? name with
    | some id => exact hrun fuel id args
    | none => exact hK
  | globalAddress id =>
    unfold Command.obey
    rw [after_bind_reads fun _ => reads_pure _, ← globalAddress_reads id s]
    exact hK
  | globalValue id =>
    unfold Command.obey
    rw [after_bind_reads fun _ => reads_pure _, ← globalValue_reads id s]
    exact hK

/-- Only an attempt to set a session up can do so. -/
theorem Idle.obey_initialized {c : Command} (hs : Idle p s) (hstages : c.stages p s = []) :
    ((c.obey p).after s).initialized = s.initialized :=
  (invariant_readiness s.initialized).obeyed hs rfl hstages

/-- How many attempts have got as far as the initializer. -/
def reached (log : List Stage) : Nat := log.count .done + log.count .broke

/-- What a history says of the state. -/
structure Tally (p : Program) (log : List Stage) (s : State) : Prop where
  reached : reached log = if s.initialized then 1 else 0
  registered : s.initialized = true → s.RegistersAll p.module
  initializer : .broke ∈ log → ∃ init, p.initializer? = some init

/-- The initializer finds everything registered, and leaves it so. -/
theorem Idle.registersAll_of_run (hs : Idle p s) (h : prepare p s = .ok () t) (fuel : Nat)
    (init : FuncId) :
    ((runFunction p fuel init []).after t).initialized = true ∧
      ((runFunction p fuel init []).after t).RegistersAll p.module := by
  refine ⟨?_, (registersAll_of_prepare h).moves (runFunction_moves fuel init [] t)⟩
  rw [(Idle.prepared hs h).runFunction_initialized, initialized_of_prepare h]

/-- Only the first attempt that gets as far as the initializer counts. -/
theorem Tally.setUp {log : List Stage} (h : Tally p log s) (hs : Idle p s) (fuel : Nat) :
    Tally p (Stage.of p fuel s :: log) ((setUp p fuel).after s) := by
  have houtcome := Stage.outcome p fuel s
  -- An attempt that has got there was made in a session that had not been set up.
  have first (hfirst : s.initialized = false) : PackedIR.reached log = 0 := by
    rw [h.reached, hfirst]
    rfl
  generalize Stage.of p fuel s = stage at houtcome
  cases houtcome with
  | skipped hbefore hsetUp =>
    rw [after_of_ok hsetUp]
    refine ⟨?_, h.registered, fun hbroke => h.initializer (by simpa using hbroke)⟩
    rw [← h.reached]
    simp [PackedIR.reached]
  | @stopped e t hfirst hprepare hsetUp =>
    rw [after_of_error hsetUp]
    have ht : t.initialized = false := (initialized_of_prepare_error hprepare).trans hfirst
    refine ⟨?_, by simp [ht], fun hbroke => h.initializer (by simpa using hbroke)⟩
    rw [ht, ← first hfirst]
    simp [PackedIR.reached]
  | @broke init e t u hfirst hprepare hlast hran hsetUp =>
    rw [after_of_error hsetUp]
    obtain ⟨hready, hall⟩ := hs.registersAll_of_run hprepare fuel init
    rw [after_of_error hran] at hready hall
    refine ⟨?_, fun _ => hall, fun _ => ⟨init, hlast⟩⟩
    have hzero := first hfirst
    unfold PackedIR.reached at hzero ⊢
    rw [hready, List.count_cons_self, List.count_cons_of_ne (by simp)]
    simp only [if_true]
    omega
  | @done t u hfirst hprepare hlast hnone hsetUp =>
    rw [after_of_ok hsetUp]
    have hdone : u.initialized = true ∧ u.RegistersAll p.module := by
      cases hinit : p.initializer? with
      | none =>
        rw [hnone hinit]
        exact ⟨initialized_of_prepare hprepare, registersAll_of_prepare hprepare⟩
      | some init =>
        obtain ⟨v, hran⟩ := hlast init hinit
        have hrun := hs.registersAll_of_run hprepare fuel init
        rwa [after_of_ok hran] at hrun
    refine ⟨?_, fun _ => hdone.2, fun hbroke => h.initializer (by simpa using hbroke)⟩
    have hzero := first hfirst
    unfold PackedIR.reached at hzero ⊢
    rw [hdone.1, List.count_cons_self, List.count_cons_of_ne (by simp)]
    simp only [if_true]
    omega

theorem Recorded.idle {log : List Stage} (h : Recorded p log s) : Idle p s := by
  induction h with
  | fresh => exact .fresh
  | obeyed c _ hends ih => exact ih.obeyed hends

/-- The history and the state agree at all times. -/
theorem Recorded.tally {log : List Stage} (h : Recorded p log s) : Tally p log s := by
  induction h with
  | fresh => exact ⟨rfl, by simp, by simp⟩
  | @obeyed log s t c hs hends ih =>
    have hidle := hs.idle
    rw [← hends.after_eq]
    by_cases hstages : c.stages p s = []
    · rw [hstages, List.nil_append]
      have hready := hidle.obey_initialized hstages
      refine ⟨?_, fun hinit => ?_, ih.initializer⟩
      · rw [hready]
        exact ih.reached
      · rw [hready] at hinit
        exact (ih.registered hinit).moves (c.obey_moves s)
    · cases c with
      | setUp fuel =>
        unfold Command.obey
        rw [after_bind_reads fun _ => reads_pure _]
        exact ih.setUp hidle fuel
      | _ => exact absurd rfl hstages

/-- What success of setting up means. All globals are registered. Of all attempts so far, this one
included, exactly one has got as far as the initializer, and if the initializer has not failed
there, it has come to its end exactly once. If it has, nothing is done any more: it has never come
to its end, and the attempt succeeds nevertheless. -/
theorem setUp_succeeds_once {log : List Stage} (h : Recorded p log s)
    (hok : setUp p fuel s = .ok () t) :
    (∀ u fuel, Stage.Outcome p fuel u (Stage.of p fuel u)) ∧
    t.RegistersAll p.module ∧ t.initialized = true ∧
    reached (Stage.of p fuel s :: log) = 1 ∧
    (.broke ∉ log → (Stage.of p fuel s :: log).count .done = 1) ∧
    (.broke ∈ log → (Stage.of p fuel s :: log).count .done = 0 ∧ t = s) ∧
    (p.initializer? = none → .broke ∉ log) := by
  have htally := h.tally.setUp h.idle fuel
  rw [after_of_ok hok] at htally
  have houtcome := Stage.outcome p fuel s
  have hreached := htally.reached
  -- An attempt that succeeds is the first one to get there, or comes after it.
  have hready : t.initialized = true ∧ Stage.of p fuel s ≠ .broke ∧
      (Stage.of p fuel s = .done ∨ t = s) := by
    generalize Stage.of p fuel s = stage at houtcome hreached
    cases houtcome with
    | skipped hbefore hsetUp =>
      rw [hok] at hsetUp
      cases hsetUp
      exact ⟨hbefore, by simp, .inr rfl⟩
    | stopped _ _ hsetUp | broke _ _ _ _ hsetUp =>
      rw [hok] at hsetUp
      cases hsetUp
    | done =>
      refine ⟨?_, by simp, .inl rfl⟩
      by_cases hinit : t.initialized = true
      · exact hinit
      · rw [if_neg hinit, reached, List.count_cons_self] at hreached
        omega
  obtain ⟨hinit, hbroke, hlast⟩ := hready
  have hone : reached (Stage.of p fuel s :: log) = 1 := by rw [hreached, if_pos hinit]
  have hcount := hone
  rw [reached, List.count_cons_of_ne hbroke] at hcount
  refine ⟨fun u fuel => Stage.outcome p fuel u, htally.registered hinit, hinit, hone,
    fun hnone => ?_, fun hsome => ?_, fun hnone hsome => ?_⟩
  · rw [List.count_eq_zero_of_not_mem hnone] at hcount
    exact hcount
  · have hpos := List.count_pos_iff.mpr hsome
    refine ⟨by omega, hlast.resolve_left fun hdone => ?_⟩
    rw [hdone, List.count_cons_self] at hcount
    omega
  · obtain ⟨init, hinit⟩ := h.tally.initializer hsome
    rw [hnone] at hinit
    cases hinit

/-! ## Two initializers -/

namespace Initializing

/-- A function without parameters or result, whose only instruction is the given one. -/
def single (op : Opcode) : Function where
  name := "init"
  ty := .function [] .void false
  locals := #[]
  blocks := #[⟨"entry", #[⟨op, [], none⟩]⟩]

/-- A program with one global variable, which is set up by the given function. -/
def program (init : Function) : Program where
  module :=
    { name := "initializing"
      functions := #[init]
      globals := #[⟨"g", Ty.u8, none⟩]
      globalInit := some ⟨0⟩ }

/-- The state after one attempt. -/
def after (init : Function) : State := (setUp (program init) 9).after {}

end Initializing

/-- An initializer that returns has come to its end once when the session is set up. -/
theorem setUp_succeeds_once_initializing :
    (Initializing.after (Initializing.single .ret)).RegistersAll
        (Initializing.program (Initializing.single .ret)).module ∧
      [Stage.of (Initializing.program (Initializing.single .ret)) 9 {}].count .done = 1 := by
  have hok : setUp (Initializing.program (Initializing.single .ret)) 9 {} =
      .ok () (Initializing.after (Initializing.single .ret)) := eq_ok_of_result? (by decide +kernel)
  obtain ⟨_, hall, _, _, hdone, _⟩ := setUp_succeeds_once .fresh hok
  exact ⟨hall, hdone (by simp)⟩

/-- An initializer that fails is not run again: the next attempt succeeds without it. -/
theorem setUp_succeeds_without_initializer :
    (Initializing.program (Initializing.single .unreachable)).initializer? = some ⟨0⟩ ∧
    Recorded (Initializing.program (Initializing.single .unreachable)) [.broke]
      (Initializing.after (Initializing.single .unreachable)) ∧
    setUp (Initializing.program (Initializing.single .unreachable)) 9
        (Initializing.after (Initializing.single .unreachable)) =
      .ok () (Initializing.after (Initializing.single .unreachable)) ∧
    [Stage.of (Initializing.program (Initializing.single .unreachable)) 9
      (Initializing.after (Initializing.single .unreachable)), .broke].count .done = 0 := by
  have hbroke : Stage.of (Initializing.program (Initializing.single .unreachable)) 9 {} = .broke := by
    decide +kernel
  have hraises := eq_error_of_raises (s := {})
    (x := setUp (Initializing.program (Initializing.single .unreachable)) 9) (by decide +kernel)
  refine ⟨rfl, ?_, setUp_of_initialized 9 (by decide +kernel), by decide +kernel⟩
  have hrecorded := Recorded.obeyed (.setUp 9) .fresh (ends_return_iff.mpr (.inr hraises))
  rwa [Command.stages, hbroke] at hrecorded

end PackedIR
