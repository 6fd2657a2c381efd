/-
The states of a session.

A session starts empty. Requests come one after the other: set up, run a function,
prepare a function, in any order and with any outcome that gives control back. Between
requests the session is `Idle`. `Reachable` adds the states inside a request: a function
has been entered from outside, operands of an instruction have been evaluated, an
instruction has been executed, successfully or not. A request that breaks a precondition
or exhausts its step budget gives no control back, so nothing follows on it.

`Reachable` has the states from which the machine goes on by itself, and is meant where a
theorem says what an instruction, a call or a request does next. It leaves out what lies
between two changes of one instruction or of setting up, for instance the states between the
registrations of two globals. `Moves p {}` has these too: it only asks that the state come
about by changes that happen in a session, in whatever order, and is meant where a theorem
says what holds of memory, constants or frames in the middle of things. Every reachable
state is such a state (`Reachable.moves`), so what is said of these is said of both.
-/
import PackedIR.Proofs.Growth
import PackedIR.Proofs.Running

set_option autoImplicit false

namespace PackedIR

variable {p : Program} {s t : State}

/-! ## Requests -/

/-- What can be asked of a session from outside. -/
inductive Request where
  | setUp (fuel : Nat)
  | run (fuel : Nat) (id : FuncId) (args : List Value)
  | compile (id : FuncId)

def Request.perform (p : Program) : Request → Exec Unit
  | .setUp fuel => Exec.setUp p fuel
  | .run fuel id args => do let _ ← Exec.runFunction p fuel id args
  | .compile id => do let _ ← Exec.compileFunction p id

namespace Exec

/-- The part of setting up that comes before the global initializer. -/
def prepare (p : Program) : Exec Unit := do
  placeStrings p 0 p.module.strings.size
  registerGlobals p 0 p.module.globals.toList
  registerAliases p
  modify fun s => { s with initialized := true }

/-- A session is set up once. -/
theorem setUp_of_initialized (fuel : Nat) (h : s.initialized = true) :
    setUp p fuel s = .ok () s := by
  unfold setUp
  rw [bind_of_ok (get_apply s), if_pos h]
  rfl

theorem setUp_of_fresh (fuel : Nat) (h : ¬s.initialized = true) :
    setUp p fuel s = (do prepare p; runGlobalInit p fuel : Exec Unit) s := by
  unfold setUp prepare
  rw [bind_of_ok (get_apply s), if_neg h]
  simp only [bind_assoc]

/-! ## Setting up -/

theorem placeStrings_makes (index count : Nat) : Along (Makes p) (placeStrings p index count) := by
  induction count generalizing index with
  | zero => exact (reads_pure ()).along
  | succ count ih => exact (globalString_makes _).bind fun _ => ih _

theorem prepares_of_makes {α : Type} {x : Exec α} (h : Along (Makes p) x) :
    Along (Prepares p) x :=
  h.mono fun _ _ h => .effects (.makes h)

theorem registerGlobal_prepares (id : GlobalId) (g : Global) :
    Along (Prepares p) (registerGlobal p id g) := by
  refine (prepares_of_makes (allocStatic_makes _ _)).bind fun address => ?_
  cases g.init with
  | none => exact fun s => .register id _
  | some init =>
    -- The initial value is a constant, so storing it is the only effect besides making.
    have hinit : Along (Makes p) (within (.initializingGlobal g.name) (constOperand p init)) := by
      intro s
      rw [after_within]
      exact constOperand_makes init s
    have hstore (v : Value) : Along (Prepares p) (storeBytes p address v.bytes) :=
      (storeBytes_effects address v.bytes).mono fun _ _ => .effects
    exact (prepares_of_makes hinit).bind fun v => (reads_lift _).along.bind fun _ =>
      (hstore v).bind fun _ _ => .register id _

theorem registerGlobals_prepares (index : Nat) (gs : List Global) :
    Along (Prepares p) (registerGlobals p index gs) := by
  induction gs generalizing index with
  | nil => exact (reads_pure ()).along
  | cons g gs ih => exact (registerGlobal_prepares _ g).bind fun _ => ih _

theorem registerAliases_prepares : Along (Prepares p) (registerAliases p) :=
  reads_get.along.bind fun _ => (reads_liftFault _).along.bind fun _ => fun _ => .route _

theorem prepare_prepares : Along (Prepares p) (prepare p) :=
  (prepares_of_makes (placeStrings_makes _ _)).bind fun _ =>
    (registerGlobals_prepares _ _).bind fun _ => registerAliases_prepares.bind fun _ =>
      fun _ => .ready

/-! ## Requests and moves -/

theorem runFunction_moves (fuel : Nat) (id : FuncId) (args : List Value) :
    Along (Moves p) (runFunction p fuel id args) := by
  refine (reads_liftFault _).along.bind fun f s => ?_
  rw [after_within]
  exact callFunction_moves fuel id args s

theorem runFunction_frames {fuel : Nat} {id : FuncId} {args : List Value}
    (h : Ends (runFunction p fuel id args) s t) : t.frames = s.frames := by
  rcases h.of_bind with h | ⟨f, u, hf, h⟩
  · rw [← h.after_eq, ← reads_liftFault _ s]
  · rw [(liftFault_eq_ok_iff.mp hf).2] at h
    exact callFunction_frames (ends_within_iff.mp h)

theorem runGlobalInit_moves (fuel : Nat) : Along (Moves p) (runGlobalInit p fuel) := by
  unfold runGlobalInit
  split
  · split
    · refine Along.bind (fun s => ?_) fun _ => (reads_pure _).along
      rw [after_within]
      exact runFunction_moves fuel _ [] s
    · exact (reads_pure _).along
  · exact (reads_pure _).along

theorem runGlobalInit_frames {fuel : Nat} (h : Ends (runGlobalInit p fuel) s t) :
    t.frames = s.frames := by
  unfold runGlobalInit at h
  by_cases hinit : p.config.runGlobalInit = true
  · rw [if_pos hinit] at h
    cases hfound : p.module.globalInit with
    | none =>
      simp only [hfound] at h
      rw [← h.after_eq, ← reads_pure _ s]
    | some init =>
      simp only [hfound] at h
      rcases h.of_bind with h | ⟨v, u, hu, h⟩
      · exact runFunction_frames (ends_within_iff.mp h)
      · rw [← h.after_eq, ← reads_pure _ u]
        exact runFunction_frames (ends_within_iff.mp (.inl ⟨v, hu⟩))
  · rw [if_neg hinit] at h
    rw [← h.after_eq, ← reads_pure _ s]

theorem setUp_moves (fuel : Nat) : Along (Moves p) (setUp p fuel) := by
  intro s
  by_cases h : s.initialized = true
  · rw [after_of_ok (setUp_of_initialized fuel h)]
    exact refl_of (Moves p) s
  · rw [after_congr (setUp_of_fresh fuel h)]
    have hprepare : Along (Moves p) (prepare p) := prepare_prepares.mono fun _ _ => .prepares
    exact hprepare.bind (fun _ => runGlobalInit_moves fuel) s

theorem setUp_frames {fuel : Nat} (h : Ends (setUp p fuel) s t) : t.frames = s.frames := by
  by_cases hinit : s.initialized = true
  · rw [← h.after_eq, after_of_ok (setUp_of_initialized fuel hinit)]
  · unfold Ends at h
    rw [setUp_of_fresh fuel hinit] at h
    -- Only the initializer has frames, and it takes them off again.
    have hprepare := (prepare_prepares (p := p) s).frames_eq
    rcases Ends.of_bind h with h | ⟨_, u, hu, h⟩
    · rw [← h.after_eq, hprepare]
    · rw [after_of_ok hu] at hprepare
      rw [runGlobalInit_frames h, hprepare]

end Exec

namespace Request

open Exec

theorem perform_moves (r : Request) : Along (Moves p) (r.perform p) := by
  cases r with
  | setUp fuel => exact setUp_moves fuel
  | run fuel id args =>
    exact (runFunction_moves fuel id args).bind fun _ => (reads_pure _).along
  | compile id =>
    have hcompile : Along (Moves p) (compileFunction p id) :=
      (compileFunction_makes id).mono fun _ _ => .of_makes
    exact hcompile.bind fun _ => (reads_pure _).along

/-- A request that has ended leaves no frame behind that was not there before. -/
theorem perform_frames {r : Request} (h : Ends (r.perform p) s t) : t.frames = s.frames := by
  cases r with
  | setUp fuel => exact setUp_frames h
  | run fuel id args =>
    rcases Ends.of_bind h with h | ⟨v, u, hu, h⟩
    · exact runFunction_frames h
    · rw [← h.after_eq, ← reads_pure _ u]
      exact runFunction_frames (.inl ⟨v, hu⟩)
  | compile id =>
    rw [← h.after_eq]
    unfold perform
    rw [after_bind_reads fun _ => reads_pure _]
    exact (compileFunction_makes id s).frames_eq

end Request

/-! ## States -/

/-- No function is being executed: the session is new, or its requests so far have ended, or one
of them has got as far as the global initializer. -/
inductive Idle (p : Program) : State → Prop where
  | fresh : Idle p {}
  | performed {s t : State} (r : Request) : Idle p s → Exec.Ends (r.perform p) s t → Idle p t
  | prepared {s t : State} : Idle p s → Exec.prepare p s = .ok () t → Idle p t

/-- A state of a session, between requests or inside one, but not in the middle of a change that
the machine makes in one go. -/
inductive Reachable (p : Program) : State → Prop where
  | idle {s : State} : Idle p s → Reachable p s
  /-- A function has been entered from outside. -/
  | entered {s t : State} (id : FuncId) (args : List Value) : Idle p s →
      Exec.startCall p id args s = .ok .entered t → Reachable p t
  /-- Operands have been evaluated, in the middle of an instruction. -/
  | evaluated {s : State} (os : List Operand) : Reachable p s →
      Reachable p ((Exec.operands p os).after s)
  /-- An instruction has been executed, successfully or not. -/
  | stepped {s : State} : Reachable p s → Reachable p ((Exec.step p 0).after s)

theorem Idle.frames_eq_nil (h : Idle p s) : s.frames = [] := by
  induction h with
  | fresh => rfl
  | performed r _ hends ih => rw [Request.perform_frames hends, ih]
  | prepared _ hprepare ih =>
    rw [← Exec.after_of_ok hprepare, (Exec.prepare_prepares _).frames_eq, ih]

theorem Idle.moves (h : Idle p s) : Moves p {} s := by
  induction h with
  | fresh => exact refl_of (Moves p) _
  | performed r _ hends ih =>
    rw [← hends.after_eq]
    exact ih.trans (r.perform_moves _)
  | prepared _ hprepare ih =>
    rw [← Exec.after_of_ok hprepare]
    exact ih.trans (.prepares (Exec.prepare_prepares _))

/-- Every state of a session comes about by moves from the empty one. -/
theorem Reachable.moves (h : Reachable p s) : Moves p {} s := by
  induction h with
  | idle h => exact h.moves
  | entered id args h hstart =>
    rw [← Exec.after_of_ok hstart]
    exact h.moves.trans (Exec.startCall_moves id args _)
  | evaluated os _ ih => exact ih.trans (.of_makes (Exec.operands_makes os _))
  | stepped _ ih => exact ih.trans (Exec.step_moves 0 _)

namespace Doubling

def program : Program := { module := «module» }

def argument : Value := { ty := Ty.i32, bytes := [21, 0, 0, 0] }

/-- The state in which the function has been called. -/
def entered : State := (Exec.startCall program ⟨0⟩ [argument]).after {}

/-- The state in which the sum has been computed and not yet returned. -/
def computed : State :=
  (Exec.step program 0).after ((Exec.step program 0).after ((Exec.step program 0).after entered))

theorem computed_reachable : Reachable program computed := by
  have hentered : Reachable program entered := .entered ⟨0⟩ [argument] .fresh rfl
  unfold computed
  exact .stepped (.stepped (.stepped hentered))

end Doubling

end PackedIR
