/-
Sessions from outside.

A session is driven by commands: set up, prepare a function, run one by id or by name, ask where a
global is or what it holds. Each command is answered, by a value or by an error, and the next one
finds the state that the last one has left. `serve` answers a list of commands.

Couplings of two runs extend from calls to commands. Besides what makes a coupling sound for
instructions, it has to be kept when globals are registered and symbols are routed.
-/
import PackedIR.Proofs.Simulation

set_option autoImplicit false

namespace PackedIR

variable {p : Program} {s t : State}

/-! ## Commands -/

/-- What can be asked of a session, and how it is answered. -/
inductive Command where
  | setUp (fuel : Nat)
  | compile (id : FuncId)
  | run (fuel : Nat) (id : FuncId) (args : List Value)
  | runByName (fuel : Nat) (name : String) (args : List Value)
  | globalAddress (id : GlobalId)
  | globalValue (id : GlobalId)

/-- What a command gives back. -/
inductive Answer where
  | done
  | address (a : Nat)
  | value (v : Value)

/-- Obeys a command. -/
def Command.obey (p : Program) : Command → Exec Answer
  | .setUp fuel => do
    Exec.setUp p fuel
    return .done
  | .compile id => return .address (← Exec.compileFunction p id)
  | .run fuel id args => return .value (← Exec.runFunction p fuel id args)
  | .runByName fuel name args => return .value (← Exec.runFunctionByName p fuel name args)
  | .globalAddress id => return .address (← Exec.globalAddress p id)
  | .globalValue id => return .value (← Exec.globalValue p id)

/-- The answers to a list of commands, and the state they leave. A command that gives no control
back is the last one to be answered. -/
def serve (p : Program) : List Command → State → List (Result Answer) × State
  | [], s => ([], s)
  | c :: cs, s => match c.obey p s with
    | .ok a t => ((serve p cs t).1.cons (.ok a), (serve p cs t).2)
    | .error (.raised context cause) t =>
      ((serve p cs t).1.cons (.error (.raised context cause)), (serve p cs t).2)
    | .error e t => ([.error e], t)

namespace Exec

theorem runFunctionByName_moves (fuel : Nat) (name : String) (args : List Value) :
    Along (Moves p) (runFunctionByName p fuel name args) := by
  unfold runFunctionByName
  split
  · exact runFunction_moves fuel _ args
  · exact (reads_throw _).along

theorem globalAddress_reads (id : GlobalId) : Reads (globalAddress p id) := by
  refine reads_get.bind fun s => ?_
  split
  · exact reads_lift _
  · exact (reads_liftFault _).bind fun _ => reads_lift _

theorem globalValue_reads (id : GlobalId) : Reads (globalValue p id) :=
  (globalAddress_reads id).bind fun _ => (reads_liftFault _).bind fun _ =>
    (reads_load p _ _).bind fun _ => reads_pure _

/-- What is done with a value afterwards changes nothing about the end. -/
theorem ends_return_iff {α β : Type} {x : Exec α} {g : α → β} :
    Ends (do return g (← x)) s t ↔ Ends x s t := by
  unfold Ends
  rw [bind_apply]
  cases x s with
  | ok a u => simp
  | error e u => simp

end Exec

theorem Command.obey_moves (c : Command) : Exec.Along (Moves p) (c.obey p) := by
  cases c with
  | setUp fuel => exact (Exec.setUp_moves fuel).bind fun _ => (Exec.reads_pure _).along
  | compile id =>
    have hcompile : Exec.Along (Moves p) (Exec.compileFunction p id) :=
      (Exec.compileFunction_makes id).mono fun _ _ => .of_makes
    exact hcompile.bind fun _ => (Exec.reads_pure _).along
  | run fuel id args => exact (Exec.runFunction_moves fuel id args).bind fun _ =>
      (Exec.reads_pure _).along
  | runByName fuel name args => exact (Exec.runFunctionByName_moves fuel name args).bind fun _ =>
      (Exec.reads_pure _).along
  | globalAddress id => exact (Exec.globalAddress_reads id).along.bind fun _ =>
      (Exec.reads_pure _).along
  | globalValue id => exact (Exec.globalValue_reads id).along.bind fun _ =>
      (Exec.reads_pure _).along

/-- What a command leaves that has ended is a state between requests. -/
theorem Idle.obeyed {c : Command} (hs : Idle p s) (h : Exec.Ends (c.obey p) s t) : Idle p t := by
  have ran {fuel : Nat} {id : FuncId} {args : List Value}
      (hran : Exec.Ends (Exec.runFunction p fuel id args) s t) : Idle p t :=
    .performed (.run fuel id args) hs (Exec.ends_return_iff.mpr hran)
  cases c with
  | setUp fuel => exact .performed (.setUp fuel) hs (Exec.ends_return_iff.mp h)
  | compile id => exact .performed (.compile id) hs (Exec.ends_return_iff.mpr (Exec.ends_return_iff.mp h))
  | run fuel id args => exact ran (Exec.ends_return_iff.mp h)
  | runByName fuel name args =>
    have hran := Exec.ends_return_iff.mp h
    unfold Exec.runFunctionByName at hran
    cases hname : p.module.functionByName? name with
    | some id =>
      rw [hname] at hran
      exact ran hran
    | none =>
      rw [hname] at hran
      rw [← hran.after_eq]
      exact hs
  | globalAddress id =>
    rw [← (Exec.ends_return_iff.mp h).after_eq, ← Exec.globalAddress_reads id s]
    exact hs
  | globalValue id =>
    rw [← (Exec.ends_return_iff.mp h).after_eq, ← Exec.globalValue_reads id s]
    exact hs

/-- An error among the answers is that of a command, obeyed in a state that has whatever the first
state has and commands that end keep. -/
theorem obey_of_serve_keeping {K : State → Prop}
    (hK : ∀ {c : Command} {u w : State}, K u → Exec.Ends (c.obey p) u w → K w)
    {commands : List Command} {e : Failure} (hs : K s) (h : .error e ∈ (serve p commands s).1) :
    ∃ command ∈ commands, ∃ u t, K u ∧ Command.obey p command u = .error e t := by
  induction commands generalizing s with
  | nil => exact absurd h List.not_mem_nil
  | cons command commands ih =>
    have later {u : State} (hu : K u) (hrest : .error e ∈ (serve p commands u).1) :
        ∃ c ∈ command :: commands, ∃ u t, K u ∧ Command.obey p c u = .error e t := by
      obtain ⟨c, hc, herror⟩ := ih hu hrest
      exact ⟨c, List.mem_cons_of_mem command hc, herror⟩
    rw [serve] at h
    cases hobey : command.obey p s with
    | ok a t =>
      rw [hobey] at h
      rcases List.mem_cons.mp h with hfirst | hrest
      · cases hfirst
      · exact later (hK hs (.inl ⟨a, hobey⟩)) hrest
    | error e' t =>
      rw [hobey] at h
      cases e' with
      | fault | outOfFuel =>
        cases List.mem_singleton.mp h
        exact ⟨command, List.mem_cons_self, s, t, hs, hobey⟩
      | raised context cause =>
        rcases List.mem_cons.mp h with hfirst | hrest
        · cases hfirst
          exact ⟨command, List.mem_cons_self, s, t, hs, hobey⟩
        · exact later (hK hs (.inr ⟨context, cause, hobey⟩)) hrest

theorem obey_of_serve {commands : List Command} {e : Failure}
    (h : .error e ∈ (serve p commands s).1) :
    ∃ command u t, Moves p s u ∧ Command.obey p command u = .error e t := by
  obtain ⟨command, _, herror⟩ := obey_of_serve_keeping (fun {c u w} hu hends => by
    rw [← hends.after_eq]
    exact Moves.trans hu (c.obey_moves u)) (refl_of (Moves p) s) h
  exact ⟨command, herror⟩

/-! ## Couplings of sessions -/

/-- The globals are registered under their places in the module. -/
theorem Module.global_of_getElem? {m : Module} (k : Nat) (g : Global)
    (h : m.globals.toList[k]? = some g) : m.global ⟨0 + k⟩ = .ok g := by
  rw [Nat.zero_add]
  exact orMissing_eq_ok_iff.mpr (by simpa using h)

namespace Coupling

/-- What makes a coupling hold along the part of setting up that runs no function. -/
structure Preparing (C : Coupling) (p : Program) (config : Config) : Prop extends
    C.Steady p config where
  register : ∀ {id : GlobalId} {g : Global}, p.module.global id = .ok g →
    C.Follows (Exec.registerGlobal p id g) (Exec.registerGlobal (p.under config) id g)
  route : ∀ {s t : State} (aliases : Table FuncId String), C.rel s t →
    C.rel { s with aliases } { t with aliases }
  ready : ∀ {s t : State}, C.rel s t →
    C.rel { s with initialized := true } { t with initialized := true }

/-- What makes a coupling hold along whole sessions. -/
structure Lasting (C : Coupling) (p : Program) (config : Config) : Prop extends
    C.Sound p config, C.Preparing p config where
  globalInit : config.runGlobalInit = p.config.runGlobalInit

variable {C : Coupling} {config : Config}

namespace Steady

variable (hC : C.Steady p config)

include hC

/-- Registering is followed where the table of globals may be any. -/
theorem registerGlobal
    (hregister : ∀ {s t : State} (globals : Table GlobalId Value), C.rel s t →
      C.rel { s with globals } { t with globals }) (id : GlobalId) (g : Global) :
    C.Follows (Exec.registerGlobal p id g) (Exec.registerGlobal (p.under config) id g) := by
  have registers (reference : Value) :
      C.Follows (modify fun s => { s with globals := s.globals.insert id reference } : Exec Unit)
        (modify fun s => { s with globals := s.globals.insert id reference }) := by
    intro s t hst
    rw [Exec.modify_apply, Exec.modify_apply, hC.globals_eq hst]
    exact .ok _ (hregister _ hst)
  refine (hC.place _ _).bind fun address => ?_
  cases g.init with
  | none => exact registers _
  | some init =>
    refine Follows.bind (fun s t hst => hC.inContext _ (hC.constOperand init s t hst)) fun v => ?_
    exact (hC.lift _).bind fun _ => (hC.store _ _).bind fun _ => registers _

theorem globalAddress (id : GlobalId) :
    C.Follows (Exec.globalAddress p id) (Exec.globalAddress (p.under config) id) := by
  refine .get_bind fun s t hst => ?_
  rw [hC.globals_eq hst]
  cases s.globals.get? id with
  | some reference => exact hC.lift _ s t hst
  | none => exact (hC.liftFault _).bind (fun _ => hC.raise rfl) s t hst

theorem globalValue (id : GlobalId) :
    C.Follows (Exec.globalValue p id) (Exec.globalValue (p.under config) id) :=
  (hC.globalAddress id).bind fun _ => (hC.liftFault _).bind fun _ => (hC.load _ _).bind fun _ =>
    .pure _

end Steady

namespace Sound

variable (hC : C.Sound p config)

include hC

theorem runFunction (hs : OwnsStack s) (hst : C.rel s t) (fuel : Nat) (id : FuncId)
    (args : List Value) :
    C.Matches (Exec.runFunction p fuel id args s)
      (Exec.runFunction (p.under config) fuel id args t) := by
  refine (hC.liftFault _ s t hst).bind fun f s' t' hs' hrel => ?_
  obtain ⟨_, rfl⟩ := Exec.liftFault_eq_ok_iff.mp hs'
  exact hC.inContext _ (hC.callFunction hs hrel fuel id args)

theorem runFunctionByName (hs : OwnsStack s) (hst : C.rel s t) (fuel : Nat) (name : String)
    (args : List Value) :
    C.Matches (Exec.runFunctionByName p fuel name args s)
      (Exec.runFunctionByName (p.under config) fuel name args t) := by
  unfold Exec.runFunctionByName
  cases p.module.functionByName? name with
  | none => exact .error hst (hC.unrefused rfl)
  | some id => exact hC.runFunction hs hst fuel id args

theorem runGlobalInit (hsame : config.runGlobalInit = p.config.runGlobalInit) (hs : OwnsStack s)
    (hst : C.rel s t) (fuel : Nat) :
    C.Matches (Exec.runGlobalInit p fuel s) (Exec.runGlobalInit (p.under config) fuel t) := by
  unfold Exec.runGlobalInit
  dsimp only
  rw [hsame]
  by_cases hinit : p.config.runGlobalInit = true
  · rw [if_pos hinit, if_pos hinit]
    cases p.module.globalInit with
    | none => exact .ok _ hst
    | some init =>
      refine (hC.inContext _ (hC.runFunction hs hst fuel init [])).bind fun _ _ _ _ hrel => ?_
      exact .ok _ hrel
  · rw [if_neg hinit, if_neg hinit]
    exact .ok _ hst

end Sound

namespace Preparing

variable (hC : C.Preparing p config)

include hC

theorem placeStrings (index count : Nat) :
    C.Follows (Exec.placeStrings p index count)
      (Exec.placeStrings (p.under config) index count) := by
  induction count generalizing index with
  | zero => exact .pure _
  | succ count ih => exact (hC.globalString _).bind fun _ => ih _

theorem registerGlobals {index : Nat} {gs : List Global}
    (hgs : ∀ k g, gs[k]? = some g → p.module.global ⟨index + k⟩ = .ok g) :
    C.Follows (Exec.registerGlobals p index gs)
      (Exec.registerGlobals (p.under config) index gs) := by
  induction gs generalizing index with
  | nil => exact .pure _
  | cons g gs ih =>
    refine (hC.register (hgs 0 g rfl)).bind fun _ => ih fun k g' hg' => ?_
    rw [Nat.add_right_comm]
    exact hgs (k + 1) g' hg'

theorem registerAliases :
    C.Follows (Exec.registerAliases p) (Exec.registerAliases (p.under config)) := by
  refine .get_bind fun s t hst => ?_
  rw [hC.aliases_eq hst]
  refine (hC.liftFault _ s t hst).bind fun aliases s' t' _ hrel => ?_
  exact .ok _ (hC.route _ hrel)

theorem preparation : C.Follows (Exec.prepare p) (Exec.prepare (p.under config)) :=
  (hC.placeStrings _ _).bind fun _ => (hC.registerGlobals Module.global_of_getElem?).bind fun _ =>
    hC.registerAliases.bind fun _ => fun _ _ hst => .ok _ (hC.ready hst)

end Preparing

namespace Lasting

variable (hC : C.Lasting p config)

include hC

theorem initialized_eq (h : C.rel s t) : t.initialized = s.initialized := by
  obtain ⟨memory, constants, rfl⟩ := hC.shares h
  rfl

theorem setUp (hs : OwnsStack s) (hst : C.rel s t) (fuel : Nat) :
    C.Matches (Exec.setUp p fuel s) (Exec.setUp (p.under config) fuel t) := by
  by_cases hinit : s.initialized = true
  · have hinit' : t.initialized = true := (hC.initialized_eq hst).trans hinit
    rw [Exec.setUp_of_initialized fuel hinit, Exec.setUp_of_initialized fuel hinit']
    exact .ok _ hst
  · have hinit' : ¬t.initialized = true := by
      rw [hC.initialized_eq hst]
      exact hinit
    rw [Exec.setUp_of_fresh fuel hinit, Exec.setUp_of_fresh fuel hinit']
    refine (hC.preparation s t hst).bind fun _ s' t' hs' hrel => ?_
    have hprepared : Moves p s s' := by
      rw [← Exec.after_of_ok hs']
      exact .prepares (Exec.prepare_prepares s)
    exact hC.runGlobalInit hC.globalInit (hs.moves hprepared) hrel fuel

/-- Coupled sessions obey a command alike. -/
theorem obey (hs : OwnsStack s) (hst : C.rel s t) (c : Command) :
    C.Matches (c.obey p s) (c.obey (p.under config) t) := by
  cases c with
  | setUp fuel => exact (hC.setUp hs hst fuel).bind fun _ _ _ _ hrel => .ok _ hrel
  | compile id => exact (hC.compileFunction id s t hst).bind fun _ _ _ _ hrel => .ok _ hrel
  | run fuel id args =>
    exact (hC.runFunction hs hst fuel id args).bind fun _ _ _ _ hrel => .ok _ hrel
  | runByName fuel name args =>
    exact (hC.runFunctionByName hs hst fuel name args).bind fun _ _ _ _ hrel => .ok _ hrel
  | globalAddress id => exact (hC.globalAddress id s t hst).bind fun _ _ _ _ hrel => .ok _ hrel
  | globalValue id => exact (hC.globalValue id s t hst).bind fun _ _ _ _ hrel => .ok _ hrel

end Lasting

end Coupling

end PackedIR
