/-
What cannot go wrong.

Three failures would say that the machine has lost its way: that there is no frame to execute in,
that control has run past the end of a block, and that a result has no slot in its frame. None of
them comes about. Every frame is at an instruction of its block and has a slot for each local of its
function. And operands are evaluated in frames only while one is there; outside there are constants,
which look at no frame.

All other failures are errors that say what is wrong with the program or its data. So whatever is
asked of a session, it fails with such an error or not at all, as long as it gives control back.
-/
import PackedIR.Proofs.Placement
import PackedIR.Proofs.Refusals

set_option autoImplicit false

namespace PackedIR

open Exec

variable {p : Program} {s t : State} {m : Module} {fr : Frame} {rest : List Frame} {id : FuncId}
  {f : Function} {inst : Instruction} {e : Failure}

/-! ## Regular failures

What the machine does is compared with itself, in a frame while there is one, and outside while
there may be none. -/

theorem Function.ParamsFirst.length_le {sig : Signature} (h : f.ParamsFirst)
    (hsig : f.signature = .ok sig) : sig.params.length ≤ f.locals.size := by
  cases hlast : sig.params.length with
  | zero => exact Nat.zero_le _
  | succ k =>
    have hty := List.getElem?_eq_getElem (show k < sig.params.length by omega)
    exact (Array.getElem?_eq_some_iff.mp (h sig hsig k _ hty)).1

namespace Exec

theorem allocStatic_regular {kind : AllocKind} {bytes : Bytes}
    (h : allocStatic p kind bytes s = .error e t) : e.isRegular = true := by
  rw [(allocStatic_eq_error h).1]
  rfl

theorem allocFrame_regular {size : Nat} (hfr : s.frames = fr :: rest)
    (h : allocFrame p size s = .error e t) : e.isRegular = true := by
  rw [(allocFrame_eq_error h).1 (by simp [hfr])]
  rfl

theorem callNative_regular {callee : Callee} {args : List Value}
    (h : callNative p callee args s = .error e t) : e.isRegular = true := by
  rw [callNative_eq] at h
  cases hprepare : callee.prepare p.host args with
  | error e' =>
    rw [hprepare] at h
    cases h
    exact Failure.isRegular_of_isOrdinary (Plain.ordinary e hprepare)
  | ok call =>
    rw [hprepare] at h
    exact Failure.isRegular_of_isOrdinary (Plain.ordinary e (lift_eq_error_iff.mp h).1)

end Exec

namespace Coupling

variable {α : Type} {n : Nat}

/-- A computation is compared with itself while there are at least `n` frames. -/
def regular (n : Nat) : Coupling where
  rel s t := s = t ∧ n ≤ s.frames.length
  shared e := e.isRegular = true
  excused _ _ := False

theorem Matches.isRegular {x y : EStateM.Result Failure State α} (h : (regular n).Matches x y)
    (hx : x = .error e t) : e.isRegular = true := by
  subst hx
  cases h with
  | error _ he => exact he
  | excused _ he => exact he.elim

theorem follows_regular {x : Exec α}
    (hframes : ∀ s, (x.after s).frames.length = s.frames.length)
    (hfails : ∀ s e t, n ≤ s.frames.length → x s = .error e t → e.isRegular = true) :
    (regular n).Follows x x := by
  rintro s _ ⟨rfl, hs⟩
  have hafter := hframes s
  cases hx : x s with
  | ok a t =>
    rw [after_of_ok hx] at hafter
    exact .ok a ⟨rfl, by omega⟩
  | error e t =>
    rw [after_of_error hx] at hafter
    exact .error ⟨rfl, by omega⟩ (hfails s e t hs hx)

theorem steady_regular (hp : p.module.ParamsFirst) : (regular n).Steady p p.config where
  shares := by
    rintro s _ ⟨rfl, _⟩
    exact ⟨s.memory, s.constants, rfl⟩
  push := by
    rintro s _ fr ⟨rfl, hs⟩ _
    exact ⟨rfl, Nat.le_succ_of_le hs⟩
  prepare := by
    rintro s _ id ⟨rfl, hs⟩
    exact ⟨rfl, hs⟩
  intern := by
    rintro s _ id address ⟨rfl, hs⟩ _
    exact ⟨rfl, hs⟩
  ordinary := Failure.isRegular_of_isOrdinary
  arguments := by
    intro id f sig args e hf hsig h
    rcases Frame.bindArgs_eq_error h with he | ⟨hslots, _⟩
    · exact Failure.isRegular_of_isOrdinary he
    · -- The parameters are the first locals, so each has a slot.
      have hle := (hp id f hf).length_le hsig
      simp only [Array.size_replicate] at hslots
      omega
  shared_within := fun {e} c he => (Failure.isRegular_within e c).trans he
  excused_within := fun _ he => he
  load := by
    intro address ty
    refine follows_regular (fun s => by rw [← reads_load p address ty s]) fun s e t _ hx => ?_
    rcases load_failure hx with he | ⟨rfl, _⟩
    · exact Failure.isRegular_of_isOrdinary he
    · rfl
  store := by
    intro address bytes
    refine follows_regular (fun s => ?_) fun s e t _ hx => ?_
    · rw [(storeBytes_effects address bytes s).frames_eq]
    · obtain ⟨rfl, _⟩ := storeBytes_failure hx
      rfl
  place := by
    intro kind bytes
    refine follows_regular (fun s => ?_) fun s e t _ hx => allocStatic_regular hx
    rw [(allocStatic_makes (p := p) kind bytes s).frames_eq]
  native := by
    intro callee args
    refine follows_regular (fun s => ?_) fun s e t _ hx => callNative_regular hx
    rw [(callNative_effects callee args s).frames_eq]
  depth := Nat.le_refl _
  overflow := fun _ _ => .inr ⟨rfl, rfl⟩
  cached := by
    rintro s _ id v ⟨rfl, _⟩ hv
    exact hv
  cache := by
    rintro s _ s' _ id c budget made _ _ _ _ ⟨rfl, hs'⟩
    exact ⟨rfl, hs'⟩
  remake := by
    rintro s _ id v ⟨rfl, _⟩ hmissing hcached
    rw [hmissing] at hcached
    cases hcached

theorem framed_regular (hp : p.module.ParamsFirst) : (regular 1).Framed p p.config where
  toSteady := steady_regular hp
  frame := by
    rintro s _ ⟨rfl, hs⟩
    obtain ⟨fr, rest, hfr⟩ := List.exists_cons_of_length_pos hs
    rw [frame_eq_ok_iff.mpr ⟨rfl, rest, hfr⟩]
    exact .ok fr ⟨rfl, hs⟩
  allocate := by
    intro size hpos
    refine follows_regular (fun s => ?_) fun s e t hs hx => ?_
    · cases h : allocFrame p size s with
      | error e t => rw [after_of_error h, (allocFrame_eq_error h).2]
      | ok address t =>
        obtain ⟨fr, rest, stack, hfr, _, _, rfl⟩ := allocFrame_eq_ok h
        rw [after_of_ok h, hfr, List.length_cons, List.length_cons]
    · obtain ⟨fr, rest, hfr⟩ := List.exists_cons_of_length_pos hs
      exact allocFrame_regular hfr hx

theorem preparing_regular (hp : p.module.ParamsFirst) : (regular 0).Preparing p p.config where
  toSteady := steady_regular hp
  register := fun _ => (steady_regular hp).registerGlobal
    (fun _ h => ⟨by rw [h.1], Nat.zero_le _⟩) _ _
  route := fun _ h => ⟨by rw [h.1], Nat.zero_le _⟩
  ready := fun h => ⟨by rw [h.1], Nat.zero_le _⟩

end Coupling

/-! ## Steps -/

/-- Every frame is in place and has a slot for each local of its function. -/
def Sturdy (p : Program) (s : State) : Prop :=
  ∀ fr ∈ s.frames, fr.InPlace p.module ∧ fr.Typed p.module

theorem Reachable.sturdy (hp : p.module.Built) (h : Reachable p s) : Sturdy p s :=
  fun fr hfr => ⟨h.placed fr hfr, (h.wellTyped hp).frames fr hfr⟩

/-- A frame in place has a current instruction, unless control has gone to a block that the
function does not have. -/
theorem Frame.InPlace.current_regular (h : fr.InPlace m) (hcur : fr.current m = .error e) :
    e.isRegular = true := by
  rcases Frame.current_eq_error hcur with he | ⟨_, g, block, hg, hblock, hsize⟩
  · exact Failure.isRegular_of_isOrdinary he
  · obtain ⟨f, hf, _, hpc⟩ := h
    rw [hf] at hg
    cases hg
    exact absurd (hpc block hblock) (Nat.not_lt.mpr hsize)

namespace Exec

/-- The local of a result is one of the function, so the frame has a slot for it. -/
theorem bindResult_regular {v : Value} (hfr : s.frames = fr :: rest)
    (hslots : fr.locals.size = f.locals.size) (h : bindResult f inst v s = .error e t) :
    e.isRegular = true := by
  unfold bindResult at h
  cases hresult : inst.result with
  | none =>
    rw [hresult] at h
    cases h
  | some l =>
    rw [hresult] at h
    rcases bind_eq_error_iff.mp h with hfails | ⟨decl, u, hlift, hrest⟩
    · exact Failure.isRegular_of_isOrdinary (Plain.ordinary e (lift_eq_error_iff.mp hfails).1)
    obtain ⟨hfound, rfl⟩ := lift_eq_ok_iff.mp hlift
    obtain ⟨l', hl', hdecl⟩ := resultDecl_eq_ok_iff.mp hfound
    rw [hresult] at hl'
    cases hl'
    rcases bind_eq_error_iff.mp hrest with hfails | ⟨bound, w, hbound, hbind⟩
    · exact Failure.isRegular_of_isOrdinary (Plain.ordinary e (lift_eq_error_iff.mp hfails).1)
    obtain ⟨_, rfl⟩ := lift_eq_ok_iff.mp hbound
    have hslot : l.index < fr.locals.size := by
      rw [hslots]
      exact (Array.getElem?_eq_some_iff.mp hdecl).1
    rw [bindLocal_eq_ok_iff.mpr ⟨fr, rest, hfr, hslot, rfl⟩] at hbind
    cases hbind

theorem complete_regular {v : Option Value} (hfr : s.frames = fr :: rest)
    (hslots : fr.locals.size = f.locals.size) (h : complete f inst v s = .error e t) :
    e.isRegular = true := by
  cases v with
  | none => cases h
  | some v =>
    rcases bind_eq_error_iff.mp h with h | ⟨_, _, _, h⟩
    · exact bindResult_regular hfr hslots h
    · cases h

theorem deliver_regular {base : Nat} {v : Value} (hs : Sturdy p s)
    (h : deliver p base v s = .error e t) : e.isRegular = true := by
  by_cases hlen : s.frames.length ≤ base
  · rw [deliver_of_le hlen] at h
    cases h
  · cases hfr : s.frames with
    | nil =>
      rw [hfr] at hlen
      exact absurd (Nat.zero_le base) hlen
    | cons fr rest =>
      obtain ⟨hplace, htyped⟩ := hs fr (by rw [hfr]; exact List.mem_cons_self)
      rw [deliver_of_lt hfr (by omega)] at h
      cases hcur : fr.current p.module with
      | error e' =>
        rw [hcur] at h
        cases h
        exact hplace.current_regular hcur
      | ok c =>
        obtain ⟨f, block, inst⟩ := c
        rw [hcur] at h
        rcases bind_eq_error_iff.mp h with h | ⟨_, _, _, h⟩
        · exact complete_regular hfr (htyped.slots (current_eq_ok hcur).1) h
        · cases h

/-- While there is a frame, a step fails regularly. -/
theorem step_regular {base : Nat} (hp : p.module.ParamsFirst) (hs : Sturdy p s)
    (hfr : s.frames = fr :: rest) (h : step p base s = .error e t) : e.isRegular = true := by
  obtain ⟨hplace, htyped⟩ := hs fr (by rw [hfr]; exact List.mem_cons_self)
  cases hcur : fr.current p.module with
  | error e' =>
    rw [step_of_current_error base hfr hcur] at h
    cases h
    exact hplace.current_regular hcur
  | ok c =>
    obtain ⟨f, block, inst⟩ := c
    have hslots := htyped.slots (current_eq_ok hcur).1
    cases hx : execute p f inst s with
    | error e' u =>
      rw [step_of_execute_error base hfr hcur hx] at h
      cases h
      -- The instruction is executed while its frame is there.
      have hmatches := (Coupling.framed_regular hp).execute f inst s s ⟨rfl, by simp [hfr]⟩
      exact hmatches.isRegular hx
    | ok flow u =>
      rw [step_of_executed base hfr hcur hx] at h
      have hexec := (execute_settles f inst).of_ok hx
      cases flow with
      | complete v =>
        obtain ⟨allocs, hu⟩ := hexec.frames hfr (by simp)
        rcases bind_eq_error_iff.mp h with h | ⟨_, _, _, h⟩
        · exact complete_regular hu hslots h
        · cases h
      | jump target =>
        rcases bind_eq_error_iff.mp h with h | ⟨_, _, _, h⟩ <;> cases h
      | entered => cases h
      | ret v =>
        obtain ⟨allocs, hu⟩ := hexec.frames hfr (by simp)
        rcases bind_eq_error_iff.mp h with hpop | ⟨_, w, hpop, h⟩
        · -- Storage that cannot be released is a fault.
          rw [popFrame_eq hu] at hpop
          split at hpop
          · cases hpop
          · cases hpop
            rfl
        · refine deliver_regular (fun g hg => hs g ?_) h
          cases leaves_of_popFrame hpop with
          | intro hu' _ =>
            rw [hu] at hu'
            cases hu'
            rw [hfr]
            exact List.mem_cons_of_mem fr hg

/-! ## Runs -/

theorem runFrom_regular {fuel : Nat} (hp : p.module.Built) (hs : Reachable p s)
    (habove : Above id [] s) (h : runFrom p 0 fuel s = .error e t) : e.isRegular = true := by
  -- Every step leaves a state of the session in which the call is under way, or is the last one.
  induction fuel generalizing s with
  | zero =>
    cases h
    rfl
  | succ fuel ih =>
    obtain ⟨fr, rest, hfr⟩ := List.exists_cons_of_length_pos habove.length_lt
    rw [runFrom_succ] at h
    cases hstep : step p 0 s with
    | error e' u =>
      rw [hstep] at h
      cases h
      exact step_regular hp.paramsFirst (hs.sturdy hp) hfr hstep
    | ok r u =>
      rw [hstep] at h
      cases r with
      | some v => cases h
      | none =>
        have hu := hs.stepped
        have hstays := (step_above (p := p) habove).2
        rw [List.length_nil, hstep, after_of_ok hstep] at hstays
        rw [after_of_ok hstep] at hu
        exact ih hu (hstays (by simp)) h

/-- Unwinding keeps the error that is under way and fails by itself only with a fault. -/
theorem unwinding_regular {α : Type} {x : Exec α} {base : Nat} (hp : p.module.ParamsFirst)
    (hx : ∀ e t, x s = .error e t → e.isRegular = true)
    (h : unwinding p base x s = .error e t) : e.isRegular = true := by
  unfold unwinding at h
  cases hrun : x s with
  | ok a u =>
    rw [hrun] at h
    cases h
  | error e' u =>
    have he' := hx e' u hrun
    rw [hrun] at h
    cases e' with
    | fault | outOfFuel =>
      cases h
      rfl
    | raised context cause =>
      dsimp only at h
      cases hu : unwind p (u.frames.length - base) (.raised context cause) u with
      | ok e'' w =>
        rw [hu] at h
        cases h
        exact (Coupling.steady_regular (n := 0) hp).unwind_shared he' hu
      | error e'' w =>
        rw [hu] at h
        cases h
        have hraised := (unwind_frames (p := p) (Nat.sub_le u.frames.length base)
          (.raised context cause)).2
        cases e with
        | raised context' cause' => exact absurd hu (hraised context' cause' t)
        | fault | outOfFuel => rfl

/-! ## Requests -/

theorem within_regular {α : Type} {x : Exec α} {c : Context}
    (hx : ∀ e t, x s = .error e t → e.isRegular = true) (h : within c x s = .error e t) :
    e.isRegular = true := by
  unfold within at h
  cases hfails : x s with
  | ok a u =>
    rw [hfails] at h
    cases h
  | error e' u =>
    rw [hfails] at h
    cases h
    rw [Failure.isRegular_within]
    exact hx e' t hfails

section Requests

variable {fuel : Nat} {args : List Value} (hp : p.module.Built) (hs : Idle p s)

include hp hs

theorem callFunction_regular (h : callFunction p fuel id args s = .error e t) :
    e.isRegular = true := by
  rw [callFunction_eq, hs.frames_eq_nil] at h
  cases hstart : startCall p id args s with
  | error e' u =>
    rw [hstart] at h
    cases h
    have hmatches := (Coupling.steady_regular (n := 0) hp.paramsFirst).startCall id args s s
      ⟨rfl, Nat.zero_le _⟩
    exact hmatches.isRegular hstart
  | ok started u =>
    rw [hstart] at h
    cases started with
    | returned v => cases h
    | entered =>
      have habove := above_of_startCall hstart
      rw [hs.frames_eq_nil] at habove
      exact unwinding_regular hp.paramsFirst
        (fun _ _ => runFrom_regular hp (.entered id args hs hstart) habove) h

theorem runFunction_regular (h : runFunction p fuel id args s = .error e t) :
    e.isRegular = true := by
  rcases bind_eq_error_iff.mp h with hmissing | ⟨f, u, hf, hrun⟩
  · cases hf : p.module.function id with
    | ok f =>
      rw [hf] at hmissing
      cases hmissing
    | error fault =>
      rw [hf] at hmissing
      cases hmissing
      rfl
  · obtain ⟨_, rfl⟩ := liftFault_eq_ok_iff.mp hf
    exact within_regular (fun _ _ => callFunction_regular hp hs) hrun

/-- The initializer is run as any function is. -/
theorem runGlobalInit_regular (h : runGlobalInit p fuel s = .error e t) : e.isRegular = true := by
  unfold runGlobalInit at h
  by_cases hasked : p.config.runGlobalInit = true
  · rw [if_pos hasked] at h
    cases hfound : p.module.globalInit with
    | none =>
      simp only [hfound] at h
      cases h
    | some init =>
      simp only [hfound] at h
      rcases bind_eq_error_iff.mp h with hfails | ⟨_, _, _, hdone⟩
      · exact within_regular (fun _ _ => runFunction_regular hp hs) hfails
      · cases hdone
  · rw [if_neg hasked] at h
    cases h

theorem setUp_regular (h : setUp p fuel s = .error e t) : e.isRegular = true := by
  by_cases hinit : s.initialized = true
  · rw [setUp_of_initialized fuel hinit] at h
    cases h
  · rw [setUp_of_fresh fuel hinit] at h
    rcases bind_eq_error_iff.mp h with hprepare | ⟨_, u, hprepare, hrun⟩
    · have hmatches := (Coupling.preparing_regular hp.paramsFirst).preparation s s
        ⟨rfl, Nat.zero_le _⟩
      exact hmatches.isRegular hprepare
    · exact runGlobalInit_regular hp (.prepared hs hprepare) hrun

end Requests

end Exec

/-- The failure carries an error about the program, or it gives no control back. -/
def Failure.Typed (e : Failure) : Prop :=
  (∃ err, e.error? = some err ∧ err.isInternal = false) ∨ (∃ f, e = .fault f) ∨ e = .outOfFuel

theorem Failure.Typed.of_isRegular (h : e.isRegular = true) : e.Typed := by
  cases e with
  | fault f => exact .inr (.inl ⟨f, rfl⟩)
  | outOfFuel => exact .inr (.inr rfl)
  | raised context cause =>
    cases cause with
    | error err =>
      refine .inl ⟨err, rfl, ?_⟩
      simpa only [isRegular, Bool.not_eq_true'] using h
    | _ => cases h

/-- The one failure without an error is that of asking for a function by a name that there is not. -/
theorem Command.typed_of_obey {c : Command} (hp : p.module.Built) (hs : Idle p s)
    (h : c.obey p s = .error e t) : e.Typed ∨ ∃ fuel name args, c = .runByName fuel name args ∧
      p.module.functionByName? name = none ∧ e = .raised [] (.functionNotFound name) := by
  have hsteady := Coupling.steady_regular (n := 0) hp.paramsFirst
  -- What is done with a value does not fail, so the failure is that of the computation of it.
  have fails {α : Type} {x : Exec α} {g : α → Answer} (hx : (do return g (← x) : Exec Answer) s =
      .error e t) : x s = .error e t := by
    rcases bind_eq_error_iff.mp hx with hx | ⟨_, _, _, hdone⟩
    · exact hx
    · cases hdone
  cases c with
  | setUp fuel => exact .inl (.of_isRegular (setUp_regular hp hs (fails h)))
  | compile id =>
    have hmatches := hsteady.compileFunction id s s ⟨rfl, Nat.zero_le _⟩
    exact .inl (.of_isRegular (hmatches.isRegular (fails h)))
  | run fuel id args => exact .inl (.of_isRegular (runFunction_regular hp hs (fails h)))
  | runByName fuel name args =>
    have hrun := fails h
    unfold runFunctionByName at hrun
    cases hname : p.module.functionByName? name with
    | some id =>
      rw [hname] at hrun
      exact .inl (.of_isRegular (runFunction_regular hp hs hrun))
    | none =>
      rw [hname] at hrun
      cases hrun
      exact .inr ⟨fuel, name, args, rfl, hname, rfl⟩
  | globalAddress id =>
    have hmatches := hsteady.globalAddress id s s ⟨rfl, Nat.zero_le _⟩
    exact .inl (.of_isRegular (hmatches.isRegular (fails h)))
  | globalValue id =>
    have hmatches := hsteady.globalValue id s s ⟨rfl, Nat.zero_le _⟩
    exact .inl (.of_isRegular (hmatches.isRegular (fails h)))

/-- Every failure is typed and none is one of the machine itself: of a command between requests, of
any sequence of commands, and of an instruction at any point of a run. For only functions whose
blocks all end with a terminator are executed, control is at an instruction of its block, a frame
has a slot for each local of its function, and a terminator goes to a block or returns. -/
theorem failures_are_typed (hp : p.module.Built) :
    (∀ s c e t, Idle p s → Command.obey p c s = .error e t → e.Typed ∨ ∃ fuel name args,
      c = .runByName fuel name args ∧ p.module.functionByName? name = none ∧
        e = .raised [] (.functionNotFound name)) ∧
    (∀ commands e, .error e ∈ (serve p commands {}).1 → e.Typed ∨ ∃ fuel name args,
      .runByName fuel name args ∈ commands ∧ p.module.functionByName? name = none ∧
        e = .raised [] (.functionNotFound name)) ∧
    (∀ s base e t, Reachable p s → s.frames ≠ [] → Exec.step p base s = .error e t → e.Typed) ∧
    (∀ s, Reachable p s → ∀ fr ∈ s.frames, ∃ f, p.module.function fr.function = .ok f ∧
      f.unterminated? = none ∧ fr.locals.size = f.locals.size ∧
      ∀ block, f.block? fr.block = some block → fr.pc < block.instructions.size) ∧
    ∀ s f inst flow t, inst.op.isTerminator = true → Exec.execute p f inst s = .ok flow t →
      (∃ target, flow = .jump target) ∨ ∃ v, flow = .ret v := by
  refine ⟨fun s c e t hs => Command.typed_of_obey hp hs, fun commands e hanswer => ?_,
    fun s base e t hs hne hstep => ?_, fun s hs fr hfr => ?_, fun s f inst flow t hinst =>
      flow_of_terminator hinst⟩
  · obtain ⟨c, hc, u, t, hu, hobey⟩ := obey_of_serve_keeping Idle.obeyed .fresh hanswer
    rcases Command.typed_of_obey hp hu hobey with htyped | ⟨fuel, name, args, rfl, hname, he⟩
    · exact .inl htyped
    · exact .inr ⟨fuel, name, args, hc, hname, he⟩
  · obtain ⟨fr, rest, hfr⟩ := List.exists_cons_of_ne_nil hne
    exact .of_isRegular (step_regular hp.paramsFirst (hs.sturdy hp) hfr hstep)
  · obtain ⟨⟨f, hf, hends, hpc⟩, htyped⟩ := hs.sturdy hp fr hfr
    exact ⟨f, hf, hends, htyped.slots hf, hpc⟩

/-- A call that reaches unreachable code fails with the error that says so. In the middle of a run
the function that is executed is one whose blocks all end with a terminator. -/
theorem failures_are_typed_doubling :
    (∃ e, .error e ∈ (serve Doubling.program [.run 9 ⟨1⟩ []] {}).1 ∧
      ∃ err, e.error? = some err ∧ err.isInternal = false) ∧
    ∀ fr ∈ Doubling.computed.frames, ∃ f, Doubling.program.module.function fr.function = .ok f ∧
      f.unterminated? = none := by
  obtain ⟨_, hanswers, _, hframes, _⟩ := failures_are_typed (p := Doubling.program)
    Doubling.module_built
  refine ⟨?_, fun fr hfr => ?_⟩
  · obtain ⟨context, cause, hobey⟩ : ∃ context cause,
        Command.obey Doubling.program (.run 9 ⟨1⟩ []) {} = .error (.raised context cause) _ :=
      eq_error_of_raises (by decide +kernel)
    have hanswer : .error (.raised context cause) ∈
        (serve Doubling.program [.run 9 ⟨1⟩ []] {}).1 := by
      rw [serve, hobey]
      exact List.mem_cons_self
    refine ⟨_, hanswer, ?_⟩
    rcases hanswers _ _ hanswer with (herror | ⟨_, hfault⟩ | hfuel) | ⟨_, _, _, hmem, _⟩
    · exact herror
    · cases hfault
    · cases hfuel
    · cases List.mem_singleton.mp hmem
  · obtain ⟨f, hf, hends, _⟩ := hframes _ Doubling.computed_reachable fr hfr
    exact ⟨f, hf, hends⟩

end PackedIR
