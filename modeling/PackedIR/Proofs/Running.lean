/-
What a run does.

A run of a call owns the callee's frame and everything above it. `Above id below s` says
that such a run is under way: the lowest frame above `below` executes `id`. A step keeps
this up or gives the result, and then exactly `below` is left; the frames in `below` are
looked at by neither. By induction the same holds of a whole run. A run that raises an
error leaves frames behind, and unwinding takes them off.

A call instruction does not start a run of its own: the machine goes on in the callee
and comes back. `runFrom_rebase` says that this makes no difference. Up to the callee's
return the machine does what a run of the callee alone would do, and then it delivers
the result to the caller.
-/
import PackedIR.Proofs.Stepping

set_option autoImplicit false

namespace PackedIR

variable {p : Program} {s t u : State} {id : FuncId} {below : List Frame}

/-- The value is one that a call of `id` may return. -/
def Returns (p : Program) (id : FuncId) (v : Value) : Prop :=
  ∃ f sig, p.module.function id = .ok f ∧ f.signature = .ok sig ∧ v.HasTy sig.ret ∧
    v.origin = .intermediate

/-- A call of `id` is under way on top of the frames in `below`. -/
def Above (id : FuncId) (below : List Frame) (s : State) : Prop :=
  ∃ upper low, s.frames = upper ++ low :: below ∧ low.function = id

theorem Above.length_lt (h : Above id below s) : below.length < s.frames.length := by
  obtain ⟨upper, low, hframes, _⟩ := h
  rw [hframes, List.length_append, List.length_cons]
  omega

/-- A call is still under way when its innermost frame has changed only in itself. -/
theorem Above.replace {fr fr' : Frame} {rest : List Frame} (h : Above id below s)
    (hfr : s.frames = fr :: rest) (hfun : fr'.function = fr.function)
    (ht : t.frames = fr' :: rest) : Above id below t := by
  obtain ⟨upper, low, hframes, hid⟩ := h
  rw [hfr] at hframes
  cases upper with
  | nil =>
    cases hframes
    exact ⟨[], fr', ht, hfun.trans hid⟩
  | cons g upper =>
    cases hframes
    exact ⟨fr' :: upper, low, ht, hid⟩

theorem Above.push {callee : Frame} (h : Above id below s) (ht : t.frames = callee :: s.frames) :
    Above id below t := by
  obtain ⟨upper, low, hframes, hid⟩ := h
  rw [hframes] at ht
  exact ⟨callee :: upper, low, ht, hid⟩

/-- The frame that is taken off was the lowest of the call, or the call is still under way. -/
theorem Above.pop {fr : Frame} {rest : List Frame} (h : Above id below s)
    (hfr : s.frames = fr :: rest) (ht : t.frames = rest) :
    (rest = below ∧ fr.function = id) ∨ Above id below t := by
  obtain ⟨upper, low, hframes, hid⟩ := h
  rw [hfr] at hframes
  cases upper with
  | nil =>
    cases hframes
    exact .inl ⟨rfl, hid⟩
  | cons g upper =>
    cases hframes
    exact .inr ⟨upper, low, ht, hid⟩

namespace Exec

variable {α β : Type}

/-! ## Endings -/

/-- The computation comes to an end in `t`: it succeeds, or it raises an error. A fault is no
ending, and neither is an exhausted step budget. -/
def Ends (x : Exec α) (s t : State) : Prop :=
  (∃ a, x s = .ok a t) ∨ ∃ context cause, x s = .error (.raised context cause) t

theorem Ends.after_eq {x : Exec α} (h : Ends x s t) : x.after s = t := by
  rcases h with ⟨_, h⟩ | ⟨_, _, h⟩
  · exact after_of_ok h
  · exact after_of_error h

/-- The value of a computation that succeeds. -/
def result? (x : Exec α) (s : State) : Option α :=
  match x s with
  | .ok a _ => some a
  | .error _ _ => none

theorem eq_ok_of_result? {x : Exec α} {a : α} (h : x.result? s = some a) :
    x s = .ok a (x.after s) := by
  unfold result? at h
  unfold after
  cases hx : x s with
  | ok b t =>
    rw [hx] at h
    cases h
    rfl
  | error e t =>
    rw [hx] at h
    cases h

/-- Whether a computation raises an error. -/
def raises (x : Exec α) (s : State) : Bool :=
  match x s with
  | .error (.raised _ _) _ => true
  | _ => false

theorem eq_error_of_raises {x : Exec α} (h : x.raises s = true) :
    ∃ context cause, x s = .error (.raised context cause) (x.after s) := by
  unfold raises at h
  unfold after
  cases hx : x s with
  | ok b t => simp [hx] at h
  | error e t =>
    cases e with
    | raised context cause => exact ⟨context, cause, rfl⟩
    | fault | outOfFuel => simp [hx] at h

/-- Contexts decide nothing about how a computation ends. -/
theorem ends_within_iff {c : Context} {x : Exec α} : Ends (within c x) s t ↔ Ends x s t := by
  unfold Ends within
  cases x s with
  | ok a u => simp
  | error e u => cases e <;> simp [Failure.within]

/-- A sequence that ends has ended in its first part, or in its second. -/
theorem Ends.of_bind {x : Exec α} {f : α → Exec β} (h : Ends (x >>= f) s t) :
    Ends x s t ∨ ∃ a u, x s = .ok a u ∧ Ends (f a) u t := by
  unfold Ends at h
  rw [bind_apply] at h
  cases hx : x s with
  | ok a u =>
    rw [hx] at h
    exact .inr ⟨a, u, rfl, h⟩
  | error e u =>
    rw [hx] at h
    rcases h with ⟨_, h⟩ | ⟨context, cause, h⟩
    · cases h
    · cases h
      exact .inl (.inr ⟨context, cause, hx⟩)

/-! ## Return values -/

theorem hasTy_of_returnValue {f : Function} {inst : Instruction} {v : Value}
    (h : returnValue p f inst s = .ok v t) :
    ∃ sig, f.signature = .ok sig ∧ v.HasTy sig.ret ∧ v.origin = .intermediate := by
  unfold returnValue at h
  obtain ⟨sig, w, hsig, h⟩ := bind_eq_ok_iff.mp h
  refine ⟨sig, (liftFault_eq_ok_iff.mp hsig).1, ?_⟩
  cases hargs : inst.args with
  | nil =>
    -- A return without a value gives zeroes.
    simp only [hargs] at h
    cases h
    exact ⟨Value.hasTy_zeroed sig.ret, rfl⟩
  | cons value more =>
    cases more with
    | nil =>
      simp only [hargs] at h
      obtain ⟨_, _, _, h⟩ := bind_eq_ok_iff.mp h
      obtain ⟨w, _, hre, h⟩ := bind_eq_ok_iff.mp h
      cases h
      rw [Value.hasTy_withOrigin]
      exact ⟨Value.hasTy_of_retype (lift_eq_ok_iff.mp hre).1, rfl⟩
    | cons =>
      simp only [hargs] at h
      exact absurd (lift_eq_ok_iff.mp h).1 (by simp)

/-- Only a return instruction returns, and it does so under the declared type. -/
theorem hasTy_of_execute_ret {f : Function} {inst : Instruction} {v : Value}
    (h : execute p f inst s = .ok (.ret v) t) :
    ∃ sig, f.signature = .ok sig ∧ v.HasTy sig.ret ∧ v.origin = .intermediate := by
  unfold execute at h
  cases hop : inst.op with
  | ret =>
    simp only [hop] at h
    obtain ⟨w, _, hw, h⟩ := bind_eq_ok_iff.mp h
    cases h
    exact hasTy_of_returnValue hw
  | unreachable =>
    simp only [hop] at h
    exact absurd (lift_eq_ok_iff.mp h).1 (by simp)
  | call op =>
    simp only [hop] at h
    obtain ⟨started, _, _, h⟩ := bind_eq_ok_iff.mp h
    cases started <;> cases h
  | branch | condBranch | phi | unary | cast | binary | place | insertValue | extractValue
  | getField | setField | union =>
    simp only [hop] at h
    obtain ⟨_, _, _, h⟩ := bind_eq_ok_iff.mp h
    cases h

/-! ## Runs -/

/-- A step of a call ends it with a value of its type and leaves what was below, or stays in it. -/
theorem step_above (h : Above id below s) :
    (∀ v t, step p below.length s = .ok (some v) t → t.frames = below ∧ Returns p id v) ∧
      ((∀ v t, step p below.length s ≠ .ok (some v) t) →
        Above id below ((step p below.length).after s)) := by
  have hlen := h.length_lt
  cases hfr : s.frames with
  | nil =>
    rw [hfr] at hlen
    cases hlen
  | cons fr rest =>
    cases step_shape (p := p) below.length hfr with
    | inside fr' hfun hafter hunfinished =>
      refine ⟨fun v t hstep => absurd hstep (hunfinished v t), fun _ => ?_⟩
      exact h.replace hfr hfun hafter
    | entered callee _ _ hstep hafter =>
      rw [← hfr] at hafter
      rw [after, hstep]
      exact ⟨by simp, fun _ => h.push hafter⟩
    | returned hcur hexec _ _ hrest hstep =>
      rcases h.pop hfr hrest with ⟨hbelow, hid⟩ | hrun
      · -- The call itself returns, and nobody is left to deliver to.
        rw [hbelow] at hrest
        have hdone := hstep.trans (deliver_of_le (Nat.le_of_eq (congrArg List.length hrest)))
        rw [hdone]
        refine ⟨?_, fun hne => absurd rfl (hne _ _)⟩
        rintro _ _ ⟨⟩
        obtain ⟨sig, hsig, hv⟩ := hasTy_of_execute_ret hexec
        refine ⟨hrest, _, sig, ?_, hsig, hv⟩
        rw [← hid]
        exact (current_eq_ok hcur).1
      · -- The frame that the value goes to is still one of the call's own.
        have hcaller := hrun.length_lt
        rw [after, hstep, ← after]
        cases rest with
        | nil =>
          rw [hrest] at hcaller
          cases hcaller
        | cons caller others =>
          obtain ⟨⟨locals, pc, hafter⟩, hne⟩ := deliver_shape hrest hcaller
          refine ⟨fun v t hd => absurd hd (hne v t), fun _ => ?_⟩
          exact hrun.replace hrest (by rfl) (congrArg State.frames hafter)

theorem runFrom_succ (base fuel : Nat) (s : State) :
    runFrom p base (fuel + 1) s = match step p base s with
      | .ok (some v) t => .ok v t
      | .ok none t => runFrom p base fuel t
      | .error e t => .error e t := by
  rw [runFrom, bind_apply]
  cases step p base s with
  | error e t => rfl
  | ok r t => cases r <;> rfl

/-- A run of a call that succeeds leaves what was below; one that fails is still in the call. -/
theorem runFrom_above (fuel : Nat) (h : Above id below s) :
    (∀ v t, runFrom p below.length fuel s = .ok v t → t.frames = below ∧ Returns p id v) ∧
      ∀ e t, runFrom p below.length fuel s = .error e t → Above id below t := by
  -- The invariant of the loop is that the call is under way.
  induction fuel generalizing s with
  | zero =>
    rw [runFrom, throw_apply]
    refine ⟨fun _ _ hrun => ?_, fun _ _ hrun => ?_⟩
    · cases hrun
    · cases hrun
      exact h
  | succ fuel ih =>
    obtain ⟨hresult, hstays⟩ := step_above (p := p) h
    rw [runFrom_succ]
    cases hstep : step p below.length s with
    | error e t =>
      rw [hstep, after_of_error hstep] at hstays
      refine ⟨fun _ _ hrun => ?_, fun _ _ hrun => ?_⟩
      · cases hrun
      · cases hrun
        exact hstays (by simp)
    | ok r t =>
      cases r with
      | some v =>
        refine ⟨fun _ _ hrun => ?_, fun _ _ hrun => ?_⟩
        · cases hrun
          exact hresult v t hstep
        · cases hrun
      | none =>
        rw [hstep, after_of_ok hstep] at hstays
        exact ih (hstays (by simp))

theorem runFrom_moves (base fuel : Nat) : Along (Moves p) (runFrom p base fuel) := by
  induction fuel with
  | zero => exact (reads_throw _).along
  | succ fuel ih =>
    refine (step_moves base).bind fun r => ?_
    cases r with
    | some v => exact (reads_pure v).along
    | none => exact ih

/-! ## Calls made by the machine -/

/-- How many frames a run counts as its own matters only when a frame is returned from. -/
theorem step_rebase {base d : Nat} (hle : base ≤ d) (hlen : d < s.frames.length) :
    step p base s = match step p d s with
      | .ok (some v) t => deliver p base v t
      | .ok none t => .ok none t
      | .error e t => .error e t := by
  cases hfr : s.frames with
  | nil =>
    rw [hfr] at hlen
    cases hlen
  | cons fr rest =>
    cases hcur : fr.current p.module with
    | error e => rw [step_of_current_error base hfr hcur, step_of_current_error d hfr hcur]
    | ok c =>
      obtain ⟨f, block, inst⟩ := c
      cases hx : execute p f inst s with
      | error e t =>
        rw [step_of_execute_error base hfr hcur hx, step_of_execute_error d hfr hcur hx]
      | ok flow t =>
        rw [step_of_executed base hfr hcur hx, step_of_executed d hfr hcur hx]
        cases flow with
        | complete v =>
          simp only [proceed, bind_apply]
          cases complete f inst v t <;> rfl
        | jump target => rfl
        | entered => rfl
        | ret v =>
          -- Here the two runs may part: one of them may be finished.
          simp only [proceed, bind_apply]
          cases hpop : popFrame t with
          | error e u => rfl
          | ok a u =>
            dsimp only
            by_cases hlast : u.frames.length ≤ d
            · rw [deliver_of_le hlast]
            · -- Both runs go on in the same caller.
              cases hu : u.frames with
              | nil =>
                rw [hu] at hlast
                exact absurd (Nat.zero_le d) hlast
              | cons g us =>
                rw [deliver_of_lt hu (by omega), deliver_of_lt hu (by omega)]
                cases hg : g.current p.module with
                | error e => rfl
                | ok c =>
                  simp only [bind_apply]
                  cases complete c.1 c.2.2 (some v) u <;> rfl

/-- A run that has more frames of its own does what the run of the call under way does, and when
that call returns, delivers its value and goes on with the steps that are left. -/
theorem runFrom_rebase {base : Nat} (hle : base ≤ below.length) (h : Above id below s)
    (fuel : Nat) :
    (∀ v t, runFrom p below.length fuel s = .ok v t → ∃ left, left < fuel ∧
      runFrom p base fuel s = (do
        match ← deliver p base v with
        | some w => return w
        | none => runFrom p base left : Exec Value) t) ∧
      ∀ e t, runFrom p below.length fuel s = .error e t → runFrom p base fuel s = .error e t := by
  induction fuel generalizing s with
  | zero =>
    rw [runFrom, runFrom, throw_apply]
    refine ⟨fun _ _ hrun => ?_, fun _ _ hrun => hrun⟩
    cases hrun
  | succ fuel ih =>
    obtain ⟨_, hstays⟩ := step_above (p := p) h
    rw [runFrom_succ, runFrom_succ, step_rebase hle h.length_lt]
    cases hstep : step p below.length s with
    | error e t =>
      refine ⟨fun _ _ hrun => ?_, fun _ _ hrun => hrun⟩
      cases hrun
    | ok r t =>
      cases r with
      | some v =>
        refine ⟨fun _ _ hrun => ?_, fun _ _ hrun => ?_⟩
        · cases hrun
          refine ⟨fuel, Nat.lt_succ_self fuel, ?_⟩
          dsimp only
          rw [bind_apply]
          cases deliver p base v t with
          | error e u => rfl
          | ok r u => cases r <;> rfl
        · cases hrun
      | none =>
        rw [hstep, after_of_ok hstep] at hstays
        obtain ⟨hok, herror⟩ := ih (hstays (by simp))
        refine ⟨fun v u hrun => ?_, herror⟩
        obtain ⟨left, hleft, hrun⟩ := hok v u hrun
        exact ⟨left, Nat.lt_succ_of_lt hleft, hrun⟩

/-! ## Unwinding -/

theorem unwind_succ {fr : Frame} {rest : List Frame} (hfr : s.frames = fr :: rest) (count : Nat)
    (e : Failure) :
    unwind p (count + 1) e s = match popFrame s with
      | .ok _ t => unwind p count (match fr.context? p.module with
        | some c => e.within c
        | none => e) t
      | .error e t => .error e t := by
  rw [unwind, bind_of_ok (frame_eq_ok_iff.mpr ⟨rfl, rest, hfr⟩), bind_apply]
  cases popFrame s <;> rfl

/-- Unwinding takes off as many frames as it is told to, and cannot raise an error when there are
that many. -/
theorem unwind_frames {count : Nat} (hcount : count ≤ s.frames.length) (e : Failure) :
    (∀ e' t, unwind p count e s = .ok e' t → t.frames = s.frames.drop count) ∧
      ∀ context cause t, unwind p count e s ≠ .error (.raised context cause) t := by
  induction count generalizing s e with
  | zero =>
    rw [unwind, pure_apply]
    refine ⟨fun _ _ h => ?_, fun _ _ _ h => ?_⟩
    · cases h
      rfl
    · cases h
  | succ count ih =>
    cases hfr : s.frames with
    | nil =>
      rw [hfr] at hcount
      exact absurd hcount (Nat.not_succ_le_zero count)
    | cons fr rest =>
      rw [unwind_succ hfr, List.drop_succ_cons]
      rw [hfr, List.length_cons] at hcount
      cases hpop : popFrame s with
      | error e t =>
        -- Storage that cannot be released is a fault, and a fault is not raised.
        rw [popFrame_eq hfr] at hpop
        cases hrel : s.memory.stack.removeAll fr.allocs with
        | ok stack =>
          simp only [hrel] at hpop
          cases hpop
        | error f =>
          simp only [hrel] at hpop
          cases hpop
          refine ⟨fun _ _ h => ?_, fun _ _ _ h => ?_⟩ <;> cases h
      | ok a t =>
        have hrest : t.frames = rest := by
          cases leaves_of_popFrame hpop with
          | intro hfr' _ =>
            rw [hfr] at hfr'
            cases hfr'
            rfl
        rw [← hrest]
        exact ih (by rw [hrest]; omega) _

theorem unwind_moves (count : Nat) (e : Failure) : Along (Moves p) (unwind p count e) := by
  induction count generalizing e with
  | zero => exact (reads_pure e).along
  | succ count ih => exact reads_frame.along.bind fun _ => popFrame_moves.bind fun _ => ih _

theorem unwinding_moves {x : Exec α} (base : Nat) (hx : Along (Moves p) x) :
    Along (Moves p) (unwinding p base x) := by
  intro s
  have hmoved := hx s
  unfold after unwinding
  cases h : x s with
  | ok a t =>
    rw [after_of_ok h] at hmoved
    exact hmoved
  | error e t =>
    rw [after_of_error h] at hmoved
    cases e with
    | fault | outOfFuel => exact hmoved
    | raised context cause =>
      refine .trans hmoved ?_
      have hunwound := unwind_moves (p := p) (t.frames.length - base) (.raised context cause) t
      dsimp only
      cases hu : unwind p (t.frames.length - base) (.raised context cause) t with
      | ok e' u =>
        rw [after_of_ok hu] at hunwound
        exact hunwound
      | error e' u =>
        rw [after_of_error hu] at hunwound
        exact hunwound

/-- Unwinding is for failures: it turns none of them into a success. -/
theorem unwinding_eq_ok_iff {x : Exec α} {base : Nat} {a : α} :
    unwinding p base x s = .ok a t ↔ x s = .ok a t := by
  unfold unwinding
  cases x s with
  | ok b u => exact Iff.rfl
  | error e u =>
    cases e with
    | fault | outOfFuel => exact Iff.rfl
    | raised context cause =>
      dsimp only
      split <;> simp

/-- What remains after unwinding a computation that stays on top of `below` is `below`. -/
theorem unwinding_frames {x : Exec α} (hok : ∀ a t, x s = .ok a t → t.frames = below)
    (herror : ∀ e t, x s = .error e t → ∃ upper, t.frames = upper ++ below)
    (h : Ends (unwinding p below.length x) s t) : t.frames = below := by
  unfold Ends unwinding at h
  cases hx : x s with
  | ok a u =>
    rw [hx] at h
    rcases h with ⟨_, h⟩ | ⟨_, _, h⟩
    · cases h
      exact hok a t hx
    · cases h
  | error e u =>
    rw [hx] at h
    cases e with
    | fault | outOfFuel => rcases h with ⟨_, h⟩ | ⟨_, _, h⟩ <;> cases h
    | raised context cause =>
      obtain ⟨upper, hupper⟩ := herror _ u hx
      -- As many frames are taken off as there are above `below`.
      have hcount : u.frames.length - below.length = upper.length := by
        rw [hupper, List.length_append]
        omega
      obtain ⟨hdropped, hraised⟩ :=
        unwind_frames (p := p) (Nat.sub_le u.frames.length below.length) (.raised context cause)
      dsimp only at h
      cases hu : unwind p (u.frames.length - below.length) (.raised context cause) u with
      | ok e' w =>
        rw [hu] at h
        rcases h with ⟨_, h⟩ | ⟨_, _, h⟩
        · cases h
        · cases h
          rw [hdropped _ _ hu, hcount, hupper, List.drop_left]
      | error e' w =>
        rw [hu] at h
        rcases h with ⟨_, h⟩ | ⟨_, _, h⟩
        · cases h
        · cases h
          exact absurd hu (hraised _ _ _)

/-! ## Calls -/

theorem hasTy_of_callNative {callee : Callee} {args : List Value} {v : Value}
    (h : callNative p callee args s = .ok v t) :
    v.HasTy callee.ret ∧ v.origin = .intermediate := by
  obtain ⟨_, _, _, h⟩ := bind_eq_ok_iff.mp h
  obtain ⟨_, _, _, h⟩ := bind_eq_ok_iff.mp h
  exact Returned.hasTy_of_value (lift_eq_ok_iff.mp h).1

theorem hasTy_of_callDeclaration {f : Function} {sig : Signature} {args : List Value} {v : Value}
    (h : callDeclaration p id f sig args s = .ok v t) :
    v.HasTy sig.ret ∧ v.origin = .intermediate := by
  obtain ⟨symbol, u, _, h⟩ := bind_eq_ok_iff.mp h
  cases hsymbol : p.resolver symbol with
  | none =>
    simp only [hsymbol] at h
    exact absurd (lift_eq_ok_iff.mp h).1 (by simp)
  | some address =>
    simp only [hsymbol] at h
    exact hasTy_of_callNative h

/-- A call is a native call or a run; a call that fails to start leaves nothing to unwind. -/
theorem callFunction_eq (fuel : Nat) (id : FuncId) (args : List Value) (s : State) :
    callFunction p fuel id args s = match startCall p id args s with
      | .ok (.returned v) t => .ok v t
      | .ok .entered t =>
        unwinding p s.frames.length (runFrom p s.frames.length fuel) t
      | .error e t => .error e t := by
  unfold callFunction
  rw [bind_of_ok (get_apply s)]
  unfold unwinding
  simp only [bind_apply]
  cases hstart : startCall p id args s with
  | ok started t => cases started <;> rfl
  | error e t =>
    cases e with
    | fault | outOfFuel => rfl
    | raised context cause =>
      -- No frame has been pushed yet, so none is taken off.
      have hframes := ((startCall_settles (refl_of (Effects p) s)).of_error hstart).frames_eq
      dsimp only
      rw [hframes, Nat.sub_self, unwind, pure_apply]

theorem above_of_startCall {args : List Value} (h : startCall p id args s = .ok .entered t) :
    Above id s.frames t := by
  cases (startCall_settles (refl_of (Effects p) s)).of_ok h with
  | entered heff henters =>
    obtain ⟨locals, hframes⟩ := henters.frames
    rw [heff.frames_eq] at hframes
    exact ⟨[], _, hframes, rfl⟩

theorem startCall_moves (id : FuncId) (args : List Value) :
    Along (Moves p) (startCall p id args) := by
  intro s
  have hsettles : Settles p s (Begins p id s) (startCall p id args) s :=
    startCall_settles (refl_of (Effects p) s)
  cases h : startCall p id args s with
  | error e t =>
    rw [after_of_error h]
    exact .effects (hsettles.of_error h)
  | ok started t =>
    rw [after_of_ok h]
    cases hsettles.of_ok h with
    | returned v heff => exact .effects heff
    | entered heff henters => exact .trans (.effects heff) (.enters id henters)

theorem callFunction_moves (fuel : Nat) (id : FuncId) (args : List Value) :
    Along (Moves p) (callFunction p fuel id args) := by
  refine reads_get.along.bind fun s => ?_
  refine unwinding_moves _ ((startCall_moves id args).bind fun started => ?_)
  cases started with
  | returned v => exact (reads_pure v).along
  | entered => exact runFrom_moves _ _

/-- However a call ends, the frames are those from before it. -/
theorem callFunction_frames {fuel : Nat} {args : List Value}
    (h : Ends (callFunction p fuel id args) s t) : t.frames = s.frames := by
  unfold Ends at h
  rw [callFunction_eq] at h
  have hsettles : Settles p s (Begins p id s) (startCall p id args) s :=
    startCall_settles (refl_of (Effects p) s)
  cases hstart : startCall p id args s with
  | error e u =>
    rw [hstart] at h
    rcases h with ⟨_, h⟩ | ⟨_, _, h⟩
    · cases h
    · cases h
      exact (hsettles.of_error hstart).frames_eq
  | ok started u =>
    rw [hstart] at h
    cases started with
    | returned v =>
      rcases h with ⟨_, h⟩ | ⟨_, _, h⟩
      · -- Native code has no frame.
        cases h
        cases hsettles.of_ok hstart with
        | returned _ heff => exact heff.frames_eq
      · cases h
    | entered =>
      obtain ⟨hok, herror⟩ := runFrom_above (p := p) fuel (above_of_startCall hstart)
      refine unwinding_frames (fun v w hrun => (hok v w hrun).1) (fun e w hrun => ?_) h
      obtain ⟨upper, low, hw, _⟩ := herror e w hrun
      exact ⟨upper ++ [low], by rw [hw, List.append_cons]⟩

theorem returns_of_startCall {args : List Value} {v : Value}
    (h : startCall p id args s = .ok (.returned v) t) : Returns p id v := by
  unfold startCall at h
  simp only [bind_eq_ok_iff (x := liftM _), liftFault_eq_ok_iff] at h
  obtain ⟨f, _, ⟨hfound, rfl⟩, sig, _, ⟨hsig, rfl⟩, h⟩ := h
  refine ⟨f, sig, hfound, hsig, ?_⟩
  by_cases hadmits : (!sig.admits args.length) = true
  · rw [if_pos hadmits] at h
    exact absurd (lift_eq_ok_iff.mp h).1 (by simp)
  · rw [if_neg hadmits] at h
    by_cases hdecl : f.isDeclaration = true
    · rw [if_pos hdecl] at h
      obtain ⟨w, _, hcall, h⟩ := bind_eq_ok_iff.mp h
      cases h
      exact hasTy_of_callDeclaration hcall
    · rw [if_neg hdecl] at h
      obtain ⟨_, _, _, h⟩ := bind_eq_ok_iff.mp h
      obtain ⟨_, _, _, h⟩ := bind_eq_ok_iff.mp h
      cases h

/-- A call that succeeds returns a value of the callee's type. -/
theorem callFunction_returns {fuel : Nat} {args : List Value} {v : Value}
    (h : callFunction p fuel id args s = .ok v t) : Returns p id v := by
  rw [callFunction_eq] at h
  cases hstart : startCall p id args s with
  | error e u =>
    rw [hstart] at h
    cases h
  | ok started u =>
    rw [hstart] at h
    cases started with
    | returned w =>
      cases h
      exact returns_of_startCall hstart
    | entered =>
      have hrun := unwinding_eq_ok_iff.mp h
      exact ((runFrom_above fuel (above_of_startCall hstart)).1 v t hrun).2

/-- A run that enters a call does what the call does, up to the delivery of its value or up to the
end of its unwinding. -/
theorem runFrom_of_callFunction {base fuel : Nat} {args : List Value}
    (hbase : base ≤ s.frames.length) (hstart : startCall p id args s = .ok .entered u) :
    (∀ v t, callFunction p fuel id args s = .ok v t → ∃ left, left < fuel ∧
      runFrom p base fuel u = (do
        match ← deliver p base v with
        | some w => return w
        | none => runFrom p base left : Exec Value) t) ∧
      ∀ e t, callFunction p fuel id args s = .error e t →
        unwinding p s.frames.length (runFrom p base fuel) u = .error e t := by
  obtain ⟨hok, herror⟩ := runFrom_rebase (p := p) hbase (above_of_startCall hstart) fuel
  simp only [callFunction_eq, hstart]
  refine ⟨fun v t h => hok v t (unwinding_eq_ok_iff.mp h), fun e t h => ?_⟩
  unfold unwinding at h ⊢
  cases hrun : runFrom p s.frames.length fuel u with
  | ok v w =>
    rw [hrun] at h
    cases h
  | error e w =>
    -- Both runs fail in the same state, and both are unwound down to the caller.
    rw [hrun] at h
    rw [herror e w hrun]
    exact h

end Exec

end PackedIR
