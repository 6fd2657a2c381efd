/-
The limit on the call depth.

A frame is pushed only while fewer frames than the limit are active, and nothing else adds one, so
the limit is never exceeded. A call is refused at exactly the limit, and the failure says so. Below
it the limit is not looked at: a run that is not refused would be the same under any higher one.
-/
import PackedIR.Proofs.Limits
import PackedIR.Proofs.Refusals

set_option autoImplicit false

namespace PackedIR

variable {p : Program} {s t : State}

/-! ## Within the limit -/

/-- Every change of frames but a call keeps their number or lowers it. -/
theorem Moves.depth_le (h : Moves p s t) (hs : s.frames.length ≤ p.config.maxCallDepth) :
    t.frames.length ≤ p.config.maxCallDepth := by
  induction h with
  | prepares h =>
    rw [h.frames_eq]
    exact hs
  | trans _ _ ih₁ ih₂ => exact ih₂ (ih₁ hs)
  | allocates h =>
    cases h with
    | intro hfr _ _ _ =>
      rw [hfr] at hs
      exact hs
  | enters id h =>
    cases h with
    | intro _ _ _ hdepth _ => exact hdepth
  | leaves h =>
    cases h with
    | intro hfr _ =>
      rw [hfr, List.length_cons] at hs
      exact Nat.le_of_succ_le hs
  | bind hfr _ _ _ | goto hfr _ _ _ _ =>
    rw [hfr] at hs
    exact hs

/-- At most as many calls are active as the limit allows. -/
theorem Reachable.depth_le (h : Reachable p s) : s.frames.length ≤ p.config.maxCallDepth :=
  h.moves.depth_le (Nat.zero_le _)

/-! ## At the limit -/

/-- The failure is an exceeded limit on the call depth. -/
def Failure.isOverflow (e : Failure) : Prop := ∃ depth limit, e.error? = some (.stackOverflow depth limit)

/-- The number of frames is watched. -/
def Watch.depth (limit : Nat) : Watch where
  holds _ depth := depth ≤ limit
  shared e := ¬e.isOverflow
  reported e _ := e.error? = some (.stackOverflow (limit + 1) limit)

theorem Watch.kept_depth : (Watch.depth p.config.maxCallDepth).Kept p where
  moves := Moves.depth_le
  push := fun _ hroom => hroom
  ordinary := by
    rintro e he ⟨depth, limit, herror⟩
    unfold Failure.isRefusal at he
    rw [herror] at he
    cases he
  shared_within := by
    rintro e c he ⟨depth, limit, herror⟩
    rw [Failure.error?_within] at herror
    exact he ⟨depth, limit, herror⟩
  reported_within := by
    intro e s c he
    exact (Failure.error?_within e c).trans he
  reported_leave := fun he _ => he
  access := by
    rintro s address size _ _
    right
    rintro ⟨depth, limit, herror⟩
    cases herror
  overflow := by
    intro s hs hfull
    left
    have hlimit : s.frames.length = p.config.maxCallDepth := Nat.le_antisymm hs hfull
    rw [hlimit]
    rfl

/-- The one overflow there is: a call beyond the limit, with the limit named. -/
theorem overflow_of_matches {α : Type} {o o' : EStateM.Result Failure State α} {limit : Nat}
    (h : (Watch.depth limit).coupling.Matches o o') {e : Failure} (ho : o = .error e t) {d l : Nat}
    (he : e.error? = some (.stackOverflow d l)) : d = limit + 1 ∧ l = limit := by
  subst ho
  cases h with
  | error _ hshared => exact absurd ⟨d, l, he⟩ hshared
  | excused _ hreported =>
    have hsame := he.symm.trans hreported
    cases hsame
    exact ⟨rfl, rfl⟩

/-! ## Under another limit -/

/-- The same program with another limit on the call depth. -/
abbrev Program.withDepth (p : Program) (limit : Nat) : Program :=
  p.under { p.config with maxCallDepth := limit }

theorem Config.stricter_depth {c : Config} {limit : Nat} (h : c.maxCallDepth ≤ limit) :
    c.Stricter { c with maxCallDepth := limit } :=
  ⟨h, fun hon => hon, rfl⟩

/-- Where only the limits differ, a refusal is an overflow. -/
theorem Config.isOverflow_of_refuses {c : Config} {limit : Nat} {e : Failure}
    (h : c.Refuses { c with maxCallDepth := limit } e) : e.isOverflow := by
  unfold Refuses at h
  split at h
  · rename_i depth limit' herror
    exact ⟨depth, limit', herror⟩
  · exact absurd rfl h
  · exact h.elim

/-- A call, in any state of a session, ends the same under a higher limit, or it overflows. -/
theorem callFunction_withDepth {limit : Nat} (hle : p.config.maxCallDepth ≤ limit)
    (hs : Reachable p s) (fuel : Nat) (id : FuncId) (args : List Value) :
    Exec.callFunction (p.withDepth limit) fuel id args s = Exec.callFunction p fuel id args s ∨
      ∃ e t, Exec.callFunction p fuel id args s = .error e t ∧ e.isOverflow := by
  have hsound := Coupling.sound_limits (Config.stricter_depth hle)
  have hcall := hsound.callFunction hs.ownsStack rfl fuel id args
  rcases Coupling.matches_limits_iff.mp hcall with hsame | ⟨e, t, herror, hrefused⟩
  · exact .inl hsame
  · exact .inr ⟨e, t, herror, Config.isOverflow_of_refuses hrefused⟩

/-- For every module and every two limits, of which the program runs under the lower one. In every
state at most as many frames are active as the limit allows. An overflow, of an instruction or as
an answer, names one frame more than the limit and the limit. A session in which no answer is an
overflow has the same answers and ends in the same state under the higher limit, and a single call
ends alike in every state unless it overflows. -/
theorem depth_limit_exact (p : Program) (limit : Nat) (hle : p.config.maxCallDepth ≤ limit) :
    (∀ s, Reachable p s → s.frames.length ≤ p.config.maxCallDepth) ∧
    (∀ s base e t d l, Reachable p s → Exec.step p base s = .error e t →
      e.error? = some (.stackOverflow d l) →
      d = p.config.maxCallDepth + 1 ∧ l = p.config.maxCallDepth) ∧
    (∀ commands e d l, .error e ∈ (serve p commands {}).1 →
      e.error? = some (.stackOverflow d l) →
      d = p.config.maxCallDepth + 1 ∧ l = p.config.maxCallDepth) ∧
    (∀ s fuel id args, Reachable p s →
      Exec.callFunction (p.withDepth limit) fuel id args s = Exec.callFunction p fuel id args s ∨
        ∃ e t, Exec.callFunction p fuel id args s = .error e t ∧ e.isOverflow) ∧
    ∀ commands, (∀ e, .error e ∈ (serve p commands {}).1 → ¬e.isOverflow) →
      serve (p.withDepth limit) commands {} = serve p commands {} := by
  have hwatch := (Watch.kept_depth (p := p)).lasting
  refine ⟨fun s hs => hs.depth_le, ?_, ?_, ?_, ?_⟩
  · intro s base e t d l hs hstep he
    exact overflow_of_matches (hwatch.step base s s ⟨rfl, hs.depth_le⟩) hstep he
  · intro commands e d l hanswer he
    obtain ⟨command, u, t, hmoved, hobey⟩ := obey_of_serve hanswer
    have howns : OwnsStack u := OwnsStack.fresh.moves hmoved
    have hdepth := hmoved.depth_le (Nat.zero_le _)
    exact overflow_of_matches (hwatch.obey howns ⟨rfl, hdepth⟩ command) hobey he
  · intro s fuel id args hs
    exact callFunction_withDepth hle hs fuel id args
  · intro commands hanswers
    apply serve_of_stricter (Config.stricter_depth hle) OwnsStack.fresh
    intro e hanswer hrefused
    exact hanswers e hanswer (Config.isOverflow_of_refuses hrefused)

/-- With room for one call the function runs as it does with room for two. Called once more from
inside, it is refused as the second of one. -/
theorem depth_limit_exact_doubling :
    (∃ v t, Exec.callFunction ((Doubling.program.withDepth 1).withDepth 2) 9 ⟨0⟩
        [Doubling.argument] {} = .ok v t ∧ v.bytes = [42, 0, 0, 0]) ∧
      Exec.error? (Exec.callFunction (Doubling.program.withDepth 1) 9 ⟨0⟩ [Doubling.argument])
        Doubling.computed = some (.stackOverflow 2 1) := by
  obtain ⟨_, _, _, hcall, _⟩ := depth_limit_exact (Doubling.program.withDepth 1) 2 (by decide)
  have h := Exec.eq_ok_of_result?
    (x := Exec.callFunction (Doubling.program.withDepth 1) 9 ⟨0⟩ [Doubling.argument]) (s := {})
    (a := { ty := Ty.i32, bytes := [42, 0, 0, 0] }) (by decide +kernel)
  refine ⟨?_, by decide +kernel⟩
  rcases hcall {} 9 ⟨0⟩ [Doubling.argument] (.idle .fresh) with hsame | ⟨e, t, herror, _⟩
  · exact ⟨_, _, hsame.trans h, rfl⟩
  · rw [h] at herror
    cases herror

end PackedIR
