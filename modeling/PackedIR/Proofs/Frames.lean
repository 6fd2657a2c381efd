/-
Calls and their frames.

A call takes frames of its own, and with them the storage that its instructions allocate.
The invariant is that the map of frame storage is exactly the collection of the ranges
that the active frames list, without two ranges that meet. An allocation adds a range to
both sides. Taking a frame off removes the frame's ranges from the map, each of which is
there, so this cannot fail. The frames below a call are looked at by nothing inside it;
when they are all that is left, the map must be what it was.
-/
import PackedIR.Proofs.Allocations
import PackedIR.Proofs.Reachable

set_option autoImplicit false

namespace PackedIR

variable {p : Program} {s t : State}

/-- The storage of a frame, as the map of frame storage records it. -/
def Frame.ranges (fr : Frame) : List Allocation :=
  fr.allocs.map fun (start, size) => ⟨start, size, .frame⟩

/-- The map of frame storage is the disjoint union of the frames' storage. -/
structure OwnsStack (s : State) : Prop where
  ordered : s.memory.stack.Ordered
  owned : s.memory.stack.entries.Perm (s.frames.flatMap Frame.ranges)

namespace OwnsStack

theorem fresh : OwnsStack {} := ⟨AllocMap.ordered_empty, .refl _⟩

/-- Changes that keep the map and what each frame lists keep the invariant. -/
theorem of_eq (h : OwnsStack s) (hstack : t.memory.stack = s.memory.stack)
    (hranges : t.frames.flatMap Frame.ranges = s.frames.flatMap Frame.ranges) : OwnsStack t := by
  refine ⟨?_, ?_⟩
  · rw [hstack]
    exact h.ordered
  · rw [hstack, hranges]
    exact h.owned

/-- Taking a frame off releases the frame's ranges, each once, and no others. -/
theorem popFrame_eq_ok (h : OwnsStack s) {fr : Frame} {rest : List Frame}
    (hfr : s.frames = fr :: rest) :
    ∃ stack, Exec.popFrame s =
        .ok () { s with frames := rest, memory := { s.memory with stack } } ∧
      stack.Ordered ∧ stack.entries.Perm (rest.flatMap Frame.ranges) ∧
      s.memory.stack.entries.Perm (fr.ranges ++ stack.entries) := by
  have howned := h.owned
  rw [hfr, List.flatMap_cons] at howned
  obtain ⟨stack, hremoved, hordered, hperm⟩ := AllocMap.removeAll_of_perm h.ordered howned
  refine ⟨stack, ?_, hordered, hperm, howned.trans (hperm.symm.append_left fr.ranges)⟩
  rw [Exec.popFrame_eq hfr, hremoved]

theorem moves (h : Moves p s t) (hs : OwnsStack s) : OwnsStack t := by
  induction h with
  | prepares h => exact hs.of_eq h.stack_eq (by rw [h.frames_eq])
  | trans _ _ ih₁ ih₂ => exact ih₂ (ih₁ hs)
  | allocates h =>
    cases h with
    | intro hfr hpos _ hrecorded =>
      -- The map and the innermost frame both gain the range.
      obtain ⟨hordered, hperm, _⟩ := AllocMap.insert_eq_ok hs.ordered hpos hrecorded
      refine ⟨hordered, hperm.trans ?_⟩
      have howned := hs.owned
      rw [hfr, List.flatMap_cons] at howned
      exact howned.cons _
  | enters id h =>
    obtain ⟨locals, hframes⟩ := h.frames
    cases h with
    -- A new frame owns nothing.
    | intro => exact hs.of_eq rfl (by rw [hframes]; rfl)
  | leaves h =>
    cases h with
    | intro hfr hreleased =>
      -- Taking the frame off succeeds, so what it gives is the map at hand.
      obtain ⟨stack, hpop, hordered, hperm, _⟩ := hs.popFrame_eq_ok hfr
      rw [Exec.popFrame_eq hfr, hreleased] at hpop
      cases hpop
      exact ⟨hordered, hperm⟩
  | bind hfr _ _ _ => exact hs.of_eq rfl (by rw [hfr]; rfl)
  | goto hfr _ _ _ _ => exact hs.of_eq rfl (by rw [hfr]; rfl)

/-- The frames determine the map. -/
theorem stack_eq (hs : OwnsStack s) (ht : OwnsStack t) (hframes : t.frames = s.frames) :
    t.memory.stack = s.memory.stack := by
  apply ht.ordered.eq_of_perm hs.ordered
  have howned := ht.owned
  rw [hframes] at howned
  exact howned.trans hs.owned.symm

end OwnsStack

/-- The map of frame storage is the disjoint union of the frames' storage in every state of a
session. -/
theorem Reachable.ownsStack (h : Reachable p s) : OwnsStack s :=
  OwnsStack.fresh.moves h.moves

/-! ## Calls -/

/-- However a call ends, the map of frame storage is the one from before it. -/
theorem callFunction_stack (hs : OwnsStack s) {fuel : Nat} {id : FuncId} {args : List Value}
    (h : Exec.Ends (Exec.callFunction p fuel id args) s t) :
    t.memory.stack = s.memory.stack := by
  have hmoved := Exec.callFunction_moves (p := p) fuel id args s
  rw [h.after_eq] at hmoved
  exact hs.stack_eq (hs.moves hmoved) (Exec.callFunction_frames h)

/-- In every state of a session, at whatever depth: the map of frame storage is the disjoint union
of what the frames list, and a frame that is taken off releases what it lists, each range once. A
call that is made there and ends, well or badly, leaves the frames, the number of frames and the
map as they were. The last part is about calls that a call instruction makes in a longer run,
which counts only the frames above the first `base` as its own: until it delivers the result, or
until it has been unwound to the caller, it does what the call does. -/
theorem calls_restore_frames (hs : Reachable p s) :
    s.memory.stack.entries.Perm (s.frames.flatMap Frame.ranges) ∧
    s.memory.stack.entries.Pairwise Allocation.Apart ∧
    (∀ fr rest, s.frames = fr :: rest → ∃ t, Exec.popFrame s = .ok () t ∧ t.frames = rest ∧
      s.memory.stack.entries.Perm (fr.ranges ++ t.memory.stack.entries)) ∧
    (∀ fuel id args t, Exec.Ends (Exec.callFunction p fuel id args) s t →
      t.frames = s.frames ∧ t.memory.stack = s.memory.stack) ∧
    (∀ fuel id args t, Exec.Ends (Exec.runFunction p fuel id args) s t →
      t.frames.length = s.frames.length) ∧
    ∀ base fuel id args u, base ≤ s.frames.length →
      Exec.startCall p id args s = .ok .entered u →
      (∀ v t, Exec.callFunction p fuel id args s = .ok v t → ∃ left, left < fuel ∧
        Exec.runFrom p base fuel u = (do
          match ← Exec.deliver p base v with
          | some w => return w
          | none => Exec.runFrom p base left : Exec Value) t) ∧
      ∀ e t, Exec.callFunction p fuel id args s = .error e t →
        Exec.unwinding p s.frames.length (Exec.runFrom p base fuel) u = .error e t := by
  have howns := hs.ownsStack
  refine ⟨howns.owned, howns.ordered.apart, fun fr rest hfr => ?_, fun fuel id args t h => ?_,
    fun fuel id args t h => ?_, fun base fuel id args u hbase hstart => ?_⟩
  · obtain ⟨stack, hpop, _, _, hreleased⟩ := howns.popFrame_eq_ok hfr
    exact ⟨_, hpop, rfl, hreleased⟩
  · exact ⟨Exec.callFunction_frames h, callFunction_stack howns h⟩
  · rw [Exec.runFunction_frames h]
  · exact Exec.runFrom_of_callFunction hbase hstart

/-- Both functions are called while another call is active. One returns and one fails, after each
has allocated a variable, and the caller's frame and variable are all that is left. -/
theorem calls_restore_frames_doubling :
    (∃ v t, Exec.callFunction Doubling.program 9 ⟨0⟩ [Doubling.argument] Doubling.computed =
        .ok v t ∧ v.bytes = [42, 0, 0, 0] ∧ t.frames = Doubling.computed.frames ∧
        t.memory.stack = Doubling.computed.memory.stack) ∧
      (∃ e t, Exec.callFunction Doubling.program 9 ⟨1⟩ [] Doubling.computed = .error e t ∧
        t.frames = Doubling.computed.frames ∧
        t.memory.stack = Doubling.computed.memory.stack) ∧
      Doubling.computed.frames.flatMap Frame.allocs = [(Arena.base, 4)] := by
  have hcall := (calls_restore_frames Doubling.computed_reachable).2.2.2.1
  refine ⟨?_, ?_, by decide +kernel⟩
  · have h := Exec.eq_ok_of_result? (x := Exec.callFunction Doubling.program 9 ⟨0⟩
      [Doubling.argument]) (s := Doubling.computed) (a := { ty := Ty.i32, bytes := [42, 0, 0, 0] })
      (by decide +kernel)
    exact ⟨_, _, h, rfl, hcall 9 ⟨0⟩ _ _ (.inl ⟨_, h⟩)⟩
  · obtain ⟨c, e, h⟩ := Exec.eq_error_of_raises (x := Exec.callFunction Doubling.program 9 ⟨1⟩ [])
      (s := Doubling.computed) (by decide +kernel)
    exact ⟨_, _, h, hcall 9 ⟨1⟩ [] _ (.inr ⟨c, e, h⟩)⟩

end PackedIR
