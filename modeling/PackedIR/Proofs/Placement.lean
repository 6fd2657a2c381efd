/-
Where control can be.

A function is entered only if each of its blocks ends with a terminator, and a terminator never goes
on to the next instruction of its block. So a frame that is at an instruction of its block is at one
again after every step: a jump goes to the first one of another block, and the instruction after one
that has been completed exists, because that was not the last. A call stays pending while the callee
runs and is not the last instruction either, so the value that comes back moves the caller on.
-/
import PackedIR.Proofs.Caching
import PackedIR.Proofs.Callees
import PackedIR.Proofs.ResultTypes

set_option autoImplicit false

namespace PackedIR

open Exec

variable {p : Program} {s t : State} {m : Module} {fr : Frame} {rest : List Frame} {id : FuncId}
  {f : Function} {block : Block} {inst : Instruction}

/-! ## Terminators -/

/-- The last instruction of each block is a terminator. -/
theorem Function.terminator_of_block (h : f.unterminated? = none) {b : BlockId}
    (hblock : f.block? b = some block) :
    ∃ inst, block.instructions.back? = some inst ∧ inst.op.isTerminator = true := by
  have hends := Array.find?_eq_none.mp h block (Array.mem_of_getElem? hblock)
  simpa [Option.any_eq_true] using hends

/-- A terminator goes to a block or returns. -/
theorem Exec.flow_of_terminator {flow : Flow} (hinst : inst.op.isTerminator = true)
    (h : execute p f inst s = .ok flow t) :
    (∃ target, flow = .jump target) ∨ ∃ v, flow = .ret v := by
  unfold execute at h
  cases hop : inst.op with
  | ret =>
    rw [hop] at h
    obtain ⟨v, _, _, h⟩ := bind_eq_ok_iff.mp h
    cases h
    exact .inr ⟨v, rfl⟩
  | branch | condBranch =>
    rw [hop] at h
    obtain ⟨target, _, _, h⟩ := bind_eq_ok_iff.mp h
    cases h
    exact .inl ⟨target, rfl⟩
  | unreachable =>
    rw [hop] at h
    exact absurd (lift_eq_ok_iff.mp h).1 (by simp)
  | _ =>
    rw [hop] at hinst
    cases hinst

theorem Instruction.Calls.not_terminator (h : inst.Calls m id) : inst.op.isTerminator = false := by
  obtain ⟨op, hop, _⟩ := h
  rw [hop]
  rfl

/-! ## Frames -/

/-- The frame executes a function whose blocks all end with a terminator, and it is at an
instruction of its block, if there is such a block. -/
def Frame.InPlace (fr : Frame) (m : Module) : Prop :=
  ∃ f, m.function fr.function = .ok f ∧ f.unterminated? = none ∧
    ∀ block, f.block? fr.block = some block → fr.pc < block.instructions.size

namespace Frame.InPlace

theorem start (hf : m.function fr.function = .ok f) (hends : f.unterminated? = none)
    (hpc : fr.pc = 0) : fr.InPlace m := by
  refine ⟨f, hf, hends, fun block hblock => ?_⟩
  obtain ⟨inst, hlast, _⟩ := f.terminator_of_block hends hblock
  rw [hpc]
  exact Nat.pos_of_ne_zero fun hsize => by simp [Array.back?, hsize] at hlast

theorem enterBlock (h : fr.InPlace m) (target : BlockId) : (fr.enterBlock target).InPlace m := by
  obtain ⟨f, hf, hends, _⟩ := h
  exact start hf hends rfl

theorem update (h : fr.InPlace m) (locals : Array (Option Value)) (allocs : List (Nat × Nat)) :
    { fr with locals, allocs }.InPlace m := h

/-- After an instruction that is no terminator there is another one. -/
theorem advance (h : fr.InPlace m) (hcur : fr.current m = .ok (f, block, inst))
    (hinst : inst.op.isTerminator = false) : fr.advance.InPlace m := by
  obtain ⟨g, hg, hends, hpc⟩ := h
  obtain ⟨hf, hblock, hat⟩ := current_eq_ok hcur
  rw [hf] at hg
  cases hg
  refine ⟨f, hf, hends, fun block' hblock' => ?_⟩
  rw [show f.block? fr.advance.block = some block from hblock] at hblock'
  cases hblock'
  obtain ⟨last, hlast, hterminator⟩ := f.terminator_of_block hends hblock
  have hlt := hpc block hblock
  -- The last instruction is another one than this.
  have hne : fr.pc ≠ block.instructions.size - 1 := by
    rintro heq
    rw [Array.back?, ← heq, hat] at hlast
    cases hlast
    rw [hinst] at hterminator
    cases hterminator
  change fr.pc + 1 < block.instructions.size
  omega

end Frame.InPlace

namespace Exec

/-- Completing an instruction that is no terminator keeps its frame in place. -/
theorem complete_inPlace (hfr : s.frames = fr :: rest) (h : fr.InPlace p.module)
    (hcur : fr.current p.module = .ok (f, block, inst)) (hinst : inst.op.isTerminator = false)
    (v : Option Value) :
    ∃ fr', fr'.InPlace p.module ∧ ((complete f inst v).after s).frames = fr' :: rest := by
  obtain ⟨locals, pc, hpc, hafter⟩ := after_complete hfr f inst v
  refine ⟨{ fr with locals, pc }, ?_, by rw [hafter]⟩
  rcases hpc with rfl | rfl
  · exact h.update locals fr.allocs
  · exact (h.advance hcur hinst).update locals fr.allocs

end Exec

/-! ## Functions that are entered -/

/-- The functions that have been prepared are ones whose blocks all end with a terminator. -/
def Terminated (p : Program) (s : State) : Prop :=
  ∀ id ∈ s.compiled, ∃ f, p.module.function id = .ok f ∧ f.unterminated? = none

theorem Makes.terminated (h : Makes p s t) (hs : Terminated p s) : Terminated p t := by
  induction h with
  | refl | place | intern => exact hs
  | trans _ _ ih₁ ih₂ => exact ih₂ (ih₁ hs)
  | prepare id found _ hends _ =>
    intro id' hid'
    rcases List.mem_cons.mp hid' with rfl | hid'
    · exact ⟨_, found, hends⟩
    · exact hs id' hid'
  | make _ _ _ _ _ _ ih => exact ih hs

theorem Reachable.terminated (h : Reachable p s) : Terminated p s := by
  have hkept : CacheRelation p fun s t => Terminated p s → Terminated p t := by
    refine ⟨fun h h' hs => h' (h hs), Makes.terminated, fun _ hcompiled _ hs id hid => ?_⟩
    rw [hcompiled] at hid
    exact hs id hid
  refine hkept.moves h.moves fun id hid => ?_
  cases hid

namespace Exec

/-- The frame of a call that has been entered is in place. -/
theorem startCall_inPlace {args : List Value} (hs : Terminated p s)
    (h : startCall p id args s = .ok .entered t) :
    ∃ fr, fr.InPlace p.module ∧ t.frames = fr :: s.frames := by
  obtain ⟨f, sig, hentered⟩ := startCall_entered h
  obtain ⟨u, address, fr, hcompile, hbound, rfl⟩ := hentered.compiled
  obtain ⟨locals, _, rfl⟩ := bindArgs_shape hbound
  have hmakes := (compileFunction_makes id).of_ok hcompile
  have hmem : id ∈ u.compiled := by
    obtain ⟨_, _, ⟨hmem, rfl⟩ | rfl⟩ := compileFunction_eq_ok hcompile
    · exact hmem
    · exact List.mem_cons_self
  obtain ⟨g, hg, hends⟩ := hmakes.terminated hs id hmem
  exact ⟨_, .start hg hends rfl, by rw [hmakes.frames_eq]⟩

/-- So is that of a call which an instruction has entered. -/
theorem execute_inPlace (hs : Terminated p s) (h : execute p f inst s = .ok .entered t) :
    ∃ fr, fr.InPlace p.module ∧ t.frames = fr :: s.frames := by
  cases (execute_settles f inst).of_ok h with
  | stays _ hne => exact absurd rfl hne
  | enters id hcalls _ _ =>
    obtain ⟨op, hop, _⟩ := hcalls
    unfold execute at h
    rw [hop] at h
    obtain ⟨started, u, hcall, h⟩ := bind_eq_ok_iff.mp h
    cases started with
    | returned v => cases h
    | entered =>
      cases h
      rw [call_eq_aim] at hcall
      obtain ⟨⟨target, args⟩, u, haim, hstart⟩ := bind_eq_ok_iff.mp hcall
      have hmakes := (aim_makes inst op).of_ok haim
      rw [← hmakes.frames_eq]
      cases target with
      | function id => exact startCall_inPlace (hmakes.terminated hs) hstart
      | foreign address fnTy =>
        -- Native code has no frame.
        rw [startTarget_foreign] at hstart
        split at hstart
        · cases hstart
        · split at hstart
          · cases hstart
          · obtain ⟨_, _, _, hdone⟩ := bind_eq_ok_iff.mp hstart
            cases hdone

end Exec

/-! ## Steps keep frames in place -/

/-- Every frame is in place. -/
def Placed (p : Program) (s : State) : Prop := ∀ fr ∈ s.frames, fr.InPlace p.module

namespace Placed

theorem of_frames {fr' : Frame} (h : Placed p s) (hfr : s.frames = fr :: rest)
    (ht : t.frames = fr' :: rest) (hfr' : fr'.InPlace p.module) : Placed p t := by
  unfold Placed at h ⊢
  rw [hfr, List.forall_mem_cons] at h
  rw [ht, List.forall_mem_cons]
  exact ⟨hfr', h.2⟩

theorem head (h : Placed p s) (hfr : s.frames = fr :: rest) : fr.InPlace p.module :=
  h fr (by rw [hfr]; exact List.mem_cons_self)

/-- A value is delivered to a call, which is not the last instruction of its block. -/
theorem deliver {callee : Frame} (h : Placed p s) (hlinked : Linked p.module (callee :: s.frames))
    (base : Nat) (v : Value) : Placed p ((Exec.deliver p base v).after s) := by
  by_cases hlen : s.frames.length ≤ base
  · rw [after_of_ok (deliver_of_le hlen)]
    exact h
  · cases hfr : s.frames with
    | nil =>
      rw [hfr] at hlen
      exact absurd (Nat.zero_le base) hlen
    | cons fr rest =>
      rw [hfr] at hlinked
      cases hlinked with
      | cons_cons hentered _ =>
        -- The caller is still at the call by which the callee was entered.
        obtain ⟨f, block, inst, hcur, hcalls⟩ := hentered
        obtain ⟨fr', hfr', hafter⟩ := complete_inPlace hfr (h.head hfr) hcur
          hcalls.not_terminator (some v)
        refine h.of_frames hfr ?_ hfr'
        have hdeliver := deliver_of_lt (p := p) (v := v) hfr (by omega : base < s.frames.length)
        simp only [hcur] at hdeliver
        rw [after_congr hdeliver, after_bind_reads fun _ => reads_pure _, hafter]

/-- A return leaves the caller at the call, which gets the value. -/
theorem ret (h : Placed p s) (hlinked : Linked p.module s.frames) (base : Nat) (v : Value) :
    Placed p ((do popFrame; Exec.deliver p base v : Exec (Option Value)).after s) := by
  cases hpop : popFrame s with
  | error e u =>
    have hfails : (do popFrame; Exec.deliver p base v : Exec (Option Value)) s = .error e u := by
      rw [bind_apply, hpop]
    rw [after_of_error hfails, popFrame_atomic s e u hpop]
    exact h
  | ok a u =>
    rw [after_congr (bind_of_ok hpop)]
    cases leaves_of_popFrame hpop with
    | intro hfr _ =>
      rw [hfr] at hlinked
      refine deliver (fun fr hmem => h fr ?_) hlinked base v
      rw [hfr]
      exact List.mem_cons_of_mem _ hmem

/-- What follows an executed instruction keeps the frames in place. -/
theorem proceed {flow : Flow} (h : Placed p s) (hs : Terminated p s)
    (hlinked : Linked p.module s.frames) (hfr : s.frames = fr :: rest)
    (hcur : fr.current p.module = .ok (f, block, inst))
    (hx : execute p f inst s = .ok flow t) (base : Nat) :
    Placed p ((Exec.proceed p base f inst flow).after t) := by
  have hexec := (execute_settles f inst).of_ok hx
  -- Only a terminator may be the last instruction, and it does not go on to the next.
  have goes (hne : ∀ target, flow ≠ .jump target) (hne' : ∀ v, flow ≠ .ret v) :
      inst.op.isTerminator = false := by
    cases hop : inst.op.isTerminator with
    | false => rfl
    | true =>
      rcases flow_of_terminator hop hx with ⟨target, rfl⟩ | ⟨v, rfl⟩
      · exact absurd rfl (hne target)
      · exact absurd rfl (hne' v)
  cases flow with
  | complete v =>
    obtain ⟨allocs, ht⟩ := hexec.frames hfr (by simp)
    obtain ⟨fr', hfr', hafter⟩ := complete_inPlace ht ((h.head hfr).update fr.locals allocs) hcur
      (goes (by simp) (by simp)) v
    refine h.of_frames hfr ?_ hfr'
    unfold Exec.proceed
    rw [after_bind_reads fun _ => reads_pure _, hafter]
  | jump target =>
    obtain ⟨allocs, ht⟩ := hexec.frames hfr (by simp)
    refine h.of_frames hfr ?_ (((h.head hfr).update fr.locals allocs).enterBlock target)
    unfold Exec.proceed
    rw [after_bind_reads fun _ => reads_pure _, after_of_ok (modifyFrame_cons ht)]
  | entered =>
    obtain ⟨callee, hcallee, hframes⟩ := execute_inPlace hs hx
    change ∀ fr ∈ t.frames, fr.InPlace p.module
    rw [hframes, List.forall_mem_cons]
    exact ⟨hcallee, h⟩
  | ret v =>
    obtain ⟨allocs, ht⟩ := hexec.frames hfr (by simp)
    refine ret (h.of_frames hfr ht ((h.head hfr).update fr.locals allocs)) ?_ base v
    rw [ht]
    rw [hfr] at hlinked
    exact hlinked.replace rfl

theorem step (h : Placed p s) (hs : Terminated p s) (hlinked : Linked p.module s.frames)
    (base : Nat) : Placed p ((Exec.step p base).after s) := by
  cases hfr : s.frames with
  | nil =>
    rw [after_of_error (step_nil base hfr)]
    exact h
  | cons fr rest =>
    cases hcur : fr.current p.module with
    | error e =>
      rw [after_of_error (step_of_current_error base hfr hcur)]
      exact h
    | ok c =>
      obtain ⟨f, block, inst⟩ := c
      cases hx : execute p f inst s with
      | error e t =>
        rw [after_of_error (step_of_execute_error base hfr hcur hx)]
        unfold Placed
        rw [((execute_settles f inst).of_error hx).frames_eq]
        exact h
      | ok flow t =>
        rw [after_congr (step_of_executed base hfr hcur hx)]
        exact h.proceed hs hlinked hfr hcur hx base

end Placed

/-- In every state of a session all frames are in place. -/
theorem Reachable.placed (h : Reachable p s) : Placed p s := by
  induction h with
  | idle h =>
    unfold Placed
    rw [h.frames_eq_nil]
    exact List.forall_mem_nil _
  | entered id args h hstart =>
    obtain ⟨fr, hfr, hframes⟩ := startCall_inPlace (Reachable.idle h).terminated hstart
    unfold Placed
    rw [hframes, h.frames_eq_nil]
    exact List.forall_mem_singleton.mpr hfr
  | evaluated os _ ih =>
    unfold Placed
    rw [(operands_makes os _).frames_eq]
    exact ih
  | stepped h ih => exact ih.step h.terminated h.linked 0

end PackedIR
