/-
Every local is assigned in one place.

An instruction with a result declares a local for it when it is emitted, the next free one. So the
locals of a function are its parameters and, after them, the results of its instructions, one for
each, in whatever order and by however many builders the blocks were filled.

The machine binds a result when it completes the instruction, and nothing else once a call has
begun. A step therefore changes, in the frame it is taken in or in the one it returns to, at most
the binding of the result of the instruction that this frame is at. Arguments are no results, and
their bindings last as long as their call.
-/
import PackedIR.Proofs.Bindings
import PackedIR.Proofs.Construction

set_option autoImplicit false

namespace PackedIR

variable {p : Program} {m : Module} {s t : State} {fr fr' : Frame} {rest below : List Frame}
  {f : Function} {sig : Signature}

/-! ## Single assignment -/

/-- The locals that the instructions of a function bind. -/
def Function.results (f : Function) : List Local :=
  f.blocks.toList.flatMap fun block => block.instructions.toList.filterMap Instruction.result

/-- The parameters come first among the locals, and each other local is the result of one
instruction. -/
structure Function.AssignsOnce (f : Function) (sig : Signature) : Prop where
  signature : f.ty.signature? = some sig
  params : f.locals.toList.take sig.params.length = sig.params.map fun ty => ⟨ty, false⟩
  distinct : f.results.Nodup
  results : ∀ l, l ∈ f.results ↔ sig.params.length ≤ l.index ∧ l.index < f.locals.size

theorem Function.AssignsOnce.length_le (h : f.AssignsOnce sig) :
    sig.params.length ≤ f.locals.size := by
  have hlength := congrArg List.length h.params
  rw [List.length_take, List.length_map, Array.length_toList] at hlength
  omega

/-- A block stands between those before it and those after it. -/
theorem Function.blocks_split {id : BlockId} {block : Block} (h : f.block? id = some block) :
    ∃ before after, f.blocks.toList = before ++ block :: after ∧ before.length = id.index := by
  obtain ⟨hlt, hget⟩ := Array.getElem?_eq_some_iff.mp h
  have hlt' : id.index < f.blocks.toList.length := by simpa using hlt
  refine ⟨f.blocks.toList.take id.index, f.blocks.toList.drop (id.index + 1), ?_, ?_⟩
  · have hdrop := List.drop_eq_getElem_cons hlt'
    rw [Array.getElem_toList, hget] at hdrop
    rw [← hdrop, List.take_append_drop]
  · rw [List.length_take]
    omega

/-- An appended instruction adds its result to those of the function. -/
theorem Function.results_extended {id : BlockId} {block : Block} (hblock : f.block? id = some block)
    (inst : Instruction) (decl : Option LocalDecl) :
    (Build.extended f id block inst decl).results.Perm (inst.result.toList ++ f.results) := by
  obtain ⟨before, after, hblocks, hlength⟩ := f.blocks_split hblock
  have hnew : [inst].filterMap Instruction.result = inst.result.toList := by
    cases hr : inst.result <;> simp [hr]
  -- The blocks before and after keep their results; the block itself gets one more at its end.
  unfold results Build.extended
  dsimp only
  rw [Array.toList_setIfInBounds, hblocks, ← hlength, List.set_append_right _ _ (Nat.le_refl _),
    Nat.sub_self, List.set_cons_zero]
  simp only [List.flatMap_append, List.flatMap_cons, Array.toList_push, List.filterMap_append, hnew]
  refine List.Perm.trans ?_ (List.perm_append_comm_assoc _ _ _)
  refine .append_left _ ?_
  rw [← List.append_assoc inst.result.toList]
  exact .append_right _ List.perm_append_comm

/-- A declared function has parameters only. -/
theorem Function.assignsOnce_of_declare {name : String} {ty : Ty}
    (h : Function.declare name ty = .ok f) : ∃ sig, f.AssignsOnce sig := by
  unfold Function.declare at h
  cases hsig : ty.signature? with
  | none => simp [hsig] at h
  | some sig =>
    simp only [hsig, Except.ok.injEq] at h
    subst h
    refine ⟨sig, hsig, ?_, .nil, fun l => ⟨fun hl => ?_, fun hl => ?_⟩⟩
    · exact List.take_of_length_le (by simp)
    · cases hl
    · simp only [List.size_toArray, List.length_map] at hl
      omega

theorem Function.AssignsOnce.addBlock (h : f.AssignsOnce sig) (name : String) :
    Function.AssignsOnce { f with blocks := f.blocks.push ⟨name, #[]⟩ } sig := by
  have hresults : Function.results { f with blocks := f.blocks.push ⟨name, #[]⟩ } = f.results := by
    simp [Function.results]
  exact ⟨h.signature, h.params, hresults ▸ h.distinct, hresults ▸ h.results⟩

/-- The next free local is nobody's result yet. -/
theorem Function.AssignsOnce.extended {id : BlockId} {block : Block} (h : f.AssignsOnce sig)
    (hblock : f.block? id = some block) (op : Opcode) (args : List Operand)
    (decl : Option LocalDecl) :
    (Build.extended f id block ⟨op, args, decl.map fun _ => ⟨f.locals.size⟩⟩ decl).AssignsOnce
      sig := by
  have hperm := f.results_extended hblock ⟨op, args, decl.map fun _ => ⟨f.locals.size⟩⟩ decl
  have hlength := h.length_le
  have hfresh : (⟨f.locals.size⟩ : Local) ∉ f.results := by
    rw [h.results]
    exact fun hlt => absurd hlt.2 (Nat.lt_irrefl _)
  refine ⟨h.signature, ?_, ?_, fun l => ?_⟩
  · rw [← h.params]
    unfold Build.extended
    dsimp only
    rw [Array.toList_append, List.take_append_of_le_length (by simpa using hlength)]
  · rw [hperm.nodup_iff]
    cases decl with
    | none => exact h.distinct
    | some decl => exact List.nodup_cons.mpr ⟨hfresh, h.distinct⟩
  · rw [hperm.mem_iff, List.mem_append, h.results]
    cases decl with
    | none => simp [Build.extended]
    | some decl =>
      have hsize : (Build.extended f id block ⟨op, args, some ⟨f.locals.size⟩⟩
          (some decl)).locals.size = f.locals.size + 1 := by
        simp [Build.extended]
      rw [Option.map_some, hsize, Option.toList_some, List.mem_singleton]
      constructor
      · rintro (rfl | hl)
        · exact ⟨hlength, Nat.lt_succ_self _⟩
        · exact ⟨hl.1, Nat.lt_succ_of_lt hl.2⟩
      · rintro ⟨hle, hlt⟩
        by_cases hlast : l.index = f.locals.size
        · left
          cases l
          exact congrArg Local.mk hlast
        · right
          exact ⟨hle, by omega⟩

/-- However a module was built, each local of its functions is assigned in one place. -/
theorem Module.Built.assignsOnce (h : m.Built) {id : FuncId} (hf : m.function id = .ok f) :
    ∃ sig, f.AssignsOnce sig := by
  obtain ⟨name, hgrows⟩ := h
  refine hgrows.forall_function (P := fun f => ∃ sig, f.AssignsOnce sig)
    (fun _ _ _ => Function.assignsOnce_of_declare) ?_ ?_ ?_ id f hf
  · rintro f name ⟨sig, hf⟩
    exact ⟨sig, hf.addBlock name⟩
  · rintro f id block op args decl hblock ⟨sig, hf⟩
    exact ⟨sig, hf.extended hblock op args decl⟩
  · intro id f hf
    have hf := orMissing_eq_ok_iff.mp hf
    simp at hf

/-! ## What a step binds -/

/-- The frame has changed no binding but that of the result of the instruction it was at. -/
structure Frame.Writes (m : Module) (fr fr' : Frame) : Prop where
  function : fr'.function = fr.function
  kept : ∀ l, (∀ f block inst, fr.current m = .ok (f, block, inst) → inst.result ≠ some l) →
    fr'.lookup? l = fr.lookup? l

/-- A frame that has changed in other respects has written nothing. -/
theorem Frame.writes_of_locals (hfun : fr'.function = fr.function)
    (hlocals : fr'.locals = fr.locals) : fr.Writes m fr' := by
  refine ⟨hfun, fun l _ => ?_⟩
  unfold Frame.lookup?
  rw [hlocals]

/-- What a step can do to the frames: it stays in its frame, enters a callee, leaves its frame, or
leaves it and completes the instruction of the caller. -/
inductive StackStep (m : Module) : List Frame → List Frame → Prop where
  | inside {fr fr' : Frame} (rest : List Frame) : fr.Writes m fr' →
      StackStep m (fr :: rest) (fr' :: rest)
  | entered (callee fr : Frame) (rest : List Frame) :
      StackStep m (fr :: rest) (callee :: fr :: rest)
  | left (fr : Frame) (rest : List Frame) : StackStep m (fr :: rest) rest
  | returned (fr : Frame) {caller caller' : Frame} (rest : List Frame) : caller.Writes m caller' →
      StackStep m (fr :: caller :: rest) (caller' :: rest)

namespace Exec

theorem complete_writes {block : Block} {inst : Instruction} (hfr : s.frames = fr :: rest)
    (hcur : fr.current p.module = .ok (f, block, inst)) (v : Option Value) :
    ∃ fr', ((complete f inst v).after s).frames = fr' :: rest ∧ fr.Writes p.module fr' := by
  cases v with
  | none =>
    refine ⟨fr.advance, ?_, Frame.writes_of_locals rfl rfl⟩
    have hcomplete : complete f inst none s = modifyFrame Frame.advance s := rfl
    rw [after_congr hcomplete, after_of_ok (modifyFrame_cons hfr)]
  | some v =>
    obtain ⟨locals, pc, hafter, hlocals⟩ := complete_locals hfr f inst v
    refine ⟨{ fr with locals, pc }, by rw [hafter], rfl, fun l hother => ?_⟩
    exact hlocals l (hother f block inst hcur)

theorem deliver_frames (hfr : s.frames = fr :: rest) (base : Nat) (v : Value) :
    ∃ fr', ((deliver p base v).after s).frames = fr' :: rest ∧ fr.Writes p.module fr' := by
  by_cases hlen : s.frames.length ≤ base
  · rw [after_of_ok (deliver_of_le hlen)]
    exact ⟨fr, hfr, Frame.writes_of_locals rfl rfl⟩
  · have hdeliver := deliver_of_lt (p := p) (v := v) hfr (by omega : base < s.frames.length)
    cases hcur : fr.current p.module with
    | error e =>
      simp only [hcur] at hdeliver
      rw [after_of_error hdeliver]
      exact ⟨fr, hfr, Frame.writes_of_locals rfl rfl⟩
    | ok c =>
      obtain ⟨f, block, inst⟩ := c
      simp only [hcur] at hdeliver
      rw [after_congr hdeliver, after_bind_reads fun _ => reads_pure _]
      exact complete_writes hfr hcur _

theorem popFrame_frames (hfr : s.frames = fr :: rest) :
    (popFrame.after s).frames = fr :: rest ∨ (popFrame.after s).frames = rest := by
  rw [after, popFrame_eq hfr]
  cases s.memory.stack.removeAll fr.allocs with
  | ok stack => exact .inr rfl
  | error e => exact .inl hfr

/-- What follows an executed instruction. -/
theorem proceed_frames {block : Block} {inst : Instruction} {flow : Flow} (base : Nat)
    (hfr : s.frames = fr :: rest) (hcur : fr.current p.module = .ok (f, block, inst))
    (hx : Executed p inst s flow t) :
    StackStep p.module (fr :: rest) ((proceed p base f inst flow).after t).frames := by
  cases flow with
  | complete v =>
    obtain ⟨allocs, ht⟩ := hx.frames hfr (by simp)
    have hcur' : Frame.current { fr with allocs } p.module = .ok (f, block, inst) := hcur
    obtain ⟨fr', hafter, hwrites⟩ := complete_writes ht hcur' v
    unfold proceed
    rw [after_bind_reads fun _ => reads_pure _, hafter]
    exact .inside rest ⟨hwrites.function, hwrites.kept⟩
  | jump target =>
    obtain ⟨allocs, ht⟩ := hx.frames hfr (by simp)
    unfold proceed
    rw [after_bind_reads fun _ => reads_pure _, after_of_ok (modifyFrame_cons ht)]
    exact .inside rest (Frame.writes_of_locals rfl rfl)
  | entered =>
    cases hx with
    | stays _ hne => exact absurd rfl hne
    | enters id _ heff henters =>
      obtain ⟨locals, hframes⟩ := henters.frames
      rw [heff.frames_eq, hfr] at hframes
      change StackStep p.module (fr :: rest) t.frames
      rw [hframes]
      exact .entered _ fr rest
  | ret v =>
    obtain ⟨allocs, ht⟩ := hx.frames hfr (by simp)
    unfold proceed
    cases hpop : popFrame t with
    | error e u =>
      -- The frame stays where it is when its storage cannot be released.
      have hfails : (do popFrame; deliver p base v : Exec (Option Value)) t = .error e u := by
        rw [bind_apply, hpop]
      rw [after_of_error hfails, popFrame_atomic t e u hpop, ht]
      exact .inside rest (Frame.writes_of_locals rfl rfl)
    | ok a u =>
      rw [after_congr (bind_of_ok hpop)]
      have hu : u.frames = rest := by
        cases leaves_of_popFrame hpop with
        | intro hfr' _ =>
          rw [ht] at hfr'
          cases hfr'
          rfl
      cases rest with
      | nil =>
        rw [after_of_ok (deliver_of_le (by simp [hu])), hu]
        exact .left fr []
      | cons caller others =>
        obtain ⟨caller', hafter, hwrites⟩ := deliver_frames (p := p) hu base v
        rw [hafter]
        exact .returned fr others hwrites

/-- A step writes at most one local, the result of the instruction that its frame, or the caller's
frame, is at. -/
theorem step_frames (base : Nat) (hfr : s.frames = fr :: rest) :
    StackStep p.module (fr :: rest) ((step p base).after s).frames := by
  have same {u : State} (hu : u.frames = s.frames) : StackStep p.module (fr :: rest) u.frames := by
    rw [hu, hfr]
    exact .inside rest (Frame.writes_of_locals rfl rfl)
  cases hcur : fr.current p.module with
  | error e =>
    rw [after_of_error (step_of_current_error base hfr hcur)]
    exact same rfl
  | ok c =>
    obtain ⟨f, block, inst⟩ := c
    have hsettles := execute_settles (p := p) (s := s) f inst
    cases hx : execute p f inst s with
    | error e t =>
      rw [after_of_error (step_of_execute_error base hfr hcur hx)]
      exact same (hsettles.of_error hx).frames_eq
    | ok flow t =>
      rw [after_congr (step_of_executed base hfr hcur hx)]
      exact proceed_frames base hfr hcur (hsettles.of_ok hx)

end Exec

/-! ## Arguments of active calls -/

/-- The frames execute the same function and bind its arguments alike. -/
def Frame.SameArgs (m : Module) (fr fr' : Frame) : Prop :=
  fr'.function = fr.function ∧ ∀ f sig, m.function fr.function = .ok f →
    f.ty.signature? = some sig → ∀ i < sig.params.length, fr'.lookup? ⟨i⟩ = fr.lookup? ⟨i⟩

theorem Frame.SameArgs.refl (m : Module) (fr : Frame) : fr.SameArgs m fr :=
  ⟨rfl, fun _ _ _ _ _ _ => rfl⟩

/-- What is written is no argument. -/
theorem Frame.SameArgs.writes {start : Frame} (hm : m.Built) (h : start.SameArgs m fr)
    (hwrites : fr.Writes m fr') : start.SameArgs m fr' := by
  refine ⟨hwrites.function.trans h.1, fun f sig hf hsig i hi => ?_⟩
  rw [← h.2 f sig hf hsig i hi]
  refine hwrites.kept ⟨i⟩ fun g block inst hcur hresult => ?_
  obtain ⟨hg, hblock, hinst⟩ := Exec.current_eq_ok hcur
  rw [h.1, hf] at hg
  cases hg
  obtain ⟨sig', honce⟩ := hm.assignsOnce hf
  have hsame := honce.signature
  rw [hsig] at hsame
  cases hsame
  -- The local is a result of the function, and those come after the parameters.
  have hmem : (⟨i⟩ : Local) ∈ f.results := by
    refine List.mem_flatMap.mpr ⟨block, Array.mem_toList_iff.mpr (Array.mem_of_getElem? hblock), ?_⟩
    exact List.mem_filterMap.mpr ⟨inst, Array.mem_toList_iff.mpr (Array.mem_of_getElem? hinst),
      hresult⟩
  have hle := ((honce.results ⟨i⟩).mp hmem).1
  exact absurd hi (Nat.not_lt.mpr hle)

/-- A call with the arguments of `fr` is active on top of the frames in `below`. -/
def Active (m : Module) (fr : Frame) (below frames : List Frame) : Prop :=
  ∃ upper fr', frames = upper ++ fr' :: below ∧ fr.SameArgs m fr'

/-- A call that has not been left stays active. -/
theorem Active.step {frames frames' : List Frame} (hm : m.Built) (h : Active m fr below frames)
    (hstep : StackStep m frames frames') (hlen : below.length < frames'.length) :
    Active m fr below frames' := by
  obtain ⟨upper, low, hframes, hsame⟩ := h
  cases hstep with
  | inside rest hwrites =>
    cases upper with
    | nil =>
      cases hframes
      exact ⟨[], _, rfl, hsame.writes hm hwrites⟩
    | cons g upper =>
      cases hframes
      exact ⟨_ :: upper, low, rfl, hsame⟩
  | entered callee top rest =>
    rw [hframes]
    exact ⟨callee :: upper, low, rfl, hsame⟩
  | left top rest =>
    cases upper with
    | nil =>
      cases hframes
      omega
    | cons g upper =>
      cases hframes
      exact ⟨upper, low, rfl, hsame⟩
  | returned top rest hwrites =>
    cases upper with
    | nil =>
      cases hframes
      exact absurd hlen (Nat.lt_irrefl _)
    | cons g upper =>
      cases upper with
      | nil =>
        -- The value has come back to the call itself.
        cases hframes
        exact ⟨[], _, rfl, hsame.writes hm hwrites⟩
      | cons g' upper =>
        cases hframes
        exact ⟨_ :: upper, low, rfl, hsame⟩

/-- The session goes from `s` to `t`, and the frame on top of those in `below` is not left: operands
are evaluated, instructions are executed, and after a failure frames are taken off. -/
inductive During (p : Program) (below : List Frame) (s : State) : State → Prop where
  | start : During p below s s
  | evaluated {t : State} (os : List Operand) : During p below s t →
      During p below s ((Exec.operands p os).after t)
  | stepped {t : State} (base : Nat) : During p below s t →
      below.length < ((Exec.step p base).after t).frames.length →
      During p below s ((Exec.step p base).after t)
  | unwound {t : State} : During p below s t →
      below.length < (Exec.popFrame.after t).frames.length →
      During p below s (Exec.popFrame.after t)

theorem During.active (hm : p.module.Built) (h : During p below s t)
    (hs : Active p.module fr below s.frames) : Active p.module fr below t.frames := by
  induction h with
  | start => exact hs
  | evaluated os _ ih =>
    rw [(Exec.operands_makes os _).frames_eq]
    exact ih
  | @stepped u base _ hlen ih =>
    cases hfr : u.frames with
    | nil =>
      rw [Exec.after_of_error (Exec.step_nil base hfr)]
      exact ih
    | cons top rest =>
      rw [hfr] at ih
      exact ih.step hm (Exec.step_frames base hfr) hlen
  | @unwound u _ hlen ih =>
    cases hfr : u.frames with
    | nil =>
      rw [Exec.after_of_error (Exec.popFrame_nil hfr)]
      exact ih
    | cons top rest =>
      rw [hfr] at ih
      rcases Exec.popFrame_frames hfr with hsame | hleft
      · rw [hsame]
        exact ih
      · rw [hleft] at hlen ⊢
        exact ih.step hm (.left top rest) hlen

/-- A module that is built by calls, on itself and on any number of builders, assigns each local in
one place and never takes anything back, and arguments stay bound as they are while their call is
active. -/
theorem built_modules_assign_once {name : String} {calls : List Call} {w : Workbench}
    (h : Call.runAll calls { module := { name } } = .ok w) :
    (∀ id f, w.module.function id = .ok f → ∃ sig, f.AssignsOnce sig) ∧
    (∀ (call : Call) handle w₁, call.run w = .ok (some handle, w₁) →
      ∃ d, w₁.module.declared? handle = some d ∧
        (call.looksUp = false → w.module.declared? handle = none) ∧
        ∀ more w₂, Call.runAll more w₁ = .ok w₂ → w₂.module.declared? handle = some d) ∧
    (∀ more w', Call.runAll more w = .ok w' →
      ∀ func id block, w.module.block? func id = some block → ∃ added,
        w'.module.block? func id = some { block with instructions := block.instructions ++ added }) ∧
    ∀ p : Program, p.module = w.module → ∀ (s t : State) (upper : List Frame) (fr : Frame)
      (below : List Frame), s.frames = upper ++ fr :: below → During p below s t →
      ∃ upper' fr', t.frames = upper' ++ fr' :: below ∧ fr'.function = fr.function ∧
        ∀ f sig, p.module.function fr.function = .ok f → f.ty.signature? = some sig →
          ∀ i < sig.params.length, fr'.lookup? ⟨i⟩ = fr.lookup? ⟨i⟩ := by
  have hw := Call.built_of_runAll h
  refine ⟨fun id f hf => hw.assignsOnce hf, fun call handle w₁ hcall => ?_,
    fun more w' hmore func id block hblock => (Call.runAll_grows hw hmore).block?_eq hblock, ?_⟩
  · obtain ⟨hgrows, hhanded⟩ := Call.run_eq_ok hw hcall
    obtain ⟨hnew, d, hd⟩ := hhanded handle rfl
    refine ⟨d, hd, hnew, fun more w₂ hmore => ?_⟩
    exact (Call.runAll_grows (hw.grows hgrows) hmore).declared?_eq hd
  · intro p hp s t upper fr below hfr hduring
    have hm : p.module.Built := by
      rw [hp]
      exact hw
    have hs : Active p.module fr below s.frames := ⟨upper, fr, hfr, .refl _ _⟩
    obtain ⟨upper', fr', hfr', hsame⟩ := hduring.active hm hs
    exact ⟨upper', fr', hfr', hsame⟩

/-! ## Two functions built at once

One function calls the other and adds its own argument to what comes back. The two bodies are
filled by two builders in turn. -/

namespace Interleaving

def calls : List Call :=
  [.declare (.declareFunction "inner" (.function [Ty.i32] Ty.i32 false)),
    .declare (.declareFunction "outer" (.function [Ty.i32] Ty.i32 false)),
    .newBuilder ⟨0⟩,
    .newBuilder ⟨1⟩,
    .build 0 (.addBlock "entry"),
    .build 1 (.addBlock "entry"),
    .build 1 (.positionAtEnd ⟨0⟩),
    .build 0 (.positionAtEnd ⟨0⟩),
    .build 1 (.call ⟨0⟩ [.local ⟨0⟩]),
    .build 0 (.ret (some (.local ⟨0⟩))),
    .build 1 (.binary (.binary (.int true .add)) (.local ⟨1⟩) (.local ⟨0⟩)),
    .build 1 (.ret (some (.local ⟨2⟩)))]

def bench : Workbench :=
  (Call.runAll calls { module := { name := "interleaving" } }).toOption.get (by decide +kernel)

theorem bench_built : Call.runAll calls { module := { name := "interleaving" } } = .ok bench := rfl

def program : Program := { module := bench.module }

def argument : Value := { ty := Ty.i32, bytes := [21, 0, 0, 0] }

def outer : Function := (bench.module.function ⟨1⟩).toOption.get (by decide +kernel)

/-- The outer function has been called. -/
def entered : State := (Exec.startCall program ⟨1⟩ [argument]).after {}

def frame : Frame := entered.frames.head (by decide +kernel)

/-- The inner function has been called and has returned, and the sum has been bound. -/
def added : State :=
  (Exec.step program 0).after ((Exec.step program 0).after ((Exec.step program 0).after entered))

theorem entered_during : During program [] entered added := by
  have hcalled : During program [] entered ((Exec.step program 0).after entered) :=
    .stepped 0 .start (by decide +kernel)
  have hreturned := hcalled.stepped 0 (by decide +kernel)
  exact hreturned.stepped 0 (by decide +kernel)

end Interleaving

open Interleaving in
/-- The call and the sum are the two results of the outer function. A block that is added to the
inner one is new, and keeps its name when the outer one goes on growing. The outer function's
argument is bound throughout. -/
theorem built_modules_assign_once_interleaving :
    (∃ sig, outer.AssignsOnce sig ∧ outer.results = [⟨1⟩, ⟨2⟩]) ∧
    (∃ handle w₁, (Call.build 0 (.addBlock "exit")).run bench = .ok (some handle, w₁) ∧
      bench.module.declared? handle = none ∧ ∃ w₂ d,
        Call.runAll [.build 1 .unreachable] w₁ = .ok w₂ ∧ w₁.module.declared? handle = some d ∧
          w₂.module.declared? handle = some d) ∧
    ∃ upper fr, added.frames = upper ++ [fr] ∧ fr.lookup? ⟨1⟩ ≠ frame.lookup? ⟨1⟩ ∧
      fr.lookup? ⟨0⟩ = frame.lookup? ⟨0⟩ := by
  obtain ⟨honce, hhanded, _, hargs⟩ := built_modules_assign_once bench_built
  have houter : bench.module.function ⟨1⟩ = .ok outer := rfl
  refine ⟨?_, ?_, ?_⟩
  · obtain ⟨sig, hsig⟩ := honce ⟨1⟩ outer houter
    exact ⟨sig, hsig, by decide +kernel⟩
  · obtain ⟨⟨handle, w₁⟩, hrun⟩ : ∃ r, (Call.build 0 (.addBlock "exit")).run bench = .ok r :=
      ⟨_, rfl⟩
    have hblock : handle = some (.block ⟨0⟩ ⟨1⟩) := by
      cases hrun
      rfl
    rw [hblock] at hrun
    obtain ⟨d, hd, hnew, hstays⟩ := hhanded _ _ w₁ hrun
    obtain ⟨w₂, hmore⟩ : ∃ w₂, Call.runAll [.build 1 .unreachable] w₁ = .ok w₂ := by
      cases hrun
      exact ⟨_, rfl⟩
    exact ⟨_, w₁, hrun, hnew rfl, w₂, d, hmore, hd, hstays _ w₂ hmore⟩
  · have hentered : entered.frames = [] ++ frame :: [] := by decide +kernel
    obtain ⟨upper, fr, hfr, _, hbound⟩ :=
      hargs program rfl entered added [] frame [] hentered entered_during
    refine ⟨upper, fr, hfr, ?_, hbound outer _ houter rfl 0 (by decide)⟩
    have hadded : added.frames = [fr] := by
      have hlength : added.frames.length = 1 := by decide +kernel
      cases upper with
      | nil => exact hfr
      | cons g upper => simp [hfr] at hlength
    have hresult : added.frames.head?.bind (·.lookup? ⟨1⟩) ≠ frame.lookup? ⟨1⟩ := by decide +kernel
    rw [hadded] at hresult
    exact hresult

end PackedIR
