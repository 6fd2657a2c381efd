/-
What one instruction does.

Executing an instruction either stays in the innermost frame, or gives it storage, or
puts a frame for a callee on the stack; `Executed` says which, and with what effects
before. Completing an instruction binds its result and moves on. From these, every
step, run and request moves the state along `Moves`.
-/
import PackedIR.Proofs.Moves

set_option autoImplicit false

namespace PackedIR

variable {p : Program} {s t u : State}

/-! ## Calls -/

/-- How a started call of `id` leaves the state: native code has run, or a frame has been put on
the stack. -/
inductive Begins (p : Program) (id : FuncId) (s : State) : Started → State → Prop where
  | returned {t : State} (v : Value) : Effects p s t → Begins p id s (.returned v) t
  | entered {t u : State} : Effects p s t → Enters p id t u → Begins p id s .entered u

/-- The instruction is a call that may enter `id`. A direct call names its callee by a constant. -/
def Instruction.Calls (inst : Instruction) (m : Module) (id : FuncId) : Prop :=
  ∃ op, inst.op = .call op ∧ (op = .direct → ∃ c args ty,
    inst.args = .const c :: args ∧ m.constant c = .ok ⟨ty, .function id⟩)

/-- What has happened when an instruction was executed from `s`. -/
inductive Executed (p : Program) (inst : Instruction) (s : State) : Flow → State → Prop where
  | stays {t : State} {flow : Flow} : Effects p s t → flow ≠ .entered → Executed p inst s flow t
  | allocates {t : State} (v : Value) : Allocates p s t → Executed p inst s (.complete (some v)) t
  | enters {t u : State} (id : FuncId) : inst.Calls p.module id → Effects p s t →
      Enters p id t u → Executed p inst s .entered u

/-- Binding arguments fills slots and changes nothing else. -/
theorem bindArgs_shape {fr fr' : Frame} {index : Nat} {args : List Value} {params : List Ty}
    (h : fr.bindArgs index args params = .ok fr') :
    ∃ locals, locals.size = fr.locals.size ∧ fr' = { fr with locals } := by
  induction args generalizing fr index params with
  | nil =>
    cases h
    exact ⟨_, rfl, rfl⟩
  | cons v args ih =>
    cases params with
    | nil =>
      cases h
      exact ⟨_, rfl, rfl⟩
    | cons ty params =>
      simp only [Frame.bindArgs, except_bind_eq_ok_iff] at h
      obtain ⟨arg, _, _, _, h⟩ := h
      obtain ⟨locals, hsize, rfl⟩ := ih h
      refine ⟨locals, ?_, rfl⟩
      rw [hsize]
      simp [Frame.set]

/-- The frame of a call starts at the function's first instruction and owns no storage. -/
theorem Enters.frames {id : FuncId} (h : Enters p id s t) :
    ∃ locals, t.frames = { function := id, locals } :: s.frames := by
  cases h with
  | intro _ _ _ _ hbound =>
    obtain ⟨locals, _, rfl⟩ := bindArgs_shape hbound
    exact ⟨locals, rfl⟩

/-- The frame executed in is still innermost when its instruction has not entered a callee. -/
theorem Executed.frames {inst : Instruction} {flow : Flow} {fr : Frame} {rest : List Frame}
    (h : Executed p inst s flow t) (hfr : s.frames = fr :: rest) (hne : flow ≠ .entered) :
    ∃ allocs, t.frames = { fr with allocs } :: rest := by
  cases h with
  | stays heff _ => exact ⟨fr.allocs, by rw [heff.frames_eq, hfr]⟩
  | allocates v halloc =>
    cases halloc with
    | intro hfr' _ _ _ =>
      rw [hfr] at hfr'
      cases hfr'
      exact ⟨_, rfl⟩
  | enters => exact absurd rfl hne

namespace Exec

theorem pushFrame_settles {id : FuncId} {f : Function} {sig : Signature} {args : List Value}
    (hfound : p.module.function id = .ok f) (hsig : f.signature = .ok sig)
    (hbody : f.isDeclaration = false) (hst : Effects p s t) :
    Settles p s (fun _ u => Enters p id t u) (pushFrame p id f sig args) t := by
  refine .bind reads_get.along hst fun w _ hget hsw => ?_
  cases hget
  dsimp only
  split
  · exact .raise (by simp) hsw
  · rename_i hdepth
    refine .bind (reads_lift _).along hsw fun fr w hbind _ => ?_
    obtain ⟨hbound, rfl⟩ := lift_eq_ok_iff.mp hbind
    exact Enters.intro hfound hsig hbody (by omega) hbound

theorem startCall_settles {id : FuncId} {args : List Value} (hst : Effects p s t) :
    Settles p s (Begins p id s) (startCall p id args) t := by
  refine .bind (reads_liftFault _).along hst fun f w hf hsw => ?_
  obtain ⟨hfound, rfl⟩ := liftFault_eq_ok_iff.mp hf
  refine .bind (reads_liftFault _).along hsw fun sig w hs hsw => ?_
  obtain ⟨hsig, rfl⟩ := liftFault_eq_ok_iff.mp hs
  split
  · exact .raise (by simp) hsw
  · split
    · -- A function without a body is native code and returns at once.
      refine .bind (callDeclaration_effects _ _ _ _) hsw fun v w _ hsw => ?_
      exact .returned v hsw
    · -- A body is prepared first, and then a frame is pushed for it.
      rename_i hbody
      refine .bind (effects_of_makes (compileFunction_makes id)) hsw fun _ w _ hsw => ?_
      refine .seq (pushFrame_settles hfound hsig (by simpa using hbody) hsw) fun _ u hu => ?_
      exact .entered hsw hu

theorem startPointerCall_settles {pointer : Value} {fnTy : Ty} {args : List Value}
    (hst : Effects p s t) :
    Settles p s (fun started u => ∃ id, Begins p id s started u)
      (startPointerCall p pointer fnTy args) t := by
  refine .bind (reads_lift _).along hst fun address w _ hsw => ?_
  refine .bind reads_get.along hsw fun w' _ hget hsw => ?_
  cases hget
  split
  · -- The pointer is the address of a function of the module.
    rename_i id _
    exact (startCall_settles hsw).mono fun _ _ h => ⟨id, h⟩
  · split
    · exact .raise (by simp) hsw
    · split
      · exact .raise (by simp) hsw
      · refine .bind (callNative_effects _ _) hsw fun v w _ hsw => ?_
        -- Native code behind a pointer enters no function, so any id will do.
        exact ⟨⟨0⟩, .returned v hsw⟩

theorem call_settles {inst : Instruction} {op : CallOp} (hop : inst.op = .call op)
    (hst : Effects p s t) :
    Settles p s (fun started u => ∃ id, inst.Calls p.module id ∧ Begins p id s started u)
      (call p inst op) t := by
  have indirect (h : op ≠ .direct) (id : FuncId) : inst.Calls p.module id :=
    ⟨op, hop, fun hdirect => absurd hdirect h⟩
  unfold call
  split
  · -- A direct call: the callee is what the constant names.
    rename_i c args hargs
    refine .bind (reads_liftFault _).along hst fun k w hk hsw => ?_
    obtain ⟨hconst, rfl⟩ := liftFault_eq_ok_iff.mp hk
    split
    · rename_i id hkind
      refine .bind (effects_of_makes (operands_makes _)) hsw fun vs w _ hsw => ?_
      refine (startCall_settles hsw).mono fun _ _ h => ⟨id, ⟨.direct, hop, fun _ => ?_⟩, h⟩
      refine ⟨c, args, k.ty, hargs, ?_⟩
      rw [hconst, ← hkind]
    · exact .raise (by simp) hsw
  · -- A call through a pointer.
    refine .bind (effects_of_makes (operand_makes _)) hst fun pointer w _ hsw => ?_
    refine .bind (effects_of_makes (operands_makes _)) hsw fun vs w _ hsw => ?_
    refine (startPointerCall_settles hsw).mono fun _ _ h => ?_
    obtain ⟨id, h⟩ := h
    exact ⟨id, indirect (by simp) id, h⟩
  · -- A call through a method table, which is read before the arguments are evaluated.
    refine .bind (effects_of_makes (integerOperand_makes _ _)) hst fun i w _ hsw => ?_
    refine .bind (effects_of_makes (operand_makes _)) hsw fun receiver w _ hsw => ?_
    refine .bind (reads_lift _).along hsw fun object w _ hsw => ?_
    refine .bind (methodPointer_reads _ _ _).along hsw fun pointer w _ hsw => ?_
    refine .bind (effects_of_makes (operands_makes _)) hsw fun vs w _ hsw => ?_
    refine (startPointerCall_settles hsw).mono fun _ _ h => ?_
    obtain ⟨id, h⟩ := h
    exact ⟨id, indirect (by simp) id, h⟩
  · exact .raise (by simp) hst

/-! ## Instructions -/

/-- Instructions on places that neither store nor allocate only evaluate. -/
theorem place_evaluates (f : Function) (inst : Instruction) {op : PlaceOp}
    (hop : op ∉ [.store, .writePtr, .stackAlloc, .createLVal]) :
    Evaluates p (place p f inst op) := by
  unfold place
  split
  · exact (operand_evaluates _).bind fun _ => (reads_lift _).evaluates.bind fun _ =>
      (reads_lift _).evaluates.bind fun _ => (reads_load p _ _).evaluates.bind fun _ =>
        (reads_pure _).evaluates
  · simp at hop
  · simp at hop
  · simp at hop
  · simp at hop
  · exact (operandAddress_evaluates _).bind fun _ => (reads_pure _).evaluates
  · exact (pointerOperand_evaluates _).bind fun _ => (reads_pure _).evaluates
  · exact (getPointer_evaluates _ _).bind fun _ => (reads_pure _).evaluates
  · exact (getGep2_evaluates _ _ _).bind fun _ => (reads_pure _).evaluates
  · exact (getStructMember_evaluates _ _).bind fun _ => (reads_pure _).evaluates
  · exact (getPointerToStructMember_evaluates _ _ _).bind fun _ => (reads_pure _).evaluates
  · exact (operandAddress_evaluates _).bind fun _ => (reads_pure _).evaluates
  · exact (reads_lift _).evaluates.bind fun _ => (reads_lift _).evaluates.bind fun _ =>
      (reads_pure _).evaluates
  · exact (select_evaluates _ _ _).bind fun _ => (reads_pure _).evaluates
  · exact (reads_lift _).evaluates

theorem place_settles (f : Function) (inst : Instruction) (op : PlaceOp) :
    Settles p s (fun v u => Effects p s u ∨ Allocates p s u ∧ v.isSome = true)
      (place p f inst op) s := by
  have settled {x : Exec (Option Value)} (hx : Along (Effects p) x) :
      Settles p s (fun v u => Effects p s u ∨ Allocates p s u ∧ v.isSome = true) x s :=
    .of_along hx (refl_of _ s) fun _ _ _ h => .inl h
  have allocated (ty : Ty) :
      Settles p s (fun v u => Effects p s u ∨ Allocates p s u ∧ v.isSome = true)
        (do
          let address ← allocFrame p (max ty.size 1)
          return some (Value.ofAddress (Ty.mutPtrTo ty) address)) s := by
    refine .seq (allocFrame_settles (by omega) (refl_of _ s)) fun address u h => ?_
    exact .inr ⟨h, rfl⟩
  obtain ⟨opcode, args, result⟩ := inst
  cases op with
  | writePtr => match args with
    | [value, ptr] =>
      refine settled ((effects_of_makes (operand_makes value)).bind fun _ => ?_)
      exact (effects_of_makes (pointerOperand_makes ptr)).bind fun _ =>
        (storeValue_effects _ _ _).bind fun _ => (reads_pure _).along
    | [] | [_] | _ :: _ :: _ :: _ => exact settled (reads_lift _).along
  | store => match args with
    | [value, lvalue] =>
      refine settled ((effects_of_makes (operand_makes value)).bind fun _ => ?_)
      exact (effects_of_makes (operandAddress_makes lvalue)).bind fun _ =>
        (storeValue_effects _ _ _).bind fun _ => (reads_pure _).along
    | [] | [_] | _ :: _ :: _ :: _ => exact settled (reads_lift _).along
  | stackAlloc | createLVal => match args with
    | [.type ty] => exact allocated ty
    | [] | .local _ :: _ | .const _ :: _ | .block _ :: _ | .type _ :: _ :: _ =>
      exact settled (reads_lift _).along
  | _ => exact settled (effects_of_makes (place_evaluates f _ (by simp)).makes)

/-- Executing an instruction stays, allocates or enters; a failure stays. -/
theorem execute_settles (f : Function) (inst : Instruction) :
    Settles p s (Executed p inst s) (execute p f inst) s := by
  have stays {α : Type} {x : Exec α} {g : α → Flow} (hx : Evaluates p x)
      (hg : ∀ a, g a ≠ .entered) :
      Settles p s (Executed p inst s) (do return g (← x)) s := by
    refine .bind (effects_of_makes hx.makes) (refl_of _ s) fun a u _ hsu => ?_
    exact .stays hsu (hg a)
  unfold execute
  cases hop : inst.op with
  | ret => exact stays (returnValue_evaluates f inst) (by simp)
  | branch => exact stays (branchTarget_reads inst).evaluates (by simp)
  | condBranch => exact stays (condBranchTarget_evaluates inst) (by simp)
  | unreachable => exact .raise (by simp) (refl_of _ s)
  | phi => exact stays (phi_evaluates f inst) (by simp)
  | unary op => exact stays (unary_evaluates inst op) (by simp)
  | cast op => exact stays (cast_evaluates inst op) (by simp)
  | binary op => exact stays (binary_evaluates f inst op) (by simp)
  | insertValue | extractValue | getField | setField | union =>
    exact stays (aggregate_evaluates inst) (by simp)
  | place op =>
    refine .seq (place_settles f inst op) fun v u h => ?_
    rcases h with h | ⟨h, hv⟩
    · exact .stays h (by simp)
    · obtain ⟨w, rfl⟩ := Option.isSome_iff_exists.mp hv
      exact .allocates w h
  | call op =>
    refine .seq (call_settles hop (refl_of _ s)) fun started u h => ?_
    obtain ⟨id, hcalls, h⟩ := h
    cases h with
    | returned v h => exact Executed.stays h (by simp)
    | entered h hu => exact Executed.enters id hcalls h hu

theorem popFrame_eq {fr : Frame} {rest : List Frame} (h : s.frames = fr :: rest) :
    popFrame s = match s.memory.stack.removeAll fr.allocs with
      | .ok stack => .ok () { s with frames := rest, memory := { s.memory with stack } }
      | .error f => .error (.fault f) s := by
  unfold popFrame
  rw [bind_of_ok (get_apply s)]
  simp only [h, bind_of_ok (get_apply s)]
  cases hrel : s.memory.stack.removeAll fr.allocs with
  | ok stack =>
    rw [bind_of_ok (liftFault_ok _ _)]
    simp only [modify_apply, h, List.tail_cons]
  | error f => rfl

theorem popFrame_nil (h : s.frames = []) :
    popFrame s = .error (.raised [] .noActiveFrame) s := by
  unfold popFrame
  rw [bind_of_ok (get_apply s)]
  simp only [h, throw_apply]

/-- A frame that is taken off has released its storage. -/
theorem leaves_of_popFrame (h : popFrame s = .ok () t) : Leaves s t := by
  cases hfr : s.frames with
  | nil =>
    rw [popFrame_nil hfr] at h
    cases h
  | cons fr rest =>
    rw [popFrame_eq hfr] at h
    split at h
    · rename_i hrel
      cases h
      exact .intro hfr hrel
    · cases h

theorem popFrame_atomic : Atomic popFrame := by
  refine reads_get.bind_atomic fun s => ?_
  split
  · exact reads_get.bind_atomic fun _ => (reads_liftFault _).bind_atomic fun _ => atomic_modify _
  · exact (reads_throw _).atomic

theorem popFrame_moves : Along (Moves p) popFrame := by
  intro s
  cases h : popFrame s with
  | ok a t =>
    rw [after_of_ok h]
    exact .leaves (leaves_of_popFrame h)
  | error e t =>
    rw [after_of_error h, popFrame_atomic s e t h]
    exact refl_of (Moves p) s

/-! ## Completing an instruction -/

theorem resultDecl_eq_ok_iff {f : Function} {inst : Instruction} {decl : LocalDecl} :
    resultDecl f inst = .ok decl ↔ ∃ l, inst.result = some l ∧ f.local? l = some decl := by
  unfold resultDecl
  split
  · rename_i d hd
    obtain ⟨l, hl, hdecl⟩ := Option.bind_eq_some_iff.mp hd
    simp [hl, hdecl]
  · rename_i hnone
    simp only [raiseOperand_ne_ok, false_iff, not_exists, not_and]
    intro l hl hdecl
    simp [hl, hdecl] at hnone

theorem checkSlot_eq_ok_iff {fr : Frame} {l : Local} {a : Unit} :
    fr.checkSlot l = .ok a ↔ l.index < fr.locals.size := by
  unfold Frame.checkSlot
  split
  · rename_i hslot
    exact ⟨fun _ => hslot, fun _ => rfl⟩
  · rename_i hout
    simp [hout]

theorem bindLocal_eq_ok_iff {l : Local} {v : Value} :
    bindLocal l v s = .ok () t ↔ ∃ fr rest, s.frames = fr :: rest ∧
      l.index < fr.locals.size ∧ t = { s with frames := fr.set l v :: rest } := by
  simp only [bindLocal, bind_eq_ok_iff, frame_eq_ok_iff, lift_eq_ok_iff, checkSlot_eq_ok_iff]
  constructor
  · rintro ⟨fr, _, ⟨rfl, rest, hfr⟩, _, _, ⟨hslot, rfl⟩, h⟩
    rw [modifyFrame_cons hfr] at h
    cases h
    exact ⟨fr, rest, hfr, hslot, rfl⟩
  · rintro ⟨fr, rest, hfr, hslot, rfl⟩
    exact ⟨fr, s, ⟨rfl, rest, hfr⟩, (), s, ⟨hslot, rfl⟩, modifyFrame_cons hfr⟩

/-- A result is bound when its local is declared, the sizes agree, and the frame has the slot. -/
theorem bindResult_eq_ok_iff {f : Function} {inst : Instruction} {v : Value} {l : Local}
    (hl : inst.result = some l) :
    bindResult f inst v s = .ok () t ↔
      ∃ decl bound fr rest, f.local? l = some decl ∧ v.retype decl.boundTy = .ok bound ∧
        s.frames = fr :: rest ∧ l.index < fr.locals.size ∧
          t = { s with frames := fr.set l (bound.withOrigin (.local l)) :: rest } := by
  simp only [bindResult, hl, bind_eq_ok_iff, lift_eq_ok_iff, resultDecl_eq_ok_iff,
    bindLocal_eq_ok_iff]
  constructor
  · rintro ⟨decl, _, ⟨⟨l', hl', hdecl⟩, rfl⟩, bound, _, ⟨hbound, rfl⟩, fr, rest, h⟩
    cases hl'
    exact ⟨decl, bound, fr, rest, hdecl, hbound, h⟩
  · rintro ⟨decl, bound, fr, rest, hdecl, hbound, h⟩
    exact ⟨decl, s, ⟨⟨l, rfl, hdecl⟩, rfl⟩, bound, s, ⟨hbound, rfl⟩, fr, rest, h⟩

theorem bindResult_of_none {f : Function} {inst : Instruction} {v : Value}
    (hl : inst.result = none) : bindResult f inst v s = .ok () s := by
  unfold bindResult
  simp only [hl, pure_apply]

theorem bindResult_atomic (f : Function) (inst : Instruction) (v : Value) :
    Atomic (bindResult f inst v) := by
  unfold bindResult
  split
  · exact (reads_pure _).atomic
  · refine (reads_lift _).bind_atomic fun decl => (reads_lift _).bind_atomic fun bound => ?_
    exact reads_frame.bind_atomic fun fr => (reads_lift _).bind_atomic fun _ => atomic_modify _

/-- Binding a result does nothing, or it sets one local of the innermost frame as declared. -/
theorem after_bindResult (f : Function) (inst : Instruction) (v : Value) (s : State) :
    (bindResult f inst v).after s = s ∨
      ∃ l decl bound fr rest, f.local? l = some decl ∧ v.retype decl.boundTy = .ok bound ∧
        s.frames = fr :: rest ∧ (bindResult f inst v).after s =
          { s with frames := fr.set l (bound.withOrigin (.local l)) :: rest } := by
  cases h : bindResult f inst v s with
  | error e t =>
    left
    rw [after_of_error h, bindResult_atomic f inst v s e t h]
  | ok a t =>
    rw [after_of_ok h]
    cases hl : inst.result with
    | none =>
      rw [bindResult_of_none hl] at h
      cases h
      exact .inl rfl
    | some l =>
      obtain ⟨decl, bound, fr, rest, hdecl, hbound, hfr, _, ht⟩ := (bindResult_eq_ok_iff hl).mp h
      exact .inr ⟨l, decl, bound, fr, rest, hdecl, hbound, hfr, ht⟩

theorem bindResult_shape {fr : Frame} {rest : List Frame} (hfr : s.frames = fr :: rest)
    (f : Function) (inst : Instruction) (v : Value) :
    ∃ locals, (bindResult f inst v).after s = { s with frames := { fr with locals } :: rest } := by
  rcases after_bindResult f inst v s with hafter | ⟨l, _, _, fr', rest', _, _, hfr', hafter⟩
  · refine ⟨fr.locals, ?_⟩
    rw [hafter, ← hfr]
  · rw [hfr] at hfr'
    cases hfr'
    exact ⟨_, hafter⟩

theorem bindResult_moves {f : Function} {fr : Frame} {rest : List Frame}
    (hfr : s.frames = fr :: rest) (hf : p.module.function fr.function = .ok f)
    (inst : Instruction) (v : Value) : Moves p s ((bindResult f inst v).after s) := by
  rcases after_bindResult f inst v s with
    hafter | ⟨l, decl, bound, fr', rest', hdecl, hbound, hfr', hafter⟩
  · rw [hafter]
    exact refl_of (Moves p) s
  · rw [hfr] at hfr'
    cases hfr'
    rw [hafter]
    exact .bind hfr hf hdecl hbound

/-- Completing an instruction changes the innermost frame at most: its locals, and its place by one
instruction unless binding has failed. -/
theorem after_complete {fr : Frame} {rest : List Frame} (hfr : s.frames = fr :: rest)
    (f : Function) (inst : Instruction) (v : Option Value) :
    ∃ locals pc, (pc = fr.pc ∨ pc = fr.pc + 1) ∧ (complete f inst v).after s =
      { s with frames := { fr with locals, pc } :: rest } := by
  cases v with
  | none =>
    refine ⟨fr.locals, fr.pc + 1, .inr rfl, ?_⟩
    exact after_of_ok (modifyFrame_cons hfr)
  | some v =>
    obtain ⟨locals, hbind⟩ := bindResult_shape hfr f inst v
    cases h : bindResult f inst v s with
    | error e t =>
      have herr : complete f inst (some v) s = .error e t := by
        simp only [complete, bind_apply, h]
      rw [after_of_error h] at hbind
      exact ⟨locals, fr.pc, .inl rfl, (after_of_error herr).trans hbind⟩
    | ok a t =>
      rw [after_of_ok h] at hbind
      have hok : complete f inst (some v) s = modifyFrame Frame.advance t := by
        simp only [complete, bind_apply, h]
      refine ⟨locals, fr.pc + 1, .inr rfl, ?_⟩
      rw [after, hok, modifyFrame_cons (by rw [hbind]), hbind]
      rfl

theorem complete_shape {fr : Frame} {rest : List Frame} (hfr : s.frames = fr :: rest)
    (f : Function) (inst : Instruction) (v : Option Value) :
    ∃ locals pc, (complete f inst v).after s =
      { s with frames := { fr with locals, pc } :: rest } := by
  obtain ⟨locals, pc, _, hafter⟩ := after_complete hfr f inst v
  exact ⟨locals, pc, hafter⟩

theorem complete_moves {f : Function} {fr : Frame} {rest : List Frame}
    (hfr : s.frames = fr :: rest) (hf : p.module.function fr.function = .ok f)
    (inst : Instruction) (v : Option Value) : Moves p s ((complete f inst v).after s) := by
  have advances (s : State) (fr : Frame) (rest : List Frame) (hfr : s.frames = fr :: rest) :
      Moves p s ((modifyFrame Frame.advance).after s) := by
    rw [after_of_ok (modifyFrame_cons hfr)]
    exact .goto hfr fr.block fr.entered fr.previous (fr.pc + 1)
  cases v with
  | none => exact advances s fr rest hfr
  | some v =>
    refine after_bind (bindResult_moves hfr hf inst v) fun _ t h => ?_
    obtain ⟨locals, hbind⟩ := bindResult_shape hfr f inst v
    -- Binding has put a frame with other locals in its place, and this one moves on.
    rw [after_of_ok h] at hbind
    exact advances t { fr with locals } rest (by rw [hbind])

/-! ## Steps -/

theorem current_eq_ok {fr : Frame} {m : Module} {f : Function} {block : Block}
    {inst : Instruction} (h : fr.current m = .ok (f, block, inst)) :
    m.function fr.function = .ok f ∧ f.block? fr.block = some block ∧
      block.instructions[fr.pc]? = some inst := by
  cases hf : m.function fr.function with
  | error e =>
    unfold Frame.current at h
    rw [hf] at h
    cases h
  | ok f' =>
    rw [Frame.current_of_function hf] at h
    cases hblock : f'.block? fr.block with
    | none => simp [hblock] at h
    | some block' =>
      cases hinst : block'.instructions[fr.pc]? with
      | none => simp [hblock, hinst] at h
      | some inst' =>
        simp only [hblock, hinst] at h
        cases h
        exact ⟨rfl, hblock, hinst⟩

/-- A value that comes back when no more than `base` frames are left is the result of the run. -/
theorem deliver_of_le {base : Nat} {v : Value} (h : s.frames.length ≤ base) :
    deliver p base v s = .ok (some v) s := by
  unfold deliver
  rw [bind_of_ok (get_apply s), if_pos h]
  rfl

/-- Otherwise it goes to the pending instruction of the frame that is now innermost. -/
theorem deliver_of_lt {base : Nat} {v : Value} {fr : Frame} {rest : List Frame}
    (hfr : s.frames = fr :: rest) (h : base < s.frames.length) :
    deliver p base v s = match fr.current p.module with
      | .ok (f, _, inst) => (do complete f inst (some v); return none : Exec (Option Value)) s
      | .error e => .error e s := by
  unfold deliver
  rw [bind_of_ok (get_apply s), if_neg (by omega),
    bind_of_ok (frame_eq_ok_iff.mpr ⟨rfl, rest, hfr⟩)]
  cases hcur : fr.current p.module with
  | ok c => rfl
  | error e => rfl

theorem deliver_shape {base : Nat} {v : Value} {fr : Frame} {rest : List Frame}
    (hfr : s.frames = fr :: rest) (h : base < s.frames.length) :
    (∃ locals pc, (deliver p base v).after s = { s with frames := { fr with locals, pc } :: rest }) ∧
      ∀ w t, deliver p base v s ≠ .ok (some w) t := by
  rw [after, deliver_of_lt hfr h]
  cases hcur : fr.current p.module with
  | error e =>
    refine ⟨⟨fr.locals, fr.pc, ?_⟩, by simp⟩
    change s = _
    rw [← hfr]
  | ok c =>
    obtain ⟨f, block, inst⟩ := c
    obtain ⟨locals, pc, hshape⟩ := complete_shape hfr f inst (some v)
    simp only [bind_apply]
    cases hc : complete f inst (some v) s with
    | ok a t =>
      rw [after_of_ok hc] at hshape
      exact ⟨⟨locals, pc, hshape⟩, by simp⟩
    | error e t =>
      rw [after_of_error hc] at hshape
      exact ⟨⟨locals, pc, hshape⟩, by simp⟩

theorem deliver_moves (base : Nat) (v : Value) : Along (Moves p) (deliver p base v) := by
  intro s
  by_cases h : s.frames.length ≤ base
  · rw [after_of_ok (deliver_of_le h)]
    exact refl_of (Moves p) s
  · cases hfr : s.frames with
    | nil => simp [hfr] at h
    | cons fr rest =>
      have hdeliver := deliver_of_lt (p := p) (v := v) hfr (by omega : base < s.frames.length)
      cases hcur : fr.current p.module with
      | error e =>
        simp only [hcur] at hdeliver
        rw [after_of_error hdeliver]
        exact refl_of (Moves p) s
      | ok c =>
        obtain ⟨f, block, inst⟩ := c
        simp only [hcur] at hdeliver
        rw [after_congr hdeliver]
        exact after_bind (complete_moves hfr (current_eq_ok hcur).1 inst _)
          fun _ t _ => (reads_pure _).along t

end Exec

/-- What a step does to a stack of frames. -/
inductive StepShape (p : Program) (base : Nat) (s : State) (fr : Frame) (rest : List Frame) :
    Prop where
  /-- The step ends, well or badly, in the frame it began in. -/
  | inside (fr' : Frame) (function : fr'.function = fr.function)
      (frames : ((Exec.step p base).after s).frames = fr' :: rest)
      (unfinished : ∀ v t, Exec.step p base s ≠ .ok (some v) t)
  /-- The step has entered a callee. -/
  | entered {t : State} {f : Function} {block : Block} {inst : Instruction} (callee : Frame)
      (current : fr.current p.module = .ok (f, block, inst))
      (calls : inst.Calls p.module callee.function)
      (stepped : Exec.step p base s = .ok none t) (frames : t.frames = callee :: fr :: rest)
  /-- The step has left its frame with a value and goes on to deliver it. -/
  | returned {t u : State} {f : Function} {block : Block} {inst : Instruction} {v : Value}
      (current : fr.current p.module = .ok (f, block, inst))
      (executed : Exec.execute p f inst s = .ok (.ret v) t) (effects : Effects p s t)
      (popped : Exec.popFrame t = .ok () u) (frames : u.frames = rest)
      (stepped : Exec.step p base s = Exec.deliver p base v u)

namespace Exec

/-- What follows once an instruction has been executed. -/
def proceed (p : Program) (base : Nat) (f : Function) (inst : Instruction) :
    Flow → Exec (Option Value)
  | .complete v => do
    complete f inst v
    return none
  | .jump target => do
    modifyFrame fun frame => frame.enterBlock target
    return none
  | .entered => return none
  | .ret v => do
    popFrame
    deliver p base v

theorem step_of_executed (base : Nat) {fr : Frame} {rest : List Frame} {f : Function}
    {block : Block} {inst : Instruction} {flow : Flow} (hfr : s.frames = fr :: rest)
    (hcur : fr.current p.module = .ok (f, block, inst))
    (hx : execute p f inst s = .ok flow t) : step p base s = proceed p base f inst flow t := by
  unfold step
  rw [bind_of_ok (frame_eq_ok_iff.mpr ⟨rfl, rest, hfr⟩), hcur, bind_of_ok (lift_ok _ _)]
  dsimp only
  rw [bind_of_ok hx]
  cases flow <;> rfl

theorem step_of_execute_error (base : Nat) {fr : Frame} {rest : List Frame} {f : Function}
    {block : Block} {inst : Instruction} {e : Failure} (hfr : s.frames = fr :: rest)
    (hcur : fr.current p.module = .ok (f, block, inst))
    (hx : execute p f inst s = .error e t) : step p base s = .error e t := by
  unfold step
  rw [bind_of_ok (frame_eq_ok_iff.mpr ⟨rfl, rest, hfr⟩), hcur, bind_of_ok (lift_ok _ _)]
  dsimp only
  rw [bind_apply, hx]

theorem step_of_current_error (base : Nat) {fr : Frame} {rest : List Frame} {e : Failure}
    (hfr : s.frames = fr :: rest) (hcur : fr.current p.module = .error e) :
    step p base s = .error e s := by
  unfold step
  rw [bind_of_ok (frame_eq_ok_iff.mpr ⟨rfl, rest, hfr⟩), hcur]
  rfl

theorem step_nil (base : Nat) (hfr : s.frames = []) :
    step p base s = .error (.raised [] .noActiveFrame) s := by
  unfold step
  rw [bind_apply, frame_nil hfr]

/-- A return leaves its frame, unless the frame's storage cannot be released. -/
theorem step_shape_of_ret (base : Nat) {fr : Frame} {rest : List Frame} {f : Function}
    {block : Block} {inst : Instruction} {v : Value} (hfr : s.frames = fr :: rest)
    (hcur : fr.current p.module = .ok (f, block, inst))
    (hx : execute p f inst s = .ok (.ret v) t) (heff : Effects p s t) :
    StepShape p base s fr rest := by
  have ht : t.frames = fr :: rest := by rw [heff.frames_eq, hfr]
  have hstep := step_of_executed base hfr hcur hx
  rw [proceed, bind_apply] at hstep
  cases hpop : popFrame t with
  | error e u =>
    rw [hpop] at hstep
    refine .inside fr rfl ?_ (by simp [hstep])
    rw [after_of_error hstep, popFrame_atomic t e u hpop, ht]
  | ok a u =>
    rw [hpop] at hstep
    refine .returned hcur hx heff hpop ?_ hstep
    cases leaves_of_popFrame hpop with
    | intro hfr' _ =>
      rw [ht] at hfr'
      cases hfr'
      rfl

/-- A step stays in its frame, enters a callee or returns. -/
theorem step_shape (base : Nat) {fr : Frame} {rest : List Frame} (hfr : s.frames = fr :: rest) :
    StepShape p base s fr rest := by
  cases hcur : fr.current p.module with
  | error e =>
    have hstep := step_of_current_error base hfr hcur
    refine .inside fr rfl ?_ (by simp [hstep])
    rw [after_of_error hstep, hfr]
  | ok c =>
    obtain ⟨f, block, inst⟩ := c
    have hexec := execute_settles (p := p) (s := s) f inst
    cases hx : execute p f inst s with
    | error e t =>
      -- A failure leaves the frames alone, also when the call it was in had begun.
      have hstep := step_of_execute_error base hfr hcur hx
      refine .inside fr rfl ?_ (by simp [hstep])
      rw [after_of_error hstep, (hexec.of_error hx).frames_eq, hfr]
    | ok flow t =>
      have hstep := step_of_executed base hfr hcur hx
      have hflow := hexec.of_ok hx
      cases flow with
      | complete v =>
        -- The instruction may have given the frame storage before its result is bound.
        obtain ⟨allocs, ht⟩ := hflow.frames hfr (by simp)
        obtain ⟨locals, pc, hshape⟩ := complete_shape ht f inst v
        refine .inside { fr with locals, pc, allocs } rfl ?_ ?_
        · rw [after_congr hstep]
          unfold proceed
          rw [after_bind_reads fun _ => reads_pure _, hshape]
        · intro w u h
          rw [hstep, proceed, bind_eq_ok_iff] at h
          obtain ⟨_, _, _, h⟩ := h
          cases h
      | jump target =>
        obtain ⟨allocs, ht⟩ := hflow.frames hfr (by simp)
        rw [proceed, bind_of_ok (modifyFrame_cons ht)] at hstep
        refine .inside ({ fr with allocs }.enterBlock target) rfl ?_ (by simp [hstep])
        rw [after_of_ok hstep]
      | entered =>
        cases hflow with
        | stays _ hne => exact absurd rfl hne
        | enters id hcalls heff henters =>
          obtain ⟨locals, hframes⟩ := henters.frames
          refine .entered { function := id, locals } hcur hcalls hstep ?_
          rw [hframes, heff.frames_eq, hfr]
      | ret v =>
        cases hflow with
        | stays heff _ => exact step_shape_of_ret base hfr hcur hx heff

theorem step_moves (base : Nat) : Along (Moves p) (step p base) := by
  intro s
  cases hfr : s.frames with
  | nil =>
    rw [after_of_error (step_nil base hfr)]
    exact refl_of (Moves p) s
  | cons fr rest =>
    cases hcur : fr.current p.module with
    | error e =>
      rw [after_of_error (step_of_current_error base hfr hcur)]
      exact refl_of (Moves p) s
    | ok c =>
      obtain ⟨f, block, inst⟩ := c
      have hexec := execute_settles (p := p) (s := s) f inst
      cases hx : execute p f inst s with
      | error e t =>
        rw [after_of_error (step_of_execute_error base hfr hcur hx)]
        exact .effects (hexec.of_error hx)
      | ok flow t =>
        rw [after_congr (step_of_executed base hfr hcur hx)]
        have hflow := hexec.of_ok hx
        -- What has happened by the time the instruction is executed; then it is completed.
        have hst : Moves p s t := by
          cases hflow with
          | stays heff _ => exact .effects heff
          | allocates v halloc => exact .allocates halloc
          | enters id _ heff henters => exact .trans (.effects heff) (.enters id henters)
        refine .trans hst ?_
        cases flow with
        | complete v =>
          obtain ⟨allocs, ht⟩ := hflow.frames hfr (by simp)
          exact after_bind (complete_moves ht (current_eq_ok hcur).1 inst v)
            fun _ u _ => (reads_pure _).along u
        | jump target =>
          obtain ⟨allocs, ht⟩ := hflow.frames hfr (by simp)
          rw [proceed, after_congr (bind_of_ok (modifyFrame_cons ht))]
          exact .goto ht target target (some fr.entered) 0
        | entered => exact refl_of (Moves p) t
        | ret v => exact popFrame_moves.bind (fun _ => deliver_moves base v) t

end Exec

end PackedIR
