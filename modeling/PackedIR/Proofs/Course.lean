/-
The course of a session, act by act.

A command is one request from outside, but much may happen before it is answered. Here the course
of a session is a list of acts: what setting up does before the initializer, a function that is
prepared, a call from outside, the execution of one instruction, a frame that is taken off after a
failure, and operands that are evaluated in the middle of an instruction. `Command.acts` lists the
acts of a command, and obeying the command is taking them in order, whether it succeeds or not. So a
fact that every act keeps holds at every point of every session.

An act `Writes` to a byte in use when the program stores there, or when native code changes it.
What setting up puts into the globals is not a write of the program.
-/
import PackedIR.Proofs.Access
import PackedIR.Proofs.Callees
import PackedIR.Proofs.Liveness
import PackedIR.Proofs.SettingUp

set_option autoImplicit false

namespace PackedIR

open Exec

variable {p : Program} {s t : State}

/-! ## Acts -/

/-- One thing that happens in a session. -/
inductive Act where
  /-- The session is set up, as far as the global initializer. -/
  | prepare
  | compile (id : FuncId)
  /-- A function is called from outside: native code runs, or a frame is pushed. -/
  | call (id : FuncId) (args : List Value)
  /-- Operands are evaluated in the middle of an instruction. -/
  | evaluate (os : List Operand)
  /-- An instruction is executed. -/
  | step (base : Nat)
  /-- A frame is taken off after a failure. -/
  | leave
deriving DecidableEq

/-- The state that an act leaves, successful or not. -/
def Act.run (p : Program) : Act → State → State
  | .prepare => (Exec.prepare p).after
  | .compile id => (compileFunction p id).after
  | .call id args => (startCall p id args).after
  | .evaluate os => (operands p os).after
  | .step base => (Exec.step p base).after
  | .leave => popFrame.after

/-- The state after several acts. -/
def runActs (p : Program) (acts : List Act) (s : State) : State :=
  acts.foldl (fun s a => a.run p s) s

@[simp] theorem runActs_nil : runActs p [] s = s := rfl

namespace Exec

/-- The acts of a run that ends when `base` frames are left. After an error the frames above are
taken off. -/
def runFromActs (p : Program) (base : Nat) : (fuel : Nat) → State → List Act
  | 0, _ => []
  | fuel + 1, s => .step base :: match step p base s with
    | .ok (some _) _ => []
    | .ok none t => runFromActs p base fuel t
    | .error (.raised _ _) t => List.replicate (t.frames.length - base) .leave
    | .error _ _ => []

/-- The acts of a call from outside. -/
def callActs (p : Program) (fuel : Nat) (id : FuncId) (args : List Value) (s : State) : List Act :=
  .call id args :: match startCall p id args s with
    | .ok .entered t => runFromActs p s.frames.length fuel t
    | _ => []

end Exec

/-- The acts of a command. -/
def Command.acts (p : Program) (s : State) : Command → List Act
  | .setUp fuel =>
    if s.initialized then []
    else .prepare :: match Exec.prepare p s, p.initializer? with
      | .ok _ t, some init => callActs p fuel init [] t
      | _, _ => []
  | .compile id => [.compile id]
  | .run fuel id args => callActs p fuel id args s
  | .runByName fuel name args => match p.module.functionByName? name with
    | some id => callActs p fuel id args s
    | none => []
  | .globalAddress _ | .globalValue _ => []

namespace Exec

variable {α : Type}

end Exec

/-- Bytes, static storage, constants and strings are left alone; storage of frames may be
released. -/
structure Calm (s t : State) : Prop where
  arena : t.memory.arena = s.memory.arena
  stack : t.memory.stack.entries.Sublist s.memory.stack.entries
  statics : t.memory.statics = s.memory.statics
  constants : t.constants = s.constants
  strings : t.strings = s.strings

namespace Calm

theorem of_memory_eq (hmemory : t.memory = s.memory) (hconstants : t.constants = s.constants)
    (hstrings : t.strings = s.strings) : Calm s t := by
  have hstack : s.memory.stack.entries = t.memory.stack.entries := by rw [hmemory]
  exact ⟨by rw [hmemory], hstack ▸ .refl _, by rw [hmemory], hconstants, hstrings⟩

instance : Std.Refl Calm := ⟨fun _ => .of_memory_eq rfl rfl rfl⟩

instance : IsTrans State Calm :=
  ⟨fun _ _ _ h h' => ⟨h'.arena.trans h.arena, h'.stack.trans h.stack, h'.statics.trans h.statics,
    h'.constants.trans h.constants, h'.strings.trans h.strings⟩⟩

theorem tidy (h : Calm s t) (hs : s.memory.Tidy) : t.memory.Tidy := by
  have htidy := hs.of_sublist h.stack
  rw [← h.arena, ← h.statics] at htidy
  -- How often storage has been handed out does not matter.
  exact ⟨⟨htidy.housed.statics, htidy.housed.inside, htidy.housed.limit⟩, htidy.stack, htidy.apart⟩

end Calm

/-- What starting a call does: native code changes bytes, or all is calm. -/
inductive Starts (p : Program) (s : State) : State → Prop where
  | calm {t : State} : Calm s t → Starts p s t
  | native {address : Nat} {code : NativeCode} (args : List Scalar)
      (found : p.host address = some code) :
      Starts p s { s with memory := { s.memory with arena := (code args s.memory.arena).2 } }

instance : Std.Refl (Starts p) := ⟨fun s => .calm (refl_of Calm s)⟩

namespace Exec

theorem modifyFrame_calm (g : Frame → Frame) : Along Calm (modifyFrame g) := by
  intro s
  unfold modifyFrame
  rw [after, modify_apply]
  dsimp only
  cases s.frames with
  | nil | cons => exact .of_memory_eq rfl rfl rfl

theorem complete_calm (f : Function) (inst : Instruction) (v : Option Value) :
    Along Calm (complete f inst v) := by
  cases v with
  | none => exact modifyFrame_calm _
  | some v =>
    refine Along.bind (fun s => ?_) fun _ => modifyFrame_calm _
    rcases after_bindResult f inst v s with h | ⟨_, _, _, _, _, _, _, _, h⟩
    · rw [h]
      exact refl_of Calm s
    · rw [h]
      exact .of_memory_eq rfl rfl rfl

theorem popFrame_calm : Along Calm popFrame := by
  intro s
  rcases s.frames_cases with hfr | ⟨fr, rest, hfr⟩
  · rw [after_of_error (popFrame_nil hfr)]
    exact refl_of Calm s
  · rw [after, popFrame_eq hfr]
    cases hreleased : s.memory.stack.removeAll fr.allocs with
    | ok stack => exact ⟨rfl, AllocMap.removeAll_sublist hreleased, rfl, rfl, rfl⟩
    | error => exact refl_of Calm s

theorem deliver_calm (base : Nat) (v : Value) : Along Calm (deliver p base v) := by
  refine reads_get.along.bind fun s => ?_
  split
  · exact (reads_pure _).along
  · exact reads_frame.along.bind fun _ => (reads_lift _).along.bind fun _ =>
      (complete_calm _ _ _).bind fun _ => (reads_pure _).along

/-- Once an instruction has been executed, only frames change. -/
theorem proceed_calm (base : Nat) (f : Function) (inst : Instruction) (flow : Flow) :
    Along Calm (proceed p base f inst flow) := by
  cases flow with
  | complete v => exact (complete_calm f inst v).bind fun _ => (reads_pure _).along
  | jump target => exact (modifyFrame_calm _).bind fun _ => (reads_pure _).along
  | entered => exact (reads_pure _).along
  | ret v => exact popFrame_calm.bind fun _ => deliver_calm base v

theorem compileFunction_calm (id : FuncId) : Along Calm (compileFunction p id) := by
  refine (reads_liftFault _).along.bind fun f => reads_get.along.bind fun s => ?_
  split
  · exact (reads_pure _).along
  · split
    · exact (reads_lift _).along
    · by_cases hlimit : FuncId.limit ≤ id.index
      · simp only [if_pos hlimit]
        exact (reads_throw _).along
      · simp only [if_neg hlimit]
        exact fun t => .of_memory_eq rfl rfl rfl

theorem pushFrame_calm (id : FuncId) (f : Function) (sig : Signature) (args : List Value) :
    Along Calm (pushFrame p id f sig args) := by
  refine reads_get.along.bind fun s => ?_
  dsimp only
  split
  · exact (reads_lift _).along
  · exact (reads_lift _).along.bind fun _ _ => .of_memory_eq rfl rfl rfl

theorem callNative_starts (callee : Callee) (args : List Value) :
    Along (Starts p) (callNative p callee args) := by
  intro s
  cases hprepare : callee.prepare p.host args with
  | error e =>
    rw [after, callNative_eq, hprepare]
    exact refl_of (Starts p) s
  | ok call =>
    rw [after_congr ((callNative_eq callee args).trans (by rw [hprepare])), ← reads_lift _ _]
    exact .native call.args (host_of_prepare hprepare)

theorem startCall_starts (id : FuncId) (args : List Value) :
    Along (Starts p) (startCall p id args) := by
  refine (reads_liftFault _).bind_along fun f => (reads_liftFault _).bind_along fun sig => ?_
  split
  · exact (reads_lift _).along
  · split
    · intro s
      rw [after_bind_reads fun _ => reads_pure _]
      refine (reads_get.bind fun _ => reads_pure _).bind_along (fun symbol => ?_) s
      split
      · exact (reads_lift _).along
      · exact callNative_starts _ args
    · refine Along.mono (Q := Calm) (fun _ _ => .calm) ?_
      exact (compileFunction_calm id).bind fun _ => (pushFrame_calm id f sig args).bind fun _ =>
        (reads_pure _).along

theorem startTarget_starts (target : Target) (args : List Value) :
    Along (Starts p) (startTarget p target args) := by
  cases target with
  | function id => exact startCall_starts id args
  | foreign address fnTy =>
    intro s
    rw [after, startTarget_foreign]
    cases fnTy.signature? with
    | none => exact refl_of (Starts p) s
    | some sig =>
      by_cases haddress : address = 0
      · simp only [if_pos haddress]
        exact refl_of (Starts p) s
      · simp only [if_neg haddress]
        change Starts p s ((callNative p _ args >>= fun v => pure (Started.returned v)).after s)
        rw [after_bind_reads fun _ => reads_pure _]
        exact callNative_starts _ args s

end Exec

/-! ## Writes -/

/-- Native code that `x` runs changes the byte. -/
def Exec.NativeWrites {α : Type} (p : Program) (x : Exec α) (s : State) (k : Nat) : Prop :=
  ∃ address code args, p.host address = some code ∧
    (x.after s).memory.arena = (code args s.memory.arena).2 ∧
    (x.after s).memory.arena.byteAt k ≠ s.memory.arena.byteAt k

/-- What starts a call changes a byte by native code only. -/
theorem Exec.byteAt_of_starts {α : Type} {x : Exec α} {k : Nat} (hx : Starts p s (x.after s))
    (h : ¬NativeWrites p x s k) :
    (x.after s).memory.arena.byteAt k = s.memory.arena.byteAt k := by
  unfold NativeWrites at h
  generalize x.after s = t at hx h ⊢
  cases hx with
  | calm hcalm => rw [hcalm.arena]
  | native args found =>
    exact Decidable.byContradiction fun hchanged => h ⟨_, _, args, found, rfl, hchanged⟩

/-- The instruction writes to a byte in use, once it has evaluated its operands. -/
inductive Instruction.Writes (p : Program) (inst : Instruction) (s : State) (k : Nat) : Prop where
  | store {op : PlaceOp} {value place : Operand} {v : Value} {address : Nat} {ty : Ty} {u w : State}
      (opcode : inst.op = .place op) (stores : op = .store ∨ op = .writePtr)
      (args : inst.args = [value, place])
      (evaluated : storeOperands p op value place s = .ok (v, address, ty) u)
      (live : u.memory.Live k 1) (stored : storeValue p address ty v u = .ok () w)
      (inside : address ≤ k ∧ k < address + v.size)
  | native {op : CallOp} {target : Target} {args : List Value} {u : State}
      (opcode : inst.op = .call op) (evaluated : aim p inst op s = .ok (target, args) u)
      (live : u.memory.Live k 1) (changed : NativeWrites p (startTarget p target args) u k)

namespace Exec

/-- An instruction evaluates operands, allocates, stores or calls. So it moves along a relation that
constants and allocations move along, provided its store or its call does once the operands have
been evaluated. -/
theorem execute_along {R : State → State → Prop} [Std.Refl R] [IsTrans State R]
    (hconst : ∀ id, Along R (constValue p id))
    (halloc : ∀ {size : Nat}, 0 < size → Along R (allocFrame p size)) (f : Function)
    (inst : Instruction)
    (hstore : ∀ {op value place v address ty u}, inst.op = .place op →
      op = .store ∨ op = .writePtr → inst.args = [value, place] →
      storeOperands p op value place s = .ok (v, address, ty) u →
      R u ((storeValue p address ty v).after u))
    (hcall : ∀ {op target args u}, inst.op = .call op → aim p inst op s = .ok (target, args) u →
      R u ((startTarget p target args).after u)) :
    R s ((execute p f inst).after s) := by
  have evaluated {α : Type} {x : Exec α} {g : α → Flow} (hx : Evaluates p x) :
      R s (Exec.after (do return g (← x)) s) :=
    (hx R hconst).bind (fun _ => (reads_pure _).along) s
  have stores {op : PlaceOp} {value place : Operand} {result : Option Local}
      (hinst : inst = ⟨.place op, [value, place], result⟩) (hop : op = .store ∨ op = .writePtr) :
      R s ((execute p f inst).after s) := by
    subst hinst
    rw [after_congr (execute_store hop)]
    refine after_bind (storeOperands_evaluates op R hconst s) fun c u hu => ?_
    obtain ⟨v, address, ty⟩ := c
    dsimp only
    rw [after_bind_reads fun _ => reads_pure _]
    exact hstore rfl hop rfl hu
  obtain ⟨opcode, args, result⟩ := inst
  cases opcode with
  | ret => exact evaluated (returnValue_evaluates f _)
  | branch => exact evaluated (branchTarget_reads _).evaluates
  | condBranch => exact evaluated (condBranchTarget_evaluates _)
  | unreachable => exact (reads_lift _).along s
  | phi => exact evaluated (phi_evaluates f _)
  | unary op => exact evaluated (unary_evaluates _ op)
  | cast op => exact evaluated (cast_evaluates _ op)
  | binary op => exact evaluated (binary_evaluates f _ op)
  | insertValue | extractValue | getField | setField | union =>
    exact evaluated (aggregate_evaluates _)
  | place op =>
    cases op with
    | store => match args with
      | [value, place] => exact stores rfl (.inl rfl)
      | [] | [_] | _ :: _ :: _ :: _ => exact evaluated (reads_lift _).evaluates
    | writePtr => match args with
      | [value, place] => exact stores rfl (.inr rfl)
      | [] | [_] | _ :: _ :: _ :: _ => exact evaluated (reads_lift _).evaluates
    | stackAlloc | createLVal => match args with
      | [.type ty] =>
        have hplaced := (halloc (Nat.le_max_right ty.size 1)).bind fun address =>
          (reads_pure (some (Value.ofAddress (Ty.mutPtrTo ty) address))).along
        exact hplaced.bind (fun _ => (reads_pure _).along) s
      | [] | .local _ :: _ | .const _ :: _ | .block _ :: _ | .type _ :: _ :: _ =>
        exact evaluated (reads_lift _).evaluates
    | _ => exact evaluated (place_evaluates f _ (by simp))
  | call op =>
    change R s (Exec.after (call p _ op >>= _) s)
    rw [after_bind_reads fun started => by cases started <;> exact reads_pure _, call_eq_aim]
    refine after_bind (aim_evaluates _ op R hconst s) fun c u hu => ?_
    exact hcall rfl hu

end Exec

/-- The act writes to a byte in use. -/
inductive Act.Writes (p : Program) (s : State) (k : Nat) : Act → Prop where
  | call {id : FuncId} {args : List Value} (live : s.memory.Live k 1)
      (changed : NativeWrites p (startCall p id args) s k) : Act.Writes p s k (.call id args)
  | step {base : Nat} {fr : Frame} {rest : List Frame} {f : Function} {block : Block}
      {inst : Instruction} (frames : s.frames = fr :: rest)
      (current : fr.current p.module = .ok (f, block, inst)) (writes : inst.Writes p s k) :
      Act.Writes p s k (.step base)

end PackedIR
