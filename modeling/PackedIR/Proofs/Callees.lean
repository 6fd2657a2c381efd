/-
What a call calls.

Every call instruction first finds its callee and evaluates its arguments, and then starts
the call. `aim` is the first part and `startTarget` the second, so what holds of all calls is
said of targets: a function of the module, or whatever code is behind an address that stands
for none. A function that is entered has the frame that its arguments make, and native code
gets the scalars that they are converted to. Which host there is matters to nothing but
native code, and the first part runs none.
-/
import PackedIR.Proofs.Bindings

set_option autoImplicit false

namespace PackedIR

variable {p : Program} {s t : State} {id : FuncId} {args : List Value}

/-! ## Targets -/

/-- What is called: a function of the module, or the code behind an address, under a type. -/
inductive Target where
  | function (id : FuncId)
  | foreign (address : Nat) (fnTy : Ty)
deriving DecidableEq

/-- What an address stands for. -/
def State.target (s : State) (address : Nat) (fnTy : Ty) : Target :=
  match s.functionAt? address with
  | some id => .function id
  | none => .foreign address fnTy

namespace Exec

/-- Starts a call of a target with evaluated arguments. -/
def startTarget (p : Program) : Target → List Value → Exec Started
  | .function id, args => startCall p id args
  | .foreign address fnTy, args => match fnTy.signature? with
    | none => raise (.unknownFunction address)
    | some sig =>
      if address = 0 then raise (.unknownFunction address)
      else return .returned (← callNative p ⟨address, sig.ret, sig.params.length⟩ args)

theorem startTarget_foreign (address : Nat) (fnTy : Ty) :
    startTarget p (.foreign address fnTy) args s = match fnTy.signature? with
      | none => .error (.of (.unknownFunction address)) s
      | some sig =>
        if address = 0 then .error (.of (.unknownFunction address)) s
        else (do return .returned (← callNative p ⟨address, sig.ret, sig.params.length⟩ args) :
          Exec Started) s := by
  rw [startTarget]
  cases fnTy.signature? with
  | none => rfl
  | some sig =>
    dsimp only
    split <;> rfl

/-- What a pointer leads to. -/
def locate (pointer : Value) (fnTy : Ty) : Exec Target := do
  let address ← pointer.asAddress
  return (← get).target address fnTy

theorem startPointerCall_eq (pointer : Value) (fnTy : Ty) (args : List Value) :
    startPointerCall p pointer fnTy args =
      locate pointer fnTy >>= fun target => startTarget p target args := by
  funext s
  unfold startPointerCall locate
  cases pointer.asAddress with
  | error e => rfl
  | ok address =>
    simp only [bind_assoc, pure_bind, bind_of_ok (lift_ok _ _), bind_of_ok (get_apply s)]
    unfold State.target
    cases s.functionAt? address with
    | some id => rfl
    | none => rfl

/-- Finds the callee of a call instruction and evaluates the arguments. -/
def aim (p : Program) (inst : Instruction) (op : CallOp) : Exec (Target × List Value) := do
  match op, inst.args with
  | .direct, .const callee :: args => match (← p.module.constant callee).kind with
    | .function id => return (.function id, ← operands p args)
    | _ => raiseOperand (.notFunctionConstant callee)
  | .pointer, callee :: args =>
    let pointer ← operand p callee
    let args ← operands p args
    return (← locate pointer pointer.ty, args)
  | .virtual, .type _ :: index :: .type fnTy :: receiver :: rest =>
    let i ← integerOperand p .tableIndex index
    let receiver ← operand p receiver
    let pointer ← methodPointer p (← receiver.asAddress) i fnTy
    let args ← operands p rest
    return (← locate pointer fnTy, receiver :: args)
  | _, _ => raiseArity inst "callee and argument"

/-- A call instruction finds its target and starts the call of it. -/
theorem call_eq_aim (inst : Instruction) (op : CallOp) :
    call p inst op = aim p inst op >>= fun c => startTarget p c.1 c.2 := by
  obtain ⟨opcode, operands, result⟩ := inst
  unfold call
  dsimp only
  split
  · unfold aim
    dsimp only
    rw [bind_assoc]
    congr 1
    funext c
    obtain ⟨ty, kind⟩ := c
    cases kind with
    | function id =>
      dsimp only
      rw [bind_assoc]
      rfl
    | _ => rfl
  · simp only [aim, bind_assoc, pure_bind, startPointerCall_eq]
  · simp only [aim, bind_assoc, pure_bind, startPointerCall_eq]
  · rename_i hdirect hpointer hvirtual
    unfold aim
    dsimp only
    split
    · exact (hdirect _ _ rfl rfl).elim
    · exact (hpointer _ _ rfl rfl).elim
    · exact (hvirtual _ _ _ _ _ rfl rfl).elim
    · rfl

theorem locate_reads (pointer : Value) (fnTy : Ty) : Reads (locate pointer fnTy) :=
  (reads_lift _).bind fun _ => reads_get.bind fun _ => reads_pure _

/-- Finding the target and the arguments is evaluation. -/
theorem aim_evaluates (inst : Instruction) (op : CallOp) : Evaluates p (aim p inst op) := by
  unfold aim
  split
  · refine (reads_liftFault _).evaluates.bind fun c => ?_
    split
    · exact (operands_evaluates _).bind fun _ => (reads_pure _).evaluates
    · exact (reads_lift _).evaluates
  · exact (operand_evaluates _).bind fun _ => (operands_evaluates _).bind fun _ =>
      (locate_reads _ _).evaluates.bind fun _ => (reads_pure _).evaluates
  · exact (integerOperand_evaluates _ _).bind fun _ => (operand_evaluates _).bind fun _ =>
      (reads_lift _).evaluates.bind fun _ => (methodPointer_reads _ _ _).evaluates.bind fun _ =>
        (operands_evaluates _).bind fun _ => (locate_reads _ _).evaluates.bind fun _ =>
          (reads_pure _).evaluates
  · exact (reads_lift _).evaluates

theorem aim_makes (inst : Instruction) (op : CallOp) : Along (Makes p) (aim p inst op) :=
  (aim_evaluates inst op).makes

/-! ## Independence of the outside -/

section Outside

variable (resolver : Resolver) (host : Host)

theorem constValueWith_outside (budget : Nat) (c : ConstId) :
    constValueWith { p with resolver, host } budget c = constValueWith p budget c := by
  induction budget generalizing c with
  | zero => rfl
  | succ budget ih =>
    simp only [constValueWith, ih]
    rfl

theorem operand_outside (o : Operand) : operand { p with resolver, host } o = operand p o := by
  cases o with
  | const c =>
    simp only [operand, constOperand, constValue, constValueWith_outside]
    rfl
  | «local» | block | type => rfl

theorem operands_outside (os : List Operand) :
    operands { p with resolver, host } os = operands p os := by
  induction os with
  | nil => rfl
  | cons o os ih => simp only [operands, operand_outside, ih]

/-- No symbol is looked up and no native code runs while the target and the arguments are found. -/
theorem aim_outside (inst : Instruction) (op : CallOp) :
    aim { p with resolver, host } inst op = aim p inst op := by
  simp only [aim, integerOperand, operand_outside, operands_outside]
  rfl

theorem aim_host (inst : Instruction) (op : CallOp) :
    aim { p with host } inst op = aim p inst op :=
  aim_outside p.resolver host inst op

end Outside

end Exec

/-! ## Functions of the module -/

/-- The number of arguments suits the signature: one for each parameter, and more if it is
variadic. -/
def Signature.Takes (sig : Signature) (count : Nat) : Prop :=
  count = sig.params.length ∨ sig.variadic = true ∧ sig.params.length ≤ count

theorem Signature.admits_iff {sig : Signature} {count : Nat} :
    sig.admits count = true ↔ sig.Takes count := by
  unfold admits Takes
  cases sig.variadic with
  | true =>
    simp only [if_true, decide_eq_true_eq, true_and]
    omega
  | false => simp

instance (sig : Signature) (count : Nat) : Decidable (sig.Takes count) :=
  decidable_of_iff _ Signature.admits_iff

/-- Every argument is bound to the local at its position, under the type of its parameter. -/
def Frame.Holds (fr : Frame) (args : List Value) (params : List Ty) : Prop :=
  ∀ i v, args[i]? = some v → ∃ ty, params[i]? = some ty ∧
    fr.lookup? ⟨i⟩ = some { ty, bytes := v.bytes, origin := .local ⟨i⟩ }

/-- Arguments bound from `index` on are there afterwards, and so is what was bound below. -/
theorem Frame.lookup?_bindArgs {fr fr' : Frame} {index : Nat} {params : List Ty}
    (h : fr.bindArgs index args params = .ok fr') :
    (∀ i, i < index → fr'.lookup? ⟨i⟩ = fr.lookup? ⟨i⟩) ∧
      ∀ i v ty, args[i]? = some v → params[i]? = some ty →
        fr'.lookup? ⟨index + i⟩ =
          some { ty, bytes := v.bytes, origin := .local ⟨index + i⟩ } := by
  induction args generalizing fr index params with
  | nil =>
    cases h
    exact ⟨fun _ _ => rfl, by simp⟩
  | cons v args ih =>
    cases params with
    | nil =>
      cases h
      exact ⟨fun _ _ => rfl, by simp⟩
    | cons ty params =>
      simp only [bindArgs, except_bind_eq_ok_iff] at h
      obtain ⟨arg, harg, _, hslot, h⟩ := h
      obtain ⟨hbelow, habove⟩ := ih h
      have hslot := Exec.checkSlot_eq_ok_iff.mp hslot
      refine ⟨fun i hi => ?_, fun i w ty' hw hty' => ?_⟩
      · rw [hbelow i (by omega), lookup?_set, if_neg]
        rintro ⟨hsame, _⟩
        cases hsame
        omega
      · cases i with
        | zero =>
          -- The first argument is bound now, and the others leave it alone.
          cases hw
          cases hty'
          rw [Nat.add_zero, hbelow index (by omega), lookup?_set, if_pos ⟨rfl, hslot⟩]
          obtain ⟨_, rfl⟩ := Value.retype_eq_ok_iff.mp harg
          rfl
        | succ i =>
          have hnext := habove i w ty' hw hty'
          rwa [show index + 1 + i = index + (i + 1) by omega] at hnext

namespace Exec

theorem startCall_eq {f : Function} {sig : Signature} (hf : p.module.function id = .ok f)
    (hsig : f.signature = .ok sig) :
    startCall p id args s =
      if sig.Takes args.length then
        if f.isDeclaration then
          (do return .returned (← callDeclaration p id f sig args) : Exec Started) s
        else (do
          let _ ← compileFunction p id
          pushFrame p id f sig args
          return .entered : Exec Started) s
      else .error (.of (.argumentCount f.name sig.params.length args.length)) s := by
  unfold startCall
  rw [hf, bind_of_ok (liftFault_ok _ _), hsig, bind_of_ok (liftFault_ok _ _)]
  by_cases htakes : sig.Takes args.length
  · rw [if_pos htakes, if_neg (by simp [Signature.admits_iff.mpr htakes])]
    split <;> rfl
  · have hadmits : sig.admits args.length = false := by
      rw [← Bool.not_eq_true, Signature.admits_iff]
      exact htakes
    rw [if_neg htakes, if_pos (by simp [hadmits])]
    rfl

end Exec

/-- What is known when a call has put a frame on the stack. -/
structure EnteredCall (p : Program) (id : FuncId) (args : List Value) (f : Function)
    (sig : Signature) (s t : State) : Prop where
  found : p.module.function id = .ok f
  signature : f.signature = .ok sig
  takes : sig.Takes args.length
  body : f.isDeclaration = false
  compiled : ∃ u address fr, Exec.compileFunction p id s = .ok address u ∧
    Frame.bindArgs { function := id, locals := Array.replicate f.locals.size none } 0 args
      sig.params = .ok fr ∧ t = { u with frames := fr :: u.frames }

namespace Exec

theorem pushFrame_eq_ok {f : Function} {sig : Signature}
    (h : pushFrame p id f sig args s = .ok () t) :
    ∃ fr, Frame.bindArgs { function := id, locals := Array.replicate f.locals.size none } 0 args
      sig.params = .ok fr ∧ t = { s with frames := fr :: s.frames } := by
  unfold pushFrame at h
  rw [bind_of_ok (get_apply s)] at h
  dsimp only at h
  split at h
  · exact absurd (lift_eq_ok_iff.mp h).1 (by simp)
  · obtain ⟨fr, _, hbind, hpushed⟩ := bind_eq_ok_iff.mp h
    obtain ⟨hbound, rfl⟩ := lift_eq_ok_iff.mp hbind
    cases hpushed
    exact ⟨fr, hbound, rfl⟩

theorem startCall_entered (h : startCall p id args s = .ok .entered t) :
    ∃ f sig, EnteredCall p id args f sig s t := by
  obtain ⟨f, _, hf, hrest⟩ := bind_eq_ok_iff.mp h
  obtain ⟨sig, _, hs, _⟩ := bind_eq_ok_iff.mp hrest
  have hfound := (liftFault_eq_ok_iff.mp hf).1
  have hsig := (liftFault_eq_ok_iff.mp hs).1
  refine ⟨f, sig, ?_⟩
  rw [startCall_eq hfound hsig] at h
  split at h
  · rename_i htakes
    split at h
    · -- Native code has returned.
      obtain ⟨v, _, _, h⟩ := bind_eq_ok_iff.mp h
      cases h
    · rename_i hbody
      obtain ⟨address, u, hcompile, h⟩ := bind_eq_ok_iff.mp h
      obtain ⟨_, _, hpush, h⟩ := bind_eq_ok_iff.mp h
      cases h
      obtain ⟨fr, hbound, rfl⟩ := pushFrame_eq_ok hpush
      exact ⟨hfound, hsig, htakes, by simpa using hbody, u, address, fr, hcompile, hbound, rfl⟩
  · cases h

end Exec

namespace EnteredCall

variable {f : Function} {sig : Signature}

/-- The callee's frame is on top of the others, at its start. If there is a parameter for each
argument, it binds them all. -/
theorem frames (h : EnteredCall p id args f sig s t) :
    ∃ locals, t.frames = { function := id, locals } :: s.frames ∧
      (args.length = sig.params.length →
        Frame.Holds { function := id, locals } args sig.params) := by
  obtain ⟨u, address, fr, hcompile, hbound, rfl⟩ := h.compiled
  obtain ⟨locals, _, rfl⟩ := bindArgs_shape hbound
  have hmakes := (Exec.compileFunction_makes id).of_ok hcompile
  refine ⟨locals, by rw [hmakes.frames_eq], fun hlength i v hv => ?_⟩
  obtain ⟨hi, _⟩ := List.getElem?_eq_some_iff.mp hv
  have hty := List.getElem?_eq_getElem (hlength ▸ hi)
  have hheld := (Frame.lookup?_bindArgs hbound).2 i v _ hv hty
  rw [Nat.zero_add] at hheld
  exact ⟨_, hty, hheld⟩

end EnteredCall

/-! ## Native code -/

/-- The scalars stand for the arguments, one for each; those from `fixed` on are promoted. -/
def Marshals (fixed : Nat) (args : List Value) (scalars : List Scalar) : Prop :=
  scalars.length = args.length ∧ ∀ i v, args[i]? = some v →
    ∃ scalar, scalars[i]? = some scalar ∧ Scalar.ofValue v (decide (fixed ≤ i)) = .ok scalar

theorem marshal_eq_ok {fixed index : Nat} {scalars : List Scalar}
    (h : marshal fixed index args = .ok scalars) :
    scalars.length = args.length ∧ ∀ i v, args[i]? = some v →
      ∃ scalar, scalars[i]? = some scalar ∧
        Scalar.ofValue v (decide (fixed ≤ index + i)) = .ok scalar := by
  induction args generalizing index scalars with
  | nil =>
    cases h
    exact ⟨rfl, by simp⟩
  | cons v args ih =>
    simp only [marshal, except_bind_eq_ok_iff] at h
    obtain ⟨scalar, hscalar, rest, hrest, h⟩ := h
    cases h
    obtain ⟨hlength, hpassed⟩ := ih hrest
    refine ⟨by rw [List.length_cons, hlength, List.length_cons], fun i w hw => ?_⟩
    cases i with
    | zero =>
      cases hw
      exact ⟨scalar, rfl, hscalar⟩
    | succ i =>
      obtain ⟨scalar', hget, hof⟩ := hpassed i w hw
      rw [show index + 1 + i = index + (i + 1) by omega] at hof
      exact ⟨scalar', hget, hof⟩

/-- A call that is ready passes every argument, and returns what its return type is read as. -/
theorem Callee.marshals_of_prepare {callee : Callee} {host : Host} {call : ForeignCall}
    (h : callee.prepare host args = .ok call) :
    host callee.address = some call.code ∧ callee.address ≠ 0 ∧
      Marshals callee.fixed args call.args ∧ AbiClass.ofTy callee.ret = .ok call.retClass := by
  simp only [prepare, except_bind_eq_ok_iff] at h
  obtain ⟨retClass, hret, scalars, hscalars, h⟩ := h
  split at h
  · simp at h
  · rename_i hnull
    obtain ⟨_, _, h⟩ := except_bind_eq_ok_iff.mp h
    split at h
    · rename_i code hcode
      cases h
      obtain ⟨hlength, hpassed⟩ := marshal_eq_ok hscalars
      refine ⟨hcode, hnull, ⟨hlength, fun i v hv => ?_⟩, hret⟩
      have hscalar := hpassed i v hv
      rwa [Nat.zero_add] at hscalar
    · cases h

end PackedIR
