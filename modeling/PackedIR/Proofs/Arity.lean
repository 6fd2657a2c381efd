/-
How many arguments a call passes.

A function of the module is called with one argument for each parameter, or with more if it is
variadic. Whoever calls it with another number, from outside or by an instruction, gets an error
that says so, and neither a frame nor native code comes of it. Code behind an address that stands
for no function has no declaration to check against. The type that it is called by says which
arguments are fixed, and all that come after them are passed as variadic ones.
-/
import PackedIR.Proofs.Callees
import PackedIR.Proofs.Dispatch

set_option autoImplicit false

namespace PackedIR

variable {p : Program} {s : State}

/-! ## Functions of the module -/

/-- What can become of a call of `f`, the function `id` of the module. -/
structure Function.Guarded (f : Function) (p : Program) (id : FuncId) (sig : Signature)
    (args : List Value) (s : State) : Prop where
  refused : ¬sig.Takes args.length → Exec.startCall p id args s =
    .error (.of (.argumentCount f.name sig.params.length args.length)) s
  entered : ∀ t, Exec.startCall p id args s = .ok .entered t →
    sig.Takes args.length ∧ f.isDeclaration = false ∧
      ∃ fr, t.frames = fr :: s.frames ∧ fr.function = id ∧
        (args.length = sig.params.length → fr.Holds args sig.params)
  native : f.isDeclaration = true → sig.Takes args.length → Exec.startCall p id args s =
    (do return .returned (← Exec.callDeclaration p id f sig args) : Exec Started) s

theorem Function.guarded {f : Function} {id : FuncId} {sig : Signature}
    (hf : p.module.function id = .ok f) (hsig : f.signature = .ok sig) (args : List Value) :
    f.Guarded p id sig args s := by
  refine ⟨fun htakes => ?_, fun t h => ?_, fun hdeclared htakes => ?_⟩
  · rw [Exec.startCall_eq hf hsig, if_neg htakes]
  · obtain ⟨f', sig', hentered⟩ := Exec.startCall_entered h
    have hf' := hentered.found
    rw [hf] at hf'
    cases hf'
    have hsig' := hentered.signature
    rw [hsig] at hsig'
    cases hsig'
    obtain ⟨locals, hframes, hholds⟩ := hentered.frames
    exact ⟨hentered.takes, hentered.body, _, hframes, rfl, hholds⟩
  · rw [Exec.startCall_eq hf hsig, if_pos htakes, if_pos hdeclared]

/-- A call from outside with a wrong number of arguments changes nothing. -/
theorem Exec.runFunction_refused {f : Function} {id : FuncId} {sig : Signature} {args : List Value}
    (fuel : Nat) (hf : p.module.function id = .ok f) (hsig : f.signature = .ok sig)
    (htakes : ¬sig.Takes args.length) :
    runFunction p fuel id args s = .error (.raised [.running f.name]
      (.error (.argumentCount f.name sig.params.length args.length))) s := by
  have hcall : callFunction p fuel id args s =
      .error (.of (.argumentCount f.name sig.params.length args.length)) s := by
    rw [callFunction_eq, (Function.guarded hf hsig args).refused htakes]
  unfold runFunction
  rw [hf, bind_of_ok (liftFault_ok _ _), within, hcall]
  rfl

/-! ## Code behind an address -/

/-- What can become of a call through an address that stands for no function. -/
structure Foreign.Guarded (p : Program) (address : Nat) (fnTy : Ty) (args : List Value)
    (s : State) : Prop where
  unknown : fnTy.signature? = none ∨ address = 0 →
    Exec.startTarget p (.foreign address fnTy) args s = .error (.of (.unknownFunction address)) s
  frameless : ((Exec.startTarget p (.foreign address fnTy) args).after s).frames = s.frames
  native : ∀ sig, fnTy.signature? = some sig → address ≠ 0 → sig.params.length ≤ args.length →
    Exec.startTarget p (.foreign address fnTy) args s =
      (do return .returned (← Exec.callNative p ⟨address, sig.ret, sig.params.length⟩ args) :
        Exec Started) s

theorem Foreign.guarded (p : Program) (address : Nat) (fnTy : Ty) (args : List Value)
    (s : State) : Foreign.Guarded p address fnTy args s := by
  refine ⟨fun hunknown => ?_, ?_, fun sig hsig hnull _ => ?_⟩
  · rw [Exec.startTarget_foreign]
    cases hsig : fnTy.signature? with
    | none => rfl
    | some sig =>
      have hnull : address = 0 := hunknown.resolve_left (by simp [hsig])
      simp only [if_pos hnull]
  · rw [Exec.after, Exec.startTarget_foreign]
    cases fnTy.signature? with
    | none => rfl
    | some sig =>
      by_cases hnull : address = 0
      · simp only [if_pos hnull]
      · simp only [if_neg hnull]
        rw [← Exec.after, Exec.after_bind_reads fun _ => Exec.reads_pure _]
        exact (Exec.callNative_effects (p := p) _ args s).frames_eq
  · rw [Exec.startTarget_foreign, hsig]
    simp only [if_neg hnull]

/-! ## Calls -/

/-- What can become of a call of a target. -/
def Target.Guarded (p : Program) (args : List Value) (s : State) : Target → Prop
  | .function id => ∀ f sig, p.module.function id = .ok f → f.signature = .ok sig →
    f.Guarded p id sig args s
  | .foreign address fnTy => Foreign.Guarded p address fnTy args s

/-- Native code that is ready to be called is run on all arguments. -/
theorem Exec.after_callNative {callee : Callee} {args : List Value} {call : ForeignCall}
    (h : callee.prepare p.host args = .ok call) : (callNative p callee args).after s =
      { s with memory := { s.memory with arena := (call.code call.args s.memory.arena).2 } } := by
  rw [after, callNative_eq, h]
  dsimp only
  rw [← after]
  exact (reads_lift _ _).symm

/-- The number of arguments is checked against the signature of the function that is called,
whichever way it is called: a call from outside, or a call instruction, which finds its target and
its arguments without a frame and without native code. Native code gets every argument. -/
theorem calls_check_arity (p : Program) (s : State) :
    (∀ fuel id args f sig, p.module.function id = .ok f → f.signature = .ok sig →
      ¬sig.Takes args.length → Exec.runFunction p fuel id args s = .error (.raised
        [.running f.name] (.error (.argumentCount f.name sig.params.length args.length))) s) ∧
    (∀ inst op, Makes p s ((Exec.aim p inst op).after s) ∧
      ∀ host, Exec.call { p with host } inst op =
        Exec.aim p inst op >>= fun c => Exec.startTarget { p with host } c.1 c.2) ∧
    (∀ (target : Target) (args : List Value), target.Guarded p args s) ∧
    ∀ (callee : Callee) (args : List Value) (call : ForeignCall),
      callee.prepare p.host args = .ok call →
        p.host callee.address = some call.code ∧ Marshals callee.fixed args call.args ∧
        (Exec.callNative p callee args).after s = { s with memory :=
          { s.memory with arena := (call.code call.args s.memory.arena).2 } } := by
  refine ⟨fun fuel id args f sig => Exec.runFunction_refused fuel, fun inst op => ⟨?_, ?_⟩, ?_, ?_⟩
  · exact Exec.aim_makes inst op s
  · intro host
    rw [Exec.call_eq_aim, Exec.aim_host]
  · intro target args
    cases target with
    | function id => exact fun f sig hf hsig => Function.guarded hf hsig args
    | foreign address fnTy => exact Foreign.guarded p address fnTy args s
  · intro callee args call h
    obtain ⟨hcode, _, hpassed, _⟩ := Callee.marshals_of_prepare h
    exact ⟨hcode, hpassed, Exec.after_callNative h⟩

/-! ## A native function called through a pointer -/

namespace Passing

/-- The type of the pointer: one parameter, not variadic. -/
def pointerTy : Ty := .function [Ty.i32] Ty.i64 false

/-- Passes three arguments. -/
def passThree : Instruction :=
  ⟨.call .pointer, [.local ⟨0⟩, .const ⟨0⟩, .const ⟨1⟩, .const ⟨2⟩], some ⟨1⟩⟩

def through : Function where
  name := "through"
  ty := .function [pointerTy] Ty.i64 false
  locals := #[⟨pointerTy, false⟩, ⟨Ty.i64, false⟩]
  blocks := #[⟨"entry", #[passThree, ⟨.ret, [.local ⟨1⟩], none⟩]⟩]

def program : Program where
  module :=
    { name := "passing"
      constants := #[⟨Ty.i32, .int 2⟩, ⟨Ty.i32, .int 10⟩, ⟨Ty.i32, .int 20⟩]
      functions := #[through] }

/-- A native function that takes a count and then as many numbers, and weighs them by position. -/
def weigh : Value := Value.ofAddress pointerTy Native.vaSumI32.address

def number (index : Nat) (low : UInt8) : Value :=
  { ty := Ty.i32, origin := .const ⟨index⟩, bytes := [low, 0, 0, 0] }

def args : List Value := [number 0 2, number 1 10, number 2 20]

/-- The function is at its call. -/
def atCall : State := (Exec.startCall program ⟨0⟩ [weigh]).after {}

theorem startCall_eq : Exec.startCall program ⟨0⟩ [weigh] {} = .ok .entered atCall :=
  Exec.eq_ok_of_result? (by decide +kernel)

end Passing

/-- Called without an argument the function is refused. With one it is entered and finds the
argument in its first local. Its own call passes all three arguments to native code. -/
theorem calls_check_arity_passing :
    Exec.runFunction Passing.program 9 ⟨0⟩ [] {} = .error (.raised [.running "through"]
      (.error (.argumentCount "through" 1 0))) {} ∧
    (∃ fr, Passing.atCall.frames = [fr] ∧
      fr.lookup? ⟨0⟩ = some (Passing.weigh.withOrigin (.local ⟨0⟩))) ∧
    Exec.startTarget Passing.program (.foreign Native.vaSumI32.address Passing.pointerTy)
        Passing.args Passing.atCall =
      (do return .returned (← Exec.callNative Passing.program
        ⟨Native.vaSumI32.address, Ty.i64, 1⟩ Passing.args) : Exec Started) Passing.atCall := by
  obtain ⟨hrefused, _, hfresh, _⟩ := calls_check_arity Passing.program {}
  obtain ⟨_, _, hguarded, _⟩ := calls_check_arity Passing.program Passing.atCall
  have hentered := (hfresh (.function ⟨0⟩) [Passing.weigh] Passing.through _ rfl rfl).entered _
    Passing.startCall_eq
  obtain ⟨_, _, fr, hframes, _, hholds⟩ := hentered
  obtain ⟨ty, hty, hbound⟩ := hholds rfl 0 Passing.weigh rfl
  cases hty
  refine ⟨hrefused 9 ⟨0⟩ [] Passing.through _ rfl rfl (by decide), ⟨fr, hframes, hbound⟩, ?_⟩
  have hnative := hguarded (.foreign Native.vaSumI32.address Passing.pointerTy) Passing.args
  exact hnative.native ⟨[Ty.i32], Ty.i64, false⟩ rfl (by decide) (by decide)

/-- Native code behind a pointer takes more arguments than the type of the pointer has parameters,
though the type is not variadic: ten and twice twenty are added up. -/
theorem pointer_call_takes_more :
    Reachable Passing.program Passing.atCall ∧
    (∃ t, Exec.aim Passing.program Passing.passThree .pointer Passing.atCall =
      .ok (.foreign Native.vaSumI32.address Passing.pointerTy, Passing.args) t) ∧
    Passing.pointerTy.signature? = some ⟨[Ty.i32], Ty.i64, false⟩ ∧
    Native.vaSumI32.address ≠ 0 ∧
    ¬Signature.Takes ⟨[Ty.i32], Ty.i64, false⟩ Passing.args.length ∧
    ∃ t, Exec.call Passing.program Passing.passThree .pointer Passing.atCall =
      .ok (.returned { ty := Ty.i64, bytes := [50, 0, 0, 0, 0, 0, 0, 0] }) t := by
  refine ⟨.entered ⟨0⟩ [Passing.weigh] .fresh Passing.startCall_eq, ?_, rfl, by decide,
    by decide, ?_⟩
  · exact ⟨_, Exec.eq_ok_of_result? (by decide +kernel)⟩
  · exact ⟨_, Exec.eq_ok_of_result? (by decide +kernel)⟩

end PackedIR
