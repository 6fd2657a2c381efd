/-
The C types that arguments are passed as.

A call of native code knows the declared signature of its callee, and uses two things of it:
the return type, and how many parameters there are. The C type of an argument is that of the
value's own type. It is the C type of the parameter exactly if the two types have the same
category, which nothing checks: an argument of another category reaches native code as well.
-/
import PackedIR.Proofs.Callees

set_option autoImplicit false

namespace PackedIR

variable {p : Program} {s t : State} {args : List Value}

/-! ## Categories -/

/-- The category of an integer-like type has the size of the type. -/
theorem AbiClass.size_of_ofTy {ty : Ty} {size : Nat} {signed : Bool}
    (h : AbiClass.ofTy ty = .ok (.int size signed)) : size = ty.size := by
  cases ty with
  | bool | int | pointer | function =>
    cases h
    simp only [Ty.size]
  | _ => simp [AbiClass.ofTy] at h

/-- An integer of a size that can be read is passed as the C type of that size. -/
theorem Scalar.abiClass_ofInt {size : Nat} (hsize : Value.isIntSize size = true) (signed : Bool)
    (i : Int) : (Scalar.ofInt size signed false i).abiClass = .int size signed := by
  simp only [Value.isIntSize, Bool.or_eq_true, beq_iff_eq] at hsize
  rcases hsize with ((rfl | rfl) | rfl) | rfl <;> rfl

/-- A value that fills its type is passed as the C type of its type. -/
theorem Scalar.abiClass_ofValue {v : Value} {scalar : Scalar} (hv : v.size = v.ty.size)
    (h : Scalar.ofValue v false = .ok scalar) : AbiClass.ofTy v.ty = .ok scalar.abiClass := by
  obtain ⟨class_, hclass, h⟩ := except_bind_eq_ok_iff.mp h
  rw [hclass]
  cases class_ with
  | int size signed =>
    dsimp only at h
    split at h
    · rename_i i hread
      cases h
      -- The value could be read, so its size is one of those that have a C type.
      have hsize : Value.isIntSize v.size = true := by
        unfold Value.toInt? at hread
        split at hread
        · assumption
        · cases hread
      rw [hv, ← AbiClass.size_of_ofTy hclass] at hsize
      rw [Scalar.abiClass_ofInt hsize]
    · simp at h
  | float width =>
    dsimp only at h
    split at h
    · cases h
      rfl
    · simp at h
  | void => simp at h

/-! ## Values of operands -/

namespace Exec

theorem size_of_operand (hs : WellTyped p s) {o : Operand} {v : Value}
    (h : operand p o s = .ok v t) : v.size = v.ty.size := by
  cases o with
  | «local» l =>
    obtain ⟨_, _, _, _, _, _, _, hv⟩ := hasTy_of_localOperand hs h
    exact hv.1 ▸ hv.2
  | const c =>
    obtain ⟨_, _, hv⟩ := hasTy_of_constOperand hs h
    exact hv.1 ▸ hv.2
  | block | type => exact absurd (lift_eq_ok_iff.mp h).1 (by simp)

theorem size_of_operands (hs : WellTyped p s) {os : List Operand} {vs : List Value}
    (h : operands p os s = .ok vs t) : ∀ v ∈ vs, v.size = v.ty.size := by
  induction os generalizing s vs with
  | nil =>
    cases h
    simp
  | cons o os ih =>
    obtain ⟨v, u, hv, h⟩ := bind_eq_ok_iff.mp h
    obtain ⟨vs, _, hvs, h⟩ := bind_eq_ok_iff.mp h
    cases h
    have hu := hs.makes ((operand_makes o).of_ok hv)
    intro w hw
    rcases List.mem_cons.mp hw with rfl | hw
    · exact size_of_operand hs hv
    · exact ih hu hvs w hw

/-- The arguments of a call instruction fill their types. -/
theorem size_of_aim (hs : WellTyped p s) {inst : Instruction} {op : CallOp} {target : Target}
    (h : aim p inst op s = .ok (target, args) t) : ∀ v ∈ args, v.size = v.ty.size := by
  obtain ⟨opcode, os, result⟩ := inst
  unfold aim at h
  dsimp only at h
  split at h
  · obtain ⟨c, _, hc, hdirect⟩ := bind_eq_ok_iff.mp h
    obtain ⟨_, rfl⟩ := liftFault_eq_ok_iff.mp hc
    obtain ⟨ty, kind⟩ := c
    cases kind with
    | function id =>
      obtain ⟨vs, _, hvs, hdone⟩ := bind_eq_ok_iff.mp hdirect
      cases hdone
      exact size_of_operands hs hvs
    | _ => exact absurd (lift_eq_ok_iff.mp hdirect).1 (by simp)
  · obtain ⟨pointer, u, hpointer, hrest⟩ := bind_eq_ok_iff.mp h
    obtain ⟨vs, _, hvs, hlocate⟩ := bind_eq_ok_iff.mp hrest
    obtain ⟨_, _, _, hdone⟩ := bind_eq_ok_iff.mp hlocate
    cases hdone
    exact size_of_operands (hs.makes ((operand_makes _).of_ok hpointer)) hvs
  · obtain ⟨i, u, hi, hrest⟩ := bind_eq_ok_iff.mp h
    obtain ⟨object, w, hobject, hfind⟩ := bind_eq_ok_iff.mp hrest
    have hu := hs.makes ((integerOperand_makes _ _).of_ok hi)
    have hw := hu.makes ((operand_makes _).of_ok hobject)
    -- Looking up the method changes nothing.
    obtain ⟨_, _, hlift, hmethod⟩ := bind_eq_ok_iff.mp hfind
    obtain ⟨_, rfl⟩ := lift_eq_ok_iff.mp hlift
    obtain ⟨_, _, hpointer, hpass⟩ := bind_eq_ok_iff.mp hmethod
    obtain rfl := (methodPointer_reads _ _ _).state_eq hpointer
    obtain ⟨vs, _, hvs, hlocate⟩ := bind_eq_ok_iff.mp hpass
    obtain ⟨_, _, _, hdone⟩ := bind_eq_ok_iff.mp hlocate
    cases hdone
    intro v hv
    rcases List.mem_cons.mp hv with rfl | hv
    · exact size_of_operand hu hobject
    · exact size_of_operands hw hvs v hv
  · exact absurd (lift_eq_ok_iff.mp h).1 (by simp)

end Exec

/-! ## Calls of native code -/

/-- A call of the target is a call of native code, which is declared with this signature. -/
inductive Target.Native (p : Program) (s : State) : Target → Signature → Callee → Prop where
  /-- A function without a body is the native function that its symbol resolves to. -/
  | declared {id : FuncId} {f : Function} {sig : Signature} {address : Nat}
      (found : p.module.function id = .ok f) (signature : f.signature = .ok sig)
      (bodiless : f.isDeclaration = true)
      (resolved : p.resolver ((s.aliases.get? id).getD f.name) = some address) :
      Target.Native p s (.function id) sig ⟨address, sig.ret, sig.params.length⟩
  /-- An address that stands for no function is native code of the type it is called by. -/
  | foreign {address : Nat} {fnTy : Ty} {sig : Signature}
      (signature : fnTy.signature? = some sig) (present : address ≠ 0) :
      Target.Native p s (.foreign address fnTy) sig ⟨address, sig.ret, sig.params.length⟩

namespace Exec

theorem callDeclaration_of_resolved {id : FuncId} {f : Function} {sig : Signature} {address : Nat}
    (h : p.resolver ((s.aliases.get? id).getD f.name) = some address) :
    callDeclaration p id f sig args s =
      callNative p ⟨address, sig.ret, sig.params.length⟩ args s := by
  unfold callDeclaration symbolOf
  simp only [bind_apply, get_apply, pure_apply, h]

/-- If it matters to the start of a call which code the host has, the target is native code and the
call is one of its callee. -/
theorem native_of_host {host : Host} {target : Target}
    (h : startTarget { p with host } target args s ≠ startTarget p target args s) :
    ∃ sig callee, target.Native p s sig callee ∧ startTarget p target args s =
      (do return .returned (← callNative p callee args) : Exec Started) s := by
  cases target with
  | foreign address fnTy =>
    rw [startTarget_foreign, startTarget_foreign] at h
    cases hsig : fnTy.signature? with
    | none => simp [hsig] at h
    | some sig =>
      by_cases hnull : address = 0
      · simp [hsig, hnull] at h
      · refine ⟨sig, _, .foreign hsig hnull, ?_⟩
        rw [startTarget_foreign, hsig]
        simp only [if_neg hnull]
  | function id =>
    rw [startTarget, startTarget] at h
    rw [startTarget]
    cases hf : p.module.function id with
    | error e => simp [startCall, bind_apply, hf] at h
    | ok f =>
      cases hsig : f.signature with
      | error e => simp [startCall, bind_apply, hf, hsig] at h
      | ok sig =>
        rw [startCall_eq (p := { p with host }) hf hsig, startCall_eq hf hsig] at h
        rw [startCall_eq hf hsig]
        by_cases htakes : sig.Takes args.length
        · rw [if_pos htakes, if_pos htakes] at h
          rw [if_pos htakes]
          by_cases hbodiless : f.isDeclaration = true
          · rw [if_pos hbodiless, if_pos hbodiless] at h
            rw [if_pos hbodiless]
            cases hresolved : p.resolver ((s.aliases.get? id).getD f.name) with
            | none => simp [callDeclaration, symbolOf, bind_apply, hresolved] at h
            | some address =>
              refine ⟨sig, _, .declared hf hsig hbodiless hresolved, ?_⟩
              rw [bind_apply, callDeclaration_of_resolved hresolved, bind_apply]
          · -- A frame is pushed, and the host is not asked.
            rw [if_neg hbodiless, if_neg hbodiless] at h
            exact absurd rfl h
        · rw [if_neg htakes, if_neg htakes] at h
          exact absurd rfl h

end Exec

/-- The C type of a fixed argument is that of the value's own type. -/
theorem Target.Native.passes {target : Target} {sig : Signature} {callee : Callee}
    {call : ForeignCall} (h : target.Native p s sig callee)
    (hcall : callee.prepare p.host args = .ok call) {i : Nat} {v : Value}
    (hi : i < sig.params.length) (hv : args[i]? = some v) (hsize : v.size = v.ty.size) :
    ∃ scalar, call.args[i]? = some scalar ∧ AbiClass.ofTy v.ty = .ok scalar.abiClass := by
  have hfixed : callee.fixed = sig.params.length := by
    cases h <;> rfl
  obtain ⟨_, _, ⟨_, hpassed⟩, _⟩ := Callee.marshals_of_prepare hcall
  obtain ⟨scalar, hscalar, hof⟩ := hpassed i v hv
  rw [hfixed, decide_eq_false (by omega)] at hof
  exact ⟨scalar, hscalar, Scalar.abiClass_ofValue hsize hof⟩

/-- What a call of native code takes from the declared signature. A start of a call to which the
host matters is a call of native code, whose callee is known by its address, its return type and
the number of its parameters. Each fixed argument that fills its type is passed as the C type of
its own type, which is the C type of the parameter exactly if the two have the same category. The
arguments of call instructions fill their types in every state of a session. -/
theorem native_arguments_by_own_type (p : Program) :
    (p.module.Built → ∀ s, Reachable p s → ∀ inst op target args t,
      Exec.aim p inst op s = .ok (target, args) t → ∀ v ∈ args, v.size = v.ty.size) ∧
    (∀ (s : State) (target : Target) (args : List Value) (host : Host),
      Exec.startTarget { p with host } target args s ≠ Exec.startTarget p target args s →
        ∃ sig callee, target.Native p s sig callee ∧ Exec.startTarget p target args s =
          (do return .returned (← Exec.callNative p callee args) : Exec Started) s) ∧
    ∀ (s : State) (target : Target) (sig : Signature) (callee : Callee) (args : List Value)
      (call : ForeignCall), target.Native p s sig callee →
      callee.prepare p.host args = .ok call →
        callee = ⟨callee.address, sig.ret, sig.params.length⟩ ∧
        ∀ (i : Nat) (v : Value) (ty : Ty), args[i]? = some v → sig.params[i]? = some ty →
          v.size = v.ty.size → ∃ scalar : Scalar, call.args[i]? = some scalar ∧
            AbiClass.ofTy v.ty = .ok scalar.abiClass ∧ (AbiClass.ofTy ty = .ok scalar.abiClass ↔
              AbiClass.ofTy ty = AbiClass.ofTy v.ty) := by
  refine ⟨fun hp s hs inst op target args t => Exec.size_of_aim (hs.wellTyped hp),
    fun s target args host => Exec.native_of_host, fun s target sig callee args call h hcall => ?_⟩
  refine ⟨by cases h <;> rfl, fun i v ty hv hty hsize => ?_⟩
  have hi := (List.getElem?_eq_some_iff.mp hty).1
  obtain ⟨scalar, hscalar, hclass⟩ := h.passes hcall hi hv hsize
  refine ⟨scalar, hscalar, hclass, ?_⟩
  rw [hclass]

/-! ## Two native functions -/

namespace Echoing

/-- Both functions are declared to take an integer. What the second one resolves to takes a
floating-point number. -/
def program : Program where
  module :=
    { name := "echoing"
      constants := #[⟨.function [Ty.i64] Ty.i64 false, .function ⟨0⟩⟩, ⟨Ty.i64, .int 7⟩]
      functions := #[⟨"echo_i64", .function [Ty.i64] Ty.i64 false, #[⟨Ty.i64, false⟩], #[]⟩,
        ⟨"echo_f64", .function [Ty.i64] Ty.f64 false, #[⟨Ty.i64, false⟩], #[]⟩] }
  resolver := .table [("echo_i64", (Native.echo (.int 64 true)).address),
    ("echo_f64", (Native.echo (.float .f64)).address)]

theorem program_built : program.module.Built :=
  ⟨"echoing", .trans (.function "echo_i64" (.function [Ty.i64] Ty.i64 false) rfl)
    (.trans (.function "echo_f64" (.function [Ty.i64] Ty.f64 false) rfl)
      (.trans (.constant _ _ _) (.constant _ Ty.i64 (.int 7))))⟩

def callFirst : Instruction := ⟨.call .direct, [.const ⟨0⟩, .const ⟨1⟩], none⟩

def seven : Value :=
  { ty := Ty.i64, origin := .const ⟨1⟩, bytes := [7, 0, 0, 0, 0, 0, 0, 0] }

/-- One and a half. -/
def fraction : Value := { ty := Ty.f64, bytes := [0, 0, 0, 0, 0, 0, 248, 63] }

theorem aim_eq : ∃ t, Exec.aim program callFirst .direct {} = .ok (.function ⟨0⟩, [seven]) t :=
  ⟨_, Exec.eq_ok_of_result? (by decide +kernel)⟩

/-- The first function, as native code sees it. -/
def first : Callee := ⟨(Native.echo (.int 64 true)).address, Ty.i64, 1⟩

theorem first_native :
    Target.Native program {} (.function ⟨0⟩) ⟨[Ty.i64], Ty.i64, false⟩ first :=
  .declared (p := program) (f := program.module.functions[0]) rfl rfl rfl (by decide +kernel)

/-- The second one. -/
def second : Callee := ⟨(Native.echo (.float .f64)).address, Ty.f64, 1⟩

theorem second_native :
    Target.Native program {} (.function ⟨1⟩) ⟨[Ty.i64], Ty.f64, false⟩ second :=
  .declared (p := program) (f := program.module.functions[1]) rfl rfl rfl (by decide +kernel)

/-- The arguments of a call that is ready. -/
theorem prepared_of_args (callee : Callee) (args : List Value) (scalars : List Scalar)
    (h : (callee.prepare program.host args).toOption.map ForeignCall.args = some scalars) :
    ∃ call, callee.prepare program.host args = .ok call ∧ call.args = scalars := by
  obtain ⟨call, hcall, hargs⟩ := Option.map_eq_some_iff.mp h
  cases hprepare : callee.prepare program.host args with
  | error e =>
    rw [hprepare] at hcall
    cases hcall
  | ok call' =>
    rw [hprepare] at hcall
    cases hcall
    exact ⟨call, rfl, hargs⟩

end Echoing

/-- An integer that is passed where one is declared is passed as such. -/
theorem native_arguments_by_own_type_echoing :
    (∀ v ∈ [Echoing.seven], v.size = v.ty.size) ∧
    ∃ call scalar, Echoing.first.prepare Echoing.program.host [Echoing.seven] = .ok call ∧
      call.args = [scalar] ∧ AbiClass.ofTy Ty.i64 = .ok scalar.abiClass := by
  obtain ⟨hfill, _, hpasses⟩ := native_arguments_by_own_type Echoing.program
  obtain ⟨t, haim⟩ := Echoing.aim_eq
  have hseven := hfill Echoing.program_built {} (.idle .fresh) _ _ _ _ t haim
  obtain ⟨call, hcall, hargs⟩ := Echoing.prepared_of_args Echoing.first [Echoing.seven]
    [.int 8 true 7] (by decide +kernel)
  obtain ⟨_, hpassed⟩ := hpasses {} _ _ _ _ call Echoing.first_native hcall
  obtain ⟨scalar, hscalar, _, hclass⟩ := hpassed 0 Echoing.seven Ty.i64 rfl rfl
    (hseven _ List.mem_cons_self)
  refine ⟨hseven, call, scalar, hcall, ?_, hclass.mpr rfl⟩
  rw [hargs] at hscalar ⊢
  cases hscalar
  rfl

/-- A floating-point number that is passed where an integer is declared is passed as what it is:
the native function gets it and gives it back. -/
theorem native_argument_of_other_type :
    Target.Native Echoing.program {} (.function ⟨1⟩) ⟨[Ty.i64], Ty.f64, false⟩ Echoing.second ∧
    AbiClass.ofTy Ty.i64 = .ok (.int 8 true) ∧ Echoing.fraction.size = Ty.f64.size ∧
    (∃ call bits, Echoing.second.prepare Echoing.program.host [Echoing.fraction] = .ok call ∧
      call.args = [.float .f64 bits]) ∧
    ∃ t, Exec.runFunction Echoing.program 0 ⟨1⟩ [Echoing.fraction] {} =
      .ok Echoing.fraction t := by
  obtain ⟨call, hcall, hargs⟩ := Echoing.prepared_of_args Echoing.second [Echoing.fraction]
    [.float .f64 0x3FF8000000000000] (by decide +kernel)
  exact ⟨Echoing.second_native, rfl, rfl, ⟨call, _, hcall, hargs⟩,
    ⟨_, Exec.eq_ok_of_result? (by decide +kernel)⟩⟩

end PackedIR
