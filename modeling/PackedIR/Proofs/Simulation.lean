/-
Two runs side by side.

The same module may be run twice, under other settings or from a state that differs in what has
been made already. A `Coupling` says which states count as the same, which failures the two runs
may share, and which failures of the first run end the comparison. `C.Follows x y` then says that
from states that count as the same, `y` does what `x` does: it gives the same value or fails with
the same failure, again in states that count as the same, unless `x` has failed with an excused
failure.

What has to be known of a coupling is about the few computations that touch memory, the cache of
constants or the settings; everything else only looks at what the two states have in common. `Steady`
lists what constants and the start of a call need, `Framed` what an instruction needs besides, and
`Sound` what a run needs besides. So each instruction, each step and each run follows by putting
these together, and this is done once, for all couplings. A run may also be coupled with itself;
what is learned then is which failures it can have.
-/
import PackedIR.Proofs.Composites
import PackedIR.Proofs.Failures
import PackedIR.Proofs.Frames

set_option autoImplicit false

namespace PackedIR

variable {α β : Type}

/-- The same module, symbols and native code under other settings. -/
abbrev Program.under (p : Program) (config : Config) : Program := { p with config }

/-! ## Computations that touch memory

What they do is a function of the memory and, for storage of frames, of the innermost frame. -/

theorem State.frames_cases (s : State) : s.frames = [] ∨ ∃ fr rest, s.frames = fr :: rest := by
  cases s.frames with
  | nil => exact .inl rfl
  | cons fr rest => exact .inr ⟨fr, rest, rfl⟩

namespace Exec

variable {p : Program} {s : State}

theorem load_eq_lift (address : Nat) (ty : Ty) :
    load p address ty s =
      (liftM (s.memory.load p.config.sanitizeMemory address ty) : Exec Value) s := rfl

theorem storeBytes_eq_ite (address : Nat) (bytes : Bytes) :
    storeBytes p address bytes s =
      if s.memory.accessible p.config.sanitizeMemory address bytes.length = true then
        .ok () { s with memory := s.memory.put address bytes }
      else .error (.of (.invalidMemoryAccess address bytes.length)) s := by
  unfold storeBytes Memory.checkAccess
  rw [bind_of_ok (get_apply s)]
  split <;> rfl

/-- Native code is prepared without looking at the state, and sees the bytes alone. -/
theorem callNative_eq (callee : Callee) (args : List Value) :
    callNative p callee args s = match callee.prepare p.host args with
      | .error e => .error e s
      | .ok call => (liftM ((call.code call.args s.memory.arena).1.value callee.ret call.retClass) :
          Exec Value)
        { s with memory := { s.memory with arena := (call.code call.args s.memory.arena).2 } } := by
  unfold callNative
  cases callee.prepare p.host args with
  | error e => rfl
  | ok call => rfl

end Exec

/-! ## Couplings -/

/-- How two runs are compared. -/
structure Coupling where
  /-- The states count as the same. -/
  rel : State → State → Prop
  /-- A failure that both runs may end in. -/
  shared : Failure → Prop
  /-- A failure of the first run after which nothing is asked of the second. -/
  excused : Failure → State → Prop
  /-- The budgets that have to do for making a constant again. -/
  affords : Nat → ConstId → Prop := fun _ _ => True

namespace Coupling

/-- The second outcome is that of the first, or the first is excused. -/
inductive Matches (C : Coupling) :
    EStateM.Result Failure State α → EStateM.Result Failure State α → Prop where
  | ok (a : α) {s t : State} : C.rel s t → C.Matches (.ok a s) (.ok a t)
  | error {e : Failure} {s t : State} : C.rel s t → C.shared e → C.Matches (.error e s) (.error e t)
  | excused {e : Failure} {s : State} (o : EStateM.Result Failure State α) : C.excused e s →
      C.Matches (.error e s) o

/-- From states that count as the same, `y` does what `x` does. -/
def Follows (C : Coupling) (x y : Exec α) : Prop := ∀ s t, C.rel s t → C.Matches (x s) (y t)

variable {C : Coupling}

theorem Matches.bind {x y : Exec α} {f g : α → Exec β} {s t : State} (h : C.Matches (x s) (y t))
    (hf : ∀ a s' t', x s = .ok a s' → C.rel s' t' → C.Matches (f a s') (g a t')) :
    C.Matches ((x >>= f) s) ((y >>= g) t) := by
  rw [Exec.bind_apply, Exec.bind_apply]
  generalize y t = right at h
  cases hx : x s with
  | ok a s' =>
    rw [hx] at h
    cases h with
    | ok _ hrel => exact hf a s' _ hx hrel
  | error e s' =>
    rw [hx] at h
    cases h with
    | error hrel he => exact .error hrel he
    | excused _ he => exact .excused _ he

namespace Follows

theorem bind {x y : Exec α} {f g : α → Exec β} (h : C.Follows x y)
    (hf : ∀ a, C.Follows (f a) (g a)) : C.Follows (x >>= f) (y >>= g) :=
  fun s t hst => (h s t hst).bind fun a s' t' _ hrel => hf a s' t' hrel

theorem get_bind {f g : State → Exec β} (h : ∀ s t, C.rel s t → C.Matches (f s s) (g t t)) :
    C.Follows (get >>= f) (get >>= g) := by
  intro s t hst
  rw [Exec.bind_of_ok (Exec.get_apply s), Exec.bind_of_ok (Exec.get_apply t)]
  exact h s t hst

theorem pure (a : α) : C.Follows (Pure.pure a : Exec α) (Pure.pure a) :=
  fun _ _ hst => .ok a hst

theorem lift (r : Result α) (h : ∀ e, r = .error e → C.shared e) :
    C.Follows (liftM r : Exec α) (liftM r) := by
  intro s t hst
  cases hr : r with
  | ok a => exact .ok a hst
  | error e => exact .error hst (h e hr)

theorem frame (hshares : ∀ {s t : State}, C.rel s t → ∃ memory constants,
    t = { s with memory, constants }) (hnone : C.shared (.raised [] .noActiveFrame)) :
    C.Follows Exec.frame Exec.frame := by
  refine .get_bind fun s t hst => ?_
  have hframes : t.frames = s.frames := by
    obtain ⟨memory, constants, rfl⟩ := hshares hst
    rfl
  rw [hframes]
  cases s.frames with
  | nil => exact .error hst hnone
  | cons fr rest => exact .ok fr hst

end Follows

/-- What makes a coupling hold where no frame is looked at, for `p` and `p` under `config`. -/
structure Steady (C : Coupling) (p : Program) (config : Config) : Prop where
  /-- The states differ in memory and in the cache of constants at most. -/
  shares : ∀ {s t : State}, C.rel s t → ∃ memory constants, t = { s with memory, constants }
  push : ∀ {s t : State} (fr : Frame), C.rel s t → s.frames.length < p.config.maxCallDepth →
    C.rel { s with frames := fr :: s.frames } { t with frames := fr :: t.frames }
  prepare : ∀ {s t : State} (id : FuncId), C.rel s t →
    C.rel { s with compiled := id :: s.compiled } { t with compiled := id :: t.compiled }
  intern : ∀ {s t : State} (id : StringId) (address : Nat), C.rel s t → s.strings.get? id = none →
    C.rel { s with strings := s.strings.insert id address }
      { t with strings := t.strings.insert id address }
  ordinary : ∀ {e : Failure}, e.isOrdinary = true → C.shared e
  /-- A failure to bind the arguments of a call may be shared. -/
  arguments : ∀ {id : FuncId} {f : Function} {sig : Signature} {args : List Value} {e : Failure},
    p.module.function id = .ok f → f.signature = .ok sig →
    Frame.bindArgs { function := id, locals := Array.replicate f.locals.size none } 0 args
      sig.params = .error e → C.shared e
  shared_within : ∀ {e : Failure} (c : Context), C.shared e → C.shared (e.within c)
  excused_within : ∀ {e : Failure} {s : State} (c : Context), C.excused e s →
    C.excused (e.within c) s
  load : ∀ (address : Nat) (ty : Ty),
    C.Follows (Exec.load p address ty) (Exec.load (p.under config) address ty)
  store : ∀ (address : Nat) (bytes : Bytes),
    C.Follows (Exec.storeBytes p address bytes) (Exec.storeBytes (p.under config) address bytes)
  place : ∀ (kind : AllocKind) (bytes : Bytes),
    C.Follows (Exec.allocStatic p kind bytes) (Exec.allocStatic (p.under config) kind bytes)
  native : ∀ (callee : Callee) (args : List Value),
    C.Follows (Exec.callNative p callee args) (Exec.callNative (p.under config) callee args)
  depth : p.config.maxCallDepth ≤ config.maxCallDepth
  /-- At its limit the first run is excused, or the second has the same limit. -/
  overflow : ∀ {s t : State}, C.rel s t → p.config.maxCallDepth ≤ s.frames.length →
    let e := Failure.of (.stackOverflow (s.frames.length + 1) p.config.maxCallDepth)
    C.excused e s ∨ config.maxCallDepth = p.config.maxCallDepth ∧ C.shared e
  cached : ∀ {s t : State} {id : ConstId} {v : Value}, C.rel s t →
    s.constants.get? id = some v → t.constants.get? id = some v
  /-- A constant that was missing on both sides, and that the first run has made, may be cached on
  both. -/
  cache : ∀ {s t s' t' : State} {id : ConstId} {c : Constant} {budget : Nat} {made : Value},
    C.rel s t → t.constants.get? id = none → p.module.constant id = .ok c →
    Exec.materialize p (Exec.constOperandWith p budget) c s = .ok made s' → C.rel s' t' →
    let v := made.withOrigin (.const id)
    C.rel { s' with constants := s'.constants.insert id v }
      { t' with constants := t'.constants.insert id v }
  /-- A constant that only the second run has is made by the first as it was made before. -/
  remake : ∀ {s t : State} {id : ConstId} {v : Value}, C.rel s t →
    s.constants.get? id = none → t.constants.get? id = some v → ∀ budget, C.affords budget id →
    C.Matches (Exec.constValueWith p budget id s) (.ok v t)
  affords_size : ∀ id, C.affords p.module.constants.size id := by
    intros
    trivial
  affords_member : ∀ {budget : Nat} {id m : ConstId} {c : Constant}, C.affords (budget + 1) id →
      p.module.constant id = .ok c → m ∈ c.kind.references → C.affords budget m := by
    intros
    trivial

/-- What makes a coupling hold along instructions, which are executed in a frame. -/
structure Framed (C : Coupling) (p : Program) (config : Config) : Prop extends
    C.Steady p config where
  frame : C.Follows Exec.frame Exec.frame
  allocate : ∀ {size : Nat}, 0 < size →
    C.Follows (Exec.allocFrame p size) (Exec.allocFrame (p.under config) size)

/-- What makes a coupling hold along runs. -/
structure Sound (C : Coupling) (p : Program) (config : Config) : Prop extends
    C.Framed p config where
  /-- A frame may change in itself. -/
  reframe : ∀ {s t : State} {frames : List Frame}, C.rel s t → frames.length = s.frames.length →
    C.rel { s with frames } { t with frames }
  /-- Failures that are no refusals may be shared, those of the machine itself among them. -/
  unrefused : ∀ {e : Failure}, e.isRefusal = false → C.shared e
  /-- An excuse is still one when a frame has been taken off. -/
  excused_leave : ∀ {e : Failure} {s t : State}, C.excused e s → Leaves s t → C.excused e t
  leave : C.Follows Exec.popFrame Exec.popFrame
  ordinary := fun h => unrefused (Failure.isRefusal_of_isOrdinary h)
  arguments := fun _ _ h => unrefused (Frame.bindArgs_not_refusal h)
  frame := .frame shares (unrefused rfl)

variable {p : Program} {config : Config}

namespace Steady

variable (hC : C.Steady p config)

include hC

/-! ## What the states have in common -/

section Common

variable {s t : State} (h : C.rel s t)

include h

theorem frames_eq : t.frames = s.frames := by
  obtain ⟨memory, constants, rfl⟩ := hC.shares h
  rfl

theorem globals_eq : t.globals = s.globals := by
  obtain ⟨memory, constants, rfl⟩ := hC.shares h
  rfl

theorem strings_eq : t.strings = s.strings := by
  obtain ⟨memory, constants, rfl⟩ := hC.shares h
  rfl

theorem compiled_eq : t.compiled = s.compiled := by
  obtain ⟨memory, constants, rfl⟩ := hC.shares h
  rfl

theorem aliases_eq : t.aliases = s.aliases := by
  obtain ⟨memory, constants, rfl⟩ := hC.shares h
  rfl

end Common

theorem inContext {x y : Exec α} {s t : State} (c : Context) (h : C.Matches (x s) (y t)) :
    C.Matches (Exec.within c x s) (Exec.within c y t) := by
  unfold Exec.within
  generalize y t = right at h
  cases hx : x s with
  | ok a s' =>
    rw [hx] at h
    cases h with
    | ok _ hrel => exact .ok a hrel
  | error e s' =>
    rw [hx] at h
    cases h with
    | error hrel he => exact .error hrel (hC.shared_within c he)
    | excused _ he => exact .excused _ (hC.excused_within c he)

/-! ## Failures that are shared -/

/-- Contexts are all that unwinding adds to a failure. -/
theorem unwind_shared {count : Nat} {e e' : Failure} {s t : State} (he : C.shared e)
    (h : Exec.unwind p count e s = .ok e' t) : C.shared e' := by
  induction count generalizing s e with
  | zero =>
    cases h
    exact he
  | succ count ih =>
    rw [Exec.unwind] at h
    obtain ⟨fr, _, _, h⟩ := Exec.bind_eq_ok_iff.mp h
    obtain ⟨_, _, _, h⟩ := Exec.bind_eq_ok_iff.mp h
    refine ih ?_ h
    cases fr.context? p.module with
    | none => exact he
    | some c => exact hC.shared_within c he

theorem lift (r : Result α) [hr : Plain r] : C.Follows (liftM r : Exec α) (liftM r) :=
  .lift r fun e h => hC.ordinary (hr.ordinary e h)

theorem raise {e : Error} (he : (Failure.of e).isOrdinary = true) :
    C.Follows (liftM (PackedIR.raise e : Result α) : Exec α) (liftM (PackedIR.raise e : Result α)) :=
  fun _ _ hst => .error hst (hC.ordinary he)

theorem liftFault (r : Except Fault α) : C.Follows (liftM r : Exec α) (liftM r) := by
  intro s t hst
  cases r with
  | ok a => exact .ok a hst
  | error f => exact .error hst (hC.ordinary rfl)

/-! ## Constants -/

theorem compileFunction (id : FuncId) :
    C.Follows (Exec.compileFunction p id) (Exec.compileFunction (p.under config) id) := by
  refine (hC.liftFault _).bind fun f => .get_bind fun s t hst => ?_
  rw [hC.compiled_eq hst]
  by_cases hprepared : id ∈ s.compiled
  · rw [if_pos hprepared]
    exact .ok _ hst
  · rw [if_neg hprepared]
    cases f.unterminated? with
    | some block => exact hC.lift _ s t hst
    | none =>
      dsimp only
      by_cases hlimit : FuncId.limit ≤ id.index
      · rw [if_pos hlimit]
        exact .error hst (hC.ordinary rfl)
      · rw [if_neg hlimit]
        exact .ok _ (hC.prepare id hst)

theorem placeText (text : String) :
    C.Follows (Exec.placeText p text) (Exec.placeText (p.under config) text) :=
  hC.place _ _

theorem globalString (id : StringId) :
    C.Follows (Exec.globalString p id) (Exec.globalString (p.under config) id) := by
  refine .get_bind fun s t hst => ?_
  rw [hC.strings_eq hst]
  cases hplaced : s.strings.get? id with
  | some address => exact .ok address hst
  | none =>
    refine (hC.liftFault _ s t hst).bind fun text s' t' hs' hrel => ?_
    obtain ⟨_, rfl⟩ := Exec.liftFault_eq_ok_iff.mp hs'
    refine (hC.placeText text s' t' hrel).bind fun address u w hu huw => ?_
    -- Placing the text has not given the entry an address.
    have hstrings : u.strings = s'.strings := by
      obtain ⟨_, _, _, rfl⟩ := Exec.allocStatic_eq_ok (by simp) hu
      rfl
    have hmissing' : u.strings.get? id = none := by rw [hstrings, hplaced]
    exact .ok address (hC.intern id address huw hmissing')

omit hC in
theorem constants {operand operand' : ConstId → Exec Value} {ids : List ConstId}
    (h : ∀ id ∈ ids, C.Follows (operand id) (operand' id)) :
    C.Follows (Exec.constants operand ids) (Exec.constants operand' ids) := by
  induction ids with
  | nil => exact .pure _
  | cons id ids ih =>
    refine (h id List.mem_cons_self).bind fun _ => ?_
    exact (ih fun m hm => h m (List.mem_cons_of_mem id hm)).bind fun _ => .pure _

theorem materialize {operand operand' : ConstId → Exec Value} {c : Constant}
    (h : ∀ id ∈ c.kind.references, C.Follows (operand id) (operand' id)) :
    C.Follows (Exec.materialize p operand c) (Exec.materialize (p.under config) operand' c) := by
  obtain ⟨ty, kind⟩ := c
  unfold Exec.materialize
  cases kind with
  | int | float | bool => exact hC.lift _
  | zero => exact .pure _
  | text => exact (hC.placeText _).bind fun _ => hC.lift _
  | globalString => exact (hC.globalString _).bind fun _ => hC.lift _
  | bitcast inner => exact (h inner List.mem_cons_self).bind fun _ => hC.lift _
  | array | tuple | enumCase | slice | parts => exact (constants h).bind fun _ => hC.lift _
  | owned contents =>
    exact (h contents List.mem_cons_self).bind fun _ => (hC.place _ _).bind fun _ => hC.lift _
  | function => exact (hC.compileFunction _).bind fun _ => hC.lift _
  | globalVar id =>
    refine .get_bind fun s t hst => ?_
    rw [hC.globals_eq hst]
    cases s.globals.get? id with
    | some reference => exact .ok reference hst
    | none => exact (hC.liftFault _).bind (fun _ => hC.raise rfl) s t hst

theorem decayConst (id : ConstId) (c : Constant) (v : Value) :
    C.Follows (Exec.decayConst p id c v) (Exec.decayConst (p.under config) id c v) := by
  unfold Exec.decayConst
  cases c.kind with
  | globalVar => exact (hC.lift _).bind fun _ => (hC.load _ _).bind fun _ => .pure _
  | _ => exact .pure _

/-- What the two runs do about a constant is decided by who has it already. -/
theorem constValueWith {budget : Nat} {id : ConstId} (h : C.affords budget id) :
    C.Follows (Exec.constValueWith p budget id)
      (Exec.constValueWith (p.under config) budget id) := by
  induction budget generalizing id with
  | zero =>
    intro s t hst
    cases hs : s.constants.get? id with
    | some v =>
      rw [Exec.constValueWith_of_cached hs, Exec.constValueWith_of_cached (hC.cached hst hs)]
      exact .ok v hst
    | none =>
      cases ht : t.constants.get? id with
      | some v =>
        rw [Exec.constValueWith_of_cached ht]
        exact hC.remake hst hs ht 0 h
      | none =>
        unfold Exec.constValueWith
        rw [Exec.bind_of_ok (Exec.get_apply s), Exec.bind_of_ok (Exec.get_apply t), hs, ht]
        exact .error hst (hC.ordinary rfl)
  | succ budget ih =>
    intro s t hst
    cases hs : s.constants.get? id with
    | some v =>
      rw [Exec.constValueWith_of_cached hs, Exec.constValueWith_of_cached (hC.cached hst hs)]
      exact .ok v hst
    | none =>
      cases ht : t.constants.get? id with
      | some v =>
        rw [Exec.constValueWith_of_cached ht]
        exact hC.remake hst hs ht (budget + 1) h
      | none =>
        -- Both make it, from members that are evaluated with the smaller budget.
        unfold Exec.constValueWith
        rw [Exec.bind_of_ok (Exec.get_apply s), Exec.bind_of_ok (Exec.get_apply t), hs, ht]
        refine (hC.liftFault _ s t hst).bind fun c s' t' hc hrel => ?_
        obtain ⟨hfound, rfl⟩ := Exec.liftFault_eq_ok_iff.mp hc
        refine (hC.inContext _ (hC.materialize (fun m hm => ?_) s' t' hrel)).bind
          fun v u w hmade huw => ?_
        · have hmember := hC.affords_member h hfound hm
          exact (hC.liftFault _).bind fun _ => (ih hmember).bind fun _ => hC.decayConst _ _ _
        · exact .ok _ (hC.cache hst ht hfound (Exec.within_eq_ok_iff.mp hmade) huw)

theorem constOperand (id : ConstId) :
    C.Follows (Exec.constOperand p id) (Exec.constOperand (p.under config) id) :=
  (hC.liftFault _).bind fun _ => (hC.constValueWith (hC.affords_size id)).bind fun _ =>
    hC.decayConst _ _ _

/-! ## Calls -/

theorem callDeclaration (id : FuncId) (f : Function) (sig : Signature) (args : List Value) :
    C.Follows (Exec.callDeclaration p id f sig args)
      (Exec.callDeclaration (p.under config) id f sig args) := by
  have hsymbol : C.Follows (Exec.symbolOf id f) (Exec.symbolOf id f) := by
    refine .get_bind fun s t hst => ?_
    rw [hC.aliases_eq hst]
    exact .ok _ hst
  refine hsymbol.bind fun symbol => ?_
  dsimp only
  cases p.resolver symbol with
  | none => exact hC.raise rfl
  | some address => exact hC.native _ _

/-- The one place where the limits on depth are compared. -/
theorem pushFrame {id : FuncId} {f : Function} {sig : Signature}
    (hf : p.module.function id = .ok f) (hsig : f.signature = .ok sig) (args : List Value) :
    C.Follows (Exec.pushFrame p id f sig args) (Exec.pushFrame (p.under config) id f sig args) := by
  refine .get_bind fun s t hst => ?_
  have hframes := hC.frames_eq hst
  dsimp only
  rw [hframes]
  by_cases hfull : p.config.maxCallDepth ≤ s.frames.length
  · rw [if_pos hfull]
    rcases hC.overflow hst hfull with hexcused | ⟨hsame, hshared⟩
    · exact .excused _ hexcused
    · rw [hsame, if_pos hfull]
      exact .error hst hshared
  · -- What the first run has room for the second has too.
    have hroom : ¬config.maxCallDepth ≤ s.frames.length := by
      have hle := hC.depth
      omega
    rw [if_neg hfull, if_neg hroom]
    refine (Follows.lift _ (fun e h => hC.arguments hf hsig h) s t hst).bind
      fun fr s' t' hs' hrel => ?_
    obtain ⟨_, rfl⟩ := Exec.lift_eq_ok_iff.mp hs'
    exact .ok _ (hC.push fr hrel (by omega))

theorem startCall (id : FuncId) (args : List Value) :
    C.Follows (Exec.startCall p id args) (Exec.startCall (p.under config) id args) := by
  intro s t hst
  refine (hC.liftFault _ s t hst).bind fun f s' t' hs' hrel => ?_
  obtain ⟨hf, rfl⟩ := Exec.liftFault_eq_ok_iff.mp hs'
  refine (hC.liftFault _ s' t' hrel).bind fun sig u w hu huw => ?_
  obtain ⟨hsig, rfl⟩ := Exec.liftFault_eq_ok_iff.mp hu
  split
  · exact hC.raise rfl u w huw
  · split
    · exact (hC.callDeclaration _ _ _ _).bind (fun _ => .pure _) u w huw
    · exact (hC.compileFunction _).bind
        (fun _ => (hC.pushFrame hf hsig _).bind fun _ => .pure _) u w huw

theorem startPointerCall (pointer : Value) (fnTy : Ty) (args : List Value) :
    C.Follows (Exec.startPointerCall p pointer fnTy args)
      (Exec.startPointerCall (p.under config) pointer fnTy args) := by
  refine (hC.lift _).bind fun address => .get_bind fun s t hst => ?_
  unfold State.functionAt?
  rw [hC.compiled_eq hst]
  cases s.compiled.find? fun id => id.identity == address with
  | some id => exact hC.startCall id args s t hst
  | none =>
    cases fnTy.signature? with
    | none => exact hC.raise rfl s t hst
    | some sig =>
      dsimp only
      by_cases hnull : address = 0
      · rw [if_pos hnull, if_pos hnull]
        exact hC.raise rfl s t hst
      · rw [if_neg hnull, if_neg hnull]
        exact (hC.native _ _).bind (fun _ => .pure _) s t hst

theorem methodPointer (object : Nat) (index : Int) (fnTy : Ty) :
    C.Follows (Exec.methodPointer p object index fnTy)
      (Exec.methodPointer (p.under config) object index fnTy) :=
  (hC.load _ _).bind fun _ => (hC.lift _).bind fun _ => hC.load _ _

end Steady

namespace Framed

variable (hC : C.Framed p config)

include hC

/-! ## Operands -/

theorem localOperand (l : Local) :
    C.Follows (Exec.localOperand p l) (Exec.localOperand (p.under config) l) := by
  refine hC.frame.bind fun fr => (hC.liftFault _).bind fun f => ?_
  cases fr.lookup? l with
  | none => exact hC.raise rfl
  | some v =>
    dsimp only
    split
    · exact (hC.lift _).bind fun _ => (hC.load _ _).bind fun _ => .pure _
    · exact .pure _

theorem operand (o : Operand) :
    C.Follows (Exec.operand p o) (Exec.operand (p.under config) o) := by
  cases o with
  | «local» l => exact hC.localOperand l
  | const id => exact hC.constOperand id
  | block | type => exact hC.lift _

theorem operands (os : List Operand) :
    C.Follows (Exec.operands p os) (Exec.operands (p.under config) os) := by
  induction os with
  | nil => exact .pure _
  | cons o os ih => exact (hC.operand o).bind fun _ => ih.bind fun _ => .pure _

theorem operandAddress (o : Operand) :
    C.Follows (Exec.operandAddress p o) (Exec.operandAddress (p.under config) o) := by
  cases o with
  | «local» l =>
    refine hC.frame.bind fun fr => (hC.liftFault _).bind fun f => ?_
    split
    · exact hC.raise rfl
    · exact (hC.lift _).bind fun _ => .pure _
    · exact hC.lift _
  | const id =>
    refine (hC.liftFault _).bind fun c => ?_
    cases c.kind with
    | globalVar =>
      exact (hC.constValueWith (hC.affords_size id)).bind fun _ =>
        (hC.lift _).bind fun _ => .pure _
    | _ => exact hC.lift _
  | block | type => exact hC.lift _

theorem constIndex (o : Operand) :
    C.Follows (Exec.constIndex p o) (Exec.constIndex (p.under config) o) := by
  cases o with
  | const id =>
    refine (hC.liftFault _).bind fun c => ?_
    cases c.kind with
    | int i =>
      dsimp only
      split
      · exact .pure _
      · exact hC.lift _
    | _ => exact hC.lift _
  | «local» | block | type => exact hC.lift _

theorem integerOperand (activity : Activity) (o : Operand) :
    C.Follows (Exec.integerOperand p activity o)
      (Exec.integerOperand (p.under config) activity o) := by
  refine (hC.operand o).bind fun v => ?_
  split
  · split
    · exact .pure _
    · exact hC.lift _
  · exact hC.lift _

theorem pointerOperand (o : Operand) :
    C.Follows (Exec.pointerOperand p o) (Exec.pointerOperand (p.under config) o) := by
  refine (hC.operand o).bind fun v => ?_
  split
  · exact (hC.lift _).bind fun _ => .pure _
  · exact hC.lift _

theorem boolOperand (o : Operand) :
    C.Follows (Exec.boolOperand p o) (Exec.boolOperand (p.under config) o) := by
  refine (hC.operand o).bind fun v => ?_
  split
  · split
    · exact .pure _
    · exact hC.lift _
  · exact hC.lift _

theorem containerOperand (container : Container) (op : Opcode) (o : Operand) :
    C.Follows (Exec.containerOperand p container op o)
      (Exec.containerOperand (p.under config) container op o) := by
  refine (hC.operand o).bind fun v => ?_
  split
  · exact .pure _
  · exact hC.lift _

/-! ## Aggregates and places -/

theorem fieldAccess (inst : Instruction) (field : Field) (write : Bool) (aggregate : Operand)
    (rest : List Operand) :
    C.Follows (Exec.fieldAccess p inst field write aggregate rest)
      (Exec.fieldAccess (p.under config) inst field write aggregate rest) := by
  refine (hC.containerOperand _ _ _).bind fun v => (hC.lift _).bind fun m => ?_
  split
  · exact hC.lift _
  · exact (hC.operand _).bind fun _ => hC.lift _
  · exact hC.lift _

theorem unionSetValue (op : Opcode) (union variant value : Operand) :
    C.Follows (Exec.unionSetValue p op union variant value)
      (Exec.unionSetValue (p.under config) op union variant value) :=
  (hC.containerOperand _ _ _).bind fun _ => (hC.constIndex _).bind fun _ =>
    (hC.lift _).bind fun _ => (hC.operand _).bind fun _ => (hC.lift _).bind fun _ =>
      hC.lift _

theorem aggregate (inst : Instruction) :
    C.Follows (Exec.aggregate p inst) (Exec.aggregate (p.under config) inst) := by
  unfold Exec.aggregate
  split
  · exact (hC.operand _).bind fun _ => (hC.operand _).bind fun _ => (hC.constIndex _).bind fun _ =>
      (hC.lift _).bind fun _ => hC.lift _
  · exact (hC.operand _).bind fun _ => (hC.constIndex _).bind fun _ =>
      (hC.lift _).bind fun _ => hC.lift _
  · exact (hC.containerOperand _ _ _).bind fun _ => hC.lift _
  · exact (hC.containerOperand _ _ _).bind fun _ => (hC.integerOperand _ _).bind fun _ => hC.lift _
  · exact (hC.containerOperand _ _ _).bind fun _ => (hC.constIndex _).bind fun _ =>
      (hC.lift _).bind fun _ => hC.lift _
  · exact hC.unionSetValue _ _ _ _
  · exact hC.fieldAccess _ _ _ _ _
  · exact hC.fieldAccess _ _ _ _ _
  · exact hC.lift _
  · exact hC.lift _

theorem storeValue (address : Nat) (ty : Ty) (v : Value) :
    C.Follows (Exec.storeValue p address ty v) (Exec.storeValue (p.under config) address ty v) :=
  (hC.lift _).bind fun _ => hC.store _ _

theorem getPointer (ptr index : Operand) :
    C.Follows (Exec.getPointer p ptr index) (Exec.getPointer (p.under config) ptr index) := by
  refine (hC.operand _).bind fun base => ?_
  split
  · exact hC.lift _
  · exact (hC.integerOperand _ _).bind fun _ => (hC.lift _).bind fun _ => .pure _

theorem getGep2 (ptr first second : Operand) :
    C.Follows (Exec.getGep2 p ptr first second)
      (Exec.getGep2 (p.under config) ptr first second) := by
  refine (hC.pointerOperand _).bind fun place => ?_
  obtain ⟨base, array⟩ := place
  dsimp only
  split
  · exact hC.lift _
  · exact (hC.integerOperand _ _).bind fun _ => (hC.integerOperand _ _).bind fun _ => .pure _

theorem getStructMember (lvalue index : Operand) :
    C.Follows (Exec.getStructMember p lvalue index)
      (Exec.getStructMember (p.under config) lvalue index) :=
  (hC.operandAddress _).bind fun _ => (hC.constIndex _).bind fun _ => (hC.lift _).bind fun _ =>
    (hC.liftFault _).bind fun _ => .pure _

theorem getPointerToStructMember (ptr ptrIndex index : Operand) :
    C.Follows (Exec.getPointerToStructMember p ptr ptrIndex index)
      (Exec.getPointerToStructMember (p.under config) ptr ptrIndex index) :=
  (hC.pointerOperand _).bind fun _ => (hC.constIndex _).bind fun _ => (hC.lift _).bind fun _ =>
    (hC.integerOperand _ _).bind fun _ => (hC.liftFault _).bind fun _ => .pure _

theorem select (cond onTrue onFalse : Operand) :
    C.Follows (Exec.select p cond onTrue onFalse)
      (Exec.select (p.under config) cond onTrue onFalse) := by
  refine (hC.operand _).bind fun c => ?_
  split
  · exact hC.operand _
  · exact hC.operand _
  · exact hC.lift _

theorem placeInst (f : Function) (inst : Instruction) (op : PlaceOp) :
    C.Follows (Exec.place p f inst op) (Exec.place (p.under config) f inst op) := by
  have allocated (ty : Ty) :
      C.Follows
        (do
          let address ← Exec.allocFrame p (max ty.size 1)
          return some (Value.ofAddress (Ty.mutPtrTo ty) address))
        (do
          let address ← Exec.allocFrame (p.under config) (max ty.size 1)
          return some (Value.ofAddress (Ty.mutPtrTo ty) address)) :=
    (hC.allocate (by omega)).bind fun _ => .pure _
  unfold Exec.place
  split
  · exact (hC.operand _).bind fun _ => (hC.lift _).bind fun _ => (hC.lift _).bind fun _ =>
      (hC.load _ _).bind fun _ => .pure _
  · exact (hC.operand _).bind fun _ => (hC.pointerOperand _).bind fun _ =>
      (hC.storeValue _ _ _).bind fun _ => .pure _
  · exact (hC.operand _).bind fun _ => (hC.operandAddress _).bind fun _ =>
      (hC.storeValue _ _ _).bind fun _ => .pure _
  · exact allocated _
  · exact allocated _
  · exact (hC.operandAddress _).bind fun _ => .pure _
  · exact (hC.pointerOperand _).bind fun _ => .pure _
  · exact (hC.getPointer _ _).bind fun _ => .pure _
  · exact (hC.getGep2 _ _ _).bind fun _ => .pure _
  · exact (hC.getStructMember _ _).bind fun _ => .pure _
  · exact (hC.getPointerToStructMember _ _ _).bind fun _ => .pure _
  · exact (hC.operandAddress _).bind fun _ => .pure _
  · exact (hC.lift _).bind fun _ => (hC.lift _).bind fun _ => .pure _
  · exact (hC.select _ _ _).bind fun _ => .pure _
  · exact hC.lift _

theorem call (inst : Instruction) (op : CallOp) :
    C.Follows (Exec.call p inst op) (Exec.call (p.under config) inst op) := by
  unfold Exec.call
  split
  · refine (hC.liftFault _).bind fun c => ?_
    cases c.kind with
    | function id => exact (hC.operands _).bind fun _ => hC.startCall _ _
    | _ => exact hC.lift _
  · exact (hC.operand _).bind fun _ => (hC.operands _).bind fun _ => hC.startPointerCall _ _ _
  · exact (hC.integerOperand _ _).bind fun _ => (hC.operand _).bind fun _ =>
      (hC.lift _).bind fun _ => (hC.methodPointer _ _ _).bind fun _ =>
        (hC.operands _).bind fun _ => hC.startPointerCall _ _ _
  · exact hC.lift _

/-! ## Instructions -/

theorem returnValue (f : Function) (inst : Instruction) :
    C.Follows (Exec.returnValue p f inst) (Exec.returnValue (p.under config) f inst) := by
  refine (hC.liftFault _).bind fun sig => ?_
  split
  · exact .pure _
  · exact (hC.operand _).bind fun _ => (hC.lift _).bind fun _ => .pure _
  · exact hC.lift _

theorem phi (f : Function) (inst : Instruction) :
    C.Follows (Exec.phi p f inst) (Exec.phi (p.under config) f inst) := by
  refine hC.frame.bind fun fr => ?_
  split
  · exact hC.lift _
  · refine (hC.lift _).bind fun chosen => ?_
    cases chosen with
    | some value => exact hC.operand value
    | none => exact hC.raise rfl

theorem condBranchTarget (inst : Instruction) :
    C.Follows (Exec.condBranchTarget p inst) (Exec.condBranchTarget (p.under config) inst) := by
  unfold Exec.condBranchTarget
  split
  · refine (hC.boolOperand _).bind fun b => ?_
    split <;> exact hC.lift _
  · exact hC.lift _

theorem unary (inst : Instruction) (op : UnaryOp) :
    C.Follows (Exec.unary p inst op) (Exec.unary (p.under config) inst op) := by
  unfold Exec.unary
  split
  · exact (hC.operand _).bind fun _ => hC.lift _
  · exact hC.lift _

theorem cast (inst : Instruction) (op : CastOp) :
    C.Follows (Exec.cast p inst op) (Exec.cast (p.under config) inst op) := by
  unfold Exec.cast
  split
  · exact (hC.operand _).bind fun _ => hC.lift _
  · exact hC.lift _

theorem binary (f : Function) (inst : Instruction) (op : BinaryOp) :
    C.Follows (Exec.binary p f inst op) (Exec.binary (p.under config) f inst op) := by
  unfold Exec.binary
  split
  · refine (hC.operand _).bind fun _ => (hC.operand _).bind fun _ => (hC.lift _).bind fun _ => ?_
    split
    · exact (hC.lift _).bind fun _ => hC.lift _
    · exact (hC.lift _).bind fun _ => hC.lift _
    · exact .pure _
  · exact hC.lift _

theorem execute (f : Function) (inst : Instruction) :
    C.Follows (Exec.execute p f inst) (Exec.execute (p.under config) f inst) := by
  unfold Exec.execute
  cases inst.op with
  | ret => exact (hC.returnValue f inst).bind fun _ => .pure _
  | branch =>
    have htarget : C.Follows (Exec.branchTarget inst) (Exec.branchTarget inst) := by
      unfold Exec.branchTarget
      split <;> exact hC.lift _
    exact htarget.bind fun _ => .pure _
  | condBranch => exact (hC.condBranchTarget inst).bind fun _ => .pure _
  | unreachable => exact hC.raise rfl
  | phi => exact (hC.phi f inst).bind fun _ => .pure _
  | unary op => exact (hC.unary inst op).bind fun _ => .pure _
  | cast op => exact (hC.cast inst op).bind fun _ => .pure _
  | binary op => exact (hC.binary f inst op).bind fun _ => .pure _
  | place op => exact (hC.placeInst f inst op).bind fun _ => .pure _
  | call op =>
    refine (hC.call inst op).bind fun started => ?_
    cases started with
    | returned v => exact .pure _
    | entered => exact .pure _
  | insertValue | extractValue | getField | setField | union =>
    exact (hC.aggregate inst).bind fun _ => .pure _

end Framed

namespace Sound

variable (hC : C.Sound p config)

include hC

/-! ## Steps and runs -/

theorem modifyFrame (g : Frame → Frame) :
    C.Follows (Exec.modifyFrame g) (Exec.modifyFrame g) := by
  intro s t hst
  have hframes := hC.frames_eq hst
  unfold Exec.modifyFrame
  rw [Exec.modify_apply, Exec.modify_apply, hframes]
  cases hfr : s.frames with
  | nil => exact .ok _ hst
  | cons fr rest => exact .ok _ (hC.reframe hst (by rw [hfr, List.length_cons, List.length_cons]))

theorem bindLocal (l : Local) (v : Value) :
    C.Follows (Exec.bindLocal l v) (Exec.bindLocal l v) :=
  hC.frame.bind fun _ => (Follows.lift _ fun _ h => hC.unrefused
    (Frame.checkSlot_eq_error h).2).bind fun _ => hC.modifyFrame _

theorem current (fr : Frame) :
    C.Follows (liftM (fr.current p.module) : Exec (Function × Block × Instruction))
      (liftM (fr.current p.module)) :=
  .lift _ fun _ h => hC.unrefused (Frame.current_not_refusal h)

theorem bindResult (f : Function) (inst : Instruction) (v : Value) :
    C.Follows (Exec.bindResult f inst v) (Exec.bindResult f inst v) := by
  unfold Exec.bindResult
  cases inst.result with
  | none => exact .pure _
  | some l =>
    exact (hC.lift _).bind fun _ => (hC.lift _).bind fun _ => hC.bindLocal _ _

theorem complete (f : Function) (inst : Instruction) (v : Option Value) :
    C.Follows (Exec.complete f inst v) (Exec.complete f inst v) := by
  cases v with
  | none => exact hC.modifyFrame _
  | some v => exact (hC.bindResult f inst v).bind fun _ => hC.modifyFrame _

theorem deliver (base : Nat) (v : Value) :
    C.Follows (Exec.deliver p base v) (Exec.deliver (p.under config) base v) := by
  refine .get_bind fun s t hst => ?_
  rw [hC.frames_eq hst]
  by_cases hlast : s.frames.length ≤ base
  · rw [if_pos hlast]
    exact .ok _ hst
  · rw [if_neg hlast]
    refine (hC.frame.bind fun fr => (hC.current fr).bind fun c => ?_) s t hst
    exact (hC.complete _ _ _).bind fun _ => .pure _

theorem step (base : Nat) : C.Follows (Exec.step p base) (Exec.step (p.under config) base) := by
  refine hC.frame.bind fun fr => (hC.current fr).bind fun c => ?_
  refine (hC.execute _ _).bind fun flow => ?_
  cases flow with
  | complete v => exact (hC.complete _ _ _).bind fun _ => .pure _
  | jump target => exact (hC.modifyFrame _).bind fun _ => .pure _
  | entered => exact .pure _
  | ret v => exact hC.leave.bind fun _ => hC.deliver base v

theorem runFrom (base fuel : Nat) :
    C.Follows (Exec.runFrom p base fuel) (Exec.runFrom (p.under config) base fuel) := by
  induction fuel with
  | zero => exact fun _ _ hst => .error hst (hC.unrefused rfl)
  | succ fuel ih =>
    refine (hC.step base).bind fun r => ?_
    cases r with
    | some v => exact .pure v
    | none => exact ih

/-! ## Unwinding

An excused failure stays one while frames are taken off, provided that they can be. -/

theorem unwind (count : Nat) (e : Failure) :
    C.Follows (Exec.unwind p count e) (Exec.unwind (p.under config) count e) := by
  induction count generalizing e with
  | zero => exact .pure e
  | succ count ih => exact hC.frame.bind fun fr => hC.leave.bind fun _ => ih _

theorem unwind_excused {s : State} (hs : OwnsStack s) {count : Nat}
    (hcount : count ≤ s.frames.length) {e : Failure} (he : C.excused e s) :
    ∃ e' t, Exec.unwind p count e s = .ok e' t ∧ C.excused e' t := by
  induction count generalizing s e with
  | zero => exact ⟨e, s, rfl, he⟩
  | succ count ih =>
    cases hfr : s.frames with
    | nil =>
      rw [hfr] at hcount
      exact absurd hcount (Nat.not_succ_le_zero count)
    | cons fr rest =>
      obtain ⟨stack, hpop, hordered, howned, _⟩ := hs.popFrame_eq_ok hfr
      have he' := hC.excused_leave he (Exec.leaves_of_popFrame hpop)
      rw [hfr, List.length_cons] at hcount
      rw [Exec.unwind_succ hfr, hpop]
      apply ih ⟨hordered, howned⟩ (by dsimp only; omega)
      cases fr.context? p.module with
      | none => exact he'
      | some c => exact hC.excused_within c he'

theorem unwinding {x y : Exec α} {s t : State} (base : Nat) (h : C.Matches (x s) (y t))
    (hs : OwnsStack (x.after s)) :
    C.Matches (Exec.unwinding p base x s) (Exec.unwinding (p.under config) base y t) := by
  unfold Exec.unwinding
  generalize y t = right at h
  cases hx : x s with
  | ok a s' =>
    rw [hx] at h
    cases h with
    | ok _ hrel => exact .ok a hrel
  | error e s' =>
    rw [hx] at h
    rw [Exec.after_of_error hx] at hs
    cases h with
    | error hrel he =>
      cases e with
      | fault | outOfFuel => exact .error hrel he
      | raised context cause =>
        -- Both are unwound, by the same number of frames.
        have hunwound := hC.unwind (s'.frames.length - base) (.raised context cause) s' _ hrel
        dsimp only
        rw [hC.frames_eq hrel]
        generalize Exec.unwind (p.under config) _ _ _ = right at hunwound
        cases hu : Exec.unwind p (s'.frames.length - base) (.raised context cause) s' with
        | ok e' u =>
          rw [hu] at hunwound
          cases hunwound with
          | ok _ hrel => exact .error hrel (hC.unwind_shared he hu)
        | error e' u =>
          rw [hu] at hunwound
          cases hunwound with
          | error hrel he => exact .error hrel he
          | excused _ he => exact .excused _ he
    | excused _ he =>
      cases e with
      | fault | outOfFuel => exact .excused _ he
      | raised context cause =>
        obtain ⟨e', u, hu, he'⟩ := hC.unwind_excused hs (Nat.sub_le s'.frames.length base) he
        dsimp only
        rw [hu]
        exact .excused _ he'

theorem callFunction {s t : State} (hs : OwnsStack s) (hst : C.rel s t) (fuel : Nat) (id : FuncId)
    (args : List Value) :
    C.Matches (Exec.callFunction p fuel id args s)
      (Exec.callFunction (p.under config) fuel id args t) := by
  unfold Exec.callFunction
  rw [Exec.bind_of_ok (Exec.get_apply s), Exec.bind_of_ok (Exec.get_apply t), hC.frames_eq hst]
  apply hC.unwinding
  · refine (hC.startCall id args s t hst).bind fun started s' t' _ hrel => ?_
    cases started with
    | returned v => exact .ok v hrel
    | entered => exact hC.runFrom _ fuel s' t' hrel
  · refine hs.moves (p := p) (Exec.after_bind (Exec.startCall_moves id args s) ?_)
    intro started u _
    cases started with
    | returned v => exact (Exec.reads_pure v).along u
    | entered => exact Exec.runFrom_moves _ fuel u

end Sound

end Coupling

end PackedIR
