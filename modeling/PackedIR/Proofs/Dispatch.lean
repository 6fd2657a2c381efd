/-
The three ways to call.

A direct call names its callee. A call through a pointer and a call through a method table find an
address in memory, and the machine takes it for the prepared function that the address stands for.
Addresses of functions are told apart by their ids, and what has been prepared stays prepared, so
an address that was given out for a function always leads back to it. After its own operands have
been evaluated, each of the two is therefore the direct call.

These operands are evaluated before the arguments, and a direct call has none. If they only cache
constants, and copy no global variable into one, the call ends as the direct call does from the
same state. They may also fix the value of a constant that the callee would have made later, from
a variable that it has changed in the meantime; then the two calls end differently.
-/
import PackedIR.Proofs.Caching

set_option autoImplicit false

namespace PackedIR

variable {α β : Type} {p : Program} {s t u : State} {id : FuncId}

/-! ## Prepared functions -/

/-- Prepared functions stay so, and what is added is a function of the module. -/
structure Compiles (p : Program) (s t : State) : Prop where
  kept : ∀ id ∈ s.compiled, id ∈ t.compiled
  found : ∀ id ∈ t.compiled, id ∈ s.compiled ∨ ∃ f, p.module.function id = .ok f

namespace Compiles

theorem of_eq (h : t.compiled = s.compiled) : Compiles p s t := by
  refine ⟨fun id hid => ?_, fun id hid => .inl ?_⟩
  · rw [h]
    exact hid
  · rw [← h]
    exact hid

theorem trans (h : Compiles p s t) (h' : Compiles p t u) : Compiles p s u := by
  refine ⟨fun id hid => h'.kept id (h.kept id hid), fun id hid => ?_⟩
  rcases h'.found id hid with hid | hfound
  · exact h.found id hid
  · exact .inr hfound

end Compiles

theorem Makes.compiles (h : Makes p s t) : Compiles p s t := by
  induction h with
  | refl | place | intern => exact .of_eq rfl
  | trans _ _ ih₁ ih₂ => exact ih₁.trans ih₂
  | prepare id found _ _ _ =>
    refine ⟨fun _ hid => List.mem_cons_of_mem id hid, fun id' hid' => ?_⟩
    rcases List.mem_cons.mp hid' with rfl | hid'
    · exact .inr ⟨_, found⟩
    · exact .inl hid'
  | make _ _ _ _ _ _ ih => exact ih.trans (.of_eq rfl)

theorem Moves.compiles (h : Moves p s t) : Compiles p s t :=
  (CacheRelation.mk .trans Makes.compiles fun _ hcompiled _ => .of_eq hcompiled).moves h

/-- The function has been prepared earlier in the session. -/
def Prepared (p : Program) (id : FuncId) (s : State) : Prop :=
  ∃ s' address t', Exec.compileFunction p id s' = .ok address t' ∧ Moves p t' s

/-- The state keeps track of what has been prepared. -/
theorem prepared_iff (hs : Moves p {} s) : Prepared p id s ↔ id ∈ s.compiled := by
  constructor
  · rintro ⟨s', address, t', hcompile, hmoves⟩
    have hmem : id ∈ t'.compiled := by
      obtain ⟨_, _, ⟨hmem, rfl⟩ | rfl⟩ := Exec.compileFunction_eq_ok hcompile
      · exact hmem
      · exact List.mem_cons_self
    exact hmoves.compiles.kept id hmem
  · intro hmem
    rcases hs.compiles.found id hmem with hnone | ⟨f, hf⟩
    · cases hnone
    · exact ⟨s, id.identity, s, Exec.compileFunction_of_mem hf hmem, refl_of (Moves p) s⟩

/-! ## Addresses of functions -/

theorem FuncId.eq_of_identity_eq {f g : FuncId} (h : f.identity = g.identity) : f = g := by
  obtain ⟨i⟩ := f
  obtain ⟨j⟩ := g
  have hindex : i = j := by
    change Nat.pow 2 40 + 16 * i = Nat.pow 2 40 + 16 * j at h
    omega
  rw [hindex]

/-- An address stands for at most one function, which has been prepared. -/
theorem State.functionAt?_eq_some_iff {address : Nat} {f : FuncId} :
    s.functionAt? address = some f ↔ address = f.identity ∧ f ∈ s.compiled := by
  unfold functionAt?
  constructor
  · intro h
    have hidentity := List.find?_some h
    exact ⟨(beq_iff_eq.mp hidentity).symm, List.mem_of_find?_eq_some h⟩
  · rintro ⟨rfl, hmem⟩
    cases h : s.compiled.find? fun g => g.identity == f.identity with
    | none =>
      have hnone := List.find?_eq_none.mp h f hmem
      simp at hnone
    | some g =>
      have hidentity := List.find?_some h
      rw [FuncId.eq_of_identity_eq (beq_iff_eq.mp hidentity)]

/-- The address that a value holds is in its bytes alone. -/
theorem Value.asAddress_of_bytes_eq {v w : Value} {address : Nat} (h : v.asAddress = .ok address)
    (hbytes : w.bytes = v.bytes) : w.asAddress = .ok address := by
  have haddress : w.address? = v.address? := by
    unfold address? size
    rw [hbytes]
  unfold asAddress at h ⊢
  rw [haddress]
  cases hv : v.address? with
  | some a =>
    rw [hv] at h
    exact h
  | none =>
    rw [hv] at h
    cases h

namespace Exec

theorem bind_congr_of_ok {x : Exec α} {f g : α → Exec β}
    (h : ∀ a t, x s = .ok a t → f a t = g a t) : (x >>= f) s = (x >>= g) s := by
  rw [bind_apply, bind_apply]
  cases hx : x s with
  | ok a t => exact h a t hx
  | error e t => rfl

/-- What stands for a prepared function is never taken for native code. -/
theorem startPointerCall_of_mem {pointer : Value} (hpointer : pointer.asAddress = .ok id.identity)
    (hmem : id ∈ s.compiled) (fnTy : Ty) (args : List Value) :
    startPointerCall p pointer fnTy args s = startCall p id args s := by
  have hfunction := State.functionAt?_eq_some_iff.mpr ⟨rfl, hmem⟩
  unfold startPointerCall
  rw [hpointer, bind_of_ok (lift_ok _ _), bind_of_ok (get_apply s), hfunction]

/-- A word in memory may be loaded under every type of its size. -/
theorem load_of_size_eq {address : Nat} {ty ty' : Ty} {v : Value}
    (h : load p address ty s = .ok v t) (hsize : ty'.size = ty.size) :
    load p address ty' s = .ok { ty := ty', bytes := v.bytes } s := by
  obtain ⟨hload, _⟩ := lift_eq_ok_iff.mp h
  refine lift_eq_ok_iff.mpr ⟨?_, rfl⟩
  unfold Memory.load at hload ⊢
  obtain ⟨_, hallowed, hbytes⟩ := except_bind_eq_ok_iff.mp hload
  obtain ⟨hlength, rfl⟩ := Value.ofBytes_eq_ok_iff.mp hbytes
  rw [hsize]
  refine except_bind_eq_ok_iff.mpr ⟨_, hallowed, Value.ofBytes_eq_ok_iff.mpr ⟨?_, rfl⟩⟩
  rw [hsize]
  exact hlength

/-- An integer operand is an operand whose value is read. -/
theorem operand_of_integerOperand {activity : Activity} {o : Operand} {i : Int}
    (h : integerOperand p activity o s = .ok i t) : ∃ v, operand p o s = .ok v t := by
  obtain ⟨v, u, hv, hread⟩ := bind_eq_ok_iff.mp h
  -- Reading the integer from the value leaves the state as it is.
  cases hint : v.asInt? with
  | none =>
    simp only [hint] at hread
    exact absurd (lift_eq_ok_iff.mp hread).1 (by simp)
  | some k =>
    simp only [hint] at hread
    split at hread
    · cases hread
      exact ⟨v, hv⟩
    · exact absurd (lift_eq_ok_iff.mp hread).1 (by simp)

end Exec

/-! ## Finding the callee -/

/-- An instruction with the given operands finds the function `id` in `s`. Its own operands leave
the state `t`, and `args` are the operands that it passes on. -/
inductive Finds (p : Program) (id : FuncId) (s t : State) :
    CallOp → List Operand → List Operand → Prop where
  /-- The callee is a value that holds the address of the function. -/
  | pointer {callee : Operand} {args : List Operand} {pointer : Value}
      (evaluated : Exec.operand p callee s = .ok pointer t)
      (holds : pointer.asAddress = .ok id.identity) :
      Finds p id s t .pointer (callee :: args) args
  /-- The first word of the receiver's object is the address of a table, of which the slot at the
  index holds the address of the function. -/
  | virtual {cls fnTy : Ty} {index receiver : Operand} {rest : List Operand} {i : Int}
      {object first slot : Value} {start table : Nat} {u : State}
      (evaluated : Exec.integerOperand p .tableIndex index s = .ok i t)
      (received : Exec.operand p receiver t = .ok object u)
      (located : object.asAddress = .ok start)
      (headed : Exec.load p start Ty.uword u = .ok first u)
      (tabled : first.asAddress = .ok table)
      (slotted : Exec.load p (offsetAddress table (i * wordSize)) Ty.uword u = .ok slot u)
      (holds : slot.asAddress = .ok id.identity) (sized : fnTy.size = wordSize) :
      Finds p id s t .virtual (.type cls :: index :: .type fnTy :: receiver :: rest)
        (receiver :: rest)

namespace Finds

variable {op : CallOp} {os args : List Operand}

/-- The operands that come before the arguments make what they need, and no more. -/
theorem makes (h : Finds p id s t op os args) : Makes p s t := by
  cases h with
  | pointer evaluated _ => exact (Exec.operand_makes _).of_ok evaluated
  | virtual evaluated => exact (Exec.integerOperand_makes _ _).of_ok evaluated

/-- They come down to the evaluation of one operand. -/
theorem derives (h : Finds p id s t op os args) (hst : CachesOnly p s t) : Derives p s t := by
  cases h with
  | pointer evaluated _ => exact Exec.derives_of_operand evaluated hst
  | virtual evaluated =>
    obtain ⟨v, hv⟩ := Exec.operand_of_integerOperand evaluated
    exact Exec.derives_of_operand hv hst

/-- A call that finds a prepared function goes on to it with its arguments. -/
theorem call_eq (h : Finds p id s t op os args) (hmem : id ∈ s.compiled) (r : Option Local) :
    Exec.call p ⟨.call op, os, r⟩ op s = (Exec.operands p args >>= Exec.startCall p id) t := by
  have hmem := h.makes.compiles.kept id hmem
  -- The arguments, too, leave the function prepared.
  have hlater {os : List Operand} {vs : List Value} {u w : State} (hu : id ∈ u.compiled)
      (h : Exec.operands p os u = .ok vs w) : id ∈ w.compiled :=
    ((Exec.operands_makes os).of_ok h).compiles.kept id hu
  cases h with
  | pointer evaluated holds =>
    refine (Exec.bind_of_ok evaluated).trans (Exec.bind_congr_of_ok fun vs u hvs => ?_)
    exact Exec.startPointerCall_of_mem holds (hlater hmem hvs) _ vs
  | @virtual cls fnTy index receiver rest i object first slot start table u evaluated received
      located headed tabled slotted holds sized =>
    have hpointer : Exec.methodPointer p start i fnTy u =
        .ok { ty := fnTy, bytes := slot.bytes } u := by
      unfold Exec.methodPointer
      rw [Exec.bind_of_ok headed, tabled, Exec.bind_of_ok (Exec.lift_ok _ _)]
      exact Exec.load_of_size_eq slotted sized
    have hu : id ∈ u.compiled :=
      ((Exec.operand_makes receiver).of_ok received).compiles.kept id hmem
    have hpassed : (Exec.operands p (receiver :: rest) >>= Exec.startCall p id) t =
        (Exec.operands p rest >>= fun vs => Exec.startCall p id (object :: vs)) u := by
      rw [Exec.operands, bind_assoc, Exec.bind_of_ok received]
      simp only [bind_assoc, pure_bind]
    rw [hpassed]
    unfold Exec.call
    dsimp only
    rw [Exec.bind_of_ok evaluated, Exec.bind_of_ok received, located,
      Exec.bind_of_ok (Exec.lift_ok _ _), Exec.bind_of_ok hpointer]
    refine Exec.bind_congr_of_ok fun vs w hvs => ?_
    apply Exec.startPointerCall_of_mem _ (hlater hu hvs)
    exact Value.asAddress_of_bytes_eq holds rfl

end Finds

/-- A direct call evaluates its arguments and goes on to the function. -/
theorem Exec.call_direct {k : ConstId} {c : Constant} (hk : p.module.constant k = .ok c)
    (hkind : c.kind = .function id) (args : List Operand) (r : Option Local) (s : State) :
    call p ⟨.call .direct, .const k :: args, r⟩ .direct s =
      (operands p args >>= startCall p id) s := by
  unfold call
  dsimp only
  rw [hk, bind_of_ok (liftFault_ok _ _), hkind]

/-! ## Calls to their end -/

namespace Exec

/-- What is left of a call after it has been started from `base` frames. -/
def finish (p : Program) (base fuel : Nat) : Started → Exec Value
  | .returned v => return v
  | .entered => runFrom p base fuel

/-- Executes a call instruction and runs the callee to its end. What its frames add to a failure is
there, and what the instruction itself adds is not. -/
def callToEnd (p : Program) (fuel : Nat) (inst : Instruction) (op : CallOp) : Exec Value := do
  let base := (← get).frames.length
  unwinding p base do finish p base fuel (← call p inst op)

theorem callToEnd_congr {fuel : Nat} {inst inst' : Instruction} {op op' : CallOp}
    (hcall : call p inst op s = call p inst' op' t) (hframes : t.frames = s.frames) :
    callToEnd p fuel inst op s = callToEnd p fuel inst' op' t := by
  unfold callToEnd
  rw [bind_of_ok (get_apply s), bind_of_ok (get_apply t), hframes]
  unfold unwinding
  rw [bind_apply, bind_apply, hcall]

theorem finish_moves (base fuel : Nat) (started : Started) :
    Along (Moves p) (finish p base fuel started) := by
  cases started with
  | returned v => exact (reads_pure v).along
  | entered => exact runFrom_moves base fuel

end Exec

/-- The second outcome is that of the first, in a state with another cache of constants at most.
Nothing is said if the first has run out of fuel where constants refer to each other in a circle. -/
inductive EndsAlike (p : Program) :
    EStateM.Result Failure State α → EStateM.Result Failure State α → Prop where
  | ok (a : α) {s t : State} : Recached s t → EndsAlike p (.ok a s) (.ok a t)
  | error (e : Failure) {s t : State} : Recached s t → EndsAlike p (.error e s) (.error e t)
  | circular {s : State} (o : EStateM.Result Failure State α) : ¬p.module.Acyclic →
      EndsAlike p (.error .outOfFuel s) o

theorem EndsAlike.of_ok {o o' : EStateM.Result Failure State α} {a : α} (h : EndsAlike p o o')
    (ho : o = .ok a s) : ∃ t, o' = .ok a t ∧ Recached s t := by
  subst ho
  cases h with
  | ok _ hst => exact ⟨_, rfl, hst⟩

theorem Coupling.endsAlike_of_matches {s₀ : State} {k : Table ConstId Value}
    {o o' : EStateM.Result Failure State α} (h : (replaying p s₀ k).Matches o o') :
    EndsAlike p o o' := by
  cases h with
  | ok a hst => exact .ok a hst.recached
  | error hst _ => exact .error _ hst.recached
  | excused _ he =>
    rw [he.1]
    exact .circular _ he.2

/-- A direct call ends alike before and after constants have been cached that can be made again. -/
theorem Derives.callToEnd {k : ConstId} {c : Constant} (h : Derives p s t) (hs : OwnsStack s)
    (hk : p.module.constant k = .ok c) (hkind : c.kind = .function id) (fuel : Nat)
    (args : List Operand) (r : Option Local) :
    EndsAlike p (Exec.callToEnd p fuel ⟨.call .direct, .const k :: args, r⟩ .direct s)
      (Exec.callToEnd p fuel ⟨.call .direct, .const k :: args, r⟩ .direct t) := by
  have hsound := Coupling.sound_replaying (p := p) h.derived
  have hst := h.replays
  apply Coupling.endsAlike_of_matches
  unfold Exec.callToEnd
  rw [Exec.bind_of_ok (Exec.get_apply s), Exec.bind_of_ok (Exec.get_apply t), hsound.frames_eq hst]
  apply hsound.unwinding
  · refine (hsound.call _ _ s t hst).bind fun started u w _ huw => ?_
    cases started with
    | returned v => exact .ok v huw
    | entered => exact hsound.runFrom _ fuel u w huw
  · refine hs.moves (p := p) (Exec.after_bind ?_ fun started u _ => ?_)
    · rw [Exec.after_congr (Exec.call_direct hk hkind args r s)]
      have hoperands : Exec.Along (Moves p) (Exec.operands p args) :=
        (Exec.operands_makes args).mono fun _ _ => .of_makes
      exact hoperands.bind (Exec.startCall_moves id) s
    · exact Exec.finish_moves _ fuel started u

/-- The three call instructions agree. In every state of a session an address stands for a function
exactly if the function has been prepared and has this address. A call that finds a prepared
function, through a pointer or through a method table, does what the direct call does after the
operands that come before the arguments, and if these only cache constants and copy no global
variable, it ends as the direct call does in the same state. -/
theorem call_instructions_agree {k : ConstId} {c : Constant} (hs : Reachable p s)
    (hid : Prepared p id s) (hk : p.module.constant k = .ok c) (hkind : c.kind = .function id) :
    (∀ address f, s.functionAt? address = some f ↔ address = f.identity ∧ Prepared p f s) ∧
    ∀ t op os args, Finds p id s t op os args → ∀ fuel r r',
      Exec.callToEnd p fuel ⟨.call op, os, r⟩ op s =
        Exec.callToEnd p fuel ⟨.call .direct, .const k :: args, r'⟩ .direct t ∧
      (CachesOnly p s t →
        EndsAlike p (Exec.callToEnd p fuel ⟨.call .direct, .const k :: args, r'⟩ .direct s)
          (Exec.callToEnd p fuel ⟨.call op, os, r⟩ op s)) := by
  refine ⟨fun address f => ?_, fun t op os args hfinds fuel r r' => ?_⟩
  · rw [prepared_iff hs.moves]
    exact State.functionAt?_eq_some_iff
  · have hcall : Exec.callToEnd p fuel ⟨.call op, os, r⟩ op s =
        Exec.callToEnd p fuel ⟨.call .direct, .const k :: args, r'⟩ .direct t := by
      apply Exec.callToEnd_congr _ hfinds.makes.frames_eq
      rw [hfinds.call_eq ((prepared_iff hs.moves).mp hid), Exec.call_direct hk hkind]
    refine ⟨hcall, fun hst => ?_⟩
    rw [hcall]
    exact (hfinds.derives hst).callToEnd hs.ownsStack hk hkind fuel args r'

deriving instance DecidableEq for Started, Table, State

theorem Exec.eq_ok_of_computed {x : Exec α} {a : α} (hresult : x.result? s = some a)
    (hafter : x.after s = t) : x s = .ok a t := by
  rw [← hafter]
  exact eq_ok_of_result? hresult

/-! ## An object with a method -/

namespace Methods

def throughTable : Instruction :=
  ⟨.call .virtual, [.type Ty.uword, .const ⟨3⟩, .type Ty.uword, .local ⟨0⟩], some ⟨1⟩⟩

def throughPointer : Instruction := ⟨.call .pointer, [.const ⟨5⟩, .local ⟨0⟩], some ⟨1⟩⟩

def direct : Instruction := ⟨.call .direct, [.const ⟨0⟩, .local ⟨0⟩], some ⟨1⟩⟩

/-- Gives seven, whatever object it is called on. -/
def method : Function where
  name := "method"
  ty := .function [Ty.uword] Ty.u8 false
  locals := #[⟨Ty.uword, false⟩]
  blocks := #[⟨"entry", #[⟨.ret, [.const ⟨4⟩], none⟩]⟩]

/-- Calls the method of an object. -/
def caller : Function where
  name := "caller"
  ty := .function [Ty.uword] Ty.u8 false
  locals := #[⟨Ty.uword, false⟩, ⟨Ty.u8, false⟩]
  blocks := #[⟨"entry", #[throughTable, ⟨.ret, [.local ⟨1⟩], none⟩]⟩]

/-- The object is a dynamic array. Its first word refers to its only element, which makes the
elements its method table. -/
def program : Program where
  module :=
    { name := "methods"
      constants := #[⟨Ty.uword, .function ⟨0⟩⟩, ⟨.array Ty.uword 1, .array [⟨0⟩]⟩,
        ⟨.dynArray Ty.uword, .owned ⟨1⟩⟩, ⟨Ty.word, .int 0⟩, ⟨Ty.u8, .int 7⟩,
        ⟨Ty.word, .bitcast ⟨0⟩⟩]
      functions := #[method, caller]
      globals := #[⟨"object", .dynArray Ty.uword, some ⟨2⟩⟩] }

def ready : State := (Exec.setUp program 0).after {}

def receiver : Value := (ready.globals.get? ⟨0⟩).getD default

/-- The caller is at its call. -/
def atCall : State := (Exec.startCall program ⟨1⟩ [receiver]).after ready

theorem atCall_reachable : Reachable program atCall := by
  have hsetUp : Exec.setUp program 0 {} = .ok () ready := Exec.eq_ok_of_result? (by decide +kernel)
  have hready : Idle program ready := .performed (.setUp 0) .fresh (.inl ⟨(), hsetUp⟩)
  exact .entered ⟨1⟩ [receiver] hready (Exec.eq_ok_of_result? (by decide +kernel))

theorem method_prepared : Prepared program ⟨0⟩ atCall :=
  (prepared_iff atCall_reachable.moves).mpr (by decide +kernel)

/-- The method as a word: the constant is made from the one that stands for the function. -/
def pointer : Value :=
  { ty := Ty.word, origin := .const ⟨5⟩, bytes := [0, 0, 0, 0, 0, 1, 0, 0] }

def withPointer : State := { atCall with constants := atCall.constants.insert ⟨5⟩ pointer }

def index : Value := { ty := Ty.word, origin := .const ⟨3⟩, bytes := [0, 0, 0, 0, 0, 0, 0, 0] }

def withIndex : State := { atCall with constants := atCall.constants.insert ⟨3⟩ index }

theorem finds_through_pointer :
    Finds program ⟨0⟩ atCall withPointer .pointer throughPointer.args [.local ⟨0⟩] := by
  have hpointer : Exec.operand program (.const ⟨5⟩) atCall = .ok pointer withPointer :=
    Exec.eq_ok_of_computed (by decide +kernel) (by decide +kernel)
  exact .pointer hpointer rfl

theorem finds_through_table :
    Finds program ⟨0⟩ atCall withIndex .virtual throughTable.args [.local ⟨0⟩] := by
  have hindex : Exec.integerOperand program .tableIndex (.const ⟨3⟩) atCall = .ok 0 withIndex :=
    Exec.eq_ok_of_computed (by decide +kernel) (by decide +kernel)
  have hobject : Exec.operand program (.local ⟨0⟩) withIndex =
      .ok { ty := Ty.uword, origin := .local ⟨0⟩, bytes := [0, 0, 0, 0, 0, 4, 0, 0] } withIndex :=
    Exec.eq_ok_of_computed (by decide +kernel) (by decide +kernel)
  have hfirst : Exec.load program (2 ^ 42) Ty.uword withIndex =
      .ok { ty := Ty.uword, bytes := [33, 0, 0, 0, 0, 4, 0, 0] } withIndex :=
    Exec.eq_ok_of_computed (by decide +kernel) (by decide +kernel)
  have hslot : Exec.load program (offsetAddress (2 ^ 42 + 33) (0 * wordSize)) Ty.uword withIndex =
      .ok { ty := Ty.uword, bytes := [0, 0, 0, 0, 0, 1, 0, 0] } withIndex :=
    Exec.eq_ok_of_computed (by decide +kernel) (by decide +kernel)
  exact .virtual hindex hobject rfl hfirst rfl hslot rfl rfl

theorem caches_pointer : CachesOnly program atCall withPointer := by
  refine .insert (c := ⟨Ty.word, .bitcast ⟨0⟩⟩) rfl (fun m hm => ?_) pointer
  obtain rfl := List.mem_singleton.mp hm
  rintro ⟨c, g, hc, hg⟩
  cases hc
  cases hg

theorem caches_index : CachesOnly program atCall withIndex := by
  refine .insert (c := ⟨Ty.word, .int 0⟩) rfl (fun m hm => ?_) index
  cases hm

end Methods

/-- The method is called through a word that holds its address and through the table of the object.
Both times it gives seven, as it does when it is called directly, and leaves the same state. -/
theorem call_instructions_agree_methods :
    (∃ t, Exec.callToEnd Methods.program 9 Methods.throughPointer .pointer Methods.atCall =
        .ok { ty := Ty.u8, bytes := [7] } t ∧
      Recached ((Exec.callToEnd Methods.program 9 Methods.direct .direct).after Methods.atCall) t) ∧
    ∃ t, Exec.callToEnd Methods.program 9 Methods.throughTable .virtual Methods.atCall =
        .ok { ty := Ty.u8, bytes := [7] } t ∧
      Recached ((Exec.callToEnd Methods.program 9 Methods.direct .direct).after Methods.atCall) t := by
  obtain ⟨_, hagree⟩ := call_instructions_agree (k := ⟨0⟩) Methods.atCall_reachable
    Methods.method_prepared rfl rfl
  have hdirect := Exec.eq_ok_of_result? (s := Methods.atCall)
    (x := Exec.callToEnd Methods.program 9 Methods.direct .direct)
    (a := { ty := Ty.u8, bytes := [7] }) (by decide +kernel)
  constructor
  · have halike := (hagree _ _ _ _ Methods.finds_through_pointer 9 (some ⟨1⟩) (some ⟨1⟩)).2
      Methods.caches_pointer
    exact halike.of_ok hdirect
  · have halike := (hagree _ _ _ _ Methods.finds_through_table 9 (some ⟨1⟩) (some ⟨1⟩)).2
      Methods.caches_index
    exact halike.of_ok hdirect

/-! ## A callee that replaces a variable

A constant copies a global variable that holds the address of a function, and the function replaces
the variable before it uses the constant. -/

namespace Replacing

def throughCopy : Instruction := ⟨.call .pointer, [.const ⟨2⟩], some ⟨0⟩⟩

def direct : Instruction := ⟨.call .direct, [.const ⟨0⟩], some ⟨0⟩⟩

/-- Stores seven in the variable, and tells whether the constant that copies it is seven. -/
def replace : Function where
  name := "replace"
  ty := .function [] .bool false
  locals := #[⟨.bool, false⟩]
  blocks := #[⟨"entry", #[⟨.place .store, [.const ⟨3⟩, .const ⟨1⟩], none⟩,
    ⟨.binary (.intCompare .equal), [.const ⟨2⟩, .const ⟨3⟩], some ⟨0⟩⟩,
    ⟨.ret, [.local ⟨0⟩], none⟩]⟩]

def caller : Function where
  name := "through"
  ty := .function [] .bool false
  locals := #[⟨.bool, false⟩]
  blocks := #[⟨"entry", #[throughCopy, ⟨.ret, [.local ⟨0⟩], none⟩]⟩]

def program : Program where
  module :=
    { name := "replacing"
      constants := #[⟨Ty.uword, .function ⟨0⟩⟩, ⟨Ty.uword, .globalVar ⟨0⟩⟩,
        ⟨Ty.uword, .bitcast ⟨1⟩⟩, ⟨Ty.uword, .int 7⟩]
      functions := #[replace, caller]
      globals := #[⟨"g", Ty.uword, some ⟨0⟩⟩] }

def ready : State := (Exec.setUp program 0).after {}

/-- The caller is at its call. -/
def atCall : State := (Exec.startCall program ⟨1⟩ []).after ready

/-- The copy has been made. -/
def withCopy : State := (Exec.operand program (.const ⟨2⟩)).after atCall

theorem atCall_reachable : Reachable program atCall := by
  have hsetUp : Exec.setUp program 0 {} = .ok () ready := Exec.eq_ok_of_result? (by decide +kernel)
  have hready : Idle program ready := .performed (.setUp 0) .fresh (.inl ⟨(), hsetUp⟩)
  exact .entered ⟨1⟩ [] hready (Exec.eq_ok_of_result? (by decide +kernel))

theorem finds_through_copy :
    Finds program ⟨0⟩ atCall withCopy .pointer throughCopy.args [] := by
  have hcopy : Exec.operand program (.const ⟨2⟩) atCall =
      .ok { ty := Ty.uword, origin := .const ⟨2⟩, bytes := [0, 0, 0, 0, 0, 1, 0, 0] } withCopy :=
    Exec.eq_ok_of_result? (by decide +kernel)
  exact .pointer hcopy rfl

end Replacing

/-- That the operand in front of the arguments only caches constants is not enough. Called directly
the function finds what it has stored, and called through the copy it finds the copy. -/
theorem call_instructions_disagree :
    Reachable Replacing.program Replacing.atCall ∧
    Prepared Replacing.program ⟨0⟩ Replacing.atCall ∧
    Finds Replacing.program ⟨0⟩ Replacing.atCall Replacing.withCopy .pointer
      Replacing.throughCopy.args [] ∧
    Recached Replacing.atCall Replacing.withCopy ∧
    (∃ t, Exec.callToEnd Replacing.program 9 Replacing.direct .direct Replacing.atCall =
      .ok { ty := .bool, bytes := [1] } t) ∧
    ∃ t, Exec.callToEnd Replacing.program 9 Replacing.throughCopy .pointer Replacing.atCall =
      .ok { ty := .bool, bytes := [0] } t := by
  have hprepared : Prepared Replacing.program ⟨0⟩ Replacing.atCall :=
    (prepared_iff Replacing.atCall_reachable.moves).mpr (by decide +kernel)
  have hcached : Replacing.withCopy =
      { Replacing.atCall with constants := Replacing.withCopy.constants } := by decide +kernel
  exact ⟨Replacing.atCall_reachable, hprepared, Replacing.finds_through_copy, ⟨_, hcached⟩,
    ⟨_, Exec.eq_ok_of_result? (by decide +kernel)⟩, ⟨_, Exec.eq_ok_of_result? (by decide +kernel)⟩⟩

end PackedIR
