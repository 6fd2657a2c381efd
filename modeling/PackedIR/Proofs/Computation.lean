/-
Reasoning about interpreter computations.

An `Exec` computation is a function from a state to an outcome, and an outcome carries
a state whether it is a success or a failure. Two questions are asked of it all over
the theory. What does a success say? The lemmas on `= .ok` answer by taking a sequence
apart into its members. And where can the state go? `Along R x` says that `x` moves the
state only along the relation `R`, however it ends; for a reflexive and transitive `R`
it is enough to know this of the members of a sequence.
-/
import Mathlib.Order.Defs.Unbundled
import PackedIR.Machine.Session

set_option autoImplicit false

namespace PackedIR

variable {α β : Type}

/-! ## Success of pure computations -/

/-- A sequence succeeds when both parts do. -/
theorem except_bind_eq_ok_iff {ε : Type} {x : Except ε α} {f : α → Except ε β} {b : β} :
    (x >>= f) = .ok b ↔ ∃ a, x = .ok a ∧ f a = .ok b := by
  cases x with
  | error e => simp [bind, Except.bind]
  | ok a => simp [bind, Except.bind]

/-- A sequence fails when one of its parts does. -/
theorem except_bind_eq_error_iff {ε : Type} {x : Except ε α} {f : α → Except ε β} {e : ε} :
    (x >>= f) = .error e ↔ x = .error e ∨ ∃ a, x = .ok a ∧ f a = .error e := by
  cases x with
  | error e => simp [bind, Except.bind]
  | ok a => simp [bind, Except.bind]

@[simp] theorem raise_ne_ok {e : Error} {a : α} : raise e ≠ .ok a := by
  simp [raise]

@[simp] theorem raiseOperand_ne_ok {e : OperandError} {a : α} : raiseOperand e ≠ .ok a := by
  simp [raiseOperand]

@[simp] theorem raiseTypes_ne_ok {activity : Activity} {types : List Ty} {a : α} :
    raiseTypes activity types ≠ .ok a := by
  simp [raiseTypes]

@[simp] theorem raiseArity_ne_ok {inst : Instruction} {expected : String} {a : α} :
    raiseArity inst expected ≠ .ok a := by
  simp [raiseArity]

@[simp] theorem checkSize_eq_ok_iff {expected found : Nat} {u : Unit} :
    checkSize expected found = .ok u ↔ expected = found := by
  unfold checkSize
  split <;> simp_all

namespace Exec

/-! ## Success of computations -/

theorem bind_apply (x : Exec α) (f : α → Exec β) (s : State) :
    (x >>= f) s = match x s with
      | .ok a t => f a t
      | .error e t => .error e t := by
  change EStateM.bind x f s = _
  unfold EStateM.bind
  cases x s <;> rfl

/-- A sequence succeeds when its first part does and the second does in the state it leaves. -/
theorem bind_eq_ok_iff {x : Exec α} {f : α → Exec β} {s u : State} {b : β} :
    (x >>= f) s = .ok b u ↔ ∃ a t, x s = .ok a t ∧ f a t = .ok b u := by
  rw [bind_apply]
  cases x s with
  | ok a t =>
    constructor
    · intro h
      exact ⟨a, t, rfl, h⟩
    · rintro ⟨_, _, hx, h⟩
      cases hx
      exact h
  | error e t => simp

/-- A sequence fails when one of its parts does, the second in the state that the first leaves. -/
theorem bind_eq_error_iff {x : Exec α} {f : α → Exec β} {s u : State} {e : Failure} :
    (x >>= f) s = .error e u ↔ x s = .error e u ∨ ∃ a t, x s = .ok a t ∧ f a t = .error e u := by
  rw [bind_apply]
  cases x s with
  | ok a t =>
    constructor
    · intro h
      exact .inr ⟨a, t, rfl, h⟩
    · rintro (h | ⟨_, _, hx, h⟩)
      · cases h
      · cases hx
        exact h
  | error e' t => simp

theorem bind_of_ok {x : Exec α} {f : α → Exec β} {s t : State} {a : α} (h : x s = .ok a t) :
    (x >>= f) s = f a t := by
  rw [bind_apply, h]

@[simp] theorem pure_apply (a : α) (s : State) : (pure a : Exec α) s = .ok a s := rfl

@[simp] theorem get_apply (s : State) : (get : Exec State) s = .ok s s := rfl

@[simp] theorem modify_apply (g : State → State) (s : State) :
    (modify g : Exec PUnit) s = .ok ⟨⟩ (g s) := rfl

@[simp] theorem throw_apply (e : Failure) (s : State) : (throw e : Exec α) s = .error e s := rfl

@[simp] theorem lift_ok (a : α) (s : State) :
    (liftM (.ok a : Result α) : Exec α) s = .ok a s := rfl

@[simp] theorem lift_error (e : Failure) (s : State) :
    (liftM (.error e : Result α) : Exec α) s = .error e s := rfl

@[simp] theorem liftFault_ok (a : α) (s : State) :
    (liftM (.ok a : Except Fault α) : Exec α) s = .ok a s := rfl

@[simp] theorem liftFault_error (f : Fault) (s : State) :
    (liftM (.error f : Except Fault α) : Exec α) s = .error (.fault f) s := rfl

/-- A pure computation succeeds in every state or in none, and changes nothing. -/
theorem lift_eq_ok_iff {r : Result α} {s t : State} {a : α} :
    (liftM r : Exec α) s = .ok a t ↔ r = .ok a ∧ t = s := by
  cases r with
  | ok b => simp [eq_comm]
  | error e => simp

theorem lift_eq_error_iff {r : Result α} {s t : State} {e : Failure} :
    (liftM r : Exec α) s = .error e t ↔ r = .error e ∧ t = s := by
  cases r with
  | ok b => simp
  | error e => simp [eq_comm]

theorem liftFault_eq_ok_iff {r : Except Fault α} {s t : State} {a : α} :
    (liftM r : Exec α) s = .ok a t ↔ r = .ok a ∧ t = s := by
  cases r with
  | ok b => simp [eq_comm]
  | error f => simp

/-! ## Where the state can go -/

/-- The state that a computation leaves behind, however it ends. -/
def after (x : Exec α) (s : State) : State :=
  match x s with
  | .ok _ t => t
  | .error _ t => t

theorem after_of_ok {x : Exec α} {s t : State} {a : α} (h : x s = .ok a t) : x.after s = t := by
  rw [after, h]

theorem after_of_error {x : Exec α} {s t : State} {e : Failure} (h : x s = .error e t) :
    x.after s = t := by
  rw [after, h]

theorem after_congr {x y : Exec α} {s t : State} (h : x s = y t) : x.after s = y.after t := by
  rw [after, after, h]

/-- The computation moves the state along `R`. -/
def Along (R : State → State → Prop) (x : Exec α) : Prop := ∀ s, R s (x.after s)

/-- The computation leaves every state as it is. -/
def Reads (x : Exec α) : Prop := Along (· = ·) x

section Along

variable {R : State → State → Prop}

/-- In one state, a sequence moves along `R` when its first part does, and its second part does
wherever the first has succeeded. -/
theorem after_bind [IsTrans State R] {x : Exec α} {f : α → Exec β} {s : State} (hx : R s (x.after s))
    (hf : ∀ a t, x s = .ok a t → R t ((f a).after t)) : R s ((x >>= f).after s) := by
  unfold after at hx ⊢
  rw [bind_apply]
  cases h : x s with
  | ok a t =>
    -- The first part has moved to `t`, and the second moves on from there.
    rw [h] at hx
    exact trans_of R hx (hf a t h)
  | error e t =>
    rw [h] at hx
    exact hx

theorem Along.bind [IsTrans State R] {x : Exec α} {f : α → Exec β} (hx : Along R x)
    (hf : ∀ a, Along R (f a)) : Along R (x >>= f) :=
  fun s => after_bind (hx s) fun a t _ => hf a t

theorem Along.of_ok {x : Exec α} (hx : Along R x) {s t : State} {a : α} (h : x s = .ok a t) :
    R s t := by
  rw [← after_of_ok h]
  exact hx s

theorem Reads.along [Std.Refl R] {x : Exec α} (hx : Reads x) : Along R x := by
  intro s
  rw [← hx s]
  exact refl_of R s

theorem Along.mono {Q R : State → State → Prop} (h : ∀ s t, Q s t → R s t) {x : Exec α}
    (hx : Along Q x) : Along R x :=
  fun s => h s _ (hx s)

end Along

/-! ## Computations that only look -/

theorem reads_pure (a : α) : Reads (pure a : Exec α) := fun _ => rfl

theorem reads_get : Reads (get : Exec State) := fun _ => rfl

theorem reads_throw (e : Failure) : Reads (throw e : Exec α) := fun _ => rfl

theorem reads_lift (r : Result α) : Reads (liftM r : Exec α) := by
  intro s
  cases r <;> rfl

theorem reads_liftFault (r : Except Fault α) : Reads (liftM r : Exec α) := by
  intro s
  cases r <;> rfl

theorem Reads.bind {x : Exec α} {f : α → Exec β} (hx : Reads x) (hf : ∀ a, Reads (f a)) :
    Reads (x >>= f) :=
  Along.bind hx hf

/-- What only looks comes before without a difference. -/
theorem Reads.bind_along {R : State → State → Prop} [Std.Refl R] {x : Exec α} {f : α → Exec β}
    (hx : Reads x) (hf : ∀ a, Along R (f a)) : Along R (x >>= f) := by
  intro s
  rw [after, bind_apply]
  cases h : x s with
  | ok a t =>
    obtain rfl : t = s := by rw [hx s, after_of_ok h]
    exact hf a t
  | error e t =>
    obtain rfl : t = s := by rw [hx s, after_of_error h]
    exact refl_of R t

theorem after_bind_reads {x : Exec α} {f : α → Exec β} (hf : ∀ a, Reads (f a)) (s : State) :
    (x >>= f).after s = x.after s := by
  rw [after, bind_apply, after]
  cases x s with
  | ok a t => exact (hf a t).symm
  | error e t => rfl

/-- A computation that only looks succeeds in the state it started from. -/
theorem Reads.state_eq {x : Exec α} (hx : Reads x) {s t : State} {a : α} (h : x s = .ok a t) :
    t = s := by
  rw [hx s, after_of_ok h]

theorem reads_frame : Reads frame := by
  refine reads_get.bind fun s => ?_
  split
  · exact reads_pure _
  · exact reads_throw _

theorem reads_load (p : Program) (address : Nat) (ty : Ty) : Reads (load p address ty) :=
  reads_get.bind fun _ => reads_lift _

theorem frame_eq_ok_iff {s t : State} {f : Frame} :
    frame s = .ok f t ↔ t = s ∧ ∃ rest, s.frames = f :: rest := by
  unfold frame
  rw [bind_of_ok (get_apply s)]
  cases hs : s.frames with
  | nil => simp
  | cons g rest => simp [eq_comm, and_comm]

theorem frame_nil {s : State} (h : s.frames = []) :
    frame s = .error (.raised [] .noActiveFrame) s := by
  unfold frame
  rw [bind_of_ok (get_apply s)]
  simp only [h, throw_apply]

theorem modifyFrame_cons {s : State} {g : Frame → Frame} {fr : Frame} {rest : List Frame}
    (h : s.frames = fr :: rest) :
    modifyFrame g s = .ok () { s with frames := g fr :: rest } := by
  unfold modifyFrame
  simp only [modify_apply, h]

/-! ## Computations that succeed or change nothing -/

/-- A failure of the computation leaves the state as it was. -/
def Atomic (x : Exec α) : Prop := ∀ s e t, x s = .error e t → t = s

theorem Reads.atomic {x : Exec α} (hx : Reads x) : Atomic x := by
  intro s e t h
  rw [hx s, after_of_error h]

theorem Reads.bind_atomic {x : Exec α} {f : α → Exec β} (hx : Reads x)
    (hf : ∀ a, Atomic (f a)) : Atomic (x >>= f) := by
  intro s e t h
  rw [bind_apply] at h
  cases hs : x s with
  | ok a u =>
    -- The first part has only looked, so the second one fails in the state it got.
    rw [hs] at h
    rw [hf a u e t h, hx.state_eq hs]
  | error e' u =>
    rw [hs] at h
    cases h
    exact hx.atomic _ _ _ hs

theorem atomic_modify (g : State → State) : Atomic (modify g : Exec PUnit) := by
  intro s e t h
  rw [modify_apply] at h
  cases h

/-- Adding a context to failures changes no state. -/
theorem after_within (c : Context) (x : Exec α) (s : State) :
    (within c x).after s = x.after s := by
  unfold after within
  cases x s <;> rfl

theorem within_eq_ok_iff {c : Context} {x : Exec α} {s t : State} {a : α} :
    within c x s = .ok a t ↔ x s = .ok a t := by
  unfold within
  cases x s <;> simp

end Exec

/-! ## Where control is -/

theorem Frame.current_of_function {fr : Frame} {m : Module} {f : Function}
    (hf : m.function fr.function = .ok f) :
    fr.current m = match f.block? fr.block with
      | none => raiseOperand (.noBlock f.name fr.block)
      | some block => match block.instructions[fr.pc]? with
        | some inst => .ok (f, block, inst)
        | none => raiseOperand (.fellOffBlock block.name f.name) := by
  unfold Frame.current
  rw [hf]
  rfl

end PackedIR
