/-
Where failures come from.

Two errors are not about what a program asks for but about whether it may have it: the limit on
the call depth and the check of a memory access. Nothing else in the interpreter raises them.
Three failures are not about the program at all but about the machine: that there is no frame,
that control has run past the end of a block, and that a local has no slot in its frame. They come
from the few places that look at frames. Values are built, read, cast and combined by pure
computations, and `Plain` says of such a computation that its failures are of neither kind. Each of
them is built from a few that raise errors of their own, so the proofs follow the definitions.
-/
import PackedIR.Proofs.Values

set_option autoImplicit false

namespace PackedIR

variable {α β : Type}

/-- The failure comes from a limit or from a check of memory. -/
def Failure.isRefusal (e : Failure) : Bool :=
  match e.error? with
  | some (.stackOverflow _ _) => true
  | some (.invalidMemoryAccess _ _) => true
  | _ => false

@[simp] theorem Failure.error?_within (e : Failure) (c : Context) :
    (e.within c).error? = e.error? := by
  cases e with
  | raised context cause => cases cause <;> rfl
  | fault | outOfFuel => rfl

/-- The error says that the machine is in a state that it should not get into. -/
@[reducible] def OperandError.isInternal : OperandError → Bool
  | .fellOffBlock _ _ => true
  | .outsideFrame _ _ _ => true
  | _ => false

def Error.isInternal : Error → Bool
  | .invalidOperand reason => reason.isInternal
  | _ => false

/-- The failure is an error that says something about the program, or no error at all. -/
def Failure.isRegular : Failure → Bool
  | .raised _ (.error e) => !e.isInternal
  | .raised _ _ => false
  | .fault _ => true
  | .outOfFuel => true

@[simp] theorem Failure.isRegular_within (e : Failure) (c : Context) :
    (e.within c).isRegular = e.isRegular := by
  cases e with
  | raised context cause => cases cause <;> rfl
  | fault | outOfFuel => rfl

/-- The failure is neither a refusal nor one of the machine itself. -/
def Failure.isOrdinary (e : Failure) : Bool := !e.isRefusal && e.isRegular

theorem Failure.isRefusal_of_isOrdinary {e : Failure} (h : e.isOrdinary = true) :
    e.isRefusal = false := by
  simp only [isOrdinary, Bool.and_eq_true, Bool.not_eq_true'] at h
  exact h.1

theorem Failure.isRegular_of_isOrdinary {e : Failure} (h : e.isOrdinary = true) :
    e.isRegular = true := by
  simp only [isOrdinary, Bool.and_eq_true] at h
  exact h.2

/-- The error at the root of a computation's failure. -/
def Exec.error? (x : Exec α) (s : State) : Option Error :=
  match x s with
  | .ok _ _ => none
  | .error e _ => e.error?

/-- A pure computation all of whose failures are ordinary. -/
class Plain (r : Result α) : Prop where
  ordinary : ∀ e, r = .error e → e.isOrdinary = true

/-- A condition that is found to be false by looking at the constructor it is about. -/
class IsFalse (b : Bool) : Prop where
  eq_false : b = false

instance : IsFalse false := ⟨rfl⟩

namespace Plain

theorem not_refusal {r : Result α} [hr : Plain r] {e : Failure} (h : r = .error e) :
    e.isRefusal = false :=
  Failure.isRefusal_of_isOrdinary (hr.ordinary e h)

/-! ## Sequences -/

instance ok (a : α) : Plain (.ok a : Result α) := ⟨by simp⟩

instance pure (a : α) : Plain (Pure.pure a : Result α) := Plain.ok a

instance fault (f : Fault) : Plain (.error (.fault f) : Result α) := ⟨by rintro _ ⟨⟩; rfl⟩

instance bind (x : Result α) (f : α → Result β) [hx : Plain x] [hf : ∀ a, Plain (f a)] :
    Plain (x >>= f) := by
  refine ⟨fun e h => ?_⟩
  cases hr : x with
  | error e' =>
    rw [hr] at h
    cases h
    exact hx.ordinary e hr
  | ok a =>
    rw [hr] at h
    exact (hf a).ordinary e h

theorem raise {e : Error} (h : (Failure.of e).isOrdinary = true) :
    Plain (PackedIR.raise e : Result α) :=
  ⟨by rintro _ ⟨⟩; exact h⟩

instance raiseOperand (e : OperandError) [he : IsFalse e.isInternal] :
    Plain (PackedIR.raiseOperand e : Result α) := by
  refine raise ?_
  simp only [Failure.isOrdinary, Failure.isRefusal, Failure.of, Failure.error?, Failure.isRegular,
    Error.isInternal, he.eq_false, Bool.not_false, Bool.and_self]

instance raiseTypes (activity : Activity) (types : List Ty) :
    Plain (PackedIR.raiseTypes activity types : Result α) :=
  raise rfl

instance raiseArity (inst : Instruction) (expected : String) :
    Plain (PackedIR.raiseArity inst expected : Result α) :=
  raise rfl

instance unsupported (op : Opcode) (operands : List Value) :
    Plain (PackedIR.unsupported op operands : Result α) :=
  raise rfl

instance unsupportedCast (op : CastOp) (v : Value) (target : Ty) :
    Plain (op.unsupportedCast v target : Result α) :=
  raise rfl

/-! ## Values -/

section Values

variable (v : Value) (ty : Ty)

instance checkSize (expected found : Nat) : Plain (PackedIR.checkSize expected found) := by
  unfold PackedIR.checkSize
  split
  · infer_instance
  · exact raise rfl

instance ofBytes (bytes : Bytes) : Plain (Value.ofBytes ty bytes) := by
  unfold Value.ofBytes
  infer_instance

instance ofInt (i : Int) : Plain (Value.ofInt ty i) := by
  unfold Value.ofInt
  split
  case h_5 => infer_instance
  all_goals split <;> infer_instance

instance ofDouble (bits : Nat) : Plain (Value.ofDouble ty bits) := by
  unfold Value.ofDouble
  split <;> infer_instance

instance asAddress : Plain v.asAddress := by
  unfold Value.asAddress
  split <;> infer_instance

instance retype : Plain (v.retype ty) := by
  unfold Value.retype
  infer_instance

instance readAt (offset : Nat) : Plain (v.readAt offset ty) := by
  unfold Value.readAt
  split <;> infer_instance

instance writeAt (offset : Nat) (bytes : Bytes) : Plain (v.writeAt offset bytes) := by
  unfold Value.writeAt
  split <;> infer_instance

instance getMember (m : Member) : Plain (v.getMember m) := by
  unfold Value.getMember
  infer_instance

instance setMember (m : Member) (element : Value) : Plain (v.setMember m element) := by
  unfold Value.setMember
  infer_instance

instance memberOf (index : Nat) : Plain (PackedIR.memberOf ty index) := by
  unfold PackedIR.memberOf
  split <;> infer_instance

instance concat (members : List Value) : Plain (Exec.concat ty members) := by
  unfold Exec.concat
  infer_instance

instance ownedArray (address len : Nat) : Plain (Exec.ownedArray ty address len) := by
  unfold Exec.ownedArray
  split
  · split <;> infer_instance
  · infer_instance

end Values

/-! ## Operators and casts -/

section Operators

variable (v w : Value)

instance intOperand (op : Opcode) (signed : Bool) : Plain (PackedIR.intOperand op v signed) := by
  unfold PackedIR.intOperand
  split <;> infer_instance

instance floatOperand (op : Opcode) (width : FloatWidth) :
    Plain (PackedIR.floatOperand op v width) := by
  unfold PackedIR.floatOperand
  split <;> infer_instance

instance evalInt (op : ArithOp) (l r : Int) : Plain (op.evalInt l r) := by
  cases op with
  | add | sub | mul => exact Plain.ok _
  | div | mod =>
    unfold ArithOp.evalInt
    dsimp only
    split
    · exact raise rfl
    · infer_instance

instance evalIntArith (signed : Bool) (op : ArithOp) :
    Plain (BinaryOp.evalIntArith signed op v w) := by
  unfold BinaryOp.evalIntArith
  dsimp only
  split <;> infer_instance

instance evalFloatArith (op : ArithOp) : Plain (BinaryOp.evalFloatArith op v w) := by
  unfold BinaryOp.evalFloatArith
  dsimp only
  split
  · infer_instance
  · split <;> infer_instance

instance intOrdering (op : Opcode) : Plain (BinaryOp.intOrdering op v w) := by
  unfold BinaryOp.intOrdering
  dsimp only
  split <;> infer_instance

instance floatOrdering (op : Opcode) : Plain (BinaryOp.floatOrdering op v w) := by
  unfold BinaryOp.floatOrdering
  split
  · infer_instance
  · split <;> infer_instance

instance evalBitwise (op : BitOp) : Plain (BinaryOp.evalBitwise op v w) := by
  unfold BinaryOp.evalBitwise
  split <;> infer_instance

instance shiftWidth : Plain (BinaryOp.shiftWidth v) := by
  unfold BinaryOp.shiftWidth
  split <;> infer_instance

instance evalShift (op : ShiftOp) : Plain (BinaryOp.evalShift op v w) := by
  unfold BinaryOp.evalShift
  dsimp only
  split <;> infer_instance

instance binary (op : BinaryOp) : Plain (op.eval v w) := by
  unfold BinaryOp.eval
  cases op <;> infer_instance

instance unary (op : UnaryOp) : Plain (op.eval v) := by
  unfold UnaryOp.eval
  dsimp only
  split
  case h_4 => split <;> infer_instance
  all_goals infer_instance

instance resize (op : CastOp) (target : Ty) (signed : Bool) : Plain (op.resize v target signed) := by
  unfold CastOp.resize
  infer_instance

instance floatToIntValue (target : Ty) : Plain (CastOp.floatToIntValue v target) := by
  unfold CastOp.floatToIntValue
  split <;> infer_instance

instance intToFloatValue (target : Ty) : Plain (CastOp.intToFloatValue v target) := by
  have hfinish (i : Int) : Plain (match target with
      | .float width => Pure.pure (Value.ofFloatBits width (width.format.ofInt i))
      | _ => CastOp.unsupportedCast .intToFloat v target : Result Value) := by
    split <;> infer_instance
  unfold CastOp.intToFloatValue
  infer_instance

instance floatWidthValue (op : CastOp) (target : Ty) : Plain (op.floatWidthValue v target) := by
  unfold CastOp.floatWidthValue
  split <;> infer_instance

instance cast (op : CastOp) (target : Ty) : Plain (op.eval v target) := by
  unfold CastOp.eval
  dsimp only
  cases op <;> first | infer_instance | (dsimp only; split <;> infer_instance)

end Operators

/-! ## Instructions and frames -/

instance resultDecl (f : Function) (inst : Instruction) : Plain (PackedIR.resultDecl f inst) := by
  unfold PackedIR.resultDecl
  split <;> infer_instance

instance blockOperand (o : Operand) : Plain (PackedIR.blockOperand o) := by
  unfold PackedIR.blockOperand
  split <;> infer_instance

instance phiOperand (previous : Option BlockId) (os : List Operand) :
    Plain (Exec.phiOperand previous os) := by
  fun_induction Exec.phiOperand previous os with
  | case1 pred value rest ih =>
    have hchoice (b : BlockId) : Plain (if some b = previous then Pure.pure (some value)
        else Exec.phiOperand previous rest : Result (Option Operand)) := by
      split <;> infer_instance
    infer_instance
  | case2 => infer_instance

/-! ## Native calls -/

instance abiOfTy (ty : Ty) : Plain (AbiClass.ofTy ty) := by
  unfold AbiClass.ofTy
  split
  case h_7 => exact raise rfl
  all_goals infer_instance

instance abiCheck (c : AbiClass) : Plain c.check := by
  unfold AbiClass.check
  split
  · split
    · infer_instance
    · exact raise rfl
  · infer_instance

instance scalarOfValue (v : Value) (promoted : Bool) : Plain (Scalar.ofValue v promoted) := by
  unfold Scalar.ofValue
  refine @bind _ _ _ _ _ fun c => ?_
  cases c with
  | int size signed =>
    dsimp only
    split
    · infer_instance
    · exact raise rfl
  | float width =>
    dsimp only
    split
    · split <;> infer_instance
    · exact raise rfl
  | void => exact raise rfl

instance marshal (fixed index : Nat) (args : List Value) :
    Plain (PackedIR.marshal fixed index args) := by
  induction args generalizing index with
  | nil => exact Plain.ok []
  | cons v args ih =>
    unfold PackedIR.marshal
    infer_instance

instance prepare (callee : Callee) (host : Host) (args : List Value) :
    Plain (callee.prepare host args) := by
  unfold Callee.prepare
  refine @bind _ _ _ _ _ fun c => @bind _ _ _ _ _ fun scalars => ?_
  split
  · exact raise rfl
  · refine @bind _ _ _ _ _ fun _ => ?_
    split <;> infer_instance

instance returned (r : Returned) (ret : Ty) (c : AbiClass) : Plain (r.value ret c) := by
  cases c with
  | void => exact Plain.ok _
  | int | float =>
    unfold Returned.value
    infer_instance

end Plain

/-! ## Frames

Each of these fails in an ordinary way, or because the frame does not fit its function. -/

namespace Frame

variable {fr : Frame} {e : Failure}

theorem checkSlot_eq_error {l : Local} (h : fr.checkSlot l = .error e) :
    fr.locals.size ≤ l.index ∧ e.isRefusal = false := by
  unfold checkSlot at h
  split at h
  · cases h
  · rename_i hslot
    cases h
    exact ⟨Nat.le_of_not_lt hslot, rfl⟩

theorem bindArgs_eq_error {index : Nat} {args : List Value} {params : List Ty}
    (h : fr.bindArgs index args params = .error e) :
    e.isOrdinary = true ∨ fr.locals.size < index + params.length ∧ e.isRefusal = false := by
  induction args generalizing fr index params with
  | nil => cases h
  | cons v args ih =>
    cases params with
    | nil => cases h
    | cons ty params =>
      unfold bindArgs at h
      rcases except_bind_eq_error_iff.mp h with h | ⟨arg, _, h⟩
      · exact .inl (Plain.ordinary e h)
      rcases except_bind_eq_error_iff.mp h with h | ⟨_, _, h⟩
      · obtain ⟨hslot, he⟩ := checkSlot_eq_error h
        dsimp only at hslot
        exact .inr ⟨by simp only [List.length_cons]; omega, he⟩
      · -- Binding one argument leaves as many slots for the others.
        rcases ih h with h | ⟨hslot, he⟩
        · exact .inl h
        · simp only [set, Array.size_setIfInBounds] at hslot
          exact .inr ⟨by simp only [List.length_cons]; omega, he⟩

theorem current_eq_error {m : Module} (h : fr.current m = .error e) :
    e.isOrdinary = true ∨ e.isRefusal = false ∧ ∃ f block, m.function fr.function = .ok f ∧
      f.block? fr.block = some block ∧ block.instructions.size ≤ fr.pc := by
  cases hf : m.function fr.function with
  | error fault =>
    unfold current at h
    rw [hf] at h
    cases h
    exact .inl rfl
  | ok f =>
    rw [current_of_function hf] at h
    cases hblock : f.block? fr.block with
    | none =>
      rw [hblock] at h
      cases h
      exact .inl rfl
    | some block =>
      rw [hblock] at h
      dsimp only at h
      cases hinst : block.instructions[fr.pc]? with
      | some inst =>
        rw [hinst] at h
        cases h
      | none =>
        rw [hinst] at h
        cases h
        exact .inr ⟨rfl, f, block, rfl, hblock, Array.getElem?_eq_none_iff.mp hinst⟩

/-- None of these failures is a refusal. -/
theorem bindArgs_not_refusal {index : Nat} {args : List Value} {params : List Ty}
    (h : fr.bindArgs index args params = .error e) : e.isRefusal = false := by
  rcases bindArgs_eq_error h with h | ⟨_, h⟩
  · exact Failure.isRefusal_of_isOrdinary h
  · exact h

theorem current_not_refusal {m : Module} (h : fr.current m = .error e) : e.isRefusal = false := by
  rcases current_eq_error h with h | ⟨h, _⟩
  · exact Failure.isRefusal_of_isOrdinary h
  · exact h

end Frame

end PackedIR
