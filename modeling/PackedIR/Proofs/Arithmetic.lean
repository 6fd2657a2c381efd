/-
Integer operators are the operators of a machine.

An operator reads its operands as numbers, signed or unsigned as its name says and whatever their
type says, computes on integers of 128 bits and writes the low bytes of the result. Writing is a
ring homomorphism from the integers to words, and it does not see the cut to 128 bits, so sums,
differences, products and negation come out as those of words, with one proof for all widths.
Quotients, remainders and right shifts are not ring operations. For these the argument is that the
exact result fits the word again, the quotient of the smallest number by minus one apart, which
wraps around to the smallest number.

The bit-by-bit operators work on bytes and never see a number.
-/
import PackedIR.Proofs.Lenses
import PackedIR.Proofs.Words

set_option autoImplicit false

namespace PackedIR

variable {w : Nat}

/-! ## The operators of a machine -/

/-- What an arithmetic operator computes from words. -/
def ArithOp.onWords (op : ArithOp) (signed : Bool) (x y : BitVec w) : BitVec w :=
  match op, signed with
  | .add, _ => x + y
  | .sub, _ => x - y
  | .mul, _ => x * y
  | .div, false => x / y
  | .div, true => x.sdiv y
  | .mod, false => x % y
  | .mod, true => x.srem y

/-- The operators that have no result for a divisor of zero. -/
def ArithOp.divides : ArithOp → Bool
  | .div | .mod => true
  | _ => false

def BitOp.onWords (op : BitOp) (x y : BitVec w) : BitVec w :=
  match op with
  | .and => x &&& y
  | .or => x ||| y
  | .xor => x ^^^ y

def ShiftOp.onWords (op : ShiftOp) (x : BitVec w) (amount : Nat) : BitVec w :=
  match op with
  | .left => x <<< amount
  | .logicalRight => x >>> amount
  | .arithmeticRight => x.sshiftRight amount

/-! ## Results, written back -/

/-- The cut to 128 bits does not show in a word of at most 128 bits. -/
theorem ofInt_wide (hw : w ≤ 128) (i : Int) : BitVec.ofInt w (wide i) = BitVec.ofInt w i := by
  have hdvd : ((2 ^ w : Nat) : Int) ∣ ((Nat.pow 2 128 : Nat) : Int) :=
    Int.natCast_dvd_natCast.mpr (Nat.pow_dvd_pow 2 hw)
  have hmod : wide i % ((2 ^ w : Nat) : Int) = i % ((2 ^ w : Nat) : Int) := by
    unfold wide
    rw [← Int.emod_emod_of_dvd _ hdvd, Int.bmod_emod, Int.emod_emod_of_dvd _ hdvd]
  apply BitVec.eq_of_toNat_eq
  rw [BitVec.toNat_ofInt, BitVec.toNat_ofInt, hmod]

theorem IsWidth.le (h : IsWidth w) : w ≤ 128 := by
  unfold IsWidth at h
  omega

namespace ArithOp

/-- The result, cut to the width of the operands, is the machine's. -/
theorem evalInt_number (hw : w ≤ 128) (op : ArithOp) (signed : Bool) (x y : BitVec w)
    (hy : op.divides = true → y ≠ 0#w) :
    ∃ i, op.evalInt (number signed x) (number signed y) = .ok i ∧
      BitVec.ofInt w i = op.onWords signed x y := by
  have hdivisor (hdiv : op.divides = true) : number signed y ≠ 0 := by
    rw [Ne, number_eq_zero_iff]
    exact hy hdiv
  cases op with
  | add =>
    refine ⟨_, rfl, ?_⟩
    rw [ofInt_wide hw, BitVec.ofInt_add, ofInt_number, ofInt_number]
    rfl
  | sub =>
    refine ⟨_, rfl, ?_⟩
    rw [ofInt_wide hw, Int.sub_eq_add_neg, BitVec.ofInt_add, BitVec.ofInt_neg, ofInt_number,
      ofInt_number, ← BitVec.sub_eq_add_neg]
    rfl
  | mul =>
    refine ⟨_, rfl, ?_⟩
    rw [ofInt_wide hw, BitVec.ofInt_mul, ofInt_number, ofInt_number]
    rfl
  | div =>
    refine ⟨_, if_neg (hdivisor rfl), ?_⟩
    cases signed with
    | true =>
      -- Both sides are the truncated quotient brought back into the range of the word, which
      -- changes it only when it is the negation of the smallest number.
      apply BitVec.eq_of_toInt_eq
      change (BitVec.ofInt w (x.toInt.tdiv y.toInt)).toInt = (x.sdiv y).toInt
      rw [BitVec.toInt_ofInt, BitVec.toInt_sdiv]
    | false =>
      change BitVec.ofInt w ((x.toNat / y.toNat : Nat) : Int) = x / y
      rw [BitVec.ofInt_natCast, ← BitVec.toNat_udiv, BitVec.ofNat_toNat, BitVec.setWidth_eq]
  | mod =>
    refine ⟨_, if_neg (hdivisor rfl), ?_⟩
    cases signed with
    | true =>
      change BitVec.ofInt w (x.toInt.tmod y.toInt) = x.srem y
      rw [← BitVec.toInt_srem, BitVec.ofInt_toInt]
    | false =>
      change BitVec.ofInt w ((x.toNat % y.toNat : Nat) : Int) = x % y
      rw [BitVec.ofInt_natCast, ← BitVec.toNat_umod, BitVec.ofNat_toNat, BitVec.setWidth_eq]

end ArithOp

/-- A shifted number, cut to the width of the operand, is the machine's shift. -/
theorem ShiftOp.ofInt_evalInt (hw : w ≤ 128) (op : ShiftOp) (x : BitVec w) (amount : Nat) :
    BitVec.ofInt w (op.evalInt (number op.readsSigned x) amount) = op.onWords x amount := by
  cases op with
  | left =>
    have hpow : BitVec.ofInt w ((Nat.pow 2 amount : Nat) : Int) = BitVec.twoPow w amount := by
      rw [BitVec.ofInt_natCast]
      apply BitVec.eq_of_toNat_eq
      rw [BitVec.toNat_twoPow, BitVec.toNat_ofNat]
      rfl
    change BitVec.ofInt w (wide (number false x * (Nat.pow 2 amount : Nat))) = x <<< amount
    rw [ofInt_wide hw, BitVec.ofInt_mul, ofInt_number, hpow, BitVec.shiftLeft_eq_mul_twoPow]
  | logicalRight =>
    change BitVec.ofInt w ((x.toNat / 2 ^ amount : Nat) : Int) = x >>> amount
    rw [BitVec.ofInt_natCast, ← Nat.shiftRight_eq_div_pow, ← BitVec.toNat_ushiftRight,
      BitVec.ofNat_toNat, BitVec.setWidth_eq]
  | arithmeticRight =>
    change BitVec.ofInt w (x.toInt / (2 ^ amount : Nat)) = BitVec.ofInt w (x.toInt >>> amount)
    rw [Int.shiftRight_eq_div_pow]

/-! ## Bit by bit -/

namespace BitOp

/-- What the operator computes from one bit of each operand. -/
def onBits : BitOp → Bool → Bool → Bool
  | .and => Bool.and
  | .or => Bool.or
  | .xor => Bool.xor

theorem testBit_evalByte (op : BitOp) (b c : UInt8) (i : Nat) :
    (op.evalByte b c).toNat.testBit i = op.onBits (b.toNat.testBit i) (c.toNat.testBit i) := by
  cases op <;> simp [evalByte, onBits]

theorem getLsbD_onWords (op : BitOp) (x y : BitVec w) (i : Nat) :
    (op.onWords x y).getLsbD i = op.onBits (x.getLsbD i) (y.getLsbD i) := by
  cases op <;> simp [onWords, onBits]

theorem bits_zipWith (op : BitOp) {bs cs : Bytes} (hlength : bs.length = cs.length)
    (hw : 8 * bs.length = w) :
    Bytes.bits (List.zipWith op.evalByte bs cs) w = op.onWords (bs.bits w) (cs.bits w) := by
  apply Bytes.bits_eq_of_testBit
  intro i hi
  rw [Bytes.testBit_zipWith (fun b c i _ => op.testBit_evalByte b c i) hlength (by omega),
    getLsbD_onWords, Bytes.getLsbD_bits hi, Bytes.getLsbD_bits hi]

end BitOp

theorem Bytes.bits_map_not {bs : Bytes} (hw : 8 * bs.length = w) :
    Bytes.bits (bs.map (~~~ ·)) w = ~~~ bs.bits w := by
  apply bits_eq_of_testBit
  intro i hi
  have hbyte (b c : UInt8) (i : Nat) (hi : i < 8) :
      (~~~ b).toNat.testBit i = !b.toNat.testBit i := by
    change (~~~ b.toBitVec).getLsbD i = !b.toBitVec.getLsbD i
    rw [BitVec.getLsbD_not, decide_eq_true hi, Bool.true_and]
  rw [← List.zipWith_self (f := fun b _ => ~~~ b),
    testBit_zipWith (g := fun b _ => !b) hbyte rfl (by omega), BitVec.getLsbD_not,
    decide_eq_true hi, Bool.true_and, getLsbD_bits hi]

/-! ## Operators on values -/

variable {s s' : Bool} {v l r : Value}

namespace BinaryOp

/-- Operands of one integer type are read as the operator asks, and the result is written back. -/
theorem evalIntArith_eq (hw : IsWidth w) (hl : l.HasTy (.int w s)) (hr : r.HasTy (.int w s))
    (signed : Bool) (op : ArithOp) :
    evalIntArith signed op l r =
      (op.evalInt (number signed (l.bits w)) (number signed (r.bits w))).bind
        (Value.ofInt (.int w s)) := by
  have hty : (Ty.int w s).Holds w s := .int s hw
  unfold evalIntArith
  rw [if_neg (by simp [hl.1, hr.1, Ty.isInteger]), intOperand_eq _ hty hl, intOperand_eq _ hty hr,
    hl.1]
  rfl

theorem evalIntArith_of_divisor (hw : IsWidth w) (hl : l.HasTy (.int w s))
    (hr : r.HasTy (.int w s)) {signed : Bool} {op : ArithOp}
    (hdivisor : op.divides = true → r.bits w ≠ 0#w) :
    evalIntArith signed op l r =
      .ok (.ofBits (.int w s) (op.onWords signed (l.bits w) (r.bits w))) := by
  obtain ⟨i, hi, hword⟩ := op.evalInt_number hw.le signed (l.bits w) (r.bits w) hdivisor
  rw [evalIntArith_eq hw hl hr, hi]
  change Value.ofInt (.int w s) i = _
  rw [Value.ofInt_eq (.int s hw), hword]

theorem evalIntArith_of_zero (hw : IsWidth w) (hl : l.HasTy (.int w s)) (hr : r.HasTy (.int w s))
    {signed : Bool} {op : ArithOp} (hop : op.divides = true) (hzero : r.bits w = 0#w) :
    evalIntArith signed op l r = raise .divisionByZero := by
  have hdivisor : number signed (r.bits w) = 0 := number_eq_zero_iff.mpr hzero
  rw [evalIntArith_eq hw hl hr, hdivisor]
  cases op with
  | div | mod => rfl
  | add | sub | mul => cases hop

theorem evalIntArith_eq_divisionByZero_iff (hw : IsWidth w) (hl : l.HasTy (.int w s))
    (hr : r.HasTy (.int w s)) {signed : Bool} {op : ArithOp} :
    evalIntArith signed op l r = raise .divisionByZero ↔ op.divides = true ∧ r.bits w = 0#w := by
  constructor
  · intro h
    refine Classical.byContradiction fun hne => ?_
    rw [evalIntArith_of_divisor hw hl hr fun hop hzero => hne ⟨hop, hzero⟩] at h
    cases h
  · rintro ⟨hop, hzero⟩
    exact evalIntArith_of_zero hw hl hr hop hzero

theorem evalBitwise_eq (hw : IsWidth w) (hl : l.HasTy (.int w s)) (hr : r.HasTy (.int w s))
    (op : BitOp) :
    evalBitwise op l r = .ok (.ofBits (.int w s) (op.onWords (l.bits w) (r.bits w))) := by
  have hty : (Ty.int w s).Holds w s := .int s hw
  have hlength : l.bytes.length = r.bytes.length := hl.2.trans hr.2.symm
  have hsize : (List.zipWith op.evalByte l.bytes r.bytes).length = (Ty.int w s).size := by
    rw [List.length_zipWith, ← hlength, Nat.min_self]
    exact hl.2
  unfold evalBitwise
  rw [if_neg (by simp [hl.1, hr.1, Ty.isInteger]), hl.1, Value.ofBytes_eq hty hsize,
    op.bits_zipWith hlength (hty.length_bytes hl)]
  rfl

theorem evalShift_eq {w' : Nat} (hw : IsWidth w) (hw' : IsWidth w') (hl : l.HasTy (.int w s))
    (hr : r.HasTy (.int w' s')) (op : ShiftOp) :
    evalShift op l r =
      .ok (.ofBits (.int w s) (op.onWords (l.bits w) ((r.bits w').toNat % w))) := by
  have hty : (Ty.int w s).Holds w s := .int s hw
  have hsize : 8 * l.size = w := hty.length_bytes hl
  have hwidth : shiftWidth l = .ok w := by
    have hpos : l.size ≠ 0 := by
      unfold IsWidth at hw
      omega
    rw [shiftWidth, if_neg hpos, hsize]
  unfold evalShift
  rw [if_neg (by simp [hl.1, hr.1, Ty.isInteger]), intOperand_eq _ (.int s' hw') hr, hwidth,
    intOperand_eq _ hty hl, hl.1]
  change Value.ofInt (.int w s) (op.evalInt _ ((r.bits w').toNat % w)) = _
  rw [Value.ofInt_eq hty, op.ofInt_evalInt hw.le]

/-- Operands that are not of one integer type are refused, whatever they hold. -/
theorem evalIntArith_refused (signed : Bool) (op : ArithOp)
    (h : l.ty.isInteger = false ∨ r.ty.isInteger = false ∨ l.ty ≠ r.ty) :
    evalIntArith signed op l r = unsupported (opcode (.int signed op)) [l, r] := by
  unfold evalIntArith
  refine if_pos ?_
  rcases h with h | h | h
  · exact .inr (by rw [h]; rfl)
  · by_cases heq : l.ty = r.ty
    · exact .inr (by rw [heq, h]; rfl)
    · exact .inl heq
  · exact .inl h

theorem evalShift_refused (op : ShiftOp) (h : l.ty.isInteger = false ∨ r.ty.isInteger = false) :
    evalShift op l r = unsupported (opcode (.shift op)) [l, r] := by
  unfold evalShift
  refine if_pos ?_
  rcases h with h | h
  · rw [h]
    rfl
  · rw [h, Bool.not_false, Bool.or_true]

end BinaryOp

namespace UnaryOp

theorem eval_intNeg (hw : IsWidth w) (hv : v.HasTy (.int w s)) :
    UnaryOp.intNeg.eval v = .ok (.ofBits (.int w s) (-v.bits w)) := by
  have hty : (Ty.int w s).Holds w s := .int s hw
  unfold UnaryOp.eval
  simp only [hv.1]
  rw [intOperand_eq _ hty hv]
  change Value.ofInt (.int w s) (wide (-number true (v.bits w))) = _
  rw [Value.ofInt_eq hty, ofInt_wide hw.le, BitVec.ofInt_neg, ofInt_number]

theorem eval_bitNot (hw : IsWidth w) (hv : v.HasTy (.int w s)) :
    UnaryOp.bitNot.eval v = .ok (.ofBits (.int w s) (~~~ v.bits w)) := by
  have hty : (Ty.int w s).Holds w s := .int s hw
  have hsize : (v.bytes.map (~~~ ·)).length = (Ty.int w s).size := by
    rw [List.length_map]
    exact hv.2
  unfold UnaryOp.eval
  simp only [hv.1]
  rw [Value.ofBytes_eq hty hsize, Bytes.bits_map_not (hty.length_bytes hv)]
  rfl

theorem eval_intNeg_refused (h : v.ty.isInteger = false) :
    UnaryOp.intNeg.eval v = unsupported (.unary .intNeg) [v] := by
  unfold UnaryOp.eval
  cases hty : v.ty with
  | int => simp [hty, Ty.isInteger] at h
  | _ => rfl

end UnaryOp

/-! ## Instructions -/

/-- The three-way comparisons, whose results are rebuilt in the declared type. -/
def BinaryOp.isOrder : BinaryOp → Bool
  | .intOrder | .floatOrder => true
  | _ => false

/-- The instruction applies an operator. In `s` its operands evaluate, up to the state `t`, and then
it has nothing left to do but to give this result. -/
inductive Applies (p : Program) (s : State) : Instruction → Result Value → State → Prop where
  | unary {op : UnaryOp} {o : Operand} {v : Value} {t : State} (result : Option Local)
      (operand : Exec.operand p o s = .ok v t) : Applies p s ⟨.unary op, [o], result⟩ (op.eval v) t
  | binary {op : BinaryOp} {a b : Operand} {l r : Value} {t u : State} (result : Option Local)
      (plain : op.isOrder = false) (left : Exec.operand p a s = .ok l t)
      (right : Exec.operand p b t = .ok r u) :
      Applies p s ⟨.binary op, [a, b], result⟩ (op.eval l r) u
  | cast {op : CastOp} {o : Operand} {v : Value} {target : Ty} {t : State} (result : Option Local)
      (operand : Exec.operand p o s = .ok v t) :
      Applies p s ⟨.cast op, [o, .type target], result⟩ (op.eval v target) t

/-- What an instruction makes of the result of its operator. -/
def BinaryOp.rebuilt (op : BinaryOp) (f : Function) (inst : Instruction) (v : Value) :
    Result Value :=
  if op.isOrder then do
    let decl ← resultDecl f inst
    Value.ofInt decl.ty (v.asInt?.getD (-1))
  else .ok v

/-- What is left to do when a binary operator has evaluated its operands. -/
theorem Exec.execute_binary {p : Program} {f : Function} {a b : Operand} {l r : Value}
    {s t u : State} {result : Option Local} (op : BinaryOp) (hl : operand p a s = .ok l t)
    (hr : operand p b t = .ok r u) : execute p f ⟨.binary op, [a, b], result⟩ s =
      finished (op.eval l r >>= op.rebuilt f ⟨.binary op, [a, b], result⟩) u := by
  have hbinary : binary p f ⟨.binary op, [a, b], result⟩ op s = (liftM (op.eval l r >>=
      op.rebuilt f ⟨.binary op, [a, b], result⟩) : Exec Value) u := by
    refine (bind_of_ok hl).trans ((bind_of_ok hr).trans ?_)
    cases heval : op.eval l r with
    | error e => rfl
    | ok v =>
      -- Only the three-way comparisons look at the declaration of the result.
      cases op with
      | intOrder | floatOrder =>
        change (do
          let decl ← resultDecl f _
          Value.ofInt decl.ty (v.asInt?.getD (-1)) : Exec Value) u = (liftM (do
            let decl ← resultDecl f _
            Value.ofInt decl.ty (v.asInt?.getD (-1)) : Result Value) : Exec Value) u
        cases resultDecl f _ <;> rfl
      | _ => rfl
  change (do return .complete (some (← binary p f _ op)) : Exec Flow) s = _
  rw [bind_apply, hbinary]
  cases (op.eval l r >>= op.rebuilt f ⟨.binary op, [a, b], result⟩) <;> rfl

/-- Instructions compute what their operators do. -/
theorem Applies.execute_eq {p : Program} {s t : State} {inst : Instruction} {x : Result Value}
    (h : Applies p s inst x t) (f : Function) : Exec.execute p f inst s = Exec.finished x t := by
  cases h with
  | @unary op o v _ result ho =>
    change (do return .complete (some (← (do op.eval (← Exec.operand p o) : Exec Value))) :
      Exec Flow) s = _
    rw [bind_assoc, Exec.bind_of_ok ho, Exec.bind_apply]
    cases op.eval v <;> rfl
  | @cast op o v target _ result ho =>
    change (do return .complete (some (← (do op.eval (← Exec.operand p o) target : Exec Value))) :
      Exec Flow) s = _
    rw [bind_assoc, Exec.bind_of_ok ho, Exec.bind_apply]
    cases op.eval v target <;> rfl
  | @binary op a b l r u t result plain hl hr =>
    have hrebuilt : op.rebuilt f ⟨.binary op, [a, b], result⟩ = .ok := by
      funext v
      exact if_neg (by rw [plain]; decide)
    rw [Exec.execute_binary op hl hr, hrebuilt]
    cases op.eval l r <;> rfl

/-! ## The integer operators -/

/-- On integers of `w` bits the operators are those of a machine with such words, whether the type
counts as signed or not. -/
structure MachineOperators (w : Nat) (s : Bool) : Prop where
  /-- Sums, differences and products wrap around; quotients and remainders are those of unsigned
  numbers, or truncating ones of signed numbers, as the operator says. -/
  arith : ∀ (l r : Value) (signed : Bool) (op : ArithOp), l.HasTy (.int w s) → r.HasTy (.int w s) →
    (op.divides = true → r.bits w ≠ 0#w) → (Opcode.binary (.int signed op)).evalBinary l r =
      .ok (.ofBits (.int w s) (op.onWords signed (l.bits w) (r.bits w)))
  divisionByZero : ∀ (l r : Value) (signed : Bool) (op : ArithOp), l.HasTy (.int w s) →
    r.HasTy (.int w s) → ((Opcode.binary (.int signed op)).evalBinary l r = raise .divisionByZero ↔
      op.divides = true ∧ r.bits w = 0#w)
  /-- The one quotient that does not fit wraps around. -/
  overflow : ∀ l r : Value, l.HasTy (.int w s) → r.HasTy (.int w s) →
    l.bits w = BitVec.intMin w → r.bits w = -1#w →
    (Opcode.binary (.int true .div)).evalBinary l r = .ok (.ofBits (.int w s) (BitVec.intMin w)) ∧
    (Opcode.binary (.int true .mod)).evalBinary l r = .ok (.ofBits (.int w s) 0#w)
  neg : ∀ v : Value, v.HasTy (.int w s) →
    (Opcode.unary .intNeg).evalUnary v = .ok (.ofBits (.int w s) (-v.bits w))
  not : ∀ v : Value, v.HasTy (.int w s) →
    (Opcode.unary .bitNot).evalUnary v = .ok (.ofBits (.int w s) (~~~ v.bits w))
  bitwise : ∀ (l r : Value) (op : BitOp), l.HasTy (.int w s) → r.HasTy (.int w s) →
    (Opcode.binary (.bitwise op)).evalBinary l r =
      .ok (.ofBits (.int w s) (op.onWords (l.bits w) (r.bits w)))
  /-- The amount is unsigned, of any integer type, and counts modulo the width. -/
  shift : ∀ (l r : Value) (op : ShiftOp) (w' : Nat) (s' : Bool), IsWidth w' →
    l.HasTy (.int w s) → r.HasTy (.int w' s') → (Opcode.binary (.shift op)).evalBinary l r =
      .ok (.ofBits (.int w s) (op.onWords (l.bits w) ((r.bits w').toNat % w)))

theorem machineOperators (hw : IsWidth w) (s : Bool) : MachineOperators w s where
  arith _ _ _ _ hl hr hdivisor := BinaryOp.evalIntArith_of_divisor hw hl hr hdivisor
  divisionByZero _ _ _ _ hl hr := BinaryOp.evalIntArith_eq_divisionByZero_iff hw hl hr
  overflow l r hl hr hmin hminus := by
    have hne : r.bits w ≠ 0#w := by
      rw [hminus]
      rcases hw with rfl | rfl | rfl | rfl <;> decide
    constructor
    · change BinaryOp.evalIntArith true .div l r = _
      rw [BinaryOp.evalIntArith_of_divisor hw hl hr fun _ => hne, hmin, hminus]
      change Except.ok (Value.ofBits _ ((BitVec.intMin w).sdiv (-1#w))) = _
      rw [BitVec.intMin_sdiv_neg_one]
    · change BinaryOp.evalIntArith true .mod l r = _
      rw [BinaryOp.evalIntArith_of_divisor hw hl hr fun _ => hne, hmin, hminus]
      change Except.ok (Value.ofBits _ ((BitVec.intMin w).srem (-1#w))) = _
      rcases hw with rfl | rfl | rfl | rfl <;> rfl
  neg _ hv := UnaryOp.eval_intNeg hw hv
  not _ hv := UnaryOp.eval_bitNot hw hv
  bitwise _ _ op hl hr := BinaryOp.evalBitwise_eq hw hl hr op
  shift _ _ op _ _ hw' hl hr := BinaryOp.evalShift_eq hw hw' hl hr op

/-- The binary operators of integers whose result is of the type of the left operand. -/
def BinaryOp.isIntOp : BinaryOp → Bool
  | .int .. | .bitwise _ | .shift _ => true
  | _ => false

/-- Integer operators are those of a two's complement machine, for all widths of integers. They
refuse operands of other types, give a result of the left operand's type, and are what the
instructions compute. -/
theorem integer_operators_compute_on_words :
    (∀ w s, IsWidth w → MachineOperators w s) ∧
    (∀ (l r : Value) (signed : Bool) (op : ArithOp),
      l.ty.isInteger = false ∨ r.ty.isInteger = false ∨ l.ty ≠ r.ty →
      (Opcode.binary (.int signed op)).evalBinary l r =
        raise (.unsupportedTypes (.opcode (.binary (.int signed op))) (.given [l.ty, r.ty]))) ∧
    (∀ v : Value, v.ty.isInteger = false → (Opcode.unary .intNeg).evalUnary v =
      raise (.unsupportedTypes (.opcode (.unary .intNeg)) (.given [v.ty]))) ∧
    (∀ (l r : Value) (op : ShiftOp), l.ty.isInteger = false ∨ r.ty.isInteger = false →
      (Opcode.binary (.shift op)).evalBinary l r =
        raise (.unsupportedTypes (.opcode (.binary (.shift op))) (.given [l.ty, r.ty]))) ∧
    (∀ (l r v : Value) (op : BinaryOp), op.isIntOp = true →
      (Opcode.binary op).evalBinary l r = .ok v → v.HasTy l.ty) ∧
    (∀ (v v' : Value) (op : UnaryOp), (Opcode.unary op).evalUnary v = .ok v' → v'.HasTy v.ty) ∧
    ∀ (p : Program) (s : State) (inst : Instruction) (x : Result Value) (t : State),
      Applies p s inst x t → ∀ f, Exec.execute p f inst s = Exec.finished x t := by
  refine ⟨fun w s hw => machineOperators hw s,
    fun l r signed op h => BinaryOp.evalIntArith_refused signed op h,
    fun v h => UnaryOp.eval_intNeg_refused h, fun l r op h => BinaryOp.evalShift_refused op h,
    fun l r v op hop h => ?_, fun v v' op h => UnaryOp.hasTy_of_eval h,
    fun p s inst x t h f => h.execute_eq f⟩
  have hv : v.HasTy (op.resultTy l.ty) := BinaryOp.hasTy_of_eval h
  cases op with
  | int | bitwise | shift => exact hv
  | _ => cases hop

/-- Bytes at the edges: -128 divided by -1, signed and unsigned, by zero, shifted by nine, and added
to an unsigned byte. -/
theorem integer_operators_compute_on_words_bytes :
    let l : Value := { ty := Ty.i8, bytes := [0x80] }
    let r : Value := { ty := Ty.i8, bytes := [0xFF] }
    let zero : Value := { ty := Ty.i8, bytes := [0] }
    (Opcode.binary (.int true .div)).evalBinary l r = .ok l ∧
    (Opcode.binary (.int true .mod)).evalBinary l r = .ok zero ∧
    (Opcode.binary (.int false .div)).evalBinary l r = .ok zero ∧
    (Opcode.binary (.int true .div)).evalBinary l zero = raise .divisionByZero ∧
    (Opcode.binary (.shift .arithmeticRight)).evalBinary l
        { ty := Ty.u64, bytes := [9, 0, 0, 0, 0, 0, 0, 0] } =
      .ok { ty := Ty.i8, bytes := [0xC0] } ∧
    (Opcode.binary (.int true .add)).evalBinary l { ty := Ty.u8, bytes := [1] } =
      raise (.unsupportedTypes (.opcode (.binary (.int true .add))) (.given [Ty.i8, Ty.u8])) := by
  obtain ⟨hmachine, hrefused, _⟩ := integer_operators_compute_on_words
  have hbytes := hmachine 8 true (by decide)
  intro l r zero
  have hl : l.HasTy Ty.i8 := ⟨rfl, rfl⟩
  have hr : r.HasTy Ty.i8 := ⟨rfl, rfl⟩
  have hzero : zero.HasTy Ty.i8 := ⟨rfl, rfl⟩
  obtain ⟨hdiv, hmod⟩ := hbytes.overflow l r hl hr (by decide) (by decide)
  refine ⟨hdiv, hmod, ?_, ?_, ?_, ?_⟩
  · have hword : ArithOp.div.onWords false (l.bits 8) (r.bits 8) = 0#8 := by decide
    have hquotient := hbytes.arith l r false .div hl hr (fun _ => by decide)
    rwa [hword] at hquotient
  · exact (hbytes.divisionByZero l zero true .div hl hzero).mpr ⟨rfl, by decide⟩
  · exact hbytes.shift l _ .arithmeticRight 64 false (by decide) hl ⟨rfl, rfl⟩
  · exact hrefused l _ true .add (.inr (.inr (by decide)))

end PackedIR
