/-
What native code gets, and what it gives back.

Three classifications meet in a call of native code: the category of a type, the scalar that a value
becomes, and the category of that scalar, which decides the C type. They agree: a scalar has the
category of the value's type, after the default promotions if it stands past the fixed parameters,
and this category always has a C type. In between, the value is read as a number and the number is
reduced to the range of the C type. Nothing is lost there, because the C type is never narrower
than the value, and signed only where the value is signed or strictly narrower.
-/
import PackedIR.Proofs.Conversions
import PackedIR.Proofs.NativeInterface
import PackedIR.Proofs.Simulation
import PackedIR.Proofs.Widening

set_option autoImplicit false

namespace PackedIR

/-! ## Categories -/

/-- The types whose values can be passed to native code. -/
def Ty.isPassable : Ty → Bool
  | .bool | .pointer .. | .function .. | .float _ => true
  | .int bits _ => Value.isIntSize (bits / 8)
  | _ => false

/-- The default promotions: an integer narrower than an `int` becomes an `int`, and a `float`
becomes a `double`. -/
def AbiClass.promote : AbiClass → AbiClass
  | .int size signed => if size < 4 then .int 4 true else .int size signed
  | .float _ => .float .f64
  | .void => .void

/-- The category under which an argument is passed. -/
def AbiClass.passed (promoted : Bool) (c : AbiClass) : AbiClass :=
  if promoted then c.promote else c

/-- The category of an integer-like type is signed if the type is. -/
theorem AbiClass.signed_of_ofTy {ty : Ty} {size : Nat} {signed : Bool}
    (h : AbiClass.ofTy ty = .ok (.int size signed)) : signed = ty.isSigned := by
  cases ty with
  | bool | int | pointer | function =>
    cases h
    rfl
  | _ => simp [AbiClass.ofTy] at h

/-- Values of an integer-like type can be passed if they can be read. -/
theorem AbiClass.isPassable_of_ofTy {ty : Ty} {size : Nat} {signed : Bool}
    (h : AbiClass.ofTy ty = .ok (.int size signed)) :
    ty.isPassable = Value.isIntSize ty.size := by
  cases ty with
  | bool | int | pointer | function => simp only [Ty.isPassable, Ty.size] <;> rfl
  | _ => simp [AbiClass.ofTy] at h

/-! ## Numbers -/

/-- Reducing an integer to a C type gives the number of its word. -/
theorem wrapInt_eq (size : Nat) (signed : Bool) (i : Int) :
    wrapInt size signed i = number signed (BitVec.ofInt (8 * size) i) := by
  have hlength : 8 * (Bytes.ofInt size i).length = 8 * size := by rw [Bytes.length_ofInt]
  unfold wrapInt number
  rw [← Bytes.toInt_bits hlength, ← Bytes.toNat_bits hlength, Bytes.ofInt_eq rfl,
    Bytes.bits_ofNat rfl]

theorem wrapInt_of_inRange {size : Nat} {signed : Bool} {i : Int} (hsize : 0 < size)
    (h : InRange (8 * size) signed i) : wrapInt size signed i = i := by
  rw [wrapInt_eq, number_ofInt (by omega) h]

/-- Strictly wider signed words denote all numbers that narrower words denote. -/
theorem InRange.signed {w w' : Nat} {signed : Bool} {i : Int} (hlt : w < w')
    (h : InRange w signed i) : InRange w' true i := by
  cases signed with
  | true => exact h.mono hlt.le
  | false =>
    have hpow : (2 : Int) ^ w ≤ 2 ^ (w' - 1) := by
      exact_mod_cast Nat.pow_le_pow_right Nat.zero_lt_two (Nat.le_sub_one_of_lt hlt)
    have hnonneg : (0 : Int) ≤ 2 ^ (w' - 1) := by positivity
    obtain ⟨hlow, hhigh⟩ := h
    exact ⟨by omega, by omega⟩

/-- What is read from a value is in the range of its size. -/
theorem Value.inRange_of_toInt? {v : Value} {signed : Bool} {i : Int}
    (h : v.toInt? signed = some i) : InRange (8 * v.size) signed i := by
  unfold toInt? at h
  split at h
  · cases h
    rw [← Bytes.toInt_bits rfl, ← Bytes.toNat_bits rfl]
    exact inRange_number signed (v.bytes.bits (8 * v.size))
  · cases h

theorem Value.toInt?_eq_none_iff {v : Value} {signed : Bool} :
    v.toInt? signed = none ↔ isIntSize v.size = false := by
  unfold toInt?
  split <;> simp_all

/-- An integer goes over as itself, under the category that the promotions give. -/
theorem Scalar.ofInt_eq {size : Nat} {signed : Bool} {i : Int} (promoted : Bool)
    (hsize : Value.isIntSize size = true) (hi : InRange (8 * size) signed i) :
    ∃ size' signed', Scalar.ofInt size signed promoted i = .int size' signed' i ∧
      AbiClass.int size' signed' = (AbiClass.int size signed).passed promoted ∧
      Value.isIntSize size' = true ∧ InRange (8 * size') signed' i := by
  have hown : wrapInt size signed i = i := by
    apply wrapInt_of_inRange _ hi
    simp only [Value.isIntSize, Bool.or_eq_true, beq_iff_eq] at hsize
    omega
  cases promoted with
  | false =>
    refine ⟨size, signed, ?_, rfl, hsize, hi⟩
    simp only [Value.isIntSize, Bool.or_eq_true, beq_iff_eq] at hsize
    rcases hsize with ((rfl | rfl) | rfl) | rfl <;> simpa [Scalar.ofInt] using hown
  | true =>
    by_cases hnarrow : size < 4
    · have hwide : InRange (8 * 4) true i := hi.signed (by omega)
      refine ⟨4, true, ?_, ?_, rfl, hwide⟩
      · simp only [Value.isIntSize, Bool.or_eq_true, beq_iff_eq] at hsize
        have hcases : size = 1 ∨ size = 2 := by omega
        rcases hcases with rfl | rfl <;>
          simpa [Scalar.ofInt] using wrapInt_of_inRange (by omega) hwide
      · simp [AbiClass.passed, AbiClass.promote, hnarrow]
    · refine ⟨size, signed, ?_, ?_, hsize, hi⟩
      · simp only [Value.isIntSize, Bool.or_eq_true, beq_iff_eq] at hsize
        have hcases : size = 4 ∨ size = 8 := by omega
        rcases hcases with rfl | rfl <;> simpa [Scalar.ofInt] using hown
      · simp [AbiClass.passed, AbiClass.promote, hnarrow]

/-! ## Arguments -/

/-- The scalar is the number that a value is read as: an integer by the signedness of the type, and
in the range of its own C type; a floating-point number by its pattern, which only changes if the
width does. -/
def Scalar.Denotes (v : Value) : Scalar → Prop
  | .int size signed i => v.asInt? = some i ∧ InRange (8 * size) signed i
  | .float width bits => ∃ own pattern, v.ty = .float own ∧ v.floatBits? own = some pattern ∧
      (own.format.decode pattern).Same (width.format.decode bits) ∧ (own = width → bits = pattern)

/-- An argument has become this scalar. -/
structure PassedAs (v : Value) (promoted : Bool) (scalar : Scalar) : Prop where
  category : ∃ own, AbiClass.ofTy v.ty = .ok own ∧ scalar.abiClass = own.passed promoted
  typed : scalar.abiClass.check = .ok ()
  number : scalar.Denotes v

theorem Scalar.ofValue_float {v : Value} {width : FloatWidth} (hv : v.size = v.ty.size)
    (hty : v.ty = .float width) (promoted : Bool) :
    ∃ scalar, Scalar.ofValue v promoted = .ok scalar ∧ PassedAs v promoted scalar := by
  have hread : v.floatBits? width = some (Bytes.toNat v.bytes) := by
    rw [Value.floatBits?, if_pos (hty ▸ hv)]
  have hclass : AbiClass.ofTy v.ty = .ok (.float width) := by
    rw [hty]
    rfl
  unfold Scalar.ofValue
  simp only [hclass, bind, Except.bind, hread]
  cases promoted with
  | false =>
    refine ⟨_, rfl, ⟨_, hclass, rfl⟩, rfl, ?_⟩
    exact ⟨width, _, hty, hread, .refl _, fun _ => rfl⟩
  | true =>
    refine ⟨_, rfl, ⟨_, hclass, rfl⟩, rfl, width, _, hty, hread, ?_, ?_⟩
    · cases width with
      | f32 => exact Binary.convert_single_double _
      | f64 => exact .refl _
    · rintro rfl
      rfl

theorem Scalar.ofValue_int {v : Value} {size : Nat} {signed : Bool} (hv : v.size = v.ty.size)
    (hclass : AbiClass.ofTy v.ty = .ok (.int size signed)) (hpass : v.ty.isPassable = true)
    (promoted : Bool) :
    ∃ scalar, Scalar.ofValue v promoted = .ok scalar ∧ PassedAs v promoted scalar := by
  have hsize := AbiClass.size_of_ofTy hclass
  have hsigned := AbiClass.signed_of_ofTy hclass
  rw [AbiClass.isPassable_of_ofTy hclass] at hpass
  cases hread : v.toInt? signed with
  | none =>
    rw [Value.toInt?_eq_none_iff, hv, hpass] at hread
    cases hread
  | some i =>
    have hi := Value.inRange_of_toInt? hread
    rw [hv, ← hsize] at hi
    obtain ⟨size', signed', hof, hclass', hsize', hi'⟩ :=
      Scalar.ofInt_eq promoted (hsize ▸ hpass) hi
    refine ⟨.int size' signed' i, ?_, ⟨_, hclass, hclass'⟩, if_pos hsize', ?_, hi'⟩
    · unfold Scalar.ofValue
      simp only [hclass, bind, Except.bind, hread, hof]
      rfl
    · rw [Value.asInt?, ← hsigned, hread]

/-- A value of a type that can be passed is passed. -/
theorem Scalar.ofValue_of_isPassable {v : Value} (hv : v.size = v.ty.size)
    (h : v.ty.isPassable = true) (promoted : Bool) :
    ∃ scalar, Scalar.ofValue v promoted = .ok scalar ∧ PassedAs v promoted scalar := by
  cases hty : v.ty with
  | bool | int | pointer | function =>
    exact Scalar.ofValue_int hv (by rw [hty, AbiClass.ofTy]) h promoted
  | float width => exact Scalar.ofValue_float hv hty promoted
  | _ => simp [hty, Ty.isPassable] at h

/-- Why a value is refused: an integer for its size, all others for their type. -/
def Value.refusal (v : Value) : Error :=
  if v.ty.isInteger then .sizeMismatch v.ty.size v.size else .unsupportedAbi (.type v.ty)

theorem Scalar.ofValue_of_not_isPassable {v : Value} (hv : v.size = v.ty.size)
    (h : v.ty.isPassable = false) (promoted : Bool) :
    Scalar.ofValue v promoted = raise v.refusal := by
  cases hty : v.ty with
  | bool | pointer | function | float => simp [hty, Ty.isPassable] at h
  | int bits signed =>
    have hread : v.toInt? signed = none := by
      rw [Value.toInt?_eq_none_iff, hv, hty, Ty.size]
      simpa [hty, Ty.isPassable] using h
    unfold Scalar.ofValue Value.refusal
    simp only [hty, AbiClass.ofTy, bind, Except.bind, hread, Ty.isInteger, if_true]
  | _ =>
    unfold Scalar.ofValue Value.refusal
    simp only [hty, AbiClass.ofTy, bind, Except.bind, Ty.isInteger, raise, Bool.false_eq_true,
      if_false]

/-! ## Calls -/

theorem AbiClass.checked_of_isPassable {ty : Ty} (h : ty = .void ∨ ty.isPassable = true) :
    ∃ c, AbiClass.ofTy ty = .ok c ∧ c.check = .ok () := by
  cases ty with
  | void | float => exact ⟨_, rfl, rfl⟩
  | int bits signed =>
    have hsize : Value.isIntSize (bits / 8) = true := by simpa [Ty.isPassable] using h
    exact ⟨_, rfl, if_pos hsize⟩
  | bool | pointer | function => exact ⟨_, rfl, rfl⟩
  | _ => simp [Ty.isPassable] at h

/-- A list of arguments is passed exactly if each of them can be. -/
theorem exists_marshal_iff {args : List Value} (hargs : ∀ v ∈ args, v.size = v.ty.size)
    (fixed index : Nat) :
    (∃ scalars, marshal fixed index args = .ok scalars) ↔ ∀ v ∈ args, v.ty.isPassable = true := by
  induction args generalizing index with
  | nil => simp [marshal]
  | cons v args ih =>
    have hrest := ih (fun w hw => hargs w (List.mem_cons_of_mem _ hw)) (index + 1)
    rw [List.forall_mem_cons, ← hrest]
    cases hpass : v.ty.isPassable with
    | false =>
      have hrefused := Scalar.ofValue_of_not_isPassable (hargs v List.mem_cons_self) hpass
        (decide (fixed ≤ index))
      simp [marshal, hrefused, raise, bind, Except.bind]
    | true =>
      obtain ⟨scalar, hscalar, _⟩ := Scalar.ofValue_of_isPassable (hargs v List.mem_cons_self)
        hpass (decide (fixed ≤ index))
      simp only [marshal, except_bind_eq_ok_iff, hscalar]
      constructor
      · rintro ⟨_, _, _, scalars, hscalars, _⟩
        exact ⟨trivial, scalars, hscalars⟩
      · rintro ⟨_, scalars, hscalars⟩
        exact ⟨_, scalar, rfl, scalars, hscalars, rfl⟩

/-- What a call of native code passes and what it makes of the registers. -/
structure NativeCall (callee : Callee) (args : List Value) (scalars : List Scalar)
    (returned : Returned) (result : Value) : Prop where
  count : scalars.length = args.length
  /-- The arguments from the number of fixed parameters on are promoted, and no other. -/
  passed : ∀ i v, args[i]? = some v →
    ∃ scalar, scalars[i]? = some scalar ∧ PassedAs v (decide (callee.fixed ≤ i)) scalar
  typed : result.HasTy callee.ret
  /-- An integer is the low bytes of its register, whatever the others hold. -/
  integer : ∀ size signed, AbiClass.ofTy callee.ret = .ok (.int size signed) →
    Bytes.toNat result.bytes = returned.integer % 2 ^ (8 * callee.ret.size)
  vector : ∀ width, AbiClass.ofTy callee.ret = .ok (.float width) →
    Bytes.toNat result.bytes = returned.vector % 2 ^ (8 * callee.ret.size)

/-- A call whose parts are all in order is ready. -/
theorem Callee.prepare_eq {callee : Callee} {host : Host} {args : List Value} {c : AbiClass}
    {scalars : List Scalar} {code : NativeCode} (hret : AbiClass.ofTy callee.ret = .ok c)
    (hscalars : marshal callee.fixed 0 args = .ok scalars) (hnull : callee.address ≠ 0)
    (hcheck : c.check = .ok ()) (hcode : host callee.address = some code) :
    callee.prepare host args = .ok ⟨code, scalars, c⟩ := by
  unfold prepare
  simp only [hret, hscalars, if_neg hnull, hcheck, hcode, bind, Except.bind]
  rfl

/-- The registers hold a value of every type that can be returned. -/
theorem Returned.value_eq {ret : Ty} {c : AbiClass} (hret : AbiClass.ofTy ret = .ok c)
    (r : Returned) : ∃ result, r.value ret c = .ok result ∧ result.HasTy ret ∧
      (∀ size signed, c = .int size signed →
        Bytes.toNat result.bytes = r.integer % 2 ^ (8 * ret.size)) ∧
      ∀ width, c = .float width → Bytes.toNat result.bytes = r.vector % 2 ^ (8 * ret.size) := by
  cases c with
  | void => exact ⟨_, rfl, ⟨rfl, List.length_replicate⟩, by simp, by simp⟩
  | int size signed =>
    obtain rfl := AbiClass.size_of_ofTy hret
    refine ⟨⟨ret, .intermediate, Bytes.ofNat ret.size r.integer⟩, ?_,
      ⟨rfl, Bytes.length_ofNat _ _⟩, fun _ _ _ => ?_, by simp⟩
    · exact Value.ofBytes_eq_ok_iff.mpr ⟨(Bytes.length_ofNat _ _).symm, rfl⟩
    · rw [Bytes.toNat_ofNat, Bytes.pow_eq]
  | float width =>
    have hty : ret = .float width := by
      cases ret with
      | float => simpa [AbiClass.ofTy] using hret
      | _ => simp [AbiClass.ofTy] at hret
    subst hty
    refine ⟨⟨.float width, .intermediate, Bytes.ofNat (Ty.float width).size r.vector⟩, ?_,
      ⟨rfl, Bytes.length_ofNat _ _⟩, by simp, fun _ _ => ?_⟩
    · exact Value.ofBytes_eq_ok_iff.mpr ⟨(Bytes.length_ofNat _ _).symm, rfl⟩
    · rw [Bytes.toNat_ofNat, Bytes.pow_eq]

/-- Native code that is ready runs, and its result is read from the registers. -/
theorem Exec.callNative_of_prepare {p : Program} {s : State} {callee : Callee} {args : List Value}
    {call : ForeignCall} {v : Value} (h : callee.prepare p.host args = .ok call)
    (hv : (call.code call.args s.memory.arena).1.value callee.ret call.retClass = .ok v) :
    callNative p callee args s = .ok v
      { s with memory := { s.memory with arena := (call.code call.args s.memory.arena).2 } } := by
  rw [Exec.callNative_eq, h]
  exact lift_eq_ok_iff.mpr ⟨hv, rfl⟩

theorem Exec.callNative_of_isPassable {p : Program} {callee : Callee} {args : List Value}
    {code : NativeCode} (hargs : ∀ v ∈ args, v.size = v.ty.size)
    (hpass : ∀ v ∈ args, v.ty.isPassable = true)
    (hret : callee.ret = .void ∨ callee.ret.isPassable = true) (hnull : callee.address ≠ 0)
    (hcode : p.host callee.address = some code) (s : State) :
    ∃ scalars result, NativeCall callee args scalars (code scalars s.memory.arena).1 result ∧
      callNative p callee args s = .ok result
        { s with memory := { s.memory with arena := (code scalars s.memory.arena).2 } } := by
  obtain ⟨c, hclass, hcheck⟩ := AbiClass.checked_of_isPassable hret
  obtain ⟨scalars, hscalars⟩ := (exists_marshal_iff hargs callee.fixed 0).mpr hpass
  obtain ⟨hlength, hpassed⟩ := marshal_eq_ok hscalars
  obtain ⟨result, hresult, hty, hinteger, hvector⟩ :=
    Returned.value_eq hclass (code scalars s.memory.arena).1
  refine ⟨scalars, result, ⟨hlength, fun i v hv => ?_, hty, fun size signed h => ?_,
    fun width h => ?_⟩, ?_⟩
  · obtain ⟨scalar, hget, hof⟩ := hpassed i v hv
    have hmem := List.mem_of_getElem? hv
    obtain ⟨scalar', hof', hpassedAs⟩ :=
      Scalar.ofValue_of_isPassable (hargs v hmem) (hpass v hmem) (decide (callee.fixed ≤ i))
    rw [Nat.zero_add, hof'] at hof
    cases hof
    exact ⟨_, hget, hpassedAs⟩
  · rw [hclass] at h
    cases h
    exact hinteger _ _ rfl
  · rw [hclass] at h
    cases h
    exact hvector _ rfl
  · exact callNative_of_prepare (Callee.prepare_eq hclass hscalars hnull hcheck hcode) hresult

/-- Passing values to native code keeps what they are, and follows the default promotions. A value
that fills its type is passed exactly if the type is `bool`, an integer of 1, 2, 4 or 8 bytes, a
pointer, a function or a floating-point number; other integers are refused for their size and all
other values for their type. The scalar that is passed has the category of the type, promoted if the
argument stands past the fixed parameters; this category has a C type, and the scalar is the number
that the value is read as. In a whole call exactly the arguments past the fixed parameters are
promoted, and an integer that is returned is the low bytes of its register. -/
theorem marshalling_keeps_values :
    (∀ (v : Value) (promoted : Bool), v.size = v.ty.size →
      ((∃ scalar, Scalar.ofValue v promoted = .ok scalar) ↔ v.ty.isPassable = true) ∧
      (v.ty.isPassable = false → Scalar.ofValue v promoted = raise v.refusal) ∧
      ∀ scalar, Scalar.ofValue v promoted = .ok scalar → PassedAs v promoted scalar) ∧
    ∀ (p : Program) (callee : Callee) (args : List Value) (code : NativeCode) (s : State),
      (∀ v ∈ args, v.size = v.ty.size) →
      ((∃ scalars, marshal callee.fixed 0 args = .ok scalars) ↔
        ∀ v ∈ args, v.ty.isPassable = true) ∧
      ((∀ v ∈ args, v.ty.isPassable = true) →
        callee.ret = .void ∨ callee.ret.isPassable = true → callee.address ≠ 0 →
        p.host callee.address = some code →
          ∃ scalars result, NativeCall callee args scalars (code scalars s.memory.arena).1 result ∧
            Exec.callNative p callee args s = .ok result
              { s with memory := { s.memory with arena := (code scalars s.memory.arena).2 } }) := by
  constructor
  · intro v promoted hv
    cases hpass : v.ty.isPassable with
    | false =>
      have hrefused := Scalar.ofValue_of_not_isPassable hv hpass promoted
      exact ⟨by simp [hrefused, raise], fun _ => hrefused, by simp [hrefused, raise]⟩
    | true =>
      obtain ⟨scalar, hof, hpassed⟩ := Scalar.ofValue_of_isPassable hv hpass promoted
      refine ⟨iff_of_true ⟨scalar, hof⟩ rfl, by simp, fun scalar' hof' => ?_⟩
      rw [hof] at hof'
      cases hof'
      exact hpassed
  · intro p callee args code s hargs
    exact ⟨exists_marshal_iff hargs callee.fixed 0, fun hpass hret hnull hcode =>
      Exec.callNative_of_isPassable hargs hpass hret hnull hcode s⟩

/-! ## Narrow arguments past the fixed parameter -/

namespace Promoting

def program : Program where
  module := { name := "promoting" }

/-- Adds up its arguments, each times its position. The first one says how many there are. -/
def callee : Callee := ⟨Native.vaSumI32.address, Ty.i32, 1⟩

/-- A byte with the sign bit set. -/
def negative : Value := { ty := Ty.i8, bytes := [255] }

/-- Two bytes with the top bit set, which is no sign. -/
def large : Value := { ty := .int 16 false, bytes := [255, 255] }

def args : List Value := [{ ty := Ty.i32, bytes := [3, 0, 0, 0] }, negative, large, .ofBool true]

/-- An integer of three bytes. -/
def odd : Value := { ty := .int 24 true, bytes := [1, 2, 3] }

theorem callNative_eq : ∃ t, Exec.callNative program callee args {} =
    .ok { ty := Ty.i32, bytes := [0, 0, 2, 0] } t :=
  ⟨_, Exec.eq_ok_of_result? (by decide +kernel)⟩

end Promoting

/-- A negative byte stays negative and a large half word stays positive when they are promoted, so
the sum is `1 * (-1) + 2 * 65535 + 3 * 1`. An integer of three bytes is refused. -/
theorem marshalling_keeps_values_promoting :
    (∀ v ∈ Promoting.args, v.size = v.ty.size) ∧
    (∀ v ∈ Promoting.args, v.ty.isPassable = true) ∧
    PassedAs Promoting.negative true (.int 4 true (-1)) ∧
    PassedAs Promoting.large true (.int 4 true 65535) ∧
    PassedAs Promoting.large false (.int 2 false 65535) ∧
    (∃ scalars returned result t,
      NativeCall Promoting.callee Promoting.args scalars returned result ∧
      Exec.callNative Promoting.program Promoting.callee Promoting.args {} = .ok result t ∧
      result.asInt? = some 131072) ∧
    Scalar.ofValue Promoting.odd true = raise (.sizeMismatch 3 3) := by
  obtain ⟨hvalues, hcalls⟩ := marshalling_keeps_values
  have hargs : ∀ v ∈ Promoting.args, v.size = v.ty.size := by decide +kernel
  have hpass : ∀ v ∈ Promoting.args, v.ty.isPassable = true := by decide +kernel
  refine ⟨hargs, hpass, ?_, ?_, ?_, ?_, ?_⟩
  · exact (hvalues Promoting.negative true (by decide +kernel)).2.2 _ rfl
  · exact (hvalues Promoting.large true (by decide +kernel)).2.2 _ rfl
  · exact (hvalues Promoting.large false (by decide +kernel)).2.2 _ rfl
  · obtain ⟨scalars, result, hcall, hresult⟩ := (hcalls Promoting.program Promoting.callee
      Promoting.args _ {} hargs).2 hpass (.inr (by decide +kernel)) (by decide +kernel) rfl
    refine ⟨scalars, _, result, _, hcall, hresult, ?_⟩
    obtain ⟨t, hcomputed⟩ := Promoting.callNative_eq
    rw [hcomputed] at hresult
    cases hresult
    rfl
  · exact (hvalues Promoting.odd true (by decide +kernel)).2.1 (by decide +kernel)

end PackedIR
