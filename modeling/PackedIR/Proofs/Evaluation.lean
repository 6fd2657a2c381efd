/-
When evaluation succeeds.

Elsewhere success is a hypothesis that is taken apart. Here it is a conclusion. In a state
of a session a load of live bytes succeeds and gives these bytes, a store to them sticks,
an l-value decays to what lies at its address, and a result of the declared type is bound.
-/
import PackedIR.Proofs.Bindings
import PackedIR.Proofs.Storage

set_option autoImplicit false

namespace PackedIR

variable {p : Program} {s t u : State} {fr : Frame} {rest : List Frame} {f : Function}

/-! ## Addresses as values -/

/-- Address arithmetic inside the address space does not wrap. -/
theorem offsetAddress_eq {address offset : Nat} (h : address + offset < addressLimit) :
    offsetAddress address offset = address + offset := by
  have hint : (address : Int) + offset < addressLimit := by omega
  unfold offsetAddress
  rw [Int.emod_eq_of_lt (by omega) hint]
  omega

theorem memberAddress_eq {address : Nat} {member : Member}
    (h : address + member.offset < addressLimit) :
    memberAddress address member = .ok (address + member.offset) :=
  if_pos h

theorem memberAddress_eq_error {address : Nat} {member : Member}
    (h : addressLimit ≤ address + member.offset) :
    memberAddress address member = .error (.memberOutOfReach address member.offset) :=
  if_neg (Nat.not_lt.mpr h)

theorem Value.asAddress_ofAddress (ty : Ty) {address : Nat} (h : address < addressLimit) :
    (Value.ofAddress ty address).asAddress = .ok address := by
  have hsize : (Value.ofAddress ty address).size = wordSize := Bytes.length_ofNat _ _
  have hnat : Bytes.toNat (Bytes.ofNat wordSize address) = address := by
    rw [Bytes.toNat_ofNat]
    exact Nat.mod_eq_of_lt h
  unfold Value.asAddress Value.address?
  rw [if_pos hsize]
  simp only [Value.ofAddress, hnat]

/-- Bytes that may be accessed are loaded as they are. -/
theorem Exec.load_eq_of_accessible {address : Nat} {ty : Ty}
    (h : s.memory.accessible p.config.sanitizeMemory address ty.size = true) :
    load p address ty s = .ok { ty, bytes := s.memory.arena.read address ty.size } s := by
  have hload : s.memory.load p.config.sanitizeMemory address ty =
      .ok { ty, bytes := s.memory.arena.read address ty.size } := by
    unfold Memory.load Memory.checkAccess
    rw [if_pos h]
    exact Value.ofBytes_eq_ok_iff.mpr ⟨(Arena.length_read _ _ _).symm, rfl⟩
  unfold load
  rw [bind_of_ok (get_apply s), hload]
  rfl

/-! ## States in order -/

/-- What executing instructions relies on: bindings and cached constants are typed, and storage is
owned as recorded. -/
structure Sane (p : Program) (s : State) : Prop where
  typed : WellTyped p s
  owns : OwnsStack s
  housed : s.memory.Housed

theorem Reachable.sane (hp : p.module.Built) (hhost : p.host.KeepsExtent) (h : Reachable p s) :
    Sane p s :=
  ⟨h.wellTyped hp, h.ownsStack, h.housed hhost⟩

namespace Sane

theorem makes (h : Makes p s t) (hs : Sane p s) : Sane p t := by
  refine ⟨hs.typed.makes h, ?_, h.housed hs.housed⟩
  exact hs.owns.of_eq h.stack_eq (by rw [h.frames_eq])

theorem put (hs : Sane p s) (address : Nat) (bytes : Bytes) :
    Sane p { s with memory := s.memory.put address bytes } := by
  refine ⟨⟨hs.typed.frames, hs.typed.constants⟩, ?_, hs.housed.put address bytes⟩
  exact hs.owns.of_eq rfl rfl

/-- Live bytes are loaded as they are. -/
theorem load_eq (hs : Sane p s) {address : Nat} {ty : Ty} (hlive : s.memory.Live address ty.size) :
    Exec.load p address ty s = .ok { ty, bytes := s.memory.arena.read address ty.size } s := by
  exact Exec.load_eq_of_accessible
    (hlive.accessible hs.housed hs.owns.ordered p.config.sanitizeMemory)

/-- Live bytes are replaced. -/
theorem storeBytes_eq (hs : Sane p s) {address : Nat} {bytes : Bytes}
    (hlive : s.memory.Live address bytes.length) :
    Exec.storeBytes p address bytes s =
      .ok () { s with memory := s.memory.put address bytes } := by
  have haccess := hlive.accessible hs.housed hs.owns.ordered p.config.sanitizeMemory
  unfold Exec.storeBytes Memory.checkAccess
  rw [Exec.bind_of_ok (Exec.get_apply s), if_pos haccess]
  rfl

end Sane

/-! ## Locals -/

/-- The state after an instruction has bound `v` to the local `l` of the innermost frame. -/
def State.bound (s : State) (fr : Frame) (rest : List Frame) (l : Local) (v : Value) : State :=
  { s with frames := (fr.set l (v.withOrigin (.local l))).advance :: rest }

theorem WellTyped.slots (hs : WellTyped p s) (hfr : s.frames = fr :: rest)
    (hf : p.module.function fr.function = .ok f) : fr.locals.size = f.locals.size :=
  (hs.frames fr (by rw [hfr]; exact List.mem_cons_self)).slots hf

theorem WellTyped.lookup?_set_self (hs : WellTyped p s) (hfr : s.frames = fr :: rest)
    (hf : p.module.function fr.function = .ok f) {l : Local} {decl : LocalDecl}
    (hdecl : f.local? l = some decl) (v : Value) : (fr.set l v).lookup? l = some v := by
  have hlt : l.index < fr.locals.size := by
    rw [hs.slots hfr hf]
    exact (Array.getElem?_eq_some_iff.mp hdecl).1
  rw [Frame.lookup?_set, if_pos ⟨rfl, hlt⟩]

theorem WellTyped.bound (hs : WellTyped p s) (hfr : s.frames = fr :: rest)
    (hf : p.module.function fr.function = .ok f) {l : Local} {decl : LocalDecl} {v : Value}
    (hdecl : f.local? l = some decl) (hv : v.HasTy decl.boundTy) :
    WellTyped p (s.bound fr rest l v) := by
  refine hs.of_frames hfr ?_ rfl rfl
  rintro ⟨f', hf', hfits⟩
  rw [hf] at hf'
  cases hf'
  have hset := hfits.set hdecl hv
  exact ⟨f, hf, hset.slots, hset.bound⟩

theorem Sane.bound (hs : Sane p s) (hfr : s.frames = fr :: rest)
    (hf : p.module.function fr.function = .ok f) {l : Local} {decl : LocalDecl} {v : Value}
    (hdecl : f.local? l = some decl) (hv : v.HasTy decl.boundTy) :
    Sane p (s.bound fr rest l v) :=
  ⟨hs.typed.bound hfr hf hdecl hv, hs.owns.of_eq rfl (by rw [hfr]; rfl), hs.housed⟩

theorem Sane.advance (hs : Sane p s) (hfr : s.frames = fr :: rest) :
    Sane p { s with frames := fr.advance :: rest } := by
  refine ⟨hs.typed.of_frames hfr ?_ rfl rfl, ?_, hs.housed⟩
  · rintro ⟨f, hf, hfits⟩
    exact ⟨f, hf, hfits.slots, hfits.bound⟩
  · exact hs.owns.of_eq rfl (by rw [hfr]; rfl)

namespace Exec

/-- Completing an instruction with a value of the declared type binds it. -/
theorem complete_eq (hs : WellTyped p s) (hfr : s.frames = fr :: rest)
    (hf : p.module.function fr.function = .ok f) {inst : Instruction} {l : Local}
    {decl : LocalDecl} {v : Value} (hl : inst.result = some l) (hdecl : f.local? l = some decl)
    (hv : v.HasTy decl.boundTy) :
    complete f inst (some v) s = .ok () (s.bound fr rest l v) := by
  have hlt : l.index < fr.locals.size := by
    rw [hs.slots hfr hf]
    exact (Array.getElem?_eq_some_iff.mp hdecl).1
  have hretype : v.retype decl.boundTy = .ok v := by
    rw [Value.retype_eq_ok_iff, ← hv.1]
    exact ⟨by rw [hv.2, hv.1], rfl⟩
  have hbind : bindResult f inst v s =
      .ok () { s with frames := fr.set l (v.withOrigin (.local l)) :: rest } :=
    (bindResult_eq_ok_iff hl).mpr ⟨decl, v, fr, rest, hdecl, hretype, hfr, hlt, rfl⟩
  unfold complete
  dsimp only
  rw [bind_of_ok hbind]
  rfl

/-! ## Operands -/

section Operands

variable {l : Local} {v : Value} {ty : Ty} {address : Nat} {lv : Operand}

theorem operand_local (hfr : s.frames = fr :: rest) (hf : p.module.function fr.function = .ok f)
    (hbound : fr.lookup? l = some v) (hdecl : f.local? l = some ⟨ty, false⟩) :
    operand p (.local l) s = .ok v s := by
  change localOperand p l s = _
  unfold localOperand
  rw [bind_of_ok (frame_eq_ok_iff.mpr ⟨rfl, rest, hfr⟩), hf, bind_of_ok (liftFault_ok _ _)]
  simp only [hbound, hdecl, pure_apply]

theorem operandAddress_local (hfr : s.frames = fr :: rest)
    (hf : p.module.function fr.function = .ok f) (hbound : fr.lookup? l = some v)
    (hdecl : f.local? l = some ⟨ty, true⟩) (haddress : v.asAddress = .ok address) :
    operandAddress p (.local l) s = .ok (address, ty) s := by
  unfold operandAddress
  dsimp only
  rw [bind_of_ok (frame_eq_ok_iff.mpr ⟨rfl, rest, hfr⟩), hf, bind_of_ok (liftFault_ok _ _)]
  simp only [hbound, hdecl]
  rw [haddress, bind_of_ok (lift_ok _ _), pure_apply]

/-- An l-value decays to the bytes at its address. -/
theorem operand_of_operandAddress (hs : Sane p s)
    (h : operandAddress p lv s = .ok (address, ty) t) (hlive : s.memory.Live address ty.size) :
    ∃ v, operand p lv s = .ok v t ∧ v.ty = ty ∧
      v.bytes = s.memory.arena.read address ty.size := by
  have hmakes := (operandAddress_makes lv).of_ok h
  -- Computing the address may make constants, which leaves the aggregate where it is.
  have hkeeps := hmakes.keeps hs.housed
  have hload := (hs.makes hmakes).load_eq (hkeeps.live hlive)
  rw [hkeeps.read_eq hlive] at hload
  rcases operandAddress_eq_ok h with
    ⟨l, fr, rest, f, v, rfl, hfr, hf, hbound, hdecl, hv, rfl⟩ | ⟨id, g, v, rfl, hc, hv, ha⟩
  · refine ⟨{ ty, origin := .local l, bytes := s.memory.arena.read address ty.size }, ?_, rfl, rfl⟩
    change localOperand p l s = _
    unfold localOperand
    rw [bind_of_ok (frame_eq_ok_iff.mpr ⟨rfl, rest, hfr⟩), hf, bind_of_ok (liftFault_ok _ _)]
    simp only [hbound, hdecl]
    rw [hv, bind_of_ok (lift_ok _ _), bind_of_ok hload]
    rfl
  · refine ⟨{ ty, origin := .const id, bytes := s.memory.arena.read address ty.size }, ?_, rfl, rfl⟩
    change constOperand p id s = _
    unfold constOperand
    rw [hc, bind_of_ok (liftFault_ok _ _), bind_of_ok hv]
    unfold decayConst
    dsimp only
    rw [ha, bind_of_ok (lift_ok _ _), bind_of_ok hload]
    rfl

/-- The address of an l-value stays the same while its binding does; once computed, it is computed
again without any change. -/
theorem operandAddress_again {fr' : Frame} {rest' : List Frame} (hfr : s.frames = fr :: rest)
    (h : operandAddress p lv s = .ok (address, ty) u) (ht : t.frames = fr' :: rest')
    (hfun : fr'.function = fr.function)
    (hlookup : ∀ l, lv = .local l → fr'.lookup? l = fr.lookup? l)
    (hcached : ∀ id v, u.constants.get? id = some v → t.constants.get? id = some v) :
    operandAddress p lv t = .ok (address, ty) t := by
  rcases operandAddress_eq_ok h with
    ⟨l, fr₀, rest₀, f, v, rfl, hfr₀, hf, hbound, hdecl, hv, rfl⟩ | ⟨id, g, v, rfl, hc, hv, ha⟩
  · rw [hfr] at hfr₀
    cases hfr₀
    rw [← hlookup l rfl] at hbound
    rw [← hfun] at hf
    exact operandAddress_local ht hf hbound hdecl hv
  · -- A reference to a global variable has been cached the first time.
    have hvalue : constValue p id t = .ok v t :=
      constValueWith_of_cached (hcached id v (constants_get?_of_constValueWith hv)) _
    unfold operandAddress
    dsimp only
    rw [hc, bind_of_ok (liftFault_ok _ _)]
    dsimp only
    rw [bind_of_ok hvalue, ha, bind_of_ok (lift_ok _ _), pure_apply]

theorem constIndex_eq {c : ConstId} {n : Nat} (hc : p.module.constant c = .ok ⟨ty, .int n⟩)
    (hn : n < addressLimit) : constIndex p (.const c) s = .ok n s := by
  have hrange : 0 ≤ (n : Int) ∧ (n : Int) < addressLimit := by omega
  unfold constIndex
  dsimp only
  rw [hc, bind_of_ok (liftFault_ok _ _)]
  dsimp only
  rw [if_pos hrange, pure_apply, Int.toNat_natCast]

/-- An integer constant has a value, made before or now. -/
theorem constValue_int {z : ConstId} {i : Int} (hc : p.module.constant z = .ok ⟨ty, .int i⟩)
    (hty : ty.isInteger = true) (hsize : ty.size ≤ Value.maxIntSize) (s : State) :
    ∃ v u, constValue p z s = .ok v u := by
  cases hcached : s.constants.get? z with
  | some v => exact ⟨v, s, constValueWith_of_cached hcached _⟩
  | none =>
    -- The module has a constant, so there is a budget to make it.
    have hpos : p.module.constants.size ≠ 0 := by
      have hlt := (Array.getElem?_eq_some_iff.mp (orMissing_eq_ok_iff.mp hc)).1
      omega
    obtain ⟨budget, hbudget⟩ := Nat.exists_eq_succ_of_ne_zero hpos
    have hint : ∃ v, Value.ofInt ty i = .ok v := by
      cases ty with
      | int bits signed => exact ⟨_, if_pos hsize⟩
      | _ => cases hty
    obtain ⟨v, hv⟩ := hint
    unfold constValue
    rw [hbudget]
    unfold constValueWith
    rw [bind_of_ok (get_apply s)]
    simp only [hcached]
    rw [hc, bind_of_ok (liftFault_ok _ _)]
    have hmade : within (.materializing z) (materialize p
        (fun m => do
          let mc ← p.module.constant m
          decayConst p m mc (← constValueWith p budget m)) ⟨ty, .int i⟩) s = .ok v s := by
      rw [within_eq_ok_iff]
      unfold materialize
      dsimp only
      rw [hv, lift_ok]
    rw [bind_of_ok hmade]
    exact ⟨_, _, rfl⟩

/-- Zero is read from its bytes with either signedness. -/
theorem asInt?_zero (hsize : Value.isIntSize v.size = true) (hv : v.bytes = Bytes.ofInt v.size 0) :
    v.asInt? = some 0 := by
  have hnat : Bytes.toNat v.bytes = 0 := by
    rw [hv, Bytes.ofInt, Bytes.toNat_ofNat]
    simp
  have hint : Bytes.toInt v.bytes = 0 := by
    unfold Bytes.toInt
    rw [hnat]
    have hpos : 0 < Nat.pow 256 v.bytes.length := Nat.pow_pos (by decide)
    rw [if_pos (by omega)]
    rfl
  unfold Value.asInt? Value.toInt?
  rw [if_pos hsize, hint, hnat]
  simp

theorem integerOperand_zero (hs : Sane p s) {z : ConstId} (activity : Activity)
    (hc : p.module.constant z = .ok ⟨ty, .int 0⟩) (hty : ty.isInteger = true)
    (hsize : Value.isIntSize ty.size = true) :
    ∃ u, integerOperand p activity (.const z) s = .ok 0 u := by
  have hsmall : ty.size ≤ Value.maxIntSize := by
    unfold Value.maxIntSize
    simp only [Value.isIntSize, Bool.or_eq_true, beq_iff_eq] at hsize
    omega
  obtain ⟨v, u, hvalue⟩ := constValue_int hc hty hsmall s
  -- Whether it was made now or long ago, the cache has its bytes.
  have hcached := constants_get?_of_constValueWith hvalue
  have htyped := hs.typed.makes ((constValue_makes z).of_ok hvalue)
  obtain ⟨c', hc', hadmits⟩ := htyped.constants z v hcached
  rw [hc] at hc'
  cases hc'
  have hv : v.HasTy ty := hadmits.typed (by simp)
  have hoperand : operand p (.const z) s = .ok v u := by
    change constOperand p z s = _
    unfold constOperand
    rw [hc, bind_of_ok (liftFault_ok _ _), bind_of_ok hvalue]
    rfl
  have hzero : v.asInt? = some 0 := by
    apply asInt?_zero
    · rw [hv.2]
      exact hsize
    · rw [hv.2]
      exact hadmits.int 0 rfl
  refine ⟨u, ?_⟩
  unfold integerOperand
  rw [bind_of_ok hoperand]
  simp only [hzero, hv.1, hty, if_true, pure_apply]

end Operands

end Exec

end PackedIR
