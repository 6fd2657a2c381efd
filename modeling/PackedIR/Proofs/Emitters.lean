/-
What the typed emitters announce.

An emitter of a builder computes the type of its result from the static types of its
operands, may add a constant for an index or a callee, and appends one instruction.
`Announces` collects the rules by which the types are computed, one for each emitter, as
a relation between an instruction and the declaration of its result. The rules speak only
of what a growing module keeps, so what was announced when an instruction was emitted
still holds in the module that is executed.
-/
import PackedIR.Proofs.Growth
import PackedIR.Proofs.Layouts

set_option autoImplicit false

namespace PackedIR

variable {m m' : Module} {func : FuncId}

/-! ## Static types -/

/-- The type that a builder on `func` reports for an operand. -/
inductive Operand.Static (m : Module) (func : FuncId) : Operand → Ty → Prop where
  | local {f : Function} {l : Local} {decl : LocalDecl} : m.function func = .ok f →
      f.local? l = some decl → Static m func (.local l) decl.ty
  | const {id : ConstId} {c : Constant} : m.constant id = .ok c → Static m func (.const id) c.ty
  | type (ty : Ty) : Static m func (.type ty) ty

theorem Operand.Static.grows {o : Operand} {ty : Ty} (h : o.Static m func ty)
    (hgrows : m.Grows m') : o.Static m' func ty := by
  cases h with
  | «local» hf hl =>
    obtain ⟨g, hg, hfg⟩ := hgrows.function_eq hf
    exact .local hg (hfg.locals _ _ hl)
  | const hc => exact .const (hgrows.constant_eq hc)
  | type ty => exact .type ty

/-! ## The rules -/

/-- How the result of an instruction of `func` is declared. -/
inductive Announces (m : Module) (func : FuncId) :
    Opcode → List Operand → Option LocalDecl → Prop where
  | binary (op : BinaryOp) {left : Operand} (right : Operand) {ty : Ty} :
      left.Static m func ty →
      Announces m func (.binary op) [left, right] (some ⟨op.resultTy ty, false⟩)
  /-- Comparisons: the result does not depend on the operands, which are not looked at. -/
  | compare {op : BinaryOp} (left right : Operand) {ty : Ty} : (∀ t, op.resultTy t = ty) →
      Announces m func (.binary op) [left, right] (some ⟨ty, false⟩)
  | unary (op : UnaryOp) {value : Operand} {ty : Ty} : value.Static m func ty →
      Announces m func (.unary op) [value] (some ⟨ty, false⟩)
  | cast (op : CastOp) (value : Operand) (target : Ty) :
      Announces m func (.cast op) [value, .type target] (some ⟨target, false⟩)
  | call {c : ConstId} {id : FuncId} {f : Function} {sig : Signature} (args : List Operand) :
      m.constant c = .ok ⟨f.ty, .function id⟩ → m.function id = .ok f → f.signature = .ok sig →
      Announces m func (.call .direct) (.const c :: args)
        (if sig.ret.isVoid then none else some ⟨sig.ret, false⟩)
  | stackAlloc (ty : Ty) :
      Announces m func (.place .stackAlloc) [.type ty] (some ⟨Ty.mutPtrTo ty, false⟩)
  | createLVal (ty : Ty) : Announces m func (.place .createLVal) [.type ty] (some ⟨ty, true⟩)
  | addressOf {lvalue : Operand} {ty : Ty} : lvalue.Static m func ty →
      Announces m func (.place .addressOf) [lvalue] (some ⟨Ty.mutPtrTo ty, false⟩)
  | dereference {ptr : Operand} {ty pointee : Ty} : ptr.Static m func ty →
      ty.pointee? = some pointee →
      Announces m func (.place .dereference) [ptr] (some ⟨pointee, true⟩)
  | readPtr (ptr : Operand) (pointee : Ty) :
      Announces m func (.place .readPtr) [ptr] (some ⟨pointee, false⟩)
  | getPointer {ptr : Operand} (index : Operand) {ty : Ty} : ptr.Static m func ty →
      Announces m func (.place .getPointer) [ptr, index] (some ⟨ty, false⟩)
  | getGep2 {ptr : Operand} (first second : Operand) {ty array elem : Ty} :
      ptr.Static m func ty → ty.pointee? = some array → array.element? = some elem →
      Announces m func (.place .getGep2) [ptr, first, second] (some ⟨Ty.mutPtrTo elem, false⟩)
  | getStructMember {lvalue : Operand} {c : ConstId} {index : Nat} {ty member : Ty} :
      lvalue.Static m func ty → ty.memberTy? index = some member →
      m.constant c = .ok ⟨Ty.word, .int index⟩ →
      Announces m func (.place .getStructMember) [lvalue, .const c] (some ⟨member, true⟩)
  | getPointerToStructMember {ptr : Operand} (ptrIndex : Operand) {c : ConstId} {index : Nat}
      {ty pointee member : Ty} : ptr.Static m func ty → ty.pointee? = some pointee →
      pointee.memberTy? index = some member → m.constant c = .ok ⟨Ty.word, .int index⟩ →
      Announces m func (.place .getPointerToStructMember) [ptr, ptrIndex, .const c]
        (some ⟨Ty.mutPtrTo member, false⟩)
  | sizeof (ty : Ty) : Announces m func (.place .sizeof) [.type ty] (some ⟨Ty.word, false⟩)
  | rawUnionGep (lvalue : Operand) (variant : Ty) :
      Announces m func (.place .rawUnionGep) [lvalue, .type variant] (some ⟨variant, true⟩)
  | insertValue {aggregate : Operand} (element index : Operand) {ty : Ty} :
      aggregate.Static m func ty →
      Announces m func .insertValue [aggregate, element, index] (some ⟨ty, false⟩)
  | extractValue {aggregate : Operand} {c : ConstId} {index : Nat} {ty member : Ty} :
      aggregate.Static m func ty → ty.memberTy? index = some member →
      m.constant c = .ok ⟨Ty.word, .int index⟩ →
      Announces m func .extractValue [aggregate, .const c] (some ⟨member, false⟩)
  | getField {op : Opcode} {aggregate : Operand} {ty field : Ty} : aggregate.Static m func ty →
      ty.fieldTy op = .ok field → Announces m func op [aggregate] (some ⟨field, false⟩)
  | setField (field : Field) {aggregate : Operand} (value : Operand) {ty : Ty} :
      aggregate.Static m func ty →
      Announces m func (.setField field) [aggregate, value] (some ⟨ty, false⟩)
  | setVariantId {union : Operand} (id : Operand) {ty : Ty} : union.Static m func ty →
      Announces m func (.union .setVariantId) [union, id] (some ⟨ty, false⟩)
  | unionGetValue {union : Operand} {c : ConstId} {index : Nat} {ty member : Ty} :
      union.Static m func ty → ty.memberTy? index = some member →
      m.constant c = .ok ⟨Ty.word, .int index⟩ →
      Announces m func (.union .getValue) [union, .const c] (some ⟨member, false⟩)
  | unionSetValue {union : Operand} (variant value : Operand) {ty : Ty} :
      union.Static m func ty →
      Announces m func (.union .setValue) [union, variant, value] (some ⟨ty, false⟩)

/-- What has been announced stays announced. -/
theorem Announces.grows {op : Opcode} {args : List Operand} {decl : Option LocalDecl}
    (h : Announces m func op args decl) (hgrows : m.Grows m') :
    Announces m' func op args decl := by
  cases h with
  | binary op right hs => exact .binary op right (hs.grows hgrows)
  | compare left right hty => exact .compare left right hty
  | unary op hs => exact .unary op (hs.grows hgrows)
  | cast op value target => exact .cast op value target
  | call args hc hf hsig =>
    obtain ⟨g, hg, hfg⟩ := hgrows.function_eq hf
    rw [← hfg.ty] at hc
    rw [← hfg.signature_eq] at hsig
    exact .call args (hgrows.constant_eq hc) hg hsig
  | stackAlloc ty => exact .stackAlloc ty
  | createLVal ty => exact .createLVal ty
  | addressOf hs => exact .addressOf (hs.grows hgrows)
  | dereference hs hp => exact .dereference (hs.grows hgrows) hp
  | readPtr ptr pointee => exact .readPtr ptr pointee
  | getPointer index hs => exact .getPointer index (hs.grows hgrows)
  | getGep2 first second hs hp he => exact .getGep2 first second (hs.grows hgrows) hp he
  | getStructMember hs hm hc =>
    exact .getStructMember (hs.grows hgrows) hm (hgrows.constant_eq hc)
  | getPointerToStructMember ptrIndex hs hp hm hc =>
    exact .getPointerToStructMember ptrIndex (hs.grows hgrows) hp hm (hgrows.constant_eq hc)
  | sizeof ty => exact .sizeof ty
  | rawUnionGep lvalue variant => exact .rawUnionGep lvalue variant
  | insertValue element index hs => exact .insertValue element index (hs.grows hgrows)
  | extractValue hs hm hc => exact .extractValue (hs.grows hgrows) hm (hgrows.constant_eq hc)
  | getField hs hf => exact .getField (hs.grows hgrows) hf
  | setField field value hs => exact .setField field value (hs.grows hgrows)
  | setVariantId id hs => exact .setVariantId id (hs.grows hgrows)
  | unionGetValue hs hm hc => exact .unionGetValue (hs.grows hgrows) hm (hgrows.constant_eq hc)
  | unionSetValue variant value hs => exact .unionSetValue variant value (hs.grows hgrows)

/-- Only direct calls are announced, and what is announced is the callee's return type. -/
theorem Announces.call_eq {op : CallOp} {args : List Operand} {decl : LocalDecl}
    (h : Announces m func (.call op) args (some decl)) :
    op = .direct ∧ ∃ c id f sig rest, args = .const c :: rest ∧
      m.constant c = .ok ⟨f.ty, .function id⟩ ∧ m.function id = .ok f ∧
      f.signature = .ok sig ∧ decl = ⟨sig.ret, false⟩ := by
  generalize hd : some decl = announced at h
  cases h with
  | getField _ hfield => cases hfield
  | @call c id f sig rest hc hf hsig =>
    refine ⟨rfl, c, id, f, sig, rest, rfl, hc, hf, hsig, ?_⟩
    by_cases hvoid : sig.ret.isVoid = true
    · rw [if_pos hvoid] at hd
      cases hd
    · rw [if_neg hvoid] at hd
      cases hd
      rfl

/-! ## The emitters -/

/-- A call of one of the typed emitters. -/
inductive Emitter where
  | binary (op : BinaryOp) (left right : Operand)
  | unary (op : UnaryOp) (value : Operand)
  | cast (op : CastOp) (value : Operand) (target : Ty)
  | call (callee : FuncId) (args : List Operand)
  | stackAlloc (ty : Ty)
  | createLVal (ty : Ty)
  | addressOf (lvalue : Operand)
  | dereference (ptr : Operand)
  | readPtr (ptr : Operand)
  | getPointer (ptr index : Operand)
  | getGep2 (ptr first second : Operand)
  | getStructMember (lvalue : Operand) (member : Nat)
  | getPointerToStructMember (ptr ptrIndex : Operand) (member : Nat)
  | sizeof (ty : Ty)
  | insertValue (aggregate element : Operand) (index : Nat)
  | extractValue (aggregate : Operand) (index : Nat)
  /-- Any opcode: those that are no getters are refused. -/
  | getField (op : Opcode) (aggregate : Operand)
  /-- The setters of container fields; the variant id of a union has a setter of its own. -/
  | setField (field : Field) (aggregate value : Operand)
  | setVariantId (union id : Operand)
  | unionGetValue (union : Operand) (variant : Nat)
  | unionSetValue (union : Operand) (variant : Nat) (value : Operand)
  | rawUnionGep (lvalue : Operand) (variant : Ty)

/-- Emits the instruction and gives its result as an operand, if it has one. -/
def Emitter.run : Emitter → Build (Option Operand)
  | .binary op left right => some <$> Build.binary (.binary op) left right
  | .unary op value => some <$> Build.unary (.unary op) value
  | .cast op value target => some <$> Build.cast (.cast op) value target
  | .call callee args => Build.call callee args
  | .stackAlloc ty => some <$> Build.stackAlloc ty
  | .createLVal ty => some <$> Build.createLVal ty
  | .addressOf lvalue => some <$> Build.addressOf lvalue
  | .dereference ptr => some <$> Build.dereference ptr
  | .readPtr ptr => some <$> Build.readPtr ptr
  | .getPointer ptr index => some <$> Build.getPointer ptr index
  | .getGep2 ptr first second => some <$> Build.getGep2 ptr first second
  | .getStructMember lvalue member => some <$> Build.getStructMember lvalue member
  | .getPointerToStructMember ptr ptrIndex member =>
    some <$> Build.getPointerToStructMember ptr ptrIndex member
  | .sizeof ty => some <$> Build.sizeof ty
  | .insertValue aggregate element index => some <$> Build.insertValue aggregate element index
  | .extractValue aggregate index => some <$> Build.extractValue aggregate index
  | .getField op aggregate => some <$> Build.getField op aggregate
  | .setField field aggregate value => some <$> Build.setField (.setField field) aggregate value
  | .setVariantId union id => some <$> Build.setField (.union .setVariantId) union id
  | .unionGetValue union variant => some <$> Build.unionGetValue union variant
  | .unionSetValue union variant value => some <$> Build.unionSetValue union variant value
  | .rawUnionGep lvalue variant => some <$> Build.rawUnionGep lvalue variant

namespace Build

variable {b b₁ b' : Builder}

theorem typeOf_eq_ok {o : Operand} {ty : Ty} (h : typeOf o b = .ok (ty, b')) :
    o.Static b.module b.func ty ∧ b = b' := by
  cases o with
  | «local» l =>
    obtain ⟨f, b₁, hf, h⟩ := bind_eq_ok_iff.mp h
    obtain ⟨hf, hb⟩ := function_eq_ok_iff.mp hf
    cases hl : f.local? l with
    | none => simp [hl] at h
    | some decl =>
      simp only [hl, pure_eq_ok_iff] at h
      rw [h.1, h.2, ← hb]
      exact ⟨.local hf hl, rfl⟩
  | const id =>
    simp only [typeOf, bind_eq_ok_iff, get_eq_ok_iff, lift_eq_ok_iff, pure_eq_ok_iff] at h
    obtain ⟨_, _, ⟨rfl, rfl⟩, c, _, ⟨hc, rfl⟩, rfl, rfl⟩ := h
    exact ⟨.const hc, rfl⟩
  | type ty' =>
    obtain ⟨rfl, rfl⟩ := pure_eq_ok_iff.mp h
    exact ⟨.type _, rfl⟩
  | block block => exact absurd h throw_ne_ok

theorem pointeeOf_eq_ok {ptr : Operand} {pointee : Ty} (h : pointeeOf ptr b = .ok (pointee, b')) :
    ∃ ty, ptr.Static b.module b.func ty ∧ ty.pointee? = some pointee ∧ b = b' := by
  obtain ⟨ty, b₁, hty, h⟩ := bind_eq_ok_iff.mp h
  obtain ⟨hstatic, hb⟩ := typeOf_eq_ok hty
  cases hp : ty.pointee? with
  | none => simp [hp] at h
  | some t =>
    simp only [hp, pure_eq_ok_iff] at h
    rw [h.1, h.2, ← hb]
    exact ⟨ty, hstatic, hp, rfl⟩

theorem memberTy_eq_ok {ty member : Ty} {i : Nat} (h : memberTy ty i b = .ok (member, b')) :
    ty.memberTy? i = some member ∧ b = b' := by
  unfold memberTy at h
  cases hm : ty.memberTy? i with
  | none => simp [hm] at h
  | some t =>
    simp only [hm, pure_eq_ok_iff] at h
    rw [h.1]
    exact ⟨rfl, h.2.symm⟩

/-- A constant that has just been added is found under the id that was given for it. -/
theorem constant_addConstant (m : Module) (ty : Ty) (kind : ConstKind) :
    (m.addConstant ty kind).2.constant (m.addConstant ty kind).1 = .ok ⟨ty, kind⟩ := by
  rw [Module.constant, orMissing_eq_ok_iff]
  simp [Module.addConstant]

theorem constInt_eq_ok {ty : Ty} {value : Int} {o : Operand}
    (h : constInt ty value b = .ok (o, b')) :
    ∃ c, o = .const c ∧ b'.module.constant c = .ok ⟨ty, .int value⟩ := by
  simp only [constInt, onModule, bind_eq_ok_iff, get_eq_ok_iff, set_eq_ok_iff,
    pure_eq_ok_iff] at h
  obtain ⟨_, _, ⟨_, _, ⟨rfl, rfl⟩, _, _, rfl, rfl, rfl⟩, rfl, rfl⟩ := h
  exact ⟨_, rfl, constant_addConstant _ ty _⟩

theorem constFunction_eq_ok {id : FuncId} {o : Operand}
    (h : constFunction id b = .ok (o, b')) :
    ∃ c f, o = .const c ∧ b.module.function id = .ok f ∧
      b'.module.constant c = .ok ⟨f.ty, .function id⟩ := by
  simp only [constFunction, tryModule, bind_eq_ok_iff, get_eq_ok_iff, set_eq_ok_iff,
    lift_eq_ok_iff, pure_eq_ok_iff] at h
  obtain ⟨_, _, ⟨_, _, ⟨rfl, rfl⟩, _, _, ⟨hadd, rfl⟩, _, _, rfl, rfl, rfl⟩, rfl, rfl⟩ := h
  obtain ⟨f, hf, hadd⟩ := except_bind_eq_ok_iff.mp hadd
  cases hadd
  exact ⟨_, f, rfl, hf, constant_addConstant _ f.ty _⟩

end Build

/-- From `b`, constants may have been added, and then one instruction has been appended whose
result is declared as announced. -/
def Emitted (b : Builder) (o : Option Operand) (b' : Builder) : Prop :=
  ∃ b₁ op args decl result, b.module.Grows b₁.module ∧ b₁.func = b.func ∧
    Announces b₁.module b₁.func op args decl ∧ Build.emit op args decl b₁ = .ok (result, b') ∧
    o = result.map Operand.local

theorem Emitted.grows {b b' : Builder} {o : Option Operand} (h : Emitted b o b') :
    b.module.Grows b'.module := by
  obtain ⟨b₁, op, args, decl, result, hgrows, _, _, hemit, _⟩ := h
  exact .trans hgrows (.instruction op args decl hemit)

section Emitted

variable {b b₁ b' : Builder} {op : Opcode} {args : List Operand} {ty : Ty} {r : Operand}

theorem emitted_of_emitValue (hgrows : b.module.Grows b₁.module) (hfunc : b₁.func = b.func)
    (ha : Announces b₁.module b₁.func op args (some ⟨ty, false⟩))
    (h : Build.emitValue op args ty b₁ = .ok (r, b')) : Emitted b (some r) b' := by
  obtain ⟨l, _, hl, h⟩ := Build.bind_eq_ok_iff.mp h
  obtain ⟨rfl, rfl⟩ := Build.pure_eq_ok_iff.mp h
  exact ⟨b₁, op, args, _, some l, hgrows, hfunc, ha, Build.emit_of_emitBound hl, rfl⟩

theorem emitted_of_emitLValue (hgrows : b.module.Grows b₁.module) (hfunc : b₁.func = b.func)
    (ha : Announces b₁.module b₁.func op args (some ⟨ty, true⟩))
    (h : Build.emitLValue op args ty b₁ = .ok (r, b')) : Emitted b (some r) b' := by
  obtain ⟨l, _, hl, h⟩ := Build.bind_eq_ok_iff.mp h
  obtain ⟨rfl, rfl⟩ := Build.pure_eq_ok_iff.mp h
  exact ⟨b₁, op, args, _, some l, hgrows, hfunc, ha, Build.emit_of_emitBound hl, rfl⟩

/-- An emitter that asks for the type of an operand and computes the type of its result from it. -/
theorem emitted_of_typeOf {operand : Operand} {result : Ty → Ty}
    (ha : ∀ ty, operand.Static b.module b.func ty →
      Announces b.module b.func op args (some ⟨result ty, false⟩))
    (h : (do Build.emitValue op args (result (← Build.typeOf operand))) b = .ok (r, b')) :
    Emitted b (some r) b' := by
  obtain ⟨ty, _, hty, hemit⟩ := Build.bind_eq_ok_iff.mp h
  obtain ⟨hs, rfl⟩ := Build.typeOf_eq_ok hty
  exact emitted_of_emitValue (.refl _) rfl (ha ty hs) hemit

theorem emitted_call {callee : FuncId} {args : List Operand} {o : Option Operand}
    (h : Build.call callee args b = .ok (o, b')) : Emitted b o b' := by
  simp only [Build.call, Build.bind_eq_ok_iff, Build.get_eq_ok_iff, Build.lift_eq_ok_iff] at h
  obtain ⟨_, _, ⟨rfl, rfl⟩, f, _, ⟨hf, rfl⟩, sig, _, ⟨hsig, rfl⟩, calleeOperand, b₁, hc, h⟩ := h
  obtain ⟨hgrows, hfunc, _⟩ := Build.appends_constFunction callee _ _ _ hc
  obtain ⟨c, f', rfl, hf', hconst⟩ := Build.constFunction_eq_ok hc
  rw [hf] at hf'
  cases hf'
  -- The constant names the callee, and the callee is still what it was.
  obtain ⟨g, hg, hfg⟩ := hgrows.function_eq hf
  rw [← hfg.ty] at hconst
  rw [← hfg.signature_eq] at hsig
  have ha : Announces b₁.module b₁.func (.call .direct) (.const c :: args)
      (if sig.ret.isVoid then none else some ⟨sig.ret, false⟩) := .call args hconst hg hsig
  unfold Build.emitCall at h
  by_cases hvoid : sig.ret.isVoid = true
  · rw [if_pos hvoid] at h ha
    obtain ⟨_, _, hemit, h⟩ := Build.bind_eq_ok_iff.mp h
    obtain ⟨rfl, rfl⟩ := Build.pure_eq_ok_iff.mp h
    exact ⟨b₁, _, _, none, none, hgrows, hfunc, ha, Build.emit_of_emitVoid hemit, rfl⟩
  · rw [if_neg hvoid] at h ha
    obtain ⟨r, _, hemit, h⟩ := Build.bind_eq_ok_iff.mp h
    obtain ⟨rfl, rfl⟩ := Build.pure_eq_ok_iff.mp h
    exact emitted_of_emitValue hgrows hfunc ha hemit

theorem emitted_binary {op : BinaryOp} {left right : Operand}
    (h : Build.binary (.binary op) left right b = .ok (r, b')) : Emitted b (some r) b' := by
  cases op with
  | intOrder | floatOrder | intCompare | floatCompare =>
    exact emitted_of_emitValue (.refl _) rfl (.compare left right fun _ => rfl) h
  | int | float | bitwise | shift => exact emitted_of_typeOf (fun _ hs => .binary _ right hs) h

/-- An emitter that asks for the type of an operand and then adds an index constant. -/
theorem static_of_constInt {operand index : Operand} {n : Int} {t : Ty}
    (hs : operand.Static b.module b.func t) (h : Build.constInt Ty.word n b = .ok (index, b₁)) :
    ∃ c, index = .const c ∧ b₁.module.constant c = .ok ⟨Ty.word, .int n⟩ ∧
      operand.Static b₁.module b₁.func t ∧ b.module.Grows b₁.module ∧ b₁.func = b.func := by
  obtain ⟨hgrows, hfunc, _⟩ := Build.appends_constInt Ty.word n _ _ _ h
  obtain ⟨c, hindex, hconst⟩ := Build.constInt_eq_ok h
  refine ⟨c, hindex, hconst, ?_, hgrows, hfunc⟩
  rw [hfunc]
  exact hs.grows hgrows

/-- An emitter that asks for the type of a member and then adds a constant for its number. -/
theorem static_of_memberTy {aggregate : Operand} {member : Nat} {k : Ty → Operand → Build Operand}
    (h : (do
      let ty ← Build.memberTy (← Build.typeOf aggregate) member
      let index ← Build.constInt Ty.word member
      k ty index) b = .ok (r, b')) :
    ∃ ty t c b₁, aggregate.Static b₁.module b₁.func ty ∧ ty.memberTy? member = some t ∧
      b₁.module.constant c = .ok ⟨Ty.word, .int member⟩ ∧ b.module.Grows b₁.module ∧
      b₁.func = b.func ∧ k t (.const c) b₁ = .ok (r, b') := by
  obtain ⟨ty, _, hty, h⟩ := Build.bind_eq_ok_iff.mp h
  obtain ⟨hs, rfl⟩ := Build.typeOf_eq_ok hty
  obtain ⟨t, _, hmember, h⟩ := Build.bind_eq_ok_iff.mp h
  obtain ⟨hm, rfl⟩ := Build.memberTy_eq_ok hmember
  obtain ⟨index, b₁, hc, h⟩ := Build.bind_eq_ok_iff.mp h
  obtain ⟨c, rfl, hc, hs, hgrows, hfunc⟩ := static_of_constInt hs hc
  exact ⟨ty, t, c, b₁, hs, hm, hc, hgrows, hfunc, h⟩

theorem emitted_of_map {x : Build Operand} (hx : ∀ r b', x b = .ok (r, b') → Emitted b (some r) b')
    {o : Option Operand} (h : (some <$> x) b = .ok (o, b')) : Emitted b o b' := by
  rw [map_eq_pure_bind, Build.bind_eq_ok_iff] at h
  obtain ⟨r, b₁, hr, h⟩ := h
  obtain ⟨rfl, rfl⟩ := Build.pure_eq_ok_iff.mp h
  exact hx r b' hr

/-- Every typed emitter declares the result of its instruction as announced. -/
theorem Emitter.emitted {e : Emitter} {o : Option Operand} (h : e.run b = .ok (o, b')) :
    Emitted b o b' := by
  cases e with
  | call callee args => exact emitted_call h
  | binary op left right =>
    refine emitted_of_map (fun r b' h => ?_) h
    exact emitted_binary h
  | cast op value target =>
    refine emitted_of_map (fun r b' h => ?_) h
    exact emitted_of_emitValue (.refl _) rfl (.cast op value target) h
  | stackAlloc ty =>
    refine emitted_of_map (fun r b' h => ?_) h
    exact emitted_of_emitValue (.refl _) rfl (.stackAlloc ty) h
  | createLVal ty =>
    refine emitted_of_map (fun r b' h => ?_) h
    exact emitted_of_emitLValue (.refl _) rfl (.createLVal ty) h
  | sizeof ty =>
    refine emitted_of_map (fun r b' h => ?_) h
    exact emitted_of_emitValue (.refl _) rfl (.sizeof ty) h
  | rawUnionGep lvalue variant =>
    refine emitted_of_map (fun r b' h => ?_) h
    exact emitted_of_emitLValue (.refl _) rfl (.rawUnionGep lvalue variant) h
  | unary op value =>
    refine emitted_of_map (fun r b' h => ?_) h
    exact emitted_of_typeOf (fun _ hs => .unary op hs) h
  | addressOf lvalue =>
    refine emitted_of_map (fun r b' h => ?_) h
    exact emitted_of_typeOf (fun _ hs => .addressOf hs) h
  | getPointer ptr index =>
    refine emitted_of_map (fun r b' h => ?_) h
    exact emitted_of_typeOf (fun _ hs => .getPointer index hs) h
  | setField field aggregate value =>
    refine emitted_of_map (fun r b' h => ?_) h
    exact emitted_of_typeOf (fun _ hs => .setField field value hs) h
  | setVariantId union id =>
    refine emitted_of_map (fun r b' h => ?_) h
    exact emitted_of_typeOf (fun _ hs => .setVariantId id hs) h
  | dereference ptr =>
    refine emitted_of_map (fun r b' h => ?_) h
    obtain ⟨pointee, _, hpointee, h⟩ := Build.bind_eq_ok_iff.mp h
    obtain ⟨ty, hs, hp, rfl⟩ := Build.pointeeOf_eq_ok hpointee
    exact emitted_of_emitLValue (.refl _) rfl (.dereference hs hp) h
  | readPtr ptr =>
    refine emitted_of_map (fun r b' h => ?_) h
    obtain ⟨pointee, _, hpointee, h⟩ := Build.bind_eq_ok_iff.mp h
    obtain ⟨_, _, _, rfl⟩ := Build.pointeeOf_eq_ok hpointee
    exact emitted_of_emitValue (.refl _) rfl (.readPtr ptr pointee) h
  | getGep2 ptr first second =>
    refine emitted_of_map (fun r b' h => ?_) h
    obtain ⟨array, _, hpointee, h⟩ := Build.bind_eq_ok_iff.mp h
    obtain ⟨ty, hs, hp, rfl⟩ := Build.pointeeOf_eq_ok hpointee
    cases helem : array.element? with
    | none => simp [helem] at h
    | some elem =>
      simp only [helem] at h
      exact emitted_of_emitValue (.refl _) rfl (.getGep2 first second hs hp helem) h
  | getField op aggregate =>
    refine emitted_of_map (fun r b' h => ?_) h
    obtain ⟨ty, _, hty, h⟩ := Build.bind_eq_ok_iff.mp h
    obtain ⟨hs, rfl⟩ := Build.typeOf_eq_ok hty
    obtain ⟨field, _, hlift, h⟩ := Build.bind_eq_ok_iff.mp h
    obtain ⟨hfield, rfl⟩ := Build.lift_eq_ok_iff.mp hlift
    exact emitted_of_emitValue (.refl _) rfl (.getField hs hfield) h
  | getStructMember lvalue member =>
    refine emitted_of_map (fun r b' h => ?_) h
    obtain ⟨_, _, c, b₁, hs, hm, hc, hgrows, hfunc, h⟩ := static_of_memberTy h
    exact emitted_of_emitLValue hgrows hfunc (.getStructMember hs hm hc) h
  | getPointerToStructMember ptr ptrIndex member =>
    refine emitted_of_map (fun r b' h => ?_) h
    obtain ⟨pointee, _, hpointee, h⟩ := Build.bind_eq_ok_iff.mp h
    obtain ⟨ty, hs, hp, rfl⟩ := Build.pointeeOf_eq_ok hpointee
    obtain ⟨t, _, hmember, h⟩ := Build.bind_eq_ok_iff.mp h
    obtain ⟨hm, rfl⟩ := Build.memberTy_eq_ok hmember
    obtain ⟨index, b₁, hc, h⟩ := Build.bind_eq_ok_iff.mp h
    obtain ⟨c, rfl, hc, hs, hgrows, hfunc⟩ := static_of_constInt hs hc
    exact emitted_of_emitValue hgrows hfunc (.getPointerToStructMember ptrIndex hs hp hm hc) h
  | insertValue aggregate element index =>
    refine emitted_of_map (fun r b' h => ?_) h
    obtain ⟨ty, _, hty, h⟩ := Build.bind_eq_ok_iff.mp h
    obtain ⟨hs, rfl⟩ := Build.typeOf_eq_ok hty
    obtain ⟨index, b₁, hc, h⟩ := Build.bind_eq_ok_iff.mp h
    obtain ⟨c, rfl, _, hs, hgrows, hfunc⟩ := static_of_constInt hs hc
    exact emitted_of_emitValue hgrows hfunc (.insertValue element _ hs) h
  | extractValue aggregate index =>
    refine emitted_of_map (fun r b' h => ?_) h
    obtain ⟨_, _, c, b₁, hs, hm, hc, hgrows, hfunc, h⟩ := static_of_memberTy h
    exact emitted_of_emitValue hgrows hfunc (.extractValue hs hm hc) h
  | unionGetValue union variant =>
    refine emitted_of_map (fun r b' h => ?_) h
    obtain ⟨_, _, c, b₁, hs, hm, hc, hgrows, hfunc, h⟩ := static_of_memberTy h
    exact emitted_of_emitValue hgrows hfunc (.unionGetValue hs hm hc) h
  | unionSetValue union variant value =>
    refine emitted_of_map (fun r b' h => ?_) h
    obtain ⟨ty, _, hty, h⟩ := Build.bind_eq_ok_iff.mp h
    obtain ⟨hs, rfl⟩ := Build.typeOf_eq_ok hty
    obtain ⟨index, b₁, hc, h⟩ := Build.bind_eq_ok_iff.mp h
    obtain ⟨c, rfl, _, hs, hgrows, hfunc⟩ := static_of_constInt hs hc
    exact emitted_of_emitValue hgrows hfunc (.unionSetValue _ value hs) h

end Emitted

/-! ## Where an instruction stands -/

/-- A position in a function body. -/
structure Site where
  func : FuncId
  block : BlockId
  pc : Nat

/-- Control of the frame is at the position. -/
def Frame.At (fr : Frame) (site : Site) : Prop :=
  fr.function = site.func ∧ fr.block = site.block ∧ fr.pc = site.pc

/-- The position of the instruction that a builder has appended last. -/
def Builder.lastSite? (b : Builder) : Option Site := do
  let id ← b.current
  let f ← b.module.functions[b.func.index]?
  let block ← f.block? id
  return ⟨b.func, id, block.instructions.size - 1⟩

/-- In every later module a frame at the position is at the instruction, whose result is declared
as announced. -/
structure Stands (m : Module) (site : Site) (inst : Instruction) (decl : Option LocalDecl) :
    Prop where
  announced : Announces m site.func inst.op inst.args decl
  current : ∀ fr : Frame, fr.At site → ∃ f block, fr.current m = .ok (f, block, inst) ∧
    inst.result.bind f.local? = decl
  bound : inst.result.isSome = decl.isSome

theorem Emitted.stands {b b' : Builder} {o : Option Operand} (h : Emitted b o b')
    (hgrows : b'.module.Grows m) : ∃ site inst decl, b'.lastSite? = some site ∧
      o = inst.result.map Operand.local ∧ Stands m site inst decl := by
  obtain ⟨b₁, op, args, decl, result, _, _, ha, hemit, rfl⟩ := h
  have hgrows₁ : b₁.module.Grows m := .trans (.instruction op args decl hemit) hgrows
  obtain ⟨f, id, block, hcur, hf, hblock, hresult, rfl⟩ := Build.emit_eq_ok hemit
  -- The instruction is now the last one of its block.
  have hfunc := Module.function_setFunction_self (m := b₁.module)
    (g := Build.extended f id block ⟨op, args, result⟩ decl) hf
  have hlt := (Array.getElem?_eq_some_iff.mp hblock).1
  have hfilled : (Build.extended f id block ⟨op, args, result⟩ decl).block? id =
      some { block with instructions := block.instructions.push ⟨op, args, result⟩ } := by
    unfold Function.block? Build.extended
    exact Array.getElem?_setIfInBounds_self_of_lt hlt
  refine ⟨⟨b₁.func, id, block.instructions.size⟩, ⟨op, args, result⟩, decl, ?_, rfl,
    ha.grows hgrows₁, ?_, ?_⟩
  · have hfound := orMissing_eq_ok_iff.mp hfunc
    simp only [Builder.lastSite?, hcur, hfound, hfilled, Option.bind_eq_bind, Option.bind_some,
      Array.size_push, Nat.add_sub_cancel]
    rfl
  · rintro fr ⟨hfun, hbl, hpc⟩
    -- What the module grows by afterwards leaves it in its place.
    obtain ⟨g, hg, hfg⟩ := hgrows.function_eq hfunc
    obtain ⟨block', hblock', hinst⟩ := hfg.instructions id _ hfilled
    refine ⟨g, block', ?_, ?_⟩
    · have hat : block'.instructions[fr.pc]? = some ⟨op, args, result⟩ := by
        apply hinst
        rw [hpc]
        exact Array.getElem?_push_size
      have hg' : m.function fr.function = .ok g := by
        rw [hfun]
        exact hg
      rw [Frame.current_of_function hg', hbl, hblock']
      simp only [hat]
    · rw [hresult]
      cases decl with
      | none => rfl
      | some d =>
        -- The declaration was appended together with the instruction.
        apply hfg.locals
        simp [Function.local?, Build.extended]
  · rw [hresult]
    cases decl <;> rfl

end PackedIR
