/-
The announced types are the types of the results.

A builder declares the result of an instruction before it is ever executed, and the
machine computes the result without looking at the declaration, except to bind it.
Rule by rule, what is computed has the announced representation: the static types of
operands are the types they evaluate to, and the members that a builder reads off a type
are those that a layout places. A direct call is special, because its value comes from
another frame. That frame executes the callee the instruction names, for every frame but
the innermost stays at the call that entered the frame above it.
-/
import Mathlib.Data.List.Chain
import PackedIR.Proofs.Bindings
import PackedIR.Proofs.Emitters

set_option autoImplicit false

namespace PackedIR

variable {p : Program} {s t : State} {fr : Frame} {rest : List Frame}

/-! ## Representations -/

/-- The value can be bound under the type without loss: its own type differs at most in the
mutability of a pointer, and its bytes fill it. -/
def Value.Represents (v : Value) (ty : Ty) : Prop := v.ty.sameRepr ty = true ∧ v.size = v.ty.size

theorem Value.HasTy.represents {v : Value} {ty : Ty} (h : v.HasTy ty) : v.Represents ty := by
  refine ⟨?_, ?_⟩
  · rw [h.1]
    exact Ty.sameRepr_refl ty
  · rw [h.1]
    exact h.2

theorem Value.Represents.retype_eq_ok {v : Value} {ty : Ty} (h : v.Represents ty) :
    v.retype ty = .ok { v with ty } := by
  rw [Value.retype_eq_ok_iff]
  refine ⟨?_, rfl⟩
  rw [h.2, Ty.size_eq_of_sameRepr h.1]

/-! ## Operands of known static type -/

theorem memberOf_eq_ok_iff {ty : Ty} {index : Nat} {m : Member} :
    memberOf ty index = .ok m ↔ (Layout.of ty).member? index = some m := by
  unfold memberOf
  cases (Layout.of ty).member? index <;> simp

namespace Exec

theorem hasTy_of_static (hs : WellTyped p s) (hfr : s.frames = fr :: rest) {o : Operand} {ty : Ty}
    (hstatic : o.Static p.module fr.function ty) {v : Value} (h : operand p o s = .ok v t) :
    v.HasTy ty := by
  cases hstatic with
  | «local» hf hl =>
    obtain ⟨fr', rest', f', decl', hfr', hf', hl', hv⟩ := hasTy_of_localOperand hs h
    rw [hfr] at hfr'
    cases hfr'
    rw [hf] at hf'
    cases hf'
    rw [hl] at hl'
    cases hl'
    exact hv
  | const hc =>
    obtain ⟨c', hc', hv⟩ := hasTy_of_constOperand hs h
    rw [hc] at hc'
    cases hc'
    exact hv
  | type ty => exact absurd (lift_eq_ok_iff.mp h).1 (by simp)

/-- The contents type of an l-value operand is its static type. -/
theorem eq_of_operandAddress (hfr : s.frames = fr :: rest) {o : Operand} {ty ty' : Ty}
    (hstatic : o.Static p.module fr.function ty) {address : Nat}
    (h : operandAddress p o s = .ok (address, ty') t) : ty' = ty := by
  rcases operandAddress_eq_ok h with
    ⟨l, fr', _, f, v, rfl, hfr', hf, _, hdecl, _, _⟩ | ⟨id, g, v, rfl, hc, _, _⟩
  · rw [hfr] at hfr'
    cases hfr'
    cases hstatic with
    | «local» hf' hdecl' =>
      rw [hf] at hf'
      cases hf'
      rw [hdecl] at hdecl'
      cases hdecl'
      rfl
  · cases hstatic with
    | const hc' =>
      rw [hc] at hc'
      cases hc'
      rfl

theorem pointee_of_pointerOperand (hs : WellTyped p s) (hfr : s.frames = fr :: rest) {o : Operand}
    {ty pointee : Ty} (hstatic : o.Static p.module fr.function ty) {address : Nat}
    (h : pointerOperand p o s = .ok (address, pointee) t) : ty.pointee? = some pointee := by
  obtain ⟨v, _, hv, hrest⟩ := bind_eq_ok_iff.mp h
  rw [← (hasTy_of_static hs hfr hstatic hv).1]
  cases hp : v.ty.pointee? with
  | none =>
    simp only [hp] at hrest
    exact absurd (lift_eq_ok_iff.mp hrest).1 (by simp)
  | some pointee' =>
    simp only [hp] at hrest
    obtain ⟨_, _, _, hpure⟩ := bind_eq_ok_iff.mp hrest
    cases hpure
    rfl

theorem containerOperand_eq_ok {container : Container} {op : Opcode} {o : Operand} {v : Value}
    (h : containerOperand p container op o s = .ok v t) :
    operand p o s = .ok v t ∧ container.accepts v.ty = true := by
  obtain ⟨w, u, hw, hrest⟩ := bind_eq_ok_iff.mp h
  by_cases haccepts : container.accepts w.ty = true
  · rw [if_pos haccepts] at hrest
    cases hrest
    exact ⟨hw, haccepts⟩
  · rw [if_neg haccepts] at hrest
    exact absurd (lift_eq_ok_iff.mp hrest).1 (by simp)

/-- An index constant is the number it was made from. -/
theorem constIndex_eq_ok {c : ConstId} {ty : Ty} {i : Int}
    (hc : p.module.constant c = .ok ⟨ty, .int i⟩) {n : Nat}
    (h : constIndex p (.const c) s = .ok n t) : n = i.toNat ∧ t = s := by
  obtain ⟨c', _, hlift, hrest⟩ := bind_eq_ok_iff.mp h
  obtain ⟨hc', rfl⟩ := liftFault_eq_ok_iff.mp hlift
  rw [hc] at hc'
  cases hc'
  by_cases hrange : 0 ≤ i ∧ i < addressLimit
  · simp only [if_pos hrange] at hrest
    cases hrest
    exact ⟨rfl, rfl⟩
  · simp only [if_neg hrange] at hrest
    exact absurd (lift_eq_ok_iff.mp hrest).1 (by simp)

/-- A member that both the builder and the layout find under an index constant. -/
theorem member_ty_eq {c : ConstId} {cty ty member : Ty} {index n : Nat} {m : Member}
    (hc : p.module.constant c = .ok ⟨cty, .int index⟩) (hmember : ty.memberTy? index = some member)
    (hn : constIndex p (.const c) s = .ok n t) (hm : memberOf ty n = .ok m) : m.ty = member := by
  have hindex := (constIndex_eq_ok hc hn).1
  rw [hindex, Int.toNat_natCast, memberOf_eq_ok_iff] at hm
  exact Ty.memberTy?_eq_member? hmember hm

/-! ## Results, rule by rule -/

section Results

variable {f : Function} {inst : Instruction} {decl : LocalDecl} {v : Value}

theorem eq_ok_of_return {α β : Type} {x : Exec α} {g : α → β} {b : β}
    (h : (do return g (← x) : Exec β) s = .ok b t) : ∃ a, x s = .ok a t ∧ b = g a := by
  obtain ⟨a, u, ha, hpure⟩ := bind_eq_ok_iff.mp h
  cases hpure
  exact ⟨a, ha, rfl⟩

theorem resultDecl_of_bind (hdecl : inst.result.bind f.local? = some decl) :
    resultDecl f inst = .ok decl := by
  simp only [resultDecl, hdecl]

theorem hasTy_of_binary {op : BinaryOp} {left right : Operand} {ty : Ty}
    (hleft : ∀ l u, operand p left s = .ok l u → op.resultTy l.ty = ty)
    (hargs : inst.args = [left, right]) (hdecl : inst.result.bind f.local? = some ⟨ty, false⟩)
    (h : binary p f inst op s = .ok v t) : v.HasTy ty := by
  unfold binary at h
  simp only [hargs] at h
  obtain ⟨l, _, hl, h⟩ := bind_eq_ok_iff.mp h
  obtain ⟨r, _, _, h⟩ := bind_eq_ok_iff.mp h
  obtain ⟨w, _, hw, h⟩ := bind_eq_ok_iff.mp h
  have htyped := BinaryOp.hasTy_of_eval (lift_eq_ok_iff.mp hw).1
  rw [hleft l _ hl] at htyped
  -- Orderings are made anew under the declared type; the others stay as computed.
  cases op with
  | intOrder | floatOrder =>
    simp only [resultDecl_of_bind hdecl] at h
    rw [bind_of_ok (lift_ok _ _)] at h
    exact Value.hasTy_of_ofInt (lift_eq_ok_iff.mp h).1
  | int | float | intCompare | floatCompare | bitwise | shift =>
    cases h
    exact htyped

theorem hasTy_of_getPointer (hs : WellTyped p s) (hfr : s.frames = fr :: rest)
    {ptr index : Operand} {ty : Ty} (hstatic : ptr.Static p.module fr.function ty)
    (h : getPointer p ptr index s = .ok v t) : v.HasTy ty := by
  obtain ⟨base, _, hbase, h⟩ := bind_eq_ok_iff.mp h
  have hty := (hasTy_of_static hs hfr hstatic hbase).1
  cases hp : base.ty.pointee? with
  | none =>
    simp only [hp] at h
    exact absurd (lift_eq_ok_iff.mp h).1 (by simp)
  | some pointee =>
    simp only [hp] at h
    obtain ⟨i, _, _, h⟩ := bind_eq_ok_iff.mp h
    obtain ⟨address, _, hv⟩ := eq_ok_of_return h
    -- The base is a pointer, and the result takes its type over.
    rw [hv, hty]
    rw [hty] at hp
    cases ty <;> cases hp
    exact Value.hasTy_ofAddress_pointer _ _ _

theorem hasTy_of_getGep2 (hs : WellTyped p s) (hfr : s.frames = fr :: rest)
    {ptr first second : Operand} {ty array elem : Ty}
    (hstatic : ptr.Static p.module fr.function ty) (hp : ty.pointee? = some array)
    (helem : array.element? = some elem) (h : getGep2 p ptr first second s = .ok v t) :
    v.HasTy (Ty.mutPtrTo elem) := by
  obtain ⟨⟨base, array'⟩, _, hbase, h⟩ := bind_eq_ok_iff.mp h
  have hpointee := pointee_of_pointerOperand hs hfr hstatic hbase
  rw [hp, Option.some.injEq] at hpointee
  subst hpointee
  simp only [helem] at h
  obtain ⟨i, _, _, h⟩ := bind_eq_ok_iff.mp h
  obtain ⟨j, _, hv⟩ := eq_ok_of_return h
  rw [hv]
  exact Value.hasTy_ofAddress_pointer _ _ _

theorem hasTy_of_getStructMember (hfr : s.frames = fr :: rest) {lvalue : Operand} {c : ConstId}
    {index : Nat} {ty cty member : Ty} (hstatic : lvalue.Static p.module fr.function ty)
    (hmember : ty.memberTy? index = some member)
    (hc : p.module.constant c = .ok ⟨cty, .int index⟩)
    (h : getStructMember p lvalue (.const c) s = .ok v t) : v.HasTy (Ty.mutPtrTo member) := by
  obtain ⟨⟨address, ty'⟩, _, haddress, h⟩ := bind_eq_ok_iff.mp h
  rw [eq_of_operandAddress hfr hstatic haddress] at h
  obtain ⟨n, _, hn, h⟩ := bind_eq_ok_iff.mp h
  obtain ⟨m, _, hm, h⟩ := bind_eq_ok_iff.mp h
  obtain ⟨_, _, hv⟩ := eq_ok_of_return h
  rw [hv, member_ty_eq hc hmember hn (lift_eq_ok_iff.mp hm).1]
  exact Value.hasTy_ofAddress_pointer _ _ _

theorem hasTy_of_getPointerToStructMember (hs : WellTyped p s) (hfr : s.frames = fr :: rest)
    {ptr ptrIndex : Operand} {c : ConstId} {index : Nat} {ty pointee cty member : Ty}
    (hstatic : ptr.Static p.module fr.function ty) (hp : ty.pointee? = some pointee)
    (hmember : pointee.memberTy? index = some member)
    (hc : p.module.constant c = .ok ⟨cty, .int index⟩)
    (h : getPointerToStructMember p ptr ptrIndex (.const c) s = .ok v t) :
    v.HasTy (Ty.mutPtrTo member) := by
  obtain ⟨⟨base, pointee'⟩, _, hbase, h⟩ := bind_eq_ok_iff.mp h
  have hpointee := pointee_of_pointerOperand hs hfr hstatic hbase
  rw [hp, Option.some.injEq] at hpointee
  subst hpointee
  obtain ⟨n, _, hn, h⟩ := bind_eq_ok_iff.mp h
  obtain ⟨m, _, hm, h⟩ := bind_eq_ok_iff.mp h
  obtain ⟨i, _, _, h⟩ := bind_eq_ok_iff.mp h
  obtain ⟨_, _, hv⟩ := eq_ok_of_return h
  rw [hv, member_ty_eq hc hmember hn (lift_eq_ok_iff.mp hm).1]
  exact Value.hasTy_ofAddress_pointer _ _ _

/-- What an instruction on places computes has the announced type. -/
theorem hasTy_of_place (hs : WellTyped p s) (hfr : s.frames = fr :: rest) {op : PlaceOp}
    (ha : Announces p.module fr.function (.place op) inst.args (some decl))
    (hdecl : inst.result.bind f.local? = some decl)
    (h : place p f inst op s = .ok (some v) t) : v.HasTy decl.boundTy := by
  obtain ⟨iop, args, result⟩ := inst
  dsimp only at ha hdecl
  cases ha with
  | stackAlloc ty =>
    obtain ⟨address, _, hv⟩ := eq_ok_of_return h
    cases hv
    exact Value.hasTy_ofAddress_pointer ty true address
  | createLVal ty =>
    obtain ⟨address, _, hv⟩ := eq_ok_of_return h
    cases hv
    exact Value.hasTy_ofAddress_pointer _ true address
  | sizeof ty =>
    change (do
      let decl ← resultDecl f _
      return some (← Value.ofInt decl.ty ty.size) : Exec (Option Value)) s = _ at h
    rw [resultDecl_of_bind hdecl, bind_of_ok (lift_ok _ _)] at h
    obtain ⟨w, hw, hv⟩ := eq_ok_of_return h
    cases hv
    exact Value.hasTy_of_ofInt (lift_eq_ok_iff.mp hw).1
  | readPtr ptr pointee =>
    obtain ⟨pointer, _, _, h⟩ := bind_eq_ok_iff.mp h
    obtain ⟨address, _, _, h⟩ := bind_eq_ok_iff.mp h
    rw [resultDecl_of_bind hdecl, bind_of_ok (lift_ok _ _)] at h
    obtain ⟨w, hw, hv⟩ := eq_ok_of_return h
    cases hv
    exact hasTy_of_load hw
  | addressOf hstatic =>
    obtain ⟨⟨address, ty⟩, haddress, hv⟩ := eq_ok_of_return h
    rw [eq_of_operandAddress hfr hstatic haddress] at hv
    cases hv
    exact Value.hasTy_ofAddress_pointer _ true address
  | rawUnionGep lvalue variant =>
    obtain ⟨⟨address, ty⟩, _, hv⟩ := eq_ok_of_return h
    cases hv
    exact Value.hasTy_ofAddress_pointer _ true address
  | dereference hstatic hp =>
    obtain ⟨⟨address, pointee⟩, haddress, hv⟩ := eq_ok_of_return h
    have hpointee := pointee_of_pointerOperand hs hfr hstatic haddress
    rw [hp, Option.some.injEq] at hpointee
    subst hpointee
    cases hv
    exact Value.hasTy_ofAddress_pointer _ true address
  | getPointer index hstatic =>
    obtain ⟨w, hw, hv⟩ := eq_ok_of_return h
    cases hv
    exact hasTy_of_getPointer hs hfr hstatic hw
  | getGep2 first second hstatic hp helem =>
    obtain ⟨w, hw, hv⟩ := eq_ok_of_return h
    cases hv
    exact hasTy_of_getGep2 hs hfr hstatic hp helem hw
  | getStructMember hstatic hmember hc =>
    obtain ⟨w, hw, hv⟩ := eq_ok_of_return h
    cases hv
    exact hasTy_of_getStructMember hfr hstatic hmember hc hw
  | getPointerToStructMember ptrIndex hstatic hp hmember hc =>
    obtain ⟨w, hw, hv⟩ := eq_ok_of_return h
    cases hv
    exact hasTy_of_getPointerToStructMember hs hfr hstatic hp hmember hc hw
  -- Getters are no instructions on places.
  | getField hstatic hfield => cases hfield

theorem hasTy_of_insertValue (hs : WellTyped p s) (hfr : s.frames = fr :: rest)
    {aggregate element index : Operand} {ty : Ty} {result : Option Local}
    (hstatic : aggregate.Static p.module fr.function ty)
    (h : Exec.aggregate p ⟨.insertValue, [aggregate, element, index], result⟩ s = .ok v t) :
    v.HasTy ty := by
  obtain ⟨a, _, ha, h⟩ := bind_eq_ok_iff.mp h
  obtain ⟨e, _, _, h⟩ := bind_eq_ok_iff.mp h
  obtain ⟨n, _, _, h⟩ := bind_eq_ok_iff.mp h
  obtain ⟨m, _, _, h⟩ := bind_eq_ok_iff.mp h
  rw [← (hasTy_of_static hs hfr hstatic ha).1]
  exact Value.hasTy_of_setMember (lift_eq_ok_iff.mp h).1

theorem hasTy_of_extractValue (hs : WellTyped p s) (hfr : s.frames = fr :: rest)
    {aggregate : Operand} {c : ConstId} {index : Nat} {ty cty member : Ty} {result : Option Local}
    (hstatic : aggregate.Static p.module fr.function ty)
    (hmember : ty.memberTy? index = some member)
    (hc : p.module.constant c = .ok ⟨cty, .int index⟩)
    (h : Exec.aggregate p ⟨.extractValue, [aggregate, .const c], result⟩ s = .ok v t) :
    v.HasTy member := by
  obtain ⟨a, _, ha, h⟩ := bind_eq_ok_iff.mp h
  obtain ⟨n, _, hn, h⟩ := bind_eq_ok_iff.mp h
  obtain ⟨m, _, hm, h⟩ := bind_eq_ok_iff.mp h
  rw [(hasTy_of_static hs hfr hstatic ha).1] at hm
  rw [← member_ty_eq hc hmember hn (lift_eq_ok_iff.mp hm).1]
  exact Value.hasTy_of_getMember (lift_eq_ok_iff.mp h).1

theorem hasTy_of_unionGetValue (hs : WellTyped p s) (hfr : s.frames = fr :: rest)
    {union : Operand} {c : ConstId} {index : Nat} {ty cty member : Ty} {result : Option Local}
    (hstatic : union.Static p.module fr.function ty)
    (hmember : ty.memberTy? index = some member)
    (hc : p.module.constant c = .ok ⟨cty, .int index⟩)
    (h : Exec.aggregate p ⟨.union .getValue, [union, .const c], result⟩ s = .ok v t) :
    v.HasTy member := by
  obtain ⟨u, _, hu, h⟩ := bind_eq_ok_iff.mp h
  obtain ⟨n, _, hn, h⟩ := bind_eq_ok_iff.mp h
  obtain ⟨m, _, hm, h⟩ := bind_eq_ok_iff.mp h
  rw [(hasTy_of_static hs hfr hstatic (containerOperand_eq_ok hu).1).1] at hm
  rw [← member_ty_eq hc hmember hn (lift_eq_ok_iff.mp hm).1]
  exact Value.hasTy_of_getMember (lift_eq_ok_iff.mp h).1

theorem hasTy_of_unionSetValue (hs : WellTyped p s) (hfr : s.frames = fr :: rest)
    {op : Opcode} {union variant value : Operand} {ty : Ty}
    (hstatic : union.Static p.module fr.function ty)
    (h : unionSetValue p op union variant value s = .ok v t) : v.HasTy ty := by
  obtain ⟨u, _, hu, h⟩ := bind_eq_ok_iff.mp h
  obtain ⟨n, _, _, h⟩ := bind_eq_ok_iff.mp h
  obtain ⟨m, _, _, h⟩ := bind_eq_ok_iff.mp h
  obtain ⟨w, _, _, h⟩ := bind_eq_ok_iff.mp h
  obtain ⟨tagged, _, htagged, h⟩ := bind_eq_ok_iff.mp h
  rw [← (hasTy_of_static hs hfr hstatic (containerOperand_eq_ok hu).1).1,
    ← (Value.hasTy_of_setMember (lift_eq_ok_iff.mp htagged).1).1]
  exact Value.hasTy_of_setMember (lift_eq_ok_iff.mp h).1

/-- A getter reads the slot that the builder has announced; a setter gives its container back. -/
theorem represents_of_getField (hs : WellTyped p s) (hfr : s.frames = fr :: rest) {field : Field}
    {aggregate : Operand} {ty announced : Ty}
    (hstatic : aggregate.Static p.module fr.function ty)
    (hfield : ty.fieldTy (.getField field) = .ok announced)
    (h : fieldAccess p inst field false aggregate [] s = .ok v t) : v.Represents announced := by
  obtain ⟨a, _, ha, h⟩ := bind_eq_ok_iff.mp h
  obtain ⟨hoperand, haccepts⟩ := containerOperand_eq_ok ha
  obtain ⟨m, _, hm, h⟩ := bind_eq_ok_iff.mp h
  have hm := memberOf_eq_ok_iff.mp (lift_eq_ok_iff.mp hm).1
  have hv := Value.hasTy_of_getMember (lift_eq_ok_iff.mp h).1
  rw [(hasTy_of_static hs hfr hstatic hoperand).1] at haccepts hm
  refine ⟨?_, ?_⟩
  · rw [hv.1]
    exact Ty.fieldTy_sameRepr hfield haccepts hm
  · rw [hv.1]
    exact hv.2

theorem hasTy_of_setField (hs : WellTyped p s) (hfr : s.frames = fr :: rest) {field : Field}
    {aggregate value : Operand} {ty : Ty} (hstatic : aggregate.Static p.module fr.function ty)
    (h : fieldAccess p inst field true aggregate [value] s = .ok v t) : v.HasTy ty := by
  obtain ⟨a, _, ha, h⟩ := bind_eq_ok_iff.mp h
  obtain ⟨m, _, _, h⟩ := bind_eq_ok_iff.mp h
  obtain ⟨w, _, _, h⟩ := bind_eq_ok_iff.mp h
  rw [← (hasTy_of_static hs hfr hstatic (containerOperand_eq_ok ha).1).1]
  exact Value.hasTy_of_setMember (lift_eq_ok_iff.mp h).1

theorem hasTy_of_getVariantId {union : Operand} {result : Option Local}
    (h : Exec.aggregate p ⟨.union .getVariantId, [union], result⟩ s = .ok v t) :
    v.HasTy Ty.word := by
  obtain ⟨u, _, _, h⟩ := bind_eq_ok_iff.mp h
  exact Value.hasTy_of_getMember (lift_eq_ok_iff.mp h).1

theorem hasTy_of_setVariantId (hs : WellTyped p s) (hfr : s.frames = fr :: rest)
    {union id : Operand} {ty : Ty} {result : Option Local}
    (hstatic : union.Static p.module fr.function ty)
    (h : Exec.aggregate p ⟨.union .setVariantId, [union, id], result⟩ s = .ok v t) :
    v.HasTy ty := by
  obtain ⟨u, _, hu, h⟩ := bind_eq_ok_iff.mp h
  obtain ⟨i, _, _, h⟩ := bind_eq_ok_iff.mp h
  rw [← (hasTy_of_static hs hfr hstatic (containerOperand_eq_ok hu).1).1]
  exact Value.hasTy_of_setMember (lift_eq_ok_iff.mp h).1

/-- What an instruction on aggregates computes has the announced representation. -/
theorem represents_of_aggregate (hs : WellTyped p s) (hfr : s.frames = fr :: rest)
    {op : Opcode} {args : List Operand} {result : Option Local}
    (hop : ∀ c, op ≠ .call c) (ha : Announces p.module fr.function op args (some decl))
    (h : Exec.aggregate p ⟨op, args, result⟩ s = .ok v t) : v.Represents decl.boundTy := by
  -- The rule of calls announces a declaration that depends on the callee.
  generalize hd : some decl = announced at ha
  cases ha with
  | call => exact absurd rfl (hop .direct)
  | insertValue element index hstatic =>
    cases hd
    exact (hasTy_of_insertValue hs hfr hstatic h).represents
  | extractValue hstatic hmember hc =>
    cases hd
    exact (hasTy_of_extractValue hs hfr hstatic hmember hc h).represents
  | setField field value hstatic =>
    cases hd
    exact (hasTy_of_setField hs hfr hstatic h).represents
  | setVariantId id hstatic =>
    cases hd
    exact (hasTy_of_setVariantId hs hfr hstatic h).represents
  | unionGetValue hstatic hmember hc =>
    cases hd
    exact (hasTy_of_unionGetValue hs hfr hstatic hmember hc h).represents
  | unionSetValue variant value hstatic =>
    cases hd
    exact (hasTy_of_unionSetValue hs hfr hstatic h).represents
  | getField hstatic hfield =>
    cases hd
    cases op with
    | getField field => exact represents_of_getField hs hfr hstatic hfield h
    | union uop =>
      cases uop with
      | getVariantId =>
        cases hfield
        exact (hasTy_of_getVariantId h).represents
      | setVariantId | getValue | setValue => cases hfield
    | _ => cases hfield
  | _ => exact absurd (lift_eq_ok_iff.mp h).1 (by simp [raiseOperand])

/-- Native code called by name gives a value of the callee's return type. -/
theorem hasTy_of_call {op : CallOp} {args : List Operand} {result : Option Local}
    (ha : Announces p.module fr.function (.call op) args (some decl))
    (h : call p ⟨.call op, args, result⟩ op s = .ok (.returned v) t) : v.HasTy decl.boundTy := by
  obtain ⟨rfl, c, id, g, sig, rest, rfl, hc, hg, hsig, rfl⟩ := ha.call_eq
  obtain ⟨c', _, hlift, h⟩ := bind_eq_ok_iff.mp h
  obtain ⟨hc', rfl⟩ := liftFault_eq_ok_iff.mp hlift
  rw [hc] at hc'
  cases hc'
  obtain ⟨vs, _, _, h⟩ := bind_eq_ok_iff.mp h
  obtain ⟨g', sig', hg', hsig', hv, _⟩ := returns_of_startCall h
  rw [hg] at hg'
  cases hg'
  rw [hsig] at hsig'
  cases hsig'
  exact hv

/-- An instruction that completes at once gives a value of the announced representation. -/
theorem represents_of_execute (hs : WellTyped p s) (hfr : s.frames = fr :: rest)
    (ha : Announces p.module fr.function inst.op inst.args (some decl))
    (hdecl : inst.result.bind f.local? = some decl)
    (h : execute p f inst s = .ok (.complete (some v)) t) : v.Represents decl.boundTy := by
  obtain ⟨op, args, result⟩ := inst
  dsimp only at ha
  cases op with
  | place op =>
    obtain ⟨w, hw, hv⟩ := eq_ok_of_return h
    cases hv
    exact (hasTy_of_place hs hfr ha hdecl hw).represents
  | binary op =>
    obtain ⟨w, hw, hv⟩ := eq_ok_of_return h
    cases hv
    cases ha with
    | binary op right hstatic =>
      refine (hasTy_of_binary (fun l u hl => ?_) rfl hdecl hw).represents
      rw [(hasTy_of_static hs hfr hstatic hl).1]
    | compare left right hty =>
      exact (hasTy_of_binary (fun l u _ => hty l.ty) rfl hdecl hw).represents
    | getField _ hfield => cases hfield
  | unary op =>
    obtain ⟨w, hw, hv⟩ := eq_ok_of_return h
    cases hv
    cases ha with
    | unary op hstatic =>
      obtain ⟨u, _, hu, hw⟩ := bind_eq_ok_iff.mp hw
      have hty := UnaryOp.hasTy_of_eval (lift_eq_ok_iff.mp hw).1
      rw [(hasTy_of_static hs hfr hstatic hu).1] at hty
      exact hty.represents
    | getField _ hfield => cases hfield
  | cast op =>
    obtain ⟨w, hw, hv⟩ := eq_ok_of_return h
    cases hv
    cases ha with
    | cast op value target =>
      obtain ⟨u, _, _, hw⟩ := bind_eq_ok_iff.mp hw
      exact (CastOp.hasTy_of_eval (lift_eq_ok_iff.mp hw).1).represents
    | getField _ hfield => cases hfield
  | call op =>
    obtain ⟨started, _, hstarted, h⟩ := bind_eq_ok_iff.mp h
    cases started with
    | entered => cases h
    | returned w =>
      cases h
      exact (hasTy_of_call ha hstarted).represents
  | insertValue | extractValue | getField | setField | union =>
    obtain ⟨w, hw, hv⟩ := eq_ok_of_return h
    cases hv
    refine represents_of_aggregate hs hfr (fun c hc => ?_) ha hw
    cases hc
  | phi | ret | branch | condBranch | unreachable =>
    cases ha with
    | getField _ hfield => cases hfield

end Results

end Exec

/-! ## Pending calls -/

/-- The caller is at an instruction that calls the function of the frame above it. -/
def Frame.EnteredFrom (m : Module) (callee caller : Frame) : Prop :=
  ∃ f block inst, caller.current m = .ok (f, block, inst) ∧ inst.Calls m callee.function

/-- Every frame but the innermost is at the call that entered the frame above it. -/
def Linked (m : Module) (frames : List Frame) : Prop := frames.IsChain (Frame.EnteredFrom m)

namespace Linked

variable {m : Module} {fr' : Frame}

theorem tail (h : Linked m (fr :: rest)) : Linked m rest := by
  cases h with
  | singleton => exact .nil
  | cons_cons _ h => exact h

/-- Only the function of the innermost frame matters. -/
theorem replace (h : Linked m (fr :: rest)) (hfun : fr'.function = fr.function) :
    Linked m (fr' :: rest) := by
  cases h with
  | singleton => exact .singleton fr'
  | cons_cons hentered h =>
    refine .cons_cons ?_ h
    unfold Frame.EnteredFrom
    rw [hfun]
    exact hentered

theorem deliver {v : Value} (h : Linked p.module s.frames) :
    Linked p.module ((Exec.deliver p 0 v).after s).frames := by
  cases hfr : s.frames with
  | nil =>
    have hle : s.frames.length ≤ 0 := by simp [hfr]
    rw [Exec.after_of_ok (Exec.deliver_of_le hle)]
    exact h
  | cons fr rest =>
    have hlt : 0 < s.frames.length := by simp [hfr]
    obtain ⟨⟨locals, pc, hshape⟩, _⟩ := Exec.deliver_shape (p := p) (v := v) hfr hlt
    rw [hshape]
    rw [hfr] at h
    exact h.replace rfl

theorem step (h : Linked p.module s.frames) :
    Linked p.module ((Exec.step p 0).after s).frames := by
  cases hfr : s.frames with
  | nil =>
    rw [Exec.after_of_error (Exec.step_nil 0 hfr)]
    exact h
  | cons fr rest =>
    rw [hfr] at h
    cases Exec.step_shape (p := p) 0 hfr with
    | inside fr' hfun hframes _ =>
      rw [hframes]
      exact h.replace hfun
    | entered callee hcur hcalls hstep hframes =>
      rw [Exec.after_of_ok hstep, hframes]
      exact .cons_cons ⟨_, _, _, hcur, hcalls⟩ h
    | returned _ _ _ _ hframes hstep =>
      -- The value goes to the frame below, which keeps its function.
      rw [Exec.after_congr hstep]
      apply deliver
      rw [hframes]
      exact h.tail

end Linked

theorem Reachable.linked (h : Reachable p s) : Linked p.module s.frames := by
  induction h with
  | idle h =>
    rw [h.frames_eq_nil]
    exact .nil
  | entered id args h hstart =>
    cases (Exec.startCall_settles (refl_of (Effects p) _)).of_ok hstart with
    | entered heff henters =>
      obtain ⟨locals, hframes⟩ := henters.frames
      rw [hframes, heff.frames_eq, h.frames_eq_nil]
      exact .singleton _
  | evaluated os _ ih =>
    rw [(Exec.operands_makes os _).frames_eq]
    exact ih
  | stepped _ ih => exact ih.step

/-! ## Results are bound -/

/-- The instruction `inst` of `f` at `site` has given the value `v`, which is to be bound in `t`. -/
inductive Produces (p : Program) (site : Site) (f : Function) (inst : Instruction) (v : Value)
    (t : State) : Prop where
  /-- The instruction has been executed in the innermost frame. -/
  | computed {s : State} {fr : Frame} {rest : List Frame} {block : Block}
      (reachable : Reachable p s) (frames : s.frames = fr :: rest) (stands : fr.At site)
      (current : fr.current p.module = .ok (f, block, inst))
      (executed : Exec.execute p f inst s = .ok (.complete (some v)) t)
  /-- The function that the instruction has called returns. -/
  | returned {s u : State} {callee caller : Frame} {rest : List Frame} {block block' : Block}
      {g : Function} {ret : Instruction} (reachable : Reachable p s)
      (frames : s.frames = callee :: caller :: rest) (stands : caller.At site)
      (current : caller.current p.module = .ok (f, block, inst))
      (leaving : callee.current p.module = .ok (g, block', ret))
      (executed : Exec.execute p g ret s = .ok (.ret v) u) (popped : Exec.popFrame u = .ok () t)

section Produces

variable {site : Site} {f g : Function} {inst ret : Instruction} {v : Value} {block : Block}
  {decl : LocalDecl}

/-- A value that a callee returns is what the pending call has announced. -/
theorem Announces.hasTy_of_returned {callee : Frame}
    (ha : Announces p.module site.func inst.op inst.args (some decl))
    (hcalls : inst.Calls p.module callee.function)
    (hg : p.module.function callee.function = .ok g)
    (h : Exec.execute p g ret s = .ok (.ret v) t) : v.HasTy decl.boundTy := by
  obtain ⟨op, args, result⟩ := inst
  obtain ⟨c, hop, hdirect⟩ := hcalls
  dsimp only at ha hop hdirect
  subst hop
  obtain ⟨rfl, k, id, f, sig, rest, rfl, hc, hf, hsig, rfl⟩ := ha.call_eq
  -- The constant that names the callee in the rule is the one that has been called.
  obtain ⟨_, _, _, hargs, hc'⟩ := hdirect rfl
  cases hargs
  rw [hc] at hc'
  cases hc'
  rw [hf] at hg
  cases hg
  obtain ⟨sig', hsig', hv, _⟩ := Exec.hasTy_of_execute_ret h
  rw [hsig] at hsig'
  cases hsig'
  exact hv

/-- What is produced has the announced representation. -/
theorem Produces.represents (h : Produces p site f inst v t) (hp : p.module.Built)
    (ha : Announces p.module site.func inst.op inst.args (some decl))
    (hdecl : inst.result.bind f.local? = some decl) : v.Represents decl.boundTy := by
  cases h with
  | computed hs hfr hat hcur hx =>
    rw [← hat.1] at ha
    exact Exec.represents_of_execute (hs.wellTyped hp) hfr ha hdecl hx
  | returned hs hfr hat hcur hleaving hx =>
    -- The caller is still at the call that entered the frame which now returns.
    have hlinked := hs.linked
    rw [hfr] at hlinked
    cases hlinked with
    | cons_cons hentered _ =>
      obtain ⟨_, _, _, hcur', hcalls⟩ := hentered
      rw [hcur] at hcur'
      cases hcur'
      have hg := (Exec.current_eq_ok hleaving).1
      exact (ha.hasTy_of_returned hcalls hg hx).represents

/-- The frame in which the value is to be bound has a slot for each local of its function. -/
theorem Produces.frames (h : Produces p site f inst v t) (hp : p.module.Built) :
    ∃ fr rest, t.frames = fr :: rest ∧ fr.locals.size = f.locals.size := by
  cases h with
  | @computed s fr rest _ hs hfr _ hcur hx =>
    obtain ⟨f', hf', hfits⟩ := (hs.wellTyped hp).frames fr (by rw [hfr]; simp)
    rw [(Exec.current_eq_ok hcur).1] at hf'
    cases hf'
    obtain ⟨allocs, ht⟩ := ((Exec.execute_settles f inst).of_ok hx).frames hfr (by simp)
    exact ⟨_, _, ht, hfits.slots⟩
  | @returned s u callee caller rest _ _ _ _ hs hfr _ hcur _ hx hpop =>
    obtain ⟨f', hf', hfits⟩ := (hs.wellTyped hp).frames caller (by rw [hfr]; simp)
    rw [(Exec.current_eq_ok hcur).1] at hf'
    cases hf'
    obtain ⟨allocs, hu⟩ := ((Exec.execute_settles _ _).of_ok hx).frames hfr (by simp)
    cases Exec.leaves_of_popFrame hpop with
    | intro hu' _ =>
      rw [hu] at hu'
      cases hu'
      exact ⟨_, _, rfl, hfits.slots⟩

/-- A value is produced only by the instruction that stands at the position. -/
theorem Stands.of_produces {standing : Instruction} {announced : Option LocalDecl}
    (hstands : Stands p.module site standing announced) (h : Produces p site f inst v t) :
    inst = standing ∧ inst.result.bind f.local? = announced := by
  have hframe : ∃ (fr : Frame) (block : Block), fr.At site ∧
      fr.current p.module = .ok (f, block, inst) := by
    cases h with
    | computed _ _ hat hcur => exact ⟨_, _, hat, hcur⟩
    | returned _ _ hat hcur => exact ⟨_, _, hat, hcur⟩
  obtain ⟨fr, block, hat, hcur⟩ := hframe
  obtain ⟨f', block', hcur', hdecl⟩ := hstands.current fr hat
  rw [hcur] at hcur'
  cases hcur'
  exact ⟨rfl, hdecl⟩

/-- A represented value is bound without failure. -/
theorem Exec.bindResult_of_represents {l : Local} {fr : Frame} {rest : List Frame}
    (hl : inst.result = some l) (hdecl : f.local? l = some decl) (hv : v.Represents decl.boundTy)
    (ht : t.frames = fr :: rest) (hslots : fr.locals.size = f.locals.size) :
    ∃ u, bindResult f inst v t = .ok () u := by
  have hlt : l.index < f.locals.size := (Array.getElem?_eq_some_iff.mp hdecl).1
  refine ⟨_, (bindResult_eq_ok_iff hl).mpr ⟨decl, _, fr, rest, hdecl, hv.retype_eq_ok, ht, ?_, rfl⟩⟩
  rw [hslots]
  exact hlt

end Produces

/-- Results of typed emitters can be bound. Let an emitter append an instruction to a function of a
built module, and let the module grow further and be executed. In every state of a session in
which the instruction gives a value, the value's type is that of the result's declaration up to
the mutability of pointers, and binding it succeeds. The builder's view of members and fields is
that of the layouts. -/
theorem emitted_results_bind {b b' : Builder} {e : Emitter} {o : Option Operand}
    (hb : b.module.Built) (he : e.run b = .ok (o, b')) (hgrows : b'.module.Grows p.module) :
    (∃ site, b'.lastSite? = some site ∧ ∀ f inst v t, Produces p site f inst v t →
      o = inst.result.map Operand.local ∧
      (∀ l, inst.result = some l → ∃ decl, f.local? l = some decl ∧
        v.ty.sameRepr decl.boundTy = true) ∧
      ∃ u, Exec.bindResult f inst v t = .ok () u) ∧
    (∀ (ty announced : Ty) (i : Nat) (m : Member), ty.memberTy? i = some announced →
      (Layout.of ty).member? i = some m → m.ty = announced) ∧
    (∀ (ty announced : Ty) (field : Field) (m : Member),
      ty.fieldTy (.getField field) = .ok announced → field.container.accepts ty = true →
      (Layout.of ty).member? field.slot = some m → m.ty.sameRepr announced = true) ∧
    ∀ ty announced : Ty, ty.fieldTy (.union .getVariantId) = .ok announced →
      variantIdMember.ty = announced := by
  refine ⟨?_, fun _ _ _ _ => Ty.memberTy?_eq_member?, fun _ _ _ _ => Ty.fieldTy_sameRepr, ?_⟩
  · have hemitted := Emitter.emitted he
    have hp : p.module.Built := hb.grows (.trans hemitted.grows hgrows)
    obtain ⟨site, standing, announced, hsite, ho, hstands⟩ := hemitted.stands hgrows
    refine ⟨site, hsite, fun f inst v t h => ?_⟩
    obtain ⟨rfl, hdecl⟩ := hstands.of_produces h
    refine ⟨ho, ?_⟩
    cases hl : inst.result with
    | none => exact ⟨by simp, t, Exec.bindResult_of_none hl⟩
    | some l =>
      -- A result is announced if and only if it is bound.
      have hsome := hstands.bound
      rw [hl, Option.isSome_some, eq_comm, Option.isSome_iff_exists] at hsome
      obtain ⟨decl, rfl⟩ := hsome
      have hv := h.represents hp hstands.announced hdecl
      rw [hl, Option.bind_some] at hdecl
      obtain ⟨fr, rest, ht, hslots⟩ := h.frames hp
      refine ⟨fun l' hl' => ?_, Exec.bindResult_of_represents hl hdecl hv ht hslots⟩
      cases hl'
      exact ⟨decl, hdecl, hv.1⟩
  · intro ty announced h
    cases h
    rfl

namespace Doubling

/-- What comes before the sum. -/
def storing : Build Unit := do
  let cell ← Build.createLVal Ty.i32
  Build.store (.local ⟨0⟩) cell

theorem appends_storing : Build.Appends storing :=
  (Build.appends_emitLValue _ _ _).bind fun _ => Build.appends_emitVoid _ _

def sum : Emitter := .binary (.int true .add) (.local ⟨1⟩) (.local ⟨1⟩)

/-- The builder of the function before the sum is emitted. -/
def stored : Builder :=
  (fill { name := "doubling" } "double" (.function [Ty.i32] Ty.i32 false) storing).toOption.get
    (by decide +kernel)

theorem stored_built : stored.module.Built := by
  have hfill : fill { name := "doubling" } "double" (.function [Ty.i32] Ty.i32 false) storing =
      .ok stored := rfl
  exact ⟨"doubling", grows_fill appends_storing hfill⟩

/-- The builder after it. -/
def summed : Builder := ((sum.run stored).toOption.get (by decide +kernel)).2

/-- The finished function. -/
def closed : Builder :=
  ((Build.ret (some (.local ⟨2⟩)) summed).toOption.get (by decide +kernel)).2

theorem grows_closed : summed.module.Grows closed.module := by
  have hret : Build.ret (some (.local ⟨2⟩)) summed = .ok ((), closed) := rfl
  exact (Build.appends_emitVoid _ _ _ _ _ hret).1

def summing : Program := { module := closed.module }

/-- The state in which the sum is to be computed. -/
def beforeSum : State :=
  (Exec.step summing 0).after ((Exec.step summing 0).after
    ((Exec.startCall summing ⟨0⟩ [argument]).after {}))

theorem beforeSum_reachable : Reachable summing beforeSum := by
  have hentered : Reachable summing ((Exec.startCall summing ⟨0⟩ [argument]).after {}) :=
    .entered ⟨0⟩ [argument] .fresh rfl
  unfold beforeSum
  exact .stepped (.stepped hentered)

/-- The bytes of the sum, computed in the innermost frame, if control is at it. -/
def sumBytes : Option Bytes :=
  match beforeSum.frames with
  | fr :: _ => match fr.current summing.module with
    | .ok (f, _, inst) => match Exec.execute summing f inst beforeSum with
      | .ok (.complete (some v)) _ =>
        if fr.function = ⟨0⟩ ∧ fr.block = ⟨0⟩ ∧ fr.pc = 2 then some v.bytes else none
      | _ => none
    | .error _ => none
  | [] => none

end Doubling

/-- The third instruction of the function gives twice the argument, and the sum is bound. -/
theorem emitted_results_bind_doubling : ∃ f inst v t,
    Produces Doubling.summing ⟨⟨0⟩, ⟨0⟩, 2⟩ f inst v t ∧ v.bytes = [42, 0, 0, 0] ∧
      ∃ u, Exec.bindResult f inst v t = .ok () u := by
  have hrun : Doubling.sum.run Doubling.stored = .ok (some (.local ⟨2⟩), Doubling.summed) := rfl
  obtain ⟨⟨site, hsite, hbind⟩, _⟩ :=
    emitted_results_bind (p := Doubling.summing) Doubling.stored_built hrun Doubling.grows_closed
  have hlast : Doubling.summed.lastSite? = some ⟨⟨0⟩, ⟨0⟩, 2⟩ := rfl
  rw [hlast, Option.some.injEq] at hsite
  subst hsite
  have hbytes : Doubling.sumBytes = some [42, 0, 0, 0] := by decide +kernel
  unfold Doubling.sumBytes at hbytes
  split at hbytes
  · rename_i fr rest hfr
    split at hbytes
    · rename_i f block inst hcur
      split at hbytes
      · rename_i v t hx
        split at hbytes
        · rename_i hat
          have h : Produces Doubling.summing ⟨⟨0⟩, ⟨0⟩, 2⟩ f inst v t :=
            .computed Doubling.beforeSum_reachable hfr hat hcur hx
          exact ⟨f, inst, v, t, h, Option.some.inj hbytes, (hbind f inst v t h).2.2⟩
        · cases hbytes
      · cases hbytes
    · cases hbytes
  · cases hbytes

end PackedIR
