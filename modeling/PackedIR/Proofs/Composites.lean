/-
How constants are made.

Materializing takes a budget, and the members of a constant are evaluated with a smaller one. The
budget decides only whether there is a result: what succeeds with some budget succeeds with every
larger one and does the same. So a constant that is used for the first time is made from its
members as operands, evaluated one after the other from the state of its first use, and nothing
remains to be said about budgets.

A composite is the concatenation of its members. If the members have the sizes of the members of a
layout, the offsets of the layout are the places where the parts begin, and each part can be cut out
again.
-/
import PackedIR.Proofs.Bindings
import PackedIR.Proofs.Layouts

set_option autoImplicit false

namespace PackedIR

variable {p : Program} {s t u : State} {id : ConstId} {c : Constant} {v : Value}

/-! ## The cache

Constants are cached, functions prepared and strings given an address only where something is made.
A relation that looks at nothing else has to be checked only there. -/

/-- The relation holds along everything that is made, and between states with the same constants,
prepared functions and strings. -/
structure CacheRelation (p : Program) (R : State → State → Prop) : Prop where
  trans : ∀ {s t u : State}, R s t → R t u → R s u
  makes : ∀ {s t : State}, Makes p s t → R s t
  same : ∀ {s t : State}, t.constants = s.constants → t.compiled = s.compiled →
    t.strings = s.strings → R s t

namespace CacheRelation

variable {R : State → State → Prop}

theorem effects (hR : CacheRelation p R) (h : Effects p s t) : R s t := by
  induction h with
  | makes h => exact hR.makes h
  | trans _ _ ih₁ ih₂ => exact hR.trans ih₁ ih₂
  | store | native => exact hR.same rfl rfl rfl

theorem prepares (hR : CacheRelation p R) (h : Prepares p s t) : R s t := by
  induction h with
  | effects h => exact hR.effects h
  | trans _ _ ih₁ ih₂ => exact hR.trans ih₁ ih₂
  | register | route | ready => exact hR.same rfl rfl rfl

theorem moves (hR : CacheRelation p R) (h : Moves p s t) : R s t := by
  induction h with
  | prepares h => exact hR.prepares h
  | trans _ _ ih₁ ih₂ => exact hR.trans ih₁ ih₂
  | allocates h | leaves h | enters _ h =>
    cases h
    exact hR.same rfl rfl rfl
  | bind | goto => exact hR.same rfl rfl rfl

end CacheRelation

/-- Cached constants stay, and what is added is a value of its constant. -/
structure Caches (p : Program) (s t : State) : Prop where
  kept : ∀ id v, s.constants.get? id = some v → t.constants.get? id = some v
  admitted : ∀ id v, t.constants.get? id = some v →
    s.constants.get? id = some v ∨ ∃ c, p.module.constant id = .ok c ∧ c.Admits v

namespace Caches

theorem of_eq (h : t.constants = s.constants) : Caches p s t := by
  refine ⟨fun _ _ hv => ?_, fun _ _ hv => .inl ?_⟩
  · rw [h]
    exact hv
  · rw [← h]
    exact hv

theorem trans (h : Caches p s t) (h' : Caches p t u) : Caches p s u := by
  refine ⟨fun id v hv => h'.kept id v (h.kept id v hv), fun id v hv => ?_⟩
  rcases h'.admitted id v hv with hv | hadmits
  · exact h.admitted id v hv
  · exact .inr hadmits

end Caches

theorem Makes.caches (h : Makes p s t) : Caches p s t := by
  induction h with
  | refl | place | intern | prepare => exact .of_eq rfl
  | trans _ _ ih₁ ih₂ => exact ih₁.trans ih₂
  | @make s t id c v found missing members admitted ih =>
    have hmakes := Makes.make id v found missing members admitted
    refine ⟨fun _ _ hv => hmakes.constants_get? hv, fun id' w hw => ?_⟩
    rw [Table.get?_insert] at hw
    split at hw
    · rename_i hid
      cases hw
      rw [hid]
      exact .inr ⟨c, found, admitted⟩
    · exact ih.admitted id' w hw

theorem Moves.caches (h : Moves p s t) : Caches p s t :=
  (CacheRelation.mk .trans Makes.caches fun hconstants _ _ => .of_eq hconstants).moves h

/-- What is cached in a session is a value of its constant. -/
theorem Moves.admits (h : Moves p {} s) (hv : s.constants.get? id = some v) :
    ∃ c, p.module.constant id = .ok c ∧ c.Admits v := by
  rcases h.caches.admitted id v hv with hnone | hadmits
  · cases hnone
  · exact hadmits

/-! ## References

Making a constant is evaluating what it refers to, and then putting it together. -/

/-- The member constants of a composite, in the order of its bytes. -/
def ConstKind.members? : ConstKind → Option (List ConstId)
  | .array elements | .tuple elements => some elements
  | .enumCase index value => some [index, value]
  | .slice data len => some [data, len]
  | .parts data len capacity => some [data, len, capacity]
  | _ => none

/-- What follows the member constants: a dynamic array has a reference count. -/
def ConstKind.trailer : ConstKind → List Value
  | .parts .. => [Value.ofWord 0]
  | _ => []

/-- The constants that are evaluated when a constant is made. -/
def ConstKind.references : ConstKind → List ConstId
  | .bitcast inner => [inner]
  | .owned contents => [contents]
  | kind => kind.members?.getD []

theorem ConstKind.ne_globalVar_of_members? {kind : ConstKind} {members : List ConstId}
    (h : kind.members? = some members) (g : GlobalId) : kind ≠ .globalVar g := by
  rintro rfl
  cases h

namespace Exec

/-- Puts a constant together from the values of its references. -/
def assemble (p : Program) (c : Constant) (values : List Value) : Exec Value :=
  match c.kind with
  | .bitcast _ => (values.headD default).retype c.ty
  | .owned _ => do
    let contents := values.headD default
    let address ← allocStatic p .constant contents.bytes
    ownedArray c.ty address (Layout.of contents.ty).memberCount
  | .array _ | .tuple _ | .enumCase .. | .slice .. | .parts .. =>
    concat c.ty (values ++ c.kind.trailer)
  | _ => materialize p (fun _ => throw .outOfFuel) c

theorem materialize_eq_assemble (op : ConstId → Exec Value) (c : Constant) :
    materialize p op c = constants op c.kind.references >>= assemble p c := by
  obtain ⟨ty, kind⟩ := c
  cases kind with
  | bitcast inner | owned array =>
    simp only [materialize, assemble, ConstKind.references, constants, bind_assoc, pure_bind,
      List.headD_cons]
  | array | tuple | enumCase | slice =>
    change (do concat ty (← constants op _)) = (do concat ty ((← constants op _) ++ []) : Exec Value)
    simp only [List.append_nil, ConstKind.references, ConstKind.members?, Option.getD_some]
  | _ => rfl

/-- Putting a constant together needs no more than its texts, buffers and functions. -/
theorem assemble_along {R : State → State → Prop} [Std.Refl R] [IsTrans State R]
    (hplace : ∀ kind bytes, Along R (allocStatic p kind bytes))
    (hintern : ∀ id, Along R (globalString p id)) (hprepare : ∀ id, Along R (compileFunction p id))
    (c : Constant) (vs : List Value) : Along R (assemble p c vs) := by
  have hmade : Along R (materialize p (fun _ => throw .outOfFuel) c) :=
    materialize_along (fun _ => (reads_throw _).along) hplace hintern hprepare c
  obtain ⟨ty, kind⟩ := c
  cases kind with
  | bitcast | array | tuple | enumCase | slice | parts => exact (reads_lift _).along
  | owned => exact (hplace _ _).bind fun _ => (reads_lift _).along
  | _ => exact hmade

theorem materialize_eq_ok_of_members? {members : List ConstId} {op : ConstId → Exec Value}
    (hmembers : c.kind.members? = some members) (h : materialize p op c s = .ok v t) :
    ∃ vs, constants op members s = .ok vs t ∧
      v = { ty := c.ty, bytes := (vs ++ c.kind.trailer).flatMap Value.bytes } ∧
      c.ty.size = v.size := by
  obtain ⟨ty, kind⟩ := c
  rw [materialize_eq_assemble] at h
  obtain ⟨vs, u, hvs, hassemble⟩ := bind_eq_ok_iff.mp h
  cases kind with
  | array | tuple | enumCase | slice | parts =>
    cases hmembers
    obtain ⟨hconcat, rfl⟩ := lift_eq_ok_iff.mp hassemble
    obtain ⟨hsize, rfl⟩ := Value.ofBytes_eq_ok_iff.mp hconcat
    exact ⟨vs, hvs, rfl, hsize⟩
  | _ => cases hmembers

end Exec

namespace Exec

/-! ## Budgets -/

theorem constOperand_eq (p : Program) (id : ConstId) :
    constOperand p id = constOperandWith p p.module.constants.size id := rfl

theorem constValueWith_eq_ok_iff {budget : Nat} (hmissing : s.constants.get? id = none) :
    constValueWith p (budget + 1) id s = .ok v t ↔
      ∃ c made u, p.module.constant id = .ok c ∧
        materialize p (constOperandWith p budget) c s = .ok made u ∧
        v = made.withOrigin (.const id) ∧
        t = { u with constants := u.constants.insert id v } := by
  rw [constValueWith_of_missing hmissing]
  simp only [bind_eq_ok_iff, liftFault_eq_ok_iff, within_eq_ok_iff, modify_apply, pure_apply]
  constructor
  · rintro ⟨c, _, ⟨hc, rfl⟩, made, u, hmade, _, _, hmod, hpure⟩
    cases hmod
    cases hpure
    exact ⟨c, made, u, hc, hmade, rfl, rfl⟩
  · rintro ⟨c, made, u, hc, hmade, rfl, rfl⟩
    exact ⟨c, s, ⟨hc, rfl⟩, made, u, hmade, ⟨⟩, _, rfl, rfl⟩

/-- `y` does what `x` does wherever `x` succeeds. -/
def Extends {α : Type} (x y : Exec α) : Prop := ∀ s a t, x s = .ok a t → y s = .ok a t

theorem Extends.refl {α : Type} (x : Exec α) : Extends x x := fun _ _ _ h => h

theorem Extends.bind {α β : Type} {x y : Exec α} {f g : α → Exec β} (hxy : Extends x y)
    (hfg : ∀ a, Extends (f a) (g a)) : Extends (x >>= f) (y >>= g) := by
  intro s b u h
  obtain ⟨a, t, hx, hf⟩ := bind_eq_ok_iff.mp h
  exact bind_eq_ok_iff.mpr ⟨a, t, hxy s a t hx, hfg a t b u hf⟩

section Members

variable {op op' : ConstId → Exec Value}

theorem Extends.constants (h : ∀ id, Extends (op id) (op' id)) (ids : List ConstId) :
    Extends (constants op ids) (constants op' ids) := by
  induction ids with
  | nil => exact .refl _
  | cons id ids ih => exact (h id).bind fun _ => ih.bind fun _ => .refl _

theorem Extends.materialize (h : ∀ id, Extends (op id) (op' id)) (c : Constant) :
    Extends (materialize p op c) (materialize p op' c) := by
  rw [materialize_eq_assemble, materialize_eq_assemble]
  exact (Extends.constants h _).bind fun _ => .refl _

end Members

/-- A larger budget makes no difference to a success. -/
theorem constValueWith_extends (budget more : Nat) (id : ConstId) :
    Extends (constValueWith p budget id) (constValueWith p (budget + more) id) := by
  induction budget generalizing id with
  | zero =>
    intro s v t h
    -- Without a budget only the cache can answer.
    cases hcached : s.constants.get? id with
    | some w =>
      rw [constValueWith_of_cached hcached] at h ⊢
      exact h
    | none =>
      unfold constValueWith at h
      rw [bind_of_ok (get_apply s)] at h
      simp only [hcached, throw_apply] at h
      cases h
  | succ budget ih =>
    intro s v t h
    cases hcached : s.constants.get? id with
    | some w =>
      rw [constValueWith_of_cached hcached] at h ⊢
      exact h
    | none =>
      have hmembers (m : ConstId) :
          Extends (constOperandWith p budget m) (constOperandWith p (budget + more) m) :=
        (Extends.refl _).bind fun _ => (ih m).bind fun _ => .refl _
      obtain ⟨c, made, u, hc, hmade, hv, ht⟩ := (constValueWith_eq_ok_iff hcached).mp h
      rw [Nat.add_right_comm]
      exact (constValueWith_eq_ok_iff hcached).mpr
        ⟨c, made, u, hc, Extends.materialize hmembers c _ _ _ hmade, hv, ht⟩

/-- As an operand a constant stands for its value, unless it is a global variable. -/
theorem constOperandWith_apply (hc : p.module.constant id = .ok c)
    (hkind : ∀ g, c.kind ≠ .globalVar g) (budget : Nat) (s : State) :
    constOperandWith p budget id s = constValueWith p budget id s := by
  have hdecay (w : Value) : decayConst p id c w = pure w := by
    obtain ⟨ty, kind⟩ := c
    cases kind with
    | globalVar g => exact absurd rfl (hkind g)
    | _ => rfl
  unfold constOperandWith
  rw [hc, bind_of_ok (liftFault_ok _ _)]
  simp only [hdecay, bind_pure]

theorem constOperand_eq_ok_iff (hc : p.module.constant id = .ok c)
    (hkind : ∀ g, c.kind ≠ .globalVar g) :
    constOperand p id s = .ok v t ↔ constValue p id s = .ok v t := by
  rw [constOperand_eq, constOperandWith_apply hc hkind]
  rfl

/-- A constant that is used for the first time is made from its members as operands. -/
theorem materialize_of_constOperand (hc : p.module.constant id = .ok c)
    (hkind : ∀ g, c.kind ≠ .globalVar g) (hmissing : s.constants.get? id = none)
    (h : constOperand p id s = .ok v t) :
    ∃ made u, materialize p (constOperand p) c s = .ok made u ∧
      v = made.withOrigin (.const id) ∧ t = { u with constants := u.constants.insert id v } := by
  have hvalue := (constOperand_eq_ok_iff hc hkind).mp h
  unfold constValue at hvalue
  cases hsize : p.module.constants.size with
  | zero =>
    -- A module with a constant has a budget.
    have hlt := (Array.getElem?_eq_some_iff.mp (orMissing_eq_ok_iff.mp hc)).1
    omega
  | succ budget =>
    rw [hsize] at hvalue
    obtain ⟨c', made, u, hc', hmade, hv, ht⟩ := (constValueWith_eq_ok_iff hmissing).mp hvalue
    rw [hc] at hc'
    cases hc'
    have hmembers (m : ConstId) : Extends (constOperandWith p budget m) (constOperand p m) := by
      rw [constOperand_eq, hsize]
      exact (Extends.refl _).bind fun _ => (constValueWith_extends budget 1 m).bind fun _ => .refl _
    exact ⟨made, u, Extends.materialize hmembers c _ _ _ hmade, hv, ht⟩

/-! ## Constants as operands -/

/-- A cached constant that is no global variable evaluates to what is cached. -/
theorem constOperand_of_cached (hc : p.module.constant id = .ok c)
    (hkind : ∀ g, c.kind ≠ .globalVar g) (hv : s.constants.get? id = some v) :
    constOperand p id s = .ok v s :=
  (constOperand_eq_ok_iff hc hkind).mpr (constValueWith_of_cached hv _)

/-- A constant that is no global variable is cached as the value that its use has given. -/
theorem cached_of_constOperand (hc : p.module.constant id = .ok c)
    (hkind : ∀ g, c.kind ≠ .globalVar g) (h : constOperand p id s = .ok v t) :
    t.constants.get? id = some v :=
  constants_get?_of_constValueWith ((constOperand_eq_ok_iff hc hkind).mp h)

/-- What a constant evaluates to in a session has its declared type. -/
theorem hasTy_of_constOperand_moves (hs : Moves p {} s) (hc : p.module.constant id = .ok c)
    (h : constOperand p id s = .ok v t) : v.HasTy c.ty := by
  have ht : Moves p {} t := hs.trans (.of_makes ((constOperand_makes id).of_ok h))
  by_cases hkind : ∀ g, c.kind ≠ .globalVar g
  · obtain ⟨c', hc', hadmits⟩ := ht.admits (cached_of_constOperand hc hkind h)
    rw [hc] at hc'
    cases hc'
    exact hadmits.typed hkind
  · -- The contents of a global variable are loaded under the declared type.
    obtain ⟨g, hg⟩ := Classical.not_forall.mp hkind
    unfold constOperand decayConst at h
    rw [hc, bind_of_ok (liftFault_ok _ _)] at h
    simp only [Classical.not_not.mp hg, bind_eq_ok_iff] at h
    obtain ⟨_, _, _, _, _, _, w, _, hload, hpure⟩ := h
    cases hpure
    exact Value.hasTy_withOrigin.mpr (hasTy_of_load hload)

theorem operands_const (ids : List ConstId) :
    operands p (ids.map .const) = constants (constOperand p) ids := by
  induction ids with
  | nil => rfl
  | cons id ids ih =>
    simp only [List.map_cons, operands, constants, ih]
    rfl

/-- Constants are evaluated one after the other, each in the state that the earlier ones leave. -/
theorem constants_getElem? {ids : List ConstId} {vs : List Value} (hs : Moves p {} s)
    (h : constants (constOperand p) ids s = .ok vs t) :
    vs.length = ids.length ∧ ∀ (i : Nat) (id : ConstId), ids[i]? = some id →
      ∃ w s' t', vs[i]? = some w ∧ Moves p s s' ∧ constOperand p id s' = .ok w t' ∧
        Makes p t' t := by
  induction ids generalizing s vs with
  | nil =>
    cases h
    exact ⟨rfl, by simp⟩
  | cons id ids ih =>
    obtain ⟨v, u, hv, hrest⟩ := bind_eq_ok_iff.mp h
    obtain ⟨ws, t', hws, hpure⟩ := bind_eq_ok_iff.mp hrest
    cases hpure
    have hsu : Moves p s u := .of_makes ((constOperand_makes id).of_ok hv)
    obtain ⟨hlen, hget⟩ := ih (hs.trans hsu) hws
    refine ⟨by rw [List.length_cons, List.length_cons, hlen], fun i id' hid' => ?_⟩
    cases i with
    | zero =>
      cases hid'
      exact ⟨v, s, u, rfl, refl_of (Moves p) s, hv, (constants_along constOperand_makes ids).of_ok hws⟩
    | succ i =>
      obtain ⟨w, s', t'', hw, hmoves, hoperand, hmakes⟩ := hget i id' hid'
      exact ⟨w, s', t'', hw, hsu.trans hmoves, hoperand, hmakes⟩

end Exec

/-! ## Offsets -/

/-- Whether the members of a type lie over each other. -/
def Ty.isUnion : Ty → Bool
  | .union .. | .rawUnion .. => true
  | _ => false

theorem Ty.sizeSum_replicate (ty : Ty) (n : Nat) : sizeSum (List.replicate n ty) = n * ty.size := by
  induction n with
  | zero => simp [sizeSum]
  | succ n ih => rw [List.replicate_succ, sizeSum, ih, Nat.succ_mul, Nat.add_comm]

theorem Layout.members_eq {ty : Ty} (hunion : ty.isUnion = false)
    (harray : ∀ elem len, ty ≠ .array elem len) :
    (of ty).members = match Member.backToBack 0 ty.memberTypes with
      | [] => .scalar
      | members => .fields members := by
  cases ty with
  | union | rawUnion => cases hunion
  | array elem len => exact absurd rfl (harray elem len)
  | _ => rfl

/-- The members of a type that is no union are those that are listed, back to back. -/
theorem Layout.member?_eq {ty : Ty} (hunion : ty.isUnion = false) (i : Nat) :
    (of ty).member? i =
      ty.memberTypes[i]?.map fun t => ⟨Ty.sizeSum (ty.memberTypes.take i), t.size, t⟩ := by
  have hsequence (harray : ∀ elem len, ty ≠ .array elem len) :
      (of ty).member? i = (Member.backToBack 0 ty.memberTypes)[i]? := by
    unfold member?
    rw [members_eq hunion harray]
    cases Member.backToBack 0 ty.memberTypes <;> rfl
  cases ty with
  | union | rawUnion => cases hunion
  | array elem len =>
    change (if i < len then some (⟨i * elem.size, elem.size, elem⟩ : Member) else none) = _
    rw [Ty.memberTypes, List.getElem?_replicate, List.take_replicate, Ty.sizeSum_replicate]
    by_cases hlt : i < len
    · rw [if_pos hlt, if_pos hlt, Nat.min_eq_left (Nat.le_of_lt hlt)]
      rfl
    · rw [if_neg hlt, if_neg hlt]
      rfl
  | _ => rw [hsequence (by simp), Member.getElem?_backToBack]; simp only [Nat.zero_add]

/-- A member begins where the members before it end. -/
theorem Layout.offset_eq {ty : Ty} {i : Nat} {m : Member} (hunion : ty.isUnion = false)
    (hm : (of ty).member? i = some m) : m.offset = Ty.sizeSum (ty.memberTypes.take i) := by
  rw [member?_eq hunion, Option.map_eq_some_iff] at hm
  obtain ⟨t, _, rfl⟩ := hm
  rfl

/-- Values of the sizes of the listed types take as many bytes as the types. -/
theorem length_flatMap_take {ts : List Ty} {vs : List Value}
    (h : ∀ (j : Nat) (w : Value), vs[j]? = some w → ∃ ty, ts[j]? = some ty ∧ w.size = ty.size)
    {i : Nat} (hi : i ≤ vs.length) :
    ((vs.take i).flatMap Value.bytes).length = Ty.sizeSum (ts.take i) := by
  induction vs generalizing ts i with
  | nil =>
    obtain rfl : i = 0 := by simpa using hi
    simp [Ty.sizeSum]
  | cons v vs ih =>
    cases i with
    | zero => simp [Ty.sizeSum]
    | succ i =>
      obtain ⟨ty, hty, hsize⟩ := h 0 v rfl
      cases ts with
      | nil => simp at hty
      | cons ty' ts =>
        cases hty
        have htail : ∀ (j : Nat) (w : Value), vs[j]? = some w →
            ∃ ty, ts[j]? = some ty ∧ w.size = ty.size := fun j w hw => h (j + 1) w hw
        have hrest := ih htail (Nat.le_of_succ_le_succ hi)
        rw [List.take_succ_cons, List.take_succ_cons, List.flatMap_cons, List.length_append, hrest,
          Ty.sizeSum, ← hsize]
        rfl

/-- The values have the sizes of the first members of a layout. -/
def Layout.Sized (layout : Layout) (vs : List Value) : Prop :=
  ∀ (i : Nat) (w : Value), vs[i]? = some w → ∃ m, layout.member? i = some m ∧ w.size = m.size

/-- A part of a concatenation lies at the offset of its member. -/
theorem Layout.Sized.part {ty : Ty} {vs : List Value} (h : (of ty).Sized vs)
    (hunion : ty.isUnion = false) {i : Nat} {w : Value} (hw : vs[i]? = some w) {m : Member}
    (hm : (of ty).member? i = some m) (others : List Value) :
    (((vs ++ others).flatMap Value.bytes).drop m.offset).take m.ty.size = w.bytes := by
  have hlisted : ∀ (j : Nat) (x : Value), vs[j]? = some x →
      ∃ t, ty.memberTypes[j]? = some t ∧ x.size = t.size := by
    intro j x hx
    obtain ⟨mj, hmj, hsize⟩ := h j x hx
    obtain ⟨htype, hmsize, _⟩ := Layout.member?_eq_some hmj
    exact ⟨mj.ty, htype, by rw [hsize, hmsize]⟩
  obtain ⟨hi, hget⟩ := List.getElem?_eq_some_iff.mp hw
  -- What lies before the part is as long as the offset says, and the part is as long as its member.
  have hbefore : ((vs.take i).flatMap Value.bytes).length = m.offset := by
    rw [length_flatMap_take hlisted (Nat.le_of_lt hi), Layout.offset_eq hunion hm]
  have hsize : m.ty.size = w.bytes.length := by
    obtain ⟨m', hm', hsize⟩ := h i w hw
    rw [hm] at hm'
    cases hm'
    rw [← (Layout.member?_eq_some hm).2.1, ← hsize]
    rfl
  have hsplit : (vs ++ others).flatMap Value.bytes =
      (vs.take i).flatMap Value.bytes ++
        (w.bytes ++ (vs.drop (i + 1) ++ others).flatMap Value.bytes) := by
    calc (vs ++ others).flatMap Value.bytes
        = (vs.take i ++ (vs.drop i ++ others)).flatMap Value.bytes := by
          rw [← List.append_assoc, List.take_append_drop]
      _ = _ := by
          rw [List.drop_eq_getElem_cons hi, hget, List.flatMap_append, List.cons_append,
            List.flatMap_cons]
  rw [hsplit, List.drop_left' hbefore, List.take_left' hsize.symm]

end PackedIR
