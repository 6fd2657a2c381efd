/-
Constants that copy global variables.

A constant is made once, and its value is then the same in every later state. But a reference to a
global variable among its members stands for what the variable contains at that moment, and the
copy is kept with the constant. So a constant has as many values as its variables have had contents
at its first uses, in different sessions or in one session that might have gone differently.

Two values of one constant can differ only there. Below a constant that is made from literals,
composites and variables everything else is fixed by the module. This is an invariant of the cache:
each value in it has been put together from the values that are cached for its references, and from
copies. No constant is among its own references, directly or through others, because making it
would have come back to it before it was cached; so the invariant can be used by induction on the
references.
-/
import Mathlib.Data.List.Forall2
import Mathlib.Logic.Relation
import PackedIR.Proofs.Invariants
import PackedIR.Proofs.Caching
import PackedIR.Proofs.Lenses

set_option autoImplicit false

namespace PackedIR

open Exec

variable {p : Program} {s t u : State} {id m q : ConstId} {c : Constant} {v w : Value}

/-! ## References -/

/-- The constants that are evaluated when a constant is made. -/
def Program.references (p : Program) (id : ConstId) : List ConstId :=
  match p.module.constant id with
  | .ok c => c.kind.references
  | .error _ => []

/-- The declared type of a constant. -/
def Program.typeOf (p : Program) (id : ConstId) : Ty :=
  match p.module.constant id with
  | .ok c => c.ty
  | .error _ => .void

/-- The second constant is the first one, or made on the way to it. -/
abbrev Program.Within (p : Program) : ConstId → ConstId → Prop :=
  Relation.ReflTransGen fun id m => m ∈ p.references id

/-- References do not come back to the constant, and end. -/
abbrev Program.Grounded (p : Program) : ConstId → Prop :=
  Acc fun m id => m ∈ p.references id

theorem Program.references_eq (h : p.module.constant id = .ok c) :
    p.references id = c.kind.references := by
  unfold references
  rw [h]

theorem Program.typeOf_eq (h : p.module.constant id = .ok c) : p.typeOf id = c.ty := by
  unfold typeOf
  rw [h]

theorem Program.IsVariable.references_eq (h : p.IsVariable id) : p.references id = [] := by
  obtain ⟨c, g, hc, hg⟩ := h
  rw [Program.references_eq hc, hg]
  rfl

theorem Program.IsVariable.grounded (h : p.IsVariable id) : p.Grounded id := by
  refine Acc.intro id fun m hm => ?_
  rw [h.references_eq] at hm
  cases hm

theorem Program.IsVariable.not_isValue (h : p.IsVariable id) : ¬p.IsValue id := by
  obtain ⟨c, g, hc, hg⟩ := h
  rintro ⟨c', hc', hkind⟩
  rw [hc] at hc'
  cases hc'
  exact hkind g hg

/-- What a constant refers to does not lead back to it. -/
theorem Program.Grounded.not_within (h : p.Grounded id) (hm : m ∈ p.references id) :
    ¬p.Within m id := by
  induction h generalizing m with
  | intro id _ ih =>
    intro hback
    rcases hback.cases_head with rfl | ⟨n, hn, hback⟩
    · exact ih m hm hm .refl
    · exact ih m hm hn (hback.tail hm)

/-! ## What is cached on the way -/

namespace Exec

/-- When the references have been evaluated nothing more is cached. -/
theorem assemble_retains (c : Constant) (vs : List Value) : Along Retains (assemble p c vs) :=
  assemble_along allocStatic_retains globalString_retains compileFunction_retains c vs

end Exec

/-- What is cached in `t` and was not in `s` is among the given constants. -/
def Fills (P : ConstId → Prop) (s t : State) : Prop :=
  ∀ q, s.constants.get? q = none → t.constants.get? q ≠ none → P q

namespace Fills

variable {P Q : ConstId → Prop}

theorem of_eq (h : t.constants = s.constants) : Fills P s t := by
  intro q hs ht
  rw [h] at ht
  exact absurd hs ht

instance : Std.Refl (Fills P) := ⟨fun _ => .of_eq rfl⟩

instance : IsTrans State (Fills P) := by
  refine ⟨fun s t u h h' q hs hu => ?_⟩
  by_cases ht : t.constants.get? q = none
  · exact h' q ht hu
  · exact h q hs ht

theorem mono (h : Fills P s t) (hPQ : ∀ q, P q → Q q) : Fills Q s t :=
  fun q hs ht => hPQ q (h q hs ht)

end Fills

namespace Exec

variable {P : ConstId → Prop}

theorem constants_fills {op : ConstId → Exec Value} {ids : List ConstId}
    (h : ∀ m ∈ ids, Along (Fills P) (op m)) : Along (Fills P) (constants op ids) := by
  induction ids with
  | nil => exact (reads_pure _).along
  | cons m ids ih =>
    refine (h m List.mem_cons_self).bind fun _ => ?_
    exact (ih fun m' hm' => h m' (List.mem_cons_of_mem m hm')).bind fun _ => (reads_pure _).along

/-- Making a constant caches nothing but what it is made from. -/
theorem constValueWith_fills (budget : Nat) (id : ConstId) :
    Along (Fills (p.Within id)) (constValueWith p budget id) := by
  induction budget generalizing id with
  | zero =>
    refine reads_get.along.bind fun _ => ?_
    split
    · exact (reads_pure _).along
    · exact (reads_throw _).along
  | succ budget ih =>
    intro s
    cases hcached : s.constants.get? id with
    | some v =>
      rw [after_of_ok (constValueWith_of_cached hcached _)]
      exact refl_of (Fills _) s
    | none =>
      rw [after_congr (constValueWith_of_missing hcached)]
      refine after_bind ((reads_liftFault _).along s) fun c u hc => ?_
      obtain ⟨hfound, rfl⟩ := liftFault_eq_ok_iff.mp hc
      refine after_bind ?_ fun made u _ => after_bind ?_ fun _ w _ => (reads_pure _).along w
      · rw [after_within, materialize_eq_assemble]
        have hmembers : ∀ m ∈ c.kind.references,
            Along (Fills (p.Within id)) (constOperandWith p budget m) := by
          intro m hm
          have hrefers : m ∈ p.references id := (Program.references_eq hfound).symm ▸ hm
          refine (reads_liftFault _).along.bind fun _ => Along.bind ?_ fun v =>
            (reads_decayConst _ _ v).along
          exact (ih m).mono fun _ _ h => h.mono fun q hq => .head hrefers hq
        refine after_bind (constants_fills hmembers u) fun vs t _ => ?_
        exact .of_eq (assemble_retains c vs t).constants
      · -- The constant itself is cached last.
        intro q hs ht
        change (u.constants.insert id (made.withOrigin (.const id))).get? q ≠ none at ht
        rw [Table.get?_insert] at ht
        split at ht
        · rename_i hq
          rw [hq]
        · exact absurd hs ht

theorem constOperandWith_fills (budget : Nat) (id : ConstId) :
    Along (Fills (p.Within id)) (constOperandWith p budget id) :=
  (reads_liftFault _).along.bind fun _ => (constValueWith_fills budget id).bind fun v =>
    (reads_decayConst _ _ v).along

end Exec

/-! ## How cached values came about -/

/-- The value that a reference contributes to a constant: what is cached for it, or the contents of
a variable. -/
structure Contributes (p : Program) (k : Table ConstId Value) (m : ConstId) (w : Value) : Prop where
  typed : w.HasTy (p.typeOf m)
  cached : p.IsValue m → k.get? m = some w
  found : p.IsValue m ∨ p.IsVariable m

/-- The value is put together from what is cached, and from copies of variables. -/
inductive Assembled (p : Program) (k : Table ConstId Value) (id : ConstId) (v : Value) : Prop where
  | intro {c : Constant} {vs : List Value} {made : Value} {s t : State}
      (found : p.module.constant id = .ok c) (typed : v.HasTy c.ty) (grounded : p.Grounded id)
      (members : List.Forall₂ (Contributes p k) c.kind.references vs)
      (put : assemble p c vs s = .ok made t) (cached : v = made.withOrigin (.const id))

theorem Assembled.mono {k k' : Table ConstId Value}
    (hk : ∀ m w, p.IsValue m → k.get? m = some w → k'.get? m = some w)
    (h : Assembled p k id v) : Assembled p k' id v := by
  obtain ⟨found, typed, grounded, members, put, cached⟩ := h
  refine .intro found typed grounded (members.imp fun m w hw => ?_) put cached
  exact ⟨hw.typed, fun hm => hk m w hm (hw.cached hm), hw.found⟩

/-- Every cached value is put together from other cached values, and from copies. -/
def Coherent (p : Program) (s : State) : Prop :=
  ∀ id v, s.constants.get? id = some v → p.IsValue id → Assembled p s.constants id v

/-- Each reference contributes one value, at its place. -/
theorem contributes_getElem? {k : Table ConstId Value} {ids : List ConstId} {vs : List Value}
    (h : List.Forall₂ (Contributes p k) ids vs) {i : Nat} (hm : ids[i]? = some m) :
    ∃ w, vs[i]? = some w ∧ Contributes p k m w := by
  obtain ⟨hi, rfl⟩ := List.getElem?_eq_some_iff.mp hm
  have hi' : i < vs.length := h.length_eq ▸ hi
  exact ⟨vs[i], List.getElem?_eq_getElem hi', h.get hi hi'⟩

namespace Exec

theorem contributes_of_constOperandWith {budget : Nat}
    (h : constOperandWith p budget m s = .ok w t) (htu : Makes p t u) (hu : Coherent p u) :
    Contributes p u.constants m w := by
  by_cases hvariable : p.IsVariable m
  · refine ⟨?_, fun hvalue => absurd hvalue hvariable.not_isValue, .inr hvariable⟩
    obtain ⟨c, g, hc, hg⟩ := hvariable
    unfold constOperandWith decayConst at h
    rw [hc, bind_of_ok (liftFault_ok _ _)] at h
    simp only [hg, bind_eq_ok_iff] at h
    obtain ⟨_, _, _, _, _, _, x, _, hload, hpure⟩ := h
    cases hpure
    rw [Program.typeOf_eq hc]
    exact Value.hasTy_withOrigin.mpr (hasTy_of_load hload)
  · have hvalue := Program.isValue_of_constOperandWith h hvariable
    rw [hvalue.operand_apply] at h
    have hcached := htu.constants_get? (constants_get?_of_constValueWith h)
    obtain ⟨found, typed, _⟩ := hu m w hcached hvalue
    refine ⟨?_, fun _ => hcached, .inl hvalue⟩
    rw [Program.typeOf_eq found]
    exact typed

theorem contributes_of_constants {budget : Nat} {ids : List ConstId} {vs : List Value}
    (h : constants (constOperandWith p budget) ids s = .ok vs t) (htu : Makes p t u)
    (hu : Coherent p u) : List.Forall₂ (Contributes p u.constants) ids vs := by
  induction ids generalizing s vs with
  | nil =>
    cases h
    exact .nil
  | cons m ids ih =>
    obtain ⟨w, s', hw, hrest⟩ := bind_eq_ok_iff.mp h
    obtain ⟨ws, t', hws, hpure⟩ := bind_eq_ok_iff.mp hrest
    cases hpure
    have hmakes : Makes p s' t := (constants_along (constOperandWith_makes budget) ids).of_ok hws
    exact .cons (contributes_of_constOperandWith hw (hmakes.trans htu) hu) (ih hws)

end Exec

/-- On the way to its own value a constant is not cached, because its references do not lead back to
it. -/
theorem Program.Grounded.get?_of_materialize {budget : Nat} {made : Value} (h : p.Grounded id)
    (hc : p.module.constant id = .ok c) (hmissing : s.constants.get? id = none)
    (hmade : materialize p (constOperandWith p budget) c s = .ok made t) :
    t.constants.get? id = none := by
  rw [materialize_eq_assemble] at hmade
  obtain ⟨vs, u, hvs, hput⟩ := bind_eq_ok_iff.mp hmade
  have hfilled : Fills (fun q => ∃ m ∈ c.kind.references, p.Within m q) s u := by
    refine (constants_fills fun m hm => ?_).of_ok hvs
    exact (constOperandWith_fills budget m).mono fun _ _ h => h.mono fun q hq => ⟨m, hm, hq⟩
  rw [((assemble_retains c vs).of_ok hput).constants]
  by_contra hcached
  obtain ⟨m, hm, hback⟩ := hfilled id hmissing hcached
  rw [← Program.references_eq hc] at hm
  exact h.not_within hm hback

/-- A constant whose references have all been evaluated is grounded, because they are. -/
theorem Coherent.grounded {vs : List Value} (h : Coherent p s)
    (hmembers : List.Forall₂ (Contributes p s.constants) (p.references id) vs) : p.Grounded id := by
  refine Acc.intro id fun m hm => ?_
  obtain ⟨i, hi⟩ := List.mem_iff_getElem?.mp hm
  obtain ⟨w, _, hw⟩ := contributes_getElem? hmembers hi
  rcases hw.found with hvalue | hvariable
  · obtain ⟨_, _, hgrounded, _⟩ := h m w (hw.cached hvalue) hvalue
    exact hgrounded
  · exact hvariable.grounded

/-- The cache is coherent in every state of a session. -/
theorem invariant_coherent : LastingInvariant p (Coherent p) where
  retain := by
    intro s t hs hconstants _ _ _
    unfold Coherent
    rw [hconstants]
    exact hs
  make := by
    intro s t id c budget made hmissing hc hmade ht
    -- What is cached for a constant that is no variable is not replaced.
    have hkept : ∀ m w, p.IsValue m → t.constants.get? m = some w →
        (t.constants.insert id (made.withOrigin (.const id))).get? m = some w := by
      intro m w hm hw
      have hne : m ≠ id := by
        rintro rfl
        obtain ⟨_, _, hgrounded, _⟩ := ht m w hw hm
        rw [hgrounded.get?_of_materialize hc hmissing hmade] at hw
        cases hw
      rw [Table.get?_insert, if_neg hne]
      exact hw
    intro q v hv hq
    change (t.constants.insert id (made.withOrigin (.const id))).get? q = some v at hv
    rw [Table.get?_insert] at hv
    split at hv
    · rename_i hqid
      subst hqid
      cases hv
      have hkind : ∀ g, c.kind ≠ .globalVar g := fun g hg =>
        Program.IsVariable.not_isValue ⟨c, g, hc, hg⟩ hq
      have htyped := (admits_of_materialize hmade).typed hkind
      rw [materialize_eq_assemble] at hmade
      obtain ⟨vs, u, hvs, hput⟩ := bind_eq_ok_iff.mp hmade
      have hmembers := contributes_of_constants hvs ((assemble_makes c vs).of_ok hput) ht
      have hgrounded : p.Grounded q := ht.grounded ((Program.references_eq hc).symm ▸ hmembers)
      exact Assembled.mono hkept
        (.intro hc (Value.hasTy_withOrigin.mpr htyped) hgrounded hmembers hput rfl)
    · exact (ht q v hv hq).mono hkept
  register := fun hs _ _ _ => hs
  ready := fun hs => hs

/-! ## Constants that are written out -/

/-- The bytes of the constant are given in the module or by other constants; nothing is placed or
prepared for it. -/
def ConstKind.isInline : ConstKind → Bool
  | .int _ | .float _ | .bool _ | .zero | .bitcast _ | .array _ | .tuple _ | .enumCase .. => true
  | _ => false

/-- The constant is built from literals, composites and references to global variables. -/
def Program.Inline (p : Program) (id : ConstId) : Prop :=
  ∀ q, p.Within id q →
    (∃ c, p.module.constant q = .ok c ∧ c.kind.isInline = true) ∨ p.IsVariable q

theorem Program.Inline.of_mem (h : p.Inline id) (hm : m ∈ p.references id) : p.Inline m :=
  fun q hq => h q (.head hm hq)

theorem Program.Inline.kind (h : p.Inline id) (hc : p.module.constant id = .ok c)
    (hid : p.IsValue id) : c.kind.isInline = true := by
  rcases h id .refl with ⟨c', hc', hkind⟩ | hvariable
  · rw [hc] at hc'
    cases hc'
    exact hkind
  · exact absurd hid hvariable.not_isValue

namespace Exec

variable {vs : List Value} {made : Value}

/-- Such a constant is put together without a look at the state. -/
theorem assemble_eq_lift (hkind : c.kind.isInline = true) (vs : List Value) :
    ∃ r : Result Value, ∀ s, assemble p c vs s = (liftM r : Exec Value) s := by
  obtain ⟨ty, kind⟩ := c
  cases kind with
  | int | float | bool | bitcast | array | tuple | enumCase => exact ⟨_, fun _ => rfl⟩
  | zero => exact ⟨.ok _, fun _ => rfl⟩
  | _ => cases hkind

/-- The bytes of its references stand in a row. -/
theorem bytes_of_assemble (hkind : c.kind.isInline = true) (hrefers : c.kind.references ≠ [])
    (hlen : vs.length = c.kind.references.length) (h : assemble p c vs s = .ok made t) :
    made.bytes = vs.flatMap Value.bytes := by
  obtain ⟨ty, kind⟩ := c
  cases kind with
  | int | float | bool | zero => exact absurd rfl hrefers
  | bitcast inner =>
    obtain ⟨w, rfl⟩ := List.length_eq_one_iff.mp hlen
    obtain ⟨_, rfl⟩ := Value.retype_eq_ok_iff.mp (lift_eq_ok_iff.mp h).1
    exact (List.append_nil _).symm
  | array | tuple | enumCase =>
    obtain ⟨_, rfl⟩ := Value.ofBytes_eq_ok_iff.mp (lift_eq_ok_iff.mp h).1
    exact congrArg (List.flatMap Value.bytes) (List.append_nil vs)
  | _ => cases hkind

end Exec

/-- Values in a row can be told apart by their sizes. -/
theorem Value.parts_flatMap {ts : List Ty} {vs : List Value}
    (h : List.Forall₂ (fun t v => v.size = t.size) ts vs) :
    (parts (vs.flatMap bytes) ts).map bytes = vs.map bytes := by
  induction h with
  | nil => rfl
  | @cons t v ts vs hv _ ih =>
    have htake : (v.bytes ++ vs.flatMap bytes).take t.size = v.bytes := List.take_left' hv
    have hdrop : (v.bytes ++ vs.flatMap bytes).drop t.size = vs.flatMap bytes := List.drop_left' hv
    rw [List.flatMap_cons, parts, hdrop, List.map_cons, ih, List.map_cons, Bytes.slice,
      List.drop_zero, htake]

/-- The bytes of a constant, cut between its references. -/
def Program.cut (p : Program) (id : ConstId) (bytes : Bytes) : List Bytes :=
  (Value.parts bytes ((p.references id).map p.typeOf)).map Value.bytes

/-- The parts of what is cached for a constant. -/
def State.partsOf (s : State) (p : Program) (id : ConstId) : List Bytes :=
  match s.constants.get? id with
  | some v => p.cut id v.bytes
  | none => []

theorem State.partsOf_eq (h : s.constants.get? id = some v) : s.partsOf p id = p.cut id v.bytes := by
  unfold partsOf
  rw [h]

/-- The parts of a constant are what its references have contributed. -/
theorem cut_of_assemble {k : Table ConstId Value} {vs : List Value} {made : Value}
    (hc : p.module.constant id = .ok c) (hkind : c.kind.isInline = true)
    (hmembers : List.Forall₂ (Contributes p k) c.kind.references vs)
    (h : assemble p c vs s = .ok made t) : p.cut id made.bytes = vs.map Value.bytes := by
  unfold Program.cut
  rw [Program.references_eq hc]
  by_cases hrefers : c.kind.references = []
  · rw [hrefers] at hmembers ⊢
    cases hmembers
    rfl
  · rw [bytes_of_assemble hkind hrefers hmembers.length_eq.symm h]
    apply Value.parts_flatMap
    rw [List.forall₂_map_left_iff]
    exact hmembers.imp fun m w hw => hw.typed.2

/-- Two values of a constant are equal exactly if all references have contributed the same. -/
theorem bytes_eq_iff_of_assemble {k k' : Table ConstId Value} {vs vs' : List Value}
    {made made' : Value} {s' t' : State} (hc : p.module.constant id = .ok c)
    (hkind : c.kind.isInline = true)
    (hmembers : List.Forall₂ (Contributes p k) c.kind.references vs)
    (hmembers' : List.Forall₂ (Contributes p k') c.kind.references vs')
    (h : assemble p c vs s = .ok made t) (h' : assemble p c vs' s' = .ok made' t') :
    made.bytes = made'.bytes ↔ vs.map Value.bytes = vs'.map Value.bytes := by
  constructor
  · intro heq
    rw [← cut_of_assemble hc hkind hmembers h, heq, cut_of_assemble hc hkind hmembers' h']
  · intro heq
    by_cases hrefers : c.kind.references = []
    · -- Without references the constant is the same at all times.
      rw [hrefers] at hmembers hmembers'
      cases hmembers
      cases hmembers'
      obtain ⟨r, hr⟩ := assemble_eq_lift (p := p) hkind []
      rw [hr, lift_eq_ok_iff] at h h'
      have hmade := h.1.symm.trans h'.1
      cases hmade
      rfl
    · rw [bytes_of_assemble hkind hrefers hmembers.length_eq.symm h,
        bytes_of_assemble hkind hrefers hmembers'.length_eq.symm h', List.flatMap_def,
        List.flatMap_def, heq]

/-! ## Values differ in copies alone -/

/-- Below the constant the same has been copied from variables. -/
def CopiesAgree (p : Program) (id : ConstId) (s t : State) : Prop :=
  ∀ (q : ConstId) (i : Nat) (m : ConstId), p.Within id q → (p.references q)[i]? = some m →
    p.IsVariable m → (s.partsOf p q)[i]? = (t.partsOf p q)[i]?

theorem CopiesAgree.of_mem (h : CopiesAgree p id s t) (hm : m ∈ p.references id) :
    CopiesAgree p m s t :=
  fun q i n hq => h q i n (.head hm hq)

/-- Two values that are cached for a constant, in whatever states, are equal exactly if the copies
below it are. -/
theorem bytes_eq_iff_copiesAgree (hs : Coherent p s) (ht : Coherent p t) (hin : p.Inline id)
    (hid : p.IsValue id) (hv : s.constants.get? id = some v) (hw : t.constants.get? id = some w) :
    v.bytes = w.bytes ↔ CopiesAgree p id s t := by
  have hgrounded : p.Grounded id := by
    obtain ⟨_, _, hgrounded, _⟩ := hs id v hv hid
    exact hgrounded
  induction hgrounded generalizing v w with
  | intro id _ ih =>
    obtain ⟨hc, _, _, hvs, hput, rfl⟩ := hs id v hv hid
    obtain ⟨hc', _, _, hws, hput', rfl⟩ := ht id w hw hid
    rw [hc] at hc'
    cases hc'
    have hkind := hin.kind hc hid
    have hcut := cut_of_assemble hc hkind hvs hput
    have hcut' := cut_of_assemble hc hkind hws hput'
    have hparts := (State.partsOf_eq hv).trans hcut
    have hparts' := (State.partsOf_eq hw).trans hcut'
    refine (bytes_eq_iff_of_assemble hc hkind hvs hws hput hput').trans ?_
    rw [← Program.references_eq hc] at hvs hws
    constructor
    · intro heq q i m hq hi hm
      rcases hq.cases_head with rfl | ⟨n, hn, hq⟩
      · rw [hparts, hparts', heq]
      · obtain ⟨j, hj⟩ := List.mem_iff_getElem?.mp hn
        obtain ⟨x, hx, hxs⟩ := contributes_getElem? hvs hj
        obtain ⟨y, hy, hyt⟩ := contributes_getElem? hws hj
        -- A variable refers to nothing, so the copy is not below one.
        have hvalue : p.IsValue n := by
          refine hxs.found.resolve_right fun hvariable => ?_
          rcases hq.cases_head with rfl | ⟨_, hn', _⟩
          · rw [hvariable.references_eq] at hi
            cases hi
          · rw [hvariable.references_eq] at hn'
            cases hn'
        have hxy : x.bytes = y.bytes := by
          have hat := congrArg (fun parts : List Bytes => parts[j]?) heq
          simpa [hx, hy] using hat
        have hbelow := (ih n hn (hin.of_mem hn) hvalue (hxs.cached hvalue) (hyt.cached hvalue)).mp hxy
        exact hbelow q i m hq hi hm
    · intro hagree
      refine List.ext_getElem? fun j => ?_
      cases hj : (p.references id)[j]? with
      | none =>
        rw [List.getElem?_eq_none_iff] at hj
        rw [List.getElem?_eq_none (by rw [List.length_map, ← hvs.length_eq]; exact hj),
          List.getElem?_eq_none (by rw [List.length_map, ← hws.length_eq]; exact hj)]
      | some n =>
        have hn := List.mem_of_getElem? hj
        obtain ⟨x, hx, hxs⟩ := contributes_getElem? hvs hj
        obtain ⟨y, hy, hyt⟩ := contributes_getElem? hws hj
        rcases hxs.found with hvalue | hvariable
        · have hbytes := (ih n hn (hin.of_mem hn) hvalue (hxs.cached hvalue)
            (hyt.cached hvalue)).mpr (hagree.of_mem hn)
          rw [List.getElem?_map, List.getElem?_map, hx, hy, Option.map_some, Option.map_some, hbytes]
        · have hcopies := hagree id j n .refl hj hvariable
          rwa [hparts, hparts'] at hcopies

theorem coherent_of_constants {ids : List ConstId} {vs : List Value} (hs : Reachable p s)
    (h : constants (constOperand p) ids s = .ok vs t) : Coherent p t := by
  rw [← operands_const] at h
  rw [← after_of_ok h]
  exact invariant_coherent.reachable (fun _ _ hnone _ => by cases hnone) (.evaluated _ hs)

theorem coherent_of_constOperand (hs : Reachable p s) (h : constOperand p id s = .ok v t) :
    Coherent p t := by
  have hsingle : constants (constOperand p) [id] s = .ok [v] t := bind_of_ok h
  exact coherent_of_constants hs hsingle

/-- The value of a constant that is built from literals, composites and references to global
variables is settled when it is used for the first time, from the values of its references, and
then stays. Whatever two sessions, or two courses of one session, have done before, they find the
same value exactly if the constants below have made equal copies of variables, and so in any case
if there are none. -/
theorem constants_vary_with_copies_alone {t t' u u' : State} {v v' : Value} (hin : p.Inline id)
    (hid : p.IsValue id) (ht : Reachable p t) (ht' : Reachable p t')
    (h : constOperand p id t = .ok v u) (h' : constOperand p id t' = .ok v' u') :
    (v.bytes = v'.bytes ↔ CopiesAgree p id u u') ∧
    ((∀ q, p.Within id q → ¬p.IsVariable q) → v.bytes = v'.bytes) ∧
    (∀ s, Moves p u s → constOperand p id s = .ok v s) ∧
    (t.constants.get? id = none → ∃ vs w, constants (constOperand p) (p.references id) t = .ok vs w ∧
      u.partsOf p id = vs.map Value.bytes) := by
  have hvalue := hid
  obtain ⟨c, hc, hkind⟩ := hid
  have hcached := cached_of_constOperand hc hkind h
  have hiff : v.bytes = v'.bytes ↔ CopiesAgree p id u u' :=
    bytes_eq_iff_copiesAgree (coherent_of_constOperand ht h) (coherent_of_constOperand ht' h') hin
      hvalue hcached (cached_of_constOperand hc hkind h')
  refine ⟨hiff, fun hnone => hiff.mpr fun q i m hq hi hm => ?_, fun s hs => ?_, fun hmissing => ?_⟩
  · exact absurd hm (hnone m (hq.tail (List.mem_of_getElem? hi)))
  · exact constOperand_of_cached hc hkind (hs.caches.kept id v hcached)
  · obtain ⟨made, w, hmade, rfl, -⟩ := materialize_of_constOperand hc hkind hmissing h
    rw [materialize_eq_assemble] at hmade
    obtain ⟨vs, w', hvs, hput⟩ := bind_eq_ok_iff.mp hmade
    have hmembers := contributes_of_constants hvs (.refl w') (coherent_of_constants ht hvs)
    have hcut := cut_of_assemble hc (hin.kind hc hvalue) hmembers hput
    rw [← Program.references_eq hc] at hvs
    exact ⟨vs, w', hvs, (State.partsOf_eq hcached).trans hcut⟩

/-! ## A variable that is replaced before it is copied

The constant is a pair of five and a copy of the variable, which starts as five. -/

namespace Copying

/-- Stores seven in the variable. -/
def replace : Function where
  name := "set"
  ty := .function [] .void false
  locals := #[]
  blocks := #[⟨"entry", #[⟨.place .store, [.const ⟨3⟩, .const ⟨1⟩], none⟩, ⟨.ret, [], none⟩]⟩]

def program : Program where
  module :=
    { name := "copying"
      constants := #[⟨Ty.uword, .int 5⟩, ⟨Ty.uword, .globalVar ⟨0⟩⟩,
        ⟨.array Ty.uword 2, .array [⟨0⟩, ⟨1⟩]⟩, ⟨Ty.uword, .int 7⟩]
      functions := #[replace]
      globals := #[⟨"g", Ty.uword, some ⟨0⟩⟩] }

def ready : State := (setUp program 0).after {}

/-- The variable has been replaced. -/
def replaced : State := (runFunction program 9 ⟨0⟩ []).after ready

/-- The pair is used before the variable is replaced, -/
def early : State := (constOperand program ⟨2⟩).after ready

/-- or only after it. -/
def late : State := (constOperand program ⟨2⟩).after replaced

def pairOf (first second : UInt8) : Value where
  ty := .array Ty.uword 2
  origin := .const ⟨2⟩
  bytes := [first, 0, 0, 0, 0, 0, 0, 0, second, 0, 0, 0, 0, 0, 0, 0]

theorem ready_idle : Idle program ready :=
  .performed (.setUp 0) .fresh (.inl ⟨(), eq_ok_of_result? (by decide +kernel)⟩)

theorem run_replace :
    runFunction program 9 ⟨0⟩ [] ready = .ok { ty := .void, bytes := [] } replaced :=
  eq_ok_of_result? (by decide +kernel)

theorem replaced_idle : Idle program replaced := by
  refine .performed (.run 9 ⟨0⟩ []) ready_idle (.inl ⟨(), ?_⟩)
  exact bind_of_ok run_replace

theorem pair_early : constOperand program ⟨2⟩ ready = .ok (pairOf 5 5) early :=
  eq_ok_of_result? (by decide +kernel)

theorem pair_late : constOperand program ⟨2⟩ replaced = .ok (pairOf 5 7) late :=
  eq_ok_of_result? (by decide +kernel)

theorem pair_isValue : program.IsValue ⟨2⟩ :=
  ⟨⟨.array Ty.uword 2, .array [⟨0⟩, ⟨1⟩]⟩, rfl, fun _ => by simp⟩

theorem pair_inline : program.Inline ⟨2⟩ := by
  have hwithin : ∀ q, program.Within ⟨2⟩ q → q = ⟨2⟩ ∨ q = ⟨0⟩ ∨ q = ⟨1⟩ := by
    intro q hq
    induction hq with
    | refl => exact .inl rfl
    | @tail q m _ hm ih =>
      rcases ih with rfl | rfl | rfl
      · change m ∈ [(⟨0⟩ : ConstId), ⟨1⟩] at hm
        exact .inr (by simpa using hm)
      · cases hm
      · cases hm
  intro q hq
  rcases hwithin q hq with rfl | rfl | rfl
  · exact .inl ⟨_, rfl, rfl⟩
  · exact .inl ⟨_, rfl, rfl⟩
  · exact .inr ⟨_, ⟨0⟩, rfl, rfl⟩

end Copying

/-- The pair is not the same early and late, so the copies are not; and the early one stays as it
is when the variable is replaced. -/
theorem constants_vary_with_copies_alone_copying :
    ¬CopiesAgree Copying.program ⟨2⟩ Copying.early Copying.late ∧
    let later := (runFunction Copying.program 9 ⟨0⟩ []).after Copying.early
    constOperand Copying.program ⟨2⟩ later = .ok (Copying.pairOf 5 5) later := by
  obtain ⟨hiff, _, hstays, _⟩ := constants_vary_with_copies_alone Copying.pair_inline
    Copying.pair_isValue (.idle Copying.ready_idle) (.idle Copying.replaced_idle) Copying.pair_early
    Copying.pair_late
  exact ⟨fun hagree => absurd (hiff.mpr hagree) (by decide),
    hstays _ (runFunction_moves 9 ⟨0⟩ [] Copying.early)⟩

/-- In a session that has been set up, a constant built from a literal and a reference to a variable
has one value if it is used at once, and another if it is used after a call that has replaced the
variable. -/
theorem constants_vary_with_first_use :
    Idle Copying.program Copying.ready ∧ Copying.ready.initialized = true ∧
    runFunction Copying.program 9 ⟨0⟩ [] Copying.ready =
      .ok { ty := .void, bytes := [] } Copying.replaced ∧
    Copying.program.Inline ⟨2⟩ ∧ Copying.program.IsValue ⟨2⟩ ∧
    constOperand Copying.program ⟨2⟩ Copying.ready = .ok (Copying.pairOf 5 5) Copying.early ∧
    constOperand Copying.program ⟨2⟩ Copying.replaced = .ok (Copying.pairOf 5 7) Copying.late ∧
    (Copying.pairOf 5 5).bytes ≠ (Copying.pairOf 5 7).bytes :=
  ⟨Copying.ready_idle, by decide +kernel, Copying.run_replace, Copying.pair_inline,
    Copying.pair_isValue, Copying.pair_early, Copying.pair_late, by decide⟩

end PackedIR
