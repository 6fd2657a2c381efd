/-
Constants made again.

A constant is made at its first use and cached. For most constants it does not matter when that
is. It matters where making takes storage, places a string or prepares a function, for then it
leaves a trace, and where a global variable is a member, for then its contents at that moment are
copied. If evaluating an operand has done neither, the constants that it has cached can be made
again at any later time, with the same values and without a trace.

A run from the state that such an evaluation leaves is therefore the same as a run from the state
before it. The run from the earlier state makes the missing constants again when it comes to use
them, and apart from that the two go side by side. This is a coupling in which the caches differ.
-/
import PackedIR.Proofs.Composites
import PackedIR.Proofs.Simulation
import PackedIR.Proofs.Storage

set_option autoImplicit false

namespace PackedIR

variable {α : Type} {p : Program} {s t u : State} {id : ConstId} {c : Constant} {v w : Value}

/-! ## Tables -/

namespace Table

variable {κ β : Type} [DecidableEq κ] {k k' k'' : Table κ β} {key : κ} {a : β}

/-- What the first table has, the second has too. -/
def Below (k k' : Table κ β) : Prop := ∀ key a, k.get? key = some a → k'.get? key = some a

theorem Below.refl (k : Table κ β) : k.Below k := fun _ _ h => h

theorem Below.trans (h : k.Below k') (h' : k'.Below k'') : k.Below k'' :=
  fun key a ha => h' key a (h key a ha)

/-- Setting a key changes no other, and not even this one if it has the value already. -/
theorem Below.insert (h : ∀ b, k.get? key = some b → b = a) : k.Below (k.insert key a) := by
  intro key' b hb
  rw [get?_insert]
  split
  · rename_i hkey
    rw [hkey] at hb
    rw [h b hb]
  · exact hb

theorem Below.eq_none (h : k.Below k') (hnone : k'.get? key = none) : k.get? key = none := by
  cases hk : k.get? key with
  | none => rfl
  | some a =>
    rw [h key a hk] at hnone
    cases hnone

/-- Values that are found for a list of keys are found in every larger table. -/
theorem Below.map_get? (h : k.Below k') {keys : List κ} {values : List β}
    (hvalues : keys.map k.get? = values.map some) : keys.map k'.get? = values.map some := by
  rw [← hvalues]
  apply List.map_congr_left
  intro key hkey
  have hmem : k.get? key ∈ values.map some := hvalues ▸ List.mem_map_of_mem hkey
  obtain ⟨a, _, ha⟩ := List.mem_map.mp hmem
  rw [← ha]
  exact h key a ha.symm

end Table

/-! ## States up to the cache -/

/-- The states are the same but for their caches of constants. -/
def Recached (s t : State) : Prop := ∃ constants, t = { s with constants }

namespace Recached

theorem refl (s : State) : Recached s s := ⟨s.constants, rfl⟩

theorem symm (h : Recached s t) : Recached t s := by
  obtain ⟨k, rfl⟩ := h
  exact ⟨s.constants, rfl⟩

theorem trans (h : Recached s t) (h' : Recached t u) : Recached s u := by
  obtain ⟨_, rfl⟩ := h
  obtain ⟨k, rfl⟩ := h'
  exact ⟨k, rfl⟩

end Recached

/-- How much evaluation has made for good, constants apart. -/
def State.extent (s : State) : Nat :=
  s.memory.taken + s.strings.entries.length + s.compiled.length

theorem Recached.extent_eq (h : Recached s t) : t.extent = s.extent := by
  obtain ⟨k, rfl⟩ := h
  rfl

/-- Evaluation that makes more than constants can be told by the extent. -/
theorem Makes.recached_or_extent_lt (h : Makes p s t) : Recached s t ∨ s.extent < t.extent := by
  induction h with
  | refl s => exact .inl (.refl s)
  | trans _ _ ih₁ ih₂ =>
    rcases ih₁ with h₁ | h₁ <;> rcases ih₂ with h₂ | h₂
    · exact .inl (h₁.trans h₂)
    · exact .inr (by rw [← h₁.extent_eq]; exact h₂)
    · exact .inr (by rw [h₂.extent_eq]; exact h₁)
    · exact .inr (Nat.lt_trans h₁ h₂)
  | place kind bytes nonempty room recorded =>
    right
    simp only [State.extent, Memory.put, Memory.claim]
    omega
  | intern id address missing =>
    right
    simp only [State.extent, Table.insert, List.length_cons]
    omega
  | prepare id found missing terminated room =>
    right
    simp only [State.extent, List.length_cons]
    omega
  | make id v found missing members admitted ih =>
    rcases ih with ⟨k, rfl⟩ | hlt
    · exact .inl ⟨_, rfl⟩
    · exact .inr hlt

/-- Where evaluation as a whole has made constants only, so has each part of it. -/
theorem Recached.between (h : Recached s t) (hsu : Makes p s u) (hut : Makes p u t) :
    Recached s u ∧ Recached u t := by
  have hextent := h.extent_eq
  rcases hsu.recached_or_extent_lt with h₁ | h₁
  · exact ⟨h₁, h₁.symm.trans h⟩
  · rcases hut.recached_or_extent_lt with h₂ | h₂
    · rw [h₂.extent_eq] at hextent
      omega
    · omega

/-! ## Putting a constant together again -/

/-- What has been prepared and placed in `s` is there in `t` too, and the global variables are
where they were. -/
structure Precedes (s t : State) : Prop where
  compiled : ∀ id ∈ s.compiled, id ∈ t.compiled
  strings : s.strings.Below t.strings
  globals : t.globals = s.globals

theorem Precedes.of_recached (h : Recached s t) : Precedes s t := by
  obtain ⟨k, rfl⟩ := h
  exact ⟨fun _ hid => hid, .refl _, rfl⟩

theorem Precedes.trans (h : Precedes s t) (h' : Precedes t u) : Precedes s u :=
  ⟨fun id hid => h'.compiled id (h.compiled id hid), h.strings.trans h'.strings,
    h'.globals.trans h.globals⟩

namespace Exec

/-- Static storage is asked of the allocator unless it is empty. -/
theorem eq_nil_of_allocStatic {kind : AllocKind} {bytes : Bytes} {address : Nat}
    (h : allocStatic p kind bytes s = .ok address t) (hst : Recached s t) : bytes = [] := by
  by_cases hne : bytes = []
  · exact hne
  · obtain ⟨_, statics, _, rfl⟩ := allocStatic_eq_ok hne h
    have hextent := hst.extent_eq
    simp only [State.extent, Memory.put, Memory.claim] at hextent
    omega

/-- A string that has an address keeps it. -/
theorem globalString_again {sid : StringId} {address : Nat}
    (h : globalString p sid s = .ok address t) (hst : Recached s t) (hsu : Precedes s u) :
    globalString p sid u = .ok address u := by
  unfold globalString at h ⊢
  rw [bind_of_ok (get_apply _)] at h ⊢
  cases hplaced : s.strings.get? sid with
  | some a =>
    rw [hplaced] at h
    rw [hsu.strings sid a hplaced]
    cases h
    rfl
  | none =>
    -- Placing it would have left a trace.
    rw [hplaced] at h
    simp only [bind_eq_ok_iff, liftFault_eq_ok_iff] at h
    obtain ⟨text, _, ⟨_, rfl⟩, a, t', hplace, _, _, hmodify, hpure⟩ := h
    cases hmodify
    cases hpure
    have hmakes : Makes p t' { t' with strings := t'.strings.insert sid address } := by
      obtain ⟨_, _, _, rfl⟩ := allocStatic_eq_ok (by simp) hplace
      exact .intern sid address hplaced
    have hbetween := hst.between ((placeText_makes text).of_ok hplace) hmakes
    have hempty := eq_nil_of_allocStatic hplace hbetween.1
    simp at hempty

theorem compileFunction_of_mem {fid : FuncId} {f : Function} (hf : p.module.function fid = .ok f)
    (hmem : fid ∈ s.compiled) : compileFunction p fid s = .ok fid.identity s := by
  unfold compileFunction
  rw [hf, bind_of_ok (liftFault_ok _ _), bind_of_ok (get_apply s), if_pos hmem]
  rfl

/-- A function is prepared once, and then has its address. -/
theorem compileFunction_eq_ok {fid : FuncId} {address : Nat}
    (h : compileFunction p fid s = .ok address t) :
    address = fid.identity ∧ (∃ f, p.module.function fid = .ok f) ∧
      (fid ∈ s.compiled ∧ t = s ∨ t = { s with compiled := fid :: s.compiled }) := by
  obtain ⟨f, _, hlift, h⟩ := bind_eq_ok_iff.mp h
  obtain ⟨hf, hsame⟩ := liftFault_eq_ok_iff.mp hlift
  rw [hsame, bind_of_ok (get_apply s)] at h
  by_cases hmem : fid ∈ s.compiled
  · rw [if_pos hmem] at h
    cases h
    exact ⟨rfl, ⟨f, hf⟩, .inl ⟨hmem, rfl⟩⟩
  · rw [if_neg hmem] at h
    cases hblock : f.unterminated? with
    | some block =>
      rw [hblock] at h
      cases h
    | none =>
      rw [hblock] at h
      by_cases hlimit : FuncId.limit ≤ fid.index
      · simp only [if_pos hlimit] at h
        cases h
      · simp only [if_neg hlimit] at h
        cases h
        exact ⟨rfl, ⟨f, hf⟩, .inr rfl⟩

/-- A function that has been prepared stays so. -/
theorem compileFunction_again {fid : FuncId} {address : Nat}
    (h : compileFunction p fid s = .ok address t) (hst : Recached s t) (hsu : Precedes s u) :
    compileFunction p fid u = .ok address u := by
  obtain ⟨rfl, ⟨f, hf⟩, ⟨hmem, _⟩ | rfl⟩ := compileFunction_eq_ok h
  · exact compileFunction_of_mem hf (hsu.compiled fid hmem)
  · have hextent := hst.extent_eq
    simp only [State.extent, List.length_cons] at hextent
    omega

/-- A reference is looked up in the table of globals. -/
theorem assemble_globalVar (ty : Ty) (g : GlobalId) (vs : List Value) (s : State) :
    assemble p ⟨ty, .globalVar g⟩ vs s = match s.globals.get? g with
      | some reference => .ok reference s
      | none => (do raise (.unresolvedGlobal (← p.module.global g).name) : Exec Value) s := by
  refine (bind_of_ok (get_apply s)).trans ?_
  cases s.globals.get? g with
  | some reference => rfl
  | none => rfl

/-- A constant that was put together without a trace is put together again in the same way. -/
theorem assemble_again {vs : List Value} (h : assemble p c vs s = .ok v t) (hst : Recached s t)
    (hsu : Precedes s u) : assemble p c vs u = .ok v u := by
  obtain ⟨ty, kind⟩ := c
  -- What is computed does not look at the state.
  have lifted {r : Result Value} (hr : (liftM r : Exec Value) s = .ok v t) :
      (liftM r : Exec Value) u = .ok v u :=
    lift_eq_ok_iff.mpr ⟨(lift_eq_ok_iff.mp hr).1, rfl⟩
  -- What is computed from an address depends on the address.
  have addressed {x : Exec Nat} {f : Nat → Result Value}
      (hx : ∀ a t', x s = .ok a t' → t' = t → x u = .ok a u)
      (hr : (x >>= fun a => (liftM (f a) : Exec Value)) s = .ok v t) :
      (x >>= fun a => (liftM (f a) : Exec Value)) u = .ok v u := by
    obtain ⟨a, t', ha, hr⟩ := bind_eq_ok_iff.mp hr
    obtain ⟨hr, ht⟩ := lift_eq_ok_iff.mp hr
    exact bind_eq_ok_iff.mpr ⟨a, u, hx a t' ha ht.symm, lift_eq_ok_iff.mpr ⟨hr, rfl⟩⟩
  cases kind with
  | int | float | bool | bitcast | array | tuple | enumCase | slice | parts => exact lifted h
  | zero =>
    cases h
    rfl
  | text text =>
    refine addressed (fun a t' ha ht => ?_) h
    subst ht
    have hempty := eq_nil_of_allocStatic ha hst
    simp at hempty
  | globalString sid => exact addressed (fun a t' ha ht => globalString_again (ht ▸ ha) hst hsu) h
  | owned contents =>
    refine addressed (fun a t' ha ht => ?_) h
    subst ht
    have hempty := eq_nil_of_allocStatic ha hst
    rw [hempty] at ha ⊢
    cases ha
    rfl
  | function fid => exact addressed (fun a t' ha ht => compileFunction_again (ht ▸ ha) hst hsu) h
  | globalVar g =>
    rw [assemble_globalVar] at h ⊢
    rw [hsu.globals]
    cases hfound : s.globals.get? g with
    | some reference =>
      rw [hfound] at h
      cases h
      rfl
    | none =>
      rw [hfound] at h
      simp only [bind_eq_ok_iff, lift_eq_ok_iff] at h
      obtain ⟨_, _, _, hraise, _⟩ := h
      cases hraise

end Exec

/-! ## What an evaluation has cached -/

/-- The constant is a reference to a global variable. -/
def Program.IsVariable (p : Program) (id : ConstId) : Prop :=
  ∃ c g, p.module.constant id = .ok c ∧ c.kind = .globalVar g

/-- The constant is there and stands for its value. -/
def Program.IsValue (p : Program) (id : ConstId) : Prop :=
  ∃ c, p.module.constant id = .ok c ∧ ∀ g, c.kind ≠ .globalVar g

theorem Program.IsValue.operand_apply (h : p.IsValue id) (budget : Nat) (s : State) :
    Exec.constOperandWith p budget id s = Exec.constValueWith p budget id s := by
  obtain ⟨c, hc, hkind⟩ := h
  exact Exec.constOperandWith_apply hc hkind budget s

/-- A constant that can be evaluated is there. -/
theorem Program.isValue_of_constOperandWith {budget : Nat}
    (h : Exec.constOperandWith p budget id s = .ok v t) (hid : ¬p.IsVariable id) : p.IsValue id := by
  obtain ⟨c, _, hlift, _⟩ := Exec.bind_eq_ok_iff.mp h
  have hc := (Exec.liftFault_eq_ok_iff.mp hlift).1
  exact ⟨c, hc, fun g hg => hid ⟨c, g, hc, hg⟩⟩

/-- From `s` to `t` nothing has happened but that constants were cached, and none of them has
copied what a global variable contains. -/
structure CachesOnly (p : Program) (s t : State) : Prop where
  recached : Recached s t
  noCopies : ∀ id c, s.constants.get? id = none → t.constants.get? id ≠ none →
    p.module.constant id = .ok c → ∀ m ∈ c.kind.references, ¬p.IsVariable m

/-- The constant can be made from its members in the table at any time after `s`, and then has the
value `v`. -/
inductive Derived (p : Program) (s : State) (k : Table ConstId Value) (id : ConstId) (v : Value) :
    Prop where
  | intro {c : Constant} {vs : List Value} {made : Value} (found : p.module.constant id = .ok c)
      (values : ∀ m ∈ c.kind.references, p.IsValue m)
      (members : c.kind.references.map k.get? = vs.map some)
      (again : ∀ t, Precedes s t → Exec.assemble p c vs t = .ok made t)
      (value : v = made.withOrigin (.const id))

namespace Derived

variable {k k' : Table ConstId Value}

theorem mono (hk : k.Below k') (h : Derived p s k id v) : Derived p s k' id v := by
  obtain ⟨found, values, members, again, value⟩ := h
  exact ⟨found, values, hk.map_get? members, again, value⟩

theorem unique (h : Derived p s k id v) (h' : Derived p s k id w) : v = w := by
  obtain ⟨found, _, members, again, rfl⟩ := h
  obtain ⟨found', _, members', again', rfl⟩ := h'
  rw [found] at found'
  cases found'
  rw [members] at members'
  obtain rfl := (List.map_inj_right (by simp)).mp members'
  have hsame := (again s (.of_recached (.refl s))).symm.trans (again' s (.of_recached (.refl s)))
  cases hsame
  rfl

end Derived

/-- All that `t` has more than `s` are constants that can be made again. -/
structure Derives (p : Program) (s t : State) : Prop where
  recached : Recached s t
  below : s.constants.Below t.constants
  derived : ∀ id v, s.constants.get? id = none → t.constants.get? id = some v →
    Derived p s t.constants id v

namespace Derives

theorem refl (s : State) : Derives p s s := by
  refine ⟨.refl s, .refl _, fun id v hnone hsome => ?_⟩
  rw [hnone] at hsome
  cases hsome

/-- One more constant is cached that can be made again. Had it been cached before, then as the same
value. -/
theorem insert (h : Derives p s t) (hmissing : s.constants.get? id = none)
    (hderived : Derived p s t.constants id v) :
    Derives p s { t with constants := t.constants.insert id v } := by
  have hbelow : t.constants.Below (t.constants.insert id v) :=
    .insert fun w hw => (h.derived id w hmissing hw).unique hderived
  refine ⟨h.recached.trans ⟨_, rfl⟩, h.below.trans hbelow, fun id' w hnone hw => ?_⟩
  rw [Table.get?_insert] at hw
  split at hw
  · rename_i hid
    subst hid
    cases hw
    exact hderived.mono hbelow
  · exact (h.derived id' w hnone hw).mono hbelow

end Derives

/-- One constant is cached that copies no global variable. -/
theorem CachesOnly.insert (hc : p.module.constant id = .ok c)
    (hplain : ∀ m ∈ c.kind.references, ¬p.IsVariable m) (v : Value) :
    CachesOnly p s { s with constants := s.constants.insert id v } := by
  refine ⟨⟨_, rfl⟩, fun id' c' hnone hsome hc' => ?_⟩
  rw [Table.get?_insert] at hsome
  split at hsome
  · rename_i hid
    rw [hid, hc] at hc'
    cases hc'
    exact hplain
  · exact absurd hnone hsome

theorem CachesOnly.earlier (h : CachesOnly p s t) (hu : Recached s u)
    (hcached : ∀ id, u.constants.get? id ≠ none → t.constants.get? id ≠ none) :
    CachesOnly p s u :=
  ⟨hu, fun id c hnone hsome => h.noCopies id c hnone (hcached id hsome)⟩

theorem Makes.caches_of_caches (h : Makes p s t) (hid : s.constants.get? id ≠ none) :
    t.constants.get? id ≠ none := by
  obtain ⟨v, hv⟩ := Option.ne_none_iff_exists'.mp hid
  rw [h.constants_get? hv]
  exact Option.some_ne_none v

namespace Exec

variable {s₀ : State} {budget : Nat}

theorem constOperandWith_makes (budget : Nat) (id : ConstId) :
    Along (Makes p) (constOperandWith p budget id) :=
  (reads_liftFault _).along.bind fun _ => (constValueWith_makes budget id).bind fun _ =>
    (reads_decayConst _ _ _).along

theorem assemble_makes (c : Constant) (vs : List Value) : Along (Makes p) (assemble p c vs) :=
  assemble_along allocStatic_makes globalString_makes compileFunction_makes c vs

/-- The members of a constant are evaluated one after the other, each to what is cached for it. -/
theorem derives_of_constants
    (hvalue : ∀ {m s v t}, constValueWith p budget m s = .ok v t → Derives p s₀ s →
      CachesOnly p s₀ t → Derives p s₀ t)
    {ids : List ConstId} {vs : List Value} (hids : ∀ m ∈ ids, ¬p.IsVariable m)
    (h : constants (constOperandWith p budget) ids s = .ok vs t) (hs : Derives p s₀ s)
    (ht : CachesOnly p s₀ t) :
    Derives p s₀ t ∧ ids.map t.constants.get? = vs.map some ∧ ∀ m ∈ ids, p.IsValue m := by
  induction ids generalizing s vs with
  | nil =>
    cases h
    exact ⟨hs, rfl, by simp⟩
  | cons m ids ih =>
    obtain ⟨v, u, hv, hrest⟩ := bind_eq_ok_iff.mp h
    obtain ⟨ws, _, hws, hpure⟩ := bind_eq_ok_iff.mp hrest
    cases hpure
    have hsu : Makes p s u := (constOperandWith_makes budget m).of_ok hv
    have hut : Makes p u t := (constants_along (constOperandWith_makes budget) ids).of_ok hws
    have hu : Recached s₀ u :=
      hs.recached.trans ((hs.recached.symm.trans ht.recached).between hsu hut).1
    have hm : p.IsValue m := Program.isValue_of_constOperandWith hv (hids m List.mem_cons_self)
    rw [hm.operand_apply] at hv
    have hderives := hvalue hv hs (ht.earlier hu fun _ => hut.caches_of_caches)
    obtain ⟨hderives, hcached, hrest⟩ :=
      ih (fun m hm => hids m (List.mem_cons_of_mem _ hm)) hws hderives
    refine ⟨hderives, ?_, List.forall_mem_cons.mpr ⟨hm, hrest⟩⟩
    rw [List.map_cons, List.map_cons, hcached,
      hut.constants_get? (constants_get?_of_constValueWith hv)]

/-- Where a constant was made without a trace, its members were, and putting it together has
changed nothing. -/
theorem eq_of_assemble {ids : List ConstId} {vs : List Value} {ready : State}
    (hvs : constants (constOperandWith p budget) ids s = .ok vs ready)
    (hassemble : assemble p c vs ready = .ok v u) (hsu : Recached s u) :
    u = ready ∧ Recached s ready := by
  have hready : Makes p s ready := (constants_along (constOperandWith_makes budget) ids).of_ok hvs
  obtain ⟨hsready, hreadyu⟩ := hsu.between hready ((assemble_makes c vs).of_ok hassemble)
  have hagain := assemble_again hassemble hreadyu (.of_recached (.refl ready))
  rw [hassemble] at hagain
  cases hagain
  exact ⟨rfl, hsready⟩

/-- Evaluation that only caches, and copies no global variable, makes constants that can be made
again. -/
theorem derives_of_constValueWith (h : constValueWith p budget id s = .ok v t)
    (hs : Derives p s₀ s) (ht : CachesOnly p s₀ t) : Derives p s₀ t := by
  induction budget generalizing id s v t with
  | zero =>
    cases hcached : s.constants.get? id with
    | some w =>
      rw [constValueWith_of_cached hcached] at h
      cases h
      exact hs
    | none =>
      rw [constValueWith, bind_of_ok (get_apply s), hcached] at h
      cases h
  | succ budget ih =>
    cases hcached : s.constants.get? id with
    | some w =>
      rw [constValueWith_of_cached hcached] at h
      cases h
      exact hs
    | none =>
      obtain ⟨c, made, u, hc, hmade, rfl, rfl⟩ := (constValueWith_eq_ok_iff hcached).mp h
      rw [materialize_eq_assemble] at hmade
      obtain ⟨vs, ready, hvs, hassemble⟩ := bind_eq_ok_iff.mp hmade
      have hmissing : s₀.constants.get? id = none := hs.below.eq_none hcached
      have hids := ht.noCopies id c hmissing (by simp) hc
      have hsu : Recached s u := hs.recached.symm.trans (ht.recached.trans ⟨u.constants, rfl⟩)
      obtain ⟨rfl, hsready⟩ := eq_of_assemble hvs hassemble hsu
      have hearlier : CachesOnly p s₀ u := by
        refine ht.earlier (hs.recached.trans hsready) fun m hm => ?_
        rw [Table.get?_insert]
        split
        · exact Option.some_ne_none _
        · exact hm
      obtain ⟨hderives, hcached, hvalues⟩ := derives_of_constants ih hids hvs hs hearlier
      refine hderives.insert hmissing ⟨hc, hvalues, hcached, fun t hst => ?_, rfl⟩
      have hlater := (Precedes.of_recached hearlier.recached.symm).trans hst
      exact assemble_again hassemble (.refl u) hlater

/-- What holds of constants holds of operands, since a local has no part in the cache. -/
theorem derives_of_operand {o : Operand} (h : operand p o s = .ok v t) (hst : CachesOnly p s t) :
    Derives p s t := by
  cases o with
  | «local» l =>
    rw [(localOperand_reads l).state_eq h]
    exact .refl s
  | const id =>
    obtain ⟨c, _, hc, h⟩ := bind_eq_ok_iff.mp h
    rw [(liftFault_eq_ok_iff.mp hc).2] at h
    obtain ⟨w, u, hw, hdecay⟩ := bind_eq_ok_iff.mp h
    rw [(reads_decayConst id c w).state_eq hdecay] at hst ⊢
    exact derives_of_constValueWith hw (.refl s) hst
  | block b | type ty => cases h

end Exec

/-! ## Runs that make constants again

The second run started with the table `k` in its cache, the first one in `s₀` without it. Where
they have come to, the first has cached less, and what it lacks is in `k`. -/

/-- The states are the same but for constants of `k` that the first has not made yet. -/
structure Replays (s₀ : State) (k : Table ConstId Value) (s t : State) : Prop where
  recached : Recached s t
  later : Precedes s₀ s
  base : s₀.constants.Below s.constants
  kept : s.constants.Below t.constants
  held : k.Below t.constants
  ahead : ∀ id v, s.constants.get? id = none → t.constants.get? id = some v → k.get? id = some v

theorem Derives.replays (h : Derives p s t) : Replays s t.constants s t :=
  ⟨h.recached, .of_recached (.refl s), .refl _, h.below, .refl _, fun _ _ _ hv => hv⟩

namespace Replays

variable {s₀ : State} {k : Table ConstId Value} {s' t' : State}

/-- Only what has been made so far counts. -/
theorem of_eq (h : Replays s₀ k s t) (hst : Recached s' t') (hs : s'.constants = s.constants)
    (ht : t'.constants = t.constants) (hlater : Precedes s s') : Replays s₀ k s' t' := by
  refine ⟨hst, h.later.trans hlater, ?_, ?_, ?_, ?_⟩
  · rw [hs]
    exact h.base
  · rw [hs, ht]
    exact h.kept
  · rw [ht]
    exact h.held
  · rw [hs, ht]
    exact h.ahead

/-- Memory and frames may change alike. -/
theorem change (h : Replays s₀ k s t) (memory : Memory) (frames : List Frame) :
    Replays s₀ k { s with memory, frames } { t with memory, frames } := by
  refine h.of_eq ?_ rfl rfl ⟨fun _ hid => hid, .refl _, rfl⟩
  obtain ⟨k', rfl⟩ := h.recached
  exact ⟨k', rfl⟩

/-- A constant that neither started with may be cached by both. -/
theorem insert (h : Replays s₀ k s t) (hbase : s₀.constants.get? id = none)
    (hheld : k.get? id = none) (v : Value) :
    Replays s₀ k { s with constants := s.constants.insert id v }
      { t with constants := t.constants.insert id v } := by
  have other {k' : Table ConstId Value} {id' : ConstId} (h' : k'.get? id = none)
      (hid' : k'.get? id' ≠ none) : id' ≠ id := by
    rintro rfl
    exact hid' h'
  refine ⟨?_, ⟨h.later.compiled, h.later.strings, h.later.globals⟩, ?_, ?_, ?_, ?_⟩
  · obtain ⟨k', rfl⟩ := h.recached
    exact ⟨_, rfl⟩
  · intro id' w hw
    rw [Table.get?_insert, if_neg (other hbase (by simp [hw]))]
    exact h.base id' w hw
  · intro id' w hw
    rw [Table.get?_insert] at hw ⊢
    split at hw
    · rename_i hid
      rw [if_pos hid]
      exact hw
    · rename_i hid
      rw [if_neg hid]
      exact h.kept id' w hw
  · intro id' w hw
    rw [Table.get?_insert, if_neg (other hheld (by simp [hw]))]
    exact h.held id' w hw
  · intro id' w hnone hw
    rw [Table.get?_insert] at hnone hw
    split at hnone
    · cases hnone
    · rename_i hid
      rw [if_neg hid] at hw
      exact h.ahead id' w hnone hw

/-- The first may catch up with the second. -/
theorem catchUp (h : Replays s₀ k s t) (ht : t.constants.get? id = some v) :
    Replays s₀ k { s with constants := s.constants.insert id v } t := by
  have hbelow : s.constants.Below (s.constants.insert id v) := by
    refine .insert fun w hw => ?_
    rw [h.kept id w hw] at ht
    exact Option.some_inj.mp ht
  refine ⟨?_, ⟨h.later.compiled, h.later.strings, h.later.globals⟩, h.base.trans hbelow, ?_,
    h.held, fun id' w hnone hw => h.ahead id' w (hbelow.eq_none hnone) hw⟩
  · obtain ⟨k', rfl⟩ := h.recached
    exact ⟨k', rfl⟩
  · intro id' w hw
    rw [Table.get?_insert] at hw
    split at hw
    · rename_i hid
      subst hid
      cases hw
      exact ht
    · exact h.kept id' w hw

end Replays

/-- Each constant of the module comes after those that it refers to. -/
structure Module.CountedBy (m : Module) (rank : ConstId → Nat) : Prop where
  below : ∀ id c, m.constant id = .ok c → rank id < m.constants.size
  descends : ∀ id c r c', m.constant id = .ok c → r ∈ c.kind.references → m.constant r = .ok c' →
    rank r < rank id

/-- No constant refers to itself, be it through others: the constants can be counted off. -/
def Module.Acyclic (m : Module) : Prop := ∃ rank, m.CountedBy rank

/-- A run that makes constants of `k` again is compared with one that has them. What the budget
affords is made again. Where constants refer to each other in a circle, no budget is sure to do,
and the first run may not get as far. -/
def Coupling.replaying (p : Program) (s₀ : State) (k : Table ConstId Value) : Coupling where
  rel := Replays s₀ k
  shared _ := True
  excused e _ := e = .outOfFuel ∧ ¬p.module.Acyclic
  affords budget id := ∀ rank c, p.module.CountedBy rank → p.module.constant id = .ok c →
    rank id < budget

namespace Coupling

variable {s₀ : State} {k : Table ConstId Value} {budget : Nat}

/-- The first run gets the value too, or runs out of fuel in a circle. -/
theorem replaying_ok_iff {o : EStateM.Result Failure State α} {a : α} :
    (replaying p s₀ k).Matches o (.ok a t) ↔
      (∃ s, o = .ok a s ∧ Replays s₀ k s t) ∨ ∃ s, o = .error .outOfFuel s ∧ ¬p.module.Acyclic := by
  constructor
  · intro h
    cases h with
    | ok _ hst => exact .inl ⟨_, rfl, hst⟩
    | excused _ he => exact .inr ⟨_, by rw [he.1], he.2⟩
  · rintro (⟨s, rfl, hst⟩ | ⟨s, rfl, hcircle⟩)
    · exact .ok a hst
    · exact .excused _ ⟨rfl, hcircle⟩

theorem affords_size_replaying (id : ConstId) :
    (replaying p s₀ k).affords p.module.constants.size id :=
  fun _ c hrank hc => hrank.below id c hc

theorem affords_member_replaying {m : ConstId} (h : (replaying p s₀ k).affords (budget + 1) id)
    (hc : p.module.constant id = .ok c) (hm : m ∈ c.kind.references) :
    (replaying p s₀ k).affords budget m := by
  intro rank mc hrank hmc
  have hid := h rank c hrank hc
  have hmember := hrank.descends id c m mc hc hm hmc
  omega

theorem replaying_constants
    {ids : List ConstId} {vs : List Value}
    (hvalue : ∀ m ∈ ids, ∀ s w, Replays s₀ k s t → t.constants.get? m = some w →
      (replaying p s₀ k).Matches (Exec.constValueWith p budget m s) (.ok w t))
    (hids : ∀ m ∈ ids, p.IsValue m) (hvs : ids.map t.constants.get? = vs.map some)
    (hst : Replays s₀ k s t) :
    (replaying p s₀ k).Matches (Exec.constants (Exec.constOperandWith p budget) ids s)
      (.ok vs t) := by
  induction ids generalizing s vs with
  | nil =>
    obtain rfl : vs = [] := by simpa using hvs.symm
    exact .ok [] hst
  | cons m ids ih =>
    cases vs with
    | nil => simp at hvs
    | cons w ws =>
      rw [List.map_cons, List.map_cons, List.cons.injEq] at hvs
      have hhead : (replaying p s₀ k).Matches (Exec.constOperandWith p budget m s) (.ok w t) := by
        rw [(hids m List.mem_cons_self).operand_apply]
        exact hvalue m List.mem_cons_self s w hst hvs.1
      rcases replaying_ok_iff.mp hhead with ⟨u, hu, hut⟩ | ⟨u, hu, hcircle⟩
      · have htail := ih (fun m hm => hvalue m (List.mem_cons_of_mem _ hm))
          (fun m hm => hids m (List.mem_cons_of_mem _ hm)) hvs.2 hut
        rw [Exec.constants, Exec.bind_of_ok hu, Exec.bind_apply]
        rcases replaying_ok_iff.mp htail with ⟨u', hu', hut'⟩ | ⟨u', hu', hcircle⟩
        · rw [hu']
          exact .ok _ hut'
        · rw [hu']
          exact .excused _ ⟨rfl, hcircle⟩
      · rw [Exec.constants, Exec.bind_apply, hu]
        exact .excused _ ⟨rfl, hcircle⟩

/-- A constant of `k` comes out of making it again as it is in `k`. The members that the first run
has are those of the second, and the others are made again in turn. -/
theorem replaying_remake
    (hk : ∀ id v, s₀.constants.get? id = none → k.get? id = some v → Derived p s₀ k id v)
    (hst : Replays s₀ k s t) (hs : s.constants.get? id = none) (ht : t.constants.get? id = some v)
    (budget : Nat) (hbudget : (replaying p s₀ k).affords budget id) :
    (replaying p s₀ k).Matches (Exec.constValueWith p budget id s) (.ok v t) := by
  induction budget generalizing id v s with
  | zero =>
    obtain ⟨found, _, _, _, _⟩ := hk id v (hst.base.eq_none hs) (hst.ahead id v hs ht)
    have hcircle : ¬p.module.Acyclic := by
      rintro ⟨rank, hrank⟩
      exact Nat.not_lt_zero _ (hbudget rank _ hrank found)
    rw [Exec.constValueWith, Exec.bind_of_ok (Exec.get_apply s), hs]
    exact .excused _ ⟨rfl, hcircle⟩
  | succ budget ih =>
    obtain @⟨c, vs, made, found, values, members, again, rfl⟩ :=
      hk id v (hst.base.eq_none hs) (hst.ahead id v hs ht)
    have hvalue : ∀ m ∈ c.kind.references, ∀ u w, Replays s₀ k u t → t.constants.get? m = some w →
        (replaying p s₀ k).Matches (Exec.constValueWith p budget m u) (.ok w t) := by
      intro m hm u w hut hw
      cases hcached : u.constants.get? m with
      | none => exact ih hut hcached hw (affords_member_replaying hbudget found hm)
      | some w' =>
        rw [hut.kept m w' hcached] at hw
        cases hw
        rw [Exec.constValueWith_of_cached hcached]
        exact .ok w hut
    rw [Exec.constValueWith_of_missing hs, found, Exec.bind_of_ok (Exec.liftFault_ok _ _),
      Exec.bind_apply, Exec.within, Exec.materialize_eq_assemble, Exec.bind_apply]
    rcases replaying_ok_iff.mp (replaying_constants hvalue values (hst.held.map_get? members) hst)
      with ⟨u, hu, hut⟩ | ⟨u, hu, hcircle⟩
    · rw [hu]
      dsimp only
      rw [again u hut.later]
      exact .ok _ (hut.catchUp ht)
    · rw [hu]
      exact .excused _ ⟨rfl, hcircle⟩

/-- What a computation does to memory and frames does not depend on the cache. -/
def Blind (x : Exec α) : Prop :=
  ∀ s : State, ∃ (r : Result α) (memory : Memory) (frames : List Frame), ∀ constants,
    x { s with constants } = (liftM r : Exec α) { s with constants, memory, frames }

theorem Blind.follows {x : Exec α} (h : Blind x) : (replaying p s₀ k).Follows x x := by
  intro s t hst
  obtain ⟨r, memory, frames, hx⟩ := h s
  obtain ⟨k', rfl⟩ := hst.recached
  rw [hx k', show x s = _ from hx s.constants]
  cases r with
  | ok a => exact .ok a (hst.change memory frames)
  | error e => exact .error (hst.change memory frames) trivial

theorem blind_load (address : Nat) (ty : Ty) : Blind (Exec.load p address ty) :=
  fun s => ⟨s.memory.load p.config.sanitizeMemory address ty, s.memory, s.frames, fun _ => rfl⟩

theorem blind_storeBytes (address : Nat) (bytes : Bytes) :
    Blind (Exec.storeBytes p address bytes) := by
  intro s
  simp only [Exec.storeBytes_eq_ite]
  split
  · exact ⟨.ok (), _, s.frames, fun _ => rfl⟩
  · exact ⟨.error _, s.memory, s.frames, fun _ => rfl⟩

theorem blind_allocStatic (kind : AllocKind) (bytes : Bytes) :
    Blind (Exec.allocStatic p kind bytes) := by
  intro s
  by_cases hempty : bytes = []
  · subst hempty
    exact ⟨.ok _, s.memory, s.frames, fun _ => rfl⟩
  · cases hroom : p.allocator.place s.memory.ledger bytes.length with
    | none =>
      have heq (constants) := Exec.allocStatic_of_none (s := { s with constants }) kind hempty hroom
      exact ⟨.error _, s.memory, s.frames, heq⟩
    | some address =>
      obtain ⟨statics, hrecorded⟩ := Allocator.exists_insert_statics hroom kind
      have heq (constants) :=
        Exec.allocStatic_of_some (s := { s with constants }) hempty hroom hrecorded
      dsimp only at heq
      exact ⟨.ok _, _, s.frames, heq⟩

theorem blind_allocFrame (size : Nat) : Blind (Exec.allocFrame p size) := by
  intro s
  rcases s.frames_cases with hfr | ⟨fr, rest, hfr⟩
  · have heq (constants) := Exec.allocFrame_nil (p := p) (s := { s with constants }) hfr size
    exact ⟨.error _, s.memory, s.frames, heq⟩
  · cases hroom : p.allocator.place s.memory.ledger size with
    | none =>
      have heq (constants) := Exec.allocFrame_of_none (s := { s with constants }) hfr hroom
      exact ⟨.error _, s.memory, s.frames, heq⟩
    | some address =>
      obtain ⟨stack, hrecorded⟩ := Allocator.exists_insert_stack hroom .frame
      have heq (constants) :=
        Exec.allocFrame_of_some (s := { s with constants }) hfr hroom hrecorded
      dsimp only at heq
      exact ⟨.ok _, _, _, heq⟩

theorem blind_popFrame : Blind Exec.popFrame := by
  intro s
  rcases s.frames_cases with hfr | ⟨fr, rest, hfr⟩
  · have heq (constants) := Exec.popFrame_nil (s := { s with constants }) hfr
    exact ⟨.error _, s.memory, s.frames, heq⟩
  · have heq (constants) := Exec.popFrame_eq (s := { s with constants }) hfr
    cases hreleased : s.memory.stack.removeAll fr.allocs with
    | ok stack =>
      simp only [hreleased] at heq
      exact ⟨.ok (), _, rest, heq⟩
    | error f =>
      simp only [hreleased] at heq
      exact ⟨.error _, s.memory, s.frames, heq⟩

theorem blind_callNative (callee : Callee) (args : List Value) :
    Blind (Exec.callNative p callee args) := by
  intro s
  simp only [Exec.callNative_eq]
  cases callee.prepare p.host args with
  | error e => exact ⟨.error e, s.memory, s.frames, fun _ => rfl⟩
  | ok call => exact ⟨_, _, s.frames, fun _ => rfl⟩

/-- Constants that can be made again need not be in the cache. -/
theorem sound_replaying
    (hk : ∀ id v, s₀.constants.get? id = none → k.get? id = some v → Derived p s₀ k id v) :
    (replaying p s₀ k).Sound p p.config where
  shares := by
    intro s t hst
    obtain ⟨k', rfl⟩ := hst.recached
    exact ⟨s.memory, k', rfl⟩
  reframe := by
    intro s t frames hst _
    obtain ⟨k', rfl⟩ := hst.recached
    exact hst.change s.memory frames
  push := by
    intro s t fr hst _
    obtain ⟨k', rfl⟩ := hst.recached
    exact hst.change s.memory (fr :: s.frames)
  prepare := by
    intro s t id hst
    obtain ⟨k', rfl⟩ := hst.recached
    exact hst.of_eq ⟨k', rfl⟩ rfl rfl ⟨fun _ => List.mem_cons_of_mem id, .refl _, rfl⟩
  intern := by
    intro s t id address hst hmissing
    obtain ⟨k', rfl⟩ := hst.recached
    have hbelow : s.strings.Below (s.strings.insert id address) := .insert (by simp [hmissing])
    exact hst.of_eq ⟨k', rfl⟩ rfl rfl ⟨fun _ hid => hid, hbelow, rfl⟩
  unrefused := fun _ => trivial
  shared_within := fun _ _ => trivial
  excused_within := by
    rintro e s c ⟨rfl, hcircle⟩
    exact ⟨rfl, hcircle⟩
  excused_leave := fun he _ => he
  load := fun address ty => (blind_load address ty).follows
  store := fun address bytes => (blind_storeBytes address bytes).follows
  place := fun kind bytes => (blind_allocStatic kind bytes).follows
  allocate := fun {size} _ => (blind_allocFrame size).follows
  leave := blind_popFrame.follows
  native := fun callee args => (blind_callNative callee args).follows
  depth := Nat.le_refl _
  overflow := fun _ _ => .inr ⟨rfl, trivial⟩
  cached := fun hst hv => hst.kept _ _ hv
  cache := by
    intro s t s' t' id c budget made hst hmissing _ _ hst'
    exact hst'.insert ((hst.base.trans hst.kept).eq_none hmissing) (hst.held.eq_none hmissing) _
  remake := fun hst hs ht => replaying_remake hk hst hs ht
  affords_size := affords_size_replaying
  affords_member := affords_member_replaying

end Coupling

end PackedIR
