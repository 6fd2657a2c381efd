/-
Constants are made once.

The references between constants may run in any direction and meet again, and making a constant
follows them. If they never lead back to where they started, the number of constants below a
constant drops with each reference, so no chain of references is longer than the budget and the
budget never decides: making a constant is the recursion over its references, which ends.

Each constant that is made adds one entry to the cache, in front. On the way to its own value a
constant is still missing, and afterwards it is there, so it is made once however many others refer
to it. The entries that a successful evaluation adds are those of the constants below that were
missing, each exactly once.
-/
import Mathlib.Data.Fintype.Card
import PackedIR.Proofs.InitialContents

set_option autoImplicit false

namespace PackedIR

open Exec

variable {α β : Type} {p : Program} {s t u : State} {id m q : ConstId} {c : Constant} {v w : Value}

/-! ## The reference graph -/

/-- The references between constants stay inside the module and never lead back. -/
structure Program.NoCycle (p : Program) : Prop where
  inside : ∀ id m, m ∈ p.references id → m.index < p.module.constants.size
  acyclic : ∀ id, ¬Relation.TransGen (fun id m => m ∈ p.references id) id id

theorem Module.index_lt_of_constant (h : p.module.constant id = .ok c) :
    id.index < p.module.constants.size :=
  (Array.getElem?_eq_some_iff.mp (orMissing_eq_ok_iff.mp h)).1

open Classical in
/-- The constants of the module that a constant leads to. -/
noncomputable def Program.below (p : Program) (id : ConstId) :
    Finset (Fin p.module.constants.size) :=
  Finset.univ.filter fun k => Relation.TransGen (fun id m => m ∈ p.references id) id ⟨k⟩

theorem Program.mem_below {k : Fin p.module.constants.size} :
    k ∈ p.below id ↔ Relation.TransGen (fun id m => m ∈ p.references id) id ⟨k⟩ := by
  unfold below
  simp

namespace Program.NoCycle

variable (hp : p.NoCycle)

include hp

/-- A reference leads to fewer constants, because it is not among them itself. -/
theorem card_below_lt (h : m ∈ p.references id) : (p.below m).card < (p.below id).card := by
  apply Finset.card_lt_card
  refine ⟨fun k hk => ?_, fun hsubset => ?_⟩
  · exact mem_below.mpr (.head h (mem_below.mp hk))
  · have hmem : (⟨m.index, hp.inside id m h⟩ : Fin _) ∈ p.below id := mem_below.mpr (.single h)
    exact hp.acyclic m (mem_below.mp (hsubset hmem))

/-- A constant does not lead to itself, so it leads to fewer constants than there are. -/
theorem card_below_lt_size (h : p.module.constant id = .ok c) :
    (p.below id).card < p.module.constants.size := by
  have hproper : p.below id ⊂ Finset.univ := by
    refine ⟨Finset.subset_univ _, fun hsubset => ?_⟩
    have hmem := hsubset (Finset.mem_univ (⟨id.index, Module.index_lt_of_constant h⟩ : Fin _))
    exact hp.acyclic id (mem_below.mp hmem)
  simpa using Finset.card_lt_card hproper

theorem countedBy : p.module.CountedBy fun id => (p.below id).card where
  below _ _ h := hp.card_below_lt_size h
  descends _ _ _ _ h hr _ := hp.card_below_lt ((Program.references_eq h).symm ▸ hr)

theorem grounded (id : ConstId) : p.Grounded id := by
  induction hn : (p.below id).card using Nat.strong_induction_on generalizing id with
  | _ n ih => exact Acc.intro id fun m hm => ih _ (hn ▸ hp.card_below_lt hm) m rfl

end Program.NoCycle

/-! ## Budgets -/

namespace Exec

theorem constants_congr {op op' : ConstId → Exec Value} {ids : List ConstId}
    (h : ∀ m ∈ ids, op m = op' m) : constants op ids = constants op' ids := by
  induction ids with
  | nil => rfl
  | cons m ids ih =>
    rw [constants, constants, h m List.mem_cons_self,
      ih fun m' hm' => h m' (List.mem_cons_of_mem m hm')]

theorem materialize_congr {op op' : ConstId → Exec Value}
    (h : ∀ m ∈ c.kind.references, op m = op' m) : materialize p op c = materialize p op' c := by
  rw [materialize_eq_assemble, materialize_eq_assemble, constants_congr h]

/-- Budgets above the rank of a constant make no difference to any outcome. -/
theorem constValueWith_eq_of_countedBy {rank : ConstId → Nat} (hrank : p.module.CountedBy rank)
    (hc : p.module.constant id = .ok c) {budget budget' : Nat} (h : rank id < budget)
    (h' : rank id < budget') : constValueWith p budget id = constValueWith p budget' id := by
  induction budget generalizing budget' id c with
  | zero => exact absurd h (Nat.not_lt_zero _)
  | succ budget ih =>
    cases budget' with
    | zero => exact absurd h' (Nat.not_lt_zero _)
    | succ budget' =>
      funext s
      cases hcached : s.constants.get? id with
      | some v => rw [constValueWith_of_cached hcached, constValueWith_of_cached hcached]
      | none =>
        -- Each reference has a smaller rank, so the smaller budgets do for it.
        have hmembers : ∀ m ∈ c.kind.references,
            constOperandWith p budget m = constOperandWith p budget' m := by
          intro m hm
          unfold constOperandWith
          cases hmc : p.module.constant m with
          | error e => rfl
          | ok mc =>
            have hless := hrank.descends id c m mc hc hm hmc
            have hsame : constValueWith p budget m = constValueWith p budget' m :=
              ih hmc (by omega) (by omega)
            rw [hsame]
        rw [constValueWith_of_missing hcached, constValueWith_of_missing hcached, hc,
          bind_of_ok (liftFault_ok _ _), bind_of_ok (liftFault_ok _ _), materialize_congr hmembers]

/-- In a module without cycles a larger budget changes nothing. -/
theorem constValueWith_of_noCycle (hp : p.NoCycle) (hc : p.module.constant id = .ok c)
    (more : Nat) : constValueWith p (p.module.constants.size + more) id = constValue p id := by
  have hsize := hp.card_below_lt_size hc
  exact constValueWith_eq_of_countedBy hp.countedBy hc (by omega) hsize

/-- Without a budget to speak of, making a constant is a recursion over its references. -/
theorem constValue_of_missing (hp : p.NoCycle) (hc : p.module.constant id = .ok c)
    (hmissing : s.constants.get? id = none) :
    constValue p id s = (do
      let made ← within (.materializing id) (materialize p (constOperand p) c)
      modify fun s => { s with constants := s.constants.insert id (made.withOrigin (.const id)) }
      return made.withOrigin (.const id) : Exec Value) s := by
  rw [← constValueWith_of_noCycle hp hc 1, constValueWith_of_missing hmissing, hc,
    bind_of_ok (liftFault_ok _ _)]
  rfl

end Exec

/-! ## Termination -/

/-- The computation does not fail for want of fuel. -/
def Exec.Concludes (x : Exec α) : Prop := ∀ s t, x s ≠ .error .outOfFuel t

namespace Exec.Concludes

theorem bind {x : Exec α} {f : α → Exec β} (hx : Concludes x) (hf : ∀ a, Concludes (f a)) :
    Concludes (x >>= f) := by
  intro s t h
  rcases bind_eq_error_iff.mp h with h | ⟨a, u, _, h⟩
  · exact hx s t h
  · exact hf a u t h

theorem pure (a : α) : Concludes (Pure.pure a : Exec α) := nofun

theorem gets : Concludes (get : Exec State) := nofun

theorem modifies (f : State → State) : Concludes (modify f : Exec Unit) := nofun

theorem liftFault (r : Except Fault α) : Concludes (liftM r : Exec α) := by
  intro s t h
  cases r with
  | ok a => cases h
  | error f => cases h

theorem lift {r : Result α} (h : r ≠ .error .outOfFuel) : Concludes (liftM r : Exec α) :=
  fun _ _ hr => h (lift_eq_error_iff.mp hr).1

theorem within {x : Exec α} (c : Context) (hx : Concludes x) : Concludes (Exec.within c x) := by
  intro s t h
  unfold Exec.within at h
  cases hout : x s with
  | ok a u =>
    rw [hout] at h
    cases h
  | error e u =>
    rw [hout] at h
    cases e with
    | raised | fault => cases h
    | outOfFuel => exact hx s u hout

/-! Pure computations raise errors of their own. -/

theorem checkSize (expected found : Nat) :
    PackedIR.checkSize expected found ≠ .error .outOfFuel := by
  unfold PackedIR.checkSize
  split <;> intro h <;> cases h

theorem ofBytes (ty : Ty) (bytes : Bytes) : Value.ofBytes ty bytes ≠ .error .outOfFuel := by
  intro h
  rcases except_bind_eq_error_iff.mp h with h | ⟨_, _, h⟩
  · exact checkSize _ _ h
  · cases h

theorem ofInt (ty : Ty) (i : Int) : Value.ofInt ty i ≠ .error .outOfFuel := by
  intro h
  cases ty with
  | int | bool | pointer | function =>
    simp only [Value.ofInt] at h
    split at h <;> cases h
  | _ => cases h

theorem ofDouble (ty : Ty) (bits : Nat) : Value.ofDouble ty bits ≠ .error .outOfFuel := by
  intro h
  cases ty <;> cases h

theorem retype (v : Value) (ty : Ty) : v.retype ty ≠ .error .outOfFuel := by
  intro h
  rcases except_bind_eq_error_iff.mp h with h | ⟨_, _, h⟩
  · exact checkSize _ _ h
  · cases h

theorem asAddress (v : Value) : v.asAddress ≠ .error .outOfFuel := by
  unfold Value.asAddress
  intro h
  split at h <;> cases h

theorem ownedArray (ty : Ty) (address len : Nat) :
    Exec.ownedArray ty address len ≠ .error .outOfFuel := by
  unfold Exec.ownedArray
  intro h
  split at h
  · split at h
    · exact ofBytes _ _ h
    · cases h
  · cases h

theorem load (address : Nat) (ty : Ty) : Concludes (Exec.load p address ty) := by
  refine gets.bind fun s => lift fun h => ?_
  rcases except_bind_eq_error_iff.mp h with h | ⟨_, _, h⟩
  · unfold Memory.checkAccess at h
    split at h <;> cases h
  · exact ofBytes _ _ h

/-! Storage, texts and functions. -/

theorem findRoom (size : Nat) : Concludes (Exec.findRoom p size) := by
  refine gets.bind fun s => ?_
  split
  · exact .pure _
  · intro t u h
    cases h

theorem allocStatic (kind : AllocKind) (bytes : Bytes) :
    Concludes (Exec.allocStatic p kind bytes) := by
  unfold Exec.allocStatic
  split
  · exact .pure _
  · exact (findRoom _).bind fun _ => gets.bind fun _ => (liftFault _).bind fun _ =>
      (modifies _).bind fun _ => .pure _

theorem globalString (id : StringId) : Concludes (Exec.globalString p id) := by
  refine gets.bind fun s => ?_
  split
  · exact .pure _
  · exact (liftFault _).bind fun _ => (allocStatic _ _).bind fun _ => (modifies _).bind fun _ =>
      .pure _

theorem compileFunction (id : FuncId) : Concludes (Exec.compileFunction p id) := by
  refine (liftFault _).bind fun f => gets.bind fun s => ?_
  split
  · exact .pure _
  · split
    · exact lift nofun
    · by_cases hlimit : FuncId.limit ≤ id.index
      · simp only [if_pos hlimit]
        nofun
      · simp only [if_neg hlimit]
        exact (modifies _).bind fun _ => .pure _

/-- Putting a constant together ends once its references have been evaluated. -/
theorem materialize {op : ConstId → Exec Value} (h : ∀ m ∈ c.kind.references, Concludes (op m)) :
    Concludes (Exec.materialize p op c) := by
  have hall (ids : List ConstId) (hids : ∀ m ∈ ids, Concludes (op m)) :
      Concludes (constants op ids) := by
    induction ids with
    | nil => exact .pure _
    | cons m ids ih =>
      exact (hids m List.mem_cons_self).bind fun _ =>
        (ih fun m' hm' => hids m' (List.mem_cons_of_mem m hm')).bind fun _ => .pure _
  obtain ⟨ty, kind⟩ := c
  cases kind with
  | int | bool => exact lift (ofInt _ _)
  | float => exact lift (ofDouble _ _)
  | zero => exact .pure _
  | text => exact (allocStatic _ _).bind fun _ => lift (ofInt _ _)
  | globalString id => exact (globalString id).bind fun _ => lift (ofInt _ _)
  | bitcast inner => exact (h inner List.mem_cons_self).bind fun _ => lift (retype _ _)
  | array | tuple | enumCase | slice | parts => exact (hall _ h).bind fun _ => lift (ofBytes _ _)
  | owned array =>
    exact (h array List.mem_cons_self).bind fun _ => (allocStatic _ _).bind fun _ =>
      lift (ownedArray _ _ _)
  | function id => exact (compileFunction id).bind fun _ => lift (ofInt _ _)
  | globalVar id =>
    refine gets.bind fun s => ?_
    split
    · exact .pure _
    · exact (liftFault _).bind fun _ => lift nofun

theorem decayConst (id : ConstId) (c : Constant) (v : Value) :
    Concludes (Exec.decayConst p id c v) := by
  unfold Exec.decayConst
  split
  · exact (lift (asAddress v)).bind fun _ => (load _ _).bind fun _ => .pure _
  · exact .pure _

/-- A budget above the rank of a constant does not run out. -/
theorem constValueWith {rank : ConstId → Nat} (hrank : p.module.CountedBy rank)
    (hc : p.module.constant id = .ok c) {budget : Nat} (h : rank id < budget) :
    Concludes (Exec.constValueWith p budget id) := by
  induction budget generalizing id c with
  | zero => exact absurd h (Nat.not_lt_zero _)
  | succ budget ih =>
    intro s t
    cases hcached : s.constants.get? id with
    | some v =>
      rw [constValueWith_of_cached hcached]
      nofun
    | none =>
      have hmembers : ∀ m ∈ c.kind.references, Concludes (constOperandWith p budget m) := by
        intro m hm
        unfold constOperandWith
        cases hmc : p.module.constant m with
        | error e =>
          intro s t h
          cases h
        | ok mc =>
          have hless := hrank.descends id c m mc hc hm hmc
          exact (liftFault _).bind fun _ => (ih hmc (by omega)).bind fun _ => decayConst _ _ _
      rw [constValueWith_of_missing hcached, hc, bind_of_ok (liftFault_ok _ _)]
      exact ((within _ (materialize hmembers)).bind fun _ => (modifies _).bind fun _ => .pure _) s t

end Exec.Concludes

/-! ## Entries of the cache -/

/-- The entries that the cache has got since `s` are for different constants, all of which were
missing. Each making of a constant adds one entry, so none has been made twice. -/
def AddsOnce (s t : State) : Prop :=
  ∃ new : List (ConstId × Value), t.constants.entries = new ++ s.constants.entries ∧
    (new.map Prod.fst).Nodup ∧ ∀ q ∈ new.map Prod.fst, s.constants.get? q = none

theorem Table.get?_eq_none_iff {κ β : Type} [DecidableEq κ] {k : Table κ β} {key : κ} :
    k.get? key = none ↔ key ∉ k.entries.map Prod.fst := by
  unfold get?
  rw [List.lookup_eq_none_iff]
  simp only [List.mem_map, not_exists, not_and, bne_iff_ne, ne_eq]
  constructor
  · rintro h entry hentry rfl
    exact h entry hentry rfl
  · rintro h entry hentry rfl
    exact h entry hentry rfl

namespace AddsOnce

theorem of_eq (h : t.constants = s.constants) : AddsOnce s t :=
  ⟨[], by rw [h, List.nil_append], List.nodup_nil, nofun⟩

instance : Std.Refl AddsOnce := ⟨fun _ => .of_eq rfl⟩

instance : IsTrans State AddsOnce := by
  refine ⟨fun s t u h h' => ?_⟩
  obtain ⟨new, hnew, hnodup, hmissing⟩ := h
  obtain ⟨new', hnew', hnodup', hmissing'⟩ := h'
  -- What comes second was missing in between, so it is neither among the first nor was it there.
  have hlater : ∀ q ∈ new'.map Prod.fst, q ∉ new.map Prod.fst ∧ s.constants.get? q = none := by
    intro q hq
    have hnone := hmissing' q hq
    rw [Table.get?_eq_none_iff, hnew, List.map_append, List.mem_append, not_or] at hnone
    exact ⟨hnone.1, Table.get?_eq_none_iff.mpr hnone.2⟩
  refine ⟨new' ++ new, by rw [hnew', hnew, List.append_assoc], ?_, fun q hq => ?_⟩
  · rw [List.map_append, List.nodup_append]
    refine ⟨hnodup', hnodup, fun q hq q' hq' heq => ?_⟩
    exact (hlater q hq).1 (heq ▸ hq')
  · rw [List.map_append, List.mem_append] at hq
    rcases hq with hq | hq
    · exact (hlater q hq).2
    · exact hmissing q hq

/-- A constant that is missing is added. -/
theorem insert (h : s.constants.get? id = none) (v : Value) :
    AddsOnce s { s with constants := s.constants.insert id v } :=
  ⟨[(id, v)], rfl, List.nodup_singleton _, by simpa using h⟩

/-- No constant is cached on the way to its own value, so none is added twice. -/
theorem tracks (hp : p.NoCycle) : Tracks p AddsOnce where
  place kind bytes := (allocStatic_retains kind bytes).mono fun _ _ h => .of_eq h.constants
  intern id := (globalString_retains id).mono fun _ _ h => .of_eq h.constants
  prepare id := (compileFunction_retains id).mono fun _ _ h => .of_eq h.constants
  cache := by
    intro s t id c budget made hmissing hc hmade hst
    have hstill := (hp.grounded id).get?_of_materialize hc hmissing hmade
    exact trans_of AddsOnce hst (.insert hstill _)

end AddsOnce

/-! ## Outcomes -/

namespace Exec

/-- Making a constant caches nothing but what its references lead to. -/
theorem materialize_fills (budget : Nat) (c : Constant) :
    Along (Fills fun q => ∃ m ∈ c.kind.references, p.Within m q)
      (materialize p (constOperandWith p budget) c) := by
  rw [materialize_eq_assemble]
  refine (constants_fills fun m hm => ?_).bind fun vs => ?_
  · exact (constOperandWith_fills budget m).mono fun _ _ h => h.mono fun q hq => ⟨m, hm, hq⟩
  · exact (assemble_retains c vs).mono fun _ _ h => .of_eq h.constants

/-- A constant that could not be made is not cached. -/
theorem get?_of_constValue_error {e : Failure} (hp : p.NoCycle) (hc : p.module.constant id = .ok c)
    (h : constValue p id s = .error e t) : t.constants.get? id = none := by
  cases hcached : s.constants.get? id with
  | some v =>
    rw [constValue, constValueWith_of_cached hcached] at h
    cases h
  | none =>
    rw [constValue_of_missing hp hc hcached] at h
    rcases bind_eq_error_iff.mp h with h | ⟨_, _, _, h⟩
    · have hfilled := materialize_fills (p := p) p.module.constants.size c s
      rw [← after_within (.materializing id)] at hfilled
      change Fills _ s ((within (.materializing id) (materialize p (constOperand p) c)).after s)
        at hfilled
      rw [after_of_error h] at hfilled
      by_contra hfound
      obtain ⟨m, hm, hback⟩ := hfilled id hcached hfound
      rw [← Program.references_eq hc] at hm
      exact (hp.grounded id).not_within hm hback
    · cases h

theorem constValue_of_constOperand (hc : p.module.constant id = .ok c)
    (h : constOperand p id s = .ok w t) : ∃ v, constValue p id s = .ok v t := by
  unfold constOperand at h
  rw [hc, bind_of_ok (liftFault_ok _ _)] at h
  obtain ⟨v, u, hv, hdecay⟩ := bind_eq_ok_iff.mp h
  cases (reads_decayConst id c v).state_eq hdecay
  exact ⟨v, hv⟩

end Exec

/-- What an evaluation of the constant `id` from `s` has left behind in `t`. -/
structure Memoizes (p : Program) (id : ConstId) (s t : State) : Prop where
  /-- Everything that the constant is made from is cached. -/
  cached : ∀ q, p.Within id q → t.constants.get? q ≠ none
  kept : ∀ q v, s.constants.get? q = some v → t.constants.get? q = some v
  /-- The constants below that were missing have been made, each once, and no other. -/
  once : ∃ new : List (ConstId × Value), t.constants.entries = new ++ s.constants.entries ∧
    (new.map Prod.fst).Nodup ∧
    ∀ q, q ∈ new.map Prod.fst ↔ p.Within id q ∧ s.constants.get? q = none

theorem Memoizes.of_constValue (hp : p.NoCycle) (hs : Reachable p s)
    (h : constValue p id s = .ok v t) : Memoizes p id s t := by
  have hcached : t.constants.get? id = some v := constants_get?_of_constValueWith h
  have hclosed : Closed p t := by
    have hrel := invariant_closed.reachable_rel (p := p) (fun _ _ hnone _ => absurd rfl hnone) hs
    have hfollows : (Coupling.keeping (Closed p)).Follows (constValue p id) (constValue p id) :=
      invariant_closed.toInvariant.sound.constValueWith trivial
    have hafter := Coupling.rel_of_keeping_matches (hfollows s s hrel)
    rw [after_of_ok h] at hafter
    exact hafter.2.2
  have hall : ∀ q, p.Within id q → t.constants.get? q ≠ none := by
    intro q hq
    refine hclosed.within ?_ hq
    rw [hcached]
    exact Option.some_ne_none v
  refine ⟨hall, fun q w => ((constValue_makes id).of_ok h).constants_get?, ?_⟩
  obtain ⟨new, hnew, hnodup, hmissing⟩ := ((AddsOnce.tracks hp).constValueWith _ id).of_ok h
  refine ⟨new, hnew, hnodup, fun q => ⟨fun hq => ⟨?_, hmissing q hq⟩, fun hq => ?_⟩⟩
  · -- What has been added is cached now, and nothing else is filled in.
    refine (constValueWith_fills _ id).of_ok h q (hmissing q hq) ?_
    rw [ne_eq, Table.get?_eq_none_iff, hnew, List.map_append, List.mem_append, not_not]
    exact .inl hq
  · have hfound := hall q hq.1
    rw [ne_eq, Table.get?_eq_none_iff, hnew, List.map_append, List.mem_append, not_not] at hfound
    exact hfound.resolve_right (Table.get?_eq_none_iff.mp hq.2)

/-- Constants without cycles are made by a recursion that ends, and each of them once. In every
state the evaluation of a constant, as a value or as an operand, comes to an end that no budget
decides, and a constant that is missing is made from its references. On success everything that
the constant is made from is cached, what was cached is unchanged, each constant that was missing
has been made exactly once, and a repetition finds the value and changes nothing. On failure the
constant is not cached, and what was cached is unchanged. -/
theorem constants_made_once (hp : p.NoCycle) (hs : Reachable p s)
    (hc : p.module.constant id = .ok c) :
    Concludes (constValue p id) ∧ Concludes (constOperand p id) ∧
    (∀ more, constValueWith p (p.module.constants.size + more) id = constValue p id) ∧
    (s.constants.get? id = none → constValue p id s = (do
      let made ← within (.materializing id) (materialize p (constOperand p) c)
      modify fun s => { s with constants := s.constants.insert id (made.withOrigin (.const id)) }
      return made.withOrigin (.const id) : Exec Value) s) ∧
    (∀ v t, constValue p id s = .ok v t → Memoizes p id s t ∧ constValue p id t = .ok v t) ∧
    (∀ v t, constOperand p id s = .ok v t → Memoizes p id s t) ∧
    ∀ e t, constValue p id s = .error e t → t.constants.get? id = none ∧
      ∀ q v, s.constants.get? q = some v → t.constants.get? q = some v := by
  have hends : Concludes (constValue p id) :=
    .constValueWith hp.countedBy hc (hp.card_below_lt_size hc)
  refine ⟨hends, ?_, constValueWith_of_noCycle hp hc, constValue_of_missing hp hc, fun v t h => ?_,
    fun w t h => ?_, fun e t h => ⟨get?_of_constValue_error hp hc h, fun q v hv => ?_⟩⟩
  · exact (Concludes.liftFault _).bind fun _ => hends.bind fun _ => .decayConst _ _ _
  · exact ⟨.of_constValue hp hs h,
      constValueWith_of_cached (constants_get?_of_constValueWith h) _⟩
  · obtain ⟨v, hv⟩ := constValue_of_constOperand hc h
    exact .of_constValue hp hs hv
  · have hmakes := constValue_makes (p := p) id s
    rw [after_of_error h] at hmakes
    exact hmakes.constants_get? hv

/-! ## Shared members -/

namespace Sharing

/-- A tuple of an array and a reinterpreted integer. The integer is an element of the array twice,
and all references lead forward. -/
def program : Program where
  module :=
    { name := "sharing"
      constants := #[⟨.tuple [.array Ty.i32 2, Ty.u32], .tuple [⟨1⟩, ⟨2⟩]⟩,
        ⟨.array Ty.i32 2, .array [⟨3⟩, ⟨3⟩]⟩, ⟨Ty.u32, .bitcast ⟨3⟩⟩, ⟨Ty.i32, .int 7⟩] }

theorem ascends (h : m ∈ program.references id) : id.index < m.index ∧ m.index < 4 := by
  have hall : ∀ k : Fin 4, ∀ m ∈ program.references ⟨k⟩, k.val < m.index ∧ m.index < 4 := by decide
  by_cases hid : id.index < 4
  · exact hall ⟨id.index, hid⟩ m h
  · have hnone : program.module.constants[id.index]? = none :=
      Array.getElem?_eq_none (Nat.le_of_not_lt hid)
    rw [Program.references, Module.constant, hnone] at h
    cases h

theorem noCycle : program.NoCycle where
  inside _ _ h := (ascends h).2
  acyclic id hcycle := by
    have hrises : ∀ m, Relation.TransGen (fun id m => m ∈ program.references id) id m →
        id.index < m.index := by
      intro m hm
      induction hm with
      | single h => exact (ascends h).1
      | tail _ h ih => exact Nat.lt_trans ih (ascends h).1
    exact Nat.lt_irrefl _ (hrises id hcycle)

/-- The integer three times. -/
def value : Value where
  ty := .tuple [.array Ty.i32 2, Ty.u32]
  origin := .const ⟨0⟩
  bytes := [7, 0, 0, 0, 7, 0, 0, 0, 7, 0, 0, 0]

theorem constValue_eq : ∃ t, constValue program ⟨0⟩ {} = .ok value t :=
  ⟨_, eq_ok_of_result? (by decide +kernel)⟩

end Sharing

/-- The integer that three constants are made from is made once. -/
theorem constants_made_once_sharing :
    Sharing.program.NoCycle ∧ ∃ t, constValue Sharing.program ⟨0⟩ {} = .ok Sharing.value t ∧
      constValue Sharing.program ⟨0⟩ t = .ok Sharing.value t ∧
      ∃ new : List (ConstId × Value), t.constants.entries = new ∧ (new.map Prod.fst).Nodup ∧
        (⟨3⟩ : ConstId) ∈ new.map Prod.fst := by
  obtain ⟨t, hok⟩ := Sharing.constValue_eq
  have hfound : Sharing.program.module.constant ⟨0⟩ = .ok _ := rfl
  obtain ⟨_, _, _, _, hvalue, _⟩ := constants_made_once Sharing.noCycle (.idle .fresh) hfound
  obtain ⟨hmemoizes, hagain⟩ := hvalue _ t hok
  obtain ⟨new, hnew, hnodup, hmade⟩ := hmemoizes.once
  have hwithin : Sharing.program.Within ⟨0⟩ ⟨3⟩ :=
    .tail (.single (b := ⟨2⟩) (by decide)) (by decide)
  refine ⟨Sharing.noCycle, t, hok, hagain, new, ?_, hnodup, (hmade ⟨3⟩).mpr ⟨hwithin, rfl⟩⟩
  rw [hnew]
  exact List.append_nil new

end PackedIR
