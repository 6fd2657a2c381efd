/-
Where global variables live.

A global variable goes by several names. The table of globals holds its address, questions from
outside look it up there, and each constant that refers to the variable keeps the address it has
found in the table when it was made. As long as a global is registered once, the table has one
address for it and all names stand for the same storage. An address in the table always belongs to
recorded storage of the right size, so what is stored through one name is there to be read through
the others.

Nothing registers a global but setting up. Setting up can fail half way, and then it is not done:
it can be asked for again, and starts from the first global. From an empty table it registers each
global at most once. Otherwise it gives new storage to globals that had some, and constants that
were made in between keep the old address.
-/
import Mathlib.Algebra.Group.Nat.Defs
import PackedIR.Proofs.Access
import PackedIR.Proofs.Dispatch
import PackedIR.Proofs.Invariants

set_option autoImplicit false

namespace PackedIR

open Exec

variable {p : Program} {s t u : State}

/-! ## Tables without repeated keys -/

namespace Table

variable {κ β : Type} [DecidableEq κ] {k : Table κ β} {key : κ} {a : β}

theorem mem_of_get? (h : k.get? key = some a) : (key, a) ∈ k.entries := by
  obtain ⟨entries⟩ := k
  unfold get? at h
  induction entries with
  | nil => cases h
  | cons entry entries ih =>
    obtain ⟨key', b⟩ := entry
    by_cases hkey : key = key'
    · subst hkey
      simp only [List.lookup_cons_self, Option.some.injEq] at h
      rw [h]
      exact List.mem_cons_self
    · rw [List.lookup_cons, beq_eq_false_iff_ne.mpr hkey] at h
      exact List.mem_cons_of_mem _ (ih h)

theorem get?_of_mem (hk : (k.entries.map Prod.fst).Nodup) (h : (key, a) ∈ k.entries) :
    k.get? key = some a := by
  obtain ⟨entries⟩ := k
  unfold get?
  dsimp only at hk h ⊢
  induction entries with
  | nil => cases h
  | cons entry entries ih =>
    obtain ⟨key', b⟩ := entry
    rw [List.map_cons, List.nodup_cons] at hk
    rcases List.mem_cons.mp h with heq | hmem
    · cases heq
      exact List.lookup_cons_self
    · have hkey : key ≠ key' := by
        rintro rfl
        exact hk.1 (List.mem_map.mpr ⟨(key, a), hmem, rfl⟩)
      rw [List.lookup_cons, beq_eq_false_iff_ne.mpr hkey]
      exact ih hk.2 hmem

end Table

/-- No global has been registered twice. -/
def State.RegisteredOnce (s : State) : Prop := (s.globals.entries.map Prod.fst).Nodup

theorem State.RegisteredOnce.of_eq (h : s.RegisteredOnce) (hglobals : t.globals = s.globals) :
    t.RegisteredOnce := by
  unfold RegisteredOnce
  rw [hglobals]
  exact h

/-! ## Names of a global -/

/-- The table of globals refers to recorded storage, and constants to what is in the table. -/
structure Registered (p : Program) (s : State) : Prop where
  placed : ∀ id reference, (id, reference) ∈ s.globals.entries →
    ∃ g address, p.module.global id = .ok g ∧ reference = g.reference id address ∧
      address < addressLimit ∧ s.memory.Backs address g.ty
  cached : ∀ id ty g v, p.module.constant id = .ok ⟨ty, .globalVar g⟩ →
    s.constants.get? id = some v →
    ∃ reference, (g, reference) ∈ s.globals.entries ∧ v = reference.withOrigin (.const id)

namespace Exec

/-- A reference to a global is made by looking the global up. -/
theorem materialize_globalVar {op : ConstId → Exec Value} {ty : Ty} {g : GlobalId} {made : Value}
    (h : materialize p op ⟨ty, .globalVar g⟩ s = .ok made t) :
    t = s ∧ s.globals.get? g = some made := by
  unfold materialize at h
  simp only [bind_of_ok (get_apply s)] at h
  cases hfound : s.globals.get? g with
  | some reference =>
    rw [hfound] at h
    cases h
    exact ⟨rfl, rfl⟩
  | none =>
    rw [hfound] at h
    simp only [bind_eq_ok_iff, lift_eq_ok_iff] at h
    obtain ⟨_, _, _, hraise, _⟩ := h
    cases hraise

end Exec

theorem invariant_registered : LastingInvariant p (Registered p) where
  retain := by
    intro s t hs hconstants hglobals _ hstatics
    refine ⟨?_, ?_⟩
    · rw [hglobals]
      intro id reference hmem
      obtain ⟨g, address, hg, href, hlimit, hbacked⟩ := hs.placed id reference hmem
      exact ⟨g, address, hg, href, hlimit, hbacked.imp_right fun ha => hstatics ha⟩
    · rw [hconstants, hglobals]
      exact hs.cached
  make := by
    intro s t id c budget made _ hc hmade ht
    refine ⟨ht.placed, fun q ty g v hq hv => ?_⟩
    change (t.constants.insert id (made.withOrigin (.const id))).get? q = some v at hv
    rw [Table.get?_insert] at hv
    split at hv
    · rename_i hid
      cases hv
      rw [hid, hc] at hq
      cases hq
      obtain ⟨rfl, hfound⟩ := materialize_globalVar hmade
      exact ⟨made, Table.mem_of_get? hfound, by rw [hid]⟩
    · exact ht.cached q ty g v hq hv
  register := by
    intro s id g address hs hg hlimit hbacked
    refine ⟨fun id' reference hmem => ?_, fun q ty g' v hq hv => ?_⟩
    · rcases List.mem_cons.mp hmem with heq | hmem
      · cases heq
        exact ⟨g, address, hg, rfl, hlimit, hbacked⟩
      · exact hs.placed id' reference hmem
    · obtain ⟨reference, hmem, hv⟩ := hs.cached q ty g' v hq hv
      exact ⟨reference, List.mem_cons_of_mem _ hmem, hv⟩
  ready := fun hs => ⟨hs.placed, hs.cached⟩

theorem registered_fresh : Registered p {} := by
  refine ⟨fun _ _ hmem => ?_, fun _ _ _ _ _ hv => ?_⟩
  · cases hmem
  · cases hv

theorem Global.asAddress_reference (g : Global) (id : GlobalId) {address : Nat}
    (h : address < addressLimit) : (g.reference id address).asAddress = .ok address :=
  Value.asAddress_ofAddress (Ty.mutPtrTo g.ty) h

theorem Exec.globalAddress_eq {id : GlobalId} {reference : Value} {address : Nat}
    (hid : s.globals.get? id = some reference) (haddress : reference.asAddress = .ok address) :
    globalAddress p id s = .ok address s := by
  unfold globalAddress
  rw [bind_of_ok (get_apply s)]
  simp only [hid, haddress, lift_ok]

/-- A global that is registered once has one address, under all its names. -/
theorem Registered.address {id : GlobalId} {reference : Value} (h : Registered p s)
    (honce : s.RegisteredOnce) (hid : s.globals.get? id = some reference) :
    ∃ g address, p.module.global id = .ok g ∧ s.memory.Backs address g.ty ∧
      reference.asAddress = .ok address ∧
      ∀ q ty v, p.module.constant q = .ok ⟨ty, .globalVar id⟩ → s.constants.get? q = some v →
        v.asAddress = .ok address := by
  obtain ⟨g, address, hg, rfl, hlimit, hbacked⟩ := h.placed id reference (Table.mem_of_get? hid)
  have haddress := g.asAddress_reference id hlimit
  refine ⟨g, address, hg, hbacked, haddress, fun q ty v hq hv => ?_⟩
  -- The reference that the constant has found is still the only one.
  obtain ⟨reference, hmem, rfl⟩ := h.cached q ty id v hq hv
  have hsame := (Table.get?_of_mem honce hmem).symm.trans hid
  cases hsame
  exact haddress

/-! ## What is stored through a name -/

/-- As far as it reaches, what is written is read back. -/
theorem Arena.take_read_write {a : Arena} {address count : Nat} {bytes : Bytes}
    (hbase : base ≤ address) (hnext : address + count ≤ a.next) :
    ((a.write address bytes).read address count).take bytes.length = bytes.take count := by
  induction bytes generalizing a address count with
  | nil => rw [List.length_nil, List.take_zero, List.take_nil]
  | cons x bytes ih =>
    cases count with
    | zero => rfl
    | succ count =>
      have hnext' : address + 1 + count ≤ (a.setByte address x).next := by
        unfold next at hnext ⊢
        rw [size_setByte]
        omega
      rw [write, read, List.length_cons, List.take_succ_cons, List.take_succ_cons,
        ih (by omega) hnext', byteAt_write_of_outside (.inl (by omega)),
        byteAt_setByte_self hbase (by omega)]

namespace Memory.Backs

variable {m : Memory} {address : Nat} {ty : Ty}

theorem accessible (h : m.Backs address ty) (hm : m.Housed) (hstack : m.stack.Ordered)
    (sanitize : Bool) : m.accessible sanitize address ty.size = true := by
  rcases h with hempty | hrecorded
  · rw [hempty]
    rfl
  · have hlive : m.Live address ty.size := ⟨_, .inr hrecorded, Nat.le_refl _, Nat.le_refl _⟩
    exact hlive.accessible hm hstack sanitize

/-- What is written to the storage of a variable is read back, as far as both go. -/
theorem take_read_put (h : m.Backs address ty) (hm : m.Housed) (bytes : Bytes) :
    ((m.put address bytes).arena.read address ty.size).take bytes.length =
      bytes.take ty.size := by
  rcases h with hempty | hrecorded
  · rw [hempty, Arena.read, List.take_nil, List.take_zero]
  · obtain ⟨hbase, hnext⟩ := hm.inside _ (.inr hrecorded)
    exact Arena.take_read_write hbase hnext

end Memory.Backs

theorem Makes.globals_eq (h : Makes p s t) : t.globals = s.globals := by
  induction h with
  | trans _ _ ih₁ ih₂ => rw [ih₂, ih₁]
  | make _ _ _ _ _ _ ih => exact ih
  | refl | place | intern | prepare => rfl

/-- Evaluating the operands of a store keeps the names in order. -/
theorem registered_of_storeOperands {value place : Operand} {x : Value × Nat × Ty}
    (hs : Reachable p s) (h : storeOperands p .store value place s = .ok x t) : Registered p t := by
  have hsound := (invariant_registered (p := p)).sound
  have hfollows : (Coupling.keeping (Registered p)).Follows
      (storeOperands p .store value place) (storeOperands p .store value place) :=
    (hsound.operand value).bind fun _ => (hsound.operandAddress place).bind fun _ => .pure _
  have hrel := Coupling.rel_of_keeping_matches
    (hfollows s s (invariant_registered.reachable_rel registered_fresh hs))
  rw [after_of_ok h] at hrel
  exact hrel.2.2

/-- The address that a reference to a global stands for is that of the global. -/
theorem Registered.address_of_operandAddress {q : ConstId} {ty ty' : Ty} {id : GlobalId}
    {address : Nat} (h : Registered p t) (honce : t.RegisteredOnce)
    (hq : p.module.constant q = .ok ⟨ty, .globalVar id⟩)
    (hplace : operandAddress p (.const q) s = .ok (address, ty') t) :
    ∃ g reference, p.module.global id = .ok g ∧ t.memory.Backs address g.ty ∧
      t.globals.get? id = some reference ∧ reference.asAddress = .ok address := by
  obtain ⟨_, _, _, _, _, hlocal, _⟩ | ⟨q', id', v, hconst, hq', hv, haddress⟩ :=
    operandAddress_eq_ok hplace
  · cases hlocal
  · cases hconst
    rw [hq] at hq'
    cases hq'
    have hcached := constants_get?_of_constValueWith hv
    obtain ⟨reference, hmem, _⟩ := h.cached q ty id v hq hcached
    have hfound := Table.get?_of_mem honce hmem
    obtain ⟨g, address', hg, hbacked, hreference, hnames⟩ := h.address honce hfound
    have hsame := (hnames q ty v hq hcached).symm.trans haddress
    cases hsame
    exact ⟨g, reference, hg, hbacked, hfound, hreference⟩

/-- What has been put where a global lives is what the global contains. -/
theorem Exec.globalValue_put {id : GlobalId} {g : Global} {reference : Value} {address : Nat}
    (hid : s.globals.get? id = some reference) (haddress : reference.asAddress = .ok address)
    (hg : p.module.global id = .ok g) (hbacked : s.memory.Backs address g.ty)
    (hhoused : s.memory.Housed) (hstack : s.memory.stack.Ordered) (bytes : Bytes) :
    let t := { s with memory := s.memory.put address bytes }
    ∃ w, globalValue p id t = .ok w t ∧ w.bytes.take bytes.length = bytes.take w.size := by
  intro t
  have haccess := hbacked.accessible hhoused hstack p.config.sanitizeMemory
  have hload : load p address g.ty t =
      .ok { ty := g.ty, bytes := t.memory.arena.read address g.ty.size } t :=
    load_eq_of_accessible haccess
  let w : Value :=
    { ty := g.ty, origin := .global id, bytes := t.memory.arena.read address g.ty.size }
  have hlookup : globalAddress p id t = .ok address t := globalAddress_eq hid haddress
  refine ⟨w, ?_, ?_⟩
  · unfold globalValue
    rw [bind_of_ok hlookup, hg, bind_of_ok (liftFault_ok _ _), bind_of_ok hload]
    rfl
  · have hsize : w.size = g.ty.size := Arena.length_read _ _ _
    rw [hsize]
    exact hbacked.take_read_put hhoused bytes

/-- What has been stored through a reference to a global is what the global contains. -/
theorem globalValue_of_store {f : Function} {value : Operand} {result : Option Local} {q : ConstId}
    {ty : Ty} {id : GlobalId} {flow : Flow} (hhost : p.host.KeepsExtent) (hs : Reachable p s)
    (honce : s.RegisteredOnce) (hq : p.module.constant q = .ok ⟨ty, .globalVar id⟩)
    (h : execute p f ⟨.place .store, [value, .const q], result⟩ s = .ok flow t) :
    ∃ v u w, operand p value s = .ok v u ∧ globalValue p id t = .ok w t ∧
      w.bytes.take v.size = v.bytes.take w.size := by
  rw [execute_store (.inl rfl)] at h
  obtain ⟨⟨v, address, ty'⟩, u, hoperands, h⟩ := bind_eq_ok_iff.mp h
  have hmakes : Makes p s u := (storeOperands_makes .store).of_ok hoperands
  have hu : Registered p u := registered_of_storeOperands hs hoperands
  have honce' : u.RegisteredOnce := honce.of_eq hmakes.globals_eq
  obtain ⟨_, u', hv, hplace⟩ := bind_eq_ok_iff.mp hoperands
  obtain ⟨_, _, hplace, hpure⟩ := bind_eq_ok_iff.mp hplace
  cases hpure
  obtain ⟨g, reference, hg, hbacked, hfound, hreference⟩ :=
    hu.address_of_operandAddress honce' hq hplace
  have hstack : u.memory.stack.Ordered := by
    rw [hmakes.stack_eq]
    exact hs.ownsStack.ordered
  have hput := globalValue_put hfound hreference hg hbacked (hmakes.housed (hs.housed hhost)) hstack
    v.bytes
  -- A store that is allowed changes nothing but the bytes.
  obtain ⟨_, t', hstore, hpure⟩ := bind_eq_ok_iff.mp h
  cases hpure
  obtain ⟨_, _, hsize, hstore⟩ := bind_eq_ok_iff.mp hstore
  cases (lift_eq_ok_iff.mp hsize).2
  rw [storeBytes_eq_ite] at hstore
  split at hstore
  · cases hstore
    obtain ⟨w, hw, hbytes⟩ := hput
    exact ⟨v, u', w, hv, hw, hbytes⟩
  · cases hstore

/-! ## How the table grows -/

theorem Effects.globals_eq (h : Effects p s t) : t.globals = s.globals := by
  induction h with
  | makes h => exact h.globals_eq
  | trans _ _ ih₁ ih₂ => rw [ih₂, ih₁]
  | store | native => rfl

theorem Prepares.globals_suffix (h : Prepares p s t) :
    s.globals.entries <:+ t.globals.entries := by
  induction h with
  | effects h => exact h.globals_eq ▸ List.suffix_refl _
  | trans _ _ ih₁ ih₂ => exact ih₁.trans ih₂
  | register => exact List.suffix_cons _ _
  | route | ready => exact List.suffix_refl _

/-- Entries are put in front of the others, and never removed. -/
theorem Moves.globals_suffix (h : Moves p s t) : s.globals.entries <:+ t.globals.entries := by
  induction h with
  | prepares h => exact h.globals_suffix
  | trans _ _ ih₁ ih₂ => exact ih₁.trans ih₂
  | allocates h | leaves h | enters _ h =>
    cases h
    exact List.suffix_refl _
  | bind | goto => exact List.suffix_refl _

/-- A global that is not registered again keeps its address. -/
theorem Moves.globals_get? {id : GlobalId} {reference : Value} (h : Moves p s t)
    (honce : t.RegisteredOnce) (hid : s.globals.get? id = some reference) :
    t.globals.get? id = some reference :=
  Table.get?_of_mem honce (h.globals_suffix.subset (Table.mem_of_get? hid))

/-! ## What does not register -/

namespace Exec

variable {α β : Type}

/-- Runs leave the table of globals alone. -/
theorem invariant_globals (globals : Table GlobalId Value) :
    Invariant p fun s => s.globals = globals where
  retain hs _ hglobals _ _ := hglobals.trans hs
  make _ _ _ ht := ht

theorem globals_after {x : Exec α} (hs : s.memory.statics.Ordered)
    (h : ∀ globals, (Coupling.keeping fun s => s.globals = globals).rel s s →
      (Coupling.keeping fun s => s.globals = globals).Matches (x s) (x s)) :
    (x.after s).globals = s.globals :=
  (Coupling.rel_of_keeping_matches (h s.globals ⟨rfl, hs, rfl⟩)).2.2

theorem startCall_globals (id : FuncId) (args : List Value) (hs : s.memory.statics.Ordered) :
    ((startCall p id args).after s).globals = s.globals :=
  globals_after hs fun globals hrel => (invariant_globals globals).sound.startCall id args s s hrel

theorem step_globals (base : Nat) (hs : s.memory.statics.Ordered) :
    ((step p base).after s).globals = s.globals :=
  globals_after hs fun globals hrel => (invariant_globals globals).sound.step base s s hrel

theorem runFunction_globals (fuel : Nat) (id : FuncId) (args : List Value)
    (hs : s.memory.statics.Ordered) (howns : OwnsStack s) :
    ((runFunction p fuel id args).after s).globals = s.globals :=
  globals_after hs fun globals hrel =>
    (invariant_globals globals).sound.runFunction howns hrel fuel id args

theorem runGlobalInit_globals (fuel : Nat) (hs : s.memory.statics.Ordered) (howns : OwnsStack s) :
    ((runGlobalInit p fuel).after s).globals = s.globals :=
  globals_after hs fun globals hrel =>
    (invariant_globals globals).sound.runGlobalInit rfl howns hrel fuel

/-! ## Registering -/

theorem globals_after_bind {x : Exec α} {f : α → Exec β} {P : Table GlobalId Value → Prop}
    (hx : (x.after s).globals = s.globals) (hs : P s.globals)
    (hf : ∀ a t, t.globals = s.globals → P ((f a).after t).globals) :
    P ((x >>= f).after s).globals := by
  rw [after, bind_apply]
  cases h : x s with
  | ok a t =>
    rw [after_of_ok h] at hx
    exact hf a t hx
  | error e t =>
    rw [after_of_error h] at hx
    exact hx ▸ hs

/-- A global is registered last, if at all. -/
theorem registerGlobal_globals (id : GlobalId) (g : Global) (s : State) :
    ((registerGlobal p id g).after s).globals = s.globals ∨
      ∃ reference, ((registerGlobal p id g).after s).globals = s.globals.insert id reference := by
  let P (k : Table GlobalId Value) : Prop :=
    k = s.globals ∨ ∃ reference, k = s.globals.insert id reference
  have registers (t : State) (ht : t.globals = s.globals) (reference : Value) :
      P (t.globals.insert id reference) := by
    rw [ht]
    exact .inr ⟨reference, rfl⟩
  refine globals_after_bind (P := P) (allocStatic_retains _ _ s).globals (.inl rfl) ?_
  intro address t ht
  cases g.init with
  | none => exact registers t ht _
  | some init =>
    have hinit : ((within (.initializingGlobal g.name) (constOperand p init)).after t).globals =
        t.globals := by
      rw [after_within]
      exact (constOperand_makes init t).globals_eq
    refine globals_after_bind (P := P) hinit (.inl ht) fun v u hu => ?_
    have hu' := hu.trans ht
    refine globals_after_bind (P := P) (by rw [← reads_lift _ u]) (.inl hu') fun _ w hw => ?_
    have hw' := hw.trans hu'
    refine globals_after_bind (P := P) (storeBytes_retains _ _ w).globals (.inl hw') fun _ y hy => ?_
    exact registers y (hy.trans hw') _

end Exec

/-- Each global in the table is there once, and comes before the given place in the module. -/
structure Numbered (index : Nat) (globals : Table GlobalId Value) : Prop where
  once : (globals.entries.map Prod.fst).Nodup
  before : ∀ id ∈ globals.entries.map Prod.fst, id.index < index

theorem Numbered.succ {index : Nat} {globals : Table GlobalId Value} (h : Numbered index globals) :
    Numbered (index + 1) globals :=
  ⟨h.once, fun id hid => Nat.lt_succ_of_lt (h.before id hid)⟩

theorem Numbered.insert {index : Nat} {globals : Table GlobalId Value} (h : Numbered index globals)
    (reference : Value) : Numbered (index + 1) (globals.insert ⟨index⟩ reference) := by
  refine ⟨List.nodup_cons.mpr ⟨fun hmem => ?_, h.once⟩, fun id hid => ?_⟩
  · exact Nat.lt_irrefl index (h.before ⟨index⟩ hmem)
  · rcases List.mem_cons.mp hid with rfl | hid
    · exact Nat.lt_succ_self index
    · exact h.succ.before id hid

namespace Exec

variable {α β : Type}

/-- Globals are registered in their order, each once. -/
theorem registerGlobals_once {index : Nat} (gs : List Global) (h : Numbered index s.globals) :
    ((registerGlobals p index gs).after s).RegisteredOnce := by
  induction gs generalizing index s with
  | nil => exact h.once
  | cons g gs ih =>
    have hfirst : Numbered (index + 1) ((registerGlobal p ⟨index⟩ g).after s).globals := by
      rcases registerGlobal_globals (p := p) ⟨index⟩ g s with heq | ⟨reference, heq⟩
      · rw [heq]
        exact h.succ
      · rw [heq]
        exact h.insert reference
    rw [registerGlobals, after, bind_apply]
    cases hx : registerGlobal p ⟨index⟩ g s with
    | ok _ t =>
      rw [after_of_ok hx] at hfirst
      exact ih hfirst
    | error e t =>
      rw [after_of_error hx] at hfirst
      exact hfirst.once

theorem globals_after_bind_same {x : Exec α} {f : α → Exec β}
    (hf : ∀ a t, ((f a).after t).globals = t.globals) :
    ((x >>= f).after s).globals = (x.after s).globals := by
  rw [after, bind_apply]
  cases h : x s with
  | ok a t =>
    rw [after_of_ok h]
    exact hf a t
  | error e t => rw [after_of_error h]

theorem registerAliases_globals (s : State) : ((registerAliases p).after s).globals = s.globals := by
  unfold registerAliases
  rw [after, bind_of_ok (get_apply s), ← after]
  cases routeIntrinsics p.module s.aliases p.module.intrinsics with
  | ok | error => rfl

/-- From an empty table each global is registered at most once, whether all of them are or not. -/
theorem prepare_once (hempty : s.globals.entries = []) : ((prepare p).after s).RegisteredOnce := by
  have hnumbered {t : State} (ht : t.globals = s.globals) : Numbered 0 t.globals := by
    refine ⟨?_, fun id hid => ?_⟩
    · rw [ht, hempty]
      exact .nil
    · rw [ht, hempty] at hid
      cases hid
  refine globals_after_bind (P := fun k => (k.entries.map Prod.fst).Nodup)
    (placeStrings_makes _ _ s).globals_eq (hnumbered rfl).once fun _ t ht => ?_
  rw [globals_after_bind_same fun _ u => ?_]
  · exact registerGlobals_once _ (hnumbered ht)
  · rw [globals_after_bind_same fun _ _ => rfl, registerAliases_globals]

/-- The same with the initializer, which finds all globals registered. -/
theorem setUp_once (hs : Reachable p s) (fuel : Nat) (hinit : s.initialized = false)
    (hempty : s.globals.entries = []) : ((setUp p fuel).after s).RegisteredOnce := by
  have honce := prepare_once (p := p) hempty
  have hrel := Coupling.rel_of_keeping_matches (invariant_registered.lasting.preparation s s
    (invariant_registered.reachable_rel registered_fresh hs))
  have howns : OwnsStack ((prepare p).after s) :=
    hs.ownsStack.moves (.prepares (prepare_prepares s))
  rw [after_congr (setUp_of_fresh fuel (by simp [hinit])), after, bind_apply]
  cases hprepare : prepare p s with
  | ok _ t =>
    rw [after_of_ok hprepare] at honce hrel howns
    have hkept := runGlobalInit_globals (p := p) fuel hrel.2.1 howns
    exact honce.of_eq hkept
  | error e t =>
    rw [after_of_error hprepare] at honce
    exact honce

end Exec

/-! ## Sessions -/

/-- A session goes on, by a request or a part of one, and setting up does not start again with some
globals registered already. -/
inductive Proceeds (p : Program) (s : State) : State → Prop where
  | performed {t : State} (r : Request)
      (first : ∀ fuel, r = .setUp fuel → s.initialized = true ∨ s.globals.entries = []) :
      Ends (r.perform p) s t → Proceeds p s t
  /-- Setting up has got as far as the global initializer. -/
  | prepared {t : State} (first : s.globals.entries = []) : prepare p s = .ok () t → Proceeds p s t
  | entered {t : State} (id : FuncId) (args : List Value) :
      startCall p id args s = .ok .entered t → Proceeds p s t
  | evaluated (os : List Operand) : Proceeds p s ((operands p os).after s)
  | stepped : Proceeds p s ((step p 0).after s)

/-- Such a session registers no global twice. -/
theorem Proceeds.registeredOnce (h : Proceeds p s t) (hs : Reachable p s)
    (honce : s.RegisteredOnce) : t.RegisteredOnce := by
  have hordered := (invariant_registered.reachable_rel registered_fresh hs).2.1
  cases h with
  | performed r first hends =>
    rw [← hends.after_eq]
    cases r with
    | setUp fuel =>
      cases hinit : s.initialized with
      | true =>
        have hsame := after_of_ok (setUp_of_initialized (p := p) fuel hinit)
        exact honce.of_eq (congrArg State.globals hsame)
      | false =>
        have hempty := (first fuel rfl).resolve_left (by simp [hinit])
        exact setUp_once hs fuel hinit hempty
    | run fuel id args =>
      refine honce.of_eq ((globals_after_bind_same fun _ _ => rfl).trans ?_)
      exact runFunction_globals fuel id args hordered hs.ownsStack
    | compile id =>
      refine honce.of_eq ((globals_after_bind_same fun _ _ => rfl).trans ?_)
      exact (compileFunction_makes id s).globals_eq
  | prepared first hprepare =>
    rw [← after_of_ok hprepare]
    exact prepare_once first
  | entered id args hstart =>
    rw [← after_of_ok hstart]
    exact honce.of_eq (startCall_globals id args hordered)
  | evaluated os => exact honce.of_eq (operands_makes os s).globals_eq
  | stepped => exact honce.of_eq (step_globals 0 hordered)

/-- In every state of a session in which no global has been registered twice, a global has one
address: the table of globals, look-ups from outside and all constants that refer to it agree. What
is stored through such a constant is what the global then contains, as far as the two sizes go. A
registered global keeps its address as long as it is not registered again. And that happens only
where setting up is asked for again after it has failed with globals registered. -/
theorem global_names_agree (hhost : p.host.KeepsExtent) (hs : Reachable p s)
    (honce : s.RegisteredOnce) :
    (∀ id reference, s.globals.get? id = some reference →
      ∃ address, reference.asAddress = .ok address ∧ globalAddress p id s = .ok address s ∧
        ∀ q ty v, p.module.constant q = .ok ⟨ty, .globalVar id⟩ → s.constants.get? q = some v →
          v.asAddress = .ok address) ∧
    (∀ f value q ty id result flow t, p.module.constant q = .ok ⟨ty, .globalVar id⟩ →
      execute p f ⟨.place .store, [value, .const q], result⟩ s = .ok flow t →
      ∃ v u w, operand p value s = .ok v u ∧ globalValue p id t = .ok w t ∧
        w.bytes.take v.size = v.bytes.take w.size) ∧
    (∀ id reference t, s.globals.get? id = some reference → Moves p s t → t.RegisteredOnce →
      t.globals.get? id = some reference) ∧
    ∀ t, Proceeds p s t → t.RegisteredOnce := by
  refine ⟨fun id reference hid => ?_, fun f value q ty id result flow t hq hstore => ?_,
    fun id reference t hid hmoves honce' => hmoves.globals_get? honce' hid,
    fun t ht => ht.registeredOnce hs honce⟩
  · obtain ⟨g, address, _, _, haddress, hnames⟩ :=
      (invariant_registered.reachable registered_fresh hs).address honce hid
    exact ⟨address, haddress, globalAddress_eq hid haddress, hnames⟩
  · exact globalValue_of_store hhost hs honce hq hstore

/-! ## Setting up again

The first global has no initial value, the second copies it, and the initial value of the third does
not fit. Setting up fails at the third, when a constant has kept the address of the first. -/

namespace Retrying

/-- Stores seven in the first global. -/
def store : Instruction := ⟨.place .store, [.const ⟨3⟩, .const ⟨0⟩], none⟩

def function : Function where
  name := "set"
  ty := .function [] .void false
  locals := #[]
  blocks := #[⟨"entry", #[store, ⟨.ret, [], none⟩]⟩]

def program : Program where
  module :=
    { name := "retrying"
      constants := #[⟨Ty.uword, .globalVar ⟨0⟩⟩, ⟨Ty.uword, .bitcast ⟨0⟩⟩, ⟨Ty.uword, .int 0⟩,
        ⟨Ty.uword, .int 7⟩]
      functions := #[function]
      globals := #[⟨"g", Ty.uword, none⟩, ⟨"copy", Ty.uword, some ⟨1⟩⟩, ⟨"bad", Ty.u8, some ⟨2⟩⟩] }

/-- Setting up has failed once, -/
def first : State := (setUp program 9).after {}

/-- and again. -/
def second : State := (setUp program 9).after first

/-- After the first failure the function is at its store. -/
def atStore : State := (startCall program ⟨0⟩ []).after first

/-- After the second failure the function has run. -/
def stored : State := (runFunction program 9 ⟨0⟩ []).after second

theorem first_fails : ∃ c e, setUp program 9 {} = .error (.raised c e) first :=
  eq_error_of_raises (by decide +kernel)

theorem second_fails : ∃ c e, setUp program 9 first = .error (.raised c e) second :=
  eq_error_of_raises (by decide +kernel)

theorem first_idle : Idle program first := .performed (.setUp 9) .fresh (.inr first_fails)

theorem second_idle : Idle program second := .performed (.setUp 9) first_idle (.inr second_fails)

theorem atStore_reachable : Reachable program atStore :=
  .entered ⟨0⟩ [] first_idle (eq_ok_of_result? (by decide +kernel))

/-- What the constant has kept. -/
def kept : Value :=
  { ty := Ty.mutPtrTo Ty.uword, origin := .const ⟨0⟩, bytes := [0, 0, 0, 0, 0, 4, 0, 0] }

end Retrying

instance (s : State) : Decidable s.RegisteredOnce := inferInstanceAs (Decidable (List.Nodup _))

/-- Setting up has failed and is not tried again. The constant that refers to the first global has
the address in the table, what the function stores is what the global contains, and the table stays
in order. -/
theorem global_names_agree_storing :
    let t := (execute Retrying.program Retrying.function Retrying.store).after Retrying.atStore
    (∃ address, globalAddress Retrying.program ⟨0⟩ Retrying.atStore = .ok address Retrying.atStore ∧
      Retrying.kept.asAddress = .ok address) ∧
    (∃ v u w, operand Retrying.program (.const ⟨3⟩) Retrying.atStore = .ok v u ∧
      globalValue Retrying.program ⟨0⟩ t = .ok w t ∧ w.bytes.take v.size = v.bytes.take w.size) ∧
    ((step Retrying.program 0).after Retrying.atStore).RegisteredOnce := by
  intro t
  obtain ⟨hnames, hstore, _, hproceeds⟩ := global_names_agree Native.host_keepsExtent
    Retrying.atStore_reachable (by decide +kernel)
  obtain ⟨reference, hfound⟩ := Option.isSome_iff_exists.mp
    (show (Retrying.atStore.globals.get? ⟨0⟩).isSome = true by decide +kernel)
  obtain ⟨flow, hflow⟩ := Option.isSome_iff_exists.mp
    (show ((execute Retrying.program Retrying.function Retrying.store).result?
      Retrying.atStore).isSome = true by decide +kernel)
  obtain ⟨address, _, hlookup, hcached⟩ := hnames ⟨0⟩ reference hfound
  refine ⟨⟨address, hlookup, hcached ⟨0⟩ Ty.uword Retrying.kept rfl (by decide +kernel)⟩, ?_,
    hproceeds _ .stepped⟩
  exact hstore _ _ _ _ _ _ _ t rfl (eq_ok_of_result? hflow)

/-- Setting up is tried twice. The first global has an address after the first failure and another
after the second, and the constant has kept the first one. So what the function stores through the
constant is not what the global contains. -/
theorem global_names_disagree :
    (∃ c e, setUp Retrying.program 9 {} = .error (.raised c e) Retrying.first) ∧
    (∃ c e, setUp Retrying.program 9 Retrying.first = .error (.raised c e) Retrying.second) ∧
    Reachable Retrying.program Retrying.second ∧
    globalAddress Retrying.program ⟨0⟩ Retrying.first = .ok (2 ^ 42) Retrying.first ∧
    globalAddress Retrying.program ⟨0⟩ Retrying.second = .ok (2 ^ 42 + 20) Retrying.second ∧
    Retrying.second.constants.get? ⟨0⟩ = some Retrying.kept ∧
    Retrying.kept.asAddress = .ok (2 ^ 42) ∧
    (∃ v, runFunction Retrying.program 9 ⟨0⟩ [] Retrying.second = .ok v Retrying.stored) ∧
    operand Retrying.program (.const ⟨3⟩) Retrying.stored =
      .ok { ty := Ty.uword, origin := .const ⟨3⟩, bytes := [7, 0, 0, 0, 0, 0, 0, 0] }
        Retrying.stored ∧
    globalValue Retrying.program ⟨0⟩ Retrying.stored =
      .ok { ty := Ty.uword, origin := .global ⟨0⟩, bytes := [0, 0, 0, 0, 0, 0, 0, 0] }
        Retrying.stored := by
  refine ⟨Retrying.first_fails, Retrying.second_fails, .idle Retrying.second_idle, ?_, ?_,
    by decide +kernel, by rfl, ⟨{ ty := .void, bytes := [] }, ?_⟩, ?_, ?_⟩
  · exact eq_ok_of_computed (by decide +kernel) (by decide +kernel)
  · exact eq_ok_of_computed (by decide +kernel) (by decide +kernel)
  · exact eq_ok_of_result? (by decide +kernel)
  · exact eq_ok_of_computed (by decide +kernel) (by decide +kernel)
  · exact eq_ok_of_computed (by decide +kernel) (by decide +kernel)

end PackedIR
