/-
What global variables contain when a session has been set up.

Globals are registered one after the other. Each gets zeroed storage, its initial value is evaluated
and stored there, and then the global is registered. Meanwhile the later globals are not to be
found, and the earlier ones keep what they contain. So an initial value can refer to earlier globals
only, and it does so by copying what these contain: their own initial values.

Two things stand between a reference and the copy. Constants are cached, so a copy may have been
made for another constant earlier on; but what it was copied from has not changed since. And
constants are built from constants, so the copies lie somewhere inside of the value. `Denotes` says
where: it is what a constant has to be, given what the globals contain.
-/
import PackedIR.Proofs.SettingUp
import PackedIR.Proofs.Snapshots
import PackedIR.Proofs.Liveness

set_option autoImplicit false

namespace PackedIR

open Exec

variable {p : Program} {s t u : State} {id m q : ConstId} {c : Constant} {v w : Value}

/-! ## What a constant is made from stays cached -/

/-- With a constant, everything that it refers to is cached. -/
def Closed (p : Program) (s : State) : Prop :=
  ∀ id m, s.constants.get? id ≠ none → m ∈ p.references id → s.constants.get? m ≠ none

theorem Closed.within (h : Closed p s) (hid : s.constants.get? id ≠ none) (hq : p.Within id q) :
    s.constants.get? q ≠ none := by
  induction hq with
  | refl => exact hid
  | tail _ hm ih => exact h _ _ ih hm

theorem Exec.cached_of_constOperandWith {budget : Nat} (h : constOperandWith p budget m s = .ok w t) :
    t.constants.get? m ≠ none := by
  obtain ⟨c, _, hlift, hrest⟩ := bind_eq_ok_iff.mp h
  obtain ⟨_, rfl⟩ := liftFault_eq_ok_iff.mp hlift
  obtain ⟨x, u, hx, hdecay⟩ := bind_eq_ok_iff.mp hrest
  cases (reads_decayConst m c x).state_eq hdecay
  rw [constants_get?_of_constValueWith hx]
  exact Option.some_ne_none x

theorem Exec.cached_of_constants {budget : Nat} {ids : List ConstId} {vs : List Value}
    (h : constants (constOperandWith p budget) ids s = .ok vs t) (hm : m ∈ ids) :
    t.constants.get? m ≠ none := by
  induction ids generalizing s vs with
  | nil => cases hm
  | cons m' ids ih =>
    obtain ⟨w, u, hw, hrest⟩ := bind_eq_ok_iff.mp h
    obtain ⟨ws, t', hws, hpure⟩ := bind_eq_ok_iff.mp hrest
    cases hpure
    rcases List.mem_cons.mp hm with rfl | hm
    · obtain ⟨x, hx⟩ := Option.ne_none_iff_exists'.mp (cached_of_constOperandWith hw)
      rw [((constants_along (constOperandWith_makes budget) ids).of_ok hws).constants_get? hx]
      exact Option.some_ne_none x
    · exact ih hws hm

theorem invariant_closed : LastingInvariant p (Closed p) where
  retain := by
    intro s t hs hconstants _ _ _
    unfold Closed
    rw [hconstants]
    exact hs
  make := by
    intro s t id c budget made _ hc hmade ht
    rw [materialize_eq_assemble] at hmade
    obtain ⟨vs, u, hvs, hput⟩ := bind_eq_ok_iff.mp hmade
    have hsame := ((assemble_retains c vs).of_ok hput).constants
    have hinsert (q : ConstId) (hq : t.constants.get? q ≠ none) :
        (t.constants.insert id (made.withOrigin (.const id))).get? q ≠ none := by
      rw [Table.get?_insert]
      split
      · exact Option.some_ne_none _
      · exact hq
    intro q m hq hm
    refine hinsert m ?_
    change (t.constants.insert id (made.withOrigin (.const id))).get? q ≠ none at hq
    rw [Table.get?_insert] at hq
    split at hq
    · rename_i hid
      rw [hid, Program.references_eq hc] at hm
      rw [hsame]
      exact cached_of_constants hvs hm
    · exact ht q m hq hm
  register := fun hs _ _ _ => hs
  ready := fun hs => hs

/-- What is known of the cache and the table of globals at all times. -/
structure Wired (p : Program) (s : State) : Prop where
  registered : Registered p s
  coherent : Coherent p s
  closed : Closed p s

theorem invariant_wired : LastingInvariant p (Wired p) where
  retain hs hconstants hglobals hinitialized hstatics :=
    ⟨invariant_registered.retain hs.registered hconstants hglobals hinitialized hstatics,
      invariant_coherent.retain hs.coherent hconstants hglobals hinitialized hstatics,
      invariant_closed.retain hs.closed hconstants hglobals hinitialized hstatics⟩
  make hmissing hc hmade ht :=
    ⟨invariant_registered.make hmissing hc hmade ht.registered,
      invariant_coherent.make hmissing hc hmade ht.coherent,
      invariant_closed.make hmissing hc hmade ht.closed⟩
  register hs hg haddress hbacked :=
    ⟨invariant_registered.register hs.registered hg haddress hbacked,
      invariant_coherent.register hs.coherent hg haddress hbacked,
      invariant_closed.register hs.closed hg haddress hbacked⟩
  ready hs := ⟨invariant_registered.ready hs.registered, invariant_coherent.ready hs.coherent,
    invariant_closed.ready hs.closed⟩

theorem wired_fresh : Wired p {} := by
  refine ⟨registered_fresh, fun _ _ hnone _ => ?_, fun _ _ hnone _ => ?_⟩
  · cases hnone
  · exact absurd rfl hnone

/-- A variable below a cached constant is registered. -/
theorem Wired.registered_of_within {ty : Ty} {g : GlobalId} (h : Wired p s)
    (hid : s.constants.get? id ≠ none) (hq : p.Within id q)
    (hvariable : p.module.constant q = .ok ⟨ty, .globalVar g⟩) :
    g ∈ s.globals.entries.map Prod.fst := by
  obtain ⟨v, hv⟩ := Option.ne_none_iff_exists'.mp (h.closed.within hid hq)
  obtain ⟨reference, hmem, _⟩ := h.registered.cached q ty g v hvariable hv
  exact List.mem_map_of_mem hmem

/-! ## What setting up leaves alone -/

/-- The range is the storage of a registered global, or a buffer. -/
def State.InUse (s : State) (a : Allocation) : Prop :=
  a.kind = .constant ∨
    ∃ g reference, s.globals.get? g = some reference ∧ reference.asAddress = .ok a.start

/-- What was cached or registered is so still, and contains what it did. -/
structure Preserves (s t : State) : Prop where
  constants : ∀ id v, s.constants.get? id = some v → t.constants.get? id = some v
  globals : ∀ g reference, s.globals.get? g = some reference → t.globals.get? g = some reference
  contents : ∀ a ∈ s.memory.statics.entries, s.InUse a → a ∈ t.memory.statics.entries ∧
    t.memory.arena.read a.start a.size = s.memory.arena.read a.start a.size

namespace Preserves

theorem inUse (h : Preserves s t) {a : Allocation} (ha : s.InUse a) : t.InUse a := by
  refine ha.imp_right ?_
  rintro ⟨g, reference, hg, haddress⟩
  exact ⟨g, reference, h.globals g reference hg, haddress⟩

theorem trans (h : Preserves s t) (h' : Preserves t u) : Preserves s u := by
  refine ⟨fun id v hv => h'.constants id v (h.constants id v hv),
    fun g reference hg => h'.globals g reference (h.globals g reference hg), fun a ha huse => ?_⟩
  obtain ⟨hmem, hread⟩ := h.contents a ha huse
  obtain ⟨hmem', hread'⟩ := h'.contents a hmem (h.inUse huse)
  exact ⟨hmem', hread'.trans hread⟩

theorem of_makes (h : Makes p s t) (hs : s.memory.Housed) : Preserves s t := by
  have hkeeps := h.keeps hs
  refine ⟨fun id v hv => h.constants_get? hv, fun g reference hg => ?_, fun a ha _ => ?_⟩
  · rw [h.globals_eq]
    exact hg
  · exact ⟨hkeeps.statics a ha, hkeeps.read_eq ⟨a, .inr ha, Nat.le_refl _, Nat.le_refl _⟩⟩

/-- Nothing that is looked at changes when memory, cache and table stay the same. -/
theorem of_eq (hconstants : t.constants = s.constants) (hglobals : t.globals = s.globals)
    (hmemory : t.memory = s.memory) : Preserves s t := by
  refine ⟨fun id v hv => ?_, fun g reference hg => ?_, fun a ha _ => ?_⟩
  · rw [hconstants]
    exact hv
  · rw [hglobals]
    exact hg
  · rw [hmemory]
    exact ⟨ha, rfl⟩

/-- A constant is cached that was not. -/
theorem cache (h : Preserves s t) (hmissing : t.constants.get? id = none) (v : Value) :
    Preserves s { t with constants := t.constants.insert id v } := by
  refine ⟨fun q w hw => ?_, h.globals, h.contents⟩
  have hkept := h.constants q w hw
  have hne : q ≠ id := by
    rintro rfl
    rw [hmissing] at hkept
    cases hkept
  change (t.constants.insert id v).get? q = some w
  rw [Table.get?_insert, if_neg hne]
  exact hkept

end Preserves

namespace Exec

/-- The contents of a registered global are read from its storage. -/
theorem globalValue_eq {g : GlobalId} {d : Global} {reference : Value} {address : Nat}
    (hg : s.globals.get? g = some reference) (haddress : reference.asAddress = .ok address)
    (hd : p.module.global g = .ok d) (hbacked : s.memory.Backs address d.ty)
    (htidy : s.memory.Tidy) :
    globalValue p g s = .ok
      { ty := d.ty, origin := .global g, bytes := s.memory.arena.read address d.ty.size } s := by
  have haccess := hbacked.accessible htidy.housed htidy.stack p.config.sanitizeMemory
  unfold globalValue
  rw [bind_of_ok (globalAddress_eq hg haddress), hd, bind_of_ok (liftFault_ok _ _),
    bind_of_ok (load_eq_of_accessible haccess)]
  rfl

end Exec

/-- The first part of what is read. -/
theorem Arena.take_read {a : Arena} {address count size : Nat} (h : size ≤ count) :
    (a.read address count).take size = a.read address size := by
  have hpart : ((a.read address count).drop 0).take size = a.read (address + 0) size :=
    read_drop_take (by omega)
  rwa [List.drop_zero, Nat.add_zero] at hpart

/-- The global is registered, and its storage is where the reference says. -/
structure Stored (p : Program) (s : State) (g : GlobalId) (d : Global) (address : Nat) : Prop where
  declared : p.module.global g = .ok d
  reference : s.globals.get? g = some (d.reference g address)
  limit : address < addressLimit
  backed : s.memory.Backs address d.ty

namespace Stored

variable {g : GlobalId} {d : Global} {address : Nat}

theorem asAddress (h : Stored p s g d address) : (d.reference g address).asAddress = .ok address :=
  d.asAddress_reference g h.limit

theorem globalAddress (h : Stored p s g d address) : globalAddress p g s = .ok address s :=
  globalAddress_eq h.reference h.asAddress

theorem globalValue (h : Stored p s g d address) (htidy : s.memory.Tidy) :
    globalValue p g s = .ok
      { ty := d.ty, origin := .global g, bytes := s.memory.arena.read address d.ty.size } s :=
  globalValue_eq h.reference h.asAddress h.declared h.backed htidy

/-- A part of the contents can be read. -/
theorem load {ty : Ty} (h : Stored p s g d address) (htidy : s.memory.Tidy)
    (hle : ty.size ≤ d.ty.size) :
    load p address ty s = .ok
      { ty := ty, bytes := s.memory.arena.read address ty.size } s := by
  refine load_eq_of_accessible ?_
  rcases h.backed with hempty | hrecorded
  · rw [show ty.size = 0 by omega]
    rfl
  · have hlive : s.memory.Live address ty.size :=
      ⟨_, .inr hrecorded, Nat.le_refl _, by dsimp only; omega⟩
    exact hlive.accessible htidy.housed htidy.stack p.config.sanitizeMemory

/-- A registered global stays where it is, with its contents. -/
theorem preserved (h : Stored p s g d address) (hst : Preserves s t) :
    Stored p t g d address ∧
      t.memory.arena.read address d.ty.size = s.memory.arena.read address d.ty.size := by
  have hreference := hst.globals _ _ h.reference
  rcases h.backed with hempty | hrecorded
  · refine ⟨⟨h.declared, hreference, h.limit, .inl hempty⟩, ?_⟩
    rw [hempty]
    rfl
  · obtain ⟨hmem, hread⟩ := hst.contents _ hrecorded (.inr ⟨g, _, h.reference, h.asAddress⟩)
    exact ⟨⟨h.declared, hreference, h.limit, .inr hmem⟩, hread⟩

end Stored

theorem Registered.stored {g : GlobalId} {reference : Value} (h : Registered p s)
    (hg : s.globals.get? g = some reference) : ∃ d address, Stored p s g d address := by
  obtain ⟨d, address, hd, rfl, hlimit, hbacked⟩ := h.placed g reference (Table.mem_of_get? hg)
  exact ⟨d, address, hd, hg, hlimit, hbacked⟩

/-! ## What constants denote -/

/-- The bytes are in a buffer that starts at the address, unless there are none. -/
def Memory.Buffers (m : Memory) (address : Nat) (bytes : Bytes) : Prop :=
  bytes = [] ∨ ⟨address, bytes.length, .constant⟩ ∈ m.statics.entries ∧
    m.arena.read address bytes.length = bytes

/-- What a constant has to be, given what the globals contain. A reference to a global stands for
the contents of the global, as far as the declared type goes. A composite has its members in a row,
and an array that owns its elements has them in a buffer. The buffer is vouched for if something in
it comes from a global; a buffer without globals may have been made, and written to, at any time
before. -/
inductive Denotes (p : Program) (s : State) : ConstId → Bytes → Prop where
  | written {id : ConstId} {c : Constant} {v : Value} (found : p.module.constant id = .ok c)
      (kind : ∀ g, c.kind ≠ .globalVar g) (simple : c.kind.members? = none)
      (alone : c.kind.references = []) (cached : s.constants.get? id = some v) :
      Denotes p s id v.bytes
  | variable {id : ConstId} {ty : Ty} {g : GlobalId} {w : Value}
      (found : p.module.constant id = .ok ⟨ty, .globalVar g⟩)
      (contents : globalValue p g s = .ok w s) (inside : ty.size ≤ w.size) :
      Denotes p s id (w.bytes.take ty.size)
  | bitcast {id inner : ConstId} {ty : Ty} {bytes : Bytes}
      (found : p.module.constant id = .ok ⟨ty, .bitcast inner⟩) (same : Denotes p s inner bytes) :
      Denotes p s id bytes
  | composite {id : ConstId} {c : Constant} {members : List ConstId} {parts : List Bytes}
      (found : p.module.constant id = .ok c) (kind : c.kind.members? = some members)
      (count : members.length = parts.length)
      (each : ∀ part ∈ members.zip parts, Denotes p s part.1 part.2) :
      Denotes p s id (parts.flatten ++ c.kind.trailer.flatMap Value.bytes)
  | owned {id inner : ConstId} {ty : Ty} {elements : Bytes} {address len : Nat} {v : Value}
      (found : p.module.constant id = .ok ⟨ty, .owned inner⟩)
      (contents : Denotes p s inner elements) (whole : ownedArray ty address len = .ok v)
      (buffer : (∃ q, p.Within id q ∧ p.IsVariable q) → s.memory.Buffers address elements) :
      Denotes p s id v.bytes

/-- What a constant denotes does not change while its globals are left alone. -/
theorem Denotes.preserved {bytes : Bytes} (h : Denotes p s id bytes) (hst : Preserves s t)
    (hs : Registered p s) (htidy : s.memory.Tidy) (htidy' : t.memory.Tidy) :
    Denotes p t id bytes := by
  induction h with
  | written found kind simple alone cached =>
    exact .written found kind simple alone (hst.constants _ _ cached)
  | @«variable» id ty g w found contents inside =>
    refine .variable found ?_ inside
    -- A global that has contents is registered.
    obtain ⟨address, _, haddress, _⟩ := bind_eq_ok_iff.mp contents
    cases hg : s.globals.get? g with
    | none =>
      unfold globalAddress at haddress
      rw [bind_of_ok (get_apply s)] at haddress
      simp only [hg, bind_eq_ok_iff, lift_eq_ok_iff] at haddress
      obtain ⟨_, _, _, hraise, _⟩ := haddress
      cases hraise
    | some reference =>
      obtain ⟨d, address, hstored⟩ := hs.stored hg
      obtain ⟨hstored', hread⟩ := hstored.preserved hst
      rw [hstored.globalValue htidy] at contents
      cases contents
      rw [hstored'.globalValue htidy', hread]
  | bitcast found _ ih => exact .bitcast found ih
  | composite found kind count _ ih => exact .composite found kind count ih
  | owned found _ whole buffer ih =>
    refine .owned found ih whole fun hvariable => ?_
    rcases buffer hvariable with hempty | ⟨hmem, hread⟩
    · exact .inl hempty
    · obtain ⟨hmem', hread'⟩ := hst.contents _ hmem (.inl rfl)
      exact .inr ⟨hmem', hread'.trans hread⟩

/-- New static storage holds what was placed. -/
theorem Exec.buffers_of_allocStatic {bytes : Bytes} {address : Nat}
    (h : allocStatic p .constant bytes s = .ok address t) : t.memory.Buffers address bytes := by
  by_cases hempty : bytes = []
  · exact .inl hempty
  · exact .inr ⟨recorded_of_allocStatic hempty h, read_of_allocStatic h⟩

/-- A constant that is put together from what its references denote is what it has to be. -/
theorem Denotes.of_assemble {vs : List Value} {made : Value} {s₁ t₁ : State}
    (hc : p.module.constant id = .ok c) (hkind : ∀ g, c.kind ≠ .globalVar g)
    (hmembers : List.Forall₂ (fun m w => Denotes p s m w.bytes) c.kind.references vs)
    (hput : assemble p c vs s₁ = .ok made t₁) (hv : s.constants.get? id = some v)
    (hbytes : v.bytes = made.bytes)
    (hsame : (∃ q, p.Within id q ∧ p.IsVariable q) → s.memory = t₁.memory) :
    Denotes p s id v.bytes := by
  obtain ⟨ty, kind⟩ := c
  -- The members of a composite stand in a row.
  have row {members : List ConstId} {others : List Value}
      (hkind : kind.members? = some members) (htrailer : kind.trailer = others)
      (hmembers : List.Forall₂ (fun m w => Denotes p s m w.bytes) members vs)
      (hconcat : concat ty (vs ++ others) = .ok made) : Denotes p s id v.bytes := by
    obtain ⟨_, rfl⟩ := Value.ofBytes_eq_ok_iff.mp hconcat
    have hcount : members.length = (vs.map Value.bytes).length := by
      rw [List.length_map]
      exact hmembers.length_eq
    have heach : ∀ part ∈ members.zip (vs.map Value.bytes), Denotes p s part.1 part.2 := by
      intro part hpart
      rw [List.zip_map_right] at hpart
      obtain ⟨⟨m, w⟩, hmem, rfl⟩ := List.mem_map.mp hpart
      exact (List.forall₂_iff_zip.mp hmembers).2 hmem
    have hwhole := Denotes.composite hc hkind hcount heach
    rw [htrailer, ← List.flatMap_def, ← List.flatMap_append] at hwhole
    rw [hbytes]
    exact hwhole
  cases kind with
  | int | float | bool | zero | text | globalString | function =>
    exact .written hc (by simp) rfl rfl hv
  | globalVar g => exact absurd rfl (hkind g)
  | bitcast inner =>
    obtain ⟨w, _, hinner, hnil, rfl⟩ := List.forall₂_cons_left_iff.mp hmembers
    cases hnil
    obtain ⟨_, rfl⟩ := Value.retype_eq_ok_iff.mp (lift_eq_ok_iff.mp hput).1
    rw [hbytes]
    exact .bitcast hc hinner
  | array | tuple | enumCase | slice | parts =>
    exact row rfl rfl hmembers (lift_eq_ok_iff.mp hput).1
  | owned inner =>
    obtain ⟨w, _, hinner, hnil, rfl⟩ := List.forall₂_cons_left_iff.mp hmembers
    cases hnil
    obtain ⟨address, t', hplaced, hrest⟩ := bind_eq_ok_iff.mp hput
    obtain ⟨hwhole, rfl⟩ := lift_eq_ok_iff.mp hrest
    rw [hbytes]
    refine .owned hc hinner hwhole fun hvariable => ?_
    rw [hsame hvariable]
    exact buffers_of_allocStatic hplaced

/-! ## Evaluating initial values -/

/-- A reference to a global reads no further than the global goes. With sanitizing on it cannot. -/
def Program.ReadsInside (p : Program) (id : ConstId) : Prop :=
  p.config.sanitizeMemory = true ∨ ∀ ty g d, p.module.constant id = .ok ⟨ty, .globalVar g⟩ →
    p.module.global g = .ok d → ty.size ≤ d.ty.size

/-- Neither does any reference on the way to the constant. -/
def Program.AllInside (p : Program) (id : ConstId) : Prop := ∀ q, p.Within id q → p.ReadsInside q

theorem Program.AllInside.of_mem (h : p.AllInside id) (hm : m ∈ p.references id) : p.AllInside m :=
  fun q hq => h q (.head hm hq)

/-- The state while globals are registered: every global in the table has storage of its own, and
what is cached is what it has to be. -/
structure Settled (p : Program) (s : State) : Prop where
  wired : Wired p s
  tidy : s.memory.Tidy
  once : s.RegisteredOnce
  vacant : ∀ g d address, Stored p s g d address → d.ty.size = 0 → address = Memory.emptyAddress
  faithful : ∀ id v, s.constants.get? id = some v → p.IsValue id → p.AllInside id →
    Denotes p s id v.bytes

theorem Denotes.settled {bytes : Bytes} (h : Denotes p s id bytes) (hs : Settled p s)
    (hst : Preserves s t) (htidy : t.memory.Tidy) : Denotes p t id bytes :=
  h.preserved hst hs.wired.registered hs.tidy htidy

namespace Settled

/-- What is checked stays inside the global that it starts in. -/
theorem size_le {g : GlobalId} {d : Global} {address : Nat} {ty : Ty} (h : Settled p s)
    (hstored : Stored p s g d address) (hload : load p address ty s = .ok v t)
    (hinside : p.config.sanitizeMemory = true ∨ ty.size ≤ d.ty.size) : ty.size ≤ d.ty.size := by
  rcases hinside with hsanitize | hle
  · have hlift := (lift_eq_ok_iff.mp hload).1
    rw [hsanitize] at hlift
    obtain ⟨_, hcheck, _⟩ := except_bind_eq_ok_iff.mp hlift
    have hallowed : s.memory.accessible true address ty.size = true := by
      unfold Memory.checkAccess at hcheck
      split at hcheck
      · assumption
      · exact absurd hcheck (by simp)
    rcases h.tidy.accessible_iff.mp hallowed with hzero | hlive
    · omega
    · rcases hstored.backed with hempty | hrecorded
      · -- An empty global has an address that nothing lies at.
        have hbase := (hlive.inside h.tidy.housed).1
        rw [h.vacant g d address hstored hempty] at hbase
        exact absurd hbase (by decide)
      · by_cases hzero : d.ty.size = 0
        · have hpos := h.tidy.housed.statics.positive _ hrecorded
          dsimp only at hpos
          omega
        · by_cases hnone : ty.size = 0
          · omega
          · obtain ⟨a, ha, hstart, hend⟩ := hlive
            have hsame := h.tidy.eq_of_meets ha (.inr hrecorded) (k := address)
              ⟨hstart, by omega⟩ ⟨Nat.le_refl _, by dsimp only; omega⟩
            rw [hsame] at hend
            dsimp only at hend
            omega
  · exact hle

/-- A reference to a global is read from the storage of the global. -/
theorem stored_of_constOperand {ty : Ty} {g : GlobalId} (ht : Settled p t)
    (hc : p.module.constant id = .ok ⟨ty, .globalVar g⟩) (h : constOperand p id s = .ok v t) :
    ∃ d address w, Stored p t g d address ∧ load p address ty t = .ok w t ∧
      v = w.withOrigin (.const id) := by
  unfold constOperand decayConst at h
  rw [hc, bind_of_ok (liftFault_ok _ _)] at h
  obtain ⟨x, u, hx, hdecay⟩ := bind_eq_ok_iff.mp h
  obtain ⟨address, _, hlift, hrest⟩ := bind_eq_ok_iff.mp hdecay
  obtain ⟨haddress, rfl⟩ := lift_eq_ok_iff.mp hlift
  obtain ⟨w, _, hload, hpure⟩ := bind_eq_ok_iff.mp hrest
  cases (reads_load p address ty).state_eq hload
  cases hpure
  obtain ⟨reference, hmem, rfl⟩ :=
    ht.wired.registered.cached id ty g x hc (constants_get?_of_constValueWith hx)
  have hg := Table.get?_of_mem ht.once hmem
  obtain ⟨d, address', hstored⟩ := ht.wired.registered.stored hg
  have hreference := hstored.reference.symm.trans hg
  cases hreference
  have hsame := hstored.asAddress.symm.trans haddress
  cases hsame
  exact ⟨d, address, w, hstored, hload, rfl⟩

theorem denotes_variable {ty : Ty} {g : GlobalId} (ht : Settled p t)
    (hc : p.module.constant id = .ok ⟨ty, .globalVar g⟩) (hinside : p.ReadsInside id)
    (h : constOperand p id s = .ok v t) : Denotes p t id v.bytes := by
  obtain ⟨d, address, w, hstored, hload, rfl⟩ := ht.stored_of_constOperand hc h
  have hle := ht.size_le hstored hload (hinside.imp_right fun h => h ty g d hc hstored.declared)
  have hw := (hstored.load ht.tidy hle).symm.trans hload
  cases hw
  change Denotes p t id (t.memory.arena.read address ty.size)
  rw [← Arena.take_read hle]
  refine .variable hc (hstored.globalValue ht.tidy) ?_
  change ty.size ≤ (t.memory.arena.read address d.ty.size).length
  rw [Arena.length_read]
  exact hle

/-- Evaluation keeps all but what is said of the cache. -/
theorem of_makes (hhost : p.host.KeepsExtent) (hs : Settled p s) (h : Makes p s t)
    (hwired : Wired p t)
    (hfaithful : ∀ id v, t.constants.get? id = some v → p.IsValue id → p.AllInside id →
      Denotes p t id v.bytes) : Settled p t := by
  refine ⟨hwired, h.evolves.tidy hhost hs.tidy, hs.once.of_eq h.globals_eq, ?_, hfaithful⟩
  intro g d address hstored hempty
  refine hs.vacant g d address ⟨hstored.declared, ?_, hstored.limit, .inl hempty⟩ hempty
  rw [← h.globals_eq]
  exact hstored.reference

/-- Nothing else is looked at. -/
theorem of_same (hs : Settled p s) (hwired : Wired p t) (hmemory : t.memory = s.memory)
    (hglobals : t.globals = s.globals) (hconstants : t.constants = s.constants) : Settled p t := by
  refine ⟨hwired, ?_, hs.once.of_eq hglobals, fun g d address hstored hempty => ?_,
    fun q x hx hq hinside => ?_⟩
  · rw [hmemory]
    exact hs.tidy
  · refine hs.vacant g d address ⟨hstored.declared, ?_, hstored.limit, .inl hempty⟩ hempty
    rw [← hglobals]
    exact hstored.reference
  · rw [hconstants] at hx
    refine (hs.faithful q x hx hq hinside).settled hs (.of_eq hconstants hglobals hmemory) ?_
    rw [hmemory]
    exact hs.tidy

end Settled

/-- Evaluating the constant leads from a settled state to another, and gives what the constant has
to be. -/
def SettledOperand (p : Program) (id : ConstId) : Prop :=
  ∀ s v t, Settled p s → constOperand p id s = .ok v t →
    Settled p t ∧ Preserves s t ∧ (p.AllInside id → Denotes p t id v.bytes)

theorem Exec.settled_of_constants {ids : List ConstId} {vs : List Value}
    (hmembers : ∀ m ∈ ids, SettledOperand p m) (hs : Settled p s)
    (h : constants (constOperand p) ids s = .ok vs t) :
    Settled p t ∧ Preserves s t ∧
      List.Forall₂ (fun m w => p.AllInside m → Denotes p t m w.bytes) ids vs := by
  induction ids generalizing s vs with
  | nil =>
    cases h
    exact ⟨hs, .of_eq rfl rfl rfl, .nil⟩
  | cons m ids ih =>
    obtain ⟨w, u, hw, hrest⟩ := bind_eq_ok_iff.mp h
    obtain ⟨ws, t', hws, hpure⟩ := bind_eq_ok_iff.mp hrest
    cases hpure
    obtain ⟨hu, hsu, hdenotes⟩ := hmembers m List.mem_cons_self s w u hs hw
    obtain ⟨ht, hut, hothers⟩ := ih (fun m' hm' => hmembers m' (List.mem_cons_of_mem _ hm')) hu hws
    refine ⟨ht, hsu.trans hut, .cons (fun hinside => ?_) hothers⟩
    exact (hdenotes hinside).settled hu hut ht.tidy

namespace Settled

/-- A variable is cached as its address, which is no value of it. -/
theorem operand_variable (hhost : p.host.KeepsExtent) {ty : Ty} {g : GlobalId}
    (hc : p.module.constant id = .ok ⟨ty, .globalVar g⟩) (hs : Settled p s)
    (h : constOperand p id s = .ok v t) (hwired : Wired p t) :
    Settled p t ∧ Preserves s t ∧ (p.AllInside id → Denotes p t id v.bytes) := by
  have hmakes : Makes p s t := (constOperand_makes id).of_ok h
  have hst : Preserves s t := .of_makes hmakes hs.tidy.housed
  have hvariable : p.IsVariable id := ⟨_, g, hc, rfl⟩
  have ht : Settled p t := by
    refine hs.of_makes hhost hmakes hwired fun q x hx hq hinside => ?_
    -- Nothing else is cached on the way.
    have hcached : s.constants.get? q = some x := by
      cases hbefore : s.constants.get? q with
      | some y =>
        have hkept := hmakes.constants_get? hbefore
        rw [hx] at hkept
        cases hkept
        rfl
      | none =>
        have hwithin := (constOperandWith_fills _ id).of_ok h q hbefore (by rw [hx]; simp)
        rcases hwithin.cases_head with rfl | ⟨m, hm, _⟩
        · exact absurd hq hvariable.not_isValue
        · rw [hvariable.references_eq] at hm
          cases hm
    exact (hs.faithful q x hcached hq hinside).settled hs hst (hmakes.evolves.tidy hhost hs.tidy)
  exact ⟨ht, hst, fun hinside => ht.denotes_variable hc (hinside id .refl) h⟩

/-- A constant that is missing is put together from its references. -/
theorem operand_missing (hhost : p.host.KeepsExtent) (hgrounded : p.Grounded id)
    (hmembers : ∀ m ∈ p.references id, SettledOperand p m)
    (hc : p.module.constant id = .ok c) (hkind : ∀ g, c.kind ≠ .globalVar g)
    (hmissing : s.constants.get? id = none) (hs : Settled p s)
    (h : constOperand p id s = .ok v t) (hwired : Wired p t) :
    Settled p t ∧ Preserves s t ∧ (p.AllInside id → Denotes p t id v.bytes) := by
  have hmakes : Makes p s t := (constOperand_makes id).of_ok h
  have htidy : t.memory.Tidy := hmakes.evolves.tidy hhost hs.tidy
  obtain ⟨made, u, hmade, hv, rfl⟩ := materialize_of_constOperand hc hkind hmissing h
  have hnone : u.constants.get? id = none := hgrounded.get?_of_materialize hc hmissing hmade
  rw [materialize_eq_assemble] at hmade
  obtain ⟨vs, s₁, hvs, hput⟩ := bind_eq_ok_iff.mp hmade
  rw [Program.references_eq hc] at hmembers
  obtain ⟨hs₁, hss₁, hdenotes⟩ := settled_of_constants hmembers hs hvs
  have hsame : u.constants = s₁.constants := ((assemble_retains c vs).of_ok hput).constants
  have hpreserves : Preserves s₁ { u with constants := u.constants.insert id v } :=
    (Preserves.of_makes ((assemble_makes c vs).of_ok hput) hs₁.tidy.housed).cache hnone v
  have hwhole (hinside : p.AllInside id) :
      Denotes p { u with constants := u.constants.insert id v } id v.bytes := by
    refine Denotes.of_assemble hc hkind ?_ hput (Table.get?_insert_self _ _ _) (by rw [hv]; rfl)
      fun _ => rfl
    refine List.forall₂_iff_get.mpr ⟨hdenotes.length_eq, fun i hi hi' => ?_⟩
    have hm : c.kind.references.get ⟨i, hi⟩ ∈ p.references id := by
      rw [Program.references_eq hc]
      exact List.get_mem _ _
    exact (hdenotes.get hi hi' (hinside.of_mem hm)).settled hs₁ hpreserves htidy
  refine ⟨hs.of_makes hhost hmakes hwired fun q x hx hq hinside => ?_, hss₁.trans hpreserves, hwhole⟩
  change (u.constants.insert id v).get? q = some x at hx
  rw [Table.get?_insert] at hx
  split at hx
  · rename_i hqid
    cases hx
    subst hqid
    exact hwhole hinside
  · rw [hsame] at hx
    exact (hs₁.faithful q x hx hq hinside).settled hs₁ hpreserves htidy

theorem wired_of_constOperand (hs : Settled p s) (h : constOperand p id s = .ok v t) :
    Wired p t := by
  have hrel := Coupling.rel_of_keeping_matches
    (invariant_wired.sound.constOperand id s s ⟨rfl, hs.tidy.housed.statics, hs.wired⟩)
  rw [after_of_ok h] at hrel
  exact hrel.2.2

end Settled

/-- By induction on the references: whatever has been cached so far, a constant evaluates to what it
has to be. -/
theorem Program.Grounded.settledOperand (hhost : p.host.KeepsExtent) (h : p.Grounded id) :
    SettledOperand p id := by
  induction h with
  | intro id hbelow ih =>
    intro s v t hs hoperand
    have hwired := hs.wired_of_constOperand hoperand
    obtain ⟨c, _, hlift, _⟩ := bind_eq_ok_iff.mp hoperand
    have hc := (liftFault_eq_ok_iff.mp hlift).1
    by_cases hkind : ∀ g, c.kind ≠ .globalVar g
    · cases hcached : s.constants.get? id with
      | some x =>
        rw [constOperand_of_cached hc hkind hcached] at hoperand
        cases hoperand
        exact ⟨hs, .of_eq rfl rfl rfl, hs.faithful id _ hcached ⟨c, hc, hkind⟩⟩
      | none => exact hs.operand_missing hhost (.intro id hbelow) ih hc hkind hcached hoperand hwired
    · obtain ⟨g, hg⟩ := Classical.not_forall.mp hkind
      obtain ⟨ty, kind⟩ := c
      cases Classical.not_not.mp hg
      exact hs.operand_variable hhost hc hoperand hwired

/-- A constant that can be evaluated is grounded. -/
theorem Wired.grounded (ht : Wired p t) (h : constOperand p id s = .ok v t) : p.Grounded id := by
  by_cases hvariable : p.IsVariable id
  · exact hvariable.grounded
  · have hvalue := Program.isValue_of_constOperandWith h hvariable
    obtain ⟨c, hc, hkind⟩ := hvalue
    obtain ⟨_, _, hgrounded, _⟩ :=
      ht.coherent id v (cached_of_constOperand hc hkind h) ⟨c, hc, hkind⟩
    exact hgrounded

/-- Evaluating a constant in a settled state leads to another one. -/
theorem Settled.of_constOperand (hhost : p.host.KeepsExtent) (hs : Settled p s)
    (h : constOperand p id s = .ok v t) :
    Settled p t ∧ Preserves s t ∧ (p.AllInside id → Denotes p t id v.bytes) :=
  ((hs.wired_of_constOperand h).grounded h).settledOperand hhost s v t hs h

/-- What neither caches nor registers anything keeps the state settled. -/
theorem Settled.of_retains (hhost : p.host.KeepsExtent) (hs : Settled p s) (h : Makes p s t)
    (hretains : Retains s t) : Settled p t ∧ Preserves s t := by
  have hst : Preserves s t := .of_makes h hs.tidy.housed
  have hwired : Wired p t := invariant_wired.retain hs.wired hretains.constants hretains.globals
    hretains.initialized (hretains.statics hs.tidy.housed.statics).2
  refine ⟨hs.of_makes hhost h hwired fun q x hx hq hinside => ?_, hst⟩
  rw [hretains.constants] at hx
  exact (hs.faithful q x hx hq hinside).settled hs hst (h.evolves.tidy hhost hs.tidy)

/-! ## Before anything is registered -/

namespace Wired

/-- Without registered globals nothing cached can refer to one. -/
theorem not_isVariable (h : Wired p s) (hempty : s.globals.entries = [])
    (hid : s.constants.get? id ≠ none) (hq : p.Within id q) : ¬p.IsVariable q := by
  rintro ⟨⟨ty, kind⟩, g, hc, rfl⟩
  have hmem := h.registered_of_within hid hq hc
  rw [hempty] at hmem
  cases hmem

theorem denotes_of_empty (h : Wired p s) (hempty : s.globals.entries = [])
    (hgrounded : p.Grounded id) (hv : s.constants.get? id = some v) (hid : p.IsValue id) :
    Denotes p s id v.bytes := by
  induction hgrounded generalizing v with
  | intro id _ ih =>
    have hcached : s.constants.get? id ≠ none := by
      rw [hv]
      exact Option.some_ne_none v
    obtain ⟨hc, _, _, hmembers, hput, hmade⟩ := h.coherent id v hv hid
    have hkind : ∀ g, _ := fun g hg => Program.IsVariable.not_isValue ⟨_, g, hc, hg⟩ hid
    refine Denotes.of_assemble hc hkind ?_ hput hv (by rw [hmade]; rfl) fun hvariable => ?_
    · rw [← Program.references_eq hc] at hmembers ⊢
      refine List.forall₂_iff_get.mpr ⟨hmembers.length_eq, fun i hi hi' => ?_⟩
      have hm := List.get_mem (p.references id) ⟨i, hi⟩
      have hmember := hmembers.get hi hi'
      rcases hmember.found with hvalue | hvariable
      · exact ih _ hm (hmember.cached hvalue) hvalue
      · exact absurd hvariable (h.not_isVariable hempty hcached (.single hm))
    · obtain ⟨q, hq, hvariable⟩ := hvariable
      exact absurd hvariable (h.not_isVariable hempty hcached hq)

theorem settled (h : Wired p s) (htidy : s.memory.Tidy) (hempty : s.globals.entries = []) :
    Settled p s := by
  refine ⟨h, htidy, ?_, fun g d address hstored => ?_, fun id v hv hid _ => ?_⟩
  · unfold State.RegisteredOnce
    rw [hempty]
    exact .nil
  · have hmem := Table.mem_of_get? hstored.reference
    rw [hempty] at hmem
    cases hmem
  · obtain ⟨_, _, hgrounded, _⟩ := h.coherent id v hv hid
    exact h.denotes_of_empty hempty hgrounded hv hid

end Wired

/-! ## Registering a global -/

/-- The memories differ at most in the bytes of a range. -/
structure Memory.AlikeOutside (m m' : Memory) (address size : Nat) : Prop where
  stack : m'.stack = m.stack
  statics : m'.statics = m.statics
  extent : m'.arena.bytes.size = m.arena.bytes.size
  taken : m'.taken = m.taken
  bytes : ∀ k, k < address ∨ address + size ≤ k → m'.arena.byteAt k = m.arena.byteAt k

namespace Memory.AlikeOutside

variable {m m' : Memory} {address size : Nat}

theorem refl (m : Memory) (address size : Nat) : AlikeOutside m m address size :=
  ⟨rfl, rfl, rfl, rfl, fun _ _ => rfl⟩

theorem put (m : Memory) (address : Nat) (bytes : Bytes) :
    AlikeOutside m (m.put address bytes) address bytes.length :=
  ⟨rfl, rfl, Arena.size_write _ _ _, rfl, fun _ hk => Arena.byteAt_write_of_outside hk⟩

theorem tidy (h : AlikeOutside m m' address size) (hm : m.Tidy) : m'.Tidy := by
  have heq : m' = { m with arena := m'.arena } := by
    rw [← h.stack, ← h.statics, ← h.taken]
  rw [heq]
  exact hm.of_size h.extent

/-- Other ranges contain what they did. -/
theorem read_eq (h : AlikeOutside m m' address size) (hm : m.Tidy) {a b : Allocation}
    (ha : m.Records a) (hb : m.Records b) (hstart : a.start = address) (hsize : a.size = size)
    (hne : b ≠ a) : m'.arena.read b.start b.size = m.arena.read b.start b.size := by
  refine Arena.read_congr fun k hle hlt => h.bytes k ?_
  by_cases hk : address ≤ k ∧ k < address + size
  · exact absurd (hm.eq_of_meets hb ha ⟨hle, hlt⟩ (by omega)) hne
  · omega

end Memory.AlikeOutside

namespace Settled

/-- New storage is not where a registered global is. -/
theorem address_ne {g : GlobalId} {d : Global} {address address' size : Nat} (hs : Settled p s)
    (h : Stored p s g d address) (hpos : 0 < size)
    (hroom : p.allocator.place s.memory.ledger size = some address') : address ≠ address' := by
  rcases h.backed with hempty | hrecorded
  · have hbase := p.allocator.base_le hroom
    have hvacant : Memory.emptyAddress < Arena.base := by decide
    rw [hs.vacant g d address h hempty]
    omega
  · have hapart := p.allocator.apart hroom _ (Memory.Records.inUse (.inr hrecorded))
    have hpos' := hs.tidy.housed.statics.positive _ hrecorded
    dsimp only at hapart hpos'
    omega

/-- A global is registered whose storage no other one has, after that storage has been filled. -/
theorem register {index : Nat} {d : Global} {address : Nat} {memory : Memory} (hs : Settled p s)
    (hnumbered : Numbered index s.globals) (hd : p.module.global ⟨index⟩ = .ok d)
    (hlimit : address < addressLimit) (hbacked : s.memory.Backs address d.ty)
    (hempty : d.ty.size = 0 → address = Memory.emptyAddress)
    (hfresh : ∀ g' d' address', Stored p s g' d' address' → d.ty.size ≠ 0 → address' ≠ address)
    (halike : s.memory.AlikeOutside memory address d.ty.size) :
    let t := { s with
      memory, globals := s.globals.insert ⟨index⟩ (d.reference ⟨index⟩ address) }
    Settled p t ∧ Preserves s t ∧ Stored p t ⟨index⟩ d address := by
  intro t
  have hlookup (g : GlobalId) (hg : g ≠ ⟨index⟩) : t.globals.get? g = s.globals.get? g := by
    change (s.globals.insert _ _).get? g = _
    rw [Table.get?_insert, if_neg hg]
  have hnew (g : GlobalId) (reference : Value) (hg : s.globals.get? g = some reference) :
      g ≠ ⟨index⟩ := by
    rintro rfl
    have hlt := hnumbered.before _ (List.mem_map_of_mem (Table.mem_of_get? hg))
    exact Nat.lt_irrefl _ hlt
  have hstored : Stored p t ⟨index⟩ d address := by
    refine ⟨hd, Table.get?_insert_self _ _ _, hlimit, hbacked.imp_right fun ha => ?_⟩
    change _ ∈ memory.statics.entries
    rw [halike.statics]
    exact ha
  have hst : Preserves s t := by
    refine ⟨fun _ _ hv => hv, fun g reference hg => ?_, fun a ha huse => ⟨?_, ?_⟩⟩
    · rw [hlookup g (hnew g reference hg)]
      exact hg
    · change a ∈ memory.statics.entries
      rw [halike.statics]
      exact ha
    · -- A range in use is another one than that of the new global.
      rcases hbacked with hzero | hrecorded
      · exact Arena.read_congr fun k _ _ => halike.bytes k (by omega)
      · refine halike.read_eq hs.tidy (.inr hrecorded) (.inr ha) rfl rfl ?_
        rintro rfl
        rcases huse with hkind | ⟨g', reference, hg', haddress⟩
        · cases hkind
        · obtain ⟨d', address', hstored'⟩ := hs.wired.registered.stored hg'
          have hreference := hstored'.reference.symm.trans hg'
          cases hreference
          have hsame := hstored'.asAddress.symm.trans haddress
          cases hsame
          have hpos := hs.tidy.housed.statics.positive _ hrecorded
          exact hfresh g' d' _ hstored' (Nat.ne_of_gt hpos) rfl
  have htidy : t.memory.Tidy := halike.tidy hs.tidy
  refine ⟨⟨?_, htidy, (hnumbered.insert _).once, fun g' d' address' hstored' hzero => ?_,
    fun q x hx hq hinside => ?_⟩, hst, hstored⟩
  · have hfilled : Wired p { s with memory } := by
      refine invariant_wired.retain hs.wired rfl rfl rfl fun a ha => ?_
      change a ∈ memory.statics.entries
      rw [halike.statics]
      exact ha
    refine invariant_wired.register hfilled hd hlimit (hbacked.imp_right fun ha => ?_)
    change _ ∈ memory.statics.entries
    rw [halike.statics]
    exact ha
  · by_cases hg : g' = ⟨index⟩
    · subst hg
      have hsame := hstored'.globalAddress.symm.trans hstored.globalAddress
      cases hsame
      have hdeclared := hstored'.declared.symm.trans hd
      cases hdeclared
      exact hempty hzero
    · refine hs.vacant g' d' address' ⟨hstored'.declared, ?_, hstored'.limit, .inl hzero⟩ hzero
      rw [← hlookup g' hg]
      exact hstored'.reference
  · exact (hs.faithful q x hx hq hinside).settled hs hst htidy

end Settled

/-- How a global has come to its contents. Its storage was placed in `s`, which has led to `u`, and
its initial value was evaluated there. In `t` the global is registered, and contains that value. -/
structure Filled (p : Program) (g : GlobalId) (d : Global) (s u t : State) (address : Nat) :
    Prop where
  placed : allocStatic p .global (List.replicate d.ty.size 0) s = .ok address u
  stored : Stored p t g d address
  zeroed : d.init = none →
    t.memory.arena.read address d.ty.size = List.replicate d.ty.size 0
  evaluated : ∀ init, d.init = some init → ∃ v u', constOperand p init u = .ok v u' ∧
    t.memory.arena.read address d.ty.size = v.bytes ∧ Settled p u' ∧ Preserves u' t ∧
    Numbered g.index u'.globals ∧ (p.AllInside init → Denotes p u' init v.bytes)

theorem Filled.preserved {g : GlobalId} {d : Global} {address : Nat} {w : State}
    (h : Filled p g d s u t address) (htw : Preserves t w) : Filled p g d s u w address := by
  obtain ⟨hstored, hread⟩ := h.stored.preserved htw
  refine ⟨h.placed, hstored, fun hnone => hread.trans (h.zeroed hnone), fun init hinit => ?_⟩
  obtain ⟨v, u', hv, hbytes, hu', hpreserves, hrest⟩ := h.evaluated init hinit
  exact ⟨v, u', hv, hread.trans hbytes, hu', hpreserves.trans htw, hrest⟩

namespace Exec

/-- New storage is where the allocator has found room, unless it is empty. -/
theorem address_of_allocStatic {kind : AllocKind} {bytes : Bytes} {address : Nat}
    (h : allocStatic p kind bytes s = .ok address t) :
    (bytes.length = 0 → address = Memory.emptyAddress) ∧
      (bytes.length ≠ 0 → p.allocator.place s.memory.ledger bytes.length = some address) := by
  by_cases hempty : bytes = []
  · subst hempty
    cases h
    exact ⟨fun _ => rfl, fun hne => absurd rfl hne⟩
  · exact ⟨fun hzero => absurd (List.eq_nil_of_length_eq_zero hzero) hempty,
      fun _ => (allocStatic_eq_ok hempty h).1⟩

end Exec

/-- One round: a global gets its storage, its initial value and its place in the table. -/
theorem Settled.of_registerGlobal (hhost : p.host.KeepsExtent) {index : Nat} {d : Global}
    (hs : Settled p s) (hnumbered : Numbered index s.globals)
    (hd : p.module.global ⟨index⟩ = .ok d) (h : registerGlobal p ⟨index⟩ d s = .ok () t) :
    Settled p t ∧ Numbered (index + 1) t.globals ∧ Preserves s t ∧
      ∃ address u, Filled p ⟨index⟩ d s u t address := by
  obtain ⟨address, u, hplaced, hfill⟩ := bind_eq_ok_iff.mp h
  have hmakes : Makes p s u := (allocStatic_makes _ _).of_ok hplaced
  obtain ⟨hu, hsu⟩ := hs.of_retains hhost hmakes ((allocStatic_retains _ _).of_ok hplaced)
  obtain ⟨hlimit, hbacked⟩ := backs_of_allocStatic hplaced
  have hzeros := read_of_allocStatic hplaced
  obtain ⟨hempty, hroom⟩ := address_of_allocStatic hplaced
  rw [List.length_replicate] at hzeros hempty hroom
  -- The globals that are registered already lie elsewhere.
  have hfresh (x : State) (hx : x.globals = s.globals) (g' : GlobalId) (d' : Global)
      (address' : Nat) (hstored : Stored p x g' d' address') (hne : d.ty.size ≠ 0) :
      address' ≠ address := by
    have hg' := hstored.reference
    rw [hx] at hg'
    obtain ⟨d'', address'', hstored'⟩ := hs.wired.registered.stored hg'
    have hsame := (globalAddress_eq (p := p) hg' hstored.asAddress).symm.trans hstored'.globalAddress
    cases hsame
    exact hs.address_ne hstored' (Nat.pos_of_ne_zero hne) (hroom hne)
  have hglobals : u.globals = s.globals := hmakes.globals_eq
  cases hinit : d.init with
  | none =>
    rw [hinit] at hfill
    cases hfill
    obtain ⟨ht, hut, hstored⟩ := hu.register (by rw [hglobals]; exact hnumbered) hd hlimit hbacked
      hempty (hfresh u hglobals) (.refl _ _ _)
    refine ⟨ht, ?_, hsu.trans hut, address, u, hplaced, hstored, fun _ => hzeros, by simp [hinit]⟩
    change Numbered _ (u.globals.insert _ _)
    rw [hglobals]
    exact hnumbered.insert _
  | some init =>
    rw [hinit] at hfill
    obtain ⟨v, u', hwithin, hchecked⟩ := bind_eq_ok_iff.mp hfill
    have hv := within_eq_ok_iff.mp hwithin
    obtain ⟨_, y, hcheck, hstored⟩ := bind_eq_ok_iff.mp hchecked
    obtain ⟨hfits, hy⟩ := lift_eq_ok_iff.mp hcheck
    rw [hy] at hstored
    have hsize : v.bytes.length = d.ty.size := (checkSize_eq_ok_iff.mp hfits).symm
    obtain ⟨_, x, hstore, hregister⟩ := bind_eq_ok_iff.mp hstored
    cases hregister
    obtain ⟨hu', huu', hdenotes⟩ := hu.of_constOperand hhost hv
    have hmakes' : Makes p u u' := (constOperand_makes init).of_ok hv
    have hglobals' : u'.globals = s.globals := hmakes'.globals_eq.trans hglobals
    have hbacked' : u'.memory.Backs address d.ty :=
      hbacked.imp_right fun ha => (hmakes'.keeps hu.tidy.housed).statics _ ha
    rw [storeBytes_eq_ite] at hstore
    split at hstore
    · cases hstore
      have halike : u'.memory.AlikeOutside (u'.memory.put address v.bytes) address d.ty.size := by
        rw [← hsize]
        exact .put _ _ _
      obtain ⟨ht, hut, hstored⟩ := hu'.register (by rw [hglobals']; exact hnumbered) hd hlimit
        hbacked' hempty (hfresh u' hglobals') halike
      have hread : (u'.memory.put address v.bytes).arena.read address d.ty.size = v.bytes := by
        have htake := hbacked'.take_read_put hu'.tidy.housed v.bytes
        rw [hsize, ← hsize, List.take_length, List.take_of_length_le
          (Nat.le_of_eq (Arena.length_read _ _ _))] at htake
        rw [← hsize]
        exact htake
      refine ⟨ht, ?_, (hsu.trans huu').trans hut, address, u, hplaced, hstored, by simp [hinit],
        fun init' hinit' => ?_⟩
      · change Numbered _ (u'.globals.insert _ _)
        rw [hglobals']
        exact hnumbered.insert _
      · rw [hinit] at hinit'
        cases hinit'
        refine ⟨v, u', hv, hread, hu', hut, ?_, hdenotes⟩
        rw [hglobals']
        exact hnumbered
    · cases hstore

/-! ## Registering all globals -/

/-- All rounds, each from the state that the rounds before it have left. -/
theorem Settled.of_registerGlobals (hhost : p.host.KeepsExtent) {index : Nat} {ds : List Global}
    (hs : Settled p s) (hnumbered : Numbered index s.globals)
    (hds : ∀ j d, ds[j]? = some d → p.module.global ⟨index + j⟩ = .ok d)
    (h : registerGlobals p index ds s = .ok () t) :
    Settled p t ∧ Preserves s t ∧ ∀ j d, ds[j]? = some d → ∃ s₁ u address,
      registerGlobals p index (ds.take j) s = .ok () s₁ ∧ Settled p s₁ ∧ Preserves s₁ t ∧
        Filled p ⟨index + j⟩ d s₁ u t address := by
  induction ds generalizing index s with
  | nil =>
    cases h
    exact ⟨hs, .of_eq rfl rfl rfl, by simp⟩
  | cons d ds ih =>
    obtain ⟨_, s', hfirst, hrest⟩ := bind_eq_ok_iff.mp h
    obtain ⟨hs', hnumbered', hss', address, u, hfilled⟩ :=
      hs.of_registerGlobal hhost hnumbered (hds 0 d rfl) hfirst
    have hds' : ∀ j d', ds[j]? = some d' → p.module.global ⟨index + 1 + j⟩ = .ok d' := by
      intro j d' hd'
      rw [show index + 1 + j = index + (j + 1) by omega]
      exact hds (j + 1) d' hd'
    obtain ⟨ht, hs't, hall⟩ := ih hs' hnumbered' hds' hrest
    refine ⟨ht, hss'.trans hs't, fun j d' hd' => ?_⟩
    cases j with
    | zero =>
      cases hd'
      exact ⟨s, u, address, rfl, hs, hss'.trans hs't, hfilled.preserved hs't⟩
    | succ j =>
      obtain ⟨s₁, u', address', hbefore, hs₁, hs₁t, hfilled'⟩ := hall j d' hd'
      rw [show index + 1 + j = index + (j + 1) by omega] at hfilled'
      exact ⟨s₁, u', address', (bind_of_ok hfirst).trans hbefore, hs₁, hs₁t, hfilled'⟩

/-- What is read from a registered global is read again while the global is left alone. -/
theorem Settled.operand_again (hu : Settled p u) (ht : Settled p t) (hut : Preserves u t)
    (hinside : p.ReadsInside id) (h : constOperand p id s = .ok v u) :
    ∃ w, constOperand p id t = .ok w t ∧ v.bytes = w.bytes := by
  obtain ⟨c, _, hlift, _⟩ := bind_eq_ok_iff.mp h
  have hc := (liftFault_eq_ok_iff.mp hlift).1
  by_cases hkind : ∀ g, c.kind ≠ .globalVar g
  · exact ⟨v, constOperand_of_cached hc hkind
      (hut.constants id v (cached_of_constOperand hc hkind h)), rfl⟩
  · obtain ⟨g, hg⟩ := Classical.not_forall.mp hkind
    obtain ⟨ty, kind⟩ := c
    cases Classical.not_not.mp hg
    obtain ⟨d, address, w, hstored, hload, rfl⟩ := hu.stored_of_constOperand hc h
    have hle := hu.size_le hstored hload (hinside.imp_right fun h => h ty g d hc hstored.declared)
    obtain ⟨hstored', hread⟩ := hstored.preserved hut
    -- The reference is cached, and leads to the storage of the global.
    obtain ⟨x, hx⟩ := Option.ne_none_iff_exists'.mp (cached_of_constOperandWith h)
    obtain ⟨reference, hmem, rfl⟩ := ht.wired.registered.cached id ty g x hc (hut.constants id x hx)
    have hreference := (Table.get?_of_mem ht.once hmem).symm.trans hstored'.reference
    cases hreference
    have hvalue := constValueWith_of_cached (p := p) (hut.constants id _ hx) p.module.constants.size
    unfold constOperand decayConst
    rw [hc, bind_of_ok (liftFault_ok _ _), constValue, bind_of_ok hvalue]
    have haddress : ((d.reference g address).withOrigin (.const id)).asAddress = .ok address :=
      hstored'.asAddress
    simp only [haddress]
    rw [bind_of_ok (lift_ok _ _), bind_of_ok (hstored'.load ht.tidy hle)]
    refine ⟨_, rfl, ?_⟩
    have hw := (hstored.load hu.tidy hle).symm.trans hload
    cases hw
    change u.memory.arena.read address ty.size = t.memory.arena.read address ty.size
    rw [← Arena.take_read hle, ← hread, Arena.take_read hle]

/-! ## Sessions -/

namespace Exec

theorem placeStrings_retains (index count : Nat) : Along Retains (placeStrings p index count) := by
  induction count generalizing index with
  | zero => exact (reads_pure ()).along
  | succ count ih => exact (globalString_retains _).bind fun _ => ih _

/-- Setting up has come to a global: the strings are placed, the globals before it are registered,
and it has its storage. -/
def setUpTo (p : Program) (g : GlobalId) (d : Global) : Exec Nat := do
  placeStrings p 0 p.module.strings.size
  registerGlobals p 0 (p.module.globals.toList.take g.index)
  allocStatic p .global (List.replicate d.ty.size 0)

/-- Without an initializer, setting up is preparing. -/
theorem prepare_of_setUp {fuel : Nat} (hfresh : s.initialized = false)
    (hnone : p.initializer? = none) (h : setUp p fuel s = .ok () t) : prepare p s = .ok () t := by
  rw [setUp_of_fresh fuel (by simp [hfresh])] at h
  obtain ⟨_, u, hprepare, hinit⟩ := bind_eq_ok_iff.mp h
  rw [runGlobalInit_eq, hnone] at hinit
  cases hinit
  exact hprepare

end Exec

theorem Recorded.globals_eq_nil (h : Recorded p [] s) : s.globals.entries = [] := by
  generalize hlog : ([] : List Stage) = log at h
  induction h with
  | fresh => rfl
  | @obeyed log s t c hs hends ih =>
    obtain ⟨hstages, hlog'⟩ := List.append_eq_nil_iff.mp hlog.symm
    rw [← hends.after_eq, (invariant_globals s.globals).obeyed hs.idle rfl hstages]
    exact ih hlog'.symm

/-- How setting up goes, from a state in which it has not been tried. -/
theorem Settled.of_setUp (hhost : p.host.KeepsExtent) {fuel : Nat} (h : Recorded p [] s)
    (hnone : p.initializer? = none) (hok : setUp p fuel s = .ok () t) :
    ∃ s₁, placeStrings p 0 p.module.strings.size s = .ok () s₁ ∧ Settled p t ∧
      ∀ g d, p.module.global g = .ok d → ∃ s₂ u address,
        registerGlobals p 0 (p.module.globals.toList.take g.index) s₁ = .ok () s₂ ∧
        Settled p s₂ ∧ Preserves s₂ t ∧ Filled p g d s₂ u t address := by
  have hempty := h.globals_eq_nil
  have hfresh : s.initialized = false := by
    have hreached := h.tally.reached
    by_cases hinit : s.initialized = true
    · rw [if_pos hinit] at hreached
      cases hreached
    · simpa using hinit
  have hs : Settled p s := Wired.settled (invariant_wired.reachable wired_fresh (.idle h.idle))
    (h.idle.moves.tidy hhost) hempty
  have hprepare := prepare_of_setUp hfresh hnone hok
  rw [prepare_eq] at hprepare
  obtain ⟨_, s₄, hall, hready⟩ := bind_eq_ok_iff.mp hprepare
  obtain ⟨_, s₁, hstrings, hrest⟩ := bind_eq_ok_iff.mp hall
  obtain ⟨_, s₃, hglobals, haliases⟩ := bind_eq_ok_iff.mp hrest
  have hmakes : Makes p s s₁ := (placeStrings_makes _ _).of_ok hstrings
  obtain ⟨hs₁, _⟩ := hs.of_retains hhost hmakes ((placeStrings_retains _ _).of_ok hstrings)
  have hnumbered : Numbered 0 s₁.globals := by
    rw [hmakes.globals_eq]
    refine ⟨?_, fun g hg => ?_⟩
    · rw [hempty]
      exact .nil
    · rw [hempty] at hg
      cases hg
  obtain ⟨hs₃, _, heach⟩ := hs₁.of_registerGlobals hhost hnumbered
    Module.global_of_getElem? hglobals
  -- Routing symbols and marking the session as set up change nothing that counts here.
  obtain ⟨_, _, hget, hroute⟩ := bind_eq_ok_iff.mp haliases
  cases hget
  obtain ⟨aliases, _, hlift, hmodify⟩ := bind_eq_ok_iff.mp hroute
  obtain ⟨_, hsame⟩ := liftFault_eq_ok_iff.mp hlift
  rw [hsame] at hmodify
  cases hmodify
  cases hready
  refine ⟨s₁, hstrings, hs₃.of_same ?_ rfl rfl rfl, fun g d hd => ?_⟩
  · exact invariant_wired.ready (invariant_wired.retain hs₃.wired rfl rfl rfl fun _ ha => ha)
  obtain ⟨s₂, u, address, hbefore, hs₂, hpreserves, hfilled⟩ := heach g.index d
    (by simpa using orMissing_eq_ok_iff.mp hd)
  rw [Nat.zero_add] at hfilled
  exact ⟨s₂, u, address, hbefore, hs₂, hpreserves.trans (.of_eq rfl rfl rfl),
    hfilled.preserved (.of_eq rfl rfl rfl)⟩

/-- Storage that was placed later is apart from what was there. -/
theorem Stored.apart {g : GlobalId} {d d' : Global} {address address' : Nat}
    (hstored : Stored p s g d address)
    (hplaced : allocStatic p .global (List.replicate d'.ty.size 0) s = .ok address' u)
    (hne : d.ty.size ≠ 0) (hne' : d'.ty.size ≠ 0) :
    Allocation.Apart ⟨address, d.ty.size, .global⟩ ⟨address', d'.ty.size, .global⟩ := by
  obtain ⟨_, hroom⟩ := address_of_allocStatic hplaced
  rw [List.length_replicate] at hroom
  have hrecorded := hstored.backed.resolve_left hne
  exact (p.allocator.apart (hroom hne') _ (Memory.Records.inUse (.inr hrecorded))).symm

/-- What a session starts with. When setting up succeeds in a session that has not tried it before,
and there is no initializer to run, every global contains its initial value. The value has the
declared type, and its bytes are those of the constant, as it was evaluated when setting up had come
to the global, and as it is evaluated afterwards; a global without one is filled with zeros. The
globals that the constant refers to, directly or through others, come before the global, and the
constant is what it has to be given what they contain. No two globals share storage.

Without sanitizing, a reference may be declared with a type that is larger than its global. Then
nothing is said of the bytes behind the global, and what depends on them. -/
theorem setUp_fills_globals (hhost : p.host.KeepsExtent) {fuel : Nat} (h : Recorded p [] s)
    (hnone : p.initializer? = none) (hok : setUp p fuel s = .ok () t) :
    (∀ g d, p.module.global g = .ok d → ∃ w address u,
      globalValue p g t = .ok w t ∧ w.ty = d.ty ∧
      setUpTo p g d s = .ok address u ∧ globalAddress p g t = .ok address t ∧
      (d.init = none → w.bytes = List.replicate d.ty.size 0) ∧
      ∀ init, d.init = some init →
        (∃ v u', constOperand p init u = .ok v u' ∧ w.bytes = v.bytes) ∧
        (p.ReadsInside init → ∃ v, constOperand p init t = .ok v t ∧ w.bytes = v.bytes) ∧
        (∀ q ty g', p.Within init q → p.module.constant q = .ok ⟨ty, .globalVar g'⟩ →
          g'.index < g.index) ∧
        (p.AllInside init → Denotes p t init w.bytes)) ∧
    (∀ g g' d d', g ≠ g' → p.module.global g = .ok d → p.module.global g' = .ok d' →
      d.ty.size ≠ 0 → d'.ty.size ≠ 0 → ∃ address address',
        globalAddress p g t = .ok address t ∧ globalAddress p g' t = .ok address' t ∧
        ⟨address, d.ty.size, .global⟩ ∈ t.memory.statics.entries ∧
        ⟨address', d'.ty.size, .global⟩ ∈ t.memory.statics.entries ∧
        Allocation.Apart ⟨address, d.ty.size, .global⟩ ⟨address', d'.ty.size, .global⟩) := by
  obtain ⟨s₁, hstrings, ht, hall⟩ := Settled.of_setUp hhost h hnone hok
  constructor
  · intro g d hd
    obtain ⟨s₂, u, address, hbefore, _, _, hfilled⟩ := hall g d hd
    refine ⟨_, address, u, hfilled.stored.globalValue ht.tidy, rfl,
      (bind_of_ok hstrings).trans ((bind_of_ok hbefore).trans hfilled.placed),
      hfilled.stored.globalAddress, hfilled.zeroed, fun init hinit => ?_⟩
    obtain ⟨v, u', hv, hread, hu', hpreserves, hnumbered, hdenotes⟩ := hfilled.evaluated init hinit
    refine ⟨⟨v, u', hv, hread⟩, fun hinside => ?_, fun q ty g' hq hc => ?_, fun hinside => ?_⟩
    · obtain ⟨v', hv', hbytes⟩ := hu'.operand_again ht hpreserves hinside hv
      exact ⟨v', hv', hread.trans hbytes⟩
    · exact hnumbered.before g'
        (hu'.wired.registered_of_within (cached_of_constOperandWith hv) hq hc)
    · have hfinal := (hdenotes hinside).settled hu' hpreserves ht.tidy
      rw [← hread] at hfinal
      exact hfinal
  · -- Of two globals, the one with the smaller index was there when the other got its storage.
    have ordered (g g' : GlobalId) (d d' : Global) (hlt : g.index < g'.index)
        (hd : p.module.global g = .ok d) (hd' : p.module.global g' = .ok d')
        (hne : d.ty.size ≠ 0) (hne' : d'.ty.size ≠ 0) : ∃ address address',
          Stored p t g d address ∧ Stored p t g' d' address' ∧
            Allocation.Apart ⟨address, d.ty.size, .global⟩ ⟨address', d'.ty.size, .global⟩ := by
      obtain ⟨s₂, u, address', hbefore, hs₂, hpreserves, hfilled⟩ := hall g' d' hd'
      have hsize : g'.index < p.module.globals.size :=
        (Array.getElem?_eq_some_iff.mp (orMissing_eq_ok_iff.mp hd')).1
      obtain ⟨reference, hreference⟩ := get?_of_registerGlobals hbefore g.index
        (by rw [List.length_take, Array.length_toList]; omega)
      rw [Nat.zero_add] at hreference
      obtain ⟨d'', address, hstored⟩ := hs₂.wired.registered.stored hreference
      have hsame := hstored.declared.symm.trans hd
      cases hsame
      exact ⟨address, address', (hstored.preserved hpreserves).1, hfilled.stored,
        hstored.apart hfilled.placed hne hne'⟩
    intro g g' d d' hgg' hd hd' hne hne'
    have hindex : g.index ≠ g'.index := fun heq => hgg' (congrArg GlobalId.mk heq)
    rcases Nat.lt_or_gt_of_ne hindex with hlt | hgt
    · obtain ⟨address, address', hstored, hstored', hapart⟩ := ordered g g' d d' hlt hd hd' hne hne'
      exact ⟨address, address', hstored.globalAddress, hstored'.globalAddress,
        hstored.backed.resolve_left hne, hstored'.backed.resolve_left hne', hapart⟩
    · obtain ⟨address', address, hstored', hstored, hapart⟩ := ordered g' g d' d hgt hd' hd hne' hne
      exact ⟨address, address', hstored.globalAddress, hstored'.globalAddress,
        hstored.backed.resolve_left hne, hstored'.backed.resolve_left hne', hapart.symm⟩

/-! ## Globals that copy each other

The second global is a pair of a literal and a copy of the first one, and the third is the same pair
seen as a number. -/

namespace Chained

def program : Program where
  config := { sanitizeMemory := true }
  module :=
    { name := "chained"
      constants := #[⟨Ty.u8, .int 5⟩, ⟨Ty.u8, .globalVar ⟨0⟩⟩, ⟨Ty.u8, .int 3⟩,
        ⟨.array Ty.u8 2, .array [⟨2⟩, ⟨1⟩]⟩, ⟨.array Ty.u8 2, .globalVar ⟨1⟩⟩, ⟨Ty.u16, .bitcast ⟨4⟩⟩]
      globals := #[⟨"first", Ty.u8, some ⟨0⟩⟩, ⟨"pair", .array Ty.u8 2, some ⟨3⟩⟩,
        ⟨"number", Ty.u16, some ⟨5⟩⟩, ⟨"rest", Ty.u16, none⟩] }

def ready : State := (setUp program 0).after {}

theorem setUp_ok : setUp program 0 {} = .ok () ready := eq_ok_of_result? (by decide +kernel)

end Chained

/-- The third global has what the second one contains, which has what the first one contains. -/
theorem setUp_fills_globals_chained :
    (∃ w, globalValue Chained.program ⟨2⟩ Chained.ready = .ok w Chained.ready ∧ w.ty = Ty.u16 ∧
      w.bytes = [3, 5] ∧ Denotes Chained.program Chained.ready ⟨5⟩ w.bytes ∧
      ∃ v, constOperand Chained.program ⟨5⟩ Chained.ready = .ok v Chained.ready ∧
        w.bytes = v.bytes) ∧
    (∃ w, globalValue Chained.program ⟨3⟩ Chained.ready = .ok w Chained.ready ∧
      w.bytes = [0, 0]) ∧
    ∃ address address', globalAddress Chained.program ⟨0⟩ Chained.ready =
        .ok address Chained.ready ∧
      globalAddress Chained.program ⟨1⟩ Chained.ready = .ok address' Chained.ready ∧
      Allocation.Apart ⟨address, 1, .global⟩ ⟨address', 2, .global⟩ := by
  obtain ⟨hvalues, hapart⟩ := setUp_fills_globals Native.host_keepsExtent .fresh
    (rfl : Chained.program.initializer? = none) Chained.setUp_ok
  have hinside : Chained.program.AllInside ⟨5⟩ := fun _ _ => .inl rfl
  obtain ⟨w, _, _, hw, hty, _, _, _, hinit⟩ := hvalues ⟨2⟩ _ rfl
  obtain ⟨_, hagain, _, hdenotes⟩ := hinit ⟨5⟩ rfl
  obtain ⟨w', _, _, hw', _, _, _, hzero, _⟩ := hvalues ⟨3⟩ _ rfl
  obtain ⟨address, address', hfirst, hsecond, _, _, hdisjoint⟩ :=
    hapart ⟨0⟩ ⟨1⟩ _ _ (by decide) rfl rfl (by decide) (by decide)
  have hbytes : ((globalValue Chained.program ⟨2⟩).result? Chained.ready).map Value.bytes =
      some [3, 5] := by decide +kernel
  unfold result? at hbytes
  rw [hw] at hbytes
  refine ⟨⟨w, hw, hty, Option.some.inj hbytes, hdenotes hinside, hagain (hinside _ .refl)⟩,
    ⟨w', hw', hzero rfl⟩, address, address', hfirst, hsecond, hdisjoint⟩

end PackedIR
