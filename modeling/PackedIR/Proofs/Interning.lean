/-
Strings are interned once, and static storage is for good.

A text comes into storage at three places: with the string pool when a session is set up, with the
first constant that points to an entry of the pool, and with each constant that has a text of its
own. Two caches see to it that this happens once for each `TextKey`. `Interned` says where the
texts are: whatever has an address has static storage there, a constant that is cached points to
it, and the bytes of `D` that nobody has written to are still those of the text.

Evaluation keeps this because new storage lies behind all that there is, and filling a global
because the storage of a global is not that of a string. What is left are the stores of the
program and native code, and these are the writes that `Spares` excludes.
-/
import PackedIR.Proofs.Course

set_option autoImplicit false

namespace PackedIR

open Exec

variable {p : Program} {D : Nat → Prop} {s t : State} {m m' : Memory} {id : ConstId} {text : String}
  {address : Nat}

/-! ## Texts -/

/-- The bytes of a text in storage, with the closing zero. -/
def terminated (text : String) : Bytes := text.toUTF8.toList ++ [0]

theorem terminated_ne_nil (text : String) : terminated text ≠ [] := by simp [terminated]

/-- What a text is interned under: the one constant it belongs to, or its place in the pool. -/
inductive TextKey where
  | own (id : ConstId)
  | pooled (id : StringId)

/-- The constant is a pointer to a text. -/
inductive Program.PointsTo (p : Program) : ConstId → TextKey → String → Prop where
  | own {id : ConstId} {ty : Ty} {text : String}
      (found : p.module.constant id = .ok ⟨ty, .text text⟩) (pointer : ty.isPointer = true) :
      p.PointsTo id (.own id) text
  | pooled {id : ConstId} {ty : Ty} {sid : StringId} {text : String}
      (found : p.module.constant id = .ok ⟨ty, .globalString sid⟩) (pointer : ty.isPointer = true)
      (listed : p.module.string sid = .ok text) : p.PointsTo id (.pooled sid) text

/-- The address that a text has got. -/
def State.addressOf? (s : State) : TextKey → Option Nat
  | .own id => (s.constants.get? id).bind Value.address?
  | .pooled id => s.strings.get? id

theorem Program.PointsTo.constant {key : TextKey} (h : p.PointsTo id key text) :
    ∃ c, p.module.constant id = .ok c ∧ ∀ g, c.kind ≠ .globalVar g := by
  cases h with
  | own hfound => exact ⟨_, hfound, by simp⟩
  | pooled hfound => exact ⟨_, hfound, by simp⟩

/-- An address has a value of every pointer type. -/
theorem Value.ofInt_address {ty : Ty} (hty : ty.isPointer = true) (h : address < addressLimit) :
    Value.ofInt ty address = .ok (Value.ofAddress ty address) := by
  cases ty with
  | pointer pointee mutability =>
    have hlimit : (address : Int) < (Nat.pow 256 wordSize : Nat) := Int.ofNat_lt.mpr h
    have hbytes : Bytes.ofInt wordSize address = Bytes.ofNat wordSize address := by
      rw [Bytes.ofInt, Int.emod_eq_of_lt (Int.natCast_nonneg address) hlimit, Int.toNat_natCast]
    change Except.ok (Value.mk _ _ (Bytes.ofInt wordSize address)) = _
    rw [hbytes]
    rfl
  | _ => cases hty

theorem Value.asAddress_eq_ok_iff {v : Value} :
    v.asAddress = .ok address ↔ v.address? = some address := by
  unfold asAddress
  cases v.address? with
  | some a => simp
  | none => simp

/-! ## What is spared -/

/-- Static storage stays, and the bytes of strings that belong to `D` do too. -/
structure Memory.SparesTexts (D : Nat → Prop) (m m' : Memory) : Prop where
  statics : ∀ a ∈ m.statics.entries, a ∈ m'.statics.entries
  bytes : ∀ a ∈ m.statics.entries, a.kind = .string →
    ∀ k, a.start ≤ k → k < a.start + a.size → D k → m'.arena.byteAt k = m.arena.byteAt k

namespace Memory.SparesTexts

theorem of_eq (harena : m'.arena = m.arena) (hstatics : m'.statics = m.statics) :
    SparesTexts D m m' := by
  refine ⟨fun a ha => ?_, fun _ _ _ k _ _ _ => ?_⟩
  · rwa [hstatics]
  · rw [harena]

/-- New storage is not that of a string. -/
theorem takes {size : Nat} (h : Takes p address size m m') (hm : m.Tidy) : SparesTexts D m m' := by
  refine ⟨h.statics_subset hm, fun a ha _ k hle hlt _ => h.byteAt_eq ?_⟩
  have hlive : m.Live k 1 := ⟨a, .inr ha, hle, by omega⟩
  apply Classical.byContradiction
  intro hinside
  exact not_live_of_place h.room (by omega) hlive

/-- The live bytes of `D` are left alone. -/
theorem of_bytes {arena : Arena}
    (h : ∀ k, D k → m.Live k 1 → arena.byteAt k = m.arena.byteAt k) :
    SparesTexts D m { m with arena } := by
  refine ⟨fun _ ha => ha, fun a ha _ k hle hlt hk => h k hk ?_⟩
  exact ⟨a, .inr ha, hle, by omega⟩

/-- The storage of a global is not that of a string. -/
theorem fill {ty : Ty} {bytes : Bytes} (hm : m.Tidy) (hbacked : m.Backs address ty)
    (hsize : bytes.length = ty.size) : SparesTexts D m (m.put address bytes) := by
  refine ⟨fun _ ha => ha, fun a ha hkind k hle hlt _ => Arena.byteAt_write_of_outside ?_⟩
  rcases hbacked with hempty | hglobal
  · omega
  · by_cases hk : address ≤ k ∧ k < address + bytes.length
    · rw [hsize] at hk
      rw [hm.eq_of_meets (.inr ha) (.inr hglobal) ⟨hle, hlt⟩ hk] at hkind
      cases hkind
    · omega

end Memory.SparesTexts

/-- The text has storage of its own at the address, and it is still there if all its bytes belong
to `D`. -/
structure Memory.Houses (m : Memory) (D : Nat → Prop) (address : Nat) (text : String) : Prop where
  recorded : ⟨address, (terminated text).length, .string⟩ ∈ m.statics.entries
  intact : (∀ k, address ≤ k → k < address + (terminated text).length → D k) →
    m.arena.read address (terminated text).length = terminated text

namespace Memory.Houses

theorem spared (h : m.Houses D address text) (hspared : SparesTexts D m m') :
    m'.Houses D address text := by
  refine ⟨hspared.statics _ h.recorded, fun hD => ?_⟩
  refine Eq.trans (Arena.read_congr fun k hle hlt => ?_) (h.intact hD)
  exact hspared.bytes _ h.recorded rfl k hle hlt (hD k hle hlt)

theorem lt_addressLimit (h : m.Houses D address text) (hm : m.Tidy) : address < addressLimit := by
  have hlive : m.Live address (terminated text).length :=
    ⟨_, .inr h.recorded, Nat.le_refl _, Nat.le_refl _⟩
  have hend := hlive.lt_addressLimit hm.housed
  omega

end Memory.Houses

theorem Exec.houses_of_placeText (h : placeText p text s = .ok address t) :
    t.memory.Houses D address text :=
  ⟨recorded_of_allocStatic (terminated_ne_nil text) h, fun _ => read_of_allocStatic h⟩

/-! ## The invariant -/

/-- Where the texts are. -/
structure Interned (p : Program) (D : Nat → Prop) (s : State) : Prop where
  tidy : s.memory.Tidy
  /-- A text that has got an address is there. -/
  housed : ∀ {id : ConstId} {key : TextKey} {text : String} {address : Nat},
    p.PointsTo id key text → s.addressOf? key = some address → s.memory.Houses D address text
  /-- A constant that is cached has the address of its text. -/
  cached : ∀ {id : ConstId} {key : TextKey} {text : String} {v : Value}, p.PointsTo id key text →
    s.constants.get? id = some v → ∃ address, v.address? = some address ∧
      s.addressOf? key = some address

/-- What happens keeps the texts where they are. -/
def Interning (p : Program) (D : Nat → Prop) (s t : State) : Prop := Interned p D s → Interned p D t

instance : Std.Refl (Interning p D) := ⟨fun _ h => h⟩

instance : IsTrans State (Interning p D) := ⟨fun _ _ _ h h' hs => h' (h hs)⟩

theorem State.addressOf?_congr (hconstants : t.constants = s.constants)
    (hstrings : t.strings = s.strings) (key : TextKey) : t.addressOf? key = s.addressOf? key := by
  cases key with
  | own id => rw [addressOf?, addressOf?, hconstants]
  | pooled id => rw [addressOf?, addressOf?, hstrings]

namespace Interned

theorem fresh : Interned p D {} := by
  refine ⟨Memory.tidy_empty, fun {id key text address} _ h => ?_, fun _ h => by cases h⟩
  cases key <;> cases h

theorem change (h : Interned p D s) (htidy : t.memory.Tidy)
    (hspared : s.memory.SparesTexts D t.memory) (hconstants : t.constants = s.constants)
    (hstrings : t.strings = s.strings) : Interned p D t := by
  refine ⟨htidy, fun hpoints haddress => ?_, fun hpoints hv => ?_⟩
  · rw [State.addressOf?_congr hconstants hstrings] at haddress
    exact (h.housed hpoints haddress).spared hspared
  · rw [hconstants] at hv
    rw [State.addressOf?_congr hconstants hstrings]
    exact h.cached hpoints hv

theorem calm (h : Interned p D s) (hst : Calm s t) : Interned p D t :=
  h.change (hst.tidy h.tidy) (.of_eq hst.arena hst.statics) hst.constants hst.strings

/-- An entry of the pool without an address gets one where its text is. -/
theorem intern {sid : StringId} (h : Interned p D s) (hmissing : s.strings.get? sid = none)
    (htext : p.module.string sid = .ok text) (hhoused : s.memory.Houses D address text) :
    Interned p D { s with strings := s.strings.insert sid address } := by
  refine ⟨h.tidy, fun {id key _ a} hpoints ha => ?_, fun {id key _ v} hpoints hv => ?_⟩
  · cases key with
    | own => exact h.housed hpoints ha
    | pooled sid' =>
      rw [State.addressOf?, Table.get?_insert] at ha
      split at ha
      · rename_i hsame
        subst hsame
        cases ha
        cases hpoints with
        | pooled _ _ hlisted =>
          rw [htext] at hlisted
          cases hlisted
          exact hhoused
      · exact h.housed hpoints ha
  · obtain ⟨a, hva, ha⟩ := h.cached hpoints hv
    refine ⟨a, hva, ?_⟩
    cases key with
    | own => exact ha
    | pooled sid' =>
      -- The entry had no address, so no constant that points to it was cached.
      have hne : sid' ≠ sid := by
        rintro rfl
        rw [State.addressOf?, hmissing] at ha
        cases ha
      rw [State.addressOf?, Table.get?_insert, if_neg hne]
      exact ha

/-- A constant is cached with the address of its text. -/
theorem cache {v : Value} (h : Interned p D s)
    (hv : ∀ {key : TextKey} {text : String}, p.PointsTo id key text → ∃ a, v.address? = some a ∧
      s.memory.Houses D a text ∧ ∀ sid, key = .pooled sid → s.strings.get? sid = some a) :
    Interned p D { s with constants := s.constants.insert id v } := by
  refine ⟨h.tidy, fun {id' key _ a} hpoints ha => ?_, fun {id' key _ w} hpoints hw => ?_⟩
  · cases key with
    | own id'' =>
      cases hpoints with
      | own hfound hpointer =>
        rw [State.addressOf?, Table.get?_insert] at ha
        split at ha
        · rename_i hsame
          subst hsame
          obtain ⟨b, hb, hhoused, _⟩ := hv (.own hfound hpointer)
          rw [Option.bind_some, hb] at ha
          cases ha
          exact hhoused
        · exact h.housed (.own hfound hpointer) ha
    | pooled => exact h.housed hpoints ha
  · rw [Table.get?_insert] at hw
    split at hw
    · rename_i hsame
      subst hsame
      cases hw
      obtain ⟨a, hva, _, hpooled⟩ := hv hpoints
      refine ⟨a, hva, ?_⟩
      cases hpoints with
      | own =>
        rw [State.addressOf?, Table.get?_insert_self]
        exact hva
      | pooled => exact hpooled _ rfl
    · rename_i hne
      obtain ⟨a, hwa, ha⟩ := h.cached hpoints hw
      refine ⟨a, hwa, ?_⟩
      cases hpoints with
      | own =>
        rw [State.addressOf?, Table.get?_insert, if_neg hne]
        exact ha
      | pooled => exact ha

end Interned

/-! ## Evaluation -/

namespace Exec

theorem get?_of_globalString {sid : StringId} (h : globalString p sid s = .ok address t) :
    t.strings.get? sid = some address := by
  unfold globalString at h
  rw [bind_of_ok (get_apply s)] at h
  cases hplaced : s.strings.get? sid with
  | some a =>
    rw [hplaced] at h
    cases h
    exact hplaced
  | none =>
    rw [hplaced] at h
    simp only [bind_eq_ok_iff] at h
    obtain ⟨_, _, _, _, _, _, _, _, hmodify, hpure⟩ := h
    cases hmodify
    cases hpure
    exact Table.get?_insert_self _ _ _

end Exec

/-- A constant that points to a text is made with the address of the text. -/
theorem Interned.made {op : ConstId → Exec Value} {c : Constant} {made : Value} {key : TextKey}
    (ht : Interned p D t) (hpoints : p.PointsTo id key text)
    (hc : p.module.constant id = .ok c) (h : materialize p op c s = .ok made t) :
    ∃ a, made.address? = some a ∧ t.memory.Houses D a text ∧
      ∀ sid, key = .pooled sid → t.strings.get? sid = some a := by
  have hread {ty : Ty} {a : Nat} (hty : ty.isPointer = true) (ha : t.memory.Houses D a text)
      (hmade : Value.ofInt ty a = .ok made) : made.address? = some a := by
    have hlimit := ha.lt_addressLimit ht.tidy
    rw [Value.ofInt_address hty hlimit] at hmade
    cases hmade
    exact Value.asAddress_eq_ok_iff.mp (Value.asAddress_ofAddress ty hlimit)
  cases hpoints with
  | own hfound hpointer =>
    rw [hfound] at hc
    cases hc
    obtain ⟨a, u, hplace, hvalue⟩ := bind_eq_ok_iff.mp h
    obtain ⟨hmade, rfl⟩ := lift_eq_ok_iff.mp hvalue
    have hhoused := houses_of_placeText (D := D) hplace
    exact ⟨a, hread hpointer hhoused hmade, hhoused, by simp⟩
  | pooled hfound hpointer hlisted =>
    rw [hfound] at hc
    cases hc
    obtain ⟨a, u, hstring, hvalue⟩ := bind_eq_ok_iff.mp h
    obtain ⟨hmade, rfl⟩ := lift_eq_ok_iff.mp hvalue
    have hplaced := get?_of_globalString hstring
    have hhoused := ht.housed (.pooled hfound hpointer hlisted) hplaced
    refine ⟨a, hread hpointer hhoused hmade, hhoused, ?_⟩
    rintro sid ⟨⟩
    exact hplaced

/-- New storage is no threat to the texts, whatever it is for. -/
theorem Interned.takes (h : Interned p D s) {size : Nat} {memory : Memory}
    (htakes : Memory.Takes p address size s.memory memory) (frames : List Frame) :
    Interned p D { s with memory, frames } :=
  h.change (htakes.tidy h.tidy) (.takes htakes h.tidy) rfl rfl

theorem Exec.allocStatic_interning (kind : AllocKind) (bytes : Bytes) :
    Along (Interning p D) (allocStatic p kind bytes) := by
  refine allocStatic_along fun {s} _ _ hne hroom hrecorded hs => ?_
  exact hs.takes (.static kind bytes rfl (List.length_pos_iff.mpr hne) hroom hrecorded) s.frames

theorem Exec.globalString_interning (sid : StringId) :
    Along (Interning p D) (globalString p sid) := by
  intro s hs
  unfold globalString
  rw [after, bind_of_ok (get_apply s), ← after]
  cases hplaced : s.strings.get? sid with
  | some address => exact hs
  | none =>
    refine after_bind (R := Interning p D) ((reads_liftFault _).along s) (fun text u htext => ?_) hs
    obtain ⟨hlisted, rfl⟩ := liftFault_eq_ok_iff.mp htext
    refine after_bind (allocStatic_interning _ _ u) fun address w hplace hw => ?_
    have hstrings : w.strings = u.strings := by
      obtain ⟨_, _, _, rfl⟩ := allocStatic_eq_ok (terminated_ne_nil text) hplace
      rfl
    exact hw.intern (by rw [hstrings, hplaced]) hlisted (houses_of_placeText hplace)

theorem tracks_interning : Tracks p (Interning p D) where
  place := allocStatic_interning
  intern := globalString_interning
  prepare := fun id s hs => hs.calm (compileFunction_calm id s)
  cache := by
    intro s t id c budget made _ hc hmade hst hs
    refine (hst hs).cache fun hpoints => ?_
    obtain ⟨a, ha, hplaced⟩ := (hst hs).made hpoints hc hmade
    exact ⟨a, ha, hplaced⟩

/-! ## Setting up -/

theorem Exec.allocFrame_interning {size : Nat} (hpos : 0 < size) :
    Along (Interning p D) (allocFrame p size) := by
  refine allocFrame_along fun {_ fr rest address _} _ hroom hrecorded hs => ?_
  exact hs.takes (.frame hpos hroom hrecorded)
    ({ fr with allocs := (address, size) :: fr.allocs } :: rest)

/-- A store keeps the texts unless it goes to one of them. -/
theorem Exec.storeValue_interning {ty : Ty} {v : Value} (hs : Interned p D s)
    (hspared : ∀ k, D k → s.memory.Live k 1 → ∀ t, storeValue p address ty v s = .ok () t →
      ¬(address ≤ k ∧ k < address + v.size)) :
    Interned p D ((storeValue p address ty v).after s) := by
  cases hstore : storeValue p address ty v s with
  | error e t =>
    rw [after_of_error hstore, storeValue_atomic address ty v s e t hstore]
    exact hs
  | ok _ t =>
    rw [after_of_ok hstore]
    obtain ⟨_, u, hsize, hbytes⟩ := bind_eq_ok_iff.mp hstore
    obtain ⟨_, rfl⟩ := lift_eq_ok_iff.mp hsize
    rw [storeBytes_eq_ite] at hbytes
    split at hbytes
    · cases hbytes
      have htidy := hs.tidy.of_size (Arena.size_write u.memory.arena address v.bytes)
      refine hs.change htidy (.of_bytes fun k hk hlive => ?_) rfl rfl
      have hout := hspared k hk hlive _ hstore
      unfold Value.size at hout
      exact Arena.byteAt_write_of_outside (by omega)
    · cases hbytes

section Acts

variable (hhost : p.host.KeepsExtent)

include hhost

/-- Starting a call keeps the texts unless native code changes them. -/
theorem Interned.started {α : Type} {x : Exec α} (h : Interned p D s) (hx : Starts p s (x.after s))
    (hspared : ∀ k, D k → s.memory.Live k 1 → ¬NativeWrites p x s k) :
    Interned p D (x.after s) := by
  have hbytes (k : Nat) (hk : D k) (hlive : s.memory.Live k 1) :=
    byteAt_of_starts hx (hspared k hk hlive)
  generalize x.after s = t at hx hbytes ⊢
  cases hx with
  | calm hcalm => exact h.calm hcalm
  | native args found =>
    exact h.change (h.tidy.of_size (hhost _ _ args _ found)) (.of_bytes hbytes) rfl rfl

/-- An instruction that spares `D` keeps the texts. -/
theorem Interned.executed (h : Interned p D s) (f : Function) {inst : Instruction}
    (hspared : ∀ k, D k → ¬inst.Writes p s k) : Interned p D ((execute p f inst).after s) := by
  refine execute_along (R := Interning p D) (tracks_interning.constValueWith _)
    allocFrame_interning f inst (fun hop hstores hargs hu hs => ?_) (fun hop hu hs => ?_) h
  · refine storeValue_interning hs fun k hk hlive w hstored hinside => ?_
    exact hspared k hk (.store hop hstores hargs hu hlive hstored hinside)
  · refine hs.started hhost (startTarget_starts _ _ _) fun k hk hlive hchanged => ?_
    exact hspared k hk (.native hop hu hlive hchanged)

theorem Interned.stepped (h : Interned p D s) (base : Nat)
    (hspared : ∀ k, D k → ¬(Act.step base).Writes p s k) :
    Interned p D ((step p base).after s) := by
  rcases s.frames_cases with hfr | ⟨fr, rest, hfr⟩
  · rw [after_of_error (step_nil base hfr)]
    exact h
  · cases hcur : fr.current p.module with
    | error e =>
      rw [after_of_error (step_of_current_error base hfr hcur)]
      exact h
    | ok c =>
      obtain ⟨f, block, inst⟩ := c
      have hexecuted := h.executed hhost f fun k hk hwrites => hspared k hk (.step hfr hcur hwrites)
      cases hx : execute p f inst s with
      | error e t =>
        rw [after_of_error (step_of_execute_error base hfr hcur hx)]
        rwa [after_of_error hx] at hexecuted
      | ok flow t =>
        rw [after_congr (step_of_executed base hfr hcur hx)]
        rw [after_of_ok hx] at hexecuted
        exact hexecuted.calm (proceed_calm base f inst flow t)

end Acts

/-! ## Addresses -/

theorem Makes.strings_get? (h : Makes p s t) {sid : StringId}
    (hs : s.strings.get? sid = some address) : t.strings.get? sid = some address := by
  induction h with
  | trans _ _ ih₁ ih₂ => exact ih₂ (ih₁ hs)
  | make _ _ _ _ _ _ ih => exact ih hs
  | intern sid' address' missing =>
    have hne : sid ≠ sid' := by
      rintro rfl
      rw [missing] at hs
      cases hs
    rw [Table.get?_insert, if_neg hne]
    exact hs
  | refl | place | prepare => exact hs

/-- A text keeps its address. -/
theorem Moves.addressOf? (h : Moves p s t) {key : TextKey} (hs : s.addressOf? key = some address) :
    t.addressOf? key = some address := by
  cases key with
  | own id =>
    obtain ⟨v, hv, hva⟩ := Option.bind_eq_some_iff.mp hs
    rw [State.addressOf?, h.caches.kept id v hv]
    exact hva
  | pooled sid =>
    have hkept : CacheRelation p fun s t =>
        ∀ a, s.strings.get? sid = some a → t.strings.get? sid = some a := by
      refine ⟨fun h h' a ha => h' a (h a ha), fun h _ => h.strings_get?, ?_⟩
      intro s t _ _ hstrings a ha
      rwa [hstrings]
    exact hkept.moves h address hs

/-- A constant without members is made on first use, and cached. -/
theorem Exec.constOperand_of_made {c : Constant} {made : Value} (hc : p.module.constant id = .ok c)
    (hkind : ∀ g, c.kind ≠ .globalVar g) (hmissing : s.constants.get? id = none)
    (h : ∀ op, materialize p op c s = .ok made t) :
    constOperand p id s = .ok (made.withOrigin (.const id))
      { t with constants := t.constants.insert id (made.withOrigin (.const id)) } := by
  rw [constOperand_eq_ok_iff hc hkind]
  unfold constValue
  -- A module with a constant has a budget.
  have hlt := (Array.getElem?_eq_some_iff.mp (orMissing_eq_ok_iff.mp hc)).1
  obtain ⟨budget, hbudget⟩ := Nat.exists_eq_add_one_of_ne_zero (Nat.ne_zero_of_lt hlt)
  rw [hbudget]
  exact (constValueWith_eq_ok_iff hmissing).mpr ⟨c, made, t, hc, h _, rfl, rfl⟩

namespace Interned

variable {key : TextKey} {v : Value}

/-- Every constant that points to a text with an address evaluates to this address. -/
theorem constOperand_eq (h : Interned p D s) (hpoints : p.PointsTo id key text)
    (ha : s.addressOf? key = some address) :
    ∃ v t, constOperand p id s = .ok v t ∧ v.asAddress = .ok address := by
  obtain ⟨c, hc, hkind⟩ := hpoints.constant
  cases hv : s.constants.get? id with
  | some v =>
    obtain ⟨a, hva, ha'⟩ := h.cached hpoints hv
    rw [ha] at ha'
    cases ha'
    exact ⟨v, s, constOperand_of_cached hc hkind hv, Value.asAddress_eq_ok_iff.mpr hva⟩
  | none =>
    have hlimit := (h.housed hpoints ha).lt_addressLimit h.tidy
    cases hpoints with
    | own =>
      rw [State.addressOf?, hv] at ha
      cases ha
    | pooled hfound hpointer hlisted =>
      rename_i ty sid
      -- The entry has its address, so making the constant is looking it up.
      have hstring : globalString p sid s = .ok address s := by
        unfold globalString
        rw [bind_of_ok (get_apply s)]
        rw [State.addressOf?] at ha
        rw [ha]
        rfl
      have hmade (op : ConstId → Exec Value) :
          materialize p op ⟨ty, .globalString sid⟩ s = .ok (Value.ofAddress ty address) s := by
        change (globalString p sid >>= fun a => liftM (Value.ofInt ty a)) s = _
        rw [bind_of_ok hstring, Value.ofInt_address hpointer hlimit, lift_ok]
      exact ⟨_, _, constOperand_of_made hfound (by simp) hv hmade,
        Value.asAddress_ofAddress ty hlimit⟩

end Interned

/-! ## Static storage -/

theorem Memory.Tidy.positive (h : m.Tidy) {a : Allocation} (ha : m.Records a) : 0 < a.size := by
  rcases ha with ha | ha
  · exact h.stack.positive a ha
  · exact h.housed.statics.positive a ha

/-- Static storage is never given back. -/
theorem Memory.Evolves.statics_subset (hhost : p.host.KeepsExtent) (h : Memory.Evolves p m m')
    (hm : m.Tidy) : m.statics.entries ⊆ m'.statics.entries := by
  induction h with
  | refl | store | native | release => exact fun _ ha => ha
  | trans h₁ _ ih₁ ih₂ => exact List.Subset.trans (ih₁ hm) (ih₂ (h₁.tidy hhost hm))
  | takes h => exact h.statics_subset hm

namespace Greeting

/-- Replaces a global variable. -/
def replace : Function where
  name := "replace"
  ty := .function [] .void false
  locals := #[]
  blocks := #[⟨"entry", #[⟨.place .store, [.const ⟨3⟩, .const ⟨4⟩], none⟩, ⟨.ret, [], none⟩]⟩]

/-- Two constants point to the only entry of the pool, and one has a text of its own. -/
def program : Program where
  module :=
    { name := "greeting"
      strings := #["hi"]
      constants := #[⟨Ty.mutPtrTo Ty.u8, .globalString ⟨0⟩⟩, ⟨Ty.mutPtrTo Ty.u8, .globalString ⟨0⟩⟩,
        ⟨Ty.mutPtrTo Ty.u8, .text "ho"⟩, ⟨Ty.u8, .int 7⟩, ⟨Ty.u8, .globalVar ⟨0⟩⟩]
      functions := #[replace]
      globals := #[⟨"g", Ty.u8, none⟩] }

/-- The entry has been placed by a constant, before the session is set up. -/
def early : State := (constOperand program ⟨0⟩).after {}

/-- Then the session is set up and the variable replaced. -/
def commands : List Command := [.setUp 9, .run 9 ⟨0⟩ []]

/-- The function has been entered, -/
def entered : State := runActs program [.prepare, .call ⟨0⟩ []] early

/-- and has replaced the variable. -/
def replaced : State := runActs program [.step 0] entered

end Greeting

end PackedIR
