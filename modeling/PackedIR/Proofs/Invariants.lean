/-
Invariants of what a session has made.

What a constant is cached as and where a global is registered is decided at a few places: a
constant is cached when it has been made, and a global is registered when it has been filled.
Everything else that happens leaves the cache and the table of globals alone, and only adds to the
static storage. An `Invariant` is therefore proved by looking at these two places.

`Moves` says of them only that something is cached or registered. Here more has to be known: how the
value was made, and that the storage of the global is there. So the invariant is carried along the
runs themselves. A run is coupled with itself, and the states count as the same if they are equal
and the invariant holds of them.
-/
import PackedIR.Proofs.Sessions
import PackedIR.Proofs.Storage

set_option autoImplicit false

namespace PackedIR

open Exec

variable {α : Type} {p : Program} {K : State → Prop} {s t : State}

/-! ## What nearly everything does -/

/-- Nothing is cached or registered, static storage is kept, and a session that has not been set up
still has not. -/
structure Retains (s t : State) : Prop where
  constants : t.constants = s.constants
  globals : t.globals = s.globals
  initialized : t.initialized = s.initialized
  statics : s.memory.statics.Ordered →
    t.memory.statics.Ordered ∧ s.memory.statics.entries ⊆ t.memory.statics.entries

namespace Retains

theorem of_statics_eq (hconstants : t.constants = s.constants) (hglobals : t.globals = s.globals)
    (hinitialized : t.initialized = s.initialized)
    (hstatics : t.memory.statics = s.memory.statics) : Retains s t := by
  refine ⟨hconstants, hglobals, hinitialized, fun hs => ?_⟩
  rw [hstatics]
  exact ⟨hs, fun _ ha => ha⟩

instance : Std.Refl Retains := ⟨fun _ => .of_statics_eq rfl rfl rfl rfl⟩

instance : IsTrans State Retains := by
  refine ⟨fun s t u h h' => ⟨h'.constants.trans h.constants, h'.globals.trans h.globals,
    h'.initialized.trans h.initialized, ?_⟩⟩
  intro hs
  obtain ⟨ht, hst⟩ := h.statics hs
  obtain ⟨hu, htu⟩ := h'.statics ht
  exact ⟨hu, List.Subset.trans hst htu⟩

end Retains

namespace Exec

theorem storeBytes_retains (address : Nat) (bytes : Bytes) :
    Along Retains (storeBytes p address bytes) := by
  intro s
  rw [after, storeBytes_eq_ite]
  by_cases hallowed : s.memory.accessible p.config.sanitizeMemory address bytes.length = true
  · rw [if_pos hallowed]
    exact .of_statics_eq rfl rfl rfl rfl
  · rw [if_neg hallowed]
    exact refl_of Retains s

theorem allocStatic_retains (kind : AllocKind) (bytes : Bytes) :
    Along Retains (allocStatic p kind bytes) := by
  refine allocStatic_along fun hne _ hrecorded => ⟨rfl, rfl, rfl, fun hs => ?_⟩
  have hpos : 0 < bytes.length := List.length_pos_iff.mpr hne
  obtain ⟨hordered, hperm, _⟩ := AllocMap.insert_eq_ok hs hpos hrecorded
  exact ⟨hordered, fun a ha => hperm.symm.subset (List.mem_cons_of_mem _ ha)⟩

theorem allocFrame_retains (size : Nat) : Along Retains (allocFrame p size) :=
  allocFrame_along fun _ _ _ => .of_statics_eq rfl rfl rfl rfl

theorem popFrame_retains : Along Retains popFrame := by
  intro s
  rcases s.frames_cases with hfr | ⟨fr, rest, hfr⟩
  · rw [after_of_error (popFrame_nil hfr)]
    exact refl_of Retains s
  · rw [after, popFrame_eq hfr]
    cases s.memory.stack.removeAll fr.allocs with
    | ok | error => exact .of_statics_eq rfl rfl rfl rfl

theorem callNative_retains (callee : Callee) (args : List Value) :
    Along Retains (callNative p callee args) := by
  intro s
  cases hprepare : callee.prepare p.host args with
  | error e =>
    rw [after, callNative_eq, hprepare]
    exact refl_of Retains s
  | ok call =>
    rw [after_congr ((callNative_eq callee args).trans (by rw [hprepare])), ← reads_lift _ _]
    exact .of_statics_eq rfl rfl rfl rfl

theorem globalString_retains (id : StringId) : Along Retains (globalString p id) := by
  refine reads_get.along.bind fun s => ?_
  split
  · exact (reads_pure _).along
  · refine (reads_liftFault _).along.bind fun text => (allocStatic_retains _ _).bind fun address => ?_
    exact fun t => .of_statics_eq rfl rfl rfl rfl

theorem compileFunction_retains (id : FuncId) : Along Retains (compileFunction p id) := by
  refine (reads_liftFault _).along.bind fun f => reads_get.along.bind fun s => ?_
  split
  · exact (reads_pure _).along
  · split
    · exact (reads_lift _).along
    · by_cases hlimit : FuncId.limit ≤ id.index
      · simp only [if_pos hlimit]
        exact (reads_throw _).along
      · simp only [if_neg hlimit]
        exact fun t => .of_statics_eq rfl rfl rfl rfl

end Exec

/-! ## Invariants -/

/-- The storage of a variable is recorded, unless it is empty. -/
def Memory.Backs (m : Memory) (address : Nat) (ty : Ty) : Prop :=
  ty.size = 0 ∨ ⟨address, ty.size, .global⟩ ∈ m.statics.entries

/-- The reference that a global at an address is registered with. -/
def Global.reference (g : Global) (id : GlobalId) (address : Nat) : Value :=
  (Value.ofAddress (Ty.mutPtrTo g.ty) address).withOrigin (.global id)

/-- A fact about the cache, the table of globals, the static storage and the setting up that runs
keep. -/
structure Invariant (p : Program) (K : State → Prop) : Prop where
  retain : ∀ {s t : State}, K s → t.constants = s.constants → t.globals = s.globals →
    t.initialized = s.initialized → s.memory.statics.entries ⊆ t.memory.statics.entries → K t
  /-- A constant that was missing in `s` has been made, which has led to `t`, and is cached. -/
  make : ∀ {s t : State} {id : ConstId} {c : Constant} {budget : Nat} {made : Value},
    s.constants.get? id = none → p.module.constant id = .ok c →
    materialize p (constOperandWith p budget) c s = .ok made t → K t →
    K { t with constants := t.constants.insert id (made.withOrigin (.const id)) }

/-- A fact that setting up keeps too. -/
structure LastingInvariant (p : Program) (K : State → Prop) : Prop extends Invariant p K where
  /-- A global has its storage and is registered. -/
  register : ∀ {s : State} {id : GlobalId} {g : Global} {address : Nat}, K s →
    p.module.global id = .ok g → address < addressLimit → s.memory.Backs address g.ty →
    K { s with globals := s.globals.insert id (g.reference id address) }
  ready : ∀ {s : State}, K s → K { s with initialized := true }

/-- A run is compared with itself, as long as something holds. -/
def Coupling.keeping (K : State → Prop) : Coupling where
  rel s t := s = t ∧ s.memory.statics.Ordered ∧ K s
  shared _ := True
  excused _ _ := False

namespace Coupling

variable {x : Exec α}

theorem keeping_matches (h : (keeping K).rel (x.after s) (x.after s)) :
    (keeping K).Matches (x s) (x s) := by
  cases hx : x s with
  | ok a t =>
    rw [after_of_ok hx] at h
    exact .ok a h
  | error e t =>
    rw [after_of_error hx] at h
    exact .error h trivial

theorem rel_of_keeping_matches (h : (keeping K).Matches (x s) (x s)) :
    (keeping K).rel (x.after s) (x.after s) := by
  cases hx : x s with
  | ok a t =>
    rw [hx] at h
    rw [after_of_ok hx]
    cases h with
    | ok _ ht => exact ht
  | error e t =>
    rw [hx] at h
    rw [after_of_error hx]
    cases h with
    | error ht _ => exact ht
    | excused _ he => exact he.elim

end Coupling

namespace Invariant

open Coupling

variable (h : Invariant p K)

include h

theorem follows {x : Exec α} (hx : Along Retains x) : (keeping K).Follows x x := by
  rintro s _ ⟨rfl, hordered, hs⟩
  have hretains := hx s
  obtain ⟨hordered', hstatics⟩ := hretains.statics hordered
  refine keeping_matches ⟨rfl, hordered', ?_⟩
  exact h.retain hs hretains.constants hretains.globals hretains.initialized hstatics

theorem sound : (keeping K).Sound p p.config where
  shares := by
    rintro s _ ⟨rfl, _⟩
    exact ⟨s.memory, s.constants, rfl⟩
  reframe := by
    rintro s _ frames ⟨rfl, hordered, hs⟩ _
    exact ⟨rfl, hordered, h.retain hs rfl rfl rfl fun _ ha => ha⟩
  push := by
    rintro s _ fr ⟨rfl, hordered, hs⟩ _
    exact ⟨rfl, hordered, h.retain hs rfl rfl rfl fun _ ha => ha⟩
  prepare := by
    rintro s _ id ⟨rfl, hordered, hs⟩
    exact ⟨rfl, hordered, h.retain hs rfl rfl rfl fun _ ha => ha⟩
  intern := by
    rintro s _ id address ⟨rfl, hordered, hs⟩ _
    exact ⟨rfl, hordered, h.retain hs rfl rfl rfl fun _ ha => ha⟩
  unrefused := fun _ => trivial
  shared_within := fun _ _ => trivial
  excused_within := fun _ he => he
  excused_leave := fun he _ => he
  load := fun address ty => h.follows (reads_load p address ty).along
  store := fun address bytes => h.follows (storeBytes_retains address bytes)
  place := fun kind bytes => h.follows (allocStatic_retains kind bytes)
  allocate := fun {size} _ => h.follows (allocFrame_retains size)
  leave := h.follows popFrame_retains
  native := fun callee args => h.follows (callNative_retains callee args)
  depth := Nat.le_refl _
  overflow := fun _ _ => .inr ⟨rfl, trivial⟩
  cached := by
    rintro s _ id v ⟨rfl, _⟩ hv
    exact hv
  cache := by
    rintro s _ s' _ id c budget made ⟨rfl, _⟩ hmissing hc hmade ⟨rfl, hordered, hs'⟩
    exact ⟨rfl, hordered, h.make hmissing hc hmade hs'⟩
  remake := by
    rintro s _ id v ⟨rfl, _⟩ hmissing hcached
    rw [hmissing] at hcached
    cases hcached

end Invariant

/-! ## Registering -/

/-- New storage for a variable is recorded, and its address is one. -/
theorem Exec.backs_of_allocStatic {ty : Ty} {address : Nat}
    (h : allocStatic p .global (List.replicate ty.size 0) s = .ok address t) :
    address < addressLimit ∧ t.memory.Backs address ty := by
  by_cases hempty : ty.size = 0
  · rw [hempty] at h
    cases h
    exact ⟨by decide, .inl hempty⟩
  · have hne : List.replicate ty.size (0 : UInt8) ≠ [] := by simpa using hempty
    have hrecorded := recorded_of_allocStatic hne h
    rw [List.length_replicate] at hrecorded
    have hlimit := p.allocator.lt_limit (allocStatic_eq_ok hne h).1
    exact ⟨by omega, .inr hrecorded⟩

namespace LastingInvariant

open Coupling

/-- Storage that is recorded stays so. -/
theorem backed (h : LastingInvariant p K) (address : Nat) (ty : Ty) :
    LastingInvariant p fun s => K s ∧ s.memory.Backs address ty where
  retain hs hconstants hglobals hinitialized hstatics :=
    ⟨h.retain hs.1 hconstants hglobals hinitialized hstatics,
      hs.2.imp_right fun ha => hstatics ha⟩
  make hmissing hc hmade ht := ⟨h.make hmissing hc hmade ht.1, ht.2⟩
  register hs hg haddress hbacked := ⟨h.register hs.1 hg haddress hbacked, hs.2⟩
  ready hs := ⟨h.ready hs.1, hs.2⟩

variable (h : LastingInvariant p K)

include h

theorem registerGlobal {id : GlobalId} {g : Global} (hg : p.module.global id = .ok g) :
    (keeping K).Follows (Exec.registerGlobal p id g) (Exec.registerGlobal p id g) := by
  rintro s _ ⟨rfl, hordered, hs⟩
  refine (h.sound.place _ _ s s ⟨rfl, hordered, hs⟩).bind fun address t _ hplaced hrel => ?_
  obtain ⟨rfl, hordered', ht⟩ := hrel
  obtain ⟨hlimit, hbacked⟩ := backs_of_allocStatic hplaced
  -- From here on the storage is there, whatever the initial value does.
  have h' := h.backed address g.ty
  have registers : (keeping fun s => K s ∧ s.memory.Backs address g.ty).Follows
      (modify fun s => { s with globals := s.globals.insert id (g.reference id address) })
      (modify fun s => { s with globals := s.globals.insert id (g.reference id address) }) := by
    rintro u _ ⟨rfl, hu⟩
    exact .ok _ ⟨rfl, hu.1, h'.register hu.2 hg hlimit hu.2.2⟩
  have weaken {x : Exec Unit} (hx : (keeping fun s => K s ∧ s.memory.Backs address g.ty).Follows x x) :
      (keeping K).Matches (x t) (x t) := by
    obtain ⟨_, hu, hK⟩ := rel_of_keeping_matches (hx t t ⟨rfl, hordered', ht, hbacked⟩)
    exact keeping_matches ⟨rfl, hu, hK.1⟩
  apply weaken
  cases g.init with
  | none => exact registers
  | some init =>
    refine Coupling.Follows.bind (fun u w huw => ?_) fun v => ?_
    · exact h'.sound.inContext _ (h'.sound.constOperand init u w huw)
    · exact (h'.sound.lift _).bind fun _ => (h'.sound.store _ _).bind fun _ => registers

theorem lasting : (keeping K).Lasting p p.config where
  toSound := h.toInvariant.sound
  globalInit := rfl
  register := h.registerGlobal
  route := by
    rintro s _ aliases ⟨rfl, hordered, hs⟩
    exact ⟨rfl, hordered, h.retain hs rfl rfl rfl fun _ ha => ha⟩
  ready := by
    rintro s _ ⟨rfl, hordered, hs⟩
    exact ⟨rfl, hordered, h.ready hs⟩

/-! ## Sessions -/

theorem perform {r : Request} (howned : OwnsStack s) (hs : (keeping K).rel s s)
    (hends : Ends (r.perform p) s t) : (keeping K).rel t t := by
  rw [← hends.after_eq]
  apply rel_of_keeping_matches
  cases r with
  | setUp fuel => exact h.lasting.setUp howned hs fuel
  | run fuel id args =>
    exact (h.lasting.runFunction howned hs fuel id args).bind fun _ _ _ _ hrel => .ok _ hrel
  | compile id => exact (h.sound.compileFunction id s s hs).bind fun _ _ _ _ hrel => .ok _ hrel

theorem idle (hfresh : K {}) (hs : Idle p s) : (keeping K).rel s s := by
  induction hs with
  | fresh => exact ⟨rfl, AllocMap.ordered_empty, hfresh⟩
  | performed r hidle hends ih => exact h.perform (OwnsStack.fresh.moves hidle.moves) ih hends
  | prepared _ hprepare ih =>
    rw [← after_of_ok hprepare]
    exact rel_of_keeping_matches (h.lasting.preparation _ _ ih)

theorem reachable_rel (hfresh : K {}) (hs : Reachable p s) : (keeping K).rel s s := by
  induction hs with
  | idle hidle => exact h.idle hfresh hidle
  | entered id args hidle hstart =>
    rw [← after_of_ok hstart]
    exact rel_of_keeping_matches (h.sound.startCall id args _ _ (h.idle hfresh hidle))
  | evaluated os _ ih => exact rel_of_keeping_matches (h.sound.operands os _ _ ih)
  | stepped _ ih => exact rel_of_keeping_matches (h.sound.step 0 _ _ ih)

/-- An invariant that holds at the start holds in every state of a session. -/
theorem reachable (hfresh : K {}) (hs : Reachable p s) : K s := (h.reachable_rel hfresh hs).2.2

end LastingInvariant

end PackedIR
