/-
What evaluating operands can do to a state.

Operands are evaluated all the time, and nearly always they change nothing. When they
do, a constant is used for the first time: its members are made before it, texts and
buffers go into static storage, functions are prepared, and the value is cached.
`Makes p` lists these changes. Every computation that only evaluates moves along it, so
a fact about evaluation is proved once, by induction on `Makes`, and not once for each
instruction. Such a computation changes the state by way of constants alone: it
`Evaluates`, and moves along any other relation too that constants move along.

The case `make` is the reason why `Makes` is not the closure of single changes. A
constant is looked up before its members are made and cached after, and what counts is
that it was missing at the look-up.
-/
import PackedIR.Proofs.Allocations
import PackedIR.Proofs.Values

set_option autoImplicit false

namespace PackedIR

/-! ## Values of constants -/

/-- What is known of a value cached for a constant. A reference to a global variable is cached as
the variable's address, so only the other constants have their declared type. -/
structure Constant.Admits (c : Constant) (v : Value) : Prop where
  typed : (∀ g, c.kind ≠ .globalVar g) → v.HasTy c.ty
  int : ∀ i, c.kind = .int i → v.bytes = Bytes.ofInt c.ty.size i

theorem Constant.admits_of_typed {c : Constant} {v : Value} (hv : v.HasTy c.ty)
    (hkind : ∀ i, c.kind ≠ .int i) : c.Admits v :=
  ⟨fun _ => hv, fun i hi => absurd hi (hkind i)⟩

/-! ## The relation -/

/-- The changes that evaluation can make. -/
inductive Makes (p : Program) : State → State → Prop where
  | refl (s : State) : Makes p s s
  | trans {s t u : State} : Makes p s t → Makes p t u → Makes p s u
  /-- Bytes go into new static storage. -/
  | place {s : State} {address : Nat} (kind : AllocKind) (bytes : Bytes) {statics : AllocMap}
      (nonempty : bytes ≠ [])
      (room : p.allocator.place s.memory.ledger bytes.length = some address)
      (recorded : s.memory.statics.insert ⟨address, bytes.length, kind⟩ = .ok statics) :
      Makes p s { s with memory :=
        { (s.memory.claim address bytes.length).put address bytes with statics } }
  /-- An entry of the string pool gets its address. -/
  | intern {s : State} (id : StringId) (address : Nat) (missing : s.strings.get? id = none) :
      Makes p s { s with strings := s.strings.insert id address }
  /-- A function is prepared. -/
  | prepare {s : State} (id : FuncId) {f : Function} (found : p.module.function id = .ok f)
      (missing : id ∉ s.compiled) (terminated : f.unterminated? = none)
      (room : id.index < FuncId.limit) :
      Makes p s { s with compiled := id :: s.compiled }
  /-- A constant that is missing in `s` is made, by way of `t`, and cached. -/
  | make {s t : State} (id : ConstId) {c : Constant} (v : Value)
      (found : p.module.constant id = .ok c) (missing : s.constants.get? id = none)
      (members : Makes p s t) (admitted : c.Admits v) :
      Makes p s { t with constants := t.constants.insert id v }

namespace Makes

variable {p : Program} {s t : State}

instance : Std.Refl (Makes p) := ⟨.refl⟩

instance : IsTrans State (Makes p) := ⟨fun _ _ _ => .trans⟩

/-- Evaluation leaves the frames alone. -/
theorem frames_eq (h : Makes p s t) : t.frames = s.frames := by
  induction h with
  | trans _ _ ih₁ ih₂ => rw [ih₂, ih₁]
  | make _ _ _ _ _ _ ih => exact ih
  | refl | place | intern | prepare => rfl

/-- Evaluation leaves the map of frame storage alone. -/
theorem stack_eq (h : Makes p s t) : t.memory.stack = s.memory.stack := by
  induction h with
  | trans _ _ ih₁ ih₂ => rw [ih₂, ih₁]
  | make _ _ _ _ _ _ ih => exact ih
  | refl | place | intern | prepare => rfl

/-- What is cached stays cached. -/
theorem constants_get? (h : Makes p s t) {id : ConstId} {v : Value}
    (hv : s.constants.get? id = some v) : t.constants.get? id = some v := by
  induction h with
  | trans _ _ ih₁ ih₂ => exact ih₂ (ih₁ hv)
  | make id' w _ missing _ _ ih =>
    -- A constant that is cached is not the one that is made, which was missing.
    have hne : id ≠ id' := by
      rintro rfl
      rw [missing] at hv
      cases hv
    rw [Table.get?_insert, if_neg hne]
    exact ih hv
  | refl | place | intern | prepare => exact hv

end Makes

namespace Exec

variable {α β : Type} {p : Program}

/-! ## Static storage -/

theorem findRoom_eq (size : Nat) (s : State) :
    findRoom p size s = match p.allocator.place s.memory.ledger size with
      | some address => .ok address s
      | none => .error (.fault .outOfAddresses) s := by
  unfold findRoom
  rw [bind_of_ok (get_apply s)]
  cases p.allocator.place s.memory.ledger size <;> rfl

theorem allocStatic_of_none (kind : AllocKind) {bytes : Bytes} {s : State} (hne : bytes ≠ [])
    (h : p.allocator.place s.memory.ledger bytes.length = none) :
    allocStatic p kind bytes s = .error (.fault .outOfAddresses) s := by
  unfold allocStatic
  rw [if_neg (by simpa using hne), bind_apply, findRoom_eq, h]

/-- Static storage is placed where there is room, and recorded. -/
theorem allocStatic_of_some {kind : AllocKind} {bytes : Bytes} {s : State} {address : Nat}
    {statics : AllocMap} (hne : bytes ≠ [])
    (h : p.allocator.place s.memory.ledger bytes.length = some address)
    (hrecorded : s.memory.statics.insert ⟨address, bytes.length, kind⟩ = .ok statics) :
    allocStatic p kind bytes s = .ok address { s with memory :=
      { (s.memory.claim address bytes.length).put address bytes with statics } } := by
  unfold allocStatic
  rw [if_neg (by simpa using hne), bind_apply, findRoom_eq, h]
  dsimp only
  rw [bind_of_ok (get_apply s), hrecorded]
  rfl

/-- New static storage is where the allocator has found room, and holds the given bytes. -/
theorem allocStatic_eq_ok {kind : AllocKind} {bytes : Bytes} {s t : State} {address : Nat}
    (hne : bytes ≠ []) (h : allocStatic p kind bytes s = .ok address t) :
    p.allocator.place s.memory.ledger bytes.length = some address ∧
      ∃ statics, s.memory.statics.insert ⟨address, bytes.length, kind⟩ = .ok statics ∧
        t = { s with memory :=
          { (s.memory.claim address bytes.length).put address bytes with statics } } := by
  cases hroom : p.allocator.place s.memory.ledger bytes.length with
  | none =>
    rw [allocStatic_of_none kind hne hroom] at h
    cases h
  | some address' =>
    -- What the allocator chooses can be recorded.
    obtain ⟨statics, hrecorded⟩ := Allocator.exists_insert_statics hroom kind
    rw [allocStatic_of_some hne hroom hrecorded] at h
    cases h
    exact ⟨rfl, statics, hrecorded, rfl⟩

/-- All that can fail is that there is no room, and then nothing has happened. -/
theorem allocStatic_eq_error {kind : AllocKind} {bytes : Bytes} {s t : State} {e : Failure}
    (h : allocStatic p kind bytes s = .error e t) : e = .fault .outOfAddresses ∧ t = s := by
  by_cases hne : bytes = []
  · subst hne
    cases h
  · cases hroom : p.allocator.place s.memory.ledger bytes.length with
    | none =>
      rw [allocStatic_of_none kind hne hroom] at h
      cases h
      exact ⟨rfl, rfl⟩
    | some address =>
      obtain ⟨statics, hrecorded⟩ := Allocator.exists_insert_statics hroom kind
      rw [allocStatic_of_some hne hroom hrecorded] at h
      cases h

/-- Static storage is placed along what changes with its being recorded and filled. -/
theorem allocStatic_along {R : State → State → Prop} [Std.Refl R] {kind : AllocKind} {bytes : Bytes}
    (h : ∀ {s : State} {address : Nat} {statics : AllocMap}, bytes ≠ [] →
      p.allocator.place s.memory.ledger bytes.length = some address →
      s.memory.statics.insert ⟨address, bytes.length, kind⟩ = .ok statics →
      R s { s with memory :=
        { (s.memory.claim address bytes.length).put address bytes with statics } }) :
    Along R (allocStatic p kind bytes) := by
  intro s
  by_cases hne : bytes = []
  · subst hne
    exact refl_of R s
  · cases hx : allocStatic p kind bytes s with
    | ok address t =>
      obtain ⟨hroom, statics, hrecorded, rfl⟩ := allocStatic_eq_ok hne hx
      rw [after_of_ok hx]
      exact h hne hroom hrecorded
    | error e t =>
      obtain ⟨_, rfl⟩ := allocStatic_eq_error hx
      rw [after_of_error hx]
      exact refl_of R t

theorem allocStatic_makes (kind : AllocKind) (bytes : Bytes) :
    Along (Makes p) (allocStatic p kind bytes) :=
  allocStatic_along fun hne hroom hrecorded => .place kind bytes hne hroom hrecorded

theorem placeText_makes (text : String) : Along (Makes p) (placeText p text) :=
  allocStatic_makes _ _

/-! ## Functions, strings and constants -/

theorem compileFunction_makes (id : FuncId) : Along (Makes p) (compileFunction p id) := by
  refine fun s => after_bind ((reads_liftFault _).along s) fun f u hf => ?_
  obtain ⟨hfound, rfl⟩ := liftFault_eq_ok_iff.mp hf
  -- A function is prepared once.
  rw [after, bind_of_ok (get_apply u), ← after]
  split
  · exact .refl u
  · rename_i hmissing
    split
    · exact (reads_lift _).along u
    · rename_i hterminated
      by_cases hlimit : FuncId.limit ≤ id.index
      · simp only [if_pos hlimit]
        exact .refl u
      · simp only [if_neg hlimit]
        exact .prepare id hfound hmissing hterminated (by omega)

theorem globalString_makes (id : StringId) : Along (Makes p) (globalString p id) := by
  intro s
  unfold globalString
  rw [after, bind_of_ok (get_apply s), ← after]
  split
  · exact .refl s
  · rename_i hmissing
    refine after_bind ((reads_liftFault _).along s) fun text u htext => ?_
    obtain ⟨_, rfl⟩ := liftFault_eq_ok_iff.mp htext
    refine after_bind (placeText_makes text u) fun address t hplaced => ?_
    -- Placing the text has not given the entry an address.
    have hstrings : t.strings = u.strings := by
      obtain ⟨_, _, _, rfl⟩ := allocStatic_eq_ok (by simp) hplaced
      rfl
    exact .intern id address (by rw [hstrings]; exact hmissing)

section Members

variable {R : State → State → Prop} [Std.Refl R] [IsTrans State R] {operand : ConstId → Exec Value}
  (h : ∀ id, Along R (operand id))

include h

theorem constants_along (ids : List ConstId) : Along R (constants operand ids) := by
  induction ids with
  | nil => exact (reads_pure _).along
  | cons id ids ih => exact (h id).bind fun v => ih.bind fun vs => (reads_pure _).along

/-- A constant is made along what its members, texts, buffers and functions are made along. -/
theorem materialize_along (hplace : ∀ kind bytes, Along R (allocStatic p kind bytes))
    (hintern : ∀ id, Along R (globalString p id)) (hprepare : ∀ id, Along R (compileFunction p id))
    (c : Constant) : Along R (materialize p operand c) := by
  obtain ⟨ty, kind⟩ := c
  cases kind with
  | int | float | bool => exact (reads_lift _).along
  | zero => exact (reads_pure _).along
  | text => exact (hplace _ _).bind fun _ => (reads_lift _).along
  | globalString id => exact (hintern id).bind fun _ => (reads_lift _).along
  | bitcast inner => exact (h inner).bind fun _ => (reads_lift _).along
  | array | tuple | enumCase | slice | parts =>
    exact (constants_along h _).bind fun _ => (reads_lift _).along
  | owned array => exact (h array).bind fun _ => (hplace _ _).bind fun _ => (reads_lift _).along
  | function id => exact (hprepare id).bind fun _ => (reads_lift _).along
  | globalVar id =>
    refine reads_get.along.bind fun _ => ?_
    split
    · exact (reads_pure _).along
    · exact (reads_liftFault _).along.bind fun _ => (reads_lift _).along

end Members

theorem hasTy_of_concat {ty : Ty} {members : List Value} {v : Value}
    (h : concat ty members = .ok v) : v.HasTy ty :=
  Value.hasTy_of_ofBytes h

theorem hasTy_of_ownedArray {ty : Ty} {address len : Nat} {v : Value}
    (h : ownedArray ty address len = .ok v) : v.HasTy ty := by
  unfold ownedArray at h
  split at h
  · split at h
    · exact hasTy_of_concat h
    · cases h
  · simp at h

/-- What is made for a constant is a value of it. -/
theorem admits_of_materialize {operand : ConstId → Exec Value} {c : Constant} {s t : State}
    {v : Value} (h : materialize p operand c s = .ok v t) : c.Admits v := by
  obtain ⟨ty, kind⟩ := c
  cases kind with
  | int i =>
    have hv := (lift_eq_ok_iff.mp h).1
    exact ⟨fun _ => Value.hasTy_of_ofInt hv, by rintro _ ⟨⟩; rw [Value.ofInt_eq_ok hv]⟩
  | float bits =>
    exact Constant.admits_of_typed (Value.hasTy_of_ofDouble (lift_eq_ok_iff.mp h).1) (by simp)
  | bool b => exact Constant.admits_of_typed (Value.hasTy_of_ofInt (lift_eq_ok_iff.mp h).1) (by simp)
  | zero =>
    cases h
    exact Constant.admits_of_typed (Value.hasTy_zeroed ty) (by simp)
  | text | globalString | function =>
    obtain ⟨_, _, _, h⟩ := bind_eq_ok_iff.mp h
    exact Constant.admits_of_typed (Value.hasTy_of_ofInt (lift_eq_ok_iff.mp h).1) (by simp)
  | bitcast inner =>
    obtain ⟨_, _, _, h⟩ := bind_eq_ok_iff.mp h
    exact Constant.admits_of_typed (Value.hasTy_of_retype (lift_eq_ok_iff.mp h).1) (by simp)
  | array | tuple | enumCase | slice | parts =>
    obtain ⟨_, _, _, h⟩ := bind_eq_ok_iff.mp h
    exact Constant.admits_of_typed (hasTy_of_concat (lift_eq_ok_iff.mp h).1) (by simp)
  | owned array =>
    obtain ⟨_, _, _, h⟩ := bind_eq_ok_iff.mp h
    obtain ⟨_, _, _, h⟩ := bind_eq_ok_iff.mp h
    exact Constant.admits_of_typed (hasTy_of_ownedArray (lift_eq_ok_iff.mp h).1) (by simp)
  -- What is cached is the address of the variable, which need not have the declared type.
  | globalVar g => exact ⟨fun hne => absurd rfl (hne g), by simp⟩

theorem reads_decayConst (id : ConstId) (c : Constant) (v : Value) :
    Reads (decayConst p id c v) := by
  unfold decayConst
  split
  · exact (reads_lift _).bind fun _ => (reads_load p _ _).bind fun _ => reads_pure _
  · exact reads_pure _

/-- A constant as an operand, made with a given budget. -/
def constOperandWith (p : Program) (budget : Nat) (id : ConstId) : Exec Value := do
  let c ← p.module.constant id
  decayConst p id c (← constValueWith p budget id)

/-- A cached constant is looked up. -/
theorem constValueWith_of_cached {id : ConstId} {s : State} {v : Value}
    (h : s.constants.get? id = some v) (budget : Nat) :
    constValueWith p budget id s = .ok v s := by
  cases budget <;>
  · unfold constValueWith
    rw [bind_of_ok (get_apply s)]
    simp only [h, pure_apply]

/-- A constant that is not in the cache is made from its members, and cached. -/
theorem constValueWith_of_missing {budget : Nat} {id : ConstId} {s : State}
    (hmissing : s.constants.get? id = none) :
    constValueWith p (budget + 1) id s = (do
      let c ← p.module.constant id
      let made ← within (.materializing id) (materialize p (constOperandWith p budget) c)
      modify fun s => { s with constants := s.constants.insert id (made.withOrigin (.const id)) }
      return made.withOrigin (.const id) : Exec Value) s := by
  rw [constValueWith, bind_of_ok (get_apply s), hmissing]
  rfl

/-- What makes evaluation move along a relation. -/
structure Tracks (p : Program) (R : State → State → Prop) : Prop where
  place : ∀ kind bytes, Along R (allocStatic p kind bytes)
  intern : ∀ id, Along R (globalString p id)
  prepare : ∀ id, Along R (compileFunction p id)
  /-- A constant that was missing in `s` has been made, which has led to `t`, and is cached. -/
  cache : ∀ {s t : State} {id : ConstId} {c : Constant} {budget : Nat} {made : Value},
    s.constants.get? id = none → p.module.constant id = .ok c →
    materialize p (constOperandWith p budget) c s = .ok made t → R s t →
    R s { t with constants := t.constants.insert id (made.withOrigin (.const id)) }

theorem Tracks.constValueWith {R : State → State → Prop} [Std.Refl R] [IsTrans State R]
    (h : Tracks p R) (budget : Nat) (id : ConstId) : Along R (constValueWith p budget id) := by
  induction budget generalizing id with
  | zero =>
    refine reads_get.along.bind fun _ => ?_
    split
    · exact (reads_pure _).along
    · exact (reads_throw _).along
  | succ budget ih =>
    intro s
    cases hcached : s.constants.get? id with
    | some v =>
      rw [after_of_ok (constValueWith_of_cached hcached _)]
      exact refl_of R s
    | none =>
      rw [after_congr (constValueWith_of_missing hcached)]
      refine after_bind ((reads_liftFault _).along s) fun c u hc => ?_
      obtain ⟨hfound, rfl⟩ := liftFault_eq_ok_iff.mp hc
      have hmembers (m : ConstId) : Along R (constOperandWith p budget m) :=
        (reads_liftFault _).along.bind fun _ => (ih m).bind fun _ => (reads_decayConst _ _ _).along
      have hmade := materialize_along hmembers h.place h.intern h.prepare c u
      rw [← after_within (.materializing id)] at hmade
      -- What is known of the value is known where its making began.
      rw [after, bind_apply]
      cases hwithin :
          within (.materializing id) (materialize p (constOperandWith p budget) c) u with
      | error e t =>
        rw [after_of_error hwithin] at hmade
        exact hmade
      | ok made t =>
        rw [after_of_ok hwithin] at hmade
        exact h.cache hcached hfound (within_eq_ok_iff.mp hwithin) hmade

theorem constValueWith_makes (budget : Nat) (id : ConstId) :
    Along (Makes p) (constValueWith p budget id) := by
  refine Tracks.constValueWith
    ⟨allocStatic_makes, globalString_makes, compileFunction_makes, ?_⟩ budget id
  -- Caching is part of the one move that starts at the look-up.
  intro s t id c budget made hmissing hfound hmade hst
  have hadmits := admits_of_materialize hmade
  exact .make id (made.withOrigin (.const id)) hfound hmissing hst ⟨hadmits.1, hadmits.2⟩

/-- A constant that has been evaluated is in the cache. -/
theorem constants_get?_of_constValueWith {budget : Nat} {id : ConstId} {s t : State} {v : Value}
    (h : constValueWith p budget id s = .ok v t) : t.constants.get? id = some v := by
  -- The constant was in the cache, or it has been made and put there.
  cases hcached : s.constants.get? id with
  | some w =>
    rw [constValueWith_of_cached hcached] at h
    cases h
    exact hcached
  | none =>
    cases budget with
    | zero =>
      unfold constValueWith at h
      rw [bind_of_ok (get_apply s)] at h
      simp only [hcached, throw_apply] at h
      cases h
    | succ budget =>
      unfold constValueWith at h
      rw [bind_of_ok (get_apply s)] at h
      simp only [hcached, bind_eq_ok_iff] at h
      obtain ⟨c, _, _, made, u, _, _, _, hmod, h⟩ := h
      cases hmod
      cases h
      simp

theorem constValue_makes (id : ConstId) : Along (Makes p) (constValue p id) :=
  constValueWith_makes _ _

/-! ## Operands

Whatever else is evaluated changes the state by way of constants only. -/

/-- The computation moves along every relation that constants move along. -/
def Evaluates (p : Program) (x : Exec α) : Prop :=
  ∀ (R : State → State → Prop) [Std.Refl R] [IsTrans State R],
    (∀ id, Along R (constValue p id)) → Along R x

theorem Evaluates.bind {x : Exec α} {f : α → Exec β} (hx : Evaluates p x)
    (hf : ∀ a, Evaluates p (f a)) : Evaluates p (x >>= f) :=
  fun R _ _ hR => (hx R hR).bind fun a => hf a R hR

theorem Tracks.evaluates {R : State → State → Prop} [Std.Refl R] [IsTrans State R] {x : Exec α}
    (h : Tracks p R) (hx : Evaluates p x) : Along R x :=
  hx R (h.constValueWith _)

theorem Evaluates.makes {x : Exec α} (h : Evaluates p x) : Along (Makes p) x :=
  h (Makes p) constValue_makes

theorem Reads.evaluates {x : Exec α} (h : Reads x) : Evaluates p x := fun _ _ _ _ => h.along

theorem constValue_evaluates (id : ConstId) : Evaluates p (constValue p id) :=
  fun _ _ _ hR => hR id

theorem constOperand_evaluates (id : ConstId) : Evaluates p (constOperand p id) :=
  (reads_liftFault _).evaluates.bind fun _ => (constValue_evaluates id).bind fun _ =>
    (reads_decayConst _ _ _).evaluates

theorem localOperand_reads (l : Local) : Reads (localOperand p l) := by
  refine reads_frame.bind fun fr => (reads_liftFault _).bind fun f => ?_
  split
  · exact reads_lift _
  · split
    · exact (reads_lift _).bind fun _ => (reads_load p _ _).bind fun _ => reads_pure _
    · exact reads_pure _

theorem operand_evaluates (o : Operand) : Evaluates p (operand p o) := by
  cases o with
  | «local» l => exact (localOperand_reads l).evaluates
  | const id => exact constOperand_evaluates id
  | block | type => exact (reads_lift _).evaluates

theorem operands_evaluates (os : List Operand) : Evaluates p (operands p os) := by
  induction os with
  | nil => exact (reads_pure _).evaluates
  | cons o os ih =>
    exact (operand_evaluates o).bind fun _ => ih.bind fun _ => (reads_pure _).evaluates

theorem operandAddress_evaluates (o : Operand) : Evaluates p (operandAddress p o) := by
  cases o with
  | «local» l =>
    refine reads_frame.evaluates.bind fun fr => (reads_liftFault _).evaluates.bind fun f => ?_
    split
    · exact (reads_lift _).evaluates
    · exact (reads_lift _).evaluates.bind fun _ => (reads_pure _).evaluates
    · exact (reads_lift _).evaluates
  | const id =>
    refine (reads_liftFault _).evaluates.bind fun c => ?_
    split
    · exact (constValue_evaluates id).bind fun _ => (reads_lift _).evaluates.bind fun _ =>
        (reads_pure _).evaluates
    · exact (reads_lift _).evaluates
  | block | type => exact (reads_lift _).evaluates

theorem constIndex_reads (o : Operand) : Reads (constIndex p o) := by
  cases o with
  | const id =>
    refine (reads_liftFault _).bind fun c => ?_
    split
    · split
      · exact reads_pure _
      · exact reads_lift _
    · exact reads_lift _
  | «local» | block | type => exact reads_lift _

theorem integerOperand_evaluates (activity : Activity) (o : Operand) :
    Evaluates p (integerOperand p activity o) := by
  refine (operand_evaluates o).bind fun v => ?_
  split
  · split
    · exact (reads_pure _).evaluates
    · exact (reads_lift _).evaluates
  · exact (reads_lift _).evaluates

theorem pointerOperand_evaluates (o : Operand) : Evaluates p (pointerOperand p o) := by
  refine (operand_evaluates o).bind fun v => ?_
  split
  · exact (reads_lift _).evaluates.bind fun _ => (reads_pure _).evaluates
  · exact (reads_lift _).evaluates

theorem boolOperand_evaluates (o : Operand) : Evaluates p (boolOperand p o) := by
  refine (operand_evaluates o).bind fun v => ?_
  split
  · split
    · exact (reads_pure _).evaluates
    · exact (reads_lift _).evaluates
  · exact (reads_lift _).evaluates

theorem containerOperand_evaluates (container : Container) (op : Opcode) (o : Operand) :
    Evaluates p (containerOperand p container op o) := by
  refine (operand_evaluates o).bind fun v => ?_
  split
  · exact (reads_pure _).evaluates
  · exact (reads_lift _).evaluates

/-! ## Instructions that only evaluate -/

theorem fieldAccess_evaluates (inst : Instruction) (field : Field) (write : Bool)
    (aggregate : Operand) (rest : List Operand) :
    Evaluates p (fieldAccess p inst field write aggregate rest) := by
  refine (containerOperand_evaluates _ _ _).bind fun v => (reads_lift _).evaluates.bind fun m => ?_
  split
  · exact (reads_lift _).evaluates
  · exact (operand_evaluates _).bind fun _ => (reads_lift _).evaluates
  · exact (reads_lift _).evaluates

theorem unionSetValue_evaluates (op : Opcode) (union variant value : Operand) :
    Evaluates p (unionSetValue p op union variant value) :=
  (containerOperand_evaluates _ _ _).bind fun _ => (constIndex_reads _).evaluates.bind fun _ =>
    (reads_lift _).evaluates.bind fun _ => (operand_evaluates _).bind fun _ =>
      (reads_lift _).evaluates.bind fun _ => (reads_lift _).evaluates

theorem aggregate_evaluates (inst : Instruction) : Evaluates p (aggregate p inst) := by
  unfold aggregate
  split
  · exact (operand_evaluates _).bind fun _ => (operand_evaluates _).bind fun _ =>
      (constIndex_reads _).evaluates.bind fun _ => (reads_lift _).evaluates.bind fun _ =>
        (reads_lift _).evaluates
  · exact (operand_evaluates _).bind fun _ => (constIndex_reads _).evaluates.bind fun _ =>
      (reads_lift _).evaluates.bind fun _ => (reads_lift _).evaluates
  · exact (containerOperand_evaluates _ _ _).bind fun _ => (reads_lift _).evaluates
  · exact (containerOperand_evaluates _ _ _).bind fun _ =>
      (integerOperand_evaluates _ _).bind fun _ => (reads_lift _).evaluates
  · exact (containerOperand_evaluates _ _ _).bind fun _ =>
      (constIndex_reads _).evaluates.bind fun _ => (reads_lift _).evaluates.bind fun _ =>
        (reads_lift _).evaluates
  · exact unionSetValue_evaluates _ _ _ _
  · exact fieldAccess_evaluates _ _ _ _ _
  · exact fieldAccess_evaluates _ _ _ _ _
  · exact (reads_lift _).evaluates
  · exact (reads_lift _).evaluates

theorem getPointer_evaluates (ptr index : Operand) : Evaluates p (getPointer p ptr index) := by
  refine (operand_evaluates _).bind fun base => ?_
  split
  · exact (reads_lift _).evaluates
  · exact (integerOperand_evaluates _ _).bind fun _ => (reads_lift _).evaluates.bind fun _ =>
      (reads_pure _).evaluates

theorem getGep2_evaluates (ptr first second : Operand) :
    Evaluates p (getGep2 p ptr first second) := by
  refine (pointerOperand_evaluates _).bind fun place => ?_
  obtain ⟨base, array⟩ := place
  dsimp only
  split
  · exact (reads_lift _).evaluates
  · exact (integerOperand_evaluates _ _).bind fun _ => (integerOperand_evaluates _ _).bind fun _ =>
      (reads_pure _).evaluates

theorem getStructMember_evaluates (lvalue index : Operand) :
    Evaluates p (getStructMember p lvalue index) :=
  (operandAddress_evaluates _).bind fun _ => (constIndex_reads _).evaluates.bind fun _ =>
    (reads_lift _).evaluates.bind fun _ => (reads_liftFault _).evaluates.bind fun _ =>
      (reads_pure _).evaluates

theorem getPointerToStructMember_evaluates (ptr ptrIndex index : Operand) :
    Evaluates p (getPointerToStructMember p ptr ptrIndex index) :=
  (pointerOperand_evaluates _).bind fun _ => (constIndex_reads _).evaluates.bind fun _ =>
    (reads_lift _).evaluates.bind fun _ => (integerOperand_evaluates _ _).bind fun _ =>
      (reads_liftFault _).evaluates.bind fun _ => (reads_pure _).evaluates

theorem select_evaluates (cond onTrue onFalse : Operand) :
    Evaluates p (select p cond onTrue onFalse) := by
  refine (operand_evaluates _).bind fun c => ?_
  split
  · exact operand_evaluates _
  · exact operand_evaluates _
  · exact (reads_lift _).evaluates

theorem returnValue_evaluates (f : Function) (inst : Instruction) :
    Evaluates p (returnValue p f inst) := by
  refine (reads_liftFault _).evaluates.bind fun sig => ?_
  split
  · exact (reads_pure _).evaluates
  · exact (operand_evaluates _).bind fun _ => (reads_lift _).evaluates.bind fun _ =>
      (reads_pure _).evaluates
  · exact (reads_lift _).evaluates

theorem phi_evaluates (f : Function) (inst : Instruction) : Evaluates p (phi p f inst) := by
  refine reads_frame.evaluates.bind fun fr => ?_
  split
  · exact (reads_lift _).evaluates
  · refine (reads_lift _).evaluates.bind fun chosen => ?_
    split
    · exact operand_evaluates _
    · exact (reads_lift _).evaluates

theorem branchTarget_reads (inst : Instruction) : Reads (branchTarget inst) := by
  unfold branchTarget
  split <;> exact reads_lift _

theorem condBranchTarget_evaluates (inst : Instruction) :
    Evaluates p (condBranchTarget p inst) := by
  unfold condBranchTarget
  split
  · refine (boolOperand_evaluates _).bind fun b => ?_
    split <;> exact (reads_lift _).evaluates
  · exact (reads_lift _).evaluates

theorem unary_evaluates (inst : Instruction) (op : UnaryOp) : Evaluates p (unary p inst op) := by
  unfold unary
  split
  · exact (operand_evaluates _).bind fun _ => (reads_lift _).evaluates
  · exact (reads_lift _).evaluates

theorem cast_evaluates (inst : Instruction) (op : CastOp) : Evaluates p (cast p inst op) := by
  unfold cast
  split
  · exact (operand_evaluates _).bind fun _ => (reads_lift _).evaluates
  · exact (reads_lift _).evaluates

theorem binary_evaluates (f : Function) (inst : Instruction) (op : BinaryOp) :
    Evaluates p (binary p f inst op) := by
  unfold binary
  split
  · refine (operand_evaluates _).bind fun _ => (operand_evaluates _).bind fun _ =>
      (reads_lift _).evaluates.bind fun _ => ?_
    split
    · exact (reads_lift _).evaluates.bind fun _ => (reads_lift _).evaluates
    · exact (reads_lift _).evaluates.bind fun _ => (reads_lift _).evaluates
    · exact (reads_pure _).evaluates
  · exact (reads_lift _).evaluates

theorem methodPointer_reads (object : Nat) (index : Int) (fnTy : Ty) :
    Reads (methodPointer p object index fnTy) :=
  (reads_load p _ _).bind fun _ => (reads_lift _).bind fun _ => reads_load p _ _

/-! ## Evaluation as moves -/

theorem constOperand_makes (id : ConstId) : Along (Makes p) (constOperand p id) :=
  (constOperand_evaluates id).makes

theorem operand_makes (o : Operand) : Along (Makes p) (operand p o) := (operand_evaluates o).makes

theorem operands_makes (os : List Operand) : Along (Makes p) (operands p os) :=
  (operands_evaluates os).makes

theorem operandAddress_makes (o : Operand) : Along (Makes p) (operandAddress p o) :=
  (operandAddress_evaluates o).makes

theorem integerOperand_makes (activity : Activity) (o : Operand) :
    Along (Makes p) (integerOperand p activity o) :=
  (integerOperand_evaluates activity o).makes

theorem pointerOperand_makes (o : Operand) : Along (Makes p) (pointerOperand p o) :=
  (pointerOperand_evaluates o).makes

theorem aggregate_makes (inst : Instruction) : Along (Makes p) (aggregate p inst) :=
  (aggregate_evaluates inst).makes

end Exec

end PackedIR
