/-
Members of constants come back.

A composite constant is made once, by laying its members out back to back, and is then looked up. A
member is taken out of it by number or, for a container, by the name of a field. If the member
constants have the sizes of the members of the layout, what comes out are the bytes that the member
had as an operand when the composite was made, whenever that was: the cache never forgets. The
members of members come out in the same way, one instruction for each step of the path.

An owned dynamic array is different in that its elements are copied once more, into storage that
nothing else has or had. There they can be read until somebody writes to them.
-/
import PackedIR.Proofs.Access
import PackedIR.Proofs.Composites
import PackedIR.Proofs.Liveness

set_option autoImplicit false

namespace PackedIR

variable {p : Program} {s t u : State} {f : Function} {fr : Frame} {rest : List Frame}
  {id : ConstId} {c : Constant} {members : List ConstId} {vs : List Value} {v w : Value}
  {ty : Ty} {i : Nat} {o : Operand} {inst : Instruction} {l : Local}

/-! ## Slots of frames -/

/-- The frame has a slot for each local of its function. -/
def Frame.HasSlots (fr : Frame) (m : Module) : Prop :=
  ∃ f, m.function fr.function = .ok f ∧ fr.locals.size = f.locals.size

/-- Replacing the innermost frame by one with as many slots leaves the others as they are. -/
theorem hasSlots_replace {fr' : Frame} (hs : ∀ g ∈ s.frames, g.HasSlots p.module)
    (hfr : s.frames = fr :: rest) (hfun : fr'.function = fr.function)
    (hsize : fr'.locals.size = fr.locals.size) : ∀ g ∈ fr' :: rest, g.HasSlots p.module := by
  rw [hfr] at hs
  intro g hg
  rcases List.mem_cons.mp hg with rfl | hg
  · obtain ⟨f, hf, hslots⟩ := hs fr List.mem_cons_self
    exact ⟨f, by rw [hfun, hf], by rw [hsize, hslots]⟩
  · exact hs g (List.mem_cons_of_mem _ hg)

theorem Moves.hasSlots (h : Moves p s t) (hs : ∀ g ∈ s.frames, g.HasSlots p.module) :
    ∀ g ∈ t.frames, g.HasSlots p.module := by
  induction h with
  | prepares h =>
    rw [h.frames_eq]
    exact hs
  | trans _ _ ih₁ ih₂ => exact ih₂ (ih₁ hs)
  | allocates h =>
    cases h with
    | intro hfr _ _ _ => exact hasSlots_replace hs hfr rfl rfl
  | enters id h =>
    cases h with
    | @intro f sig args fr hfound _ _ _ hbound =>
      obtain ⟨locals, hsize, rfl⟩ := bindArgs_shape hbound
      intro g hg
      rcases List.mem_cons.mp hg with rfl | hg
      · exact ⟨f, hfound, hsize.trans Array.size_replicate⟩
      · exact hs g hg
  | leaves h =>
    cases h with
    | intro hfr _ =>
      intro g hg
      exact hs g (by rw [hfr]; exact List.mem_cons_of_mem _ hg)
  | bind hfr _ _ _ => exact hasSlots_replace hs hfr rfl Array.size_setIfInBounds
  | goto hfr _ _ _ _ => exact hasSlots_replace hs hfr rfl rfl

/-! ## Taking a member out -/

/-- The instruction takes member `i` out of an operand of type `ty`: by a constant number, or as
the field of a container that lies in this slot. -/
inductive Accessor (p : Program) (ty : Ty) (i : Nat) (o : Operand) : Instruction → Prop where
  | extract {index : ConstId} {indexTy : Ty} (result : Option Local)
      (indexed : p.module.constant index = .ok ⟨indexTy, .int i⟩) (inRange : i < addressLimit) :
      Accessor p ty i o ⟨.extractValue, [o, .const index], result⟩
  | field {field : Field} (result : Option Local) (accepts : field.container.accepts ty = true)
      (slot : field.slot = i) : Accessor p ty i o ⟨.getField field, [o], result⟩

theorem memberOf_eq {m : Member} (hm : (Layout.of ty).member? i = some m) :
    memberOf ty i = .ok m := by
  unfold memberOf
  rw [hm]

theorem Exec.containerOperand_eq {container : Container} (op : Opcode)
    (ho : operand p o s = .ok v t) (haccepts : container.accepts v.ty = true) :
    containerOperand p container op o s = .ok v t := by
  unfold containerOperand
  rw [bind_of_ok ho, if_pos haccepts]
  rfl

/-- When the operand has been evaluated, nothing is left to do but to look the member up. -/
theorem Accessor.aggregate_eq (h : Accessor p v.ty i o inst) (ho : Exec.operand p o s = .ok v t) :
    Exec.aggregate p inst s =
      (liftM (do v.getMember (← memberOf v.ty i) : Result Value) : Exec Value) t := by
  cases h with
  | extract result indexed inRange =>
    change (do
      let v ← Exec.operand p o
      let member ← memberOf v.ty (← Exec.constIndex p (.const _))
      v.getMember member : Exec Value) s = _
    rw [Exec.bind_of_ok ho, Exec.bind_of_ok (Exec.constIndex_eq indexed inRange)]
    cases memberOf v.ty i <;> rfl
  | @field field result accepts slot =>
    change (do
      let v ← Exec.containerOperand p field.container (.getField field) o
      let member ← memberOf v.ty field.slot
      v.getMember member : Exec Value) s = _
    rw [Exec.bind_of_ok (Exec.containerOperand_eq _ ho accepts), slot]
    cases memberOf v.ty i <;> rfl

/-- Both kinds of instruction cut the bytes of the member out of those of the operand. -/
theorem Accessor.execute_eq (h : Accessor p v.ty i o inst) (ho : Exec.operand p o s = .ok v t)
    (hsize : v.size = v.ty.size) {m : Member} (hm : (Layout.of v.ty).member? i = some m)
    (f : Function) :
    Exec.execute p f inst s =
      .ok (.complete (some { ty := m.ty, bytes := (v.bytes.drop m.offset).take m.ty.size })) t := by
  have hget : v.getMember m =
      .ok { ty := m.ty, bytes := (v.bytes.drop m.offset).take m.ty.size } := by
    rw [Value.getMember_eq_ok_iff, hsize]
    exact ⟨(Layout.member?_eq_some hm).2.2, rfl⟩
  have haggregate : Exec.aggregate p inst s =
      .ok { ty := m.ty, bytes := (v.bytes.drop m.offset).take m.ty.size } t := by
    rw [h.aggregate_eq ho, memberOf_eq hm]
    change (liftM (v.getMember m) : Exec Value) t = _
    rw [hget]
    rfl
  cases h with
  | extract | field => exact Exec.bind_of_ok haggregate

/-- From an operand that is laid out back to back, a part comes out as it went in. -/
theorem Accessor.execute_part {others : List Value} (h : Accessor p v.ty i o inst)
    (ho : Exec.operand p o s = .ok v t) (hsize : v.size = v.ty.size)
    (hbytes : v.bytes = (vs ++ others).flatMap Value.bytes) (hunion : v.ty.isUnion = false)
    (hsized : (Layout.of v.ty).Sized vs) (hw : vs[i]? = some w) (f : Function) :
    ∃ m, (Layout.of v.ty).member? i = some m ∧ m.ty.size = w.size ∧
      Exec.execute p f inst s = .ok (.complete (some { ty := m.ty, bytes := w.bytes })) t := by
  obtain ⟨m, hm, hmsize⟩ := hsized i w hw
  refine ⟨m, hm, ?_, ?_⟩
  · rw [hmsize, (Layout.member?_eq_some hm).2.1]
  · rw [h.execute_eq ho hsize hm f, hbytes, hsized.part hunion hw hm]

/-! ## Composites that have been made -/

/-- The composite `id` has been made on the way to a state. In `ready` its members had just been
evaluated, to `vs`. -/
inductive Made (p : Program) (id : ConstId) (c : Constant) (members : List ConstId)
    (vs : List Value) (ready : State) : State → Prop where
  | intro {s t u : State} {v : Value} (start : Moves p {} s)
      (found : p.module.constant id = .ok c) (composite : c.kind.members? = some members)
      (missing : s.constants.get? id = none)
      (evaluated : Exec.operands p (members.map .const) s = .ok vs ready)
      (made : Exec.constOperand p id s = .ok v t) (later : Moves p t u) :
      Made p id c members vs ready u

/-- The member constants have the sizes of the members of the type's layout. -/
def Program.Fits (p : Program) (ty : Ty) (members : List ConstId) : Prop :=
  ∀ (i : Nat) (id : ConstId), members[i]? = some id → ∃ c m, p.module.constant id = .ok c ∧
    (Layout.of ty).member? i = some m ∧ c.ty.size = m.size

/-- A composite that is used for the first time is made from its members as operands. -/
theorem Made.of_constOperand (hs : Moves p {} s) (hc : p.module.constant id = .ok c)
    (hmembers : c.kind.members? = some members) (hmissing : s.constants.get? id = none)
    (h : Exec.constOperand p id s = .ok v t) :
    ∃ vs ready, Exec.operands p (members.map .const) s = .ok vs ready ∧
      Made p id c members vs ready t := by
  obtain ⟨made, ready, hmade, _, _⟩ := Exec.materialize_of_constOperand hc
    (ConstKind.ne_globalVar_of_members? hmembers) hmissing h
  obtain ⟨vs, hvs, _⟩ := Exec.materialize_eq_ok_of_members? hmembers hmade
  rw [← Exec.operands_const] at hvs
  exact ⟨vs, ready, hvs, hs, hc, hmembers, hmissing, hvs, h, refl_of (Moves p) t⟩

namespace Made

variable {ready : State}

theorem moves (h : Made p id c members vs ready t) (hmoves : Moves p t u) :
    Made p id c members vs ready u := by
  obtain ⟨start, found, composite, missing, evaluated, made, later⟩ := h
  exact ⟨start, found, composite, missing, evaluated, made, later.trans hmoves⟩

theorem found (h : Made p id c members vs ready u) : p.module.constant id = .ok c := by
  obtain ⟨_, found, _⟩ := h
  exact found

theorem composite (h : Made p id c members vs ready u) : c.kind.members? = some members := by
  obtain ⟨_, _, composite, _⟩ := h
  exact composite

/-- The cache has the members back to back. -/
theorem cached (h : Made p id c members vs ready u) :
    ∃ v, u.constants.get? id = some v ∧ v.HasTy c.ty ∧
      v.bytes = (vs ++ c.kind.trailer).flatMap Value.bytes := by
  obtain ⟨start, found, composite, missing, evaluated, made, later⟩ := h
  have hkind := ConstKind.ne_globalVar_of_members? composite
  have hcached := Exec.cached_of_constOperand found hkind made
  obtain ⟨made, ready', hmade, rfl, _⟩ := Exec.materialize_of_constOperand found hkind missing made
  obtain ⟨vs', hvs', rfl, hsize⟩ := Exec.materialize_eq_ok_of_members? composite hmade
  -- Evaluation is a function, so these are the members that the composite was made of.
  rw [Exec.operands_const, hvs'] at evaluated
  cases evaluated
  exact ⟨_, later.caches.kept _ _ hcached, ⟨rfl, hsize.symm⟩, rfl⟩

theorem length_eq (h : Made p id c members vs ready u) : vs.length = members.length := by
  obtain ⟨start, _, _, _, evaluated, _, _⟩ := h
  rw [Exec.operands_const] at evaluated
  exact (Exec.constants_getElem? start evaluated).1

/-- A member has the type of its constant. If it is no global variable, it was cached by the time
the members had been evaluated. -/
theorem member (h : Made p id c members vs ready u) {d : ConstId} (hd : members[i]? = some d) :
    ∃ w dc, vs[i]? = some w ∧ p.module.constant d = .ok dc ∧ w.HasTy dc.ty ∧
      ((∀ g, dc.kind ≠ .globalVar g) → ready.constants.get? d = some w) := by
  obtain ⟨start, found, composite, missing, evaluated, made, later⟩ := h
  rw [Exec.operands_const] at evaluated
  obtain ⟨w, s', t', hw, hmoves, hoperand, hrest⟩ :=
    (Exec.constants_getElem? start evaluated).2 i d hd
  obtain ⟨dc, _, hlift, _⟩ := Exec.bind_eq_ok_iff.mp hoperand
  obtain ⟨hdc, _⟩ := Exec.liftFault_eq_ok_iff.mp hlift
  refine ⟨w, dc, hw, hdc, ?_, fun hkind => ?_⟩
  · exact Exec.hasTy_of_constOperand_moves (start.trans hmoves) hdc hoperand
  · exact hrest.caches.kept _ _ (Exec.cached_of_constOperand hdc hkind hoperand)

/-- Members of constants that fit have the sizes of the layout. -/
theorem sized (h : Made p id c members vs ready u) (hfits : p.Fits ty members) :
    (Layout.of ty).Sized vs := by
  intro i w hw
  have hlt : i < members.length := by
    rw [← h.length_eq]
    exact (List.getElem?_eq_some_iff.mp hw).1
  have hd := List.getElem?_eq_getElem hlt
  obtain ⟨w', dc, hw', hdc, htyped, _⟩ := h.member hd
  obtain ⟨dc', m, hdc', hm, hsize⟩ := hfits i _ hd
  rw [hw] at hw'
  rw [hdc] at hdc'
  cases hw'
  cases hdc'
  exact ⟨m, hm, by rw [htyped.2, hsize]⟩

end Made

/-! ## Members of members -/

/-- What the constant at the end of a path of members evaluated to, when the composite that it is a
member of was made. The composites on the path were all made on the way to the state. -/
inductive Inside (p : Program) : State → ConstId → List Nat → Value → Prop where
  | member {u ready : State} {id : ConstId} {c : Constant} {members : List ConstId}
      {vs : List Value} {i : Nat} {w : Value} (made : Made p id c members vs ready u)
      (hit : vs[i]? = some w) : Inside p u id [i] w
  | deeper {u ready : State} {id d : ConstId} {c : Constant} {members : List ConstId}
      {vs : List Value} {i : Nat} {path : List Nat} {w : Value}
      (made : Made p id c members vs ready u) (hit : members[i]? = some d)
      (inner : Inside p ready d path w) : Inside p u id (i :: path) w

/-- What has members is no global variable. -/
theorem Inside.kind_ne {path : List Nat} (h : Inside p u id path w)
    (hc : p.module.constant id = .ok c) (g : GlobalId) : c.kind ≠ .globalVar g := by
  cases h with
  | member made _ | deeper made _ _ =>
    have hfound := made.found
    rw [hc] at hfound
    cases hfound
    exact ConstKind.ne_globalVar_of_members? made.composite g

/-- The instruction takes member `i` out of an operand of type `ty`, which is no union and fits the
members of the constant `id`, and binds it to a local of type `result`. -/
structure Takes (p : Program) (f : Function) (o : Operand) (ty : Ty) (id : ConstId) (i : Nat)
    (inst : Instruction) (l : Local) (result : Ty) : Prop where
  accessor : Accessor p ty i o inst
  separate : ty.isUnion = false
  fits : ∀ c members, p.module.constant id = .ok c → c.kind.members? = some members →
    p.Fits ty members
  bound : inst.result = some l
  declared : f.local? l = some ⟨result, false⟩
  sized : ∀ m, (Layout.of ty).member? i = some m → result.size = m.ty.size

/-- The instructions take the member at the end of a path out of an operand that holds the constant
`id` under the type `ty`. Each one takes a member out of what the one before it has bound. -/
inductive Reaches (p : Program) (f : Function) :
    Operand → Ty → ConstId → List Nat → List Instruction → Local → Prop where
  | last {o : Operand} {ty : Ty} {id : ConstId} {i : Nat} {inst : Instruction} {l : Local}
      {result : Ty} (takes : Takes p f o ty id i inst l result) :
      Reaches p f o ty id [i] [inst] l
  | next {o : Operand} {ty : Ty} {id d : ConstId} {c : Constant} {members : List ConstId} {i : Nat}
      {path : List Nat} {inst : Instruction} {insts : List Instruction} {l l' : Local} {result : Ty}
      (takes : Takes p f o ty id i inst l result) (found : p.module.constant id = .ok c)
      (composite : c.kind.members? = some members) (hit : members[i]? = some d)
      (rest : Reaches p f (.local l) result d path insts l') :
      Reaches p f o ty id (i :: path) (inst :: insts) l'

/-- One instruction binds one member. -/
theorem Takes.executes {ready u' : State} {result : Ty} (h : Takes p f o ty id i inst l result)
    (hmade : Made p id c members vs ready u') (hv : u'.constants.get? id = some v)
    (hw : vs[i]? = some w) (hu : Moves p {} u) (hfr : u.frames = fr :: rest)
    (hf : p.module.function fr.function = .ok f) {x : Value} (ho : Exec.operand p o u = .ok x u)
    (hx : x.HasTy ty) (hbytes : x.bytes = v.bytes) :
    ∃ t fr' y, Executes p f [inst] u t ∧ Moves p u t ∧ t.frames = fr' :: rest ∧
      p.module.function fr'.function = .ok f ∧ fr'.lookup? l = some y ∧ y.HasTy result ∧
      y.bytes = w.bytes := by
  obtain ⟨rfl, hsize⟩ := hx
  obtain ⟨v', hv', _, hcached⟩ := hmade.cached
  rw [hv] at hv'
  cases hv'
  have hsized := hmade.sized (h.fits c members hmade.found hmade.composite)
  obtain ⟨m, hm, hmsize, hexecute⟩ :=
    h.accessor.execute_part ho hsize (hbytes.trans hcached) h.separate hsized hw f
  -- The local has the size of the member, so the member can be bound to it.
  have hresult : result.size = w.size := by rw [h.sized m hm, hmsize]
  have hretype : Value.retype { ty := m.ty, bytes := w.bytes } result =
      .ok { ty := result, bytes := w.bytes } :=
    Value.retype_eq_ok_iff.mpr ⟨hresult, rfl⟩
  have hslot : l.index < fr.locals.size := by
    have hslots := hu.hasSlots (fun g hg => absurd hg List.not_mem_nil) fr
      (by rw [hfr]; exact List.mem_cons_self)
    obtain ⟨f', hf', hsize'⟩ := hslots
    rw [hf] at hf'
    cases hf'
    rw [hsize']
    exact (Array.getElem?_eq_some_iff.mp h.declared).1
  have hbind : Exec.bindResult f inst { ty := m.ty, bytes := w.bytes } u =
      .ok () { u with
        frames := fr.set l { ty := result, origin := .local l, bytes := w.bytes } :: rest } :=
    (Exec.bindResult_eq_ok_iff h.bound).mpr
      ⟨⟨result, false⟩, _, fr, rest, h.declared, hretype, hfr, hslot, rfl⟩
  have hcomplete : Exec.complete f inst (some { ty := m.ty, bytes := w.bytes }) u =
      .ok () (u.bound fr rest l { ty := result, bytes := w.bytes }) := by
    unfold Exec.complete
    dsimp only
    rw [Exec.bind_of_ok hbind]
    rfl
  have hmoves := Exec.complete_moves hfr hf inst (some { ty := m.ty, bytes := w.bytes })
  rw [Exec.after_of_ok hcomplete] at hmoves
  refine ⟨_, _, { ty := result, origin := .local l, bytes := w.bytes },
    .cons hexecute hcomplete (.nil _), hmoves, rfl, hf, ?_, ⟨rfl, hresult.symm⟩, rfl⟩
  change (fr.set l _).lookup? l = _
  rw [Frame.lookup?_set, if_pos ⟨rfl, hslot⟩]
  rfl

/-- A member at any depth is bound with the bytes that it had when its composite was made. -/
theorem Reaches.executes {path : List Nat} {insts : List Instruction} {u' : State}
    (h : Reaches p f o ty id path insts l) (hinside : Inside p u' id path w)
    (hv : u'.constants.get? id = some v) (hu : Moves p {} u) (hfr : u.frames = fr :: rest)
    (hf : p.module.function fr.function = .ok f) {x : Value} (ho : Exec.operand p o u = .ok x u)
    (hx : x.HasTy ty) (hbytes : x.bytes = v.bytes) :
    ∃ t fr' y, Executes p f insts u t ∧ t.frames = fr' :: rest ∧ fr'.lookup? l = some y ∧
      y.bytes = w.bytes := by
  induction h generalizing u u' fr v x with
  | last takes =>
    cases hinside with
    | member made hit =>
      obtain ⟨t, fr', y, hexecutes, _, ht, _, hy, _, hybytes⟩ :=
        takes.executes made hv hit hu hfr hf ho hx hbytes
      exact ⟨t, fr', y, hexecutes, ht, hy, hybytes⟩
    | deeper made hit inner => cases inner
  | next takes found composite hit rest' ih =>
    cases hinside with
    | member made hit' => cases rest'
    | deeper made hit' inner =>
      rw [made.found] at found
      cases found
      rw [made.composite] at composite
      cases composite
      rw [hit] at hit'
      cases hit'
      -- The member is a composite itself, and it was cached when the outer one was made of it.
      obtain ⟨w', dc, hw', hdc, _, hcached⟩ := made.member hit
      have hd := hcached (inner.kind_ne hdc)
      obtain ⟨t, fr', y, hfirst, hmoves, ht, hf', hy, htyped, hybytes⟩ :=
        takes.executes made hv hw' hu hfr hf ho hx hbytes
      have ho' : Exec.operand p (.local _) t = .ok y t :=
        Exec.operand_local ht hf' hy takes.declared
      obtain ⟨t', fr'', z, hrest, ht', hz, hzbytes⟩ :=
        ih inner hd (hu.trans hmoves) ht hf' ho' htyped hybytes
      exact ⟨t', fr'', z, hfirst.append hrest, ht', hz, hzbytes⟩

/-! ## Owned arrays -/

/-- In `t` there is static storage of `size` bytes at `address`, and it is apart from everything
that was owned in `s`. No bytes need no storage, and they are at a fixed address. -/
def Fresh (address size : Nat) (s t : State) : Prop :=
  if size = 0 then address = Memory.emptyAddress
  else ⟨address, size, .constant⟩ ∈ t.memory.statics.entries ∧
    ∀ r, s.memory.Records r → r.Apart ⟨address, size, .constant⟩

/-- The words of a dynamic array of `len` elements at `address` that is not to be grown. -/
def ownedWords (elem : Ty) (address len : Nat) : List Value :=
  [Value.ofAddress (Ty.mutPtrTo elem) address, .ofWord len, .ofWord (-1), .ofWord 0]

theorem sized_ownedWords (elem : Ty) (address len : Nat) :
    (Layout.of (.dynArray elem)).Sized (ownedWords elem address len) := by
  intro i w hw
  match i, hw with
  | 0, rfl => exact ⟨_, rfl, by simp [Value.size, Value.ofAddress, Ty.size]⟩
  | 1, rfl | 2, rfl | 3, rfl =>
    exact ⟨_, rfl, by simp [Value.size, Value.ofWord, Ty.size, wordSize]⟩

/-- New storage that has been filled holds what it has been filled with, part by part. -/
theorem Arena.read_filled (a : Arena) {address : Nat} {bytes : Bytes} {offset size : Nat}
    (hbase : Arena.base ≤ address) (h : offset + size ≤ bytes.length) :
    ((a.claim address bytes.length).write address bytes).read (address + offset) size =
      (bytes.drop offset).take size := by
  rw [← Arena.read_drop_take h, Arena.read_claim_write hbase]

namespace Exec

/-- Bytes that get static storage can be read there, and the storage is new. -/
theorem allocStatic_spec (hhost : p.host.KeepsExtent) (hs : Moves p {} s) {bytes : Bytes}
    {address : Nat} (h : allocStatic p .constant bytes s = .ok address t) :
    Fresh address bytes.length s t ∧ address < addressLimit ∧
      ∀ offset ty, offset + ty.size ≤ bytes.length →
        load p (address + offset) ty t = .ok { ty, bytes := (bytes.drop offset).take ty.size } t := by
  by_cases hne : bytes = []
  · subst hne
    cases h
    refine ⟨rfl, by decide, fun offset ty hle => ?_⟩
    have hzero : ty.size = 0 := by
      rw [List.length_nil] at hle
      omega
    have haccess : s.memory.accessible p.config.sanitizeMemory (Memory.emptyAddress + offset)
        ty.size = true := by
      simp [Memory.accessible, hzero]
    rw [load_eq_of_accessible haccess, hzero]
    rfl
  · have hpos : 0 < bytes.length := List.length_pos_iff.mpr hne
    have htidy : t.memory.Tidy :=
      (hs.trans (.of_makes ((allocStatic_makes _ _).of_ok h))).tidy hhost
    have hrecorded := recorded_of_allocStatic hne h
    obtain ⟨hroom, statics, _, ht⟩ := allocStatic_eq_ok hne h
    have hlive : t.memory.Live address bytes.length :=
      ⟨_, .inr hrecorded, Nat.le_refl _, Nat.le_refl _⟩
    refine ⟨?_, ?_, fun offset ty hle => ?_⟩
    · unfold Fresh
      rw [if_neg (by omega)]
      exact ⟨hrecorded, fun r hr => (p.allocator.apart hroom r hr.inUse).symm⟩
    · have hlimit := hlive.lt_addressLimit htidy.housed
      omega
    · have hpart : t.memory.Live (address + offset) ty.size := hlive.part (by omega) (by omega)
      have hread : t.memory.arena.read (address + offset) ty.size =
          (bytes.drop offset).take ty.size := by
        rw [ht]
        exact Arena.read_filled s.memory.arena (p.allocator.base_le hroom) hle
      rw [load_eq_of_accessible (hpart.accessible htidy.housed htidy.stack _), hread]

/-- An owned array is made by evaluating the array constant, copying it to new storage and putting
the words of the dynamic array together. -/
theorem materialize_owned {array : ConstId} {elem : Ty} {op : ConstId → Exec Value}
    (h : materialize p op ⟨.dynArray elem, .owned array⟩ s = .ok v t) :
    ∃ a s' address, op array s = .ok a s' ∧ allocStatic p .constant a.bytes s' = .ok address t ∧
      v = { ty := .dynArray elem
            bytes := (ownedWords elem address (Layout.of a.ty).memberCount).flatMap Value.bytes } ∧
      (Ty.dynArray elem).size = v.size := by
  obtain ⟨a, s', ha, h⟩ := bind_eq_ok_iff.mp h
  obtain ⟨address, t', halloc, h⟩ := bind_eq_ok_iff.mp h
  obtain ⟨hconcat, rfl⟩ := lift_eq_ok_iff.mp h
  obtain ⟨hsize, rfl⟩ := Value.ofBytes_eq_ok_iff.mp hconcat
  exact ⟨a, s', address, ha, halloc, rfl, hsize⟩

end Exec

/-! ## Round trips -/

/-- Whatever takes member `i` out of the constant gives these bytes. -/
def Yields (p : Program) (u : State) (id : ConstId) (ty : Ty) (i : Nat) (bytes : Bytes) : Prop :=
  ∀ f inst, Accessor p ty i (.const id) inst →
    ∃ y, Exec.execute p f inst u = .ok (.complete (some y)) u ∧ y.bytes = bytes

/-- What holds of a constant whose first use, in `s`, has ended in `t`. -/
structure RoundTrips (p : Program) (id : ConstId) (c : Constant) (s t : State) : Prop where
  /-- The members of a composite are evaluated from `s` on, one after the other. If they fit its
  type they come out with the bytes they had then, in every later state. -/
  members : ∀ members, c.kind.members? = some members →
    ∃ vs ready, Exec.operands p (members.map .const) s = .ok vs ready ∧
      vs.length = members.length ∧
      (c.ty.isUnion = false → p.Fits c.ty members → ∀ u, Moves p t u →
        ∀ (i : Nat) (w : Value), vs[i]? = some w → Yields p u id c.ty i w.bytes)
  /-- So do members of members: instructions that go along a path, each binding what the next one
  takes apart, bind in the end what was at the end of the path. -/
  nested : ∀ u, Moves p t u → ∀ path w, Inside p u id path w →
    ∀ fr rest f insts l, u.frames = fr :: rest → p.module.function fr.function = .ok f →
      Reaches p f (.const id) c.ty id path insts l →
      ∃ u' fr' y, Executes p f insts u u' ∧ u'.frames = fr' :: rest ∧ fr'.lookup? l = some y ∧
        y.bytes = w.bytes
  /-- An owned array has its length, no capacity, no reference count, and the address of a new
  static range, in which its elements can be read right after. -/
  owned : ∀ array elem n kind, c.kind = .owned array → c.ty = .dynArray elem →
    p.module.constant array = .ok ⟨.array elem n, kind⟩ →
    ∃ a s' address, Exec.constOperand p array s = .ok a s' ∧ address < addressLimit ∧
      (∀ u, Moves p t u → ∀ (i : Nat) (w : Value), (ownedWords elem address n)[i]? = some w →
        Yields p u id c.ty i w.bytes) ∧
      Fresh address a.size s t ∧
      ∀ k < n, ∃ e, (do a.getMember (← memberOf a.ty k)) = .ok e ∧
        Exec.load p (address + k * elem.size) elem t = .ok e t ∧
        ∀ members vs ready w, Made p array ⟨.array elem n, kind⟩ members vs ready s' →
          p.Fits (.array elem n) members → vs[k]? = some w → e.bytes = w.bytes

/-- A constant evaluates, in every later state, to what its first use has cached. -/
theorem operand_const_later (hc : p.module.constant id = .ok c)
    (hkind : ∀ g, c.kind ≠ .globalVar g) (hv : Exec.constOperand p id s = .ok v t)
    (hmoves : Moves p t u) : Exec.operand p (.const id) u = .ok v u :=
  Exec.constOperand_of_cached hc hkind
    (hmoves.caches.kept _ _ (Exec.cached_of_constOperand hc hkind hv))

/-- The members of a composite constant come back. -/
theorem yields_of_made {ready : State} (h : Made p id c members vs ready u)
    (hunion : c.ty.isUnion = false) (hfits : p.Fits c.ty members) (hw : vs[i]? = some w) :
    Yields p u id c.ty i w.bytes := by
  intro f inst hinst
  obtain ⟨v, hv, ⟨hty, hsize⟩, hbytes⟩ := h.cached
  have hkind := ConstKind.ne_globalVar_of_members? h.composite
  have ho : Exec.operand p (.const id) u = .ok v u :=
    Exec.constOperand_of_cached h.found hkind hv
  have hsized := h.sized hfits
  rw [← hty] at hunion hsized hinst hsize
  obtain ⟨m, _, _, hexecute⟩ := hinst.execute_part ho hsize hbytes hunion hsized hw f
  exact ⟨_, hexecute, rfl⟩

/-- The elements of an owned array are the elements of the array constant, and lie where its first
word says. -/
theorem owned_of_constOperand (hhost : p.host.KeepsExtent) (hs : Moves p {} s) {array : ConstId}
    {elem : Ty} {n : Nat} {kind : ConstKind}
    (hc : p.module.constant id = .ok ⟨.dynArray elem, .owned array⟩)
    (harray : p.module.constant array = .ok ⟨.array elem n, kind⟩)
    (hmissing : s.constants.get? id = none) (hv : Exec.constOperand p id s = .ok v t) :
    ∃ a s' address, Exec.constOperand p array s = .ok a s' ∧ a.HasTy (.array elem n) ∧
      address < addressLimit ∧ v.HasTy (.dynArray elem) ∧
      v.bytes = (ownedWords elem address n).flatMap Value.bytes ∧ Fresh address a.size s t ∧
      ∀ offset ty, offset + ty.size ≤ a.size →
        Exec.load p (address + offset) ty t =
          .ok { ty, bytes := (a.bytes.drop offset).take ty.size } t := by
  obtain ⟨made, t', hmade, rfl, rfl⟩ :=
    Exec.materialize_of_constOperand hc (by simp) hmissing hv
  obtain ⟨a, s', address, ha, halloc, rfl, hsize⟩ := Exec.materialize_owned hmade
  have hmakes := (Exec.constOperand_makes array).of_ok ha
  have hs' : Moves p {} s' := hs.trans (.of_makes hmakes)
  have htyped := Exec.hasTy_of_constOperand_moves hs harray ha
  obtain ⟨hfresh, hlimit, hload⟩ := Exec.allocStatic_spec hhost hs' halloc
  have hcount : (Layout.of a.ty).memberCount = n := by
    rw [htyped.1]
    rfl
  refine ⟨a, s', address, ha, htyped, hlimit, ⟨rfl, hsize.symm⟩, ?_, ?_, fun offset ty hle => ?_⟩
  · rw [hcount]
    rfl
  · -- What is new after the array has been evaluated was not there before either.
    unfold Fresh at hfresh ⊢
    change if a.size = 0 then _ else _ at hfresh
    split at hfresh
    · rename_i hzero
      rw [if_pos hzero]
      exact hfresh
    · rename_i hzero
      rw [if_neg hzero]
      have hkeeps := hmakes.keeps (hs.tidy hhost).housed
      exact ⟨hfresh.1, fun r hr => hfresh.2 r (hkeeps.records hr)⟩
  · -- Caching the array afterwards changes no byte.
    have hafter := hload offset ty hle
    unfold Exec.load at hafter ⊢
    rw [Exec.bind_of_ok (Exec.get_apply _)] at hafter ⊢
    exact Exec.lift_eq_ok_iff.mpr ⟨(Exec.lift_eq_ok_iff.mp hafter).1, rfl⟩

/-- Constants make the round trip. Whatever state of a session a constant is first used in, the
members of a composite come out of it as they went in, at any depth and for the rest of the session,
and an owned array refers to a new copy of its elements. Native code is trusted to leave storage
where it is. -/
theorem composite_constants_round_trip (hhost : p.host.KeepsExtent) (hs : Moves p {} s)
    (hc : p.module.constant id = .ok c) (hmissing : s.constants.get? id = none)
    (hv : Exec.constOperand p id s = .ok v t) : RoundTrips p id c s t where
  members := by
    intro members hmembers
    obtain ⟨vs, ready, hvs, hmade⟩ := Made.of_constOperand hs hc hmembers hmissing hv
    refine ⟨vs, ready, hvs, hmade.length_eq, fun hunion hfits u hmoves i w hw => ?_⟩
    exact yields_of_made (hmade.moves hmoves) hunion hfits hw
  nested := by
    intro u hmoves path w hinside fr rest f insts l hfr hf hreaches
    have hkind := hinside.kind_ne hc
    have ht : Moves p {} t := hs.trans (.of_makes ((Exec.constOperand_makes id).of_ok hv))
    have hcached := hmoves.caches.kept _ _ (Exec.cached_of_constOperand hc hkind hv)
    have hoperand := operand_const_later hc hkind hv hmoves
    have htyped := Exec.hasTy_of_constOperand_moves hs hc hv
    exact hreaches.executes hinside hcached (ht.trans hmoves) hfr hf hoperand htyped rfl
  owned := by
    intro array elem n kind hkind hty harray
    obtain ⟨cty, ckind⟩ := c
    obtain rfl : cty = _ := hty
    obtain rfl : ckind = _ := hkind
    obtain ⟨a, s', address, ha, hatyped, hlimit, ⟨hvty, hvsize⟩, hvbytes, hfresh, hload⟩ :=
      owned_of_constOperand hhost hs hc harray hmissing hv
    refine ⟨a, s', address, ha, hlimit, fun u hmoves i w hw f inst hinst => ?_, hfresh,
      fun k hk => ?_⟩
    · have ho := operand_const_later hc (by simp) hv hmoves
      have hsized := sized_ownedWords elem address n
      rw [← hvty] at hinst hsized hvsize
      rw [← List.append_nil (ownedWords elem address n)] at hvbytes
      obtain ⟨m, _, _, hexecute⟩ :=
        hinst.execute_part ho hvsize hvbytes (by rw [hvty]; rfl) hsized hw f
      exact ⟨_, hexecute, rfl⟩
    · have hm : (Layout.of (.array elem n)).member? k = some ⟨k * elem.size, elem.size, elem⟩ :=
        if_pos hk
      have hfits : k * elem.size + elem.size ≤ a.size := by
        rw [hatyped.2]
        exact (Layout.member?_eq_some hm).2.2
      refine ⟨_, ?_, hload _ elem hfits, fun members vs ready w hmade hfit hw => ?_⟩
      · have hmember : memberOf a.ty k = .ok ⟨k * elem.size, elem.size, elem⟩ := by
          unfold memberOf
          rw [hatyped.1, hm]
        rw [hmember]
        exact Value.getMember_eq_ok_iff.mpr ⟨hfits, rfl⟩
      · obtain ⟨a', ha', _, hbytes⟩ := hmade.cached
        have hkind := ConstKind.ne_globalVar_of_members? hmade.composite
        rw [Exec.cached_of_constOperand harray hkind ha] at ha'
        cases ha'
        dsimp only
        rw [hbytes]
        exact (hmade.sized hfit).part rfl hw hm _

/-! ## A list of pairs -/

namespace Pairs

def pairTy : Ty := .tuple [Ty.i32, Ty.u8]

def takeSecondPair : Instruction := ⟨.extractValue, [.const ⟨3⟩, .const ⟨5⟩], some ⟨0⟩⟩

def takeSecondMember : Instruction := ⟨.extractValue, [.local ⟨0⟩, .const ⟨5⟩], some ⟨1⟩⟩

/-- Takes the second member out of the second pair. -/
def function : Function where
  name := "second"
  ty := .function [] Ty.u8 false
  locals := #[⟨pairTy, false⟩, ⟨Ty.u8, false⟩]
  blocks := #[⟨"entry", #[takeSecondPair, takeSecondMember, ⟨.ret, [.local ⟨1⟩], none⟩]⟩]

def program : Program where
  module :=
    { name := "pairs"
      constants := #[⟨Ty.i32, .int 5⟩, ⟨Ty.u8, .int 7⟩, ⟨pairTy, .tuple [⟨0⟩, ⟨1⟩]⟩,
        ⟨.array pairTy 2, .array [⟨2⟩, ⟨2⟩]⟩, ⟨.dynArray pairTy, .owned ⟨3⟩⟩, ⟨Ty.word, .int 1⟩]
      functions := #[function] }

/-- The function has been called. -/
def entered : State := (Exec.startCall program ⟨0⟩ []).after {}

theorem entered_moves : Moves program {} entered := Exec.startCall_moves _ _ _

def five : Value := { ty := Ty.i32, origin := .const ⟨0⟩, bytes := [5, 0, 0, 0] }

def seven : Value := { ty := Ty.u8, origin := .const ⟨1⟩, bytes := [7] }

def pair : Value := { ty := pairTy, origin := .const ⟨2⟩, bytes := [5, 0, 0, 0, 7] }

def pairs : Value :=
  { ty := .array pairTy 2, origin := .const ⟨3⟩, bytes := pair.bytes ++ pair.bytes }

theorem pairs_made : Exec.constOperand program ⟨3⟩ entered =
    .ok pairs ((Exec.constOperand program ⟨3⟩).after entered) :=
  Exec.eq_ok_of_result? (by decide +kernel)

/-- The pairs are made when the list is, and their members when the first of them is. -/
theorem seven_inside :
    Inside program ((Exec.constOperand program ⟨3⟩).after entered) ⟨3⟩ [1, 1] seven := by
  have houter : Made program ⟨3⟩ ⟨.array pairTy 2, .array [⟨2⟩, ⟨2⟩]⟩ [⟨2⟩, ⟨2⟩] [pair, pair]
      ((Exec.operands program [.const ⟨2⟩, .const ⟨2⟩]).after entered)
      ((Exec.constOperand program ⟨3⟩).after entered) :=
    ⟨entered_moves, rfl, rfl, rfl, Exec.eq_ok_of_result? (by decide +kernel), pairs_made,
      refl_of (Moves program) _⟩
  have hinner : Made program ⟨2⟩ ⟨pairTy, .tuple [⟨0⟩, ⟨1⟩]⟩ [⟨0⟩, ⟨1⟩] [five, seven]
      ((Exec.operands program [.const ⟨0⟩, .const ⟨1⟩]).after entered)
      ((Exec.constOperand program ⟨2⟩).after entered) :=
    ⟨entered_moves, rfl, rfl, rfl, Exec.eq_ok_of_result? (by decide +kernel),
      Exec.eq_ok_of_result? (a := pair) (by decide +kernel), refl_of (Moves program) _⟩
  exact .deeper houter rfl (.member hinner rfl)

theorem pairTy_fits : program.Fits pairTy [⟨0⟩, ⟨1⟩] := by
  intro i id hid
  match i, hid with
  | 0, rfl => exact ⟨_, _, rfl, rfl, by decide +kernel⟩
  | 1, rfl => exact ⟨_, _, rfl, rfl, by decide +kernel⟩

theorem pairs_fit : program.Fits (.array pairTy 2) [⟨2⟩, ⟨2⟩] := by
  intro i id hid
  match i, hid with
  | 0, rfl => exact ⟨_, _, rfl, rfl, by decide +kernel⟩
  | 1, rfl => exact ⟨_, _, rfl, rfl, by decide +kernel⟩

theorem reaches_second :
    Reaches program function (.const ⟨3⟩) (.array pairTy 2) ⟨3⟩ [1, 1]
      [takeSecondPair, takeSecondMember] ⟨1⟩ := by
  have hpair : Takes program function (.const ⟨3⟩) (.array pairTy 2) ⟨3⟩ 1 takeSecondPair ⟨0⟩
      pairTy := by
    refine ⟨.extract _ rfl (by decide), rfl, ?_, rfl, rfl, ?_⟩
    · rintro _ _ ⟨⟩ ⟨⟩
      exact pairs_fit
    · rintro _ ⟨⟩
      rfl
  have hmember : Takes program function (.local ⟨0⟩) pairTy ⟨2⟩ 1 takeSecondMember ⟨1⟩ Ty.u8 := by
    refine ⟨.extract _ rfl (by decide), rfl, ?_, rfl, rfl, ?_⟩
    · rintro _ _ ⟨⟩ ⟨⟩
      exact pairTy_fits
    · rintro _ ⟨⟩
      rfl
  exact .next hpair rfl rfl rfl (.last hmember)

end Pairs

/-- The second member of the second pair comes out as seven. The owned array of the pairs has length
two, and its second element can be read behind the first. -/
theorem composite_constants_round_trip_pairs :
    (∃ u fr y, Executes Pairs.program Pairs.function [Pairs.takeSecondPair, Pairs.takeSecondMember]
      ((Exec.constOperand Pairs.program ⟨3⟩).after Pairs.entered) u ∧ u.frames = [fr] ∧
        fr.lookup? ⟨1⟩ = some y ∧ y.bytes = [7]) ∧
    ∃ t address e, (∃ v, Exec.constOperand Pairs.program ⟨4⟩ {} = .ok v t) ∧
      Yields Pairs.program t ⟨4⟩ (.dynArray Pairs.pairTy) 1 [2, 0, 0, 0, 0, 0, 0, 0] ∧
      Exec.load Pairs.program (address + 1 * 5) Pairs.pairTy t = .ok e t ∧
      e.bytes = Pairs.pair.bytes := by
  constructor
  · have htrip := composite_constants_round_trip (p := Pairs.program) Native.host_keepsExtent
      Pairs.entered_moves rfl rfl Pairs.pairs_made
    obtain ⟨u, fr, y, hexecutes, hfr, hy, hbytes⟩ :=
      htrip.nested _ (refl_of (Moves _) _) _ _ Pairs.seven_inside
        { function := ⟨0⟩, locals := #[none, none] } [] Pairs.function _ _ rfl rfl
        Pairs.reaches_second
    exact ⟨u, fr, y, hexecutes, hfr, hy, hbytes⟩
  · have hmade : ∃ v, Exec.constOperand Pairs.program ⟨4⟩ {} =
        .ok v ((Exec.constOperand Pairs.program ⟨4⟩).after {}) := ⟨_, rfl⟩
    obtain ⟨v, hv⟩ := hmade
    have htrip := composite_constants_round_trip (p := Pairs.program) Native.host_keepsExtent
      (refl_of (Moves _) _) rfl rfl hv
    obtain ⟨a, s', address, ha, _, hwords, _, helements⟩ :=
      htrip.owned ⟨3⟩ Pairs.pairTy 2 (.array [⟨2⟩, ⟨2⟩]) rfl rfl rfl
    have hpairs : Exec.constOperand Pairs.program ⟨3⟩ {} =
        .ok Pairs.pairs ((Exec.constOperand Pairs.program ⟨3⟩).after {}) :=
      Exec.eq_ok_of_result? (by decide +kernel)
    rw [hpairs] at ha
    cases ha
    obtain ⟨e, he, hload, _⟩ := helements 1 (by decide)
    refine ⟨_, address, e, ⟨v, hv⟩, hwords _ (refl_of (Moves _) _) 1 _ rfl, hload, ?_⟩
    cases he
    decide +kernel

end PackedIR
