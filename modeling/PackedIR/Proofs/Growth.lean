/-
How modules come about.

A module starts empty and grows by declarations and by what builders append to function
bodies; nothing is ever taken back or replaced. `Module.Grows` is the closure of these
operations. Two facts are drawn from it. Whatever an id, a local or a position in a block
names, it names the same thing in every later module. And the first locals of a function
are its parameters: a function is declared with them, and everything else is appended.
-/
import PackedIR.Proofs.Computation
import PackedIR.Builder

set_option autoImplicit false

namespace PackedIR

variable {m m' : Module}

/-! ## Building steps -/

namespace Build

variable {α β : Type} {b b' : Builder}

theorem bind_eq_ok_iff {x : Build α} {f : α → Build β} {r : β × Builder} :
    (x >>= f) b = .ok r ↔ ∃ a b₁, x b = .ok (a, b₁) ∧ f a b₁ = .ok r := by
  change (x b >>= fun q => f q.1 q.2) = .ok r ↔ _
  cases x b with
  | error e => simp [bind, Except.bind]
  | ok q =>
    constructor
    · intro h
      exact ⟨q.1, q.2, rfl, h⟩
    · rintro ⟨_, _, hq, h⟩
      cases hq
      exact h

@[simp] theorem pure_eq_ok_iff {a a' : α} :
    (pure a : Build α) b = .ok (a', b') ↔ a' = a ∧ b' = b := by
  change Except.ok (a, b) = .ok (a', b') ↔ _
  rw [Except.ok.injEq, Prod.mk.injEq, eq_comm, eq_comm (a := b)]

@[simp] theorem get_eq_ok_iff {c : Builder} :
    (get : Build Builder) b = .ok (c, b') ↔ b = c ∧ b = b' := by
  change Except.ok (b, b) = .ok (c, b') ↔ _
  rw [Except.ok.injEq, Prod.mk.injEq]

@[simp] theorem modify_eq_ok_iff {g : Builder → Builder} {u : PUnit} :
    (modify g : Build PUnit) b = .ok (u, b') ↔ b' = g b := by
  change Except.ok (⟨⟩, g b) = .ok (u, b') ↔ _
  rw [Except.ok.injEq, Prod.mk.injEq, eq_comm (a := g b)]
  simp

@[simp] theorem set_eq_ok_iff {c : Builder} {u : PUnit} :
    (set c : Build PUnit) b = .ok (u, b') ↔ b' = c := by
  change Except.ok (⟨⟩, c) = .ok (u, b') ↔ _
  rw [Except.ok.injEq, Prod.mk.injEq, eq_comm (a := c)]
  simp

@[simp] theorem throw_ne_ok {e : Fault} {r : α × Builder} : (throw e : Build α) b ≠ .ok r := by
  change Except.error e ≠ .ok r
  simp

@[simp] theorem lift_eq_ok_iff {x : Except Fault α} {a : α} :
    (liftM x : Build α) b = .ok (a, b') ↔ x = .ok a ∧ b = b' := by
  change (x >>= fun a => Except.ok (a, b)) = .ok (a, b') ↔ _
  cases x with
  | error e => simp [bind, Except.bind]
  | ok a => simp [bind, Except.bind]

@[simp] theorem function_eq_ok_iff {f : Function} :
    function b = .ok (f, b') ↔ b.module.function b.func = .ok f ∧ b = b' := by
  unfold function
  rw [bind_eq_ok_iff]
  constructor
  · rintro ⟨_, _, hget, h⟩
    obtain ⟨rfl, rfl⟩ := get_eq_ok_iff.mp hget
    exact lift_eq_ok_iff.mp h
  · intro h
    exact ⟨b, b, get_eq_ok_iff.mpr ⟨rfl, rfl⟩, lift_eq_ok_iff.mpr h⟩

@[simp] theorem position_eq_ok_iff {id : BlockId} :
    position b = .ok (id, b') ↔ b.current = some id ∧ b = b' := by
  have hposition : position b = .ok (id, b') ↔ ∃ c b₁, (get : Build Builder) b = .ok (c, b₁) ∧ _ :=
    bind_eq_ok_iff
  rw [hposition]
  simp only [get_eq_ok_iff]
  constructor
  · rintro ⟨_, _, ⟨rfl, rfl⟩, h⟩
    cases hcur : b.current with
    | none => simp [hcur] at h
    | some block =>
      simp only [hcur, pure_eq_ok_iff] at h
      exact ⟨by rw [h.1], h.2.symm⟩
  · rintro ⟨hcur, rfl⟩
    refine ⟨b, b, ⟨rfl, rfl⟩, ?_⟩
    simp [hcur]

end Build

theorem getElem?_push_of_some {α : Type} {xs : Array α} {i : Nat} {a : α} (h : xs[i]? = some a)
    (b : α) : (xs.push b)[i]? = some a := by
  have hlt := (Array.getElem?_eq_some_iff.mp h).1
  rw [Array.getElem?_push_lt hlt, ← h, Array.getElem?_eq_getElem hlt]

theorem orMissing_eq_ok_iff {α : Type} {o : Option α} {a : α} :
    orMissing o = .ok a ↔ o = some a := by
  cases o <;> simp [orMissing]

namespace Module

theorem function_setFunction_self {id : FuncId} {f g : Function} (h : m.function id = .ok f) :
    (m.setFunction id g).function id = .ok g := by
  have hlt : id.index < m.functions.size :=
    (Array.getElem?_eq_some_iff.mp (orMissing_eq_ok_iff.mp h)).1
  rw [function, orMissing_eq_ok_iff]
  simp [setFunction, hlt]

theorem function_setFunction_of_ne {id id' : FuncId} (hne : id' ≠ id) (g : Function) :
    (m.setFunction id g).function id' = m.function id' := by
  have hindex : id.index ≠ id'.index := by
    intro h
    apply hne
    cases id
    cases id'
    cases h
    rfl
  unfold function setFunction
  simp only
  rw [Array.getElem?_setIfInBounds_ne hindex]

end Module

/-! ## The relation -/

/-- The module `m'` comes about from `m` by declarations and by building. -/
inductive Module.Grows : Module → Module → Prop where
  | refl (m : Module) : Grows m m
  | trans {m m' m'' : Module} : Grows m m' → Grows m' m'' → Grows m m''
  | constant (m : Module) (ty : Ty) (kind : ConstKind) : Grows m (m.addConstant ty kind).2
  | function {m m' : Module} {id : FuncId} (name : String) (ty : Ty) :
      m.declareFunction name ty = .ok (id, m') → Grows m m'
  | global (m : Module) (name : String) (ty : Ty) (init : Option ConstId) :
      Grows m (m.addGlobal name ty init).2
  | string (m : Module) (value : String) : Grows m (m.addString value).2
  | intrinsic (m : Module) (name : String) (func : FuncId) : Grows m (m.addIntrinsic name func)
  | globalInit (m : Module) (func : FuncId) : Grows m (m.setGlobalInit func)
  | block {b b' : Builder} {id : BlockId} (name : String) :
      Build.addBlock name b = .ok (id, b') → Grows b.module b'.module
  | instruction {b b' : Builder} {result : Option Local} (op : Opcode) (args : List Operand)
      (decl : Option LocalDecl) :
      Build.emit op args decl b = .ok (result, b') → Grows b.module b'.module

/-- The module has been built up from nothing. -/
def Module.Built (m : Module) : Prop := ∃ name, Grows { name } m

theorem Module.Built.grows (h : m.Built) (hgrows : m.Grows m') : m'.Built := by
  obtain ⟨name, h⟩ := h
  exact ⟨name, .trans h hgrows⟩

/-- The function `g` has everything that `f` has, in the same places. -/
structure Function.Grows (f g : Function) : Prop where
  ty : g.ty = f.ty
  locals : ∀ l decl, f.local? l = some decl → g.local? l = some decl
  instructions : ∀ id block, f.block? id = some block → ∃ block', g.block? id = some block' ∧
    ∀ (i : Nat) (inst : Instruction), block.instructions[i]? = some inst →
      block'.instructions[i]? = some inst

theorem Function.Grows.refl (f : Function) : f.Grows f :=
  ⟨rfl, fun _ _ h => h, fun _ block h => ⟨block, h, fun _ _ h => h⟩⟩

theorem Function.Grows.trans {f g h : Function} (hfg : f.Grows g) (hgh : g.Grows h) :
    f.Grows h := by
  refine ⟨hgh.ty.trans hfg.ty, fun l decl hl => hgh.locals l decl (hfg.locals l decl hl), ?_⟩
  intro id block hblock
  obtain ⟨block', hblock', hinst'⟩ := hfg.instructions id block hblock
  obtain ⟨block'', hblock'', hinst''⟩ := hgh.instructions id block' hblock'
  exact ⟨block'', hblock'', fun i inst h => hinst'' i inst (hinst' i inst h)⟩

theorem Function.Grows.signature_eq {f g : Function} (h : f.Grows g) :
    g.signature = f.signature := by
  unfold Function.signature
  rw [h.ty]

/-! ## What building does -/

namespace Build

variable {b b' : Builder}

/-- The function `f` with an instruction appended to one of its blocks and its result declared. -/
def extended (f : Function) (id : BlockId) (block : Block) (inst : Instruction)
    (decl : Option LocalDecl) : Function :=
  { f with
    locals := f.locals ++ decl.toArray
    blocks := f.blocks.setIfInBounds id.index
      { block with instructions := block.instructions.push inst } }

theorem append_eq_ok {f : Function} {id : BlockId} {inst : Instruction} {u : Unit}
    (h : append f id inst b = .ok (u, b')) : ∃ block, f.block? id = some block ∧
      b' = { b with module := b.module.setFunction b.func (extended f id block inst none) } := by
  simp only [append, bind_eq_ok_iff, lift_eq_ok_iff, orMissing_eq_ok_iff, modify_eq_ok_iff] at h
  obtain ⟨block, _, ⟨hblock, rfl⟩, rfl⟩ := h
  exact ⟨block, hblock, by simp [extended]⟩

/-- Emitting appends one instruction to the block that the builder is positioned on. Its result,
if it has one, is the next free local. -/
theorem emit_eq_ok {op : Opcode} {args : List Operand} {decl : Option LocalDecl}
    {result : Option Local} (h : emit op args decl b = .ok (result, b')) :
    ∃ f id block, b.current = some id ∧ b.module.function b.func = .ok f ∧
      f.block? id = some block ∧ result = decl.map (fun _ => ⟨f.locals.size⟩) ∧
      b' = { b with module :=
        b.module.setFunction b.func (extended f id block ⟨op, args, result⟩ decl) } := by
  cases decl with
  | none =>
    simp only [emit, emitVoid, bind_eq_ok_iff, position_eq_ok_iff, function_eq_ok_iff,
      pure_eq_ok_iff] at h
    obtain ⟨_, _, ⟨id, _, ⟨hcur, rfl⟩, f, _, ⟨hf, rfl⟩, happend⟩, rfl, rfl⟩ := h
    obtain ⟨block, hblock, rfl⟩ := append_eq_ok happend
    exact ⟨f, id, block, hcur, hf, hblock, rfl, rfl⟩
  | some decl =>
    simp only [emit, emitBound, bind_eq_ok_iff, position_eq_ok_iff, function_eq_ok_iff,
      pure_eq_ok_iff] at h
    obtain ⟨_, _, ⟨id, _, ⟨hcur, rfl⟩, f, _, ⟨hf, rfl⟩, _, _, happend, rfl, rfl⟩, rfl, rfl⟩ := h
    obtain ⟨block, hblock, rfl⟩ := append_eq_ok happend
    refine ⟨f, id, block, hcur, hf, hblock, rfl, ?_⟩
    simp [extended]

theorem addBlock_eq_ok {name : String} {id : BlockId} (h : addBlock name b = .ok (id, b')) :
    ∃ f, b.module.function b.func = .ok f ∧
      b' = { b with
        module := b.module.setFunction b.func { f with blocks := f.blocks.push ⟨name, #[]⟩ } } := by
  simp only [addBlock, bind_eq_ok_iff, function_eq_ok_iff, modify_eq_ok_iff,
    pure_eq_ok_iff] at h
  obtain ⟨f, _, ⟨hf, rfl⟩, _, _, rfl, _, rfl⟩ := h
  exact ⟨f, hf, rfl⟩

/-- Appending leaves what is there in place. -/
theorem grows_extended {f : Function} {id : BlockId} {block : Block}
    (hblock : f.block? id = some block) (inst : Instruction) (decl : Option LocalDecl) :
    f.Grows (extended f id block inst decl) := by
  refine ⟨rfl, fun l d hl => ?_, fun id' block' hblock' => ?_⟩
  · have hlt := (Array.getElem?_eq_some_iff.mp hl).1
    unfold Function.local? extended
    rw [Array.getElem?_append_left hlt]
    exact hl
  · by_cases hid : id'.index = id.index
    · -- The block that is appended to keeps its instructions in front.
      have hsame : block' = block := by
        unfold Function.block? at hblock hblock'
        rw [hid, hblock] at hblock'
        cases hblock'
        rfl
      have hlt := (Array.getElem?_eq_some_iff.mp hblock).1
      refine ⟨{ block with instructions := block.instructions.push inst }, ?_, ?_⟩
      · unfold Function.block? extended
        rw [hid]
        exact Array.getElem?_setIfInBounds_self_of_lt hlt
      · intro i inst' hinst
        rw [hsame] at hinst
        exact getElem?_push_of_some hinst inst
    · -- Other blocks are not touched.
      refine ⟨block', ?_, fun _ _ h => h⟩
      unfold Function.block? extended
      rw [Array.getElem?_setIfInBounds_ne (by omega)]
      exact hblock'

theorem grows_addBlock (f : Function) (block : Block) :
    f.Grows { f with blocks := f.blocks.push block } := by
  refine ⟨rfl, fun _ _ h => h, fun id block' hblock' => ⟨block', ?_, fun _ _ h => h⟩⟩
  exact getElem?_push_of_some hblock' block

end Build

namespace Module

/-- Replacing a function leaves the others in their places. -/
theorem function_of_setFunction {R : Function → Function → Prop} (hrefl : ∀ f, R f f)
    {id : FuncId} {f g : Function} (hid : m.function id = .ok f) (hfg : R f g) {id' : FuncId}
    {f' : Function} (h : m.function id' = .ok f') :
    ∃ g', (m.setFunction id g).function id' = .ok g' ∧ R f' g' := by
  by_cases hid' : id' = id
  · subst hid'
    rw [hid] at h
    cases h
    exact ⟨g, function_setFunction_self hid, hfg⟩
  · rw [function_setFunction_of_ne hid']
    exact ⟨f', h, hrefl f'⟩

theorem forall_setFunction {P : Function → Prop} {id : FuncId} {f g : Function}
    (hid : m.function id = .ok f) (hg : P g) (hm : ∀ id f, m.function id = .ok f → P f) :
    ∀ id' f', (m.setFunction id g).function id' = .ok f' → P f' := by
  intro id' f' hf'
  by_cases hid' : id' = id
  · subst hid'
    rw [function_setFunction_self hid] at hf'
    cases hf'
    exact hg
  · rw [function_setFunction_of_ne hid'] at hf'
    exact hm id' f' hf'

namespace Grows

/-- A constant stays what it is. -/
theorem constant_eq (h : m.Grows m') {id : ConstId} {c : Constant} (hc : m.constant id = .ok c) :
    m'.constant id = .ok c := by
  induction h with
  | refl | global | string | intrinsic | globalInit => exact hc
  | trans _ _ ih₁ ih₂ => exact ih₂ (ih₁ hc)
  | constant m ty kind =>
    -- A new constant is pushed at the end, behind all ids that are in use.
    unfold Module.constant
    rw [orMissing_eq_ok_iff]
    exact getElem?_push_of_some (orMissing_eq_ok_iff.mp hc) _
  | function name ty hdeclare =>
    obtain ⟨f, _, h⟩ := except_bind_eq_ok_iff.mp hdeclare
    cases h
    exact hc
  | block name hadd =>
    obtain ⟨f, _, rfl⟩ := Build.addBlock_eq_ok hadd
    exact hc
  | instruction op args decl hemit =>
    obtain ⟨f, id, block, _, _, _, _, rfl⟩ := Build.emit_eq_ok hemit
    exact hc

/-- A global variable stays what it is. -/
theorem global_eq (h : m.Grows m') {id : GlobalId} {g : Global} (hg : m.global id = .ok g) :
    m'.global id = .ok g := by
  induction h with
  | refl | constant | string | intrinsic | globalInit => exact hg
  | trans _ _ ih₁ ih₂ => exact ih₂ (ih₁ hg)
  | global m name ty init =>
    unfold Module.global
    rw [orMissing_eq_ok_iff]
    exact getElem?_push_of_some (orMissing_eq_ok_iff.mp hg) _
  | function name ty hdeclare =>
    obtain ⟨f, _, h⟩ := except_bind_eq_ok_iff.mp hdeclare
    cases h
    exact hg
  | block name hadd =>
    obtain ⟨f, _, rfl⟩ := Build.addBlock_eq_ok hadd
    exact hg
  | instruction op args decl hemit =>
    obtain ⟨f, id, block, _, _, _, _, rfl⟩ := Build.emit_eq_ok hemit
    exact hg

/-- An entry of the string pool stays what it is. -/
theorem string_eq (h : m.Grows m') {id : StringId} {text : String} (ht : m.string id = .ok text) :
    m'.string id = .ok text := by
  induction h with
  | refl | constant | global | intrinsic | globalInit => exact ht
  | trans _ _ ih₁ ih₂ => exact ih₂ (ih₁ ht)
  | string m value =>
    unfold Module.string
    rw [orMissing_eq_ok_iff]
    exact getElem?_push_of_some (orMissing_eq_ok_iff.mp ht) _
  | function name ty hdeclare =>
    obtain ⟨f, _, h⟩ := except_bind_eq_ok_iff.mp hdeclare
    cases h
    exact ht
  | block name hadd =>
    obtain ⟨f, _, rfl⟩ := Build.addBlock_eq_ok hadd
    exact ht
  | instruction op args decl hemit =>
    obtain ⟨f, id, block, _, _, _, _, rfl⟩ := Build.emit_eq_ok hemit
    exact ht

/-- A relation that adding blocks and appending instructions go along holds between a function and
what it has grown into. -/
theorem function_rel {R : Function → Function → Prop} (hrefl : ∀ f, R f f)
    (htrans : ∀ f g k, R f g → R g k → R f k)
    (hblock : ∀ (f : Function) (block : Block), R f { f with blocks := f.blocks.push block })
    (hinst : ∀ (f : Function) id block inst decl, f.block? id = some block →
      R f (Build.extended f id block inst decl))
    (h : m.Grows m') {id : FuncId} {f : Function} (hf : m.function id = .ok f) :
    ∃ g, m'.function id = .ok g ∧ R f g := by
  induction h generalizing f with
  | refl | constant | global | string | intrinsic | globalInit => exact ⟨f, hf, hrefl f⟩
  | trans _ _ ih₁ ih₂ =>
    obtain ⟨g, hg, hfg⟩ := ih₁ hf
    obtain ⟨k, hk, hgk⟩ := ih₂ hg
    exact ⟨k, hk, htrans f g k hfg hgk⟩
  | function name ty hdeclare =>
    obtain ⟨g, _, h⟩ := except_bind_eq_ok_iff.mp hdeclare
    cases h
    refine ⟨f, ?_, hrefl f⟩
    unfold Module.function
    rw [orMissing_eq_ok_iff]
    exact getElem?_push_of_some (orMissing_eq_ok_iff.mp hf) g
  | block name hadd =>
    obtain ⟨g, hg, rfl⟩ := Build.addBlock_eq_ok hadd
    exact function_of_setFunction hrefl hg (hblock g _) hf
  | instruction op args decl hemit =>
    obtain ⟨g, _, block, _, hg, hfound, _, rfl⟩ := Build.emit_eq_ok hemit
    exact function_of_setFunction hrefl hg (hinst g _ _ _ _ hfound) hf

/-- A function keeps its type, its locals and its instructions. -/
theorem function_eq (h : m.Grows m') {id : FuncId} {f : Function} (hf : m.function id = .ok f) :
    ∃ g, m'.function id = .ok g ∧ f.Grows g :=
  h.function_rel Function.Grows.refl (fun _ _ _ => .trans) Build.grows_addBlock
    (fun _ _ _ inst decl hblock => Build.grows_extended hblock inst decl) hf

/-- What functions are declared with, and what adding blocks and appending instructions keeps up,
holds of every function. The result of an appended instruction is the next free local. -/
theorem forall_function {P : Function → Prop}
    (hdeclare : ∀ name ty f, Function.declare name ty = .ok f → P f)
    (hblock : ∀ (f : Function) name, P f → P { f with blocks := f.blocks.push ⟨name, #[]⟩ })
    (hinst : ∀ (f : Function) id block op args decl, f.block? id = some block → P f →
      P (Build.extended f id block ⟨op, args, decl.map fun _ => ⟨f.locals.size⟩⟩ decl))
    (h : m.Grows m') (hm : ∀ id f, m.function id = .ok f → P f) :
    ∀ id f, m'.function id = .ok f → P f := by
  induction h with
  | refl | constant | global | string | intrinsic | globalInit => exact hm
  | trans _ _ ih₁ ih₂ => exact ih₂ (ih₁ hm)
  | function name ty hdeclared =>
    obtain ⟨g, hg, h⟩ := except_bind_eq_ok_iff.mp hdeclared
    cases h
    intro id f hf
    have hf := orMissing_eq_ok_iff.mp hf
    -- The function that was found is the new one, or one of the old ones.
    rw [Array.getElem?_push] at hf
    split at hf
    · cases hf
      exact hdeclare name ty _ hg
    · exact hm id f (orMissing_eq_ok_iff.mpr hf)
  | block name hadd =>
    obtain ⟨g, hg, rfl⟩ := Build.addBlock_eq_ok hadd
    exact forall_setFunction hg (hblock g _ (hm _ g hg)) hm
  | instruction op args decl hemit =>
    obtain ⟨g, _, block, _, hg, hfound, rfl, rfl⟩ := Build.emit_eq_ok hemit
    exact forall_setFunction hg (hinst g _ block op args decl hfound (hm _ g hg)) hm

end Grows

end Module

/-! ## Parameters -/

/-- The first locals are the parameters, as ordinary values. -/
def Function.ParamsFirst (f : Function) : Prop :=
  ∀ sig, f.signature = .ok sig → ∀ (i : Nat) (ty : Ty), sig.params[i]? = some ty →
    f.local? ⟨i⟩ = some ⟨ty, false⟩

theorem Function.Grows.paramsFirst {f g : Function} (h : f.Grows g) (hf : f.ParamsFirst) :
    g.ParamsFirst := by
  intro sig hsig i ty hty
  rw [h.signature_eq] at hsig
  apply h.locals
  exact hf sig hsig i ty hty

theorem Function.paramsFirst_of_declare {name : String} {ty : Ty} {f : Function}
    (h : Function.declare name ty = .ok f) : f.ParamsFirst := by
  intro sig hsig i param hparam
  unfold Function.signature at hsig
  unfold Function.declare at h
  cases hty : ty.signature? with
  | none => simp [hty] at h
  | some sig' =>
    simp only [hty, Except.ok.injEq] at h
    subst h
    -- A function that shows its signature was declared with it, not with a pointer to it.
    split at hsig
    · rename_i params ret variadic hfun
      simp only at hfun
      subst hfun
      cases hty
      cases hsig
      simp only [Function.local?, List.getElem?_toArray, List.getElem?_map, hparam]
      rfl
    · cases hsig

/-- A module all of whose functions have their parameters first. -/
def Module.ParamsFirst (m : Module) : Prop :=
  ∀ id f, m.function id = .ok f → f.ParamsFirst

theorem Module.Grows.paramsFirst (h : m.Grows m') (hm : m.ParamsFirst) : m'.ParamsFirst :=
  h.forall_function (fun _ _ _ => Function.paramsFirst_of_declare)
    (fun f _ hf => (Build.grows_addBlock f _).paramsFirst hf)
    (fun _ _ _ _ _ decl hblock hf => (Build.grows_extended hblock _ decl).paramsFirst hf) hm

/-- However a module was built, the parameters of its functions are their first locals. -/
theorem Module.Built.paramsFirst (h : m.Built) : m.ParamsFirst := by
  obtain ⟨name, hgrows⟩ := h
  apply hgrows.paramsFirst
  intro id f hf
  have hf := orMissing_eq_ok_iff.mp hf
  simp at hf

/-! ## Building steps that only append -/

namespace Build

variable {α β : Type}

/-- The module grows, and the builder stays where it is positioned. -/
def Appends (x : Build α) : Prop := ∀ b a b', x b = .ok (a, b') →
  b.module.Grows b'.module ∧ b'.func = b.func ∧ b'.current = b.current

theorem Appends.bind {x : Build α} {f : α → Build β} (hx : Appends x)
    (hf : ∀ a, Appends (f a)) : Appends (x >>= f) := by
  intro b c b' h
  obtain ⟨a, b₁, ha, hc⟩ := bind_eq_ok_iff.mp h
  obtain ⟨hgrows, hfunc, hcur⟩ := hx b a b₁ ha
  obtain ⟨hgrows', hfunc', hcur'⟩ := hf a b₁ c b' hc
  exact ⟨hgrows.trans hgrows', hfunc'.trans hfunc, hcur'.trans hcur⟩

/-- A step that leaves the builder as it is appends nothing. -/
theorem appends_of_eq {x : Build α} (h : ∀ b a b', x b = .ok (a, b') → b' = b) : Appends x := by
  intro b a b' hx
  rw [h b a b' hx]
  exact ⟨.refl _, rfl, rfl⟩

theorem appends_pure (a : α) : Appends (pure a : Build α) :=
  appends_of_eq fun _ _ _ h => (pure_eq_ok_iff.mp h).2

theorem appends_get : Appends (get : Build Builder) :=
  appends_of_eq fun _ _ _ h => (get_eq_ok_iff.mp h).2.symm

theorem appends_throw (e : Fault) : Appends (throw e : Build α) :=
  appends_of_eq fun _ _ _ h => absurd h throw_ne_ok

theorem appends_lift (x : Except Fault α) : Appends (liftM x : Build α) :=
  appends_of_eq fun _ _ _ h => (lift_eq_ok_iff.mp h).2.symm

theorem appends_function : Appends function :=
  appends_of_eq fun _ _ _ h => (function_eq_ok_iff.mp h).2.symm

theorem appends_typeOf (o : Operand) : Appends (typeOf o) := by
  cases o with
  | «local» l =>
    refine appends_function.bind fun f => ?_
    split
    · exact appends_pure _
    · exact appends_throw _
  | const id =>
    exact appends_get.bind fun _ => (appends_lift _).bind fun _ => appends_pure _
  | type ty => exact appends_pure ty
  | block block => exact appends_throw _

theorem appends_onModule {f : Module → α × Module} (hf : ∀ m : Module, m.Grows (f m).2) :
    Appends (onModule f) := by
  intro b a b' h
  simp only [onModule, bind_eq_ok_iff, get_eq_ok_iff, set_eq_ok_iff, pure_eq_ok_iff] at h
  obtain ⟨_, _, ⟨rfl, rfl⟩, _, _, rfl, _, rfl⟩ := h
  exact ⟨hf _, rfl, rfl⟩

theorem appends_tryModule {f : Module → Except Fault (α × Module)}
    (hf : ∀ (m : Module) a m', f m = .ok (a, m') → m.Grows m') : Appends (tryModule f) := by
  intro b a b' h
  simp only [tryModule, bind_eq_ok_iff, get_eq_ok_iff, set_eq_ok_iff, pure_eq_ok_iff,
    lift_eq_ok_iff] at h
  obtain ⟨_, _, ⟨rfl, rfl⟩, ⟨a, m⟩, _, ⟨hfound, rfl⟩, _, _, rfl, _, rfl⟩ := h
  exact ⟨hf _ a m hfound, rfl, rfl⟩

theorem appends_constInt (ty : Ty) (value : Int) : Appends (constInt ty value) :=
  (appends_onModule fun m => .constant m ty (.int value)).bind fun _ => appends_pure _

theorem appends_constFunction (func : FuncId) : Appends (constFunction func) := by
  refine Appends.bind (appends_tryModule fun m c m' h => ?_) fun _ => appends_pure _
  obtain ⟨f, _, h⟩ := except_bind_eq_ok_iff.mp h
  cases h
  exact .constant m f.ty (.function func)

theorem appends_emit (op : Opcode) (args : List Operand) (decl : Option LocalDecl) :
    Appends (emit op args decl) := by
  intro b result b' h
  refine ⟨.instruction op args decl h, ?_⟩
  obtain ⟨f, id, block, _, _, _, _, rfl⟩ := emit_eq_ok h
  exact ⟨rfl, rfl⟩

/-- An instruction with a result is emitted together with the declaration of the result. -/
theorem emit_of_emitBound {op : Opcode} {args : List Operand} {decl : LocalDecl} {l : Local}
    {b b' : Builder} (h : emitBound op args decl b = .ok (l, b')) :
    emit op args (some decl) b = .ok (some l, b') :=
  bind_eq_ok_iff.mpr ⟨l, b', h, pure_eq_ok_iff.mpr ⟨rfl, rfl⟩⟩

theorem emit_of_emitVoid {op : Opcode} {args : List Operand} {b b' : Builder}
    (h : emitVoid op args b = .ok ((), b')) : emit op args none b = .ok (none, b') :=
  bind_eq_ok_iff.mpr ⟨(), b', h, pure_eq_ok_iff.mpr ⟨rfl, rfl⟩⟩

theorem appends_emitBound (op : Opcode) (args : List Operand) (decl : LocalDecl) :
    Appends (emitBound op args decl) :=
  fun b l b' h => appends_emit op args (some decl) b (some l) b' (emit_of_emitBound h)

theorem appends_emitVoid (op : Opcode) (args : List Operand) : Appends (emitVoid op args) :=
  fun b _ b' h => appends_emit op args none b none b' (emit_of_emitVoid h)

theorem appends_emitValue (op : Opcode) (args : List Operand) (ty : Ty) :
    Appends (emitValue op args ty) :=
  (appends_emitBound op args _).bind fun _ => appends_pure _

theorem appends_emitLValue (op : Opcode) (args : List Operand) (ty : Ty) :
    Appends (emitLValue op args ty) :=
  (appends_emitBound op args _).bind fun _ => appends_pure _

end Build

/-! ## A small module

One function stores its argument in a variable and returns twice the variable; the other one
takes a variable too and then fails. -/

namespace Doubling

def double : Build Unit := do
  let cell ← Build.createLVal Ty.i32
  Build.store (.local ⟨0⟩) cell
  let twice ← Build.binary (.binary (.int true .add)) cell cell
  Build.ret (some twice)

def stuck : Build Unit := do
  let _ ← Build.createLVal Ty.i32
  Build.unreachable

/-- A function with one block, which is filled by `body`. -/
def fill (m : Module) (name : String) (ty : Ty) (body : Build Unit) : Except Fault Builder := do
  let (id, m) ← m.declareFunction name ty
  let (entry, b) ← Build.addBlock "entry" { module := m, func := id }
  let (_, b) ← body { b with current := some entry }
  return b

def define (m : Module) (name : String) (ty : Ty) (body : Build Unit) : Except Fault Module := do
  return (← fill m name ty body).module

def build : Except Fault Module := do
  let m ← define { name := "doubling" } "double" (.function [Ty.i32] Ty.i32 false) double
  define m "stuck" (.function [] .void false) stuck

def «module» : Module := build.toOption.get (by decide +kernel)

theorem grows_fill {name : String} {ty : Ty} {body : Build Unit} (hbody : Build.Appends body)
    {b : Builder} (h : fill m name ty body = .ok b) : m.Grows b.module := by
  obtain ⟨⟨id, m₀⟩, hdeclare, h⟩ := except_bind_eq_ok_iff.mp h
  obtain ⟨⟨entry, b₀⟩, hblock, h⟩ := except_bind_eq_ok_iff.mp h
  obtain ⟨⟨_, b'⟩, hfilled, h⟩ := except_bind_eq_ok_iff.mp h
  cases h
  exact .trans (.function _ _ hdeclare) (.trans (.block _ hblock) (hbody _ _ _ hfilled).1)

theorem grows_define {name : String} {ty : Ty} {body : Build Unit} (hbody : Build.Appends body)
    (h : define m name ty body = .ok m') : m.Grows m' := by
  obtain ⟨b, hb, h⟩ := except_bind_eq_ok_iff.mp h
  cases h
  exact grows_fill hbody hb

theorem appends_double : Build.Appends double :=
  (Build.appends_emitLValue _ _ _).bind fun _ => (Build.appends_emitVoid _ _).bind fun _ =>
    ((Build.appends_typeOf _).bind fun _ => Build.appends_emitValue _ _ _).bind fun _ =>
      Build.appends_emitVoid _ _

theorem appends_stuck : Build.Appends stuck :=
  (Build.appends_emitLValue _ _ _).bind fun _ => Build.appends_emitVoid _ _

theorem module_built : Module.Built «module» := by
  have hbuild : build = .ok «module» := rfl
  obtain ⟨m, hdouble, hstuck⟩ := except_bind_eq_ok_iff.mp hbuild
  exact ⟨"doubling", .trans (grows_define appends_double hdouble)
    (grows_define appends_stuck hstuck)⟩

end Doubling

end PackedIR
