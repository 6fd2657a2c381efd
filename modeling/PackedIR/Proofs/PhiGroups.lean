/-
PHI nodes at the head of a block.

PHIs are executed like all instructions: one after the other, and each has bound its result before
the next one is looked at. So a PHI takes the value that its operand had on entry to the block,
unless the operand is the result of an earlier PHI of the group. Then it takes the value that has
just been bound. A group whose PHIs do not take each other's results acts as if they were bound at
once, and their order does not matter; a group that should exchange two values does not.
-/
import PackedIR.Proofs.Composites
import PackedIR.Proofs.Evaluation
import PackedIR.Proofs.Liveness
import PackedIR.Proofs.Reachable
import Mathlib.Data.List.Nodup

set_option autoImplicit false

namespace PackedIR

open Exec

variable {p : Program} {s t u : State} {fr : Frame} {rest : List Frame} {f : Function}
  {pred : BlockId} {base : Nat}

/-! ## Operands that have a value -/

namespace Exec

/-- A local is its binding, or what lies at the bound address when it is an l-value. -/
theorem localOperand_eq (hfr : s.frames = fr :: rest) (hf : p.module.function fr.function = .ok f)
    (l : Local) :
    localOperand p l s = (match fr.lookup? l with
      | none => liftM (raise (.unboundValue l f.name) : Result Value)
      | some v => match f.local? l with
        | some ⟨ty, true⟩ => do return (← load p (← v.asAddress) ty).withOrigin (.local l)
        | _ => return v : Exec Value) s := by
  unfold localOperand
  rw [bind_of_ok (frame_eq_ok_iff.mpr ⟨rfl, rest, hfr⟩), hf]
  exact bind_of_ok (liftFault_ok f s)

/-- What lies at an address is found again where loads give the same. -/
theorem decay_of_load {p' : Program} {s' : State} {v w : Value} {ty : Ty} {origin : Origin}
    (hload : ∀ address v, load p address ty s = .ok v s → load p' address ty s' = .ok v s')
    (h : (do return (← load p (← v.asAddress) ty).withOrigin origin : Exec Value) s = .ok w t) :
    (do return (← load p' (← v.asAddress) ty).withOrigin origin : Exec Value) s' = .ok w s' := by
  obtain ⟨address, _, hlift, hrest⟩ := bind_eq_ok_iff.mp h
  obtain ⟨haddress, rfl⟩ := lift_eq_ok_iff.mp hlift
  obtain ⟨loaded, _, hloaded, hvalue⟩ := bind_eq_ok_iff.mp hrest
  cases (reads_load p address ty).state_eq hloaded
  cases hvalue
  rw [haddress, bind_of_ok (lift_ok _ _), bind_of_ok (hload address loaded hloaded), pure_apply]

/-- An operand that is evaluated without anything being made has the same value wherever its local
is bound alike, constants are still cached, and loads give the same. -/
theorem operand_of_settled {p' : Program} {s' : State} {fr' : Frame} {rest' : List Frame}
    {f' : Function} {o : Operand} {w : Value}
    (hfr : s.frames = fr :: rest) (hf : p.module.function fr.function = .ok f)
    (hfr' : s'.frames = fr' :: rest') (hf' : p'.module.function fr'.function = .ok f')
    (hlocals : f'.locals = f.locals) (hconstants : p'.module.constants = p.module.constants)
    (hlookup : ∀ l, o = .local l → fr'.lookup? l = fr.lookup? l)
    (hcached : ∀ id v, s.constants.get? id = some v → s'.constants.get? id = some v)
    (hload : ∀ address ty v, load p address ty s = .ok v s → load p' address ty s' = .ok v s')
    (h : operand p o s = .ok w s) : operand p' o s' = .ok w s' := by
  cases o with
  | «local» l =>
    have hl : f'.local? l = f.local? l := by
      unfold Function.local?
      rw [hlocals]
    rw [operand, localOperand_eq hfr hf] at h
    rw [operand, localOperand_eq hfr' hf', hlookup l rfl, hl]
    cases hbound : fr.lookup? l with
    | none =>
      simp only [hbound] at h
      exact absurd (lift_eq_ok_iff.mp h).1 (by simp)
    | some v =>
      simp only [hbound] at h ⊢
      cases hdecl : f.local? l with
      | none =>
        simp only [hdecl] at h ⊢
        cases h
        rfl
      | some decl =>
        obtain ⟨ty, lvalue⟩ := decl
        cases lvalue with
        | false =>
          simp only [hdecl] at h ⊢
          cases h
          rfl
        | true =>
          simp only [hdecl] at h ⊢
          exact decay_of_load (fun address v => hload address _ v) h
  | const id =>
    obtain ⟨c, _, hlift, hrest⟩ := bind_eq_ok_iff.mp h
    obtain ⟨hc, rfl⟩ := liftFault_eq_ok_iff.mp hlift
    obtain ⟨v, u, hv, hvalue⟩ := bind_eq_ok_iff.mp hrest
    -- The constant was cached before, since evaluating it has changed nothing.
    cases (reads_decayConst id c v).state_eq hvalue
    have hfound := hcached id v (constants_get?_of_constValueWith hv)
    have hc' : p'.module.constant id = .ok c := by
      unfold Module.constant at hc ⊢
      rw [hconstants]
      exact hc
    rw [operand, constOperand, hc', bind_of_ok (liftFault_ok _ _), constValue,
      bind_of_ok (constValueWith_of_cached hfound _)]
    unfold decayConst at hvalue ⊢
    cases hkind : c.kind with
    | globalVar g =>
      simp only [hkind] at hvalue ⊢
      exact decay_of_load (fun address v => hload address _ v) hvalue
    | _ =>
      simp only [hkind] at hvalue ⊢
      cases hvalue
      rfl
  | block | type => exact absurd (lift_eq_ok_iff.mp h).1 (by simp)

/-- Once evaluated, an operand has its value without anything being made. -/
theorem operand_again {o : Operand} {v : Value} (h : operand p o s = .ok v t) :
    operand p o t = .ok v t := by
  cases o with
  | «local» l =>
    have ht : t = s := (localOperand_reads l).state_eq h
    rw [ht] at h ⊢
    exact h
  | const id =>
    obtain ⟨c, _, hlift, hrest⟩ := bind_eq_ok_iff.mp h
    obtain ⟨hc, rfl⟩ := liftFault_eq_ok_iff.mp hlift
    obtain ⟨w, u, hw, hvalue⟩ := bind_eq_ok_iff.mp hrest
    cases (reads_decayConst id c w).state_eq hvalue
    rw [operand, constOperand, hc, bind_of_ok (liftFault_ok _ _), constValue,
      bind_of_ok (constValueWith_of_cached (constants_get?_of_constValueWith hw) _)]
    exact hvalue
  | block | type => exact absurd (lift_eq_ok_iff.mp h).1 (by simp)

end Exec

/-- Evaluation does not look at frames unless an operand is a local. -/
theorem Makes.withFrames (h : Makes p s t) (frames : List Frame) :
    Makes p { s with frames } { t with frames } := by
  induction h with
  | refl => exact .refl _
  | trans _ _ ih₁ ih₂ => exact .trans ih₁ ih₂
  | place kind bytes nonempty room recorded => exact .place kind bytes nonempty room recorded
  | intern id address missing => exact .intern id address missing
  | prepare id found missing terminated room => exact .prepare id found missing terminated room
  | @make s t id c v found missing _ admitted ih =>
    exact Makes.make (s := { s with frames }) id v found missing ih admitted

/-- Evaluation that takes no storage leaves memory as it is. -/
theorem Makes.memory_eq_or_taken_lt (h : Makes p s t) :
    t.memory = s.memory ∨ s.memory.taken < t.memory.taken := by
  induction h with
  | refl | intern | prepare => exact .inl rfl
  | make _ _ _ _ _ _ ih => exact ih
  | trans _ _ ih₁ ih₂ =>
    rcases ih₁ with h₁ | h₁
    · rw [← h₁]
      exact ih₂
    · right
      rcases ih₂ with h₂ | h₂
      · rw [h₂]
        exact h₁
      · exact Nat.lt_trans h₁ h₂
  | place => exact .inr (Nat.lt_succ_self _)

/-- Memory that is the same in the end has not changed in between. -/
theorem Makes.memory_between (h : Makes p s u) (h' : Makes p u t) (hsame : t.memory = s.memory) :
    u.memory = s.memory := by
  rcases h.memory_eq_or_taken_lt with heq | hlt
  · exact heq
  · rcases h'.memory_eq_or_taken_lt with heq | hlt'
    · rw [← heq, hsame]
    · rw [hsame] at hlt'
      omega

/-- What was loaded before storage was added is loaded again, unless loads are not checked and the
address may lie in the new storage. -/
theorem Exec.load_of_makes (hhost : p.host.KeepsExtent) (htidy : s.memory.Tidy)
    (h : Makes p s t) (s' : State) (hs' : s'.memory = t.memory)
    (hmemory : p.config.sanitizeMemory = true ∨ t.memory = s.memory) {address : Nat} {ty : Ty}
    {v : Value} (hload : load p address ty s = .ok v s) : load p address ty s' = .ok v s' := by
  have hlift : s.memory.load p.config.sanitizeMemory address ty = .ok v :=
    (lift_eq_ok_iff.mp hload).1
  change (liftM (s'.memory.load p.config.sanitizeMemory address ty) : Exec Value) s' = _
  rw [hs']
  refine lift_eq_ok_iff.mpr ⟨?_, rfl⟩
  rcases hmemory with hsanitize | hsame
  · rw [hsanitize] at hlift ⊢
    obtain ⟨a, hcheck, hbytes⟩ := except_bind_eq_ok_iff.mp hlift
    have hallowed : s.memory.accessible true address ty.size = true := by
      unfold Memory.checkAccess at hcheck
      split at hcheck
      · assumption
      · exact absurd hcheck (by simp)
    have hkeeps := h.keeps htidy.housed
    have htidy' := h.evolves.tidy hhost htidy
    -- What may be accessed is empty or live, and live bytes keep their place and contents.
    have hread : t.memory.arena.read address ty.size = s.memory.arena.read address ty.size := by
      rcases htidy.accessible_iff.mp hallowed with hzero | hlive
      · rw [hzero]
        rfl
      · exact hkeeps.read_eq hlive
    have hallowed' : t.memory.accessible true address ty.size = true :=
      htidy'.accessible_iff.mpr ((htidy.accessible_iff.mp hallowed).imp_right hkeeps.live)
    unfold Memory.load Memory.checkAccess
    rw [if_pos hallowed', hread]
    exact hbytes
  · rw [hsame]
    exact hlift

/-! ## One PHI -/

/-- A PHI node as it acts on an entry from `pred`: it takes `source` and binds `target`. -/
structure Phi (pred : BlockId) where
  inst : Instruction
  source : Operand
  target : Local
  op : inst.op = .phi
  even : inst.args.length % 2 = 0
  listed : phiOperand (some pred) inst.args = .ok (some source)
  result : inst.result = some target

namespace Phi

variable (φ : Phi pred)

/-- The value `v` is bound to the result of the PHI, under the type that is declared for it. -/
def Binds (f : Function) (v : Value) (s t : State) : Prop :=
  ∃ decl bound fr rest, f.local? φ.target = some decl ∧ v.retype decl.boundTy = .ok bound ∧
    s.frames = fr :: rest ∧ φ.target.index < fr.locals.size ∧
    t = s.bound fr rest φ.target bound

theorem execute_eq (hfr : s.frames = fr :: rest) (hprevious : fr.previous = some pred) :
    execute p f φ.inst s = (do return .complete (some (← operand p φ.source)) : Exec Flow) s := by
  have heven : ¬φ.inst.args.length % 2 ≠ 0 := by
    rw [φ.even]
    exact fun h => h rfl
  unfold execute
  rw [φ.op]
  change (do return .complete (some (← phi p f φ.inst)) : Exec Flow) s = _
  unfold phi
  rw [bind_assoc, bind_of_ok (frame_eq_ok_iff.mpr ⟨rfl, rest, hfr⟩)]
  dsimp only
  rw [if_neg heven, hprevious, φ.listed, bind_assoc, bind_of_ok (lift_ok _ _)]

theorem complete_eq_ok_iff {v : Value} :
    complete f φ.inst (some v) s = .ok () t ↔ φ.Binds f v s t := by
  have hcomplete : complete f φ.inst (some v) s = .ok () t ↔ ∃ a u,
      bindResult f φ.inst v s = .ok a u ∧ modifyFrame Frame.advance u = .ok () t := bind_eq_ok_iff
  rw [hcomplete]
  constructor
  · rintro ⟨_, u, hbind, hadvance⟩
    obtain ⟨decl, bound, fr, rest, hdecl, hbound, hfr, hslot, rfl⟩ :=
      (bindResult_eq_ok_iff φ.result).mp hbind
    rw [modifyFrame_cons (by rfl)] at hadvance
    cases hadvance
    exact ⟨decl, bound, fr, rest, hdecl, hbound, hfr, hslot, rfl⟩
  · rintro ⟨decl, bound, fr, rest, hdecl, hbound, hfr, hslot, rfl⟩
    refine ⟨(), _, (bindResult_eq_ok_iff φ.result).mpr
      ⟨decl, bound, fr, rest, hdecl, hbound, hfr, hslot, rfl⟩, ?_⟩
    rw [modifyFrame_cons (by rfl)]
    rfl

/-- A step at a PHI evaluates its operand and binds the value. -/
theorem step_eq_ok_iff {block : Block} (hfr : s.frames = fr :: rest)
    (hprevious : fr.previous = some pred) (hcur : fr.current p.module = .ok (f, block, φ.inst)) :
    step p base s = .ok none t ↔ ∃ v u, operand p φ.source s = .ok v u ∧ φ.Binds f v u t := by
  have hexecute := φ.execute_eq (p := p) (f := f) hfr hprevious
  rw [bind_apply] at hexecute
  cases hoperand : operand p φ.source s with
  | error e u =>
    rw [hoperand] at hexecute
    rw [step_of_execute_error base hfr hcur hexecute]
    simp
  | ok v u =>
    rw [hoperand] at hexecute
    rw [step_of_executed base hfr hcur hexecute, proceed, bind_eq_ok_iff]
    constructor
    · rintro ⟨_, w, hcomplete, hdone⟩
      cases hdone
      exact ⟨v, u, rfl, φ.complete_eq_ok_iff.mp hcomplete⟩
    · rintro ⟨v', u', heq, hbinds⟩
      cases heq
      exact ⟨(), t, φ.complete_eq_ok_iff.mpr hbinds, rfl⟩

end Phi

/-! ## A group of PHIs -/

/-- The machine takes so many steps, and none of them fails or ends the run. -/
inductive Advances (p : Program) (base : Nat) : Nat → State → State → Prop where
  | zero (s : State) : Advances p base 0 s s
  | succ {n : Nat} {s t u : State} : step p base s = .ok none t → Advances p base n t u →
      Advances p base (n + 1) s u

theorem Advances.eq {n : Nat} (h : Advances p base n s t) (h' : Advances p base n s u) : t = u := by
  induction h with
  | zero =>
    cases h'
    rfl
  | succ hstep _ ih =>
    cases h' with
    | succ hstep' hrest' =>
      rw [hstep] at hstep'
      cases hstep'
      exact ih hrest'

/-- The innermost frame has come from `pred` to a block, and the PHIs are its next instructions. -/
structure AtPhis (p : Program) (phis : List (Phi pred)) (fr : Frame) (f : Function) (block : Block)
    (others : List Instruction) : Prop where
  found : p.module.function fr.function = .ok f
  located : f.block? fr.block = some block
  previous : fr.previous = some pred
  group : block.instructions.toList.drop fr.pc = phis.map Phi.inst ++ others

namespace AtPhis

variable {φ : Phi pred} {phis : List (Phi pred)} {block : Block} {others : List Instruction}

theorem current (h : AtPhis p (φ :: phis) fr f block others) :
    fr.current p.module = .ok (f, block, φ.inst) := by
  have hhead := congrArg (·[0]?) h.group
  simp only [List.getElem?_drop, List.map_cons, List.cons_append, List.getElem?_cons_zero,
    Nat.add_zero, Array.getElem?_toList] at hhead
  rw [Frame.current_of_function h.found]
  simp only [h.located, hhead]

/-- The next PHI of the group is reached when one has been bound. -/
theorem tail (h : AtPhis p (φ :: phis) fr f block others) (l : Local) (v : Value) :
    AtPhis p phis (fr.set l v).advance f block others := by
  refine ⟨h.found, h.located, h.previous, ?_⟩
  change block.instructions.toList.drop (fr.pc + 1) = _
  rw [← List.tail_drop, h.group]
  rfl

end AtPhis

/-- PHIs are executed one after the other, each with the value that its operand has at its turn. -/
inductive InTurn (p : Program) (f : Function) : List (Phi pred × Value) → State → State → Prop where
  | nil (s : State) : InTurn p f [] s s
  | cons {φ : Phi pred} {v : Value} {taken : List (Phi pred × Value)} {s u t w : State} :
      operand p φ.source s = .ok v u → φ.Binds f v u t → InTurn p f taken t w →
      InTurn p f ((φ, v) :: taken) s w

/-- The steps at a group of PHIs execute them in turn. -/
theorem Advances.inTurn {phis : List (Phi pred)} {block : Block} {others : List Instruction}
    (h : Advances p base phis.length s t) (hfr : s.frames = fr :: rest)
    (hat : AtPhis p phis fr f block others) :
    ∃ taken, taken.map Prod.fst = phis ∧ InTurn p f taken s t := by
  induction phis generalizing s fr with
  | nil =>
    cases h
    exact ⟨[], rfl, .nil _⟩
  | cons φ phis ih =>
    cases h with
    | succ hstep hrest =>
      obtain ⟨v, u, hoperand, hbinds⟩ :=
        (φ.step_eq_ok_iff hfr hat.previous hat.current).mp hstep
      have hu : u.frames = fr :: rest := by
        rw [← (operand_makes φ.source).of_ok hoperand |>.frames_eq] at hfr
        exact hfr
      have hbound := hbinds
      obtain ⟨decl, bound, fr', rest', _, _, hfr', _, rfl⟩ := hbound
      rw [hu] at hfr'
      cases hfr'
      obtain ⟨taken, hmap, hturn⟩ := ih hrest rfl (hat.tail _ _)
      exact ⟨(φ, v) :: taken, by rw [List.map_cons, hmap], .cons hoperand hbinds hturn⟩

namespace InTurn

variable {before after taken : List (Phi pred × Value)} {φ : Phi pred} {v : Value}

/-- The turn of one PHI, with what comes before and after. -/
theorem split (h : InTurn p f (before ++ (φ, v) :: after) s t) :
    ∃ s₁ u s₂, InTurn p f before s s₁ ∧ operand p φ.source s₁ = .ok v u ∧ φ.Binds f v u s₂ ∧
      InTurn p f after s₂ t := by
  induction before generalizing s with
  | nil =>
    cases h with
    | cons hoperand hbinds hrest => exact ⟨s, _, _, .nil s, hoperand, hbinds, hrest⟩
  | cons q before ih =>
    cases h with
    | cons hoperand hbinds hrest =>
      obtain ⟨s₁, u, s₂, hbefore, hturn⟩ := ih hrest
      exact ⟨s₁, u, s₂, .cons hoperand hbinds hbefore, hturn⟩

/-- The innermost frame stays, and only results of the PHIs are bound anew. -/
theorem frames (h : InTurn p f taken s t) (hfr : s.frames = fr :: rest) :
    ∃ fr', t.frames = fr' :: rest ∧ fr'.function = fr.function ∧
      ∀ l, (∀ q ∈ taken, q.1.target ≠ l) → fr'.lookup? l = fr.lookup? l := by
  induction h generalizing fr with
  | nil => exact ⟨fr, hfr, rfl, fun _ _ => rfl⟩
  | @cons φ v taken s u t w hoperand hbinds _ ih =>
    obtain ⟨decl, bound, fr₁, rest₁, _, _, hfr₁, _, rfl⟩ := hbinds
    rw [(operand_makes φ.source).of_ok hoperand |>.frames_eq, hfr] at hfr₁
    cases hfr₁
    obtain ⟨fr', hfr', hfunction, hlookup⟩ := ih rfl
    refine ⟨fr', hfr', hfunction, fun l hl => ?_⟩
    obtain ⟨hne, hothers⟩ := List.forall_mem_cons.mp hl
    rw [hlookup l hothers]
    change (fr.set φ.target _).lookup? l = _
    rw [Frame.lookup?_set, if_neg fun h => hne h.1.symm]

/-- Apart from the innermost frame, executing PHIs is evaluation. -/
theorem makes (h : InTurn p f taken s t) : Makes p s { t with frames := s.frames } := by
  induction h with
  | nil => exact .refl _
  | @cons φ v taken s u t w hoperand hbinds _ ih =>
    obtain ⟨decl, bound, fr₁, rest₁, _, _, _, _, rfl⟩ := hbinds
    have hmakes := (operand_makes φ.source).of_ok hoperand
    refine .trans hmakes ?_
    rw [← hmakes.frames_eq]
    exact ih.withFrames u.frames

/-- The value of an operand whose local is not bound by the PHIs stays as it was. -/
theorem operand_eq (h : InTurn p f taken s t) (hhost : p.host.KeepsExtent)
    (htidy : s.memory.Tidy) (hfr : s.frames = fr :: rest)
    (hf : p.module.function fr.function = .ok f)
    (hmemory : p.config.sanitizeMemory = true ∨ t.memory = s.memory) {o : Operand} {w : Value}
    (ho : ∀ q ∈ taken, o ≠ .local q.1.target) (hw : operand p o s = .ok w s) :
    operand p o t = .ok w t := by
  obtain ⟨fr', hfr', hfunction, hlookup⟩ := h.frames hfr
  have hf' : p.module.function fr'.function = .ok f := by
    rw [hfunction]
    exact hf
  refine operand_of_settled hfr hf hfr' hf' rfl rfl (fun l hl => ?_) (fun id v hv => ?_)
    (fun address ty v hload => ?_) hw
  · refine hlookup l fun q hq heq => ho q hq ?_
    rw [hl, heq]
  · exact h.makes.constants_get? hv
  · exact load_of_makes hhost htidy h.makes t rfl hmemory hload

/-- What a PHI has bound stays bound until the end of the group. -/
theorem lookup?_target (hbinds : φ.Binds f v s u) (hafter : InTurn p f after u t)
    (hfr : s.frames = fr :: rest) (hlater : ∀ q ∈ after, q.1.target ≠ φ.target) :
    ∃ fr' decl bound, t.frames = fr' :: rest ∧ f.local? φ.target = some decl ∧
      v.retype decl.boundTy = .ok bound ∧
      fr'.lookup? φ.target = some (bound.withOrigin (.local φ.target)) := by
  obtain ⟨decl, bound, fr₁, rest₁, hdecl, hbound, hfr₁, hslot, rfl⟩ := hbinds
  rw [hfr] at hfr₁
  cases hfr₁
  obtain ⟨fr', hfr', _, hlookup⟩ := hafter.frames rfl
  refine ⟨fr', decl, bound, hfr', hdecl, hbound, ?_⟩
  rw [hlookup φ.target hlater]
  change (fr.set φ.target _).lookup? φ.target = _
  rw [Frame.lookup?_set, if_pos ⟨rfl, hslot⟩]

end InTurn

/-- What has happened to a PHI when its group has been executed from `s` to `t`. Its result holds
the value that its operand had at its turn, under the declared type. That is the value on entry
unless a PHI that stands before it has bound the operand; in that case, and for constants, it is the
value that the operand has after the group. -/
def Phi.Outcome (φ : Phi pred) (p : Program) (f : Function) (before : List (Phi pred))
    (s t : State) (rest : List Frame) : Prop :=
  ∃ fr v decl bound, t.frames = fr :: rest ∧ f.local? φ.target = some decl ∧
    v.retype decl.boundTy = .ok bound ∧
    fr.lookup? φ.target = some (bound.withOrigin (.local φ.target)) ∧
    ((∀ φ' ∈ before, φ.source ≠ .local φ'.target) →
      ∀ w, operand p φ.source s = .ok w s → v = w) ∧
    ((∃ φ' ∈ before, φ.source = .local φ'.target) ∨ (∃ id, φ.source = .const id) →
      operand p φ.source t = .ok v t)

theorem InTurn.outcome {before after : List (Phi pred × Value)} {φ : Phi pred} {v : Value}
    (h : InTurn p f (before ++ (φ, v) :: after) s t) (hhost : p.host.KeepsExtent)
    (htidy : s.memory.Tidy) (hfr : s.frames = fr :: rest)
    (hf : p.module.function fr.function = .ok f)
    (hmemory : p.config.sanitizeMemory = true ∨ t.memory = s.memory)
    (hearlier : ∀ q ∈ before, q.1.target ≠ φ.target)
    (hlater : ∀ q ∈ after, q.1.target ≠ φ.target)
    (hapart : ∀ q ∈ before, ∀ q' ∈ after, q'.1.target ≠ q.1.target) :
    φ.Outcome p f (before.map Prod.fst) s t rest := by
  obtain ⟨s₁, u, s₂, hbefore, hoperand, hbinds, hafter⟩ := h.split
  obtain ⟨fr₁, hfr₁, hfunction, _⟩ := hbefore.frames hfr
  have hmakes := (operand_makes φ.source).of_ok hoperand
  have hu : u.frames = fr₁ :: rest := by rw [hmakes.frames_eq, hfr₁]
  have hf₁ : p.module.function fr₁.function = .ok f := by
    rw [hfunction]
    exact hf
  obtain ⟨fr', decl, bound, hfr', hdecl, hbound, hlookup⟩ :=
    InTurn.lookup?_target hbinds hafter hu hlater
  -- The operand is evaluated in `s₁` and has its value in `u`; the rest of the group follows.
  have hturn : InTurn p f ((φ, v) :: after) s₁ t := .cons hoperand hbinds hafter
  have hrest : InTurn p f ((φ, v) :: after) u t := .cons (operand_again hoperand) hbinds hafter
  refine ⟨fr', v, decl, bound, hfr', hdecl, hbound, hlookup, fun hnot w hw => ?_, fun hsource => ?_⟩
  · have hmemory₁ : p.config.sanitizeMemory = true ∨ s₁.memory = s.memory :=
      hmemory.imp_right (hbefore.makes.memory_between (hturn.makes.withFrames s.frames))
    have hsame := hbefore.operand_eq hhost htidy hfr hf hmemory₁
      (fun q hq => hnot q.1 (List.mem_map_of_mem hq)) hw
    rw [hoperand] at hsame
    cases hsame
    rfl
  · have hmakes₁ : Makes p s { u with frames := s.frames } := by
      refine .trans hbefore.makes ?_
      exact hmakes.withFrames s.frames
    have htidy₁ : u.memory.Tidy := hmakes₁.evolves.tidy hhost htidy
    have hmemory₁ : p.config.sanitizeMemory = true ∨ t.memory = u.memory := by
      refine hmemory.imp_right fun hsame => hsame.trans ?_
      exact (hmakes₁.memory_between (hrest.makes.withFrames s.frames) hsame).symm
    refine hrest.operand_eq hhost htidy₁ hu hf₁ hmemory₁ (fun q hq hlocal => ?_)
      (operand_again hoperand)
    -- The operand is an earlier result or a constant, and nothing from here on binds it.
    rcases hsource with ⟨φ', hφ', hsource⟩ | ⟨id, hsource⟩
    · obtain ⟨q', hq', rfl⟩ := List.mem_map.mp hφ'
      rw [hlocal, Operand.local.injEq] at hsource
      rcases List.mem_cons.mp hq with rfl | hq
      · exact hearlier q' hq' hsource.symm
      · exact hapart q' hq' q hq hsource
    · rw [hlocal] at hsource
      cases hsource

/-! ## The order of a group -/

namespace Phi

variable (φ : Phi pred)

/-- The value that a PHI is to bind if its operand is evaluated in `s`. -/
def given? (p : Program) (f : Function) (s : State) : Option Value :=
  match operand p φ.source s, f.local? φ.target with
  | .ok w _, some decl => (w.retype decl.boundTy).toOption
  | _, _ => none

/-- The frame after a PHI has bound what it takes in `s`. -/
def assign (p : Program) (f : Function) (s : State) (fr : Frame) : Frame :=
  (fr.set φ.target (((φ.given? p f s).getD default).withOrigin (.local φ.target))).advance

theorem binds_iff {f' : Function} {w : Value} (hw : operand p φ.source s = .ok w s)
    (hlocals : f'.locals = f.locals) (s' : State) (hfr : s'.frames = fr :: rest) :
    φ.Binds f' w s' t ↔ (φ.given? p f s).isSome = true ∧ φ.target.index < fr.locals.size ∧
      t = { s' with frames := φ.assign p f s fr :: rest } := by
  have hdecl : f'.local? φ.target = f.local? φ.target := by
    unfold Function.local?
    rw [hlocals]
  constructor
  · rintro ⟨decl, bound, fr', rest', hl, hre, hfr', hslot, rfl⟩
    rw [hfr] at hfr'
    cases hfr'
    have hgiven : φ.given? p f s = some bound := by
      unfold given?
      rw [hw, ← hdecl, hl]
      simp only [hre]
      rfl
    refine ⟨by rw [hgiven]; rfl, hslot, ?_⟩
    unfold assign
    rw [hgiven]
    rfl
  · rintro ⟨hsome, hslot, rfl⟩
    obtain ⟨bound, hgiven⟩ := Option.isSome_iff_exists.mp hsome
    have hgiven' := hgiven
    unfold given? at hgiven'
    rw [hw, ← hdecl] at hgiven'
    cases hl : f'.local? φ.target with
    | none => simp [hl] at hgiven'
    | some decl =>
      simp only [hl] at hgiven'
      cases hre : w.retype decl.boundTy with
      | error e =>
        rw [hre] at hgiven'
        cases hgiven'
      | ok bound' =>
        rw [hre] at hgiven'
        cases hgiven'
        refine ⟨decl, bound, fr, rest, hl, hre, hfr, hslot, ?_⟩
        unfold assign
        rw [hgiven]
        rfl

end Phi

/-- Every operand has a value in `s` without anything being made, and none is the result of another
PHI of the group. -/
structure Independent (p : Program) (s : State) (phis : List (Phi pred)) : Prop where
  settled : ∀ φ ∈ phis, ∃ w, operand p φ.source s = .ok w s
  foreign : ∀ φ ∈ phis, ∀ φ' ∈ phis, φ.target ≠ φ'.target → φ.source ≠ .local φ'.target
  distinct : (phis.map Phi.target).Nodup

namespace Independent

variable {φ : Phi pred} {phis phis' : List (Phi pred)} {block : Block}
  {others : List Instruction}

theorem tail (h : Independent p s (φ :: phis)) : Independent p s phis := by
  refine ⟨fun φ' hφ' => h.settled φ' (List.mem_cons_of_mem _ hφ'), fun φ' hφ' φ'' hφ'' => ?_, ?_⟩
  · exact h.foreign φ' (List.mem_cons_of_mem _ hφ') φ'' (List.mem_cons_of_mem _ hφ'')
  · exact (List.nodup_cons.mp h.distinct).2

theorem perm (h : Independent p s phis) (hperm : phis'.Perm phis) : Independent p s phis' := by
  refine ⟨fun φ hφ => h.settled φ (hperm.subset hφ), fun φ hφ φ' hφ' => ?_, ?_⟩
  · exact h.foreign φ (hperm.subset hφ) φ' (hperm.subset hφ')
  · exact ((hperm.map Phi.target).nodup_iff).mpr h.distinct

/-- An independent group binds what its operands have on entry, whatever program with the same
constants and locals it stands in. -/
theorem advances_iff {p' : Program} {f' : Function} {fr₁ : Frame} (h : Independent p s phis)
    (hfr : s.frames = fr :: rest) (hf : p.module.function fr.function = .ok f)
    (hconfig : p'.config = p.config) (hconstants : p'.module.constants = p.module.constants)
    (hlocals : f'.locals = f.locals) (hat : AtPhis p' phis fr₁ f' block others)
    (hlookup : ∀ φ ∈ phis, ∀ l, φ.source = .local l → fr₁.lookup? l = fr.lookup? l)
    (hsize : fr₁.locals.size = fr.locals.size) :
    Advances p' base phis.length { s with frames := fr₁ :: rest } t ↔
      (∀ φ ∈ phis, (φ.given? p f s).isSome = true ∧ φ.target.index < fr.locals.size) ∧
        t = { s with frames := phis.foldl (fun fr φ => φ.assign p f s fr) fr₁ :: rest } := by
  induction phis generalizing fr₁ with
  | nil =>
    constructor
    · intro hsteps
      cases hsteps
      exact ⟨by simp, rfl⟩
    · rintro ⟨_, rfl⟩
      exact .zero _
  | cons φ phis ih =>
    obtain ⟨w, hw⟩ := h.settled φ List.mem_cons_self
    have hload (address : Nat) (ty : Ty) (v : Value) (hload : load p address ty s = .ok v s) :
        load p' address ty { s with frames := fr₁ :: rest } =
          .ok v { s with frames := fr₁ :: rest } := by
      have hlift := (lift_eq_ok_iff.mp hload).1
      rw [← hconfig] at hlift
      exact lift_eq_ok_iff.mpr ⟨hlift, rfl⟩
    have hoperand : operand p' φ.source { s with frames := fr₁ :: rest } =
        .ok w { s with frames := fr₁ :: rest } :=
      operand_of_settled hfr hf rfl hat.found hlocals hconstants
        (hlookup φ List.mem_cons_self) (fun _ _ hv => hv) hload hw
    have hstep (t₁ : State) : step p' base { s with frames := fr₁ :: rest } = .ok none t₁ ↔
        (φ.given? p f s).isSome = true ∧ φ.target.index < fr.locals.size ∧
          t₁ = { s with frames := φ.assign p f s fr₁ :: rest } := by
      have hbinds := φ.binds_iff (t := t₁) hw hlocals { s with frames := fr₁ :: rest } rfl
      rw [φ.step_eq_ok_iff rfl hat.previous hat.current, hoperand, ← hsize]
      constructor
      · rintro ⟨v, u, heq, hbound⟩
        cases heq
        exact hbinds.mp hbound
      · intro hbound
        exact ⟨w, _, rfl, hbinds.mpr hbound⟩
    -- The PHIs that follow do not take what has just been bound.
    have hlookup' : ∀ φ' ∈ phis, ∀ l, φ'.source = .local l →
        (φ.assign p f s fr₁).lookup? l = fr.lookup? l := by
      intro φ' hφ' l hl
      have hne : φ'.target ≠ φ.target := by
        intro heq
        apply (List.nodup_cons.mp h.distinct).1
        rw [← heq]
        exact List.mem_map_of_mem hφ'
      have hl' : l ≠ φ.target := by
        rintro rfl
        exact h.foreign φ' (List.mem_cons_of_mem _ hφ') φ List.mem_cons_self hne hl
      change (fr₁.set φ.target _).lookup? l = _
      rw [Frame.lookup?_set, if_neg fun hsame => hl' hsame.1]
      exact hlookup φ' (List.mem_cons_of_mem _ hφ') l hl
    have hsize' : (φ.assign p f s fr₁).locals.size = fr.locals.size := by
      rw [← hsize]
      simp [Phi.assign, Frame.advance, Frame.set]
    have hrest := ih h.tail (hat.tail φ.target _) hlookup' hsize'
    rw [List.forall_mem_cons, List.foldl_cons]
    constructor
    · intro hsteps
      cases hsteps with
      | succ hfirst hlast =>
        obtain ⟨hgiven, hslot, rfl⟩ := (hstep _).mp hfirst
        obtain ⟨hready, ht⟩ := hrest.mp hlast
        exact ⟨⟨⟨hgiven, hslot⟩, hready⟩, ht⟩
    · rintro ⟨⟨⟨hgiven, hslot⟩, hready⟩, ht⟩
      exact .succ ((hstep _).mpr ⟨hgiven, hslot, rfl⟩) (hrest.mpr ⟨hready, ht⟩)

/-- PHIs with distinct results can be taken in any order. -/
theorem foldl_assign_perm (h : Independent p s phis) (hperm : phis'.Perm phis) (fr₁ : Frame) :
    phis'.foldl (fun fr φ => φ.assign p f s fr) fr₁ =
      phis.foldl (fun fr φ => φ.assign p f s fr) fr₁ := by
  refine hperm.foldl_eq' (fun φ hφ φ' hφ' fr₂ => ?_) fr₁
  by_cases hsame : φ = φ'
  · rw [hsame]
  · have hdistinct := (h.perm hperm).distinct
    have hne : φ.target.index ≠ φ'.target.index := fun heq =>
      hsame (List.inj_on_of_nodup_map hdistinct hφ hφ' (congrArg Local.mk heq))
    unfold Phi.assign Frame.advance Frame.set
    rw [Frame.mk.injEq]
    simp [Array.setIfInBounds_comm _ _ hne]

end Independent

/-- The block with a group of PHIs at its head. -/
def Block.headed (block : Block) (phis : List (Phi pred)) (others : List Instruction) : Block :=
  { block with instructions := (phis.map Phi.inst ++ others).toArray }

def Function.replaceBlock (f : Function) (id : BlockId) (block : Block) : Function :=
  { f with blocks := f.blocks.setIfInBounds id.index block }

/-- The program with another block in the place where a frame stands. -/
def Program.replaceBlock (p : Program) (fr : Frame) (f : Function) (block : Block) : Program :=
  { p with module := p.module.setFunction fr.function (f.replaceBlock fr.block block) }

/-- In the program with a reordered group the machine stands before that group. -/
theorem AtPhis.reordered {phis : List (Phi pred)} {block : Block} {others : List Instruction}
    (h : AtPhis p phis fr f block others) (hhead : fr.pc = 0) (phis' : List (Phi pred)) :
    AtPhis (p.replaceBlock fr f (block.headed phis' others)) phis' fr
      (f.replaceBlock fr.block (block.headed phis' others)) (block.headed phis' others) others := by
  refine ⟨Module.function_setFunction_self h.found, ?_, h.previous, ?_⟩
  · obtain ⟨hlt, _⟩ := Array.getElem?_eq_some_iff.mp h.located
    simp [Function.block?, Function.replaceBlock, hlt]
  · rw [hhead]
    rfl

/-- An independent group of PHIs does the same in every order. -/
theorem Independent.advances_reordered {phis phis' : List (Phi pred)} {block : Block}
    {others : List Instruction} (h : Independent p s phis) (hfr : s.frames = fr :: rest)
    (hat : AtPhis p phis fr f block others) (hhead : fr.pc = 0) (hperm : phis'.Perm phis) :
    Advances (p.replaceBlock fr f (block.headed phis' others)) base phis'.length s t ↔
      Advances p base phis.length s t := by
  have hs : s = { s with frames := fr :: rest } := by rw [← hfr]
  rw [hs]
  refine ((h.perm hperm).advances_iff hfr hat.found (by rfl) (by rfl) (by rfl)
    (hat.reordered hhead phis') (fun _ _ _ _ => rfl) rfl).trans ?_
  refine Iff.trans ?_
    (h.advances_iff hfr hat.found rfl rfl rfl hat (fun _ _ _ _ => rfl) rfl).symm
  rw [h.foldl_assign_perm hperm]
  simp only [hperm.mem_iff]

/-! ## What a group of PHIs does -/

/-- A group of PHIs is executed one after the other. Each takes the value that its operand had on
entry to the block unless an earlier PHI has bound the operand, which it then takes as it is bound.
When no PHI takes the result of another, and the operands have been evaluated before, the group does
the same in every order. -/
theorem phis_bind_in_turn (hhost : p.host.KeepsExtent) (hreach : Reachable p s)
    (hfr : s.frames = fr :: rest) {phis : List (Phi pred)} {block : Block}
    {others : List Instruction} (hat : AtPhis p phis fr f block others) (hhead : fr.pc = 0)
    (hdistinct : (phis.map Phi.target).Nodup) (hsteps : Advances p base phis.length s t) :
    (p.config.sanitizeMemory = true ∨ t.memory = s.memory →
      ∀ before φ after, phis = before ++ φ :: after → φ.Outcome p f before s t rest) ∧
    (Independent p s phis → ∀ phis' : List (Phi pred), phis'.Perm phis → ∀ t',
      Advances (p.replaceBlock fr f (block.headed phis' others)) base phis'.length s t' ↔
        t' = t) := by
  constructor
  · rintro hmemory before φ after rfl
    obtain ⟨taken, hmap, hturn⟩ := hsteps.inTurn hfr hat
    obtain ⟨taken₁, taken₂, rfl, rfl, htaken₂⟩ := List.map_eq_append_iff.mp hmap
    obtain ⟨⟨φ', v⟩, taken₃, rfl, rfl, rfl⟩ := List.map_eq_cons_iff.mp htaken₂
    rw [List.map_append, List.map_cons, List.nodup_append, List.nodup_cons] at hdistinct
    obtain ⟨_, ⟨hlater, _⟩, hapart⟩ := hdistinct
    have htarget {q : Phi pred × Value} {taken : List (Phi pred × Value)} (hq : q ∈ taken) :
        q.1.target ∈ (taken.map Prod.fst).map Phi.target :=
      List.mem_map_of_mem (List.mem_map_of_mem hq)
    refine hturn.outcome hhost (hreach.moves.tidy hhost) hfr hat.found hmemory
      (fun q hq => ?_) (fun q hq heq => ?_) (fun q hq q' hq' heq => ?_)
    · exact hapart _ (htarget hq) _ List.mem_cons_self
    · exact hlater (heq ▸ htarget hq)
    · exact hapart _ (htarget hq) _ (List.mem_cons_of_mem _ (htarget hq')) heq.symm
  · intro hindependent phis' hperm t'
    rw [hindependent.advances_reordered hfr hat hhead hperm]
    constructor
    · intro hsteps'
      exact hsteps'.eq hsteps
    · rintro rfl
      exact hsteps

/-! A loop with two PHIs that take each other's results in each round. -/

namespace Swapping

def first : Instruction :=
  ⟨.phi, [.block ⟨0⟩, .const ⟨0⟩, .block ⟨1⟩, .local ⟨1⟩], some ⟨0⟩⟩

def second : Instruction :=
  ⟨.phi, [.block ⟨0⟩, .const ⟨1⟩, .block ⟨1⟩, .local ⟨0⟩], some ⟨1⟩⟩

def jump : Instruction := ⟨.branch, [.block ⟨1⟩], none⟩

def body : Block := ⟨"body", #[first, second, jump]⟩

def loop : Function where
  name := "loop"
  ty := .function [] Ty.u8 false
  locals := #[⟨Ty.u8, false⟩, ⟨Ty.u8, false⟩, ⟨Ty.u8, false⟩]
  blocks := #[⟨"entry", #[⟨.binary (.int false .add), [.const ⟨0⟩, .const ⟨1⟩], some ⟨2⟩⟩, jump]⟩,
    body]

def program : Program where
  module :=
    { name := "swapping"
      constants := #[⟨Ty.u8, .int 1⟩, ⟨Ty.u8, .int 2⟩]
      functions := #[loop] }

/-- The PHIs as they act on the first entry, with constants that the entry block has used. -/
def entering : List (Phi ⟨0⟩) :=
  [⟨first, .const ⟨0⟩, ⟨0⟩, rfl, rfl, rfl, rfl⟩, ⟨second, .const ⟨1⟩, ⟨1⟩, rfl, rfl, rfl, rfl⟩]

/-- The PHIs as they act on every later entry. -/
def returning : List (Phi ⟨1⟩) :=
  [⟨first, .local ⟨1⟩, ⟨0⟩, rfl, rfl, rfl, rfl⟩, ⟨second, .local ⟨0⟩, ⟨1⟩, rfl, rfl, rfl, rfl⟩]

/-- The state after some steps. -/
def run : Nat → State
  | 0 => (startCall program ⟨0⟩ []).after {}
  | n + 1 => (step program 0).after (run n)

def head (n : Nat) : Frame := (run n).frames.headD default

theorem run_reachable (n : Nat) : Reachable program (run n) := by
  induction n with
  | zero => exact .entered ⟨0⟩ [] .fresh rfl
  | succ n ih => exact ih.stepped

theorem advances_twice (n : Nat) (h : (step program 0).result? (run n) = some none)
    (h' : (step program 0).result? (run (n + 1)) = some none) :
    Advances program 0 2 (run n) (run (n + 2)) :=
  .succ (eq_ok_of_result? h) (.succ (eq_ok_of_result? h') (.zero _))

theorem atPhis_entering : AtPhis program entering (head 2) loop body [jump] :=
  ⟨rfl, rfl, rfl, rfl⟩

theorem atPhis_returning : AtPhis program returning (head 5) loop body [jump] :=
  ⟨rfl, rfl, rfl, rfl⟩

theorem independent_entering : Independent program (run 2) entering := by
  refine ⟨fun φ hφ => ?_, fun φ hφ φ' hφ' _ hsource => ?_, by decide⟩
  · simp only [entering, List.mem_cons, List.not_mem_nil, or_false] at hφ
    rcases hφ with rfl | rfl
    · exact ⟨(operand program (.const ⟨0⟩)).result? (run 2) |>.getD default, rfl⟩
    · exact ⟨(operand program (.const ⟨1⟩)).result? (run 2) |>.getD default, rfl⟩
  · simp only [entering, List.mem_cons, List.not_mem_nil, or_false] at hφ
    rcases hφ with rfl | rfl <;> cases hsource

end Swapping

/-- On the first entry the order does not matter. When the loop goes round, the first PHI takes what
the second had, and the second takes what the first has just bound. -/
theorem phis_bind_in_turn_swapping :
    Advances (Swapping.program.replaceBlock (Swapping.head 2) Swapping.loop
      (Swapping.body.headed Swapping.entering.reverse [Swapping.jump])) 0 2
        (Swapping.run 2) (Swapping.run 4) ∧
    ∃ φ φ', Swapping.returning = [φ, φ'] ∧
      φ.Outcome Swapping.program Swapping.loop [] (Swapping.run 5) (Swapping.run 7) [] ∧
      φ'.Outcome Swapping.program Swapping.loop [φ] (Swapping.run 5) (Swapping.run 7) [] := by
  obtain ⟨_, horder⟩ := phis_bind_in_turn Native.host_keepsExtent (Swapping.run_reachable 2)
    rfl Swapping.atPhis_entering rfl (by decide)
    (Swapping.advances_twice 2 (by decide +kernel) (by decide +kernel))
  obtain ⟨houtcome, _⟩ := phis_bind_in_turn Native.host_keepsExtent (Swapping.run_reachable 5)
    rfl Swapping.atPhis_returning rfl (by decide)
    (Swapping.advances_twice 5 (by decide +kernel) (by decide +kernel))
  refine ⟨(horder Swapping.independent_entering _ (List.reverse_perm _) _).mpr rfl, _, _, rfl, ?_, ?_⟩
  · exact houtcome (.inr (by decide +kernel)) [] _ _ rfl
  · exact houtcome (.inr (by decide +kernel)) [_] _ [] rfl

/-- PHIs are not bound at once. The loop enters its block from itself with 1 and 2, and both PHIs
list that predecessor and take each other's result; they end with 2 and 2, and with 1 and 1 when
they stand in the other order. -/
theorem phis_not_bound_at_once :
    Reachable Swapping.program (Swapping.run 5) ∧
    AtPhis Swapping.program Swapping.returning (Swapping.head 5) Swapping.loop Swapping.body
      [Swapping.jump] ∧
    (Swapping.head 5).pc = 0 ∧ (Swapping.returning.map Phi.target).Nodup ∧
    Advances Swapping.program 0 2 (Swapping.run 5) (Swapping.run 7) ∧
    (∃ φ ∈ Swapping.returning, ∃ v w,
      operand Swapping.program φ.source (Swapping.run 5) = .ok v (Swapping.run 5) ∧
      (Swapping.head 7).lookup? φ.target = some w ∧ v.bytes = [1] ∧ w.bytes = [2]) ∧
    ∃ t, Advances (Swapping.program.replaceBlock (Swapping.head 5) Swapping.loop
        (Swapping.body.headed Swapping.returning.reverse [Swapping.jump])) 0 2
          (Swapping.run 5) t ∧
      t.frames ≠ (Swapping.run 7).frames := by
  refine ⟨Swapping.run_reachable 5, Swapping.atPhis_returning, rfl, by decide,
    Swapping.advances_twice 5 (by decide +kernel) (by decide +kernel), ?_, ?_⟩
  · refine ⟨_, List.mem_cons_of_mem _ List.mem_cons_self,
      (operand Swapping.program (.local ⟨0⟩)).result? (Swapping.run 5) |>.getD default,
      ((Swapping.head 7).lookup? ⟨1⟩).getD default, rfl, rfl, by decide +kernel, by decide +kernel⟩
  · refine ⟨_, .succ (eq_ok_of_result? (by decide +kernel))
      (.succ (eq_ok_of_result? (by decide +kernel)) (.zero _)), by decide +kernel⟩

end PackedIR
