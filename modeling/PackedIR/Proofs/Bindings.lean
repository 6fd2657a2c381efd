/-
Every binding has its declared type.

The machine binds values in two places: arguments when a frame is entered, and results
when an instruction is completed. Both go through `retype`, so the type of a binding is
the one it was retyped to. For results that is the declaration itself. For arguments it
is the parameter's type, and the declaration agrees because parameters come first among
the locals of every function that has been built. `WellTyped` adds what is known of
cached constants; every move keeps it, hence every state of a session has it.
-/
import PackedIR.Proofs.Reachable

set_option autoImplicit false

namespace PackedIR

variable {p : Program} {s t : State}

/-! ## Frames -/

namespace Frame

/-- The frame has a slot for each local of `f`, and what is bound is as declared. -/
structure Fits (fr : Frame) (f : Function) : Prop where
  slots : fr.locals.size = f.locals.size
  bound : ∀ l v, fr.lookup? l = some v →
    ∃ decl, f.local? l = some decl ∧ v.HasTy decl.boundTy ∧ v.origin = .local l

/-- The frame fits the function it executes. -/
def Typed (fr : Frame) (m : Module) : Prop :=
  ∃ f, m.function fr.function = .ok f ∧ fr.Fits f

theorem Typed.slots {fr : Frame} {m : Module} {f : Function} (h : fr.Typed m)
    (hf : m.function fr.function = .ok f) : fr.locals.size = f.locals.size := by
  obtain ⟨g, hg, hfits⟩ := h
  rw [hf] at hg
  cases hg
  exact hfits.slots

theorem lookup?_set (fr : Frame) (l l' : Local) (v : Value) :
    (fr.set l v).lookup? l' =
      if l' = l ∧ l.index < fr.locals.size then some v else fr.lookup? l' := by
  unfold lookup? set
  by_cases hl : l' = l
  · subst hl
    by_cases hlt : l'.index < fr.locals.size
    · simp [hlt]
    · simp [hlt]
  · have hindex : l.index ≠ l'.index := by
      intro h
      apply hl
      cases l
      cases l'
      cases h
      rfl
    rw [Array.getElem?_setIfInBounds_ne hindex, if_neg (fun h => hl h.1)]

theorem Fits.set {fr : Frame} {f : Function} (h : fr.Fits f) {l : Local} {decl : LocalDecl}
    {v : Value} (hdecl : f.local? l = some decl) (hv : v.HasTy decl.boundTy) :
    (fr.set l (v.withOrigin (.local l))).Fits f := by
  refine ⟨?_, fun l' w hw => ?_⟩
  · rw [← h.slots]
    simp [Frame.set]
  · rw [lookup?_set] at hw
    split at hw
    · rename_i hsame
      cases hw
      rw [hsame.1]
      exact ⟨decl, hdecl, Value.hasTy_withOrigin.mpr hv, rfl⟩
    · exact h.bound l' w hw

/-- A frame without bindings fits. -/
theorem fits_empty (f : Function) (id : FuncId) :
    Fits { function := id, locals := Array.replicate f.locals.size none } f := by
  refine ⟨by simp, fun l v hv => ?_⟩
  unfold lookup? at hv
  rw [Array.getElem?_replicate] at hv
  split at hv <;> cases hv

/-- Arguments are bound from `index` on to the locals that declare the parameters. -/
theorem Fits.bindArgs {f : Function} {fr fr' : Frame} {index : Nat} {args : List Value}
    {params : List Ty} (h : fr.Fits f)
    (hparams : ∀ (i : Nat) (ty : Ty), params[i]? = some ty →
      f.local? ⟨index + i⟩ = some ⟨ty, false⟩)
    (hbind : fr.bindArgs index args params = .ok fr') : fr'.Fits f := by
  induction args generalizing fr index params with
  | nil =>
    cases hbind
    exact h
  | cons v args ih =>
    cases params with
    | nil =>
      cases hbind
      exact h
    | cons ty params =>
      simp only [Frame.bindArgs, except_bind_eq_ok_iff] at hbind
      obtain ⟨arg, harg, _, _, hrest⟩ := hbind
      have hdecl : f.local? ⟨index⟩ = some ⟨ty, false⟩ := hparams 0 ty rfl
      refine ih (h.set hdecl (Value.hasTy_of_retype harg)) (fun i ty' hty' => ?_) hrest
      have hnext := hparams (i + 1) ty' hty'
      rwa [show index + (i + 1) = index + 1 + i by omega] at hnext

end Frame

/-- Completing an instruction touches no local but the one that it names. -/
theorem Exec.complete_locals {fr : Frame} {rest : List Frame} (hfr : s.frames = fr :: rest)
    (f : Function) (inst : Instruction) (v : Value) :
    ∃ locals pc, (complete f inst (some v)).after s =
        { s with frames := { fr with locals, pc } :: rest } ∧
      ∀ l, inst.result ≠ some l → Frame.lookup? { fr with locals } l = fr.lookup? l := by
  cases h : bindResult f inst v s with
  | error e t =>
    have herror : complete f inst (some v) s = .error e t := by
      simp only [complete, bind_apply, h]
    refine ⟨fr.locals, fr.pc, ?_, fun _ _ => rfl⟩
    rw [after_of_error herror, bindResult_atomic f inst v s e t h, ← hfr]
  | ok a t =>
    have hok : complete f inst (some v) s = modifyFrame Frame.advance t := by
      simp only [complete, bind_apply, h]
    rw [after, hok]
    cases hl : inst.result with
    | none =>
      rw [bindResult_of_none hl] at h
      cases h
      rw [modifyFrame_cons hfr]
      exact ⟨fr.locals, fr.pc + 1, rfl, fun _ _ => rfl⟩
    | some l =>
      obtain ⟨decl, bound, fr', rest', _, _, hfr', _, rfl⟩ := (bindResult_eq_ok_iff hl).mp h
      rw [hfr] at hfr'
      cases hfr'
      rw [modifyFrame_cons (by rfl)]
      refine ⟨(fr.set l (bound.withOrigin (.local l))).locals, fr.pc + 1, rfl, fun l' hne => ?_⟩
      change (fr.set l _).lookup? l' = fr.lookup? l'
      rw [Frame.lookup?_set, if_neg fun h => hne (by rw [h.1])]

/-! ## States -/

/-- Every frame fits its function and every cached constant is a value of its declaration. -/
structure WellTyped (p : Program) (s : State) : Prop where
  frames : ∀ fr ∈ s.frames, fr.Typed p.module
  constants : ∀ id v, s.constants.get? id = some v →
    ∃ c, p.module.constant id = .ok c ∧ c.Admits v

namespace WellTyped

theorem fresh : WellTyped p {} := by
  refine ⟨fun fr hfr => ?_, fun id v hv => ?_⟩
  · cases hfr
  · cases hv

/-- What is cached is made before it is cached. -/
theorem makes (h : Makes p s t) (hs : WellTyped p s) : WellTyped p t := by
  induction h with
  | refl | place | intern | prepare => exact ⟨hs.frames, hs.constants⟩
  | trans _ _ ih₁ ih₂ => exact ih₂ (ih₁ hs)
  | make id v found _ _ admitted ih =>
    refine ⟨(ih hs).frames, fun id' w hw => ?_⟩
    -- The constant that is looked up is the new one, or it was cached with the members.
    rw [Table.get?_insert] at hw
    split at hw
    · rename_i hid
      cases hw
      subst hid
      exact ⟨_, found, admitted⟩
    · exact (ih hs).constants id' w hw

theorem effects (h : Effects p s t) (hs : WellTyped p s) : WellTyped p t := by
  induction h with
  | makes h => exact hs.makes h
  | trans _ _ ih₁ ih₂ => exact ih₂ (ih₁ hs)
  | store | native => exact ⟨hs.frames, hs.constants⟩

theorem prepares (h : Prepares p s t) (hs : WellTyped p s) : WellTyped p t := by
  induction h with
  | effects h => exact hs.effects h
  | trans _ _ ih₁ ih₂ => exact ih₂ (ih₁ hs)
  | register | route | ready => exact ⟨hs.frames, hs.constants⟩

/-- Replacing the innermost frame by one that is typed keeps a state well typed. -/
theorem of_frames {fr fr' : Frame} {rest : List Frame} (hs : WellTyped p s)
    (hfr : s.frames = fr :: rest) (hfr' : fr.Typed p.module → fr'.Typed p.module)
    (ht : t.frames = fr' :: rest) (hc : t.constants = s.constants) : WellTyped p t := by
  refine ⟨fun g hg => ?_, fun id v hv => hs.constants id v (hc ▸ hv)⟩
  rw [ht] at hg
  have hold (g : Frame) (hg : g ∈ fr :: rest) : g.Typed p.module := hs.frames g (hfr ▸ hg)
  rcases List.mem_cons.mp hg with rfl | hg
  · exact hfr' (hold fr List.mem_cons_self)
  · exact hold g (List.mem_cons_of_mem fr hg)

theorem moves (hp : p.module.ParamsFirst) (h : Moves p s t) (hs : WellTyped p s) :
    WellTyped p t := by
  induction h with
  | prepares h => exact hs.prepares h
  | trans _ _ ih₁ ih₂ => exact ih₂ (ih₁ hs)
  | allocates h =>
    cases h with
    | intro hfr _ _ _ =>
      refine hs.of_frames hfr ?_ rfl rfl
      rintro ⟨f, hf, hfits⟩
      exact ⟨f, hf, hfits.slots, hfits.bound⟩
  | enters id h =>
    cases h with
    | intro hfound hsig _ _ hbound =>
      refine ⟨fun g hg => ?_, hs.constants⟩
      rcases List.mem_cons.mp hg with rfl | hg
      · -- Parameters are the first locals, so arguments meet their own declarations.
        have hfits := (Frame.fits_empty _ id).bindArgs (fun i ty hty => ?_) hbound
        · obtain ⟨locals, _, rfl⟩ := bindArgs_shape hbound
          exact ⟨_, hfound, hfits⟩
        · rw [Nat.zero_add]
          exact hp id _ hfound _ hsig i ty hty
      · exact hs.frames g hg
  | leaves h =>
    cases h with
    | intro hfr _ =>
      refine ⟨fun g hg => hs.frames g ?_, hs.constants⟩
      rw [hfr]
      exact List.mem_cons_of_mem _ hg
  | bind hfr hfound hdecl hretyped =>
    refine hs.of_frames hfr ?_ rfl rfl
    rintro ⟨f, hf, hfits⟩
    refine ⟨f, hf, hfits.set ?_ (Value.hasTy_of_retype hretyped)⟩
    rw [hfound] at hf
    cases hf
    exact hdecl
  | goto hfr block entered previous pc =>
    refine hs.of_frames hfr ?_ rfl rfl
    rintro ⟨f, hf, hfits⟩
    exact ⟨f, hf, hfits.slots, hfits.bound⟩

end WellTyped

/-- Every state of a session is well typed. -/
theorem Reachable.wellTyped (hp : p.module.Built) (h : Reachable p s) : WellTyped p s :=
  WellTyped.fresh.moves hp.paramsFirst h.moves

/-! ## Operands -/

namespace Build

variable {b : Builder}

theorem typeOf_local {l : Local} {f : Function} {decl : LocalDecl}
    (hf : b.module.function b.func = .ok f) (hdecl : f.local? l = some decl) :
    typeOf (.local l) b = .ok (decl.ty, b) := by
  rw [typeOf, bind_eq_ok_iff]
  refine ⟨f, b, function_eq_ok_iff.mpr ⟨hf, rfl⟩, ?_⟩
  simp only [hdecl, pure_eq_ok_iff, and_self]

theorem typeOf_const {id : ConstId} {c : Constant} (hc : b.module.constant id = .ok c) :
    typeOf (.const id) b = .ok (c.ty, b) := by
  rw [typeOf, bind_eq_ok_iff]
  refine ⟨b, b, get_eq_ok_iff.mpr ⟨rfl, rfl⟩, bind_eq_ok_iff.mpr ⟨c, b, ?_, ?_⟩⟩
  · exact lift_eq_ok_iff.mpr ⟨hc, rfl⟩
  · exact pure_eq_ok_iff.mpr ⟨rfl, rfl⟩

end Build

namespace Exec

theorem hasTy_of_load {address : Nat} {ty : Ty} {v : Value} (h : load p address ty s = .ok v t) :
    v.HasTy ty := by
  obtain ⟨_, _, _, h⟩ := bind_eq_ok_iff.mp h
  obtain ⟨_, _, h⟩ := except_bind_eq_ok_iff.mp (lift_eq_ok_iff.mp h).1
  exact Value.hasTy_of_ofBytes h

/-- A local has the declared type of what it stands for: its contents, if it is an l-value. -/
theorem hasTy_of_localOperand (hs : WellTyped p s) {l : Local} {v : Value}
    (h : localOperand p l s = .ok v t) :
    ∃ fr rest f decl, s.frames = fr :: rest ∧ p.module.function fr.function = .ok f ∧
      f.local? l = some decl ∧ v.HasTy decl.ty := by
  obtain ⟨fr, _, hfr, hrest⟩ := bind_eq_ok_iff.mp h
  obtain ⟨rfl, rest, hframes⟩ := frame_eq_ok_iff.mp hfr
  obtain ⟨f, _, hf, hvalue⟩ := bind_eq_ok_iff.mp hrest
  obtain ⟨hfound, rfl⟩ := liftFault_eq_ok_iff.mp hf
  have htyped : fr.Typed p.module := hs.frames fr (hframes ▸ List.mem_cons_self)
  obtain ⟨f', hf', hfits⟩ := htyped
  rw [hfound] at hf'
  cases hf'
  cases hbound : fr.lookup? l with
  | none =>
    simp only [hbound] at hvalue
    exact absurd (lift_eq_ok_iff.mp hvalue).1 (by simp)
  | some w =>
    obtain ⟨decl, hdecl, hw, _⟩ := hfits.bound l w hbound
    refine ⟨fr, rest, f, decl, hframes, hfound, hdecl, ?_⟩
    obtain ⟨ty, lvalue⟩ := decl
    cases lvalue with
    | false =>
      simp only [hbound, hdecl, pure_apply] at hvalue
      cases hvalue
      exact hw
    | true =>
      -- An l-value is bound to an address, and its contents are loaded under the declared type.
      simp only [hbound, hdecl] at hvalue
      obtain ⟨_, _, _, hload⟩ := bind_eq_ok_iff.mp hvalue
      obtain ⟨x, _, hx, hpure⟩ := bind_eq_ok_iff.mp hload
      cases hpure
      rw [Value.hasTy_withOrigin]
      exact hasTy_of_load hx

/-- So has a constant; a reference to a global variable stands for the variable's contents. -/
theorem hasTy_of_constOperand (hs : WellTyped p s) {id : ConstId} {v : Value}
    (h : constOperand p id s = .ok v t) : ∃ c, p.module.constant id = .ok c ∧ v.HasTy c.ty := by
  obtain ⟨c, _, hc, hrest⟩ := bind_eq_ok_iff.mp h
  obtain ⟨hfound, rfl⟩ := liftFault_eq_ok_iff.mp hc
  obtain ⟨w, u, hw, hdecay⟩ := bind_eq_ok_iff.mp hrest
  refine ⟨c, hfound, ?_⟩
  -- By the time it is used the constant is cached, and the cache is typed.
  have hmade := (constValue_makes id).of_ok hw
  obtain ⟨c', hc', hadmits⟩ := (hs.makes hmade).constants id w (constants_get?_of_constValueWith hw)
  rw [hfound] at hc'
  cases hc'
  unfold decayConst at hdecay
  cases hkind : c.kind with
  | globalVar g =>
    simp only [hkind] at hdecay
    obtain ⟨_, _, _, hload⟩ := bind_eq_ok_iff.mp hdecay
    obtain ⟨x, _, hx, hpure⟩ := bind_eq_ok_iff.mp hload
    cases hpure
    rw [Value.hasTy_withOrigin]
    exact hasTy_of_load hx
  | _ =>
    simp only [hkind, pure_apply] at hdecay
    cases hdecay
    exact hadmits.typed (by simp [hkind])

/-- An l-value is a local that is declared as one, or a global variable. -/
theorem operandAddress_eq_ok {o : Operand} {address : Nat} {ty : Ty}
    (h : operandAddress p o s = .ok (address, ty) t) :
    (∃ l fr rest f v, o = .local l ∧ s.frames = fr :: rest ∧
      p.module.function fr.function = .ok f ∧ fr.lookup? l = some v ∧
      f.local? l = some ⟨ty, true⟩ ∧ v.asAddress = .ok address ∧ s = t) ∨
    ∃ id g v, o = .const id ∧ p.module.constant id = .ok ⟨ty, .globalVar g⟩ ∧
      constValue p id s = .ok v t ∧ v.asAddress = .ok address := by
  cases o with
  | «local» l =>
    obtain ⟨fr, _, hframe, hrest⟩ := bind_eq_ok_iff.mp h
    obtain ⟨rfl, rest, hfr⟩ := frame_eq_ok_iff.mp hframe
    obtain ⟨f, _, hlift, haddress⟩ := bind_eq_ok_iff.mp hrest
    obtain ⟨hf, rfl⟩ := liftFault_eq_ok_iff.mp hlift
    cases hbound : fr.lookup? l with
    | none =>
      simp only [hbound] at haddress
      exact absurd (lift_eq_ok_iff.mp haddress).1 (by simp)
    | some v =>
      cases hdecl : f.local? l with
      | none =>
        simp only [hbound, hdecl] at haddress
        exact absurd (lift_eq_ok_iff.mp haddress).1 (by simp)
      | some decl =>
        obtain ⟨declTy, lvalue⟩ := decl
        cases lvalue with
        | false =>
          simp only [hbound, hdecl] at haddress
          exact absurd (lift_eq_ok_iff.mp haddress).1 (by simp)
        | true =>
          simp only [hbound, hdecl] at haddress
          obtain ⟨a, _, hlift, hpure⟩ := bind_eq_ok_iff.mp haddress
          obtain ⟨hv, rfl⟩ := lift_eq_ok_iff.mp hlift
          cases hpure
          exact .inl ⟨l, fr, rest, f, v, rfl, hfr, hf, hbound, hdecl, hv, rfl⟩
  | const id =>
    obtain ⟨c, _, hlift, hrest⟩ := bind_eq_ok_iff.mp h
    obtain ⟨hc, rfl⟩ := liftFault_eq_ok_iff.mp hlift
    obtain ⟨cty, kind⟩ := c
    cases kind with
    | globalVar g =>
      obtain ⟨v, _, hvalue, haddress⟩ := bind_eq_ok_iff.mp hrest
      obtain ⟨a, _, hlift', hpure⟩ := bind_eq_ok_iff.mp haddress
      obtain ⟨hv, rfl⟩ := lift_eq_ok_iff.mp hlift'
      cases hpure
      exact .inr ⟨id, g, v, rfl, hc, hvalue, hv⟩
    | _ => exact absurd (lift_eq_ok_iff.mp hrest).1 (by simp)
  | block | type => exact absurd (lift_eq_ok_iff.mp h).1 (by simp)

/-- What an operand evaluates to has the type that a builder reports for it. -/
theorem typeOf_of_operand (hs : WellTyped p s) {o : Operand} {v : Value}
    (h : operand p o s = .ok v t) {b : Builder} (hmodule : b.module = p.module)
    (hfunc : ∀ fr rest, s.frames = fr :: rest → b.func = fr.function) :
    Build.typeOf o b = .ok (v.ty, b) ∧ v.HasTy v.ty := by
  cases o with
  | «local» l =>
    obtain ⟨fr, rest, f, decl, hframes, hf, hdecl, hv⟩ := hasTy_of_localOperand hs h
    rw [← hmodule, ← hfunc fr rest hframes] at hf
    exact ⟨hv.1 ▸ Build.typeOf_local hf hdecl, rfl, hv.1 ▸ hv.2⟩
  | const id =>
    obtain ⟨c, hc, hv⟩ := hasTy_of_constOperand hs h
    rw [← hmodule] at hc
    exact ⟨hv.1 ▸ Build.typeOf_const hc, rfl, hv.1 ▸ hv.2⟩
  | block | type => exact absurd (lift_eq_ok_iff.mp h).1 (by simp)

end Exec

/-- In every state of a session each frame fits its function, operands evaluate to what their
static types announce, and a call that succeeds gives a value of the callee's return type. -/
theorem bindings_sound (hp : p.module.Built) (hs : Reachable p s) :
    (∀ fr ∈ s.frames, ∃ f, p.module.function fr.function = .ok f ∧
      fr.locals.size = f.locals.size ∧
      ∀ l v, fr.lookup? l = some v → ∃ decl, f.local? l = some decl ∧
        v.ty = (if decl.lvalue then Ty.mutPtrTo decl.ty else decl.ty) ∧ v.size = v.ty.size ∧
        v.origin = .local l) ∧
    (∀ o v t b, Exec.operand p o s = .ok v t → b.module = p.module →
      (∀ fr rest, s.frames = fr :: rest → b.func = fr.function) →
      Build.typeOf o b = .ok (v.ty, b) ∧ v.size = v.ty.size) ∧
    ∀ fuel id args v t, Exec.callFunction p fuel id args s = .ok v t →
      ∃ f sig, p.module.function id = .ok f ∧ f.signature = .ok sig ∧ v.ty = sig.ret ∧
        v.size = sig.ret.size ∧ v.origin = .intermediate := by
  have htyped := hs.wellTyped hp
  refine ⟨fun fr hfr => ?_, fun o v t b h hmodule hfunc => ?_, fun fuel id args v t h => ?_⟩
  · obtain ⟨f, hf, hfits⟩ := htyped.frames fr hfr
    refine ⟨f, hf, hfits.slots, fun l v hv => ?_⟩
    obtain ⟨decl, hdecl, hv, horigin⟩ := hfits.bound l v hv
    exact ⟨decl, hdecl, hv.1, hv.1 ▸ hv.2, horigin⟩
  · obtain ⟨hty, hv⟩ := Exec.typeOf_of_operand htyped h hmodule hfunc
    exact ⟨hty, hv.2⟩
  · obtain ⟨f, sig, hf, hsig, hv, horigin⟩ := Exec.callFunction_returns h
    exact ⟨f, sig, hf, hsig, hv.1, hv.2, horigin⟩

/-- In the middle of a run: the argument, the variable's address and the sum are bound as declared,
and the variable decays to four bytes of its declared type. -/
theorem bindings_sound_doubling :
    (Doubling.computed.frames.map fun fr => fr.locals.toList.map fun v => v.map Value.bytes) =
        [[some [21, 0, 0, 0], some [0, 0, 0, 0, 0, 4, 0, 0], some [42, 0, 0, 0]]] ∧
      (∀ fr ∈ Doubling.computed.frames, ∃ f,
        Doubling.program.module.function fr.function = .ok f ∧
        fr.locals.size = f.locals.size) ∧
      ∀ v t b, Exec.operand Doubling.program (.local ⟨1⟩) Doubling.computed = .ok v t →
        b.module = Doubling.program.module → b.func = ⟨0⟩ →
        Build.typeOf (.local ⟨1⟩) b = .ok (v.ty, b) ∧ v.size = v.ty.size := by
  obtain ⟨hframes, hoperand, _⟩ :=
    bindings_sound Doubling.module_built Doubling.computed_reachable
  refine ⟨by decide +kernel, fun fr hfr => ?_, fun v t b h hmodule hfunc => ?_⟩
  · obtain ⟨f, hf, hslots, _⟩ := hframes fr hfr
    exact ⟨f, hf, hslots⟩
  · refine hoperand _ v t b h hmodule fun fr rest hfr => ?_
    have hfun : Doubling.computed.frames.map Frame.function = [⟨0⟩] := by decide +kernel
    rw [hfr, List.map_cons, List.cons.injEq] at hfun
    rw [hfunc, hfun.1]

end PackedIR
