/-
Which symbol a call of a declaration looks up.

When a session is set up, two passes write one table: intrinsics get the symbols of their entries,
of which the last one counts, and then functions that have a wrapper get its symbol if the resolver
knows it. What the table holds afterwards is given here by a rule for each function, and it stays
that way, because nothing else in a session touches it.

Every call of a declaration asks the resolver for this one symbol. The callee and the arguments are
found without the resolver, so a call does not change under a resolver that differs elsewhere. A
function with a body has no entry in the table, and its calls ask neither the resolver nor the host.
-/
import PackedIR.Proofs.Arity
import PackedIR.Proofs.Marshalling
import PackedIR.Proofs.SettingUp

set_option autoImplicit false

namespace PackedIR

open Exec

variable {p : Program} {s t : State} {id : FuncId} {f : Function}

/-! ## The rule -/

/-- The name under which a function is listed as an intrinsic. The last entry counts. -/
def Module.intrinsic? (m : Module) (id : FuncId) : Option String :=
  (m.intrinsics.reverse.find? fun entry => entry.2 = id).map Prod.fst

/-- The function is one of those that have a wrapper, and the resolver knows the wrapper. -/
def Function.IsWrapped (f : Function) (resolver : Resolver) : Prop :=
  f.name ∈ wrappedFunctions ∧ (resolver (wrapperSymbol f.name)).isSome = true

instance (f : Function) (resolver : Resolver) : Decidable (f.IsWrapped resolver) :=
  inferInstanceAs (Decidable (f.name ∈ wrappedFunctions ∧ _))

/-- The symbol of a declaration in a session that has been set up, or not yet. -/
def Program.symbol (p : Program) (ready : Bool) (id : FuncId) (f : Function) : String :=
  if ready then
    if f.IsWrapped p.resolver then wrapperSymbol f.name
    else match p.module.intrinsic? id with
      | some name => intrinsicSymbol name
      | none => f.name
  else f.name

/-- The entry of a function in the table of aliases. Functions with a body have none. -/
def Program.alias? (p : Program) (id : FuncId) : Option String :=
  match p.module.function id with
  | .error _ => none
  | .ok f =>
    if f.isDeclaration then
      if f.IsWrapped p.resolver then some (wrapperSymbol f.name)
      else (p.module.intrinsic? id).map intrinsicSymbol
    else none

theorem Program.symbol_eq (hf : p.module.function id = .ok f) (hdecl : f.isDeclaration = true) :
    p.symbol true id f = (p.alias? id).getD f.name := by
  unfold symbol alias?
  simp only [hf, hdecl, if_true]
  split
  · rfl
  · cases p.module.intrinsic? id with
    | some name => rfl
    | none => rfl

/-! ## The two passes -/

/-- The intrinsics pass gives each declaration the symbol of its last entry. -/
theorem routeIntrinsics_get? {m : Module} {entries : List (String × FuncId)}
    {aliases aliases' : Table FuncId String}
    (h : routeIntrinsics m aliases entries = .ok aliases') (hf : m.function id = .ok f) :
    aliases'.get? id = if f.isDeclaration then
      ((entries.reverse.find? fun entry => entry.2 = id).map fun entry =>
        intrinsicSymbol entry.1).or (aliases.get? id)
      else aliases.get? id := by
  induction entries generalizing aliases with
  | nil =>
    cases h
    simp
  | cons entry rest ih =>
    obtain ⟨name, id'⟩ := entry
    obtain ⟨f', hf', h⟩ := except_bind_eq_ok_iff.mp h
    rw [List.reverse_cons, List.find?_append]
    split at h
    · rename_i hdecl'
      rw [ih h, Table.get?_insert]
      by_cases hid : id = id'
      · subst hid
        rw [hf] at hf'
        cases hf'
        cases rest.reverse.find? fun entry => entry.2 = id with
        | none => simp [hdecl']
        | some entry => simp [hdecl']
      · have hne : id' ≠ id := fun h => hid h.symm
        simp [hid, hne]
    · rename_i hbody'
      rw [ih h]
      by_cases hdecl : f.isDeclaration = true
      · have hne : id' ≠ id := by
          rintro rfl
          rw [hf] at hf'
          cases hf'
          exact hbody' hdecl
        simp [hdecl, hne]
      · simp [hdecl]

/-- An identifier that names no function gets no entry. -/
theorem routeIntrinsics_get?_of_error {m : Module} {entries : List (String × FuncId)}
    {aliases aliases' : Table FuncId String} {fault : Fault}
    (h : routeIntrinsics m aliases entries = .ok aliases') (hf : m.function id = .error fault) :
    aliases'.get? id = aliases.get? id := by
  induction entries generalizing aliases with
  | nil =>
    cases h
    rfl
  | cons entry rest ih =>
    obtain ⟨name, id'⟩ := entry
    obtain ⟨f', hf', h⟩ := except_bind_eq_ok_iff.mp h
    have hne : id ≠ id' := by
      rintro rfl
      rw [hf] at hf'
      cases hf'
    split at h
    · rw [ih h, Table.get?_insert, if_neg hne]
    · exact ih h

/-- The wrappers pass starts at its index. -/
theorem routeWrappers_get?_of_lt {resolver : Resolver} {fs : List Function} {index : Nat}
    {aliases : Table FuncId String} (h : id.index < index) :
    (routeWrappers resolver aliases index fs).get? id = aliases.get? id := by
  induction fs generalizing aliases index with
  | nil => rfl
  | cons f fs ih =>
    have hne : id ≠ ⟨index⟩ := by
      rintro rfl
      exact Nat.lt_irrefl _ h
    rw [routeWrappers]
    split
    · rw [ih (by omega), Table.get?_insert, if_neg hne]
    · rw [ih (by omega)]

/-- The wrappers pass gives each wrapped declaration its wrapper. -/
theorem routeWrappers_get? (resolver : Resolver) (aliases : Table FuncId String) (index k : Nat)
    (fs : List Function) :
    (routeWrappers resolver aliases index fs).get? ⟨index + k⟩ =
      match fs[k]? with
      | some f =>
        if f.isDeclaration = true ∧ f.IsWrapped resolver then some (wrapperSymbol f.name)
        else aliases.get? ⟨index + k⟩
      | none => aliases.get? ⟨index + k⟩ := by
  induction fs generalizing aliases index k with
  | nil => rfl
  | cons f fs ih =>
    have hwrapped : (f.isDeclaration && wrappedFunctions.contains f.name &&
        (resolver (wrapperSymbol f.name)).isSome) = true ↔
        f.isDeclaration = true ∧ f.IsWrapped resolver := by
      simp only [Function.IsWrapped, Bool.and_eq_true, List.contains_iff_mem, and_assoc]
    rw [routeWrappers]
    simp only [hwrapped]
    cases k with
    | zero =>
      have hlt : (⟨index + 0⟩ : FuncId).index < index + 1 := by simp
      split
      · rw [routeWrappers_get?_of_lt hlt]
        simp_all
      · rw [routeWrappers_get?_of_lt hlt]
        simp_all
    | succ k =>
      have hshift : index + (k + 1) = index + 1 + k := by omega
      have hne : (⟨index + 1 + k⟩ : FuncId) ≠ ⟨index⟩ := by simp; omega
      rw [hshift]
      split
      · rw [ih, List.getElem?_cons_succ, Table.get?_insert, if_neg hne]
      · rw [ih, List.getElem?_cons_succ]

/-- Both passes together write what the rule says. What they have written before does no harm. -/
theorem Exec.get?_of_registerAliases
    (hs : s.aliases.get? id = none ∨ s.aliases.get? id = p.alias? id)
    (h : registerAliases p s = .ok () t) : t.aliases.get? id = p.alias? id := by
  unfold registerAliases at h
  rw [bind_of_ok (get_apply s)] at h
  obtain ⟨aliases, u, hroute, hwrite⟩ := bind_eq_ok_iff.mp h
  obtain ⟨hroute, rfl⟩ := liftFault_eq_ok_iff.mp hroute
  cases hwrite
  have hpass := routeWrappers_get? p.resolver aliases 0 id.index p.module.functions.toList
  rw [Nat.zero_add, Array.getElem?_toList] at hpass
  dsimp only
  rw [hpass]
  unfold Program.alias? at hs ⊢
  cases hf : p.module.function id with
  | error fault =>
    have hnone : p.module.functions[id.index]? = none := by
      cases hget : p.module.functions[id.index]? with
      | none => rfl
      | some f =>
        rw [Module.function, hget] at hf
        cases hf
    rw [hf] at hs
    rw [hnone]
    dsimp only
    rw [routeIntrinsics_get?_of_error hroute hf]
    simpa using hs
  | ok f =>
    have hsome : p.module.functions[id.index]? = some f := orMissing_eq_ok_iff.mp hf
    rw [hf] at hs
    rw [hsome]
    dsimp only at hs ⊢
    by_cases hdecl : f.isDeclaration = true
    · by_cases hwrapped : f.IsWrapped p.resolver
      · simp [hdecl, hwrapped]
      · simp only [hdecl, hwrapped, routeIntrinsics_get? hroute hf, Module.intrinsic?, and_false,
          if_true, if_false] at hs ⊢
        cases hfind : p.module.intrinsics.reverse.find? fun entry => entry.2 = id with
        | none => simpa [hfind] using hs
        | some entry => simp
    · simpa [hdecl, routeIntrinsics_get? hroute hf] using hs

/-! ## What keeps the table -/

/-- The table of aliases is the same, and the session is as much set up as before. -/
structure SameRoutes (s t : State) : Prop where
  aliases : t.aliases = s.aliases
  initialized : t.initialized = s.initialized

namespace SameRoutes

instance : Std.Refl SameRoutes := ⟨fun _ => ⟨rfl, rfl⟩⟩

instance : IsTrans State SameRoutes :=
  ⟨fun _ _ _ h h' => ⟨h'.aliases.trans h.aliases, h'.initialized.trans h.initialized⟩⟩

theorem of_makes (h : Makes p s t) : SameRoutes s t := by
  induction h with
  | refl | place | intern | prepare => exact ⟨rfl, rfl⟩
  | trans _ _ ih₁ ih₂ => exact trans_of SameRoutes ih₁ ih₂
  | make _ _ _ _ _ _ ih => exact ⟨ih.aliases, ih.initialized⟩

theorem of_effects (h : Effects p s t) : SameRoutes s t := by
  induction h with
  | makes h => exact .of_makes h
  | trans _ _ ih₁ ih₂ => exact trans_of SameRoutes ih₁ ih₂
  | store | native => exact ⟨rfl, rfl⟩

end SameRoutes

namespace Exec

theorem allocFrame_sameRoutes (size : Nat) : Along SameRoutes (allocFrame p size) :=
  allocFrame_along fun _ _ _ => ⟨rfl, rfl⟩

theorem popFrame_sameRoutes : Along SameRoutes popFrame := by
  intro s
  rcases s.frames_cases with hfr | ⟨fr, rest, hfr⟩
  · rw [after_of_error (popFrame_nil hfr)]
    exact refl_of SameRoutes s
  · rw [after, popFrame_eq hfr]
    cases s.memory.stack.removeAll fr.allocs with
    | ok | error => exact ⟨rfl, rfl⟩

end Exec

namespace Coupling

/-- A run is compared with itself, from states with the routes of `s₀`. -/
def routed (s₀ : State) : Coupling where
  rel s t := s = t ∧ SameRoutes s₀ s
  shared _ := True
  excused _ _ := False

variable {α : Type} {x : Exec α} {s₀ : State}

theorem routed_follows (hx : Along SameRoutes x) : (routed s₀).Follows x x := by
  rintro s _ ⟨rfl, hs⟩
  have hafter := trans_of SameRoutes hs (hx s)
  cases hout : x s with
  | ok a t =>
    rw [after_of_ok hout] at hafter
    exact .ok a ⟨rfl, hafter⟩
  | error e t =>
    rw [after_of_error hout] at hafter
    exact .error ⟨rfl, hafter⟩ trivial

theorem sameRoutes_of_matches (h : (routed s).Matches (x s) (x s)) :
    SameRoutes s (x.after s) := by
  cases hout : x s with
  | ok a t =>
    rw [hout] at h
    rw [after_of_ok hout]
    cases h with
    | ok _ ht => exact ht.2
  | error e t =>
    rw [hout] at h
    rw [after_of_error hout]
    cases h with
    | error ht _ => exact ht.2
    | excused _ he => exact he.elim

theorem sound_routed : (routed s₀).Sound p p.config where
  shares := by
    rintro s _ ⟨rfl, _⟩
    exact ⟨s.memory, s.constants, rfl⟩
  reframe := by
    rintro s _ frames ⟨rfl, hs⟩ _
    exact ⟨rfl, hs.aliases, hs.initialized⟩
  push := by
    rintro s _ fr ⟨rfl, hs⟩ _
    exact ⟨rfl, hs.aliases, hs.initialized⟩
  prepare := by
    rintro s _ id ⟨rfl, hs⟩
    exact ⟨rfl, hs.aliases, hs.initialized⟩
  intern := by
    rintro s _ id address ⟨rfl, hs⟩ _
    exact ⟨rfl, hs.aliases, hs.initialized⟩
  unrefused := fun _ => trivial
  shared_within := fun _ _ => trivial
  excused_within := fun _ he => he
  excused_leave := fun he _ => he
  load := fun address ty => routed_follows (reads_load p address ty).along
  store := fun address bytes =>
    routed_follows ((storeBytes_effects (p := p) address bytes).mono fun _ _ => .of_effects)
  place := fun kind bytes =>
    routed_follows ((allocStatic_makes (p := p) kind bytes).mono fun _ _ => .of_makes)
  allocate := fun {size} _ => routed_follows (allocFrame_sameRoutes size)
  leave := routed_follows popFrame_sameRoutes
  native := fun callee args =>
    routed_follows ((callNative_effects (p := p) callee args).mono fun _ _ => .of_effects)
  depth := Nat.le_refl _
  overflow := fun _ _ => .inr ⟨rfl, trivial⟩
  cached := by
    rintro s _ id v ⟨rfl, _⟩ hv
    exact hv
  cache := by
    rintro s _ s' _ id c budget made _ _ _ _ ⟨rfl, hs'⟩
    exact ⟨rfl, hs'.aliases, hs'.initialized⟩
  remake := by
    rintro s _ id v ⟨rfl, _⟩ hmissing hcached
    rw [hmissing] at hcached
    cases hcached

end Coupling

/-! ## Sessions -/

/-- The table holds what the rule says once the session has been set up, and nothing before. -/
def Routes (p : Program) (s : State) : Prop :=
  ∀ id, s.aliases.get? id = if s.initialized then p.alias? id else none

namespace Routes

theorem of_sameRoutes (hs : Routes p s) (h : SameRoutes s t) : Routes p t := by
  intro id
  rw [h.aliases, h.initialized]
  exact hs id

theorem symbol (hs : Routes p s) (hf : p.module.function id = .ok f)
    (hdecl : f.isDeclaration = true) :
    (s.aliases.get? id).getD f.name = p.symbol s.initialized id f := by
  rw [hs id]
  cases s.initialized with
  | true => exact (Program.symbol_eq hf hdecl).symm
  | false => rfl

theorem get?_of_body (hs : Routes p s) (hf : p.module.function id = .ok f)
    (hbody : f.isDeclaration = false) : s.aliases.get? id = none := by
  have halias : p.alias? id = none := by
    unfold Program.alias?
    simp only [hf, hbody, Bool.false_eq_true, if_false]
  rw [hs id, halias, ite_self]

end Routes

/-- If the table held what the rule says, it still does. -/
def KeepsRoutes (p : Program) (s t : State) : Prop := Routes p s → Routes p t

instance : Std.Refl (KeepsRoutes p) := ⟨fun _ h => h⟩

instance : IsTrans State (KeepsRoutes p) := ⟨fun _ _ _ h h' hs => h' (h hs)⟩

namespace Exec

theorem registerGlobal_sameRoutes (id : GlobalId) (g : Global) :
    Along SameRoutes (registerGlobal p id g) := by
  have hplace : Along SameRoutes (allocStatic p .global (List.replicate g.ty.size 0)) :=
    (allocStatic_makes (p := p) _ _).mono fun _ _ => .of_makes
  refine hplace.bind fun address => ?_
  cases g.init with
  | none => exact fun _ => ⟨rfl, rfl⟩
  | some init =>
    have hinit : Along SameRoutes (within (.initializingGlobal g.name) (constOperand p init)) := by
      intro s
      rw [after_within]
      exact .of_makes (constOperand_makes init s)
    have hstore (v : Value) : Along SameRoutes (storeBytes p address v.bytes) :=
      (storeBytes_effects _ _).mono fun _ _ => .of_effects
    exact hinit.bind fun v => (reads_lift _).along.bind fun _ =>
      (hstore v).bind fun _ _ => ⟨rfl, rfl⟩

theorem registerGlobals_sameRoutes (index : Nat) (gs : List Global) :
    Along SameRoutes (registerGlobals p index gs) := by
  induction gs generalizing index with
  | nil => exact (reads_pure ()).along
  | cons g gs ih => exact (registerGlobal_sameRoutes _ g).bind fun _ => ih _

/-- The table is marked as complete at once when it is, so there is no state in between. -/
theorem registerAliases_keepsRoutes : Along (KeepsRoutes p) (registerAliases p >>= fun _ =>
    modify fun s => { s with initialized := true }) := by
  intro s hs
  cases hroute : registerAliases p s with
  | error e t =>
    have hsame : t = s := by
      unfold registerAliases at hroute
      rw [bind_of_ok (get_apply s)] at hroute
      rcases bind_eq_error_iff.mp hroute with h | ⟨_, _, _, h⟩
      · rw [← after_of_error h, ← reads_liftFault _ s]
      · cases h
    rw [after_of_error (bind_eq_error_iff.mpr (.inl hroute)), hsame]
    exact hs
  | ok _ t =>
    rw [after_congr (bind_of_ok hroute)]
    intro id
    have hbefore : s.aliases.get? id = none ∨ s.aliases.get? id = p.alias? id := by
      rw [hs id]
      cases s.initialized with
      | true => exact .inr rfl
      | false => exact .inl rfl
    change t.aliases.get? id = p.alias? id
    exact get?_of_registerAliases hbefore hroute

theorem prepare_keepsRoutes : Along (KeepsRoutes p) (prepare p) := by
  have hstrings : Along (KeepsRoutes p) (placeStrings p 0 p.module.strings.size) :=
    (placeStrings_makes _ _).mono fun _ _ h hs => hs.of_sameRoutes (.of_makes h)
  have hglobals : Along (KeepsRoutes p) (registerGlobals p 0 p.module.globals.toList) :=
    (registerGlobals_sameRoutes _ _).mono fun _ _ h hs => hs.of_sameRoutes h
  exact hstrings.bind fun _ => hglobals.bind fun _ => registerAliases_keepsRoutes

end Exec

namespace Routes

/-- A request leaves the table as the rule says. -/
theorem perform {r : Request} (hs : Routes p s) (howned : OwnsStack s)
    (hends : Ends (r.perform p) s t) : Routes p t := by
  rw [← hends.after_eq]
  cases r with
  | setUp fuel =>
    change Routes p ((Exec.setUp p fuel).after s)
    by_cases hinit : s.initialized = true
    · rw [after_of_ok (setUp_of_initialized fuel hinit)]
      exact hs
    · rw [after_congr (setUp_of_fresh fuel hinit)]
      refine after_bind (R := KeepsRoutes p) (prepare_keepsRoutes s) (fun _ u hu hroutes => ?_) hs
      have hownedu : OwnsStack u :=
        howned.moves (.prepares ((prepare_prepares (p := p)).of_ok hu))
      exact hroutes.of_sameRoutes (Coupling.sameRoutes_of_matches
        (Coupling.sound_routed.runGlobalInit rfl hownedu ⟨rfl, refl_of SameRoutes u⟩ fuel))
  | run fuel id args =>
    unfold Request.perform
    rw [after_bind_reads fun _ => reads_pure _]
    exact hs.of_sameRoutes (Coupling.sameRoutes_of_matches
      (Coupling.sound_routed.runFunction howned ⟨rfl, refl_of SameRoutes s⟩ fuel id args))
  | compile id =>
    unfold Request.perform
    rw [after_bind_reads fun _ => reads_pure _]
    exact hs.of_sameRoutes (.of_makes (compileFunction_makes id s))

theorem of_idle (h : Idle p s) : Routes p s := by
  induction h with
  | fresh => exact fun _ => rfl
  | performed r hidle hends ih => exact ih.perform (OwnsStack.fresh.moves hidle.moves) hends
  | prepared _ hprepare ih =>
    rw [← after_of_ok hprepare]
    exact prepare_keepsRoutes _ ih

/-- The table holds what the rule says in every state of a session. -/
theorem of_reachable (h : Reachable p s) : Routes p s := by
  induction h with
  | idle hidle => exact .of_idle hidle
  | @entered s t id args hidle hstart =>
    rw [← after_of_ok hstart]
    exact (of_idle hidle).of_sameRoutes (Coupling.sameRoutes_of_matches
      (Coupling.sound_routed.startCall id args s s ⟨rfl, refl_of SameRoutes s⟩))
  | @evaluated s os _ ih => exact ih.of_sameRoutes (.of_makes (operands_makes os s))
  | @stepped s _ ih =>
    exact ih.of_sameRoutes (Coupling.sameRoutes_of_matches
      (Coupling.sound_routed.step 0 s s ⟨rfl, refl_of SameRoutes s⟩))

end Routes

/-! ## Lookups -/

section Lookups

variable {sig : Signature} {args : List Value} {name : String}

theorem AbiClass.ofTy_ne_notFound (ty : Ty) :
    AbiClass.ofTy ty ≠ raise (.foreignSymbolNotFound name) := by
  cases ty <;> simp [AbiClass.ofTy, raise, Failure.of]

theorem AbiClass.check_ne_notFound (c : AbiClass) :
    c.check ≠ raise (.foreignSymbolNotFound name) := by
  cases c with
  | int size signed => cases hsize : Value.isIntSize size <;> simp [check, hsize, raise, Failure.of]
  | float | void => nofun

theorem Scalar.ofValue_ne_notFound (v : Value) (promoted : Bool) :
    Scalar.ofValue v promoted ≠ raise (.foreignSymbolNotFound name) := by
  intro h
  rcases except_bind_eq_error_iff.mp h with h | ⟨c, _, h⟩
  · exact AbiClass.ofTy_ne_notFound _ h
  · cases c with
    | int size signed =>
      dsimp only at h
      split at h <;> cases h
    | float width =>
      dsimp only at h
      split at h
      · split at h <;> cases h
      · cases h
    | void => cases h

theorem marshal_ne_notFound (fixed index : Nat) :
    marshal fixed index args ≠ raise (.foreignSymbolNotFound name) := by
  induction args generalizing index with
  | nil => nofun
  | cons v args ih =>
    intro h
    rcases except_bind_eq_error_iff.mp h with h | ⟨_, _, h⟩
    · exact Scalar.ofValue_ne_notFound v _ h
    · rcases except_bind_eq_error_iff.mp h with h | ⟨_, _, h⟩
      · exact ih _ h
      · cases h

theorem Callee.prepare_ne_notFound (callee : Callee) (host : Host) :
    callee.prepare host args ≠ raise (.foreignSymbolNotFound name) := by
  intro h
  rcases except_bind_eq_error_iff.mp h with h | ⟨c, _, h⟩
  · exact AbiClass.ofTy_ne_notFound _ h
  · rcases except_bind_eq_error_iff.mp h with h | ⟨_, _, h⟩
    · exact marshal_ne_notFound _ _ h
    · split at h
      · cases h
      · rcases except_bind_eq_error_iff.mp h with h | ⟨_, _, h⟩
        · exact AbiClass.check_ne_notFound c h
        · split at h <;> cases h

/-- Native code is called without a lookup. -/
theorem Exec.callNative_ne_notFound (callee : Callee) :
    callNative p callee args s ≠ .error (.of (.foreignSymbolNotFound name)) t := by
  intro h
  cases hprepare : callee.prepare p.host args with
  | error e =>
    rw [callNative_eq, hprepare] at h
    cases h
    exact Callee.prepare_ne_notFound callee p.host hprepare
  | ok call =>
    obtain ⟨_, _, _, hret⟩ := Callee.marshals_of_prepare hprepare
    obtain ⟨result, hresult, _⟩ := Returned.value_eq hret (call.code call.args s.memory.arena).1
    rw [callNative_of_prepare hprepare hresult] at h
    cases h

/-- What becomes of a call of a declaration whose arguments have been evaluated, which has led to
`t`. The outcome is given for any resolver that the rest of the call is made with. -/
structure RoutedCall (p : Program) (symbol : String) (sig : Signature) (args : List Value)
    (t : State) (outcome : Resolver → EStateM.Result Failure State Started) : Prop where
  /-- No other symbol is asked for. -/
  single : ∀ resolver, resolver symbol = p.resolver symbol → outcome resolver = outcome p.resolver
  missing : sig.Takes args.length → p.resolver symbol = none →
    outcome p.resolver = .error (.of (.foreignSymbolNotFound symbol)) t
  found : ∀ name u, outcome p.resolver = .error (.of (.foreignSymbolNotFound name)) u →
    name = symbol ∧ p.resolver symbol = none
  /-- The code at the address of the symbol runs. -/
  invokes : sig.Takes args.length → ∀ address code scalars c,
    p.resolver symbol = some address → address ≠ 0 → p.host address = some code →
    marshal sig.params.length 0 args = .ok scalars → AbiClass.ofTy sig.ret = .ok c →
    c.check = .ok () →
      ∃ v, (code scalars t.memory.arena).1.value sig.ret c = .ok v ∧
        outcome p.resolver = .ok (.returned v)
          { t with memory := { t.memory with arena := (code scalars t.memory.arena).2 } }

namespace Exec

theorem startCall_of_unresolved (hf : p.module.function id = .ok f) (hsig : f.signature = .ok sig)
    (hdecl : f.isDeclaration = true) (htakes : sig.Takes args.length)
    (h : p.resolver ((s.aliases.get? id).getD f.name) = none) :
    startCall p id args s =
      .error (.of (.foreignSymbolNotFound ((s.aliases.get? id).getD f.name))) s := by
  rw [startCall_eq hf hsig, if_pos htakes, if_pos hdecl]
  unfold callDeclaration symbolOf
  simp only [bind_apply, get_apply, pure_apply, h]
  rfl

theorem startCall_of_resolved {address : Nat} (hf : p.module.function id = .ok f)
    (hsig : f.signature = .ok sig) (hdecl : f.isDeclaration = true)
    (htakes : sig.Takes args.length)
    (h : p.resolver ((s.aliases.get? id).getD f.name) = some address) :
    startCall p id args s = (do return .returned (← callNative p
      ⟨address, sig.ret, sig.params.length⟩ args) : Exec Started) s := by
  rw [startCall_eq hf hsig, if_pos htakes, if_pos hdecl, bind_apply, bind_apply,
    callDeclaration_of_resolved h]

/-- A function with a body asks neither the resolver nor the host. -/
theorem startCall_outside (hf : p.module.function id = .ok f) (hsig : f.signature = .ok sig)
    (hbody : f.isDeclaration = false) (resolver : Resolver) (host : Host) :
    startCall { p with resolver, host } id args s = startCall p id args s := by
  rw [startCall_eq (p := { p with resolver, host }) hf hsig, startCall_eq hf hsig, hbody]
  rfl

/-- A call instruction goes on with its target. -/
theorem call_of_aim {inst : Instruction} {op : CallOp}
    (h : aim p inst op s = .ok (.function id, args) t) (resolver : Resolver) (host : Host) :
    call { p with resolver, host } inst op s = startCall { p with resolver, host } id args t := by
  rw [call_eq_aim, aim_outside, bind_of_ok h]
  rfl

end Exec

/-- A declaration is called by its symbol. -/
theorem RoutedCall.startCall (hf : p.module.function id = .ok f) (hsig : f.signature = .ok sig)
    (hdecl : f.isDeclaration = true) (args : List Value) (s : State) :
    RoutedCall p ((s.aliases.get? id).getD f.name) sig args s fun resolver =>
      Exec.startCall { p with resolver } id args s := by
  by_cases htakes : sig.Takes args.length
  · refine ⟨fun resolver hsame => ?_, fun _ hnone => ?_, fun name u hfail => ?_,
      fun _ address code scalars c haddress hnull hcode hscalars hret hcheck => ?_⟩
    · cases hresolved : p.resolver ((s.aliases.get? id).getD f.name) with
      | none =>
        rw [startCall_of_unresolved hf hsig hdecl htakes hresolved]
        exact startCall_of_unresolved (p := { p with resolver }) hf hsig hdecl htakes
          (hsame.trans hresolved)
      | some address =>
        rw [startCall_of_resolved hf hsig hdecl htakes hresolved]
        exact startCall_of_resolved (p := { p with resolver }) hf hsig hdecl htakes
          (hsame.trans hresolved)
    · exact startCall_of_unresolved hf hsig hdecl htakes hnone
    · cases hresolved : p.resolver ((s.aliases.get? id).getD f.name) with
      | none =>
        rw [startCall_of_unresolved hf hsig hdecl htakes hresolved] at hfail
        cases hfail
        exact ⟨rfl, rfl⟩
      | some address =>
        rw [startCall_of_resolved hf hsig hdecl htakes hresolved] at hfail
        rcases bind_eq_error_iff.mp hfail with hfail | ⟨_, _, _, hfail⟩
        · exact (callNative_ne_notFound _ hfail).elim
        · cases hfail
    · obtain ⟨v, hv, _⟩ := Returned.value_eq hret (code scalars s.memory.arena).1
      refine ⟨v, hv, ?_⟩
      rw [startCall_of_resolved hf hsig hdecl htakes haddress]
      exact bind_of_ok (callNative_of_prepare
        (Callee.prepare_eq hret hscalars hnull hcheck hcode) hv)
  · -- The number of arguments is checked before anything is looked up.
    have hstart (resolver : Resolver) : Exec.startCall { p with resolver } id args s =
        .error (.of (.argumentCount f.name sig.params.length args.length)) s := by
      rw [startCall_eq (p := { p with resolver }) hf hsig, if_neg htakes]
    refine ⟨fun resolver _ => ?_, fun h => absurd h htakes, fun name u hfail => ?_,
      fun h => absurd h htakes⟩
    · rw [hstart, hstart]
    · rw [hstart] at hfail
      cases hfail

end Lookups

/-- Which symbol a call of a declaration looks up. In a session that has been set up it is that of
the wrapper, if the function has one that the resolver knows, or else that of the last entry among
the intrinsics, or else the function's own name; before that it is the function's own name. A call
from outside and a call instruction, which finds its callee and its arguments without the resolver,
ask for this symbol and no other, and run the code at its address. A function with a body has no
entry in the table, and a call of it asks neither the resolver nor the host. -/
theorem declarations_called_by_symbol {sig : Signature} (hs : Reachable p s)
    (hf : p.module.function id = .ok f) (hsig : f.signature = .ok sig) :
    (f.isDeclaration = true →
      (∀ args, RoutedCall p (p.symbol s.initialized id f) sig args s fun resolver =>
        startCall { p with resolver } id args s) ∧
      ∀ inst op args t, aim p inst op s = .ok (.function id, args) t →
        RoutedCall p (p.symbol s.initialized id f) sig args t fun resolver =>
          call { p with resolver } inst op s) ∧
    (f.isDeclaration = false → s.aliases.get? id = none ∧ ∀ resolver host,
      (∀ args, startCall { p with resolver, host } id args s = startCall p id args s) ∧
      ∀ inst op args t, aim p inst op s = .ok (.function id, args) t →
        call { p with resolver, host } inst op s = call p inst op s) := by
  have hroutes := Routes.of_reachable hs
  refine ⟨fun hdecl => ⟨fun args => ?_, fun inst op args t haim => ?_⟩, fun hbody =>
    ⟨hroutes.get?_of_body hf hbody, fun resolver host => ⟨fun args => ?_,
      fun inst op args t haim => ?_⟩⟩⟩
  · rw [← hroutes.symbol hf hdecl]
    exact .startCall hf hsig hdecl args s
  · have hsame : SameRoutes s t := .of_makes ((aim_makes inst op).of_ok haim)
    have hcall : (fun resolver => call { p with resolver } inst op s) =
        fun resolver => startCall { p with resolver } id args t := by
      funext resolver
      exact call_of_aim haim resolver p.host
    rw [hcall, ← hsame.initialized, ← (hroutes.of_sameRoutes hsame).symbol hf hdecl]
    exact .startCall hf hsig hdecl args t
  · exact startCall_outside hf hsig hbody resolver host
  · rw [call_of_aim haim, startCall_outside hf hsig hbody]
    exact (call_of_aim haim p.resolver p.host).symm

/-! ## A wrapper, an intrinsic and a body -/

namespace Wrapping

def printf : Function where
  name := "printf"
  ty := .function [Ty.ptrTo Ty.i8] Ty.i32 true
  locals := #[⟨Ty.ptrTo Ty.i8, false⟩]
  blocks := #[]

def compute : Function where
  name := "compute"
  ty := .function [] Ty.i64 false
  locals := #[]
  blocks := #[]

/-- A function that has the name of one with a wrapper, and a body. -/
def sprintf : Function where
  name := "sprintf"
  ty := .function [] .void false
  locals := #[]
  blocks := #[⟨"entry", #[⟨.ret, [], none⟩]⟩]

/-- Everything is listed as an intrinsic, one function twice. The resolver knows the wrapper and the
first of the two. -/
def program : Program where
  module :=
    { name := "wrapping"
      constants := #[⟨.function [] Ty.i64 false, .function ⟨1⟩⟩]
      functions := #[printf, compute, sprintf]
      intrinsics := [("print", ⟨0⟩), ("first", ⟨1⟩), ("body", ⟨2⟩), ("second", ⟨1⟩)] }
  resolver := .table [("__interp_wrapper_printf", Native.wrappedPrintf.address),
    ("__interp_intrinsic_first", Native.answer.address),
    ("__interp_wrapper_sprintf", Native.wrappedPrintf.address)]

def ready : State := (setUp program 9).after {}

theorem ready_reachable : Reachable program ready :=
  have hok : setUp program 9 {} = .ok () ready := eq_ok_of_result? (by decide +kernel)
  .idle (.performed (.setUp 9) .fresh (.inl ⟨(), hok⟩))

/-- The empty text. -/
def text : Value := .ofAddress (Ty.ptrTo Ty.i8) 0

def callCompute : Instruction := ⟨.call .pointer, [.const ⟨0⟩], some ⟨0⟩⟩

theorem aim_eq : ∃ t, aim program callCompute .pointer ready = .ok (.function ⟨1⟩, []) t :=
  ⟨_, eq_ok_of_result? (by decide +kernel)⟩

theorem printf_found : program.module.function ⟨0⟩ = .ok printf := rfl

theorem compute_found : program.module.function ⟨1⟩ = .ok compute := rfl

theorem sprintf_found : program.module.function ⟨2⟩ = .ok sprintf := rfl

end Wrapping

/-- The wrapper is called although the function is listed as an intrinsic; the last of two entries
is looked up and reported as missing, through a pointer too; and a body is never replaced. -/
theorem declarations_called_by_symbol_wrapping :
    Reachable Wrapping.program Wrapping.ready ∧
    (∃ v t, startCall Wrapping.program ⟨0⟩ [Wrapping.text] Wrapping.ready = .ok (.returned v) t) ∧
    (∃ t, call Wrapping.program Wrapping.callCompute .pointer Wrapping.ready =
      .error (.of (.foreignSymbolNotFound "__interp_intrinsic_second")) t) ∧
    ∀ resolver host, startCall { Wrapping.program with resolver, host } ⟨2⟩ [] Wrapping.ready =
      startCall Wrapping.program ⟨2⟩ [] Wrapping.ready := by
  have hready : Wrapping.ready.initialized = true := by decide +kernel
  refine ⟨Wrapping.ready_reachable, ?_, ?_, fun resolver host => ?_⟩
  · have hprintf := (declarations_called_by_symbol Wrapping.ready_reachable
      Wrapping.printf_found rfl).1 rfl
    have hcall := (hprintf.1 [Wrapping.text]).invokes (by decide)
      Native.wrappedPrintf.address _ [.int 8 false 0] (.int 4 true)
      (by rw [hready]; decide +kernel) (by decide +kernel) rfl rfl rfl rfl
    obtain ⟨v, _, hv⟩ := hcall
    exact ⟨v, _, hv⟩
  · obtain ⟨t, haim⟩ := Wrapping.aim_eq
    have hcompute := (declarations_called_by_symbol Wrapping.ready_reachable
      Wrapping.compute_found rfl).1 rfl
    have hcall := hcompute.2 _ _ _ t haim
    have hsymbol : Wrapping.program.symbol Wrapping.ready.initialized ⟨1⟩ Wrapping.compute =
        "__interp_intrinsic_second" := by
      rw [hready]
      decide +kernel
    rw [hsymbol] at hcall
    exact ⟨t, hcall.missing (by decide) (by decide +kernel)⟩
  · have hsprintf := (declarations_called_by_symbol Wrapping.ready_reachable
      Wrapping.sprintf_found rfl).2 rfl
    exact (hsprintf.2 resolver host).1 []

end PackedIR
