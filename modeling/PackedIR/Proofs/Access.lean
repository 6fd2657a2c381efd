/-
Three ways to a member.

A member of an aggregate in memory is reached through an l-value, through a pointer, or by
taking the whole aggregate as a value. The first two compute an address from the layout
and load or store there; the third copies all bytes and looks at, or patches, a part of
them. They agree because the offset of a member and its size are the same numbers in all
three, and because an aggregate that lies in one live allocation has all its members in
that allocation, so that address arithmetic does not wrap and no access is refused.
-/
import PackedIR.Proofs.Evaluation
import PackedIR.Proofs.Layouts

set_option autoImplicit false

namespace PackedIR

variable {p : Program} {s t u : State} {f : Function}

/-! ## Instructions in sequence -/

/-- Instructions of `f` are executed one after the other in the innermost frame, and each of them
completes. -/
inductive Executes (p : Program) (f : Function) : List Instruction → State → State → Prop where
  | nil (s : State) : Executes p f [] s s
  | cons {inst : Instruction} {insts : List Instruction} {v : Option Value} {s t u w : State} :
      Exec.execute p f inst s = .ok (.complete v) t → Exec.complete f inst v t = .ok () u →
      Executes p f insts u w → Executes p f (inst :: insts) s w

theorem Executes.append {first second : List Instruction} (h : Executes p f first s t)
    (h' : Executes p f second t u) : Executes p f (first ++ second) s u := by
  induction h with
  | nil => exact h'
  | cons hx hc _ ih => exact .cons hx hc (ih h')

/-! ## Stores -/

namespace Exec

variable {value place : Operand}

/-- The place that a store goes to: what a pointer points to, or an l-value. -/
def storePlace (p : Program) (op : PlaceOp) (place : Operand) : Exec (Nat × Ty) :=
  match op with
  | .writePtr => pointerOperand p place
  | _ => operandAddress p place

/-- The operands of a store, evaluated in order. -/
def storeOperands (p : Program) (op : PlaceOp) (value place : Operand) :
    Exec (Value × Nat × Ty) := do
  let v ← operand p value
  return (v, ← storePlace p op place)

theorem storeOperands_evaluates (op : PlaceOp) :
    Evaluates p (storeOperands p op value place) := by
  have hplace : Evaluates p (storePlace p op place) := by
    unfold storePlace
    split
    · exact pointerOperand_evaluates place
    · exact operandAddress_evaluates place
  exact (operand_evaluates value).bind fun _ => hplace.bind fun _ => (reads_pure _).evaluates

theorem storeOperands_makes (op : PlaceOp) : Along (Makes p) (storeOperands p op value place) :=
  (storeOperands_evaluates op).makes

theorem storeValue_atomic (address : Nat) (ty : Ty) (v : Value) :
    Atomic (storeValue p address ty v) :=
  (reads_lift _).bind_atomic fun _ => reads_get.bind_atomic fun _ =>
    (reads_lift _).bind_atomic fun _ => atomic_modify _

/-- A store evaluates its operands and then stores. -/
theorem execute_store {op : PlaceOp} (hop : op = .store ∨ op = .writePtr)
    {result : Option Local} :
    execute p f ⟨.place op, [value, place], result⟩ s =
      (do
        let (v, address, ty) ← storeOperands p op value place
        storeValue p address ty v
        return .complete none : Exec Flow) s := by
  rcases hop with rfl | rfl
  · simp only [execute, Exec.place, storeOperands, storePlace, bind_assoc, pure_bind]
  · simp only [execute, Exec.place, storeOperands, storePlace, bind_assoc, pure_bind]

/-- A store that fails has done no more than evaluate its operands. -/
theorem after_of_failed_store {op : PlaceOp} (hop : op = .store ∨ op = .writePtr)
    {result : Option Local} {e : Failure}
    (h : execute p f ⟨.place op, [value, place], result⟩ s = .error e t) :
    t = (storeOperands p op value place).after s := by
  rw [execute_store hop, bind_eq_error_iff] at h
  rcases h with h | ⟨⟨v, address, ty⟩, u, hu, h⟩
  · rw [after_of_error h]
  · rw [after_of_ok hu]
    rcases bind_eq_error_iff.mp h with h | ⟨_, _, _, h⟩
    · exact storeValue_atomic address ty v u e t h
    · cases h

end Exec

/-! ## An aggregate in memory -/

/-- An aggregate in one live allocation, one of its members, and locals of the function being
executed that can take what instructions compute on the way to the member. -/
structure Access (p : Program) where
  state : State
  reachable : Reachable p state
  frame : Frame
  rest : List Frame
  frames : state.frames = frame :: rest
  func : Function
  found : p.module.function frame.function = .ok func
  /-- The l-value, the address it stands for and the type of the aggregate there. -/
  lvalue : Operand
  address : Nat
  ty : Ty
  addressed : ∃ t, Exec.operandAddress p lvalue state = .ok (address, ty) t
  live : state.memory.Live address ty.size
  /-- The member and a constant for its number, which is a word. -/
  member : Member
  number : Nat
  placed : (Layout.of ty).member? number = some member
  inRange : number < addressLimit
  index : ConstId
  indexTy : Ty
  indexed : p.module.constant index = .ok ⟨indexTy, .int number⟩
  /-- A constant zero of one of the integer types that can be read. -/
  zero : ConstId
  zeroTy : Ty
  zeroed : p.module.constant zero = .ok ⟨zeroTy, .int 0⟩
  zeroInteger : zeroTy.isInteger = true
  zeroSize : Value.isIntSize zeroTy.size = true
  /-- The member as an l-value. -/
  cell : Local
  cellDecl : func.local? cell = some ⟨member.ty, true⟩
  /-- A pointer to the aggregate. -/
  pointer : Local
  pointerDecl : func.local? pointer = some ⟨Ty.mutPtrTo ty, false⟩
  /-- A pointer to the member. -/
  target : Local
  targetDecl : func.local? target = some ⟨Ty.mutPtrTo member.ty, false⟩
  /-- The member as a value, loaded or extracted. -/
  content : Local
  contentDecl : func.local? content = some ⟨member.ty, false⟩

namespace Access

variable (a : Access p)

def getStructMember : Instruction :=
  ⟨.place .getStructMember, [a.lvalue, .const a.index], some a.cell⟩

def addressOf : Instruction := ⟨.place .addressOf, [a.lvalue], some a.pointer⟩

def getPointerToStructMember : Instruction :=
  ⟨.place .getPointerToStructMember, [.local a.pointer, .const a.zero, .const a.index],
    some a.target⟩

def readPtr : Instruction := ⟨.place .readPtr, [.local a.target], some a.content⟩

def extractValue : Instruction := ⟨.extractValue, [a.lvalue, .const a.index], some a.content⟩

def insertValue (value : Operand) : Instruction :=
  ⟨.insertValue, [a.lvalue, value, .const a.index], none⟩

def store (value : Operand) : Instruction := ⟨.place .store, [value, .local a.cell], none⟩

def writePtr (value : Operand) : Instruction := ⟨.place .writePtr, [value, .local a.target], none⟩

/-- Where the member lies. -/
def memberAddress : Nat := a.address + a.member.offset

/-- The member as it is in memory. -/
def memberIn (t : State) : Value :=
  { ty := a.member.ty, bytes := t.memory.arena.read a.memberAddress a.member.ty.size }

/-- The aggregate as it is in memory, with the bytes of the member replaced. -/
def patched (t : State) (bytes : Bytes) : Value :=
  let old := t.memory.arena.read a.address a.ty.size
  { ty := a.ty
    bytes := old.take a.member.offset ++ bytes ++ old.drop (a.member.offset + bytes.length) }

/-! ## The member is inside -/

theorem member_mem : a.member.ty ∈ a.ty.memberTypes := by
  have hlisted := (Layout.member?_eq_some a.placed).1
  exact List.mem_of_getElem? hlisted

theorem member_size : a.member.size = a.member.ty.size :=
  (Layout.member?_eq_some a.placed).2.1

theorem member_fits : a.member.offset + a.member.ty.size ≤ a.ty.size :=
  (Layout.member?_eq_some a.placed).2.2

theorem member_live : a.state.memory.Live a.memberAddress a.member.ty.size := by
  have hfits := a.member_fits
  unfold memberAddress
  exact a.live.part (by omega) (by omega)

/-- The aggregate is at none of the locals for results, which are declared otherwise. -/
theorem lvalue_ne {l : Local} {decl : LocalDecl} (hdecl : a.func.local? l = some decl)
    (hne : decl ≠ ⟨a.ty, true⟩) : a.lvalue ≠ .local l := by
  intro heq
  obtain ⟨t, haddressed⟩ := a.addressed
  rcases Exec.operandAddress_eq_ok haddressed with
    ⟨l', fr, rest, f, v, hl', hfr, hf, _, hdecl', _, _⟩ | ⟨id, g, v, hid, _⟩
  · rw [heq] at hl'
    cases hl'
    have hframes := a.frames
    rw [hfr] at hframes
    cases hframes
    have hfound := a.found
    rw [hf] at hfound
    cases hfound
    rw [hdecl] at hdecl'
    cases hdecl'
    exact hne rfl
  · rw [heq] at hid
    cases hid

theorem lvalue_ne_cell : a.lvalue ≠ .local a.cell := by
  apply a.lvalue_ne a.cellDecl
  intro heq
  have hty : a.member.ty = a.ty := congrArg LocalDecl.ty heq
  exact Ty.ne_of_mem_memberTypes a.member_mem hty

theorem lvalue_ne_value {l : Local} {ty : Ty} (hdecl : a.func.local? l = some ⟨ty, false⟩) :
    a.lvalue ≠ .local l := by
  apply a.lvalue_ne hdecl
  intro heq
  cases heq

/-! ## States on the way -/

/-- Since the access began, constants may have been made and the listed results bound, and that
is all. -/
structure Meets (results : List Local) (t : State) : Prop where
  sane : Sane p t
  keeps : a.state.memory.Keeps t.memory
  frames : ∃ fr, t.frames = fr :: a.rest ∧ fr.function = a.frame.function ∧
    ∀ l, l ∉ results → fr.lookup? l = a.frame.lookup? l

/-- The local is bound to the value in the innermost frame. -/
def Bound (l : Local) (v : Value) (t : State) : Prop :=
  ∃ fr, t.frames = fr :: a.rest ∧ fr.lookup? l = some (v.withOrigin (.local l))

/-- The address of the aggregate is there without further evaluation. -/
def Addressed (t : State) : Prop :=
  Exec.operandAddress p a.lvalue t = .ok (a.address, a.ty) t

variable {a} {results : List Local}

theorem Bound.makes {l : Local} {v : Value} (h : a.Bound l v t) (hmakes : Makes p t u) :
    a.Bound l v u := by
  unfold Bound
  rw [hmakes.frames_eq]
  exact h

theorem meets_state (hp : p.module.Built) (hhost : p.host.KeepsExtent) : a.Meets [] a.state :=
  ⟨a.reachable.sane hp hhost, .refl _, a.frame, a.frames, rfl, fun _ _ => rfl⟩

namespace Meets

theorem makes (h : a.Meets results t) (hmakes : Makes p t u) : a.Meets results u := by
  refine ⟨h.sane.makes hmakes, h.keeps.trans (hmakes.keeps h.sane.housed), ?_⟩
  rw [hmakes.frames_eq]
  exact h.frames

theorem live (h : a.Meets results t) : t.memory.Live a.address a.ty.size := h.keeps.live a.live

theorem member_live (h : a.Meets results t) : t.memory.Live a.memberAddress a.member.ty.size :=
  h.keeps.live a.member_live

theorem memberAddress_lt (h : a.Meets results t) : a.memberAddress < addressLimit := by
  have hlimit := h.member_live.lt_addressLimit h.sane.housed
  omega

theorem address_lt (h : a.Meets results t) : a.address < addressLimit := by
  have hlimit := h.live.lt_addressLimit h.sane.housed
  omega

/-- Executing an instruction whose value has the declared type binds its result. -/
theorem bind (h : a.Meets results t) {inst : Instruction} {l : Local} {decl : LocalDecl}
    {v : Value} (hx : Exec.execute p a.func inst t = .ok (.complete (some v)) u)
    (hmakes : Makes p t u) (hl : inst.result = some l) (hdecl : a.func.local? l = some decl)
    (hv : v.HasTy decl.boundTy) :
    ∃ t', Executes p a.func [inst] t t' ∧ a.Meets (l :: results) t' ∧ a.Bound l v t' ∧
      t'.memory = u.memory ∧ t'.constants = u.constants := by
  have hu := h.makes hmakes
  obtain ⟨fr, hfr, hfun, hlookup⟩ := hu.frames
  have hfound : p.module.function fr.function = .ok a.func := by
    rw [hfun]
    exact a.found
  have hcomplete := Exec.complete_eq hu.sane.typed hfr hfound hl hdecl hv
  refine ⟨u.bound fr a.rest l v, .cons hx hcomplete (.nil _), ⟨?_, hu.keeps, ?_⟩, ?_, rfl, rfl⟩
  · exact hu.sane.bound hfr hfound hdecl hv
  · refine ⟨_, rfl, hfun, fun l' hl' => ?_⟩
    rw [List.mem_cons, not_or] at hl'
    obtain ⟨hne, hnot⟩ := hl'
    change (fr.set l _).lookup? l' = _
    rw [Frame.lookup?_set, if_neg fun h => hne h.1, hlookup l' hnot]
  · exact ⟨_, rfl, hu.sane.typed.lookup?_set_self hfr hfound hdecl _⟩

/-- Once the address of the aggregate has been computed it stays. -/
theorem addressed_again (h : a.Meets results t)
    (haddress : Exec.operandAddress p a.lvalue t = .ok (a.address, a.ty) u) {results' : List Local}
    {t' : State} (h' : a.Meets results' t')
    (hcached : ∀ id v, u.constants.get? id = some v → t'.constants.get? id = some v)
    (hresults : ∀ l, a.lvalue = .local l → l ∉ results ∧ l ∉ results') : a.Addressed t' := by
  obtain ⟨fr, hfr, hfun, hlookup⟩ := h.frames
  obtain ⟨fr', hfr', hfun', hlookup'⟩ := h'.frames
  refine Exec.operandAddress_again hfr haddress hfr' ?_ ?_ hcached
  · rw [hfun', hfun]
  · intro l hl
    rw [hlookup' l (hresults l hl).2, hlookup l (hresults l hl).1]

theorem frame_of_bound (h : a.Meets results t) {l : Local} {v : Value} (hbound : a.Bound l v t) :
    ∃ fr, t.frames = fr :: a.rest ∧ p.module.function fr.function = .ok a.func ∧
      fr.lookup? l = some (v.withOrigin (.local l)) := by
  obtain ⟨fr, hfr, hfun, _⟩ := h.frames
  obtain ⟨fr', hfr', hlookup⟩ := hbound
  rw [hfr] at hfr'
  cases hfr'
  have hfound : p.module.function fr.function = .ok a.func := by
    rw [hfun]
    exact a.found
  exact ⟨fr, hfr, hfound, hlookup⟩

/-- The value bound to a local that is not an l-value. -/
theorem operand_bound (h : a.Meets results t) {l : Local} {v : Value} {ty : Ty}
    (hbound : a.Bound l v t) (hdecl : a.func.local? l = some ⟨ty, false⟩) :
    Exec.operand p (.local l) t = .ok (v.withOrigin (.local l)) t := by
  obtain ⟨fr, hfr, hfound, hlookup⟩ := h.frame_of_bound hbound
  exact Exec.operand_local hfr hfound hlookup hdecl

/-- The address bound to a local that is a pointer. -/
theorem pointerOperand_bound (h : a.Meets results t) {l : Local} {pointee : Ty} {address : Nat}
    (hbound : a.Bound l (Value.ofAddress (Ty.mutPtrTo pointee) address) t)
    (hdecl : a.func.local? l = some ⟨Ty.mutPtrTo pointee, false⟩)
    (hlimit : address < addressLimit) :
    Exec.pointerOperand p (.local l) t = .ok (address, pointee) t := by
  have haddress := Value.asAddress_ofAddress (Ty.mutPtrTo pointee) hlimit
  unfold Exec.pointerOperand
  rw [Exec.bind_of_ok (h.operand_bound hbound hdecl)]
  change (do return (← (Value.ofAddress (Ty.mutPtrTo pointee) address).asAddress, pointee) :
    Exec (Nat × Ty)) t = _
  rw [haddress]
  rfl

/-- The address bound to a local that is an l-value. -/
theorem operandAddress_bound (h : a.Meets results t) {l : Local} {ty : Ty} {address : Nat}
    (hbound : a.Bound l (Value.ofAddress (Ty.mutPtrTo ty) address) t)
    (hdecl : a.func.local? l = some ⟨ty, true⟩) (hlimit : address < addressLimit) :
    Exec.operandAddress p (.local l) t = .ok (address, ty) t := by
  obtain ⟨fr, hfr, hfound, hlookup⟩ := h.frame_of_bound hbound
  have haddress := Value.asAddress_ofAddress (Ty.mutPtrTo ty) hlimit
  exact Exec.operandAddress_local hfr hfound hlookup hdecl haddress

end Meets

/-! ## The instructions, one by one -/

theorem memberOf_eq : memberOf a.ty a.number = .ok a.member := by
  unfold memberOf
  rw [a.placed]

theorem constIndex_index (t : State) :
    Exec.constIndex p (.const a.index) t = .ok a.number t :=
  Exec.constIndex_eq a.indexed a.inRange

theorem execute_getStructMember (h : a.Meets results t)
    (haddress : Exec.operandAddress p a.lvalue t = .ok (a.address, a.ty) u) :
    Exec.execute p a.func a.getStructMember t =
      .ok (.complete (some (Value.ofAddress (Ty.mutPtrTo a.member.ty) a.memberAddress))) u := by
  have hmember : Exec.getStructMember p a.lvalue (.const a.index) t =
      .ok (Value.ofAddress (Ty.mutPtrTo a.member.ty) a.memberAddress) u := by
    unfold Exec.getStructMember
    rw [Exec.bind_of_ok haddress]
    dsimp only
    rw [Exec.bind_of_ok (constIndex_index u), memberOf_eq, Exec.bind_of_ok (Exec.lift_ok _ _),
      memberAddress_eq h.memberAddress_lt]
    rfl
  have hplace : Exec.place p a.func a.getStructMember .getStructMember t =
      .ok (some (Value.ofAddress (Ty.mutPtrTo a.member.ty) a.memberAddress)) u :=
    Exec.bind_of_ok hmember
  exact Exec.bind_of_ok hplace

theorem execute_addressOf
    (haddress : Exec.operandAddress p a.lvalue t = .ok (a.address, a.ty) u) :
    Exec.execute p a.func a.addressOf t =
      .ok (.complete (some (Value.ofAddress (Ty.mutPtrTo a.ty) a.address))) u := by
  have hplace : Exec.place p a.func a.addressOf .addressOf t =
      .ok (some (Value.ofAddress (Ty.mutPtrTo a.ty) a.address)) u :=
    Exec.bind_of_ok haddress
  exact Exec.bind_of_ok hplace

theorem execute_getPointerToStructMember (h : a.Meets results t)
    (hbound : a.Bound a.pointer (Value.ofAddress (Ty.mutPtrTo a.ty) a.address) t) :
    ∃ u, Makes p t u ∧ Exec.execute p a.func a.getPointerToStructMember t =
      .ok (.complete (some (Value.ofAddress (Ty.mutPtrTo a.member.ty) a.memberAddress))) u := by
  have hpointer := h.pointerOperand_bound hbound a.pointerDecl h.address_lt
  obtain ⟨u, hzero⟩ :=
    Exec.integerOperand_zero h.sane .index a.zeroed a.zeroInteger a.zeroSize
  refine ⟨u, (Exec.integerOperand_makes .index (.const a.zero)).of_ok hzero, ?_⟩
  -- The aggregate is its own element 0.
  have helement : offsetAddress a.address (0 * a.ty.size) = a.address := by
    rw [Int.zero_mul]
    exact offsetAddress_eq h.address_lt
  have hmember : Exec.getPointerToStructMember p (.local a.pointer) (.const a.zero)
      (.const a.index) t = .ok (Value.ofAddress (Ty.mutPtrTo a.member.ty) a.memberAddress) u := by
    unfold Exec.getPointerToStructMember
    rw [Exec.bind_of_ok hpointer]
    dsimp only
    rw [Exec.bind_of_ok (constIndex_index t), memberOf_eq, Exec.bind_of_ok (Exec.lift_ok _ _),
      Exec.bind_of_ok hzero]
    change (do
      return Value.ofAddress (Ty.mutPtrTo a.member.ty)
        (← PackedIR.memberAddress (offsetAddress a.address (0 * a.ty.size)) a.member) :
      Exec Value) u = _
    rw [helement, memberAddress_eq h.memberAddress_lt]
    rfl
  have hplace : Exec.place p a.func a.getPointerToStructMember .getPointerToStructMember t =
      .ok (some (Value.ofAddress (Ty.mutPtrTo a.member.ty) a.memberAddress)) u :=
    Exec.bind_of_ok hmember
  exact Exec.bind_of_ok hplace

theorem execute_readPtr (h : a.Meets results t)
    (hbound : a.Bound a.target (Value.ofAddress (Ty.mutPtrTo a.member.ty) a.memberAddress) t) :
    Exec.execute p a.func a.readPtr t = .ok (.complete (some (a.memberIn t))) t := by
  have haddress := Value.asAddress_ofAddress (Ty.mutPtrTo a.member.ty) h.memberAddress_lt
  have hdecl : resultDecl a.func a.readPtr = .ok ⟨a.member.ty, false⟩ :=
    Exec.resultDecl_eq_ok_iff.mpr ⟨a.content, rfl, a.contentDecl⟩
  have hload := h.sane.load_eq h.member_live
  have hplace : Exec.place p a.func a.readPtr .readPtr t = .ok (some (a.memberIn t)) t := by
    change (do
      let address ← (← Exec.operand p (.local a.target)).asAddress
      let decl ← resultDecl a.func a.readPtr
      return some (← Exec.load p address decl.ty) : Exec (Option Value)) t = _
    rw [Exec.bind_of_ok (h.operand_bound hbound a.targetDecl)]
    change (do
      let address ← (Value.ofAddress (Ty.mutPtrTo a.member.ty) a.memberAddress).asAddress
      let decl ← resultDecl a.func a.readPtr
      return some (← Exec.load p address decl.ty) : Exec (Option Value)) t = _
    rw [haddress, Exec.bind_of_ok (Exec.lift_ok _ _), hdecl, Exec.bind_of_ok (Exec.lift_ok _ _),
      Exec.bind_of_ok hload]
    rfl
  exact Exec.bind_of_ok hplace

/-- The part of the aggregate that is extracted is what lies at the member's address. -/
theorem execute_extractValue (h : a.Meets results t)
    (haddress : Exec.operandAddress p a.lvalue t = .ok (a.address, a.ty) u) :
    Exec.execute p a.func a.extractValue t = .ok (.complete (some (a.memberIn t))) u := by
  obtain ⟨old, hold, holdTy, holdBytes⟩ :=
    Exec.operand_of_operandAddress h.sane haddress h.live
  have hsize : old.size = a.ty.size := by
    unfold Value.size
    rw [holdBytes, Arena.length_read]
  -- A part of the bytes read at the address is what is read at the part's address.
  have hpart : (old.bytes.drop a.member.offset).take a.member.ty.size =
      t.memory.arena.read a.memberAddress a.member.ty.size := by
    rw [holdBytes]
    exact Arena.read_drop_take a.member_fits
  have hget : old.getMember a.member = .ok (a.memberIn t) := by
    rw [Value.getMember_eq_ok_iff, hpart, hsize]
    exact ⟨a.member_fits, rfl⟩
  have haggregate : Exec.aggregate p a.extractValue t = .ok (a.memberIn t) u := by
    change (do
      let v ← Exec.operand p a.lvalue
      let member ← memberOf v.ty (← Exec.constIndex p (.const a.index))
      v.getMember member : Exec Value) t = _
    rw [Exec.bind_of_ok hold, Exec.bind_of_ok (constIndex_index u), holdTy, memberOf_eq,
      Exec.bind_of_ok (Exec.lift_ok _ _), hget]
    rfl
  exact Exec.bind_of_ok haggregate

/-! ## Reaching the member -/

/-- By way of an l-value. -/
theorem reach_cell (hp : p.module.Built) (hhost : p.host.KeepsExtent) :
    ∃ t, Executes p a.func [a.getStructMember] a.state t ∧ a.Meets [a.cell] t ∧ a.Addressed t ∧
      a.Bound a.cell (Value.ofAddress (Ty.mutPtrTo a.member.ty) a.memberAddress) t := by
  have hstart : a.Meets [] a.state := meets_state hp hhost
  obtain ⟨u, haddress⟩ := a.addressed
  have hmakes := (Exec.operandAddress_makes a.lvalue).of_ok haddress
  obtain ⟨t, hexec, ht, hbound, _, hconst⟩ :=
    hstart.bind (execute_getStructMember hstart haddress) hmakes rfl a.cellDecl
      (Value.hasTy_ofAddress_pointer a.member.ty true a.memberAddress)
  refine ⟨t, hexec, ht, ?_, hbound⟩
  -- The results on the way are declared with other types than the aggregate, so none of them
  -- can be the local that holds it.
  refine hstart.addressed_again haddress ht ?_ ?_
  · intro id v hv
    rw [hconst]
    exact hv
  · intro l hl
    refine ⟨List.not_mem_nil, ?_⟩
    rw [List.mem_singleton]
    rintro rfl
    exact a.lvalue_ne_cell hl

/-- By way of pointers. -/
theorem reach_target (hp : p.module.Built) (hhost : p.host.KeepsExtent) :
    ∃ t, Executes p a.func [a.addressOf, a.getPointerToStructMember] a.state t ∧
      a.Meets [a.target, a.pointer] t ∧ a.Addressed t ∧
      a.Bound a.target (Value.ofAddress (Ty.mutPtrTo a.member.ty) a.memberAddress) t := by
  have hstart : a.Meets [] a.state := meets_state hp hhost
  obtain ⟨u, haddress⟩ := a.addressed
  have hmakes := (Exec.operandAddress_makes a.lvalue).of_ok haddress
  obtain ⟨t₁, hexec₁, ht₁, hbound₁, _, hconst₁⟩ :=
    hstart.bind (execute_addressOf haddress) hmakes rfl a.pointerDecl
      (Value.hasTy_ofAddress_pointer a.ty true a.address)
  obtain ⟨u₂, hmakes₂, hx₂⟩ := execute_getPointerToStructMember ht₁ hbound₁
  obtain ⟨t, hexec₂, ht, hbound, _, hconst₂⟩ :=
    ht₁.bind hx₂ hmakes₂ rfl a.targetDecl
      (Value.hasTy_ofAddress_pointer a.member.ty true a.memberAddress)
  refine ⟨t, hexec₁.append hexec₂, ht, ?_, hbound⟩
  refine hstart.addressed_again haddress ht ?_ ?_
  · intro id v hv
    rw [hconst₂]
    apply hmakes₂.constants_get?
    rw [hconst₁]
    exact hv
  · intro l hl
    refine ⟨List.not_mem_nil, ?_⟩
    rw [List.mem_cons, List.mem_singleton]
    rintro (rfl | rfl)
    · exact a.lvalue_ne_value a.targetDecl hl
    · exact a.lvalue_ne_value a.pointerDecl hl

/-! ## Reading the member -/

/-- Executing the instructions leaves the bytes under a local. -/
def Yields (a : Access p) (insts : List Instruction) (l : Local) (bytes : Bytes) : Prop :=
  ∃ t v, Executes p a.func insts a.state t ∧ Exec.operand p (.local l) t = .ok v t ∧
    v.bytes = bytes

/-- The bytes of the member. -/
def memberBytes (a : Access p) : Bytes :=
  a.state.memory.arena.read a.memberAddress a.member.ty.size

theorem Meets.read_member (h : a.Meets results t) :
    t.memory.arena.read a.memberAddress a.member.ty.size = a.memberBytes :=
  h.keeps.read_eq a.member_live

theorem yields_cell (hp : p.module.Built) (hhost : p.host.KeepsExtent) :
    a.Yields [a.getStructMember] a.cell a.memberBytes := by
  obtain ⟨t, hexec, ht, _, hbound⟩ := reach_cell (a := a) hp hhost
  have haddress := ht.operandAddress_bound hbound a.cellDecl ht.memberAddress_lt
  obtain ⟨v, hv, _, hbytes⟩ := Exec.operand_of_operandAddress ht.sane haddress ht.member_live
  refine ⟨t, v, hexec, hv, ?_⟩
  rw [hbytes]
  exact ht.read_member

theorem hasTy_memberIn (t : State) : (a.memberIn t).HasTy a.member.ty :=
  ⟨rfl, Arena.length_read _ _ _⟩

theorem yields_readPtr (hp : p.module.Built) (hhost : p.host.KeepsExtent) :
    a.Yields [a.addressOf, a.getPointerToStructMember, a.readPtr] a.content a.memberBytes := by
  obtain ⟨t, hexec, ht, _, hbound⟩ := reach_target (a := a) hp hhost
  obtain ⟨t', hexec', ht', hbound', _⟩ :=
    ht.bind (execute_readPtr ht hbound) (.refl t) rfl a.contentDecl (hasTy_memberIn t)
  refine ⟨t', _, hexec.append hexec', ht'.operand_bound hbound' a.contentDecl, ?_⟩
  exact ht.read_member

theorem yields_extractValue (hp : p.module.Built) (hhost : p.host.KeepsExtent) :
    a.Yields [a.extractValue] a.content a.memberBytes := by
  have hstart : a.Meets [] a.state := meets_state hp hhost
  obtain ⟨u, haddress⟩ := a.addressed
  have hmakes := (Exec.operandAddress_makes a.lvalue).of_ok haddress
  obtain ⟨t, hexec, ht, hbound, _⟩ :=
    hstart.bind (execute_extractValue hstart haddress) hmakes rfl a.contentDecl
      (hasTy_memberIn a.state)
  exact ⟨t, _, hexec, ht.operand_bound hbound a.contentDecl, rfl⟩

/-! ## Replacing the member -/

/-- Storing a value that fills the member, after the instructions that lead to it, makes of the
aggregate what inserting the value makes of its contents. Nothing else that was in memory changes,
and no binding but the listed results. -/
def Updates (a : Access p) (way : List Instruction) (store : Operand → Instruction)
    (results : List Local) : Prop :=
  ∃ t, Executes p a.func way a.state t ∧
    ∀ value v u, Exec.operand p value t = .ok v u → v.size = a.member.ty.size →
      ∃ t' w inserted updated, Executes p a.func [store value] t t' ∧
        Exec.execute p a.func (a.insertValue value) t = .ok (.complete (some inserted)) w ∧
        Exec.operand p a.lvalue t' = .ok updated t' ∧
        updated.ty = inserted.ty ∧ updated.bytes = inserted.bytes ∧
        (∀ k, (t'.memory.Live k 1 → a.state.memory.Live k 1) →
          k < a.address ∨ a.address + a.ty.size ≤ k →
          t'.memory.arena.byteAt k = a.state.memory.arena.byteAt k) ∧
        ∃ fr, t'.frames = fr :: a.rest ∧ ∀ l, l ∉ results → fr.lookup? l = a.frame.lookup? l

theorem execute_insertValue (h : a.Meets results t) (haddressed : a.Addressed t)
    {value : Operand} {v : Value} (hvalue : Exec.operand p value t = .ok v u)
    (hsize : v.size = a.member.ty.size) :
    Exec.execute p a.func (a.insertValue value) t =
      .ok (.complete (some (a.patched t v.bytes))) u := by
  obtain ⟨old, hold, holdTy, holdBytes⟩ :=
    Exec.operand_of_operandAddress h.sane haddressed h.live
  -- Insertion asks for a whole aggregate with room for the member.
  have hwhole : old.size = a.ty.size := by
    unfold Value.size
    rw [holdBytes, Arena.length_read]
  have hfits : a.member.offset + v.size ≤ old.size := by
    rw [hsize, hwhole]
    exact a.member_fits
  have hset : old.setMember a.member v = .ok (a.patched t v.bytes) := by
    rw [Value.setMember_eq_ok_iff, a.member_size, hsize, holdTy, hwhole, ← hsize, ← hwhole]
    refine ⟨rfl, rfl, hfits, ?_⟩
    unfold patched
    rw [holdBytes]
    rfl
  have haggregate : Exec.aggregate p (a.insertValue value) t = .ok (a.patched t v.bytes) u := by
    change (do
      let x ← Exec.operand p a.lvalue
      let e ← Exec.operand p value
      let member ← memberOf x.ty (← Exec.constIndex p (.const a.index))
      x.setMember member e : Exec Value) t = _
    rw [Exec.bind_of_ok hold, Exec.bind_of_ok hvalue, Exec.bind_of_ok (constIndex_index u), holdTy,
      memberOf_eq, Exec.bind_of_ok (Exec.lift_ok _ _), hset]
    rfl
  exact Exec.bind_of_ok haggregate

/-- Replacing the bytes of the member in memory patches what is read of the aggregate. -/
theorem read_put (h : a.Meets results t) (hmakes : Makes p t u) {bytes : Bytes}
    (hsize : bytes.length = a.member.ty.size) :
    (u.memory.put a.memberAddress bytes).arena.read a.address a.ty.size =
      (a.patched t bytes).bytes := by
  have hu := h.makes hmakes
  have hinside := hu.live.inside hu.sane.housed
  have hsame := (hmakes.keeps h.sane.housed).read_eq h.live
  have hfits : a.member.offset + bytes.length ≤ a.ty.size := by
    rw [hsize]
    exact a.member_fits
  unfold patched
  dsimp only
  rw [← hsame]
  exact Arena.read_write hinside.1 hfits hinside.2

/-- Both kinds of stores come down to replacing the bytes of the member in memory. -/
theorem updates_of_put {way : List Instruction} {store : Operand → Instruction}
    (hway : Executes p a.func way a.state t) (h : a.Meets results t) (haddressed : a.Addressed t)
    (hstore : ∀ value v u, Exec.operand p value t = .ok v u → v.size = a.member.ty.size →
      Exec.execute p a.func (store value) t =
        .ok (.complete none) { u with memory := u.memory.put a.memberAddress v.bytes }) :
    a.Updates way store results := by
  refine ⟨t, hway, fun value v u hvalue hsize => ?_⟩
  have hmakes := (Exec.operand_makes value).of_ok hvalue
  have hu := h.makes hmakes
  obtain ⟨fr, hfr, hfun, hlookup⟩ := hu.frames
  have hsane : Sane p { u with
      memory := u.memory.put a.memberAddress v.bytes
      frames := fr.advance :: a.rest } := by
    have hput := hu.sane.put a.memberAddress v.bytes
    exact hput.advance hfr
  -- The store binds nothing, so the aggregate is still where it was.
  have hagain : a.Addressed { u with
      memory := u.memory.put a.memberAddress v.bytes
      frames := fr.advance :: a.rest } := by
    have ht : t.frames = fr :: a.rest := by
      rw [← hmakes.frames_eq]
      exact hfr
    refine Exec.operandAddress_again ht haddressed rfl rfl (fun _ _ => rfl) ?_
    exact fun id w hw => hmakes.constants_get? hw
  obtain ⟨updated, hupdated, hty, hbytes⟩ :=
    Exec.operand_of_operandAddress hsane hagain hu.live
  rw [read_put h hmakes hsize] at hbytes
  refine ⟨_, u, a.patched t v.bytes, updated, ?_, execute_insertValue h haddressed hvalue hsize,
    hupdated, hty, hbytes, ?_, fr.advance, rfl, hlookup⟩
  · have hcomplete : Exec.complete a.func (store value) none
        { u with memory := u.memory.put a.memberAddress v.bytes } = .ok () _ :=
      Exec.modifyFrame_cons hfr
    exact .cons (hstore value v u hvalue hsize) hcomplete (.nil _)
  · intro k hk houtside
    have hfits := a.member_fits
    have hlength : v.bytes.length = a.member.ty.size := hsize
    have hapart : k < a.memberAddress ∨ a.memberAddress + v.bytes.length ≤ k := by
      unfold memberAddress
      omega
    -- The member lies inside the aggregate, so a byte outside the one is outside the other.
    rw [← hu.keeps.bytes k hk]
    exact Arena.byteAt_write_of_outside hapart

/-- A value that fills the member is stored at its address. -/
theorem storeValue_member (h : a.Meets results t) {v : Value} (hsize : v.size = a.member.ty.size) :
    Exec.storeValue p a.memberAddress a.member.ty v t =
      .ok () { t with memory := t.memory.put a.memberAddress v.bytes } := by
  have hlive : t.memory.Live a.memberAddress v.bytes.length := by
    change t.memory.Live a.memberAddress v.size
    rw [hsize]
    exact h.member_live
  have hcheck : checkSize a.member.ty.size v.size = .ok () :=
    checkSize_eq_ok_iff.mpr hsize.symm
  unfold Exec.storeValue
  rw [hcheck, Exec.bind_of_ok (Exec.lift_ok _ _), h.sane.storeBytes_eq hlive]

/-- A store that is led to the member replaces its bytes. -/
theorem execute_store_member (h : a.Meets results u) {op : PlaceOp}
    (hop : op = .store ∨ op = .writePtr) {value place : Operand} {v : Value}
    (hsize : v.size = a.member.ty.size) (hvalue : Exec.operand p value t = .ok v u)
    (hplace : Exec.storePlace p op place u = .ok (a.memberAddress, a.member.ty) u) :
    Exec.execute p a.func ⟨.place op, [value, place], none⟩ t =
      .ok (.complete none) { u with memory := u.memory.put a.memberAddress v.bytes } := by
  have hoperands : Exec.storeOperands p op value place t =
      .ok (v, a.memberAddress, a.member.ty) u := by
    unfold Exec.storeOperands
    rw [Exec.bind_of_ok hvalue, Exec.bind_of_ok hplace]
    rfl
  rw [Exec.execute_store hop, Exec.bind_of_ok hoperands]
  dsimp only
  rw [Exec.bind_of_ok (storeValue_member h hsize)]
  rfl

theorem updates_store (hp : p.module.Built) (hhost : p.host.KeepsExtent) :
    a.Updates [a.getStructMember] a.store [a.cell] := by
  obtain ⟨t, hway, ht, haddressed, hbound⟩ := reach_cell (a := a) hp hhost
  refine updates_of_put hway ht haddressed fun value v u hvalue hsize => ?_
  have hmakes := (Exec.operand_makes value).of_ok hvalue
  have hu := ht.makes hmakes
  have hplace := hu.operandAddress_bound (hbound.makes hmakes) a.cellDecl hu.memberAddress_lt
  exact execute_store_member hu (.inl rfl) hsize hvalue hplace

theorem updates_writePtr (hp : p.module.Built) (hhost : p.host.KeepsExtent) :
    a.Updates [a.addressOf, a.getPointerToStructMember] a.writePtr [a.target, a.pointer] := by
  obtain ⟨t, hway, ht, haddressed, hbound⟩ := reach_target (a := a) hp hhost
  refine updates_of_put hway ht haddressed fun value v u hvalue hsize => ?_
  have hmakes := (Exec.operand_makes value).of_ok hvalue
  have hu := ht.makes hmakes
  have hplace := hu.pointerOperand_bound (hbound.makes hmakes) a.targetDecl hu.memberAddress_lt
  exact execute_store_member hu (.inr rfl) hsize hvalue hplace

end Access

/-! ## The ways agree -/

/-- The l-value, the pointer and the whole value lead to the same member. Read by any of the three
ways, a member of an aggregate in one live allocation has the bytes at the member's address. A
store by either of the first two, of a value that fills the member, leaves in memory what insertion
by the third makes of the old contents, all other storage as it was, and only the addresses computed
on the way as new bindings. A store that fails has only evaluated its operands, which changes no
byte of existing storage. Native code is trusted to leave the storage where it is. -/
theorem aggregate_accesses_agree (hp : p.module.Built) (hhost : p.host.KeepsExtent) :
    (∀ a : Access p,
      (a.Yields [a.getStructMember] a.cell a.memberBytes ∧
        a.Yields [a.addressOf, a.getPointerToStructMember, a.readPtr] a.content a.memberBytes ∧
        a.Yields [a.extractValue] a.content a.memberBytes) ∧
      a.Updates [a.getStructMember] a.store [a.cell] ∧
      a.Updates [a.addressOf, a.getPointerToStructMember] a.writePtr [a.target, a.pointer]) ∧
    ∀ s f op value place result e t, Reachable p s → op = .store ∨ op = .writePtr →
      Exec.execute p f ⟨.place op, [value, place], result⟩ s = .error e t →
      t = (Exec.storeOperands p op value place).after s ∧ s.memory.Keeps t.memory ∧
        t.frames = s.frames := by
  refine ⟨fun a => ⟨⟨?_, ?_, ?_⟩, ?_, ?_⟩, fun s f op value place result e t hs hop h => ?_⟩
  · exact Access.yields_cell hp hhost
  · exact Access.yields_readPtr hp hhost
  · exact Access.yields_extractValue hp hhost
  · exact Access.updates_store hp hhost
  · exact Access.updates_writePtr hp hhost
  · have hafter := Exec.after_of_failed_store hop h
    have hmakes : Makes p s t := by
      rw [hafter]
      exact Exec.storeOperands_makes op s
    exact ⟨hafter, hmakes.keeps (hs.housed hhost), hmakes.frames_eq⟩

/-! ## A pair in memory -/

namespace Pairing

def pairTy : Ty := .struct "pair" [Ty.i8, Ty.i32]

/-- Puts the argument into the second member of a pair and then goes to it by way of pointers. -/
def body : Build Unit := do
  let pair ← Build.createLVal pairTy
  let index ← Build.constInt Ty.word 1
  let zero ← Build.constInt Ty.word 0
  let cell ← Build.emitLValue (.place .getStructMember) [pair, index] Ty.i32
  Build.store (.local ⟨0⟩) cell
  let pointer ← Build.addressOf pair
  let target ← Build.emitValue (.place .getPointerToStructMember) [pointer, zero, index]
    (Ty.mutPtrTo Ty.i32)
  let _ ← Build.emitValue (.place .readPtr) [target] Ty.i32
  Build.ret none

theorem appends_body : Build.Appends body :=
  (Build.appends_emitLValue _ _ _).bind fun _ => (Build.appends_constInt _ _).bind fun _ =>
    (Build.appends_constInt _ _).bind fun _ => (Build.appends_emitLValue _ _ _).bind fun _ =>
      (Build.appends_emitVoid _ _).bind fun _ =>
        ((Build.appends_typeOf _).bind fun _ => Build.appends_emitValue _ _ _).bind fun _ =>
          (Build.appends_emitValue _ _ _).bind fun _ =>
            (Build.appends_emitValue _ _ _).bind fun _ => Build.appends_emitVoid _ _

def filled : Builder :=
  (Doubling.fill { name := "pairing" } "pair" (.function [Ty.i32] .void false) body).toOption.get
    (by decide +kernel)

theorem filled_built : filled.module.Built := by
  have hfill : Doubling.fill { name := "pairing" } "pair" (.function [Ty.i32] .void false) body =
      .ok filled := rfl
  exact ⟨"pairing", Doubling.grows_fill appends_body hfill⟩

def program : Program := { module := filled.module }

/-- The state in which the argument has been stored. -/
def stored : State :=
  (Exec.step program 0).after ((Exec.step program 0).after ((Exec.step program 0).after
    ((Exec.startCall program ⟨0⟩ [Doubling.argument]).after {})))

theorem stored_reachable : Reachable program stored := by
  have hentered : Reachable program
      ((Exec.startCall program ⟨0⟩ [Doubling.argument]).after {}) :=
    .entered ⟨0⟩ [Doubling.argument] .fresh rfl
  unfold stored
  exact .stepped (.stepped (.stepped hentered))

theorem pair_addressed : ∃ t,
    Exec.operandAddress program (.local ⟨1⟩) stored = .ok (Arena.base, pairTy) t := by
  have hresult : (Exec.operandAddress program (.local ⟨1⟩)).result? stored =
      some (Arena.base, pairTy) := by decide +kernel
  exact ⟨_, Exec.eq_ok_of_result? hresult⟩

theorem frame_found : program.module.function (stored.frames.headD default).function =
    .ok (filled.module.functions.getD 0 default) := by
  have hfunction : (stored.frames.headD default).function = ⟨0⟩ := by decide +kernel
  rw [hfunction]
  rfl

/-- The pair and its second member. -/
def access : Access program where
  state := stored
  reachable := stored_reachable
  frame := stored.frames.headD default
  rest := []
  frames := by decide +kernel
  func := filled.module.functions.getD 0 default
  found := frame_found
  lvalue := .local ⟨1⟩
  address := Arena.base
  ty := pairTy
  addressed := pair_addressed
  live := ⟨⟨Arena.base, 5, .frame⟩, .inl (by decide +kernel), by decide, by decide +kernel⟩
  member := ⟨1, 4, Ty.i32⟩
  number := 1
  placed := by decide +kernel
  inRange := by decide
  index := ⟨0⟩
  indexTy := Ty.word
  indexed := rfl
  zero := ⟨1⟩
  zeroTy := Ty.word
  zeroed := rfl
  zeroInteger := rfl
  zeroSize := rfl
  cell := ⟨2⟩
  cellDecl := by decide +kernel
  pointer := ⟨3⟩
  pointerDecl := by decide +kernel
  target := ⟨4⟩
  targetDecl := by decide +kernel
  content := ⟨5⟩
  contentDecl := by decide +kernel

end Pairing

/-- The second member of the pair is the argument, by any way, and either store replaces it. -/
theorem aggregate_accesses_agree_pairing :
    Pairing.access.memberBytes = [21, 0, 0, 0] ∧
      Pairing.access.Yields [Pairing.access.getStructMember] ⟨2⟩ [21, 0, 0, 0] ∧
      Pairing.access.Yields [Pairing.access.extractValue] ⟨5⟩ [21, 0, 0, 0] ∧
      Pairing.access.Updates [Pairing.access.getStructMember] Pairing.access.store [⟨2⟩] := by
  have hbytes : Pairing.access.memberBytes = [21, 0, 0, 0] := by decide +kernel
  obtain ⟨hagree, _⟩ :=
    aggregate_accesses_agree (p := Pairing.program) Pairing.filled_built Native.host_keepsExtent
  obtain ⟨⟨hcell, _, hextract⟩, hstore, _⟩ := hagree Pairing.access
  rw [hbytes] at hcell hextract
  exact ⟨hbytes, hcell, hextract, hstore⟩

end PackedIR
