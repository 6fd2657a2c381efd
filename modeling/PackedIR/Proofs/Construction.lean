/-
Building a module call by call.

A module is built through two interfaces: it declares things itself, and builders append to its
functions. A `Workbench` is a module together with the builders that are at work on it, each with a
function and a position of its own, and a `Call` is one call on the module or on one of the
builders. Whatever the order of the calls, the module only grows. What a call hands back is a
`Handle`: it stood for nothing before the call, unless the call only looked up an argument, and it
stands for the same declaration ever after.
-/
import PackedIR.Proofs.Growth

set_option autoImplicit false

namespace PackedIR

variable {m m' : Module}

/-! ## Handles -/

/-- A name for something that a module declares. Blocks and locals are named in their function. -/
inductive Handle where
  | const (id : ConstId)
  | func (id : FuncId)
  | global (id : GlobalId)
  | string (id : StringId)
  | block (func : FuncId) (id : BlockId)
  | local (func : FuncId) (l : Local)
deriving DecidableEq

/-- What a handle can stand for. Of functions and blocks it is the part that does not grow. -/
inductive Declared where
  | const (c : Constant)
  | func (name : String) (ty : Ty)
  | global (g : Global)
  | string (text : String)
  | block (name : String)
  | local (decl : LocalDecl)
deriving DecidableEq

namespace Module

/-- A block of a function. -/
def block? (m : Module) (func : FuncId) (id : BlockId) : Option Block := do
  (← m.functions[func.index]?).block? id

/-- What a handle stands for. -/
def declared? (m : Module) : Handle → Option Declared
  | .const id => (m.constants[id.index]?).map .const
  | .func id => (m.functions[id.index]?).map fun f => .func f.name f.ty
  | .global id => (m.globals[id.index]?).map .global
  | .string id => (m.strings[id.index]?).map .string
  | .block func id => (m.block? func id).map fun b => .block b.name
  | .local func l => do return .local (← (← m.functions[func.index]?).local? l)

end Module

/-- The handle that an operand of `func` is. -/
def Operand.handle? (func : FuncId) : Operand → Option Handle
  | .local l => some (.local func l)
  | .const id => some (.const id)
  | .block id => some (.block func id)
  | .type _ => none

/-! ## Calls -/

/-- The calls on a module. -/
inductive ModuleCall where
  | addConstant (ty : Ty) (kind : ConstKind)
  | constInt (ty : Ty) (value : Int)
  | constBool (value : Bool)
  | constFloat (ty : Ty) (bits : Nat)
  | constZero (ty : Ty)
  | constText (value : String)
  | constFunction (func : FuncId)
  | constGlobal (id : GlobalId)
  | constGlobalString (string : StringId)
  | declareFunction (name : String) (ty : Ty)
  | addGlobal (name : String) (ty : Ty) (init : Option ConstId)
  | addString (value : String)
  | addIntrinsic (name : String) (func : FuncId)
  | setGlobalInit (func : FuncId)

namespace ModuleCall

def run (m : Module) : ModuleCall → Except Fault (Option Handle × Module)
  | .addConstant ty kind => .ok ((m.addConstant ty kind).map (some ∘ .const) id)
  | .constInt ty value => .ok ((m.constInt ty value).map (some ∘ .const) id)
  | .constBool value => .ok ((m.constBool value).map (some ∘ .const) id)
  | .constFloat ty bits => .ok ((m.constFloat ty bits).map (some ∘ .const) id)
  | .constZero ty => .ok ((m.constZero ty).map (some ∘ .const) id)
  | .constText value => .ok ((m.constText value).map (some ∘ .const) id)
  | .constFunction func => return (← m.constFunction func).map (some ∘ .const) id
  | .constGlobal g => return (← m.constGlobal g).map (some ∘ .const) id
  | .constGlobalString string => .ok ((m.constGlobalString string).map (some ∘ .const) id)
  | .declareFunction name ty => return (← m.declareFunction name ty).map (some ∘ .func) id
  | .addGlobal name ty init => .ok ((m.addGlobal name ty init).map (some ∘ .global) id)
  | .addString value => .ok ((m.addString value).map (some ∘ .string) id)
  | .addIntrinsic name func => .ok (none, m.addIntrinsic name func)
  | .setGlobalInit func => .ok (none, m.setGlobalInit func)

end ModuleCall

/-- The calls on a builder. -/
inductive BuilderCall where
  | addBlock (name : String)
  | positionAtEnd (block : BlockId)
  | arg (index : Nat)
  | constInt (ty : Ty) (value : Int)
  | constBool (value : Bool)
  | constFloat (ty : Ty) (bits : Nat)
  | constZero (ty : Ty)
  | constText (value : String)
  | constFunction (func : FuncId)
  | global (id : GlobalId)
  | constGlobalString (string : StringId)
  | typeOf (operand : Operand)
  | emit (op : Opcode) (args : List Operand) (result : Option LocalDecl)
  | binary (op : Opcode) (left right : Operand)
  | unary (op : Opcode) (value : Operand)
  | cast (op : Opcode) (value : Operand) (target : Ty)
  | ret (value : Option Operand)
  | branch (target : BlockId)
  | condBranch (cond : Operand) (onTrue onFalse : BlockId)
  | unreachable
  | phi (ty : Ty) (incoming : List (BlockId × Operand))
  | call (callee : FuncId) (args : List Operand)
  | callPointer (callee : Operand) (args : List Operand)
  | callVirtual (klass : Ty) (index : Int) (fnTy : Ty) (receiver : Operand) (args : List Operand)
  | stackAlloc (ty : Ty)
  | createLVal (ty : Ty)
  | store (value lvalue : Operand)
  | addressOf (lvalue : Operand)
  | dereference (ptr : Operand)
  | readPtr (ptr : Operand)
  | writePtr (value ptr : Operand)
  | getPointer (ptr index : Operand)
  | getGep2 (ptr first second : Operand)
  | getStructMember (lvalue : Operand) (member : Nat)
  | getPointerToStructMember (ptr ptrIndex : Operand) (member : Nat)
  | sizeof (ty : Ty)
  | select (cond onTrue onFalse : Operand)
  | rawUnionGep (lvalue : Operand) (variant : Ty)
  | insertValue (aggregate element : Operand) (index : Nat)
  | extractValue (aggregate : Operand) (index : Nat)
  | getField (op : Opcode) (aggregate : Operand)
  | setField (op : Opcode) (aggregate value : Operand)
  | unionGetValue (union : Operand) (variant : Nat)
  | unionSetValue (union : Operand) (variant : Nat) (value : Operand)

namespace BuilderCall

/-- What a call hands back as an operand: a new block too, and nothing if it is not about the
function or the module at all. -/
def run : BuilderCall → Build (Option Operand)
  | .addBlock name => return some (.block (← Build.addBlock name))
  | .positionAtEnd block => do
    Build.positionAtEnd block
    return none
  | .arg index => some <$> Build.arg index
  | .constInt ty value => some <$> Build.constInt ty value
  | .constBool value => some <$> Build.constBool value
  | .constFloat ty bits => some <$> Build.constFloat ty bits
  | .constZero ty => some <$> Build.constZero ty
  | .constText value => some <$> Build.constText value
  | .constFunction func => some <$> Build.constFunction func
  | .global id => some <$> Build.global id
  | .constGlobalString string => some <$> Build.constGlobalString string
  | .typeOf operand => return some (.type (← Build.typeOf operand))
  | .emit op args result => return (← Build.emit op args result).map .local
  | .binary op left right => some <$> Build.binary op left right
  | .unary op value => some <$> Build.unary op value
  | .cast op value target => some <$> Build.cast op value target
  | .ret value => do
    Build.ret value
    return none
  | .branch target => do
    Build.branch target
    return none
  | .condBranch cond onTrue onFalse => do
    Build.condBranch cond onTrue onFalse
    return none
  | .unreachable => do
    Build.unreachable
    return none
  | .phi ty incoming => some <$> Build.phi ty incoming
  | .call callee args => Build.call callee args
  | .callPointer callee args => Build.callPointer callee args
  | .callVirtual klass index fnTy receiver args =>
    Build.callVirtual klass index fnTy receiver args
  | .stackAlloc ty => some <$> Build.stackAlloc ty
  | .createLVal ty => some <$> Build.createLVal ty
  | .store value lvalue => do
    Build.store value lvalue
    return none
  | .addressOf lvalue => some <$> Build.addressOf lvalue
  | .dereference ptr => some <$> Build.dereference ptr
  | .readPtr ptr => some <$> Build.readPtr ptr
  | .writePtr value ptr => do
    Build.writePtr value ptr
    return none
  | .getPointer ptr index => some <$> Build.getPointer ptr index
  | .getGep2 ptr first second => some <$> Build.getGep2 ptr first second
  | .getStructMember lvalue member => some <$> Build.getStructMember lvalue member
  | .getPointerToStructMember ptr ptrIndex member =>
    some <$> Build.getPointerToStructMember ptr ptrIndex member
  | .sizeof ty => some <$> Build.sizeof ty
  | .select cond onTrue onFalse => some <$> Build.select cond onTrue onFalse
  | .rawUnionGep lvalue variant => some <$> Build.rawUnionGep lvalue variant
  | .insertValue aggregate element index => some <$> Build.insertValue aggregate element index
  | .extractValue aggregate index => some <$> Build.extractValue aggregate index
  | .getField op aggregate => some <$> Build.getField op aggregate
  | .setField op aggregate value => some <$> Build.setField op aggregate value
  | .unionGetValue union variant => some <$> Build.unionGetValue union variant
  | .unionSetValue union variant value => some <$> Build.unionSetValue union variant value

/-- Whether the call names something that was there before: an argument of the function. -/
def looksUp : BuilderCall → Bool
  | .arg _ => true
  | _ => false

end BuilderCall

/-- A module and the builders at work on it, each with its function and its position. -/
structure Workbench where
  module : Module
  builders : List (FuncId × Option BlockId) := []

/-- One call on a workbench. -/
inductive Call where
  | declare (call : ModuleCall)
  /-- A new builder on a function, which is not positioned yet. -/
  | newBuilder (func : FuncId)
  /-- A call on the builder at a place of the list. -/
  | build (index : Nat) (call : BuilderCall)

namespace Call

/-- Makes a call. A call that faults leaves no workbench to go on with. -/
def run (w : Workbench) : Call → Except Fault (Option Handle × Workbench)
  | .declare call => do
    let (handle, module) ← call.run w.module
    return (handle, { w with module })
  | .newBuilder func => .ok (none, { w with builders := w.builders ++ [(func, none)] })
  | .build index call => do
    let (func, current) ← orMissing w.builders[index]?
    let (o, b) ← call.run { module := w.module, func, current }
    return (o.bind (Operand.handle? func),
      { module := b.module, builders := w.builders.set index (b.func, b.current) })

/-- Makes calls one after the other. -/
def runAll : List Call → Workbench → Except Fault Workbench
  | [], w => .ok w
  | call :: calls, w => do
    let (_, w) ← call.run w
    runAll calls w

/-- Whether the call names something that was there before. -/
def looksUp : Call → Bool
  | .build _ call => call.looksUp
  | _ => false

end Call

/-! ## What stays -/

/-- The function `g` has grown out of `f`: it has the same name, and each block of `f` with
instructions appended. -/
structure Function.Extends (f g : Function) : Prop extends f.Grows g where
  name : g.name = f.name
  blocks : ∀ id block, f.block? id = some block → ∃ added,
    g.block? id = some { block with instructions := block.instructions ++ added }

namespace Function.Extends

variable {f g k : Function}

theorem refl (f : Function) : f.Extends f :=
  ⟨.refl f, rfl, fun _ _ h => ⟨#[], by simpa using h⟩⟩

theorem trans (hfg : f.Extends g) (hgk : g.Extends k) : f.Extends k := by
  refine ⟨hfg.toGrows.trans hgk.toGrows, hgk.name.trans hfg.name, fun id block hblock => ?_⟩
  obtain ⟨first, hg⟩ := hfg.blocks id block hblock
  obtain ⟨second, hk⟩ := hgk.blocks id _ hg
  refine ⟨first ++ second, ?_⟩
  rw [hk, Array.append_assoc]

theorem addBlock (f : Function) (block : Block) :
    f.Extends { f with blocks := f.blocks.push block } := by
  refine ⟨Build.grows_addBlock f block, rfl, fun id block' hblock' => ⟨#[], ?_⟩⟩
  rw [Array.append_empty]
  exact getElem?_push_of_some hblock' block

theorem extended {id : BlockId} {block : Block} (hblock : f.block? id = some block)
    (inst : Instruction) (decl : Option LocalDecl) :
    f.Extends (Build.extended f id block inst decl) := by
  refine ⟨Build.grows_extended hblock inst decl, rfl, fun id' block' hblock' => ?_⟩
  by_cases hid : id'.index = id.index
  · -- This is the block that is appended to.
    have hsame : block' = block := by
      unfold Function.block? at hblock hblock'
      rw [hid, hblock] at hblock'
      cases hblock'
      rfl
    have hlt := (Array.getElem?_eq_some_iff.mp hblock).1
    refine ⟨#[inst], ?_⟩
    unfold Function.block? Build.extended
    rw [hid, hsame, Array.getElem?_setIfInBounds_self_of_lt hlt, Array.push_eq_append]
  · refine ⟨#[], ?_⟩
    unfold Function.block? Build.extended
    rw [Array.getElem?_setIfInBounds_ne (by omega), Array.append_empty]
    exact hblock'

end Function.Extends

namespace Module

theorem Grows.function_extends (h : m.Grows m') {id : FuncId} {f : Function}
    (hf : m.functions[id.index]? = some f) :
    ∃ g, m'.functions[id.index]? = some g ∧ f.Extends g := by
  obtain ⟨g, hg, hfg⟩ := h.function_rel Function.Extends.refl (fun _ _ _ => .trans)
    Function.Extends.addBlock (fun _ _ _ inst decl hblock => .extended hblock inst decl)
    (orMissing_eq_ok_iff.mpr hf)
  exact ⟨g, orMissing_eq_ok_iff.mp hg, hfg⟩

/-- Instructions are only ever appended to blocks. -/
theorem Grows.block?_eq (h : m.Grows m') {func : FuncId} {id : BlockId} {block : Block}
    (hblock : m.block? func id = some block) :
    ∃ added, m'.block? func id =
      some { block with instructions := block.instructions ++ added } := by
  obtain ⟨f, hf, hblock⟩ := Option.bind_eq_some_iff.mp hblock
  obtain ⟨g, hg, hfg⟩ := h.function_extends hf
  obtain ⟨added, hadded⟩ := hfg.blocks id block hblock
  exact ⟨added, Option.bind_eq_some_iff.mpr ⟨g, hg, hadded⟩⟩

/-- A handle keeps standing for what it stands for. -/
theorem Grows.declared?_eq (h : m.Grows m') {handle : Handle} {d : Declared}
    (hd : m.declared? handle = some d) : m'.declared? handle = some d := by
  cases handle with
  | const id =>
    obtain ⟨c, hc, rfl⟩ := Option.map_eq_some_iff.mp hd
    have hc' := orMissing_eq_ok_iff.mp (h.constant_eq (orMissing_eq_ok_iff.mpr hc))
    exact Option.map_eq_some_iff.mpr ⟨c, hc', rfl⟩
  | func id =>
    obtain ⟨f, hf, rfl⟩ := Option.map_eq_some_iff.mp hd
    obtain ⟨g, hg, hfg⟩ := h.function_extends hf
    exact Option.map_eq_some_iff.mpr ⟨g, hg, by rw [hfg.name, hfg.ty]⟩
  | global id =>
    obtain ⟨g, hg, rfl⟩ := Option.map_eq_some_iff.mp hd
    have hg' := orMissing_eq_ok_iff.mp (h.global_eq (orMissing_eq_ok_iff.mpr hg))
    exact Option.map_eq_some_iff.mpr ⟨g, hg', rfl⟩
  | string id =>
    obtain ⟨text, ht, rfl⟩ := Option.map_eq_some_iff.mp hd
    have ht' := orMissing_eq_ok_iff.mp (h.string_eq (orMissing_eq_ok_iff.mpr ht))
    exact Option.map_eq_some_iff.mpr ⟨text, ht', rfl⟩
  | block func id =>
    obtain ⟨block, hblock, rfl⟩ := Option.map_eq_some_iff.mp hd
    obtain ⟨added, hadded⟩ := h.block?_eq hblock
    exact Option.map_eq_some_iff.mpr ⟨_, hadded, rfl⟩
  | «local» func l =>
    obtain ⟨f, hf, hl⟩ := Option.bind_eq_some_iff.mp hd
    obtain ⟨decl, hdecl, hd⟩ := Option.bind_eq_some_iff.mp hl
    obtain ⟨g, hg, hfg⟩ := h.function_extends hf
    exact Option.bind_eq_some_iff.mpr
      ⟨g, hg, Option.bind_eq_some_iff.mpr ⟨decl, hfg.locals l decl hdecl, hd⟩⟩

end Module

/-! ## What calls hand back -/

/-- The handle stands for nothing in `m`, and for something in `m'`. -/
structure Handle.New (handle : Handle) (m m' : Module) : Prop where
  before : m.declared? handle = none
  after : ∃ d, m'.declared? handle = some d

/-- What is new to a module is new to the modules it has grown out of. -/
theorem Handle.New.of_grows {m₁ : Module} {handle : Handle} (hgrows : m.Grows m₁)
    (h : handle.New m₁ m') : handle.New m m' := by
  refine ⟨?_, h.after⟩
  cases hd : m.declared? handle with
  | none => rfl
  | some d =>
    have hbefore := h.before
    rw [hgrows.declared?_eq hd] at hbefore
    cases hbefore

theorem Handle.new_addConstant (m : Module) (ty : Ty) (kind : ConstKind) :
    Handle.New (.const (m.addConstant ty kind).1) m (m.addConstant ty kind).2 := by
  refine ⟨?_, .const ⟨ty, kind⟩, ?_⟩
  · simp [Module.addConstant, Module.declared?]
  · simp [Module.addConstant, Module.declared?]

namespace Build

variable {α : Type} {b b' : Builder}

/-- The module grows, the builder stays on its function, and an operand that is handed back names
something new. -/
def Hands (x : Build (Option Operand)) : Prop := ∀ b o b', x b = .ok (o, b') →
  b.module.Grows b'.module ∧ b'.func = b.func ∧
    ∀ handle, o.bind (Operand.handle? b.func) = some handle → handle.New b.module b'.module

theorem Appends.hands {x : Build α} {f : α → Build (Option Operand)} (hx : Appends x)
    (hf : ∀ a, Hands (f a)) : Hands (x >>= f) := by
  intro b o b' h
  obtain ⟨a, b₁, ha, ho⟩ := bind_eq_ok_iff.mp h
  obtain ⟨hgrows, hfunc, _⟩ := hx b a b₁ ha
  obtain ⟨hgrows', hfunc', hnew⟩ := hf a b₁ o b' ho
  refine ⟨hgrows.trans hgrows', hfunc'.trans hfunc, fun handle hhandle => ?_⟩
  rw [← hfunc] at hhandle
  exact (hnew handle hhandle).of_grows hgrows

/-- A call that hands nothing back. -/
theorem Appends.hands_none {x : Build α} (hx : Appends x) : Hands (do let _ ← x; return none) := by
  refine hx.hands fun _ b o b' h => ?_
  obtain ⟨rfl, rfl⟩ := pure_eq_ok_iff.mp h
  exact ⟨.refl _, rfl, by simp⟩

/-- An operand that is handed back in any case. -/
def Yields (x : Build Operand) : Prop := Hands (some <$> x)

theorem Appends.yields {x : Build α} {f : α → Build Operand} (hx : Appends x)
    (hf : ∀ a, Yields (f a)) : Yields (x >>= f) := by
  unfold Yields
  rw [map_bind]
  exact hx.hands hf

theorem yields_throw (e : Fault) : Yields (throw e) := by
  intro b o b' h
  rw [map_eq_pure_bind] at h
  obtain ⟨_, _, h, _⟩ := bind_eq_ok_iff.mp h
  exact absurd h throw_ne_ok

/-- A constant that is made by the module. -/
theorem yields_tryModule {f : Module → Except Fault (ConstId × Module)}
    (hf : ∀ m id m', f m = .ok (id, m') → ∃ ty kind, (id, m') = m.addConstant ty kind) :
    Yields (do return .const (← tryModule f)) := by
  intro b o b' h
  rw [map_eq_pure_bind] at h
  simp only [tryModule, bind_eq_ok_iff, get_eq_ok_iff, set_eq_ok_iff, pure_eq_ok_iff,
    lift_eq_ok_iff] at h
  obtain ⟨_, _, ⟨id, _, ⟨_, _, ⟨rfl, rfl⟩, ⟨id', m⟩, _, ⟨hfound, rfl⟩, _, _, rfl, rfl, rfl⟩,
    rfl, rfl⟩, rfl, rfl⟩ := h
  obtain ⟨ty, kind, hadd⟩ := hf _ _ _ hfound
  cases hadd
  refine ⟨.constant _ ty kind, rfl, ?_⟩
  rintro _ ⟨⟩
  exact Handle.new_addConstant _ ty kind

theorem yields_onModule (ty : Ty) (kind : ConstKind) :
    Yields (do return .const (← onModule (·.addConstant ty kind))) := by
  intro b o b' h
  rw [map_eq_pure_bind] at h
  simp only [onModule, bind_eq_ok_iff, get_eq_ok_iff, set_eq_ok_iff, pure_eq_ok_iff] at h
  obtain ⟨_, _, ⟨id, _, ⟨_, _, ⟨rfl, rfl⟩, _, _, rfl, rfl, rfl⟩, rfl, rfl⟩, rfl, rfl⟩ := h
  refine ⟨.constant _ ty kind, rfl, ?_⟩
  rintro _ ⟨⟩
  exact Handle.new_addConstant _ ty kind

/-- The result of an instruction is a local of its own. -/
theorem hands_emit (op : Opcode) (args : List Operand) (decl : Option LocalDecl) :
    Hands (do return (← emit op args decl).map .local) := by
  intro b o b' h
  obtain ⟨result, _, hemit, h⟩ := bind_eq_ok_iff.mp h
  obtain ⟨rfl, rfl⟩ := pure_eq_ok_iff.mp h
  refine ⟨.instruction op args decl hemit, ?_⟩
  obtain ⟨f, id, block, _, hf, _, rfl, rfl⟩ := emit_eq_ok hemit
  refine ⟨rfl, fun handle hhandle => ?_⟩
  cases decl with
  | none => cases hhandle
  | some decl =>
    cases hhandle
    have hfound := orMissing_eq_ok_iff.mp hf
    have hgrown := orMissing_eq_ok_iff.mp (Module.function_setFunction_self
      (g := extended f id block ⟨op, args, some ⟨f.locals.size⟩⟩ (some decl)) hf)
    refine ⟨?_, .local decl, ?_⟩
    · simp [Module.declared?, hfound, Function.local?]
    · simp only [Module.declared?, Option.map_some, hgrown]
      simp [Function.local?, extended]

theorem yields_emitBound (op : Opcode) (args : List Operand) (decl : LocalDecl) :
    Yields (do return .local (← emitBound op args decl)) := by
  intro b o b' h
  rw [map_eq_pure_bind] at h
  simp only [bind_eq_ok_iff, pure_eq_ok_iff] at h
  obtain ⟨_, _, ⟨l, _, hl, rfl, rfl⟩, rfl, rfl⟩ := h
  refine hands_emit op args (some decl) b _ _ (bind_eq_ok_iff.mpr ?_)
  exact ⟨some l, _, emit_of_emitBound hl, pure_eq_ok_iff.mpr ⟨rfl, rfl⟩⟩

theorem yields_emitValue (op : Opcode) (args : List Operand) (ty : Ty) :
    Yields (emitValue op args ty) :=
  yields_emitBound op args ⟨ty, false⟩

theorem yields_emitLValue (op : Opcode) (args : List Operand) (ty : Ty) :
    Yields (emitLValue op args ty) :=
  yields_emitBound op args ⟨ty, true⟩

theorem hands_emitVoid (op : Opcode) (args : List Operand) :
    Hands (do emitVoid op args; return none) :=
  (appends_emitVoid op args).hands_none

theorem hands_emitCall (op : CallOp) (args : List Operand) (ret : Ty) :
    Hands (emitCall op args ret) := by
  unfold emitCall
  split
  · exact hands_emitVoid _ _
  · have hvalue := yields_emitValue (.call op) args ret
    unfold Yields at hvalue
    rwa [map_eq_pure_bind] at hvalue

theorem hands_addBlock (name : String) : Hands (do return some (.block (← addBlock name))) := by
  intro b o b' h
  obtain ⟨id, _, hadd, h⟩ := bind_eq_ok_iff.mp h
  obtain ⟨rfl, rfl⟩ := pure_eq_ok_iff.mp h
  refine ⟨.block name hadd, ?_⟩
  simp only [addBlock, bind_eq_ok_iff, function_eq_ok_iff, modify_eq_ok_iff,
    pure_eq_ok_iff] at hadd
  obtain ⟨f, _, ⟨hf, rfl⟩, _, _, rfl, rfl, rfl⟩ := hadd
  refine ⟨rfl, ?_⟩
  rintro _ ⟨⟩
  have hfound := orMissing_eq_ok_iff.mp hf
  have hgrown := orMissing_eq_ok_iff.mp (Module.function_setFunction_self
    (g := { f with blocks := f.blocks.push ⟨name, #[]⟩ }) hf)
  refine ⟨?_, .block name, ?_⟩
  · simp [Module.declared?, Module.block?, hfound, Function.block?]
  · simp only [Module.declared?, Module.block?, hgrown]
    simp [Function.block?]

theorem appends_pointeeOf (ptr : Operand) : Appends (pointeeOf ptr) := by
  refine (appends_typeOf ptr).bind fun ty => ?_
  split
  · exact appends_pure _
  · exact appends_throw _

theorem appends_memberTy (ty : Ty) (index : Nat) : Appends (memberTy ty index) := by
  unfold memberTy
  split
  · exact appends_pure _
  · exact appends_throw _

/-- An emitter that asks for the type of a member and then adds a constant for its number. -/
theorem yields_member {x : Build Ty} (hx : Appends x) (member : Nat)
    {f : Ty → Operand → Build Operand} (hf : ∀ ty index, Yields (f ty index)) :
    Yields (do
      let ty ← memberTy (← x) member
      let index ← constInt Ty.word member
      f ty index) :=
  hx.yields fun ty => (appends_memberTy ty member).yields fun member' =>
    (appends_constInt Ty.word member).yields fun index => hf member' index

theorem yields_binary (op : Opcode) (left right : Operand) : Yields (binary op left right) := by
  have known (ty : Ty) : Yields (pure ty >>= fun ty => emitValue op [left, right] ty) :=
    (appends_pure ty).yields fun _ => yields_emitValue _ _ _
  have asked : Yields (typeOf left >>= fun ty => emitValue op [left, right] ty) :=
    (appends_typeOf left).yields fun _ => yields_emitValue _ _ _
  unfold binary
  split
  · exact known _
  · exact known _
  · exact known _
  · exact known _
  · exact asked

theorem hands_callPointer (callee : Operand) (args : List Operand) :
    Hands (callPointer callee args) := by
  refine (appends_typeOf callee).hands fun ty => ?_
  split
  · exact hands_emitCall _ _ _
  · exact fun _ _ _ h => absurd h throw_ne_ok

theorem hands_callVirtual (klass : Ty) (index : Int) (fnTy : Ty) (receiver : Operand)
    (args : List Operand) : Hands (callVirtual klass index fnTy receiver args) := by
  unfold callVirtual
  split
  · exact (appends_constInt Ty.word index).hands fun _ => hands_emitCall _ _ _
  · exact fun _ _ _ h => absurd h throw_ne_ok

end Build

/-- The calls that hand a constant back make it. -/
theorem Module.constFunction_eq_ok {func : FuncId} {id : ConstId}
    (h : m.constFunction func = .ok (id, m')) : ∃ ty kind, (id, m') = m.addConstant ty kind := by
  obtain ⟨f, _, h⟩ := except_bind_eq_ok_iff.mp h
  cases h
  exact ⟨_, _, rfl⟩

theorem Module.constGlobal_eq_ok {g : GlobalId} {id : ConstId}
    (h : m.constGlobal g = .ok (id, m')) : ∃ ty kind, (id, m') = m.addConstant ty kind := by
  obtain ⟨f, _, h⟩ := except_bind_eq_ok_iff.mp h
  cases h
  exact ⟨_, _, rfl⟩

open Build in
/-- Every call on a builder appends, and hands back something new unless it looks up an
argument. -/
theorem BuilderCall.hands {call : BuilderCall} (hcall : call.looksUp = false) :
    Hands call.run := by
  cases call with
  | addBlock name => exact hands_addBlock name
  | positionAtEnd block =>
    rintro b _ _ ⟨⟩
    exact ⟨.refl _, rfl, by rintro _ ⟨⟩⟩
  | arg index => cases hcall
  | constInt ty value => exact yields_onModule ty (.int value)
  | constBool value => exact yields_onModule .bool (.bool value)
  | constFloat ty bits => exact yields_onModule ty (.float bits)
  | constZero ty => exact yields_onModule ty .zero
  | constText value => exact yields_onModule _ (.text value)
  | constGlobalString string => exact yields_onModule _ (.globalString string)
  | constFunction func => exact yields_tryModule fun _ _ _ => Module.constFunction_eq_ok
  | global id => exact yields_tryModule fun _ _ _ => Module.constGlobal_eq_ok
  | typeOf operand =>
    refine (appends_typeOf operand).hands fun ty b o b' h => ?_
    obtain ⟨rfl, rfl⟩ := pure_eq_ok_iff.mp h
    exact ⟨.refl _, rfl, by rintro _ ⟨⟩⟩
  | emit op args result => exact hands_emit op args result
  | binary op left right => exact yields_binary op left right
  | unary op value => exact (appends_typeOf value).yields fun _ => yields_emitValue op _ _
  | cast op value target => exact yields_emitValue op _ _
  | ret | branch | condBranch | unreachable | store | writePtr => exact hands_emitVoid _ _
  | phi | stackAlloc | sizeof => exact yields_emitValue _ _ _
  | createLVal | rawUnionGep => exact yields_emitLValue _ _ _
  | call callee args =>
    exact appends_get.hands fun _ => (appends_lift _).hands fun _ => (appends_lift _).hands fun _ =>
      (appends_constFunction callee).hands fun _ => hands_emitCall _ _ _
  | callPointer callee args => exact hands_callPointer callee args
  | callVirtual klass index fnTy receiver args => exact hands_callVirtual _ _ _ _ _
  | addressOf lvalue => exact (appends_typeOf lvalue).yields fun _ => yields_emitValue _ _ _
  | dereference ptr => exact (appends_pointeeOf ptr).yields fun _ => yields_emitLValue _ _ _
  | readPtr ptr => exact (appends_pointeeOf ptr).yields fun _ => yields_emitValue _ _ _
  | getPointer ptr index => exact (appends_typeOf ptr).yields fun _ => yields_emitValue _ _ _
  | getGep2 ptr first second =>
    refine (appends_pointeeOf ptr).yields fun array => ?_
    split
    · exact yields_emitValue _ _ _
    · exact yields_throw _
  | getStructMember lvalue member =>
    exact yields_member (appends_typeOf lvalue) member fun _ _ => yields_emitLValue _ _ _
  | getPointerToStructMember ptr ptrIndex member =>
    exact yields_member (appends_pointeeOf ptr) member fun _ _ => yields_emitValue _ _ _
  | select cond onTrue onFalse =>
    exact (appends_typeOf onTrue).yields fun _ => yields_emitValue _ _ _
  | insertValue aggregate element index =>
    exact (appends_typeOf aggregate).yields fun _ => (appends_constInt Ty.word index).yields fun _ =>
      yields_emitValue _ _ _
  | extractValue aggregate index =>
    exact yields_member (appends_typeOf aggregate) index fun _ _ => yields_emitValue _ _ _
  | getField op aggregate =>
    exact (appends_typeOf aggregate).yields fun _ => (appends_lift _).yields fun _ =>
      yields_emitValue _ _ _
  | setField op aggregate value =>
    exact (appends_typeOf aggregate).yields fun _ => yields_emitValue _ _ _
  | unionGetValue union variant =>
    exact yields_member (appends_typeOf union) variant fun _ _ => yields_emitValue _ _ _
  | unionSetValue union variant value =>
    exact (appends_typeOf union).yields fun _ => (appends_constInt Ty.word variant).yields fun _ =>
      yields_emitValue _ _ _

/-- So does every call on a module. -/
theorem ModuleCall.hands {call : ModuleCall} {o : Option Handle}
    (h : call.run m = .ok (o, m')) :
    m.Grows m' ∧ ∀ handle, o = some handle → handle.New m m' := by
  have made {ty : Ty} {kind : ConstKind}
      (h : Except.ok ((m.addConstant ty kind).map (some ∘ Handle.const) id) =
        (.ok (o, m') : Except Fault _)) :
      m.Grows m' ∧ ∀ handle, o = some handle → handle.New m m' := by
    cases h
    refine ⟨.constant m ty kind, ?_⟩
    rintro _ ⟨⟩
    exact Handle.new_addConstant m ty kind
  cases call with
  | addConstant | constInt | constBool | constFloat | constZero | constText | constGlobalString =>
    exact made h
  | constFunction func =>
    obtain ⟨⟨id, m₁⟩, hadd, h⟩ := except_bind_eq_ok_iff.mp h
    obtain ⟨ty, kind, hadd⟩ := Module.constFunction_eq_ok hadd
    rw [hadd] at h
    exact made h
  | constGlobal g =>
    obtain ⟨⟨id, m₁⟩, hadd, h⟩ := except_bind_eq_ok_iff.mp h
    obtain ⟨ty, kind, hadd⟩ := Module.constGlobal_eq_ok hadd
    rw [hadd] at h
    exact made h
  | declareFunction name ty =>
    obtain ⟨⟨id, m₁⟩, hdeclare, h⟩ := except_bind_eq_ok_iff.mp h
    cases h
    refine ⟨.function name ty hdeclare, ?_⟩
    obtain ⟨f, _, hdeclare⟩ := except_bind_eq_ok_iff.mp hdeclare
    cases hdeclare
    rintro _ ⟨⟩
    exact ⟨by simp [Module.declared?], .func f.name f.ty, by simp [Module.declared?]⟩
  | addGlobal name ty init =>
    cases h
    refine ⟨.global m name ty init, ?_⟩
    rintro _ ⟨⟩
    refine ⟨?_, .global ⟨name, ty, init⟩, ?_⟩
    · simp [Module.declared?]
    · simp [Module.declared?]
  | addString value =>
    cases h
    refine ⟨.string m value, ?_⟩
    rintro _ ⟨⟩
    refine ⟨?_, .string value, ?_⟩
    · simp [Module.declared?]
    · simp [Module.declared?]
  | addIntrinsic name func =>
    cases h
    exact ⟨.intrinsic m name func, by rintro _ ⟨⟩⟩
  | setGlobalInit func =>
    cases h
    exact ⟨.globalInit m func, by rintro _ ⟨⟩⟩

/-- Looking an argument up changes nothing, and the argument is among the locals. -/
theorem Build.arg_eq_ok {b b' : Builder} {index : Nat} {o : Operand}
    (hm : b.module.ParamsFirst) (h : arg index b = .ok (o, b')) :
    b' = b ∧ o = .local ⟨index⟩ ∧ ∃ d, b.module.declared? (.local b.func ⟨index⟩) = some d := by
  obtain ⟨f, _, hfound, h⟩ := bind_eq_ok_iff.mp h
  obtain ⟨hf, rfl⟩ := function_eq_ok_iff.mp hfound
  obtain ⟨l, _, hl, h⟩ := bind_eq_ok_iff.mp h
  obtain ⟨harg, rfl⟩ := lift_eq_ok_iff.mp hl
  obtain ⟨rfl, rfl⟩ := pure_eq_ok_iff.mp h
  obtain ⟨sig, hsig, hin⟩ := except_bind_eq_ok_iff.mp harg
  split at hin
  · rename_i hlt
    cases hin
    have hlocal := hm _ f hf sig hsig index sig.params[index] (List.getElem?_eq_getElem hlt)
    refine ⟨rfl, rfl, .local ⟨sig.params[index], false⟩, ?_⟩
    simp [Module.declared?, orMissing_eq_ok_iff.mp hf, hlocal]
  · cases hin

/-- A call on a builder lets the module grow, and what it hands back stands for something. -/
theorem BuilderCall.run_eq_ok {b b' : Builder} {call : BuilderCall} {o : Option Operand}
    (hm : b.module.ParamsFirst) (h : call.run b = .ok (o, b')) :
    b.module.Grows b'.module ∧ ∀ handle, o.bind (Operand.handle? b.func) = some handle →
      (call.looksUp = false → b.module.declared? handle = none) ∧
        ∃ d, b'.module.declared? handle = some d := by
  by_cases hcall : call.looksUp = false
  · obtain ⟨hgrows, _, hnew⟩ := BuilderCall.hands hcall b o b' h
    exact ⟨hgrows, fun handle hhandle => ⟨fun _ => (hnew handle hhandle).before,
      (hnew handle hhandle).after⟩⟩
  · cases call with
    | arg index =>
      rw [BuilderCall.run, map_eq_pure_bind] at h
      obtain ⟨operand, b₁, harg, h⟩ := Build.bind_eq_ok_iff.mp h
      obtain ⟨rfl, rfl⟩ := Build.pure_eq_ok_iff.mp h
      obtain ⟨rfl, rfl, d, hd⟩ := Build.arg_eq_ok hm harg
      refine ⟨.refl _, ?_⟩
      rintro _ ⟨⟩
      exact ⟨fun hnew => absurd hnew hcall, d, hd⟩
    | _ => exact absurd rfl hcall

namespace Call

variable {w w' : Workbench}

/-- A call lets the module grow. What it hands back stands for something, which is new unless it
was looked up. -/
theorem run_eq_ok {call : Call} {o : Option Handle} (hw : w.module.Built)
    (h : call.run w = .ok (o, w')) :
    w.module.Grows w'.module ∧ ∀ handle, o = some handle →
      (call.looksUp = false → w.module.declared? handle = none) ∧
        ∃ d, w'.module.declared? handle = some d := by
  cases call with
  | declare call =>
    obtain ⟨⟨handle, m⟩, hrun, h⟩ := except_bind_eq_ok_iff.mp h
    cases h
    obtain ⟨hgrows, hnew⟩ := ModuleCall.hands hrun
    exact ⟨hgrows, fun handle hhandle => ⟨fun _ => (hnew handle hhandle).before,
      (hnew handle hhandle).after⟩⟩
  | newBuilder func =>
    cases h
    exact ⟨.refl _, by rintro _ ⟨⟩⟩
  | build index call =>
    obtain ⟨⟨func, current⟩, _, h⟩ := except_bind_eq_ok_iff.mp h
    obtain ⟨⟨operand, b⟩, hrun, h⟩ := except_bind_eq_ok_iff.mp h
    cases h
    exact BuilderCall.run_eq_ok hw.paramsFirst hrun

/-- Any number of calls let the module grow. -/
theorem runAll_grows {calls : List Call} (hw : w.module.Built) (h : runAll calls w = .ok w') :
    w.module.Grows w'.module := by
  induction calls generalizing w with
  | nil =>
    cases h
    exact .refl _
  | cons call calls ih =>
    obtain ⟨⟨o, w₁⟩, hrun, h⟩ := except_bind_eq_ok_iff.mp h
    obtain ⟨hgrows, _⟩ := run_eq_ok hw hrun
    exact hgrows.trans (ih (hw.grows hgrows) h)

/-- The module of a workbench that started empty has been built. -/
theorem built_of_runAll {name : String} {calls : List Call}
    (h : runAll calls { module := { name } } = .ok w) : w.module.Built :=
  ⟨name, runAll_grows ⟨name, .refl _⟩ h⟩

end Call

end PackedIR
