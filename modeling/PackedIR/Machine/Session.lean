/-
The public face of an interpreter.

A session is a program together with the state that its calls have left behind. It
is set up once: strings are placed, globals are registered one after the other with
their constant initializers, symbols of declarations are routed, and the module's
global initializer runs. Functions are then run by id or by name. The step budget
of a run is given as `fuel`.
-/
import PackedIR.Machine.Step

set_option autoImplicit false

namespace PackedIR

/-! ## Symbol routing -/

/-- Declarations that go to a wrapper when one is available. -/
def wrappedFunctions : List String := ["printf", "sprintf", "snprintf", "fprintf"]

/-- The native symbol of an intrinsic. -/
def intrinsicSymbol (name : String) : String := "__interp_intrinsic_" ++ name

/-- The native symbol of a wrapper. -/
def wrapperSymbol (name : String) : String := "__interp_wrapper_" ++ name

/-- Routes the intrinsics that are declarations; a later entry for a function replaces an earlier
one. -/
def routeIntrinsics (m : Module) (aliases : Table FuncId String) :
    List (String × FuncId) → Except Fault (Table FuncId String)
  | [] => .ok aliases
  | (name, id) :: rest => do
    let f ← m.function id
    if f.isDeclaration then routeIntrinsics m (aliases.insert id (intrinsicSymbol name)) rest
    else routeIntrinsics m aliases rest

/-- Routes declarations to wrappers that the resolver knows, from function `index` on. -/
def routeWrappers (resolver : Resolver) (aliases : Table FuncId String) (index : Nat) :
    List Function → Table FuncId String
  | [] => aliases
  | f :: fs =>
    let wrapper := wrapperSymbol f.name
    if f.isDeclaration && wrappedFunctions.contains f.name && (resolver wrapper).isSome then
      routeWrappers resolver (aliases.insert ⟨index⟩ wrapper) (index + 1) fs
    else routeWrappers resolver aliases (index + 1) fs

namespace Exec

variable (p : Program)

/-! ## Running functions -/

/-- Runs a function. A void function gives a value without bytes. -/
def runFunction (fuel : Nat) (id : FuncId) (args : List Value) : Exec Value := do
  let f ← p.module.function id
  within (.running f.name) (callFunction p fuel id args)

/-- Runs the first function with the given name. -/
def runFunctionByName (fuel : Nat) (name : String) (args : List Value) : Exec Value := do
  match p.module.functionByName? name with
  | some id => runFunction p fuel id args
  | none => throw (.raised [] (.functionNotFound name))

/-! ## Setting up -/

/-- Places the strings of the pool from `index` on. -/
def placeStrings (index : Nat) : (count : Nat) → Exec Unit
  | 0 => return
  | count + 1 => do
    let _ ← globalString p ⟨index⟩
    placeStrings (index + 1) count

/-- Allocates a global, fills it from its initializer and registers its address. -/
def registerGlobal (id : GlobalId) (g : Global) : Exec Unit := do
  let size := g.ty.size
  let address ← allocStatic p .global (List.replicate size 0)
  match g.init with
  | none => pure ()
  | some init =>
    let v ← within (.initializingGlobal g.name) (constOperand p init)
    checkSize size v.size
    storeBytes p address v.bytes
  let reference := (Value.ofAddress (Ty.mutPtrTo g.ty) address).withOrigin (.global id)
  modify fun s => { s with globals := s.globals.insert id reference }

/-- Registers globals from `index` on, in order. -/
def registerGlobals (index : Nat) : List Global → Exec Unit
  | [] => return
  | g :: gs => do
    registerGlobal p ⟨index⟩ g
    registerGlobals (index + 1) gs

/-- Routes the symbols of declarations. -/
def registerAliases : Exec Unit := do
  let aliases ← routeIntrinsics p.module (← get).aliases p.module.intrinsics
  let aliases := routeWrappers p.resolver aliases 0 p.module.functions.toList
  modify fun s => { s with aliases }

/-- Runs the module's global initializer, if it has one and the configuration asks for it. -/
def runGlobalInit (fuel : Nat) : Exec Unit := do
  if p.config.runGlobalInit then
    match p.module.globalInit with
    | some init =>
      let _ ← within .runningGlobalInit (runFunction p fuel init [])
    | none => return
  else return

/-- Sets a session up. Once it has got as far as the global initializer, doing it again does
nothing. -/
def setUp (fuel : Nat) : Exec Unit := do
  if (← get).initialized then return
  placeStrings p 0 p.module.strings.size
  registerGlobals p 0 p.module.globals.toList
  registerAliases p
  modify fun s => { s with initialized := true }
  runGlobalInit p fuel

/-! ## Globals -/

/-- The address of a registered global. -/
def globalAddress (id : GlobalId) : Exec Nat := do
  match (← get).globals.get? id with
  | some reference => reference.asAddress
  | none => raise (.unresolvedGlobal (← p.module.global id).name)

/-- The contents of a registered global. -/
def globalValue (id : GlobalId) : Exec Value := do
  let address ← globalAddress p id
  let g ← p.module.global id
  return (← load p address g.ty).withOrigin (.global id)

end Exec

/-- Runs a function of a module by name in a session of its own, configured from the given
variables and with the symbols of the process. -/
def runOnce (m : Module) (lookup : String → Option String) (fuel : Nat) (name : String)
    (args : List Value) : Result Value := do
  let config ← Config.ofVariables lookup
  let p : Program := { module := m, config }
  let run : Exec Value := do
    Exec.setUp p fuel
    Exec.runFunctionByName p fuel name args
  match run {} with
  | .ok v _ => return v
  | .error e _ => .error e

end PackedIR
