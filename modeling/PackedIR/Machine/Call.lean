/-
Calls.

A call ends up in one of two engines. A function with a body gets a frame, in which
its parameters are bound, and the machine goes on there. A declaration is native
code and returns at once. The three call instructions differ only in how they find
the callee and its arguments.
-/
import PackedIR.Machine.Operands

set_option autoImplicit false

namespace PackedIR

/-- Whether a callee takes this many arguments: all its parameters, and more if it is variadic. -/
def Signature.admits (sig : Signature) (count : Nat) : Bool :=
  if sig.variadic then sig.params.length ≤ count else count == sig.params.length

/-- Binds arguments to the first locals of a frame, each under its parameter's type. -/
def Frame.bindArgs (f : Frame) : (index : Nat) → List Value → List Ty → Result Frame
  | index, v :: vs, t :: ts => do
    let l : Local := ⟨index⟩
    let arg ← v.retype t
    f.checkSlot l
    (f.set l (arg.withOrigin (.local l))).bindArgs (index + 1) vs ts
  | _, _, _ => .ok f

/-- The outcome of starting a call. -/
inductive Started where
  /-- Native code ran and gave a result. -/
  | returned (v : Value)
  /-- The callee's frame is on the stack. -/
  | entered
deriving Inhabited

namespace Exec

variable (p : Program)

/-! ## Native code -/

/-- Calls native code. -/
def callNative (callee : Callee) (args : List Value) : Exec Value := do
  let call ← callee.prepare p.host args
  let returned ← modifyGet fun s =>
    let (returned, arena) := call.code call.args s.memory.arena
    (returned, { s with memory := { s.memory with arena } })
  returned.value callee.ret call.retClass

/-- The symbol under which a declaration is looked up. -/
def symbolOf (id : FuncId) (f : Function) : Exec String :=
  return ((← get).aliases.get? id).getD f.name

/-- Calls a declaration. -/
def callDeclaration (id : FuncId) (f : Function) (sig : Signature) (args : List Value) :
    Exec Value := do
  let symbol ← symbolOf id f
  match p.resolver symbol with
  | none => raise (.foreignSymbolNotFound symbol)
  | some address => callNative p ⟨address, sig.ret, sig.params.length⟩ args

/-! ## Interpreted functions -/

/-- Puts a frame for a function on the stack. The depth limit is checked before the arguments. -/
def pushFrame (id : FuncId) (f : Function) (sig : Signature) (args : List Value) : Exec Unit := do
  let depth := (← get).frames.length
  if p.config.maxCallDepth ≤ depth then
    raise (.stackOverflow (depth + 1) p.config.maxCallDepth)
  else
    let empty : Frame := { function := id, locals := Array.replicate f.locals.size none }
    let frame ← empty.bindArgs 0 args sig.params
    modify fun s => { s with frames := frame :: s.frames }

/-- Starts a call with evaluated arguments. -/
def startCall (id : FuncId) (args : List Value) : Exec Started := do
  let f ← p.module.function id
  let sig ← f.signature
  if !sig.admits args.length then
    raise (.argumentCount f.name sig.params.length args.length)
  else if f.isDeclaration then
    return .returned (← callDeclaration p id f sig args)
  else
    let _ ← compileFunction p id
    pushFrame p id f sig args
    return .entered

/-- Starts a call through an address. An address that stands for no prepared function is native
code, called by the signature of `fnTy`. -/
def startPointerCall (pointer : Value) (fnTy : Ty) (args : List Value) : Exec Started := do
  let address ← pointer.asAddress
  match (← get).functionAt? address with
  | some id => startCall p id args
  | none => match fnTy.signature? with
    | none => raise (.unknownFunction address)
    | some sig =>
      if address = 0 then raise (.unknownFunction address)
      else return .returned (← callNative p ⟨address, sig.ret, sig.params.length⟩ args)

/-! ## Call instructions -/

/-- The function value in slot `index` of the method table that starts an object. -/
def methodPointer (object : Nat) (index : Int) (fnTy : Ty) : Exec Value := do
  let table ← (← load p object Ty.uword).asAddress
  load p (offsetAddress table (index * wordSize)) fnTy

/-- Executes a call instruction. -/
def call (inst : Instruction) (op : CallOp) : Exec Started := do
  match op, inst.args with
  | .direct, .const callee :: args => match (← p.module.constant callee).kind with
    | .function id => startCall p id (← operands p args)
    | _ => raiseOperand (.notFunctionConstant callee)
  | .pointer, callee :: args =>
    let pointer ← operand p callee
    let args ← operands p args
    startPointerCall p pointer pointer.ty args
  | .virtual, .type _ :: index :: .type fnTy :: receiver :: rest =>
    let i ← integerOperand p .tableIndex index
    let receiver ← operand p receiver
    let pointer ← methodPointer p (← receiver.asAddress) i fnTy
    let args ← operands p rest
    startPointerCall p pointer fnTy (receiver :: args)
  | _, _ => raiseArity inst "callee and argument"

end Exec

end PackedIR
