/-
The machine: one instruction at a time.

The innermost frame says which instruction is next. Executing it either completes
it, with or without a value to bind, moves control to another block, returns from
the function, or starts a call. A started call leaves its instruction pending: the
caller's frame stays at it, and the callee's return completes it. The stack of
frames is therefore all the control state there is, and running is the repetition of
`step`.

A failure unwinds the frames of the run. Each of them contributes the instruction it
was at, so the report reads from the outermost call inward.
-/
import PackedIR.Eval.Cast
import PackedIR.Machine.Aggregate
import PackedIR.Machine.Call
import PackedIR.Machine.Place

set_option autoImplicit false

namespace PackedIR

/-- What executing one instruction leads to. -/
inductive Flow where
  /-- The instruction is complete; its value, if any, is bound to its result. -/
  | complete (v : Option Value)
  | jump (target : BlockId)
  | ret (v : Value)
  /-- A callee's frame is on the stack and the instruction stays pending. -/
  | entered
deriving Inhabited

/-- The type that a result is bound under: an l-value is bound as a pointer to its storage. -/
def LocalDecl.boundTy (decl : LocalDecl) : Ty :=
  if decl.lvalue then Ty.mutPtrTo decl.ty else decl.ty

namespace Frame

/-- The instruction a frame is at, with its function and block. -/
def current (frame : Frame) (m : Module) : Result (Function × Block × Instruction) := do
  let f ← m.function frame.function
  match f.block? frame.block with
  | none => raiseOperand (.noBlock f.name frame.block)
  | some block => match block.instructions[frame.pc]? with
    | some inst => return (f, block, inst)
    | none => raiseOperand (.fellOffBlock block.name f.name)

/-- The instruction a frame is at, as the context of a failure. -/
def context? (frame : Frame) (m : Module) : Option Context :=
  match frame.current m with
  | .ok (f, block, inst) => some (.executing inst.op f.name block.name)
  | .error _ => none

end Frame

namespace Exec

variable (p : Program)

/-! ## Control instructions -/

/-- The value to return, under the function's return type. -/
def returnValue (f : Function) (inst : Instruction) : Exec Value := do
  let sig ← f.signature
  match inst.args with
  | [] => return (Value.zeroed sig.ret).withOrigin .intermediate
  | [value] => return (← (← operand p value).retype sig.ret).withOrigin .intermediate
  | _ => raiseArity inst "0 or 1"

/-- The operand listed for the block that control came from; pairs are looked at in order. -/
def phiOperand (previous : Option BlockId) : List Operand → Result (Option Operand)
  | pred :: value :: rest => do
    if some (← blockOperand pred) = previous then return some value
    else phiOperand previous rest
  | _ => .ok none

/-- The value of a PHI node. -/
def phi (f : Function) (inst : Instruction) : Exec Value := do
  let previous := (← frame).previous
  if inst.args.length % 2 ≠ 0 then raiseArity inst "predecessor and value pairs"
  else match ← phiOperand previous inst.args with
    | some value => operand p value
    | none => raise (.unlistedPredecessor f.name ((previous.bind f.block?).map Block.name))

/-- The successor that a branch takes. -/
def branchTarget (inst : Instruction) : Exec BlockId := do
  match inst.args with
  | [target] => blockOperand target
  | _ => raiseArity inst "1"

/-- The successor that a conditional branch takes. -/
def condBranchTarget (inst : Instruction) : Exec BlockId := do
  match inst.args with
  | [cond, onTrue, onFalse] =>
    if ← boolOperand p cond then blockOperand onTrue else blockOperand onFalse
  | _ => raiseArity inst "3"

/-! ## Operators -/

def unary (inst : Instruction) (op : UnaryOp) : Exec Value := do
  match inst.args with
  | [value] => op.eval (← operand p value)
  | _ => raiseArity inst "1"

def cast (inst : Instruction) (op : CastOp) : Exec Value := do
  match inst.args with
  | [value, .type target] => op.eval (← operand p value) target
  | _ => raiseArity inst "value and target type"

/-- A binary operator. A three-way comparison is rebuilt in the declared type of its result. -/
def binary (f : Function) (inst : Instruction) (op : BinaryOp) : Exec Value := do
  match inst.args with
  | [left, right] =>
    let l ← operand p left
    let r ← operand p right
    let v ← op.eval l r
    match op with
    | .intOrder | .floatOrder =>
      let decl ← resultDecl f inst
      Value.ofInt decl.ty (v.asInt?.getD (-1))
    | _ => return v
  | _ => raiseArity inst "2"

/-! ## Instructions -/

/-- Executes an instruction of `f` in the innermost frame. -/
def execute (f : Function) (inst : Instruction) : Exec Flow := do
  match inst.op with
  | .ret => return .ret (← returnValue p f inst)
  | .branch => return .jump (← branchTarget inst)
  | .condBranch => return .jump (← condBranchTarget p inst)
  | .unreachable => raise (.reachedUnreachable f.name)
  | .phi => return .complete (some (← phi p f inst))
  | .unary op => return .complete (some (← unary p inst op))
  | .cast op => return .complete (some (← cast p inst op))
  | .binary op => return .complete (some (← binary p f inst op))
  | .place op => return .complete (← place p f inst op)
  | .call op => match ← call p inst op with
    | .returned v => return .complete (some v)
    | .entered => return .entered
  | _ => return .complete (some (← aggregate p inst))

/-- Binds the result of an instruction in the innermost frame. -/
def bindResult (f : Function) (inst : Instruction) (v : Value) : Exec Unit := do
  match inst.result with
  | none => return
  | some l =>
    let decl ← resultDecl f inst
    let bound ← v.retype decl.boundTy
    bindLocal l (bound.withOrigin (.local l))

/-- Completes an instruction: binds its value and moves on to the next one. -/
def complete (f : Function) (inst : Instruction) (v : Option Value) : Exec Unit := do
  match v with
  | some v => bindResult f inst v
  | none => pure ()
  modifyFrame Frame.advance

/-! ## Steps -/

/-- Goes back to the caller's pending instruction with a value. Once only `base` frames are left,
the value is the result of the run. -/
def deliver (base : Nat) (v : Value) : Exec (Option Value) := do
  if (← get).frames.length ≤ base then return some v
  else
    let (f, _, inst) ← (← frame).current p.module
    complete f inst (some v)
    return none

/-- Executes the next instruction. The result is there once the run has left all frames above the
first `base`. -/
def step (base : Nat) : Exec (Option Value) := do
  let (f, _, inst) ← (← frame).current p.module
  match ← execute p f inst with
  | .complete v =>
    complete f inst v
    return none
  | .jump target =>
    modifyFrame fun frame => frame.enterBlock target
    return none
  | .entered => return none
  | .ret v =>
    popFrame
    deliver p base v

/-- Takes steps until the run has a result. -/
def runFrom (base : Nat) : (fuel : Nat) → Exec Value
  | 0 => throw .outOfFuel
  | fuel + 1 => do
    match ← step p base with
    | some v => return v
    | none => runFrom base fuel

/-! ## Unwinding -/

/-- Removes the innermost `count` frames, and adds to a failure the instruction each was at. -/
def unwind : (count : Nat) → Failure → Exec Failure
  | 0, e => return e
  | count + 1, e => do
    let context := (← frame).context? p.module
    popFrame
    unwind count (match context with
      | some c => e.within c
      | none => e)

/-- Leaves no frame above the first `base` behind when a computation raises an error. -/
def unwinding {α : Type} (base : Nat) (x : Exec α) : Exec α := fun s =>
  match x s with
  | .ok a s => .ok a s
  | .error (.raised context cause) s =>
    match unwind p (s.frames.length - base) (.raised context cause) s with
    | .ok e s => .error e s
    | .error e s => .error e s
  | .error e s => .error e s

/-- Calls a function and runs it to its end. -/
def callFunction (fuel : Nat) (id : FuncId) (args : List Value) : Exec Value := do
  let base := (← get).frames.length
  unwinding p base do
    match ← startCall p id args with
    | .returned v => return v
    | .entered => runFrom p base fuel

end Exec

end PackedIR
