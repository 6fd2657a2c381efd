/-
Evaluating operands.

An operand is a value, or an l-value that decays to the contents of its storage. The
instructions that need the storage itself ask for the address instead. Member
indices are not evaluated: they must be integer constants.
-/
import PackedIR.Machine.Constants

set_option autoImplicit false

namespace PackedIR

/-- The result of address arithmetic: it wraps around the address space. -/
def offsetAddress (address : Nat) (delta : Int) : Nat :=
  ((address + delta) % (addressLimit : Int)).toNat

/-- The address of a member. Unlike an index, its offset must not lead out of the address space. -/
def memberAddress (address : Nat) (member : Member) : Except Fault Nat :=
  if address + member.offset < addressLimit then .ok (address + member.offset)
  else .error (.memberOutOfReach address member.offset)

/-- The declaration of the local that an instruction binds. -/
def resultDecl (f : Function) (inst : Instruction) : Result LocalDecl :=
  match inst.result.bind f.local? with
  | some decl => .ok decl
  | none => raiseOperand (.noDeclaredResult inst.op)

/-- The block that an operand names. -/
def blockOperand : Operand → Result BlockId
  | .block b => .ok b
  | other => raiseOperand (.notBlock other)

/-- Fails because an instruction has the wrong number of operands. -/
def raiseArity {α : Type} (inst : Instruction) (expected : String) : Result α :=
  raiseOperand (.arity inst.op expected inst.args.length)

/-- Member `index` of the packed layout of a type. -/
def memberOf (ty : Ty) (index : Nat) : Result Member :=
  match (Layout.of ty).member? index with
  | some member => .ok member
  | none => raiseOperand (.noMember ty index)

namespace Exec

variable (p : Program)

/-- The value of a local, loaded from its storage when it is an l-value. -/
def localOperand (l : Local) : Exec Value := do
  let frame ← frame
  let f ← p.module.function frame.function
  match frame.lookup? l with
  | none => raise (.unboundValue l f.name)
  | some v => match f.local? l with
    | some ⟨ty, true⟩ => return (← load p (← v.asAddress) ty).withOrigin (.local l)
    | _ => return v

/-- The value of an operand. -/
def operand (o : Operand) : Exec Value :=
  match o with
  | .local l => localOperand p l
  | .const id => constOperand p id
  | _ => raiseOperand (.notValue o)

/-- The values of several operands, evaluated in order. -/
def operands : List Operand → Exec (List Value)
  | [] => return []
  | o :: os => do
    let v ← operand p o
    return v :: (← operands os)

/-- Address and contents type of an l-value operand. -/
def operandAddress (o : Operand) : Exec (Nat × Ty) := do
  match o with
  | .local l =>
    let frame ← frame
    let f ← p.module.function frame.function
    match frame.lookup? l, f.local? l with
    | none, _ => raise (.unboundValue l f.name)
    | some v, some ⟨ty, true⟩ => return (← v.asAddress, ty)
    | _, _ => raiseOperand (.localNotLValue l)
  | .const id =>
    let c ← p.module.constant id
    match c.kind with
    | .globalVar _ => return (← (← constValue p id).asAddress, c.ty)
    | _ => raiseOperand (.constantNotLValue id)
  | other => raiseOperand (.operandNotLValue other)

/-- A constant operand that is a natural number of one word, as member indices are. -/
def constIndex (o : Operand) : Exec Nat := do
  match o with
  | .const id => match (← p.module.constant id).kind with
    | .int i => if 0 ≤ i ∧ i < addressLimit then return i.toNat else raiseOperand (.notConstIndex o)
    | _ => raiseOperand (.notConstIndex o)
  | _ => raiseOperand (.notConstIndex o)

/-- An integer operand, read with the signedness of its type. -/
def integerOperand (activity : Activity) (o : Operand) : Exec Int := do
  let v ← operand p o
  match v.asInt? with
  | some i => if v.ty.isInteger then return i else raiseTypes activity [v.ty]
  | none => raiseTypes activity [v.ty]

/-- Address and pointee type of a pointer operand. -/
def pointerOperand (o : Operand) : Exec (Nat × Ty) := do
  let v ← operand p o
  match v.ty.pointee? with
  | some pointee => return (← v.asAddress, pointee)
  | none => raiseTypes .pointer [v.ty]

/-- A condition: its type must be `bool`. -/
def boolOperand (o : Operand) : Exec Bool := do
  let v ← operand p o
  match v.asBool? with
  | some b => if v.ty.isBool then return b else raiseTypes .condition [v.ty]
  | none => raiseTypes .condition [v.ty]

end Exec

end PackedIR
