/-
Materializing constants.

A constant is made once and cached under its id. Composite constants are the
concatenation of their members, and a reference to a global variable used as a
member contributes the variable's contents at that moment.

Constants may refer to each other in any order, so materializing takes a budget: it
drops by one for each constant entered. The members of a chain of references without
a cycle are all different, hence a budget of the number of constants never runs out
on a module without cycles.
-/
import PackedIR.Machine.State

set_option autoImplicit false

namespace PackedIR.Exec

variable (p : Program)

/-! ## Functions and strings as addresses -/

/-- Prepares a function for execution and gives the address that stands for it. Every block must
end with a terminator. -/
def compileFunction (id : FuncId) : Exec Nat := do
  let f ← p.module.function id
  if id ∈ (← get).compiled then return id.identity
  match f.unterminated? with
  | some block => raiseOperand (.unterminatedBlock block.name f.name)
  | none =>
    if FuncId.limit ≤ id.index then throw (.fault .outOfAddresses)
    modify fun s => { s with compiled := id :: s.compiled }
    return id.identity

/-- Places a text with a closing zero byte into static storage. -/
def placeText (text : String) : Exec Nat :=
  allocStatic p .string (text.toUTF8.toList ++ [0])

/-- The address of an entry of the string pool, placed on first use. -/
def globalString (id : StringId) : Exec Nat := do
  match (← get).strings.get? id with
  | some address => return address
  | none =>
    let text ← p.module.string id
    let address ← placeText p text
    modify fun s => { s with strings := s.strings.insert id address }
    return address

/-! ## Materializing -/

/-- A value of type `ty` from members laid out back to back. -/
def concat (ty : Ty) (members : List Value) : Result Value :=
  Value.ofBytes ty (members.flatMap Value.bytes)

/-- The contents of an owned dynamic array: the buffer, its length, no spare capacity to report
and no reference count. The first member has to be able to hold an address. -/
def ownedArray (ty : Ty) (address len : Nat) : Result Value :=
  match ty.memberTypes with
  | dataTy :: _ =>
    if dataTy.size = wordSize then
      concat ty
        [Value.ofAddress dataTy address, Value.ofWord len, Value.ofWord (-1), Value.ofWord 0]
    else .error (.fault (.notAddressSized dataTy))
  | [] => raiseTypes .dynArrayConstant [ty]

/-- Evaluates constants one after the other. -/
def constants (operand : ConstId → Exec Value) : List ConstId → Exec (List Value)
  | [] => return []
  | id :: ids => do
    let v ← operand id
    return v :: (← constants operand ids)

/-- Makes the value of a constant, given how its members are evaluated. -/
def materialize (operand : ConstId → Exec Value) (c : Constant) : Exec Value := do
  match c.kind with
  | .int i => Value.ofInt c.ty i
  | .float bits => Value.ofDouble c.ty bits
  | .bool b => Value.ofInt c.ty (if b then 1 else 0)
  | .zero => return Value.zeroed c.ty
  | .text text => Value.ofInt c.ty (← placeText p text)
  | .globalString id => Value.ofInt c.ty (← globalString p id)
  | .bitcast inner => (← operand inner).retype c.ty
  | .array elements | .tuple elements => concat c.ty (← constants operand elements)
  | .enumCase index value => concat c.ty (← constants operand [index, value])
  | .slice data len => concat c.ty (← constants operand [data, len])
  | .parts data len capacity =>
    let members ← constants operand [data, len, capacity]
    concat c.ty (members ++ [Value.ofWord 0])
  | .owned array =>
    let contents ← operand array
    let address ← allocStatic p .constant contents.bytes
    ownedArray c.ty address (Layout.of contents.ty).memberCount
  | .function id => Value.ofInt c.ty (← compileFunction p id)
  | .globalVar id => match (← get).globals.get? id with
    | some reference => return reference
    | none => raise (.unresolvedGlobal (← p.module.global id).name)

/-- Turns the value of a constant into that of an operand: a reference to a global variable decays
to the variable's contents. -/
def decayConst (id : ConstId) (c : Constant) (v : Value) : Exec Value := do
  match c.kind with
  | .globalVar _ => return (← load p (← v.asAddress) c.ty).withOrigin (.const id)
  | _ => return v

/-- The value of a constant, made and cached on first use. A reference to a global variable has
the variable's address as its value. -/
def constValueWith : (budget : Nat) → ConstId → Exec Value
  | 0, id => do
    match (← get).constants.get? id with
    | some v => return v
    | none => throw .outOfFuel
  | budget + 1, id => do
    match (← get).constants.get? id with
    | some v => return v
    | none =>
      let c ← p.module.constant id
      let member (m : ConstId) : Exec Value := do
        let mc ← p.module.constant m
        decayConst p m mc (← constValueWith budget m)
      let made ← within (.materializing id) (materialize p member c)
      let v := made.withOrigin (.const id)
      modify fun s => { s with constants := s.constants.insert id v }
      return v

/-- The value of a constant. -/
def constValue (id : ConstId) : Exec Value :=
  constValueWith p p.module.constants.size id

/-- A constant used as an operand. -/
def constOperand (id : ConstId) : Exec Value := do
  let c ← p.module.constant id
  decayConst p id c (← constValue p id)

end PackedIR.Exec
