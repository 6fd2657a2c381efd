/-
Instructions on addresses, l-values and storage.

Addresses are computed from the packed layout. An index may lead around the address
space; the offset of a member may not, and that is a fault. No address instruction
touches memory. Loads and stores check the access, and a store checks first that the
value fills the place exactly.
-/
import PackedIR.Machine.Operands

set_option autoImplicit false

namespace PackedIR.Exec

variable (p : Program)

/-- Stores a value into a place of type `ty`. -/
def storeValue (address : Nat) (ty : Ty) (v : Value) : Exec Unit := do
  checkSize ty.size v.size
  storeBytes p address v.bytes

/-- The pointer moved by a number of elements. -/
def getPointer (ptr index : Operand) : Exec Value := do
  let base ← operand p ptr
  match base.ty.pointee? with
  | none => raiseTypes (.opcode (.place .getPointer)) [base.ty]
  | some pointee =>
    let i ← integerOperand p .index index
    let address ← base.asAddress
    return Value.ofAddress base.ty (offsetAddress address (i * pointee.size))

/-- The address of an element, from a pointer to an array, an array index and an element index. -/
def getGep2 (ptr first second : Operand) : Exec Value := do
  let (base, array) ← pointerOperand p ptr
  match array.element? with
  | none => raiseTypes (.opcode (.place .getGep2)) [array]
  | some elem =>
    let i ← integerOperand p .index first
    let j ← integerOperand p .index second
    return Value.ofAddress (Ty.mutPtrTo elem)
      (offsetAddress base (i * array.size + j * elem.size))

/-- The address of a member of an l-value. -/
def getStructMember (lvalue index : Operand) : Exec Value := do
  let (address, ty) ← operandAddress p lvalue
  let member ← memberOf ty (← constIndex p index)
  return Value.ofAddress (Ty.mutPtrTo member.ty) (← memberAddress address member)

/-- The address of a member of the element that a pointer and an index name. -/
def getPointerToStructMember (ptr ptrIndex index : Operand) : Exec Value := do
  let (base, pointee) ← pointerOperand p ptr
  let member ← memberOf pointee (← constIndex p index)
  let i ← integerOperand p .index ptrIndex
  let element := offsetAddress base (i * pointee.size)
  return Value.ofAddress (Ty.mutPtrTo member.ty) (← memberAddress element member)

/-- One of two values, by a one-byte condition. Only the chosen one is evaluated. -/
def select (cond onTrue onFalse : Operand) : Exec Value := do
  let c ← operand p cond
  match c.asBool? with
  | some true => operand p onTrue
  | some false => operand p onFalse
  | none => raiseTypes (.opcode (.place .select)) [c.ty]

/-- Executes an instruction on places; stores have no result. -/
def place (f : Function) (inst : Instruction) (op : PlaceOp) : Exec (Option Value) := do
  match op, inst.args with
  | .readPtr, [ptr] =>
    let address ← (← operand p ptr).asAddress
    let decl ← resultDecl f inst
    return some (← load p address decl.ty)
  | .writePtr, [value, ptr] =>
    let v ← operand p value
    let (address, pointee) ← pointerOperand p ptr
    storeValue p address pointee v
    return none
  | .store, [value, lvalue] =>
    let v ← operand p value
    let (address, ty) ← operandAddress p lvalue
    storeValue p address ty v
    return none
  | .stackAlloc, [.type ty] | .createLVal, [.type ty] =>
    -- A type without bytes still gets an address of its own.
    let address ← allocFrame p (max ty.size 1)
    return some (Value.ofAddress (Ty.mutPtrTo ty) address)
  | .addressOf, [lvalue] =>
    let (address, ty) ← operandAddress p lvalue
    return some (Value.ofAddress (Ty.mutPtrTo ty) address)
  | .dereference, [ptr] =>
    let (address, pointee) ← pointerOperand p ptr
    return some (Value.ofAddress (Ty.mutPtrTo pointee) address)
  | .getPointer, [ptr, index] => return some (← getPointer p ptr index)
  | .getGep2, [ptr, first, second] => return some (← getGep2 p ptr first second)
  | .getStructMember, [lvalue, index] => return some (← getStructMember p lvalue index)
  | .getPointerToStructMember, [ptr, ptrIndex, index] =>
    return some (← getPointerToStructMember p ptr ptrIndex index)
  | .rawUnionGep, [lvalue, .type variant] =>
    let (address, _) ← operandAddress p lvalue
    return some (Value.ofAddress (Ty.mutPtrTo variant) address)
  | .sizeof, [.type ty] =>
    let decl ← resultDecl f inst
    return some (← Value.ofInt decl.ty ty.size)
  | .select, [cond, onTrue, onFalse] => return some (← select p cond onTrue onFalse)
  | _, _ => raiseOperand (.malformed inst.op inst.args)

end PackedIR.Exec
