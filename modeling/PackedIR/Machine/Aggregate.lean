/-
Aggregates and builtin containers as values.

Accessors never change their operand: a setter yields a copy with the bytes of one
member replaced. Containers are accessed through named fields, which are members of
the packed layout like any other.
-/
import PackedIR.Machine.Operands

set_option autoImplicit false

namespace PackedIR

/-- Whether a type belongs to a container family. -/
def Container.accepts : Container → Ty → Bool
  | .dynArray, .dynArray _ => true
  | .dynArray, .string => true
  | .slice, .slice _ _ => true
  | .any, .any => true
  | .range, .range => true
  | .enum, .enum _ _ => true
  | .union, .union _ _ => true
  | _, _ => false

/-- The variant id of a tagged union: its first word. -/
def variantIdMember : Member := ⟨0, wordSize, Ty.word⟩

namespace Value

/-- The member of an aggregate. -/
def getMember (v : Value) (m : Member) : Result Value := v.readAt m.offset m.ty

/-- A copy of an aggregate with one member replaced. -/
def setMember (v : Value) (m : Member) (element : Value) : Result Value := do
  checkSize m.size element.size
  let copy ← ofBytes v.ty v.bytes
  copy.writeAt m.offset element.bytes

end Value

namespace Exec

variable (p : Program)

/-- An operand whose type must belong to a container family. -/
def containerOperand (container : Container) (op : Opcode) (o : Operand) : Exec Value := do
  let v ← operand p o
  if container.accepts v.ty then return v else raiseTypes (.opcode op) [v.ty]

/-- Reads or replaces a named field of a container. `write` tells which. -/
def fieldAccess (inst : Instruction) (field : Field) (write : Bool) (aggregate : Operand)
    (rest : List Operand) : Exec Value := do
  let v ← containerOperand p field.container inst.op aggregate
  let member ← memberOf v.ty field.slot
  match write, rest with
  | false, [] => v.getMember member
  | true, [value] => v.setMember member (← operand p value)
  | _, _ => raiseArity inst (if write then "2" else "1")

/-- Replaces the payload of a tagged union and sets its variant id. -/
def unionSetValue (op : Opcode) (union variant value : Operand) : Exec Value := do
  let u ← containerOperand p .union op union
  let index ← constIndex p variant
  let member ← memberOf u.ty index
  let v ← operand p value
  let tagged ← u.setMember variantIdMember (Value.ofWord index)
  tagged.setMember member v

/-- Executes an instruction on aggregates. -/
def aggregate (inst : Instruction) : Exec Value := do
  match inst.op, inst.args with
  | .insertValue, [aggregate, element, index] =>
    let v ← operand p aggregate
    let e ← operand p element
    let member ← memberOf v.ty (← constIndex p index)
    v.setMember member e
  | .extractValue, [aggregate, index] =>
    let v ← operand p aggregate
    let member ← memberOf v.ty (← constIndex p index)
    v.getMember member
  | .union .getVariantId, [union] =>
    let u ← containerOperand p .union inst.op union
    u.getMember variantIdMember
  | .union .setVariantId, [union, id] =>
    let u ← containerOperand p .union inst.op union
    let i ← integerOperand p .variantId id
    u.setMember variantIdMember (Value.ofWord i)
  | .union .getValue, [union, variant] =>
    let u ← containerOperand p .union inst.op union
    let member ← memberOf u.ty (← constIndex p variant)
    u.getMember member
  | .union .setValue, [union, variant, value] => unionSetValue p inst.op union variant value
  | .getField field, aggregate :: rest => fieldAccess p inst field false aggregate rest
  | .setField field, aggregate :: rest => fieldAccess p inst field true aggregate rest
  | _, [] => raiseArity inst "more"
  | _, _ :: _ => raiseOperand (.notAggregate inst.op)

end Exec

end PackedIR
