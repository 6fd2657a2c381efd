/-
Broken preconditions.

The library treats a module as already checked. A caller that breaks this trust, with
an id that names nothing or a builder call that makes no sense for its operands, gets
a `Fault`: the computation stops and there is no result to go on with. Faults are
causes; `message?` gives the wording, and some faults carry none.
-/
import PackedIR.Ident
import PackedIR.Layout
import PackedIR.Opcode

set_option autoImplicit false

namespace PackedIR

/-- A precondition that the caller broke. -/
inductive Fault where
  /-- An id that names nothing in its module or function. -/
  | missing
  /-- The signature of a function that was declared with a pointer to a function type. -/
  | indirectSignature
  | integerWidth (bits : Nat)
  | declaredNonFunction (name : String) (ty : Ty)
  | argumentRange (index : Nat)
  | unknownLocal (l : Local)
  | blockWithoutType (block : BlockId)
  | notPositioned
  | notCallable (ty : Ty)
  | notVirtualCallable (ty : Ty)
  | notArray (ty : Ty)
  | notPointer (ty : Ty)
  | noMember (ty : Ty) (index : Nat)
  | noElement (ty : Ty)
  | notEnum (ty : Ty)
  | notGetter (op : Opcode)
  /-- An integer type wider than the 16 bytes of the widest literal. -/
  | integerTooWide (ty : Ty)
  /-- A new allocation that meets a recorded one. -/
  | overlappingAllocation (start size other : Nat)
  /-- The release of an allocation that was never recorded. -/
  | unrecordedAllocation (start : Nat)
  /-- No address is left for another allocation or function. -/
  | outOfAddresses
  /-- The address of a member past the end of the address space. -/
  | memberOutOfReach (address offset : Nat)
  /-- A shift of a value that has no bits. -/
  | noBits
  /-- A pointer to owned storage under a type that no address fits. -/
  | notAddressSized (ty : Ty)
  /-- A call to an address at which there is no native code. -/
  | noNativeCode
deriving Inhabited

/-- The wording of a fault, if it has one. -/
def Fault.message? : Fault → Option String
  | .missing => none
  | .indirectSignature => none
  | .integerWidth bits => some ("unsupported integer width " ++ toString bits)
  | .declaredNonFunction name ty =>
    some ("function `" ++ name ++ "` declared with non-function type " ++ ty.render)
  | .argumentRange index => some ("argument " ++ toString index ++ " out of range")
  | .unknownLocal l => some ("unknown local " ++ toString l)
  | .blockWithoutType block => some ("block " ++ toString block ++ " has no type")
  | .notPositioned => some "builder must be positioned before emitting instructions"
  | .notCallable ty => some ("cannot call value of type " ++ ty.render)
  | .notVirtualCallable ty => some ("virtual call through non-function type " ++ ty.render)
  | .notArray ty => some ("GEP2 into non-array " ++ ty.render)
  | .notPointer ty => some ("expected pointer, found " ++ ty.render)
  | .noMember ty index => some (ty.render ++ " has no member " ++ toString index)
  | .noElement ty => some (ty.render ++ " has no element type")
  | .notEnum ty => some (ty.render ++ " is not an enum")
  | .notGetter op => some (op.name ++ " is not a container getter")
  | .integerTooWide _ => none
  | .overlappingAllocation _ _ _ => none
  | .unrecordedAllocation _ => none
  | .outOfAddresses => none
  | .memberOutOfReach _ _ => none
  | .noBits => none
  | .notAddressSized ty =>
    some ("assertion `left == right` failed: " ++ ty.render ++ " is not address sized\n  left: " ++
      toString ty.size ++ "\n right: " ++ toString wordSize)
  | .noNativeCode => none

/-- The integer type of one of the four supported widths. -/
def Ty.int? (bits : Nat) (signed : Bool) : Except Fault Ty :=
  if bits = 8 ∨ bits = 16 ∨ bits = 32 ∨ bits = 64 then .ok (.int bits signed)
  else .error (.integerWidth bits)

end PackedIR
