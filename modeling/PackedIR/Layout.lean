/-
Packed layouts.

An aggregate is the concatenation of its members in declared order, with no padding
anywhere. Three views of a type are defined side by side: its `size`, its
`memberTypes`, and its `Layout`, which says where each member starts. The builtin
containers have a fixed member order that native code shares, so it is written out
once, in `memberTypes`, and the slot numbers of `Slot` index into that order.

Arrays keep element, stride and length instead of a list, so that a layout costs the
same whatever the length.
-/
import PackedIR.Ty

set_option autoImplicit false

namespace PackedIR

/-- Bytes of the native word and of every address. -/
def wordSize : Nat := 8

/-- Payload bytes stored inside an `any` box. -/
def anyDataSize : Nat := 32

/-! ## Sizes -/

namespace Ty

mutual

/-- The number of bytes a value of the type occupies. -/
def size : Ty → Nat
  | .void => 0
  | .bool => 1
  | .int bits _ => bits / 8
  | .float .f32 => 4
  | .float .f64 => 8
  | .pointer _ _ => wordSize
  | .function _ _ _ => wordSize
  | .array elem len => size elem * len
  | .struct _ fields => sizeSum fields
  | .object _ fields _ => wordSize + sizeSum fields
  | .tuple members => sizeSum members
  | .slice _ _ => 2 * wordSize
  | .dynArray _ => 4 * wordSize
  | .string => 4 * wordSize
  | .any => 2 * wordSize + anyDataSize
  | .range => 3 * wordSize
  | .enum _ caseTy => wordSize + size caseTy
  | .union _ variants => wordSize + sizeMax variants
  | .rawUnion _ variants => sizeMax variants

/-- The bytes of several members laid out back to back. -/
def sizeSum : List Ty → Nat
  | [] => 0
  | t :: ts => size t + sizeSum ts

/-- The bytes of the largest of several variants. -/
def sizeMax : List Ty → Nat
  | [] => 0
  | t :: ts => max (size t) (sizeMax ts)

end

/-- The member types in layout order; for unions, the variants. Scalars have none. -/
def memberTypes : Ty → List Ty
  | .struct _ fields => fields
  | .object _ fields _ => ptrTo i8 :: fields
  | .tuple members => members
  | .slice elem mutable => [.pointer elem mutable, word]
  | .dynArray elem => [mutPtrTo elem, word, word, mutPtrTo word]
  | .string => [mutPtrTo i8, word, word, mutPtrTo word]
  | .any => [uword, mutPtrTo word, .array i8 anyDataSize]
  | .range => [word, word, word]
  | .enum _ caseTy => [word, caseTy]
  | .array elem len => List.replicate len elem
  | .union _ variants => variants
  | .rawUnion _ variants => variants
  | _ => []

end Ty

/-! ## Layouts -/

/-- Where one member lies inside its aggregate. -/
structure Member where
  offset : Nat
  size : Nat
  ty : Ty
deriving DecidableEq, Inhabited

/-- How the members of a type are found. -/
inductive Members where
  | scalar
  | array (elem : Ty) (stride : Nat) (len : Nat)
  | fields (members : List Member)
deriving Inhabited

/-- Size and member positions of a type. -/
structure Layout where
  size : Nat
  members : Members
deriving Inhabited

namespace Member

/-- Members placed one after the other from `offset` on. -/
def backToBack (offset : Nat) : List Ty → List Member
  | [] => []
  | t :: ts => ⟨offset, t.size, t⟩ :: backToBack (offset + t.size) ts

/-- Members that all start at `offset`. -/
def overlaid (offset : Nat) (ts : List Ty) : List Member :=
  ts.map fun t => ⟨offset, t.size, t⟩

end Member

namespace Layout

/-- The packed layout of a type. -/
def of (t : Ty) : Layout where
  size := t.size
  members := match t with
    | .array elem len => .array elem elem.size len
    | .union _ variants => .fields (Member.overlaid wordSize variants)
    | .rawUnion _ variants => .fields (Member.overlaid 0 variants)
    | _ => match Member.backToBack 0 t.memberTypes with
      | [] => .scalar
      | members => .fields members

/-- Member `index`; for unions, the payload of variant `index`. -/
def member? (layout : Layout) (index : Nat) : Option Member :=
  match layout.members with
  | .scalar => none
  | .array elem stride len =>
    if index < len then some ⟨index * stride, stride, elem⟩ else none
  | .fields members => members[index]?

/-- The number of members. -/
def memberCount (layout : Layout) : Nat :=
  match layout.members with
  | .scalar => 0
  | .array _ _ len => len
  | .fields members => members.length

end Layout

end PackedIR
