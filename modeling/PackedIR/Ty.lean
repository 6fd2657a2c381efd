/-
The types of the intermediate representation.

A type is a finite tree: scalars at the leaves, aggregates and builtin containers
above them. Two types are the same exactly when their trees are equal, names
included, and that equality is decided here by walking both trees at once. The
derived test would not reduce, because a type holds lists of types, so the test and
the proof that it is right are written out.
-/

set_option autoImplicit false

namespace PackedIR

/-! ## The type language -/

/-- The two floating-point widths. -/
inductive FloatWidth where
  | f32
  | f64
deriving DecidableEq, Repr, Inhabited

/-- A type of the intermediate representation. -/
inductive Ty where
  | void
  | bool
  /-- An integer; the usual widths are 8, 16, 32 and 64 bits. -/
  | int (bits : Nat) (signed : Bool)
  | float (width : FloatWidth)
  | pointer (pointee : Ty) (mutable : Bool)
  | array (elem : Ty) (len : Nat)
  | struct (name : String) (fields : List Ty)
  /-- A class instance: a method-table pointer in front of its fields, counted as member 0. -/
  | object (name : String) (fields : List Ty) (tableLen : Nat)
  | tuple (members : List Ty)
  | slice (elem : Ty) (mutable : Bool)
  | dynArray (elem : Ty)
  | string
  /-- A box that can hold a value of any type. -/
  | any
  | range
  /-- An enumeration: a case index followed by the value of the case. -/
  | enum (name : String) (caseTy : Ty)
  /-- A tagged union: a variant id followed by the payload of the largest variant. -/
  | union (name : String) (variants : List Ty)
  /-- An untagged union, as large as its largest variant. -/
  | rawUnion (name : String) (variants : List Ty)
  | function (params : List Ty) (ret : Ty) (variadic : Bool)
deriving Inhabited

/-- Parameters, result and variadic mark of a function type. -/
structure Signature where
  params : List Ty
  ret : Ty
  variadic : Bool
deriving Inhabited

namespace Ty

/-! ## Equality -/

mutual

/-- Whether two types are the same tree. -/
def beq : Ty → Ty → Bool
  | .void, .void => true
  | .bool, .bool => true
  | .int b s, .int b' s' => b == b' && s == s'
  | .float w, .float w' => w == w'
  | .pointer t m, .pointer t' m' => beq t t' && m == m'
  | .array t n, .array t' n' => beq t t' && n == n'
  | .struct x ts, .struct x' ts' => x == x' && beqList ts ts'
  | .object x ts n, .object x' ts' n' => x == x' && beqList ts ts' && n == n'
  | .tuple ts, .tuple ts' => beqList ts ts'
  | .slice t m, .slice t' m' => beq t t' && m == m'
  | .dynArray t, .dynArray t' => beq t t'
  | .string, .string => true
  | .any, .any => true
  | .range, .range => true
  | .enum x t, .enum x' t' => x == x' && beq t t'
  | .union x ts, .union x' ts' => x == x' && beqList ts ts'
  | .rawUnion x ts, .rawUnion x' ts' => x == x' && beqList ts ts'
  | .function ps r v, .function ps' r' v' => beqList ps ps' && beq r r' && v == v'
  | _, _ => false

/-- Whether two lists of types agree member by member. -/
def beqList : List Ty → List Ty → Bool
  | [], [] => true
  | t :: ts, t' :: ts' => beq t t' && beqList ts ts'
  | _, _ => false

end

mutual

/-- The test accepts a type against itself. -/
theorem beq_self (t : Ty) : beq t t = true := by
  cases t with
  | void | bool | string | any | range | int | float => simp [beq]
  | pointer u | array u | slice u | dynArray u | enum _ u => simp [beq, beq_self u]
  | struct _ us | object _ us | tuple us | union _ us | rawUnion _ us =>
    simp [beq, beqList_self us]
  | function ps r => simp [beq, beqList_self ps, beq_self r]

/-- The test accepts a list of types against itself. -/
theorem beqList_self (ts : List Ty) : beqList ts ts = true := by
  cases ts with
  | nil => simp [beqList]
  | cons t ts => simp [beqList, beq_self t, beqList_self ts]

end

mutual

/-- Types that pass the test are equal. -/
theorem eq_of_beq (t u : Ty) (h : beq t u = true) : t = u := by
  cases t with
  | void | bool | string | any | range | int | float => cases u <;> simp_all [beq]
  | dynArray t =>
    cases u <;> simp only [beq, Bool.false_eq_true] at h
    rw [eq_of_beq t _ h]
  | pointer t | array t | slice t =>
    cases u <;> simp only [beq, Bool.and_eq_true, beq_iff_eq, Bool.false_eq_true] at h
    rw [eq_of_beq t _ h.1, h.2]
  | enum _ t =>
    cases u <;> simp only [beq, Bool.and_eq_true, beq_iff_eq, Bool.false_eq_true] at h
    rw [h.1, eq_of_beq t _ h.2]
  | tuple ts =>
    cases u <;> simp only [beq, Bool.false_eq_true] at h
    rw [eq_of_beqList ts _ h]
  | struct _ ts | union _ ts | rawUnion _ ts =>
    cases u <;> simp only [beq, Bool.and_eq_true, beq_iff_eq, Bool.false_eq_true] at h
    rw [h.1, eq_of_beqList ts _ h.2]
  | object _ ts =>
    cases u <;> simp only [beq, Bool.and_eq_true, beq_iff_eq, Bool.false_eq_true] at h
    rw [h.1.1, eq_of_beqList ts _ h.1.2, h.2]
  | function ps r =>
    cases u <;> simp only [beq, Bool.and_eq_true, beq_iff_eq, Bool.false_eq_true] at h
    rw [eq_of_beqList ps _ h.1.1, eq_of_beq r _ h.1.2, h.2]

/-- Lists of types that pass the test are equal. -/
theorem eq_of_beqList (ts us : List Ty) (h : beqList ts us = true) : ts = us := by
  cases ts with
  | nil => cases us <;> simp_all [beqList]
  | cons t ts =>
    cases us with
    | nil => simp [beqList] at h
    | cons u us =>
      simp only [beqList, Bool.and_eq_true] at h
      rw [eq_of_beq t u h.1, eq_of_beqList ts us h.2]

end

instance : DecidableEq Ty := fun t u =>
  if h : beq t u = true then isTrue (eq_of_beq t u h)
  else isFalse fun e => h (e ▸ beq_self t)

/-! ## Names for common types -/

abbrev i8 : Ty := .int 8 true
abbrev i16 : Ty := .int 16 true
abbrev i32 : Ty := .int 32 true
abbrev i64 : Ty := .int 64 true
abbrev u8 : Ty := .int 8 false
abbrev u16 : Ty := .int 16 false
abbrev u32 : Ty := .int 32 false
abbrev u64 : Ty := .int 64 false
abbrev f32 : Ty := .float .f32
abbrev f64 : Ty := .float .f64

/-- The native signed word. -/
abbrev word : Ty := i64

/-- The native unsigned word. -/
abbrev uword : Ty := u64

/-- An immutable pointer to `t`. -/
abbrev ptrTo (t : Ty) : Ty := .pointer t false

/-- A mutable pointer to `t`. -/
abbrev mutPtrTo (t : Ty) : Ty := .pointer t true

/-! ## Views -/

def isVoid : Ty → Bool
  | .void => true
  | _ => false

def isBool : Ty → Bool
  | .bool => true
  | _ => false

def isInteger : Ty → Bool
  | .int .. => true
  | _ => false

/-- Signed integers; no other type is signed. -/
def isSigned : Ty → Bool
  | .int _ signed => signed
  | _ => false

def isFloat : Ty → Bool
  | .float _ => true
  | _ => false

def isPointer : Ty → Bool
  | .pointer .. => true
  | _ => false

def pointee? : Ty → Option Ty
  | .pointer t _ => some t
  | _ => none

/-- Element type of arrays, slices and dynamic arrays. -/
def element? : Ty → Option Ty
  | .array t _ => some t
  | .slice t _ => some t
  | .dynArray t => some t
  | _ => none

/-- The signature of a function type or of a pointer to one. -/
def signature? : Ty → Option Signature
  | .function params ret variadic => some ⟨params, ret, variadic⟩
  | .pointer (.function params ret variadic) _ => some ⟨params, ret, variadic⟩
  | _ => none

/-- Equal types, or pointers to the same pointee whatever their mutability. -/
def sameRepr (t u : Ty) : Bool :=
  t == u || match t.pointee?, u.pointee? with
    | some a, some b => a == b
    | _, _ => false

/-! ## Text -/

mutual

/-- The text of a type. Structs and classes are written by name alone. -/
def render : Ty → String
  | .void => "void"
  | .bool => "bool"
  | .int bits signed => (if signed then "i" else "u") ++ toString bits
  | .float .f32 => "f32"
  | .float .f64 => "f64"
  | .pointer t mutable => render t ++ (if mutable then "&" else "*")
  | .array t len => "[" ++ render t ++ ": " ++ toString len ++ "]"
  | .struct name _ => name
  | .object name _ _ => name
  | .tuple members => "(" ++ ", ".intercalate (renderList members) ++ ")"
  | .slice t mutable => "[" ++ (if mutable then "mut " else "") ++ render t ++ ":]"
  | .dynArray t => "[" ++ render t ++ "]"
  | .string => "string"
  | .any => "any"
  | .range => "range"
  | .enum name _ => "enum " ++ name
  | .union name _ => "union " ++ name
  | .rawUnion name _ => "raw union " ++ name
  | .function params ret variadic =>
    let fixed := renderList params
    "fn(" ++ ", ".intercalate (if variadic then fixed ++ ["..."] else fixed) ++ ") -> " ++ render ret

/-- The texts of several types. -/
def renderList : List Ty → List String
  | [] => []
  | t :: ts => render t :: renderList ts

end

instance : ToString Ty := ⟨render⟩

end Ty

end PackedIR
