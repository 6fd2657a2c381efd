/-
Members of packed layouts.

Three definitions say what the members of a type are: `memberTypes` lists them, a
`Layout` places them, and `memberTy?` and `fieldTy` are what a builder asks for the
type of a member. Here they are compared. A member of a layout has the type that is
listed at its index and lies inside its aggregate, and the builder's answers are the
listed types too, except that the data pointer of an immutable slice is announced as a
mutable one.
-/
import PackedIR.Proofs.Values
import PackedIR.Builder

set_option autoImplicit false

namespace PackedIR

/-! ## Sizes -/

namespace Ty

theorem size_le_sizeMax {t : Ty} {ts : List Ty} (h : t ∈ ts) : t.size ≤ sizeMax ts := by
  induction ts with
  | nil => exact absurd h List.not_mem_nil
  | cons u us ih =>
    rw [sizeMax]
    rcases List.mem_cons.mp h with rfl | h
    · exact Nat.le_max_left _ _
    · exact Nat.le_trans (ih h) (Nat.le_max_right _ _)

/-- The members up to and including one of them fit into the sum of all. -/
theorem sizeSum_take_add_le {ts : List Ty} {i : Nat} {t : Ty} (h : ts[i]? = some t) :
    sizeSum (ts.take i) + t.size ≤ sizeSum ts := by
  induction ts generalizing i with
  | nil => simp at h
  | cons u us ih =>
    cases i with
    | zero =>
      rw [List.getElem?_cons_zero, Option.some.injEq] at h
      subst h
      simp only [List.take_zero, sizeSum]
      omega
    | succ i =>
      rw [List.getElem?_cons_succ] at h
      have hrest := ih h
      simp only [List.take_succ_cons, sizeSum]
      omega

/-- Members are laid out one after the other, or all over each other, or as copies of one type. -/
inductive Packing : Ty → Prop where
  | sequence {t : Ty} (members : (Layout.of t).members = match Member.backToBack 0 t.memberTypes with
      | [] => .scalar
      | members => .fields members)
      (size : t.memberTypes ≠ [] → t.size = sizeSum t.memberTypes) : Packing t
  | overlay {t : Ty} (offset : Nat)
      (members : (Layout.of t).members = .fields (Member.overlaid offset t.memberTypes))
      (size : t.size = offset + sizeMax t.memberTypes) : Packing t
  | copies {t : Ty} (elem : Ty) (len : Nat) (members : (Layout.of t).members = .array elem elem.size len)
      (types : t.memberTypes = List.replicate len elem) (size : t.size = elem.size * len) : Packing t

theorem packing (t : Ty) : Packing t := by
  cases t with
  | array elem len => exact .copies elem len rfl rfl (by simp only [Ty.size])
  | union name variants => exact .overlay wordSize rfl (by simp only [Ty.size, memberTypes])
  | rawUnion name variants =>
    exact .overlay 0 rfl (by simp only [Ty.size, memberTypes, Nat.zero_add])
  | void | bool | int | float | pointer | function =>
    exact .sequence rfl fun h => absurd rfl h
  | struct | object | tuple | slice | dynArray | string | any | range | enum =>
    exact .sequence rfl fun _ => by
      simp [Ty.size, memberTypes, sizeSum, wordSize, anyDataSize]

end Ty

/-! ## Layouts -/

namespace Member

theorem getElem?_backToBack (offset : Nat) (ts : List Ty) (i : Nat) :
    (backToBack offset ts)[i]? =
      ts[i]?.map fun t => ⟨offset + Ty.sizeSum (ts.take i), t.size, t⟩ := by
  induction ts generalizing offset i with
  | nil => simp [backToBack]
  | cons t ts ih =>
    cases i with
    | zero => simp [backToBack, Ty.sizeSum]
    | succ i =>
      simp only [backToBack, List.getElem?_cons_succ, ih, List.take_succ_cons, Ty.sizeSum,
        Nat.add_assoc]

end Member

namespace Layout

/-- A member has the type that is listed for it, the size of that type, and lies inside. -/
theorem member?_eq_some {t : Ty} {i : Nat} {m : Member} (h : (of t).member? i = some m) :
    t.memberTypes[i]? = some m.ty ∧ m.size = m.ty.size ∧ m.offset + m.ty.size ≤ t.size := by
  unfold member? at h
  cases t.packing with
  | sequence hmembers hsize =>
    rw [hmembers] at h
    cases hback : Member.backToBack 0 t.memberTypes with
    | nil => simp [hback] at h
    | cons first others =>
      simp only [hback] at h
      rw [← hback, Member.getElem?_backToBack, Option.map_eq_some_iff] at h
      obtain ⟨u, hu, rfl⟩ := h
      -- Its offset is the size of all members before it.
      refine ⟨hu, rfl, ?_⟩
      have hne : t.memberTypes ≠ [] := by
        intro hnil
        simp [hnil] at hu
      rw [hsize hne, Nat.zero_add]
      exact Ty.sizeSum_take_add_le hu
  | overlay offset hmembers hsize =>
    rw [hmembers] at h
    simp only [Member.overlaid, List.getElem?_map, Option.map_eq_some_iff] at h
    obtain ⟨u, hu, rfl⟩ := h
    -- All variants start at one offset, and there is room for the largest.
    have hle := Ty.size_le_sizeMax (List.mem_of_getElem? hu)
    exact ⟨hu, rfl, by rw [hsize]; dsimp only; omega⟩
  | copies elem len hmembers htypes hsize =>
    rw [hmembers] at h
    simp only at h
    split at h
    · rename_i hlt
      cases h
      refine ⟨by simp [htypes, hlt], rfl, ?_⟩
      rw [hsize]
      calc i * elem.size + elem.size = (i + 1) * elem.size := (Nat.succ_mul i elem.size).symm
        _ ≤ len * elem.size := Nat.mul_le_mul_right _ hlt
        _ = elem.size * len := Nat.mul_comm _ _
    · cases h

end Layout

/-! ## The builder's view -/

namespace Ty

/-- The member that a builder finds is the one that is listed. -/
theorem memberTypes_of_memberTy? {ty member : Ty} {i : Nat} (h : ty.memberTy? i = some member) :
    ty.memberTypes[i]? = some member := by
  cases ty with
  | struct | tuple | union | rawUnion => exact h
  | object name fields isAbstract =>
    cases i with
    | zero => exact h
    | succ i => exact h
  | array elem len =>
    simp only [memberTy?] at h
    split at h
    · rename_i hlt
      rw [← h]
      simp [memberTypes, hlt]
    · cases h
  | _ => simp [memberTy?] at h

/-- Where both a builder and a layout have a member, they agree on its type. -/
theorem memberTy?_eq_member? {ty member : Ty} {i : Nat} {m : Member}
    (h : ty.memberTy? i = some member) (hm : (Layout.of ty).member? i = some m) :
    m.ty = member := by
  have hlisted := (Layout.member?_eq_some hm).1
  rw [memberTypes_of_memberTy? h, Option.some.injEq] at hlisted
  exact hlisted.symm

@[simp] theorem sameRepr_refl (t : Ty) : t.sameRepr t = true := by
  simp [sameRepr]

theorem sameRepr_pointer (t : Ty) (mutable mutable' : Bool) :
    (Ty.pointer t mutable).sameRepr (.pointer t mutable') = true := by
  simp [sameRepr, pointee?]

/-- Types of the same representation have the same size. -/
theorem size_eq_of_sameRepr {t u : Ty} (h : t.sameRepr u = true) : t.size = u.size := by
  unfold sameRepr at h
  rw [Bool.or_eq_true, beq_iff_eq] at h
  rcases h with rfl | h
  · rfl
  · -- Only pointers can differ, and all pointers have one size.
    cases t <;> cases u <;> simp [pointee?] at h
    simp only [Ty.size]

/-- The types of a container family. -/
theorem eq_of_accepts {c : Container} {ty : Ty} (h : c.accepts ty = true) :
    match c with
    | .dynArray => (∃ elem, ty = .dynArray elem) ∨ ty = .string
    | .slice => ∃ elem mutable, ty = .slice elem mutable
    | .any => ty = .any
    | .range => ty = .range
    | .enum => ∃ name caseTy, ty = .enum name caseTy
    | .union => ∃ name variants, ty = .union name variants := by
  unfold Container.accepts at h
  split at h
  · exact .inl ⟨_, rfl⟩
  · exact .inr rfl
  · exact ⟨_, _, rfl⟩
  · rfl
  · rfl
  · exact ⟨_, _, rfl⟩
  · exact ⟨_, _, rfl⟩
  · cases h

/-- A getter's announced type and the slot that is read agree up to the mutability of pointers. -/
theorem fieldTy_sameRepr {field : Field} {ty announced : Ty} {m : Member}
    (h : ty.fieldTy (.getField field) = .ok announced) (haccepts : field.container.accepts ty = true)
    (hm : (Layout.of ty).member? field.slot = some m) : m.ty.sameRepr announced = true := by
  have hlisted := (Layout.member?_eq_some hm).1
  have hty := eq_of_accepts haccepts
  generalize m.ty = found at hlisted
  cases field with
  | arrayData | arrayLength | arrayCapacity | arrayRefCount =>
    rcases hty with ⟨elem, rfl⟩ | rfl
    · cases h
      cases hlisted
      exact sameRepr_refl _
    · cases h
      cases hlisted
      exact sameRepr_refl _
  | sliceData =>
    obtain ⟨elem, mutable, rfl⟩ := hty
    cases h
    cases hlisted
    -- The only slot whose type is announced with a mutability of its own.
    exact sameRepr_pointer elem mutable true
  | sliceLength =>
    obtain ⟨elem, mutable, rfl⟩ := hty
    cases h
    cases hlisted
    exact sameRepr_refl _
  | anyTypeId | anyRefCount | anyData | rangeLower | rangeUpper | rangeStep =>
    obtain rfl : ty = _ := hty
    cases h
    cases hlisted
    exact sameRepr_refl _
  | enumIndex | enumValue =>
    obtain ⟨name, caseTy, rfl⟩ := hty
    cases h
    cases hlisted
    exact sameRepr_refl _

/-- A member is never of the type of its aggregate. -/
theorem ne_of_mem_memberTypes {ty member : Ty} (h : member ∈ ty.memberTypes) : member ≠ ty := by
  -- A type is a finite tree, and its members are smaller than itself.
  rintro rfl
  cases member with
  | struct name fields =>
    have hlt := List.sizeOf_lt_of_mem (show _ ∈ fields from h)
    simp only [struct.sizeOf_spec] at hlt
    omega
  | object name fields base =>
    rcases List.mem_cons.mp h with h | h
    · cases h
    · have hlt := List.sizeOf_lt_of_mem h
      simp only [object.sizeOf_spec] at hlt
      omega
  | tuple members =>
    have hlt := List.sizeOf_lt_of_mem (show _ ∈ members from h)
    simp only [tuple.sizeOf_spec] at hlt
    omega
  | union name variants =>
    have hlt := List.sizeOf_lt_of_mem (show _ ∈ variants from h)
    simp only [union.sizeOf_spec] at hlt
    omega
  | rawUnion name variants =>
    have hlt := List.sizeOf_lt_of_mem (show _ ∈ variants from h)
    simp only [rawUnion.sizeOf_spec] at hlt
    omega
  | array elem len =>
    have heq := congrArg sizeOf (List.eq_of_mem_replicate h)
    simp only [array.sizeOf_spec] at heq
    omega
  | «enum» name caseTy =>
    have hmem : enum name caseTy = word ∨ enum name caseTy = caseTy := by
      simpa [memberTypes] using h
    rcases hmem with heq | heq
    · cases heq
    · have hsize := congrArg sizeOf heq
      simp only [enum.sizeOf_spec] at hsize
      omega
  | _ => simp [memberTypes, mutPtrTo, word, uword] at h

end Ty

end PackedIR
