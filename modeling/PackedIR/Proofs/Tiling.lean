/-
Packed layouts tile their types.

Size, members and layout of a type are three definitions, each with its own cases. Here they are
held against each other, for all types at once and so for types in types. A type that is no union is
the row of its members: each begins where the ones before it end, the last one ends where the type
does, and so every byte belongs to just one member. Arrays compute offsets from a stride and come
out the same. The variants of a union lie over each other, and the largest one decides the size.
-/
import Mathlib.Algebra.GroupWithZero.Nat
import Mathlib.Logic.ExistsUnique
import PackedIR.Proofs.Lenses

set_option autoImplicit false

namespace PackedIR

/-! ## Sums and maxima of sizes -/

namespace Ty

theorem sizeSum_eq_sum (ts : List Ty) : sizeSum ts = (ts.map Ty.size).sum := by
  induction ts with
  | nil => rfl
  | cons t ts ih => rw [sizeSum, ih, List.map_cons, List.sum_cons]

/-- The largest size is that of a member of the list. -/
theorem exists_size_eq_sizeMax {ts : List Ty} (h : ts ≠ []) :
    ∃ (i : Nat) (t : Ty), ts[i]? = some t ∧ t.size = sizeMax ts := by
  induction ts with
  | nil => exact absurd rfl h
  | cons u us ih =>
    by_cases hlarger : sizeMax us ≤ u.size
    · exact ⟨0, u, rfl, by rw [sizeMax, Nat.max_eq_left hlarger]⟩
    · -- Something in the rest is larger, so the rest is not empty.
      have hne : us ≠ [] := by
        rintro rfl
        simp [sizeMax] at hlarger
      obtain ⟨i, t, ht, hsize⟩ := ih hne
      refine ⟨i + 1, t, ht, ?_⟩
      rw [sizeMax, Nat.max_eq_right (by omega), hsize]

/-- Every byte of a row of members is a byte of one of them. -/
theorem exists_take_le_lt {ts : List Ty} {k : Nat} (h : k < sizeSum ts) :
    ∃ (i : Nat) (t : Ty), ts[i]? = some t ∧ sizeSum (ts.take i) ≤ k ∧
      k < sizeSum (ts.take i) + t.size := by
  induction ts generalizing k with
  | nil =>
    rw [sizeSum] at h
    omega
  | cons u us ih =>
    rw [sizeSum] at h
    by_cases hfirst : k < u.size
    · refine ⟨0, u, rfl, ?_⟩
      rw [List.take_zero, sizeSum]
      omega
    · obtain ⟨i, t, ht, hle, hlt⟩ := ih (k := k - u.size) (by omega)
      refine ⟨i + 1, t, ht, ?_⟩
      rw [List.take_succ_cons, sizeSum]
      omega

/-- A type with members that is no union is as large as its members together. -/
theorem size_eq_sizeSum {t : Ty} (hunion : t.isUnion = false) (hne : t.memberTypes ≠ []) :
    t.size = sizeSum t.memberTypes := by
  cases t with
  | union | rawUnion => cases hunion
  | void | bool | int | float | pointer | function => exact absurd rfl hne
  | _ => exact size_of_isAggregate rfl

end Ty

/-! ## Members of a layout -/

/-- The variants lie over each other from `offset` on, inside the type, and one reaches its end. -/
structure Overlays (t : Ty) (offset : Nat) (variants : List Ty) : Prop where
  placed : ∀ i m, (Layout.of t).member? i = some m →
    variants[i]? = some m.ty ∧ m.size = m.ty.size ∧ m.offset = offset
  inside : ∀ i m, (Layout.of t).member? i = some m → m.offset + m.size ≤ t.size
  reached : variants ≠ [] → ∃ i m, (Layout.of t).member? i = some m ∧ m.offset + m.size = t.size

/-- What the packed layout of a type is like. -/
structure Tiles (t : Ty) : Prop where
  size : (Layout.of t).size = t.size
  count : (Layout.of t).memberCount = t.memberTypes.length
  missing : ∀ i, (Layout.of t).member? i = none ↔ (Layout.of t).memberCount ≤ i
  /-- A member has the type that is listed, its size, and begins where the ones before it end. -/
  placed : t.isUnion = false → ∀ i m, (Layout.of t).member? i = some m →
    t.memberTypes[i]? = some m.ty ∧ m.size = m.ty.size ∧
      m.offset = ((t.memberTypes.take i).map Ty.size).sum
  /-- The last member ends where the type does. -/
  filled : t.isUnion = false → 0 < (Layout.of t).memberCount →
    ∃ m, (Layout.of t).member? ((Layout.of t).memberCount - 1) = some m ∧
      m.offset + m.size = t.size
  /-- Every byte belongs to just one member. -/
  covered : t.isUnion = false → 0 < (Layout.of t).memberCount → ∀ k < t.size,
    ∃! i, ∃ m, (Layout.of t).member? i = some m ∧ m.offset ≤ k ∧ k < m.offset + m.size
  /-- Multiples of a stride are the sums of the sizes before. -/
  strided : ∀ elem len, t = .array elem len →
    (∀ i, (Layout.of t).member? i = (Member.backToBack 0 t.memberTypes)[i]?) ∧
    ∀ i < len, (Layout.of t).member? i = some ⟨i * elem.size, elem.size, elem⟩
  tagged : ∀ name variants, t = .union name variants → Overlays t 8 variants
  raw : ∀ name variants, t = .rawUnion name variants → Overlays t 0 variants

namespace Layout

variable {t : Ty} {i : Nat} {m : Member}

/-- The members that lie over each other are the variants, in order. -/
theorem overlays {offset : Nat}
    (members : (of t).members = .fields (Member.overlaid offset t.memberTypes))
    (size : t.size = offset + Ty.sizeMax t.memberTypes) : Overlays t offset t.memberTypes := by
  have hmember (i : Nat) :
      (of t).member? i = t.memberTypes[i]?.map fun u => ⟨offset, u.size, u⟩ := by
    unfold member?
    rw [members]
    exact List.getElem?_map
  refine ⟨fun i m hm => ?_, fun i m hm => ?_, fun hne => ?_⟩
  · rw [hmember, Option.map_eq_some_iff] at hm
    obtain ⟨u, hu, rfl⟩ := hm
    exact ⟨hu, rfl, rfl⟩
  · obtain ⟨_, hsize, hinside⟩ := member?_eq_some hm
    rwa [hsize]
  · obtain ⟨i, u, hu, hmax⟩ := Ty.exists_size_eq_sizeMax hne
    refine ⟨i, ⟨offset, u.size, u⟩, ?_, ?_⟩
    · rw [hmember, hu]
      rfl
    · rw [size, hmax]

theorem memberCount_eq_length (t : Ty) : (of t).memberCount = t.memberTypes.length := by
  by_cases hunion : t.isUnion = false
  · exact memberCount_eq hunion
  · cases t with
    | union | rawUnion => exact List.length_map _
    | _ => exact absurd rfl hunion

theorem member?_eq_none_iff (t : Ty) (i : Nat) :
    (of t).member? i = none ↔ (of t).memberCount ≤ i := by
  rw [memberCount_eq_length]
  by_cases hunion : t.isUnion = false
  · rw [member?_eq hunion, Option.map_eq_none_iff, List.getElem?_eq_none_iff]
  · cases t with
    | union name variants | rawUnion name variants =>
      change (Member.overlaid _ variants)[i]? = none ↔ variants.length ≤ i
      rw [List.getElem?_eq_none_iff, Member.overlaid, List.length_map]
    | _ => exact absurd rfl hunion

theorem member?_of_listed {u : Ty} (hunion : t.isUnion = false) (hu : t.memberTypes[i]? = some u) :
    (of t).member? i = some ⟨Ty.sizeSum (t.memberTypes.take i), u.size, u⟩ := by
  rw [member?_eq hunion, hu]
  rfl

theorem memberTypes_ne_nil (h : 0 < (of t).memberCount) : t.memberTypes ≠ [] := by
  rw [memberCount_eq_length] at h
  exact List.ne_nil_of_length_pos h

/-- The last member ends where all members together do. -/
theorem exists_last (hunion : t.isUnion = false) (h : 0 < (of t).memberCount) :
    ∃ m, (of t).member? ((of t).memberCount - 1) = some m ∧ m.offset + m.size = t.size := by
  have hne := memberTypes_ne_nil h
  rw [memberCount_eq_length] at h ⊢
  have hlast : t.memberTypes[t.memberTypes.length - 1]? = some (t.memberTypes.getLast hne) := by
    rw [List.getLast_eq_getElem, List.getElem?_eq_getElem]
  refine ⟨_, member?_of_listed hunion hlast, ?_⟩
  -- The members before the last one and the last one are all members.
  have hsplit := congrArg (fun ts => (ts.map Ty.size).sum) (List.dropLast_concat_getLast hne)
  simp only [List.map_append, List.sum_append, List.map_cons, List.map_nil, List.sum_cons,
    List.sum_nil, Nat.add_zero] at hsplit
  dsimp only
  rw [Ty.size_eq_sizeSum hunion hne, Ty.sizeSum_eq_sum, Ty.sizeSum_eq_sum, ← hsplit,
    List.dropLast_eq_take]

/-- Some member has the byte, and no two members have a byte in common. -/
theorem existsUnique_member (hunion : t.isUnion = false) (h : 0 < (of t).memberCount) {k : Nat}
    (hk : k < t.size) :
    ∃! i, ∃ m, (of t).member? i = some m ∧ m.offset ≤ k ∧ k < m.offset + m.size := by
  rw [Ty.size_eq_sizeSum hunion (memberTypes_ne_nil h)] at hk
  obtain ⟨i, u, hu, hle, hlt⟩ := Ty.exists_take_le_lt hk
  have hi := member?_of_listed hunion hu
  refine ⟨i, ⟨_, hi, hle, hlt⟩, ?_⟩
  -- A second member with this byte would overlap the first.
  rintro j ⟨n, hn, hnle, hnlt⟩
  refine Classical.byContradiction fun hne => ?_
  have hapart := apart hunion hn hi hne
  dsimp only at hapart
  omega

end Layout

/-- Size, members and layout of every type agree: members of aggregates lie in a row that fills the
type, and variants of unions lie over each other. -/
theorem packed_layouts_tile (t : Ty) : Tiles t where
  size := rfl
  count := Layout.memberCount_eq_length t
  missing := Layout.member?_eq_none_iff t
  placed hunion i m hm := by
    obtain ⟨hlisted, hsize, _⟩ := Layout.member?_eq_some hm
    refine ⟨hlisted, hsize, ?_⟩
    rw [Layout.offset_eq hunion hm, Ty.sizeSum_eq_sum]
  filled hunion h := Layout.exists_last hunion h
  covered hunion h _ hk := Layout.existsUnique_member hunion h hk
  strided elem len ht := by
    subst ht
    constructor
    · intro i
      rw [Layout.member?_eq rfl, Member.getElem?_backToBack]
      simp only [Nat.zero_add]
    · intro i hi
      exact if_pos hi
  tagged name variants ht := by
    subst ht
    exact Layout.overlays rfl (by simp only [Ty.size, Ty.memberTypes, wordSize])
  raw name variants ht := by
    subst ht
    exact Layout.overlays rfl (by simp only [Ty.size, Ty.memberTypes, Nat.zero_add])

/-- Arrays of tuples and a tagged union inside a structure of 35 bytes. -/
theorem packed_layouts_tile_nested :
    let pair : Ty := .tuple [Ty.u16, Ty.u32]
    let choice : Ty := .union "choice" [Ty.u8, Ty.f64]
    let t : Ty := .struct "nested" [Ty.u8, .array pair 3, choice]
    (∃ m, (Layout.of t).member? 2 = some m ∧ m.offset + m.size = 35) ∧
    (∃! i, ∃ m, (Layout.of t).member? i = some m ∧ m.offset ≤ 18 ∧ 18 < m.offset + m.size) ∧
    (Layout.of (.array pair 3)).member? 2 = some ⟨12, 6, pair⟩ ∧
    (∃ i m, (Layout.of choice).member? i = some m ∧ m.offset + m.size = 16) ∧
    (Layout.of choice).member? 2 = none := by
  intro pair choice t
  have ht := packed_layouts_tile t
  have hchoice := packed_layouts_tile choice
  refine ⟨ht.filled rfl (by decide), ht.covered rfl (by decide) 18 (by decide), ?_, ?_, ?_⟩
  · exact ((packed_layouts_tile (.array pair 3)).strided pair 3 rfl).2 2 (by decide)
  · exact (hchoice.tagged _ _ rfl).reached (by simp)
  · exact (hchoice.missing 2).mpr (by decide)

end PackedIR
