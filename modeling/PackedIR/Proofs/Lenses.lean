/-
Members as lenses.

Taking a member out of an aggregate and replacing one are functions on values. The instructions for
aggregates and containers evaluate their operands and then apply one of these functions, whether the
member is given by number or by the name of a field, and for the members of a type they obey the
laws of lenses: what is put in is found, nothing else changes, and the last one counts. All of it
comes down to cutting bytes out of a list and putting bytes into it, at places that do not overlap
because the layout packs members one after the other.

A tagged union is the exception. Its variants lie over each other behind the variant id, so
replacing the payload writes two members, and what is left of a longer payload stays.

No accessor changes what it works on. Evaluating operands adds to the caches and to storage, and
binding the result changes the one local that the instruction names.
-/
import PackedIR.Proofs.RoundTrip

set_option autoImplicit false

namespace PackedIR

/-! ## Parts of byte lists -/

namespace Bytes

variable {bs new new' : Bytes} {offset offset' size : Nat}

/-- The `size` bytes from `offset` on. -/
def slice (bs : Bytes) (offset size : Nat) : Bytes := (bs.drop offset).take size

/-- The bytes with those from `offset` on replaced. -/
def splice (bs : Bytes) (offset : Nat) (new : Bytes) : Bytes :=
  bs.take offset ++ new ++ bs.drop (offset + new.length)

theorem length_slice (h : offset + size ≤ bs.length) : (bs.slice offset size).length = size := by
  rw [slice, List.length_take, List.length_drop]
  omega

theorem length_splice (h : offset + new.length ≤ bs.length) :
    (bs.splice offset new).length = bs.length := by
  rw [splice, List.length_append, List.length_append, List.length_take, List.length_drop]
  omega

theorem getElem?_slice (bs : Bytes) (offset size k : Nat) :
    (bs.slice offset size)[k]? = if k < size then bs[offset + k]? else none := by
  rw [slice, List.getElem?_take]
  split
  · rw [List.getElem?_drop]
  · rfl

theorem getElem?_splice (h : offset + new.length ≤ bs.length) (k : Nat) :
    (bs.splice offset new)[k]? =
      if offset ≤ k ∧ k < offset + new.length then new[k - offset]? else bs[k]? := by
  have hbefore : (bs.take offset).length = offset := by
    rw [List.length_take]
    omega
  rw [splice, List.getElem?_append, List.getElem?_append, List.length_append, hbefore]
  by_cases hlow : k < offset
  · rw [if_pos (by omega), if_pos hlow, if_neg (by omega), List.getElem?_take_of_lt hlow]
  · by_cases hhigh : k < offset + new.length
    · rw [if_pos hhigh, if_neg hlow, if_pos ⟨by omega, hhigh⟩]
    · rw [if_neg hhigh, if_neg (by omega), List.getElem?_drop]
      congr 1
      omega

/-- What has been put in is found again. -/
theorem slice_splice_self (h : offset + new.length ≤ bs.length) :
    (bs.splice offset new).slice offset new.length = new := by
  apply List.ext_getElem?
  intro k
  rw [getElem?_slice, getElem?_splice h]
  by_cases hk : k < new.length
  · rw [if_pos hk, if_pos (by omega), Nat.add_sub_cancel_left]
  · rw [if_neg hk, List.getElem?_eq_none (by omega)]

/-- Other places are as before. -/
theorem slice_splice_of_apart (h : offset + new.length ≤ bs.length)
    (hapart : offset' + size ≤ offset ∨ offset + new.length ≤ offset') :
    (bs.splice offset new).slice offset' size = bs.slice offset' size := by
  apply List.ext_getElem?
  intro k
  rw [getElem?_slice, getElem?_slice, getElem?_splice h]
  by_cases hk : k < size
  · rw [if_pos hk, if_pos hk, if_neg (by omega)]
  · rw [if_neg hk, if_neg hk]

/-- Putting in what is there changes nothing. -/
theorem splice_slice (h : offset + size ≤ bs.length) :
    bs.splice offset (bs.slice offset size) = bs := by
  have hlen := length_slice h
  apply List.ext_getElem?
  intro k
  rw [getElem?_splice (by omega), hlen]
  split
  · rw [getElem?_slice, if_pos (by omega)]
    congr 1
    omega
  · rfl

/-- What is put in last stays. -/
theorem splice_splice (h : offset + new.length ≤ bs.length) (hlen : new'.length = new.length) :
    (bs.splice offset new).splice offset new' = bs.splice offset new' := by
  have hwhole := length_splice h
  apply List.ext_getElem?
  intro k
  rw [getElem?_splice (by omega), getElem?_splice h, getElem?_splice (by omega), hlen]
  split <;> rfl

/-- At different places the order does not matter. -/
theorem splice_comm (h : offset + new.length ≤ bs.length) (h' : offset' + new'.length ≤ bs.length)
    (hapart : offset + new.length ≤ offset' ∨ offset' + new'.length ≤ offset) :
    (bs.splice offset new).splice offset' new' = (bs.splice offset' new').splice offset new := by
  have hwhole := length_splice h
  have hwhole' := length_splice h'
  apply List.ext_getElem?
  intro k
  rw [getElem?_splice (by omega), getElem?_splice h, getElem?_splice (by omega), getElem?_splice h']
  by_cases hk : offset ≤ k ∧ k < offset + new.length
  · rw [if_pos hk, if_pos hk, if_neg (by omega)]
  · rw [if_neg hk, if_neg hk]
/-- What lies behind is as before. -/
theorem drop_splice {n : Nat} (h : offset + new.length ≤ bs.length)
    (hn : offset + new.length ≤ n) : (bs.splice offset new).drop n = bs.drop n := by
  apply List.ext_getElem?
  intro k
  rw [List.getElem?_drop, List.getElem?_drop, getElem?_splice h, if_neg (by omega)]

end Bytes

/-! ## Members of a layout -/

/-- The types whose bytes are those of their members, one after the other. -/
def Ty.isAggregate : Ty → Bool
  | .array .. | .struct .. | .object .. | .tuple .. => true
  | .slice .. | .dynArray .. | .string | .any | .range | .enum .. => true
  | _ => false

theorem Ty.isUnion_of_isAggregate {ty : Ty} (h : ty.isAggregate = true) : ty.isUnion = false := by
  cases ty <;> simp_all [isAggregate, isUnion]

theorem Ty.size_of_isAggregate {ty : Ty} (h : ty.isAggregate = true) :
    ty.size = sizeSum ty.memberTypes := by
  cases ty with
  | array elem len =>
    rw [memberTypes, sizeSum_replicate, Ty.size, Nat.mul_comm]
  | struct | object | tuple | slice | dynArray | string | any | range | enum =>
    simp [Ty.size, memberTypes, sizeSum, wordSize, anyDataSize]
  | void | bool | int | float | pointer | function | union | rawUnion => cases h

namespace Layout

variable {ty : Ty} {i j : Nat} {m n : Member}

theorem memberCount_eq (hunion : ty.isUnion = false) :
    (of ty).memberCount = ty.memberTypes.length := by
  have hlength (offset : Nat) (ts : List Ty) : (Member.backToBack offset ts).length = ts.length := by
    induction ts generalizing offset with
    | nil => rfl
    | cons t ts ih => rw [Member.backToBack, List.length_cons, List.length_cons, ih]
  have hsequence (harray : ∀ elem len, ty ≠ .array elem len) :
      (of ty).memberCount = (Member.backToBack 0 ty.memberTypes).length := by
    unfold memberCount
    rw [members_eq hunion harray]
    cases Member.backToBack 0 ty.memberTypes <;> rfl
  cases ty with
  | union | rawUnion => cases hunion
  | array elem len => exact List.length_replicate.symm
  | _ => rw [hsequence (by simp), hlength]

/-- An earlier member ends where a later one begins, or before. -/
theorem offset_add_size_le (hunion : ty.isUnion = false) (hi : (of ty).member? i = some m)
    (hj : (of ty).member? j = some n) (hlt : i < j) : m.offset + m.size ≤ n.offset := by
  obtain ⟨hlisted, hsize, _⟩ := member?_eq_some hi
  rw [offset_eq hunion hi, offset_eq hunion hj, hsize]
  have htake : (ty.memberTypes.take j)[i]? = some m.ty := by
    rw [List.getElem?_take_of_lt hlt, hlisted]
  have hle := Ty.sizeSum_take_add_le htake
  rwa [List.take_take, Nat.min_eq_left (Nat.le_of_lt hlt)] at hle

/-- Different members do not overlap. -/
theorem apart (hunion : ty.isUnion = false) (hi : (of ty).member? i = some m)
    (hj : (of ty).member? j = some n) (hne : i ≠ j) :
    m.offset + m.size ≤ n.offset ∨ n.offset + n.size ≤ m.offset := by
  rcases Nat.lt_or_gt_of_ne hne with hlt | hlt
  · exact .inl (offset_add_size_le hunion hi hj hlt)
  · exact .inr (offset_add_size_le hunion hj hi hlt)

end Layout

/-! ## Taking out and putting in

First for any two members, wherever they come from; what the layout adds is that its members are
inside the aggregate and apart from each other. -/

namespace Value

variable {a b c v w x : Value} {ty : Ty} {m n : Member}

theorem getMember_eq (ha : a.HasTy ty) (hinside : m.offset + m.ty.size ≤ ty.size) :
    a.getMember m = .ok { ty := m.ty, bytes := a.bytes.slice m.offset m.ty.size } :=
  getMember_eq_ok_iff.mpr ⟨by rw [ha.2]; exact hinside, rfl⟩

theorem setMember_eq (ha : a.HasTy ty) (hinside : m.offset + m.size ≤ ty.size)
    (hv : v.size = m.size) :
    a.setMember m v = .ok { ty, bytes := a.bytes.splice m.offset v.bytes } := by
  obtain ⟨rfl, hsize⟩ := ha
  refine setMember_eq_ok_iff.mpr ⟨hv.symm, hsize.symm, ?_, rfl⟩
  rw [hv, hsize]
  exact hinside

/-- A member is replaced only by a value of its size. -/
theorem setMember_of_size_ne (a : Value) (hv : v.size ≠ m.size) :
    a.setMember m v = raise (.sizeMismatch m.size v.size) := by
  unfold setMember checkSize
  rw [if_neg (Ne.symm hv)]
  rfl

/-- A member that has been replaced was inside, and its bytes are replaced. -/
theorem setMember_eq_ok (h : a.setMember m v = .ok b) :
    a.HasTy a.ty ∧ v.size = m.size ∧ m.offset + v.bytes.length ≤ a.bytes.length ∧
      b = { ty := a.ty, bytes := a.bytes.splice m.offset v.bytes } := by
  obtain ⟨hv, hwhole, hinside, rfl⟩ := setMember_eq_ok_iff.mp h
  exact ⟨⟨rfl, hwhole.symm⟩, hv.symm, hinside, rfl⟩

theorem getMember_setMember (hm : m.size = m.ty.size) (h : a.setMember m v = .ok b) :
    b.getMember m = .ok { ty := m.ty, bytes := v.bytes } := by
  have hb := hasTy_of_setMember h
  obtain ⟨ha, hv, hinside, rfl⟩ := setMember_eq_ok h
  have hsize : m.ty.size = v.bytes.length := by
    rw [← hm, ← hv]
    rfl
  rw [getMember_eq hb (by rw [← ha.2, hsize]; exact hinside), hsize,
    Bytes.slice_splice_self hinside]

theorem getMember_setMember_of_apart (h : a.setMember m v = .ok b)
    (hapart : m.offset + m.size ≤ n.offset ∨ n.offset + n.ty.size ≤ m.offset) :
    b.getMember n = a.getMember n := by
  obtain ⟨_, hv, hinside, rfl⟩ := setMember_eq_ok h
  rw [← hv] at hapart
  have hslice := Bytes.slice_splice_of_apart hinside hapart.symm
  unfold Bytes.slice at hslice
  unfold getMember readAt Value.size
  simp only [hslice, Bytes.length_splice hinside]

theorem setMember_getMember (hm : m.size = m.ty.size) (ha : a.HasTy ty)
    (h : a.getMember m = .ok x) : a.setMember m x = .ok (a.withOrigin .intermediate) := by
  obtain ⟨hinside, rfl⟩ := getMember_eq_ok_iff.mp h
  have hx : size { ty := m.ty, bytes := a.bytes.slice m.offset m.ty.size } = m.size :=
    (Bytes.length_slice hinside).trans hm.symm
  have hset := setMember_eq ha (by rw [hm, ← ha.2]; exact hinside) hx
  rw [Bytes.splice_slice hinside, ← ha.1] at hset
  exact hset

theorem setMember_setMember (h : a.setMember m v = .ok b) : b.setMember m w = a.setMember m w := by
  have hb := hasTy_of_setMember h
  obtain ⟨ha, hv, hinside, rfl⟩ := setMember_eq_ok h
  have hle : m.offset + m.size ≤ a.ty.size := by
    rw [← hv, ← ha.2]
    exact hinside
  by_cases hw : w.size = m.size
  · rw [setMember_eq hb hle hw, setMember_eq ha hle hw,
      Bytes.splice_splice hinside (hw.trans hv.symm)]
  · rw [setMember_of_size_ne _ hw, setMember_of_size_ne _ hw]

theorem setMember_comm (hapart : m.offset + m.size ≤ n.offset ∨ n.offset + n.size ≤ m.offset)
    (hm : a.setMember m v = .ok b) (hn : a.setMember n w = .ok c) :
    b.setMember n w = c.setMember m v := by
  have hb := hasTy_of_setMember hm
  have hc := hasTy_of_setMember hn
  obtain ⟨ha, hv, hinside, rfl⟩ := setMember_eq_ok hm
  obtain ⟨_, hw, hinside', rfl⟩ := setMember_eq_ok hn
  rw [← hv, ← hw] at hapart
  have hle : m.offset + m.size ≤ a.ty.size := by
    rw [← hv, ← ha.2]
    exact hinside
  have hle' : n.offset + n.size ≤ a.ty.size := by
    rw [← hw, ← ha.2]
    exact hinside'
  rw [setMember_eq hb hle' hw, setMember_eq hc hle hv, Bytes.splice_comm hinside hinside' hapart]

end Value

namespace Value

variable {a b v : Value} {ty : Ty} {i : Nat} {m : Member}

/-- Member `i` of a value. -/
def get (a : Value) (i : Nat) : Result Value := do
  a.getMember (← memberOf a.ty i)

/-- The value with member `i` replaced. -/
def set (a : Value) (i : Nat) (v : Value) : Result Value := do
  a.setMember (← memberOf a.ty i) v

theorem get_eq (ha : a.ty = ty) (hm : (Layout.of ty).member? i = some m) :
    a.get i = a.getMember m := by
  unfold get
  rw [ha, memberOf_eq hm]
  rfl

theorem set_eq (ha : a.ty = ty) (hm : (Layout.of ty).member? i = some m) :
    a.set i v = a.setMember m v := by
  unfold set
  rw [ha, memberOf_eq hm]
  rfl

/-- There is nothing to take out of a place where the layout has no member. -/
theorem get_of_none (ha : a.ty = ty) (hm : (Layout.of ty).member? i = none) :
    a.get i = raiseOperand (.noMember ty i) := by
  unfold get memberOf
  rw [ha, hm]
  rfl

/-- Only a member of the layout can be replaced. -/
theorem member?_of_set (ha : a.ty = ty) (h : a.set i v = .ok b) :
    ∃ m, (Layout.of ty).member? i = some m ∧ a.setMember m v = .ok b := by
  cases hm : (Layout.of ty).member? i with
  | none =>
    unfold set memberOf at h
    rw [ha, hm] at h
    cases h
  | some m =>
    rw [set_eq ha hm] at h
    exact ⟨m, rfl, h⟩

/-- The parts of a byte list that has the sizes of the types. -/
def parts (bytes : Bytes) : List Ty → List Value
  | [] => []
  | t :: ts => { ty := t, bytes := bytes.slice 0 t.size } :: parts (bytes.drop t.size) ts

theorem getElem?_parts (bytes : Bytes) (ts : List Ty) (i : Nat) :
    (parts bytes ts)[i]? =
      ts[i]?.map fun t => { ty := t, bytes := bytes.slice (Ty.sizeSum (ts.take i)) t.size } := by
  induction ts generalizing bytes i with
  | nil => rfl
  | cons t ts ih =>
    cases i with
    | zero => rfl
    | succ i =>
      simp only [parts, List.getElem?_cons_succ, ih, List.take_succ_cons, Ty.sizeSum, Bytes.slice,
        List.drop_drop]

theorem flatMap_parts {bytes : Bytes} {ts : List Ty} (h : bytes.length = Ty.sizeSum ts) :
    (parts bytes ts).flatMap Value.bytes = bytes := by
  induction ts generalizing bytes with
  | nil => exact (List.length_eq_zero_iff.mp h).symm
  | cons t ts ih =>
    rw [Ty.sizeSum] at h
    have hrest : (bytes.drop t.size).length = Ty.sizeSum ts := by
      rw [List.length_drop]
      omega
    rw [parts, List.flatMap_cons, ih hrest]
    exact List.take_append_drop t.size bytes

end Value

/-! ## The laws -/

/-- Members of values of a type are lenses. -/
structure MemberLaws (ty : Ty) : Prop where
  /-- Every member can be taken out. -/
  get : ∀ (a : Value) (i : Nat) (m : Member), a.HasTy ty → (Layout.of ty).member? i = some m →
    ∃ x, a.get i = .ok x ∧ x.HasTy m.ty
  /-- Every member can be replaced by a value of its size, -/
  set : ∀ (a v : Value) (i : Nat) (m : Member), a.HasTy ty → (Layout.of ty).member? i = some m →
    v.size = m.size → ∃ b, a.set i v = .ok b ∧ b.HasTy ty
  /-- and by no other. -/
  mismatch : ∀ (a v : Value) (i : Nat) (m : Member), a.HasTy ty →
    (Layout.of ty).member? i = some m → v.size ≠ m.size →
    a.set i v = raise (.sizeMismatch m.size v.size)
  /-- What is put in is found, under the type of the member. -/
  get_set : ∀ (a b v : Value) (i : Nat) (m : Member), a.HasTy ty →
    (Layout.of ty).member? i = some m → a.set i v = .ok b →
    b.get i = .ok { ty := m.ty, bytes := v.bytes }
  /-- The other members are as before. -/
  get_set_ne : ∀ (a b v : Value) (i j : Nat), a.HasTy ty → a.set i v = .ok b → i ≠ j →
    b.get j = a.get j
  /-- Putting in what is there changes nothing. -/
  set_get : ∀ (a x : Value) (i : Nat), a.HasTy ty → a.get i = .ok x →
    a.set i x = .ok (a.withOrigin .intermediate)
  /-- What is put in last counts. -/
  set_set : ∀ (a b v w : Value) (i : Nat), a.HasTy ty → a.set i v = .ok b →
    b.set i w = a.set i w
  /-- Different members can be replaced in either order. -/
  set_comm : ∀ (a b c v w : Value) (i j : Nat), a.HasTy ty → i ≠ j → a.set i v = .ok b →
    a.set j w = .ok c → b.set j w = c.set i v
  /-- There is nothing between the members. -/
  concat : ∀ (a : Value), a.HasTy ty → ∃ xs : List Value,
    xs.length = (Layout.of ty).memberCount ∧
    (∀ (i : Nat) (x : Value), xs[i]? = some x → a.get i = .ok x) ∧
    xs.flatMap Value.bytes = a.bytes

namespace Value

variable {a b c v w x : Value} {ty : Ty} {i j : Nat} {m n : Member}

theorem hasTy_of_set (ha : a.HasTy ty) (h : a.set i v = .ok b) : b.HasTy ty := by
  obtain ⟨m, _, hset⟩ := member?_of_set ha.1 h
  have hb := hasTy_of_setMember hset
  rwa [ha.1] at hb

theorem get_set_self (ha : a.HasTy ty) (hm : (Layout.of ty).member? i = some m)
    (h : a.set i v = .ok b) : b.get i = .ok { ty := m.ty, bytes := v.bytes } := by
  rw [get_eq (hasTy_of_set ha h).1 hm]
  rw [set_eq ha.1 hm] at h
  exact getMember_setMember (Layout.member?_eq_some hm).2.1 h

theorem get_set_of_ne (hunion : ty.isUnion = false) (ha : a.HasTy ty) (h : a.set i v = .ok b)
    (hne : i ≠ j) : b.get j = a.get j := by
  have hb := (hasTy_of_set ha h).1
  cases hn : (Layout.of ty).member? j with
  | none => rw [get_of_none hb hn, get_of_none ha.1 hn]
  | some n =>
    obtain ⟨m, hm, hset⟩ := member?_of_set ha.1 h
    have hapart := Layout.apart hunion hm hn hne
    rw [(Layout.member?_eq_some hn).2.1] at hapart
    rw [get_eq hb hn, get_eq ha.1 hn, getMember_setMember_of_apart hset hapart]

theorem set_get_self (ha : a.HasTy ty) (h : a.get i = .ok x) :
    a.set i x = .ok (a.withOrigin .intermediate) := by
  cases hm : (Layout.of ty).member? i with
  | none =>
    rw [get_of_none ha.1 hm] at h
    cases h
  | some m =>
    rw [get_eq ha.1 hm] at h
    rw [set_eq ha.1 hm]
    exact setMember_getMember (Layout.member?_eq_some hm).2.1 ha h

theorem set_set_self (ha : a.HasTy ty) (h : a.set i v = .ok b) : b.set i w = a.set i w := by
  obtain ⟨m, hm, hset⟩ := member?_of_set ha.1 h
  rw [set_eq (hasTy_of_set ha h).1 hm, set_eq ha.1 hm]
  exact setMember_setMember hset

theorem set_comm_of_ne (hunion : ty.isUnion = false) (ha : a.HasTy ty) (hne : i ≠ j)
    (hi : a.set i v = .ok b) (hj : a.set j w = .ok c) : b.set j w = c.set i v := by
  obtain ⟨m, hm, hset⟩ := member?_of_set ha.1 hi
  obtain ⟨n, hn, hset'⟩ := member?_of_set ha.1 hj
  rw [set_eq (hasTy_of_set ha hi).1 hn, set_eq (hasTy_of_set ha hj).1 hm]
  exact setMember_comm (Layout.apart hunion hm hn hne) hset hset'

/-- The members of an aggregate, one after the other, are its bytes. -/
theorem members_concat (hty : ty.isAggregate = true) (ha : a.HasTy ty) :
    ∃ xs : List Value, xs.length = (Layout.of ty).memberCount ∧
      (∀ (i : Nat) (x : Value), xs[i]? = some x → a.get i = .ok x) ∧
      xs.flatMap Value.bytes = a.bytes := by
  have hunion := Ty.isUnion_of_isAggregate hty
  have hget (i : Nat) (x : Value) (hx : (parts a.bytes ty.memberTypes)[i]? = some x) :
      a.get i = .ok x := by
    rw [getElem?_parts, Option.map_eq_some_iff] at hx
    obtain ⟨t, ht, rfl⟩ := hx
    have hm : (Layout.of ty).member? i =
        some ⟨Ty.sizeSum (ty.memberTypes.take i), t.size, t⟩ := by
      rw [Layout.member?_eq hunion, ht]
      rfl
    rw [get_eq ha.1 hm]
    exact getMember_eq ha (Layout.member?_eq_some hm).2.2
  have hlength (bytes : Bytes) (ts : List Ty) : (parts bytes ts).length = ts.length := by
    induction ts generalizing bytes with
    | nil => rfl
    | cons t ts ih => rw [parts, List.length_cons, List.length_cons, ih]
  refine ⟨parts a.bytes ty.memberTypes, ?_, hget, flatMap_parts ?_⟩
  · rw [hlength, Layout.memberCount_eq hunion]
  · exact ha.2.trans (Ty.size_of_isAggregate hty)

end Value

/-- Every aggregate or container that is no union has lawful members. -/
theorem Ty.memberLaws {ty : Ty} (hty : ty.isAggregate = true) : MemberLaws ty where
  get a i m ha hm := by
    have hget := Value.getMember_eq ha (Layout.member?_eq_some hm).2.2
    refine ⟨_, ?_, Value.hasTy_of_getMember hget⟩
    rw [Value.get_eq ha.1 hm, hget]
  set a v i m ha hm hv := by
    obtain ⟨_, hsize, hinside⟩ := Layout.member?_eq_some hm
    have hset := Value.setMember_eq ha (by rw [hsize]; exact hinside) hv
    rw [← Value.set_eq ha.1 hm] at hset
    exact ⟨_, hset, Value.hasTy_of_set ha hset⟩
  mismatch a v i m ha hm hv := by
    rw [Value.set_eq ha.1 hm]
    exact Value.setMember_of_size_ne a hv
  get_set a b v i m ha hm h := Value.get_set_self ha hm h
  get_set_ne a b v i j ha h hne := Value.get_set_of_ne (isUnion_of_isAggregate hty) ha h hne
  set_get a x i ha h := Value.set_get_self ha h
  set_set a b v w i ha h := Value.set_set_self ha h
  set_comm a b c v w i j ha hne hi hj :=
    Value.set_comm_of_ne (isUnion_of_isAggregate hty) ha hne hi hj
  concat a ha := Value.members_concat hty ha

/-! ## Tagged unions -/

namespace Value

/-- The variant id of a tagged union. -/
def variantId (u : Value) : Result Value := u.getMember variantIdMember

/-- The tagged union with another variant id. -/
def setVariantId (u : Value) (i : Int) : Result Value := u.setMember variantIdMember (ofWord i)

/-- The tagged union with variant `k` and its payload replaced. -/
def setVariant (u : Value) (k : Nat) (v : Value) : Result Value := do
  let member ← memberOf u.ty k
  let tagged ← u.setMember variantIdMember (ofWord k)
  tagged.setMember member v

end Value

/-- The variant id and the payload of a tagged union lie side by side, and the variants share the
payload. -/
structure VariantLaws (ty : Ty) : Prop where
  /-- A variant that has been put in is announced and found, and what lies behind it stays. -/
  setVariant : ∀ (u v : Value) (k : Nat) (m : Member), u.HasTy ty →
    (Layout.of ty).member? k = some m → v.size = m.size → ∃ w, u.setVariant k v = .ok w ∧
      w.HasTy ty ∧ w.variantId = .ok (Value.ofWord k) ∧
      w.get k = .ok { ty := m.ty, bytes := v.bytes } ∧
      w.bytes.drop (wordSize + v.size) = u.bytes.drop (wordSize + v.size)
  /-- A payload must have the size of its variant. -/
  mismatch : ∀ (u v : Value) (k : Nat) (m : Member), u.HasTy ty →
    (Layout.of ty).member? k = some m → v.size ≠ m.size →
    u.setVariant k v = raise (.sizeMismatch m.size v.size)
  /-- The variant id can be set to any number, and nothing else changes. -/
  setVariantId : ∀ (u : Value) (i : Int), u.HasTy ty → ∃ w, u.setVariantId i = .ok w ∧
    w.HasTy ty ∧ w.variantId = .ok (Value.ofWord i) ∧
    w.bytes.drop wordSize = u.bytes.drop wordSize ∧ ∀ k, w.get k = u.get k
  /-- As an unsigned number the variant id of a variant is its index. -/
  index : ∀ k < addressLimit, (Value.ofWord k).toInt? false = some (k : Int)

namespace Value

variable {u v w : Value} {k : Nat} {m : Member} {name : String} {variants : List Ty}

theorem offset_of_variant (hm : (Layout.of (.union name variants)).member? k = some m) :
    m.offset = wordSize := by
  change (Member.overlaid wordSize variants)[k]? = some m at hm
  rw [Member.overlaid, List.getElem?_map, Option.map_eq_some_iff] at hm
  obtain ⟨t, _, rfl⟩ := hm
  rfl

theorem wordSize_le_size_union : wordSize ≤ (Ty.union name variants).size := by
  rw [Ty.size]
  exact Nat.le_add_right _ _

/-- The variant id lies in front of every payload. -/
theorem setVariantId_eq_ok (hu : u.HasTy (.union name variants)) (i : Int) :
    ∃ w, u.setVariantId i = .ok w ∧ w.HasTy (.union name variants) ∧
      w.variantId = .ok (ofWord i) ∧ w.bytes.drop wordSize = u.bytes.drop wordSize ∧
      ∀ k, w.get k = u.get k := by
  have hset := setMember_eq (m := variantIdMember) hu
    (by rw [variantIdMember, Nat.zero_add]; exact wordSize_le_size_union) (hasTy_ofWord i).2
  have hw := hasTy_of_setMember hset
  rw [hu.1] at hw
  obtain ⟨_, hword, hinside, _⟩ := setMember_eq_ok hset
  refine ⟨_, hset, hw, getMember_setMember rfl hset, Bytes.drop_splice hinside ?_, fun k => ?_⟩
  · exact Nat.le_of_eq ((Nat.zero_add _).trans hword)
  · cases hm : (Layout.of (.union name variants)).member? k with
    | none => rw [get_of_none hw.1 hm, get_of_none hu.1 hm]
    | some m =>
      rw [get_eq hw.1 hm, get_eq hu.1 hm]
      refine getMember_setMember_of_apart hset (.inl ?_)
      rw [offset_of_variant hm]
      exact Nat.le_refl _

/-- Replacing the payload sets the variant id first. -/
theorem setVariant_eq (hu : u.HasTy (.union name variants))
    (hm : (Layout.of (.union name variants)).member? k = some m) (htagged : u.setVariantId k = .ok w) :
    u.setVariant k v = w.setMember m v := by
  unfold setVariantId at htagged
  unfold setVariant
  rw [hu.1, memberOf_eq hm]
  change (u.setMember variantIdMember (ofWord k)).bind _ = _
  rw [htagged]
  rfl

end Value

/-- An address-sized number is read back from a word. -/
theorem Value.toInt?_ofWord {k : Nat} (h : k < addressLimit) :
    (ofWord k).toInt? false = some (k : Int) := by
  have hmod : ((k : Int) % Nat.pow 256 wordSize).toNat = k := by
    have hlt : k < Nat.pow 256 wordSize := h
    rw [Int.emod_eq_of_lt (Int.natCast_nonneg k) (Int.ofNat_lt.mpr hlt), Int.toNat_natCast]
  have hnat : Bytes.toNat (ofWord k).bytes = k := by
    change Bytes.toNat (Bytes.ofNat wordSize _) = k
    rw [hmod, Bytes.toNat_ofNat]
    exact Nat.mod_eq_of_lt h
  unfold toInt?
  rw [(hasTy_ofWord k).2, if_pos (by decide), if_neg (by decide), hnat]

theorem Ty.variantLaws (name : String) (variants : List Ty) : VariantLaws (.union name variants) where
  setVariant u v k m hu hm hv := by
    obtain ⟨_, hsize, hinside⟩ := Layout.member?_eq_some hm
    obtain ⟨tagged, htagged, htyped, hid, hrest, _⟩ := Value.setVariantId_eq_ok hu k
    have hset := Value.setMember_eq htyped (by rw [hsize]; exact hinside) hv
    have hw := Value.hasTy_of_setMember hset
    rw [htyped.1] at hw
    have hoffset := Value.offset_of_variant hm
    refine ⟨_, (Value.setVariant_eq hu hm htagged).trans hset, hw, ?_, ?_, ?_⟩
    · -- The payload is written behind the id, so the id stays.
      rw [← hid]
      refine Value.getMember_setMember_of_apart hset (.inr ?_)
      rw [hoffset]
      exact Nat.le_refl _
    · rw [Value.get_eq hw.1 hm]
      exact Value.getMember_setMember hsize hset
    · obtain ⟨_, _, hfits, _⟩ := Value.setMember_eq_ok hset
      have hbehind : m.offset + v.bytes.length ≤ wordSize + v.size := by
        rw [hoffset]
        exact Nat.le_refl _
      rw [Bytes.drop_splice hfits hbehind, ← List.drop_drop, hrest, List.drop_drop]
  mismatch u v k m hu hm hv := by
    obtain ⟨tagged, htagged, _⟩ := Value.setVariantId_eq_ok hu k
    rw [Value.setVariant_eq hu hm htagged]
    exact Value.setMember_of_size_ne tagged hv
  setVariantId u i hu := Value.setVariantId_eq_ok hu i
  index k hk := Value.toInt?_ofWord hk

/-! ## Instructions -/

variable {p : Program} {s t u : State} {f : Function} {fr : Frame} {rest : List Frame}
  {inst : Instruction}

/-- The instruction replaces member `i` of an operand of type `ty` by another operand: by a constant
number, or as the field of a container that lies in this slot. -/
inductive Replacer (p : Program) (ty : Ty) (i : Nat) (o e : Operand) : Instruction → Prop where
  | insert {index : ConstId} {indexTy : Ty} (result : Option Local)
      (indexed : p.module.constant index = .ok ⟨indexTy, .int i⟩) (inRange : i < addressLimit) :
      Replacer p ty i o e ⟨.insertValue, [o, e, .const index], result⟩
  | field {field : Field} (result : Option Local) (accepts : field.container.accepts ty = true)
      (slot : field.slot = i) : Replacer p ty i o e ⟨.setField field, [o, e], result⟩

/-- The instruction is an access. In `s` its operands evaluate, up to the state `t`, and then it has
nothing left to do but to give this result. -/
inductive Gives (p : Program) (s : State) : Instruction → Result Value → State → Prop where
  | get {inst : Instruction} {o : Operand} {a : Value} {i : Nat} {t : State}
      (accessor : Accessor p a.ty i o inst) (aggregate : Exec.operand p o s = .ok a t) :
      Gives p s inst (a.get i) t
  | set {inst : Instruction} {o e : Operand} {a v : Value} {i : Nat} {m : Member} {t u : State}
      (replacer : Replacer p a.ty i o e inst) (aggregate : Exec.operand p o s = .ok a t)
      (member : (Layout.of a.ty).member? i = some m) (element : Exec.operand p e t = .ok v u) :
      Gives p s inst (a.set i v) u
  | variantId {o : Operand} {u : Value} {name : String} {variants : List Ty} {t : State}
      (result : Option Local) (operand : Exec.operand p o s = .ok u t)
      (tagged : u.ty = .union name variants) :
      Gives p s ⟨.union .getVariantId, [o], result⟩ u.variantId t
  | setVariantId {o e : Operand} {u : Value} {i : Int} {name : String} {variants : List Ty}
      {t t' : State} (result : Option Local) (operand : Exec.operand p o s = .ok u t)
      (tagged : u.ty = .union name variants)
      (id : Exec.integerOperand p .variantId e t = .ok i t') :
      Gives p s ⟨.union .setVariantId, [o, e], result⟩ (u.setVariantId i) t'
  | variant {o : Operand} {u : Value} {k : Nat} {index : ConstId} {indexTy : Ty} {name : String}
      {variants : List Ty} {t : State} (result : Option Local)
      (operand : Exec.operand p o s = .ok u t) (tagged : u.ty = .union name variants)
      (indexed : p.module.constant index = .ok ⟨indexTy, .int k⟩) (inRange : k < addressLimit) :
      Gives p s ⟨.union .getValue, [o, .const index], result⟩ (u.get k) t
  | setVariant {o e : Operand} {u v : Value} {k : Nat} {m : Member} {index : ConstId}
      {indexTy : Ty} {name : String} {variants : List Ty} {t t' : State} (result : Option Local)
      (operand : Exec.operand p o s = .ok u t) (tagged : u.ty = .union name variants)
      (indexed : p.module.constant index = .ok ⟨indexTy, .int k⟩) (inRange : k < addressLimit)
      (member : (Layout.of u.ty).member? k = some m) (payload : Exec.operand p e t = .ok v t') :
      Gives p s ⟨.union .setValue, [o, .const index, e], result⟩ (u.setVariant k v) t'

/-- The instructions that take members out of aggregates or replace them. -/
def Opcode.isAccessor : Opcode → Bool
  | .insertValue | .extractValue | .getField _ | .setField _ | .union _ => true
  | _ => false

namespace Exec

/-- What is left to do when an access has evaluated its operands. -/
def finished (r : Result Value) (t : State) : EStateM.Result Failure State Flow :=
  match r with
  | .ok v => .ok (.complete (some v)) t
  | .error e => .error e t

theorem execute_accessor (hop : inst.op.isAccessor = true) (f : Function) :
    execute p f inst = (do return .complete (some (← aggregate p inst))) := by
  unfold execute
  cases h : inst.op <;> simp_all [Opcode.isAccessor]

theorem finished_of_aggregate {r : Result Value} (hop : inst.op.isAccessor = true)
    (h : aggregate p inst s = (liftM r : Exec Value) t) (f : Function) :
    execute p f inst s = finished r t := by
  rw [execute_accessor hop, bind_apply, h]
  cases r <;> rfl

end Exec

theorem Container.accepts_union {ty : Ty} {name : String} {variants : List Ty}
    (h : ty = .union name variants) : Container.union.accepts ty = true := by
  rw [h]
  rfl

theorem Replacer.aggregate_eq {a v : Value} {i : Nat} {o e : Operand} {m : Member}
    (h : Replacer p a.ty i o e inst) (ho : Exec.operand p o s = .ok a t)
    (hm : (Layout.of a.ty).member? i = some m) (he : Exec.operand p e t = .ok v u) :
    Exec.aggregate p inst s = (liftM (a.set i v) : Exec Value) u := by
  rw [Value.set_eq rfl hm]
  have hmember := memberOf_eq hm
  cases h with
  | insert result indexed inRange =>
    change (do
      let v ← Exec.operand p o
      let w ← Exec.operand p e
      let member ← memberOf v.ty (← Exec.constIndex p (.const _))
      v.setMember member w : Exec Value) s = _
    rw [Exec.bind_of_ok ho, Exec.bind_of_ok he,
      Exec.bind_of_ok (Exec.constIndex_eq indexed inRange), hmember,
      Exec.bind_of_ok (Exec.lift_ok _ _)]
  | @field field result accepts slot =>
    change (do
      let v ← Exec.containerOperand p field.container (.setField field) o
      let member ← memberOf v.ty field.slot
      v.setMember member (← Exec.operand p e) : Exec Value) s = _
    rw [Exec.bind_of_ok (Exec.containerOperand_eq _ ho accepts), slot, hmember,
      Exec.bind_of_ok (Exec.lift_ok _ _), Exec.bind_of_ok he]

/-- Every access computes a function of its operands' values. -/
theorem Gives.execute_eq {r : Result Value} (h : Gives p s inst r t) (f : Function) :
    Exec.execute p f inst s = Exec.finished r t := by
  cases h with
  | get accessor ho =>
    refine Exec.finished_of_aggregate ?_ (accessor.aggregate_eq ho) f
    cases accessor <;> rfl
  | set replacer ho hm he =>
    refine Exec.finished_of_aggregate ?_ (replacer.aggregate_eq ho hm he) f
    cases replacer <;> rfl
  | @variantId o u name variants _ result ho tagged =>
    refine Exec.finished_of_aggregate rfl ?_ f
    change (do
      let u ← Exec.containerOperand p .union _ o
      u.getMember variantIdMember : Exec Value) s = _
    rw [Exec.bind_of_ok (Exec.containerOperand_eq _ ho (Container.accepts_union tagged))]
    rfl
  | @setVariantId o e u i name variants _ _ result ho tagged hid =>
    refine Exec.finished_of_aggregate rfl ?_ f
    change (do
      let u ← Exec.containerOperand p .union _ o
      let i ← Exec.integerOperand p .variantId e
      u.setMember variantIdMember (Value.ofWord i) : Exec Value) s = _
    rw [Exec.bind_of_ok (Exec.containerOperand_eq _ ho (Container.accepts_union tagged)),
      Exec.bind_of_ok hid]
    rfl
  | @variant o u k index indexTy name variants _ result ho tagged indexed inRange =>
    refine Exec.finished_of_aggregate rfl ?_ f
    change (do
      let u ← Exec.containerOperand p .union _ o
      let member ← memberOf u.ty (← Exec.constIndex p (.const index))
      u.getMember member : Exec Value) s = _
    rw [Exec.bind_of_ok (Exec.containerOperand_eq _ ho (Container.accepts_union tagged)),
      Exec.bind_of_ok (Exec.constIndex_eq indexed inRange)]
    unfold Value.get
    cases memberOf u.ty k <;> rfl
  | @setVariant o e u v k m index indexTy name variants _ _ result ho tagged indexed inRange hm hv =>
    refine Exec.finished_of_aggregate rfl ?_ f
    change (do
      let u ← Exec.containerOperand p .union _ o
      let k ← Exec.constIndex p (.const index)
      let member ← memberOf u.ty k
      let v ← Exec.operand p e
      let tagged ← u.setMember variantIdMember (Value.ofWord k)
      tagged.setMember member v : Exec Value) s = _
    rw [Exec.bind_of_ok (Exec.containerOperand_eq _ ho (Container.accepts_union tagged)),
      Exec.bind_of_ok (Exec.constIndex_eq indexed inRange), memberOf_eq hm,
      Exec.bind_of_ok (Exec.lift_ok _ _), Exec.bind_of_ok hv]
    unfold Value.setVariant
    rw [memberOf_eq hm]
    change _ = (liftM ((u.setMember variantIdMember (Value.ofWord k)).bind _) : Exec Value) t
    cases u.setMember variantIdMember (Value.ofWord k) <;> rfl

/-! ## Value semantics -/

/-- What an access of the innermost frame leaves behind: all storage, all cached constants and all
frames are as they were, but for one local that it may have bound and where control is. -/
structure Unaltered (fr : Frame) (rest : List Frame) (result : Option Local) (s t : State) :
    Prop where
  frames : ∃ locals pc, t.frames = { fr with locals, pc } :: rest ∧
    ∀ l, result ≠ some l → Frame.lookup? { fr with locals } l = fr.lookup? l
  constants : ∀ id v, s.constants.get? id = some v → t.constants.get? id = some v
  stack : t.memory.stack = s.memory.stack
  bytes : ∀ k, (t.memory.Live k 1 → s.memory.Live k 1) →
    t.memory.arena.byteAt k = s.memory.arena.byteAt k

theorem Makes.unaltered (h : Makes p s t) (hfr : s.frames = fr :: rest) (result : Option Local) :
    Unaltered fr rest result s t where
  frames := ⟨fr.locals, fr.pc, by rw [h.frames_eq, hfr], fun _ _ => rfl⟩
  constants _ _ hv := h.constants_get? hv
  stack := h.stack_eq
  bytes _ hk := h.byteAt_eq hk

/-- An access leaves everything as it was but the local that it binds, however it ends. -/
theorem Exec.step_accessor (base : Nat) {block : Block} (hfr : s.frames = fr :: rest)
    (hcur : fr.current p.module = .ok (f, block, inst)) (hop : inst.op.isAccessor = true) :
    Unaltered fr rest inst.result s ((step p base).after s) := by
  have hmakes := aggregate_makes (p := p) inst s
  have hexecute := execute_accessor (p := p) hop f
  cases h : aggregate p inst s with
  | error e t =>
    rw [after_of_error h] at hmakes
    have hfails : execute p f inst s = .error e t := by
      rw [hexecute, bind_apply, h]
    rw [after_of_error (step_of_execute_error base hfr hcur hfails)]
    exact hmakes.unaltered hfr inst.result
  | ok v t =>
    rw [after_of_ok h] at hmakes
    have hgives : execute p f inst s = .ok (.complete (some v)) t := by
      rw [hexecute, bind_of_ok h]
      rfl
    rw [after_congr (step_of_executed base hfr hcur hgives), proceed,
      after_bind_reads fun _ => reads_pure _]
    have ht : t.frames = fr :: rest := by rw [hmakes.frames_eq, hfr]
    obtain ⟨locals, pc, hafter, hlocals⟩ := complete_locals ht f inst v
    rw [hafter]
    have hkept := hmakes.unaltered hfr inst.result
    exact ⟨⟨locals, pc, rfl, hlocals⟩, hkept.constants, hkept.stack, hkept.bytes⟩

/-- The members of aggregates and containers are lenses, and tagged unions announce what they hold.
The accessors compute just these functions from the values of their operands, and change nothing
that was there. -/
theorem accessors_are_lawful_lenses (p : Program) :
    (∀ ty : Ty, ty.isAggregate = true → MemberLaws ty) ∧
    (∀ name variants, VariantLaws (.union name variants)) ∧
    (∀ s inst r t, Gives p s inst r t → ∀ f, Exec.execute p f inst s = Exec.finished r t) ∧
    ∀ (s : State) (base : Nat) (fr : Frame) (rest : List Frame) (f : Function) (block : Block)
      (inst : Instruction), s.frames = fr :: rest →
      fr.current p.module = .ok (f, block, inst) → inst.op.isAccessor = true →
      Unaltered fr rest inst.result s ((Exec.step p base).after s) :=
  ⟨fun _ hty => Ty.memberLaws hty, Ty.variantLaws, fun _ _ _ _ h f => h.execute_eq f,
    fun _ base _ _ _ _ _ hfr hcur hop => Exec.step_accessor base hfr hcur hop⟩

/-! ## A function that replaces a member -/

namespace Patching

def pairTy : Ty := .struct "pair" [Ty.u8, Ty.u16]

def replaceSecond : Instruction := ⟨.insertValue, [.local ⟨0⟩, .const ⟨0⟩, .const ⟨1⟩], some ⟨1⟩⟩

def patch : Function where
  name := "patch"
  ty := .function [pairTy] pairTy false
  locals := #[⟨pairTy, false⟩, ⟨pairTy, false⟩]
  blocks := #[⟨"entry", #[replaceSecond, ⟨.ret, [.local ⟨1⟩], none⟩]⟩]

def program : Program where
  module :=
    { name := "patching"
      constants := #[⟨Ty.u16, .int 7⟩, ⟨Ty.word, .int 1⟩]
      functions := #[patch] }

def argument : Value := { ty := pairTy, bytes := [1, 2, 3] }

/-- The argument as the function sees it. -/
def bound : Value := argument.withOrigin (.local ⟨0⟩)

def seven : Value := { ty := Ty.u16, origin := .const ⟨0⟩, bytes := [7, 0] }

def entered : State := (Exec.startCall program ⟨0⟩ [argument]).after {}

def frame : Frame := { function := ⟨0⟩, locals := #[some bound, none] }

/-- The state in which the new member has been evaluated. -/
def evaluated : State := (Exec.operand program (.const ⟨0⟩)).after entered

theorem gives_replaced : Gives program entered replaceSecond (bound.set 1 seven) evaluated := by
  have hbound : Exec.operand program (.local ⟨0⟩) entered = .ok bound entered := rfl
  have hseven : Exec.operand program (.const ⟨0⟩) entered = .ok seven evaluated :=
    Exec.eq_ok_of_result? (by decide +kernel)
  have hindex : program.module.constant ⟨1⟩ = .ok ⟨Ty.word, .int 1⟩ := rfl
  have hreplacer : Replacer program bound.ty 1 (.local ⟨0⟩) (.const ⟨0⟩) replaceSecond :=
    .insert _ hindex (by decide)
  exact .set (m := ⟨1, 2, Ty.u16⟩) hreplacer hbound rfl hseven

end Patching

/-- The second member of a pair is replaced and found again, the first one stays, and the argument
is as it was. -/
theorem accessors_are_lawful_lenses_patching :
    Exec.execute Patching.program Patching.patch Patching.replaceSecond Patching.entered =
      Exec.finished (.ok { ty := Patching.pairTy, bytes := [1, 7, 0] }) Patching.evaluated ∧
    Value.get { ty := Patching.pairTy, bytes := [1, 7, 0] } 1 = .ok { ty := Ty.u16, bytes := [7, 0] } ∧
    Value.get { ty := Patching.pairTy, bytes := [1, 7, 0] } 0 = Patching.bound.get 0 ∧
    Unaltered Patching.frame [] (some ⟨1⟩) Patching.entered
      ((Exec.step Patching.program 0).after Patching.entered) := by
  obtain ⟨hmembers, _, hgives, hkept⟩ := accessors_are_lawful_lenses Patching.program
  have hlaws := hmembers Patching.pairTy rfl
  have hbound : Patching.bound.HasTy Patching.pairTy := ⟨rfl, rfl⟩
  have hset : Patching.bound.set 1 Patching.seven =
      .ok { ty := Patching.pairTy, bytes := [1, 7, 0] } := rfl
  have hexecute := hgives _ _ _ _ Patching.gives_replaced Patching.patch
  rw [hset] at hexecute
  exact ⟨hexecute, hlaws.get_set _ _ _ _ ⟨1, 2, Ty.u16⟩ hbound rfl hset,
    hlaws.get_set_ne _ _ _ _ _ hbound hset (by decide),
    hkept _ 0 Patching.frame [] Patching.patch _ Patching.replaceSecond rfl rfl rfl⟩

end PackedIR
