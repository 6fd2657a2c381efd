/-
What the machine can do to a state.

`Effects` adds to evaluation what instructions do to storage: stores, and whatever
native code does to the bytes. `Prepares` adds what setting up a session does. None of
these touches a frame or the map of frame storage. `Moves` adds the changes to frames,
each with the facts that the machine has checked when it makes the change. Everything
that happens in a session is a sequence of these moves, so an invariant of all states is
proved by looking at each move once. `Moves p {} s` is the widest notion of a state of a
session; it includes the states in the middle of an instruction and of setting up.
-/
import PackedIR.Proofs.Making

set_option autoImplicit false

namespace PackedIR

variable {p : Program} {s t u : State}

/-! ## Storage -/

/-- The changes that instructions make outside the frames. -/
inductive Effects (p : Program) : State → State → Prop where
  | makes {s t : State} : Makes p s t → Effects p s t
  | trans {s t u : State} : Effects p s t → Effects p t u → Effects p s u
  | store {s : State} (address : Nat) (bytes : Bytes)
      (allowed : s.memory.accessible p.config.sanitizeMemory address bytes.length = true) :
      Effects p s { s with memory := s.memory.put address bytes }
  /-- Native code runs; it sees and changes nothing but the bytes. -/
  | native {s : State} (address : Nat) {code : NativeCode} (args : List Scalar)
      (found : p.host address = some code) :
      Effects p s { s with memory := { s.memory with arena := (code args s.memory.arena).2 } }

namespace Effects

instance : Std.Refl (Effects p) := ⟨fun s => .makes (.refl s)⟩

instance : IsTrans State (Effects p) := ⟨fun _ _ _ => .trans⟩

theorem frames_eq (h : Effects p s t) : t.frames = s.frames := by
  induction h with
  | makes h => exact h.frames_eq
  | trans _ _ ih₁ ih₂ => rw [ih₂, ih₁]
  | store | native => rfl

theorem stack_eq (h : Effects p s t) : t.memory.stack = s.memory.stack := by
  induction h with
  | makes h => exact h.stack_eq
  | trans _ _ ih₁ ih₂ => rw [ih₂, ih₁]
  | store | native => rfl

end Effects

/-! ## Setting up -/

/-- What setting up a session does besides running code. -/
inductive Prepares (p : Program) : State → State → Prop where
  | effects {s t : State} : Effects p s t → Prepares p s t
  | trans {s t u : State} : Prepares p s t → Prepares p t u → Prepares p s u
  | register {s : State} (id : GlobalId) (reference : Value) :
      Prepares p s { s with globals := s.globals.insert id reference }
  | route {s : State} (aliases : Table FuncId String) : Prepares p s { s with aliases }
  | ready {s : State} : Prepares p s { s with initialized := true }

namespace Prepares

instance : Std.Refl (Prepares p) := ⟨fun s => .effects (.makes (.refl s))⟩

instance : IsTrans State (Prepares p) := ⟨fun _ _ _ => .trans⟩

theorem frames_eq (h : Prepares p s t) : t.frames = s.frames := by
  induction h with
  | effects h => exact h.frames_eq
  | trans _ _ ih₁ ih₂ => rw [ih₂, ih₁]
  | register | route | ready => rfl

theorem stack_eq (h : Prepares p s t) : t.memory.stack = s.memory.stack := by
  induction h with
  | effects h => exact h.stack_eq
  | trans _ _ ih₁ ih₂ => rw [ih₂, ih₁]
  | register | route | ready => rfl

end Prepares

/-! ## Frames -/

/-- The innermost frame gets zeroed storage of its own. -/
inductive Allocates (p : Program) : State → State → Prop where
  | intro {s : State} {fr : Frame} {rest : List Frame} {size address : Nat} {stack : AllocMap}
      (frames : s.frames = fr :: rest) (positive : 0 < size)
      (room : p.allocator.place s.memory.ledger size = some address)
      (recorded : s.memory.stack.insert ⟨address, size, .frame⟩ = .ok stack) :
      Allocates p s
        { s with
          frames := { fr with allocs := (address, size) :: fr.allocs } :: rest
          memory := { s.memory.claim address size with stack } }

/-- A frame for a call of `id` is put on the stack. -/
inductive Enters (p : Program) (id : FuncId) : State → State → Prop where
  | intro {s : State} {f : Function} {sig : Signature} {args : List Value} {fr : Frame}
      (found : p.module.function id = .ok f) (signature : f.signature = .ok sig)
      (body : f.isDeclaration = false) (depth : s.frames.length < p.config.maxCallDepth)
      (bound : Frame.bindArgs { function := id, locals := Array.replicate f.locals.size none }
        0 args sig.params = .ok fr) :
      Enters p id s { s with frames := fr :: s.frames }

/-- The innermost frame is taken off and its storage released. -/
inductive Leaves : State → State → Prop where
  | intro {s : State} {fr : Frame} {rest : List Frame} {stack : AllocMap}
      (frames : s.frames = fr :: rest) (released : s.memory.stack.removeAll fr.allocs = .ok stack) :
      Leaves s { s with frames := rest, memory := { s.memory with stack } }

/-- The changes that happen in a session. -/
inductive Moves (p : Program) : State → State → Prop where
  | prepares {s t : State} : Prepares p s t → Moves p s t
  | trans {s t u : State} : Moves p s t → Moves p t u → Moves p s u
  | allocates {s t : State} : Allocates p s t → Moves p s t
  | enters {s t : State} (id : FuncId) : Enters p id s t → Moves p s t
  | leaves {s t : State} : Leaves s t → Moves p s t
  /-- A result is bound under the type that its local is declared with. -/
  | bind {s : State} {fr : Frame} {rest : List Frame} {f : Function} {l : Local}
      {decl : LocalDecl} {v bound : Value}
      (frames : s.frames = fr :: rest) (found : p.module.function fr.function = .ok f)
      (declared : f.local? l = some decl) (retyped : v.retype decl.boundTy = .ok bound) :
      Moves p s { s with frames := fr.set l (bound.withOrigin (.local l)) :: rest }
  /-- Control goes elsewhere in the innermost frame. -/
  | goto {s : State} {fr : Frame} {rest : List Frame} (frames : s.frames = fr :: rest)
      (block entered : BlockId) (previous : Option BlockId) (pc : Nat) :
      Moves p s { s with frames := { fr with block, entered, previous, pc } :: rest }

namespace Moves

theorem effects (h : Effects p s t) : Moves p s t := .prepares (.effects h)

instance : Std.Refl (Moves p) := ⟨fun s => .effects (.makes (.refl s))⟩

instance : IsTrans State (Moves p) := ⟨fun _ _ _ => .trans⟩

theorem of_makes (h : Makes p s t) : Moves p s t := .effects (.makes h)

end Moves

namespace Exec

variable {α β : Type}

/-! ## Stores and native calls -/

theorem storeBytes_effects (address : Nat) (bytes : Bytes) :
    Along (Effects p) (storeBytes p address bytes) := by
  intro s
  unfold storeBytes Memory.checkAccess
  rw [after, bind_of_ok (get_apply s), ← after]
  by_cases hallowed : s.memory.accessible p.config.sanitizeMemory address bytes.length = true
  · rw [if_pos hallowed, after, bind_of_ok (lift_ok _ _)]
    exact .store address bytes hallowed
  · -- A store that is not allowed changes nothing.
    rw [if_neg hallowed]
    exact refl_of (Effects p) s

theorem storeValue_effects (address : Nat) (ty : Ty) (v : Value) :
    Along (Effects p) (storeValue p address ty v) :=
  (reads_lift _).along.bind fun _ => storeBytes_effects _ _

theorem effects_of_makes {x : Exec α} (h : Along (Makes p) x) : Along (Effects p) x :=
  h.mono fun _ _ => .makes

/-- A call that could be prepared has found its code. -/
theorem host_of_prepare {callee : Callee} {args : List Value} {call : ForeignCall}
    (h : callee.prepare p.host args = .ok call) : p.host callee.address = some call.code := by
  simp only [Callee.prepare, except_bind_eq_ok_iff] at h
  obtain ⟨_, _, _, _, h⟩ := h
  split at h
  · simp at h
  · obtain ⟨_, _, h⟩ := except_bind_eq_ok_iff.mp h
    split at h
    · cases h
      assumption
    · cases h

theorem callNative_effects (callee : Callee) (args : List Value) :
    Along (Effects p) (callNative p callee args) := by
  refine fun s => after_bind ((reads_lift _).along s) fun call t hcall => ?_
  obtain ⟨hprepared, rfl⟩ := lift_eq_ok_iff.mp hcall
  refine after_bind ?_ fun returned u _ => (reads_lift _).along u
  exact .native callee.address call.args (host_of_prepare hprepared)

theorem callDeclaration_effects (id : FuncId) (f : Function) (sig : Signature)
    (args : List Value) : Along (Effects p) (callDeclaration p id f sig args) := by
  refine (reads_get.bind fun _ => reads_pure _).along.bind fun symbol => ?_
  split
  · exact (reads_lift _).along
  · exact callNative_effects _ _

/-! ## Computations whose success is a change of frames

On failure they leave the frames alone, and that is all that is said of a failure. -/

/-- From `t`, which `s` has led to by effects, `x` succeeds with `Q` or fails by further effects. -/
def Settles (p : Program) (s : State) (Q : α → State → Prop) (x : Exec α) (t : State) : Prop :=
  match x t with
  | .ok a u => Q a u
  | .error _ u => Effects p s u

theorem Settles.of_along {Q : α → State → Prop} {x : Exec α} (hx : Along (Effects p) x)
    (hst : Effects p s t) (hq : ∀ a u, x t = .ok a u → Effects p s u → Q a u) :
    Settles p s Q x t := by
  unfold Settles
  have hmoved := trans_of (Effects p) hst (hx t)
  cases h : x t with
  | ok a u =>
    rw [after_of_ok h] at hmoved
    exact hq a u h hmoved
  | error e u =>
    rw [after_of_error h] at hmoved
    exact hmoved

theorem Settles.seq {Q : α → State → Prop} {R : β → State → Prop} {x : Exec α} {f : α → Exec β}
    (hx : Settles p s Q x t) (hf : ∀ a u, Q a u → Settles p s R (f a) u) :
    Settles p s R (x >>= f) t := by
  unfold Settles at hx
  rw [Settles, bind_apply]
  cases h : x t with
  | ok a u =>
    rw [h] at hx
    exact hf a u hx
  | error e u =>
    rw [h] at hx
    exact hx

theorem Settles.bind {Q : β → State → Prop} {x : Exec α} {f : α → Exec β}
    (hx : Along (Effects p) x) (hst : Effects p s t)
    (hf : ∀ a u, x t = .ok a u → Effects p s u → Settles p s Q (f a) u) :
    Settles p s Q (x >>= f) t :=
  Settles.seq (.of_along (Q := fun a u => x t = .ok a u ∧ Effects p s u) hx hst
    fun _ _ h hsu => ⟨h, hsu⟩) fun a u h => hf a u h.1 h.2

theorem Settles.raise {Q : α → State → Prop} {r : Result α} (hr : ∀ a, r ≠ .ok a)
    (hst : Effects p s t) : Settles p s Q (liftM r) t :=
  .of_along (reads_lift r).along hst fun a _ h _ => absurd (lift_eq_ok_iff.mp h).1 (hr a)

theorem Settles.mono {Q R : α → State → Prop} {x : Exec α} (h : Settles p s Q x t)
    (hqr : ∀ a u, Q a u → R a u) : Settles p s R x t := by
  unfold Settles at h ⊢
  cases hx : x t with
  | ok a u =>
    rw [hx] at h
    exact hqr a u h
  | error e u =>
    rw [hx] at h
    exact h

theorem Settles.of_ok {Q : α → State → Prop} {x : Exec α} (h : Settles p s Q x t) {a : α}
    (hx : x t = .ok a u) : Q a u := by
  unfold Settles at h
  rwa [hx] at h

theorem Settles.of_error {Q : α → State → Prop} {x : Exec α} (h : Settles p s Q x t)
    {e : Failure} (hx : x t = .error e u) : Effects p s u := by
  unfold Settles at h
  rwa [hx] at h

theorem allocFrame_nil (hfr : s.frames = []) (size : Nat) :
    allocFrame p size s = .error (.raised [] .noActiveFrame) s := by
  unfold allocFrame
  rw [bind_apply, frame_nil hfr]

theorem allocFrame_of_none {fr : Frame} {rest : List Frame} {size : Nat}
    (hfr : s.frames = fr :: rest) (h : p.allocator.place s.memory.ledger size = none) :
    allocFrame p size s = .error (.fault .outOfAddresses) s := by
  unfold allocFrame
  rw [bind_of_ok (frame_eq_ok_iff.mpr ⟨rfl, rest, hfr⟩), bind_apply, findRoom_eq, h]

/-- Where there is room, the innermost frame gets its storage. -/
theorem allocFrame_of_some {fr : Frame} {rest : List Frame} {size address : Nat}
    {stack : AllocMap} (hfr : s.frames = fr :: rest)
    (h : p.allocator.place s.memory.ledger size = some address)
    (hrecorded : s.memory.stack.insert ⟨address, size, .frame⟩ = .ok stack) :
    allocFrame p size s = .ok address
      { s with
        frames := { fr with allocs := (address, size) :: fr.allocs } :: rest
        memory := { s.memory.claim address size with stack } } := by
  unfold allocFrame
  rw [bind_of_ok (frame_eq_ok_iff.mpr ⟨rfl, rest, hfr⟩), bind_apply, findRoom_eq, h]
  dsimp only
  rw [bind_of_ok (get_apply s), hrecorded, bind_of_ok (liftFault_ok _ _),
    bind_of_ok (modify_apply _ _), bind_of_ok (modifyFrame_cons (by exact hfr))]
  rfl

/-- Storage of a frame is where the allocator has found room, and recorded with the frame. -/
theorem allocFrame_eq_ok {size address : Nat} (h : allocFrame p size s = .ok address t) :
    ∃ fr rest stack, s.frames = fr :: rest ∧
      p.allocator.place s.memory.ledger size = some address ∧
      s.memory.stack.insert ⟨address, size, .frame⟩ = .ok stack ∧
      t = { s with
        frames := { fr with allocs := (address, size) :: fr.allocs } :: rest
        memory := { s.memory.claim address size with stack } } := by
  cases hfr : s.frames with
  | nil =>
    rw [allocFrame_nil hfr] at h
    cases h
  | cons fr rest =>
    cases hroom : p.allocator.place s.memory.ledger size with
    | none =>
      rw [allocFrame_of_none hfr hroom] at h
      cases h
    | some address' =>
      -- What the allocator chooses can be recorded.
      obtain ⟨stack, hrecorded⟩ := Allocator.exists_insert_stack hroom .frame
      rw [allocFrame_of_some hfr hroom hrecorded] at h
      cases h
      exact ⟨fr, rest, stack, rfl, rfl, hrecorded, rfl⟩

/-- Where there is a frame, all that can fail is that there is no room. Nothing has happened then. -/
theorem allocFrame_eq_error {size : Nat} {e : Failure} (h : allocFrame p size s = .error e t) :
    (s.frames ≠ [] → e = .fault .outOfAddresses) ∧ t = s := by
  cases hfr : s.frames with
  | nil =>
    rw [allocFrame_nil hfr] at h
    cases h
    exact ⟨fun hne => absurd rfl hne, rfl⟩
  | cons fr rest =>
    cases hroom : p.allocator.place s.memory.ledger size with
    | none =>
      rw [allocFrame_of_none hfr hroom] at h
      cases h
      exact ⟨fun _ => rfl, rfl⟩
    | some address =>
      obtain ⟨stack, hrecorded⟩ := Allocator.exists_insert_stack hroom .frame
      rw [allocFrame_of_some hfr hroom hrecorded] at h
      cases h

theorem allocFrame_settles {size : Nat} (hpos : 0 < size) (hst : Effects p s t) :
    Settles p s (fun _ u => Allocates p t u) (allocFrame p size) t := by
  unfold Settles
  cases hx : allocFrame p size t with
  | ok address u =>
    obtain ⟨fr, rest, stack, hfr, hroom, hrecorded, rfl⟩ := allocFrame_eq_ok hx
    exact .intro hfr hpos hroom hrecorded
  | error e u =>
    obtain ⟨_, rfl⟩ := allocFrame_eq_error hx
    exact hst

/-- Storage of a frame is placed along what changes with its being recorded. -/
theorem allocFrame_along {R : State → State → Prop} [Std.Refl R] {size : Nat}
    (h : ∀ {s : State} {fr : Frame} {rest : List Frame} {address : Nat} {stack : AllocMap},
      s.frames = fr :: rest → p.allocator.place s.memory.ledger size = some address →
      s.memory.stack.insert ⟨address, size, .frame⟩ = .ok stack →
      R s { s with
        frames := { fr with allocs := (address, size) :: fr.allocs } :: rest
        memory := { s.memory.claim address size with stack } }) :
    Along R (allocFrame p size) := by
  intro s
  cases hx : allocFrame p size s with
  | ok address t =>
    obtain ⟨fr, rest, stack, hfr, hroom, hrecorded, rfl⟩ := allocFrame_eq_ok hx
    rw [after_of_ok hx]
    exact h hfr hroom hrecorded
  | error e t =>
    obtain ⟨_, rfl⟩ := allocFrame_eq_error hx
    rw [after_of_error hx]
    exact refl_of R t

end Exec

end PackedIR
