/-
The sanitizer.

With sanitizing on, every load and store of the interpreter is checked against the live
allocations. `Accesses` says where the interpreter loads and stores, and where the addresses come
from. An access outside of all live allocations is refused, with its address and size, before
anything has happened; nothing else is refused. Storage of a frame that has returned is not live
until it is handed out again, and a range that runs past an end or from one allocation into another
is never live.

For the rest, a sanitizer is invisible: a session in which nothing is refused goes the same way
without it.
-/
import PackedIR.Proofs.DeadBytes
import PackedIR.Proofs.Evaluation
import PackedIR.Proofs.Limits
import PackedIR.Proofs.Refusals

set_option autoImplicit false

namespace PackedIR

variable {α : Type} {p : Program} {s t : State} {address size : Nat}

/-! ## Accesses -/

open Exec in
/-- Begun in `s`, the computation comes to access `size` bytes at `address` in the last state. -/
inductive Accesses (p : Program) (s : State) :
    {α : Type} → Exec α → (address size : Nat) → State → Prop where
  /-- A load through a pointer, of as much as the result is declared to take. -/
  | readPtr {f : Function} {inst : Instruction} {ptr : Operand} {v : Value} {decl : LocalDecl}
      {address : Nat} {t : State} (args : inst.args = [ptr]) (pointer : operand p ptr s = .ok v t)
      (target : v.asAddress = .ok address) (declared : resultDecl f inst = .ok decl) :
      Accesses p s (place p f inst .readPtr) address decl.ty.size t
  | writePtr {f : Function} {inst : Instruction} {value ptr : Operand} {v : Value} {ty : Ty}
      {address : Nat} {u t : State} (args : inst.args = [value, ptr])
      (stored : operand p value s = .ok v u) (target : pointerOperand p ptr u = .ok (address, ty) t)
      (fits : ty.size = v.size) : Accesses p s (place p f inst .writePtr) address ty.size t
  | store {f : Function} {inst : Instruction} {value lvalue : Operand} {v : Value} {ty : Ty}
      {address : Nat} {u t : State} (args : inst.args = [value, lvalue])
      (stored : operand p value s = .ok v u)
      (target : operandAddress p lvalue u = .ok (address, ty) t) (fits : ty.size = v.size) :
      Accesses p s (place p f inst .store) address ty.size t
  /-- An l-value used as an operand, a local or a reference to a global, decays to its contents. -/
  | decay {o : Operand} {ty : Ty} {address : Nat} {t : State}
      (target : operandAddress p o s = .ok (address, ty) t) :
      Accesses p s (operand p o) address ty.size t
  /-- A global used as a member of a constant contributes its contents. -/
  | copy {id : ConstId} {c : Constant} {g : GlobalId} {v : Value} {address : Nat}
      (kind : c.kind = .globalVar g) (target : v.asAddress = .ok address) :
      Accesses p s (decayConst p id c v) address c.ty.size s
  /-- A global is read from outside. -/
  | global {id : GlobalId} {g : Global} {address : Nat}
      (target : globalAddress p id s = .ok address s) (found : p.module.global id = .ok g) :
      Accesses p s (globalValue p id) address g.ty.size s
  /-- A global gets its initial value. -/
  | fill {id : GlobalId} {g : Global} {init : ConstId} {v : Value} {address : Nat}
      {u t : State} (initial : g.init = some init)
      (allocated : allocStatic p .global (List.replicate g.ty.size 0) s = .ok address u)
      (made : constOperand p init u = .ok v t) (fits : g.ty.size = v.size) :
      Accesses p s (registerGlobal p id g) address g.ty.size t
  /-- A virtual call looks for the method table of its receiver. -/
  | table {inst : Instruction} {classTy fnTy : Ty} {index receiver : Operand} {rest : List Operand}
      {i : Int} {object : Value} {address : Nat} {u t : State}
      (args : inst.args = .type classTy :: index :: .type fnTy :: receiver :: rest)
      (slot : integerOperand p .tableIndex index s = .ok i u)
      (received : operand p receiver u = .ok object t) (target : object.asAddress = .ok address) :
      Accesses p s (call p inst .virtual) address wordSize t
  /-- A virtual call looks up its method in the table. -/
  | method {inst : Instruction} {classTy fnTy : Ty} {index receiver : Operand} {rest : List Operand}
      {i : Int} {object table : Value} {start address : Nat} {u t : State}
      (args : inst.args = .type classTy :: index :: .type fnTy :: receiver :: rest)
      (slot : integerOperand p .tableIndex index s = .ok i u)
      (received : operand p receiver u = .ok object t) (found : object.asAddress = .ok start)
      (loaded : load p start Ty.uword t = .ok table t) (target : table.asAddress = .ok address) :
      Accesses p s (call p inst .virtual) (offsetAddress address (i * wordSize)) fnTy.size t

namespace Exec

variable {β : Type}

theorem bind_of_error {x : Exec α} {f : α → Exec β} {e : Failure} (h : x s = .error e t) :
    (x >>= f) s = .error e t := by
  rw [bind_apply, h]

theorem load_refused {ty : Ty}
    (h : s.memory.accessible p.config.sanitizeMemory address ty.size = false) :
    load p address ty s = .error (.of (.invalidMemoryAccess address ty.size)) s := by
  rw [load_eq_lift]
  unfold Memory.load Memory.checkAccess
  rw [if_neg (by rw [h]; decide)]
  rfl

theorem storeValue_refused {ty : Ty} {v : Value} (hfits : ty.size = v.size)
    (h : s.memory.accessible p.config.sanitizeMemory address ty.size = false) :
    storeValue p address ty v s = .error (.of (.invalidMemoryAccess address ty.size)) s := by
  unfold storeValue
  rw [(checkSize_eq_ok_iff (u := ())).mpr hfits, bind_of_ok (lift_ok _ _), storeBytes_eq_ite]
  rw [show ty.size = v.bytes.length from hfits] at h ⊢
  rw [if_neg (by rw [h]; decide)]

end Exec

open Exec in
/-- An access that is not allowed is all that is left of its computation. -/
theorem Accesses.refused {x : Exec α} (h : Accesses p s x address size t)
    (hrefused : t.memory.accessible p.config.sanitizeMemory address size = false) :
    x s = .error (.of (.invalidMemoryAccess address size)) t := by
  cases h with
  | readPtr args pointer target declared =>
    unfold place
    simp only [args]
    rw [bind_of_ok pointer, target, bind_of_ok (lift_ok _ _), declared, bind_of_ok (lift_ok _ _)]
    exact bind_of_error (load_refused hrefused)
  | writePtr args stored target fits =>
    unfold place
    simp only [args]
    rw [bind_of_ok stored, bind_of_ok target]
    exact bind_of_error (storeValue_refused fits hrefused)
  | store args stored target fits =>
    unfold place
    simp only [args]
    rw [bind_of_ok stored, bind_of_ok target]
    exact bind_of_error (storeValue_refused fits hrefused)
  | @decay o ty address t target =>
    rcases operandAddress_eq_ok target with
      ⟨l, fr, rest, f, v, rfl, hfr, hf, hbound, hdecl, hv, rfl⟩ | ⟨id, g, v, rfl, hc, hv, ha⟩
    · change localOperand p l _ = _
      unfold localOperand
      rw [bind_of_ok (frame_eq_ok_iff.mpr ⟨rfl, rest, hfr⟩), hf, bind_of_ok (liftFault_ok _ _)]
      simp only [hbound, hdecl]
      rw [hv, bind_of_ok (lift_ok _ _)]
      exact bind_of_error (load_refused hrefused)
    · change constOperand p id s = _
      unfold constOperand
      rw [hc, bind_of_ok (liftFault_ok _ _), bind_of_ok hv]
      unfold decayConst
      dsimp only
      rw [ha, bind_of_ok (lift_ok _ _)]
      exact bind_of_error (load_refused hrefused)
  | copy kind target =>
    unfold decayConst
    simp only [kind]
    rw [target, bind_of_ok (lift_ok _ _)]
    exact bind_of_error (load_refused hrefused)
  | «global» target found =>
    unfold globalValue
    rw [bind_of_ok target, found, bind_of_ok (liftFault_ok _ _)]
    exact bind_of_error (load_refused hrefused)
  | @fill id g init v address u t initial allocated made fits =>
    have hmade : within (.initializingGlobal g.name) (constOperand p init) u = .ok v t :=
      within_eq_ok_iff.mpr made
    unfold registerGlobal
    dsimp only
    rw [bind_of_ok allocated]
    simp only [initial]
    rw [bind_of_ok hmade, (checkSize_eq_ok_iff (u := ())).mpr fits, bind_of_ok (lift_ok _ _)]
    apply bind_of_error
    rw [storeBytes_eq_ite]
    rw [show g.ty.size = v.bytes.length from fits] at hrefused ⊢
    rw [if_neg (by rw [hrefused]; decide)]
  | table args slot received target =>
    unfold call
    simp only [args]
    rw [bind_of_ok slot, bind_of_ok received, target, bind_of_ok (lift_ok _ _)]
    apply bind_of_error
    unfold methodPointer
    exact bind_of_error (load_refused hrefused)
  | method args slot received found loaded target =>
    unfold call
    simp only [args]
    rw [bind_of_ok slot, bind_of_ok received, found, bind_of_ok (lift_ok _ _)]
    apply bind_of_error
    unfold methodPointer
    rw [bind_of_ok loaded, target, bind_of_ok (lift_ok _ _)]
    exact load_refused hrefused

open Exec in
/-- Up to the access, operands have been evaluated and storage may have been added. -/
theorem Accesses.makes {x : Exec α} (h : Accesses p s x address size t) : Makes p s t := by
  cases h with
  | readPtr _ pointer _ _ => exact (operand_makes _).of_ok pointer
  | writePtr _ stored target _ =>
    exact ((operand_makes _).of_ok stored).trans ((pointerOperand_makes _).of_ok target)
  | store _ stored target _ =>
    exact ((operand_makes _).of_ok stored).trans ((operandAddress_makes _).of_ok target)
  | decay target => exact (operandAddress_makes _).of_ok target
  | copy | «global» => exact .refl _
  | fill _ allocated made _ =>
    exact ((allocStatic_makes _ _).of_ok allocated).trans ((constOperand_makes _).of_ok made)
  | table _ slot received _ | method _ slot received _ _ _ =>
    exact ((integerOperand_makes _ _).of_ok slot).trans ((operand_makes _).of_ok received)

/-! ## Rejections -/

/-- The failure is a refused access to memory. -/
def Failure.isRejection (e : Failure) : Prop :=
  ∃ address size, e.error? = some (.invalidMemoryAccess address size)

/-- The maps of storage are watched. -/
def Watch.memory : Watch where
  holds m _ := m.Tidy
  shared e := ¬e.isRejection
  reported e s := ∃ address size, e.error? = some (.invalidMemoryAccess address size) ∧ 0 < size ∧
    ¬s.memory.Live address size

theorem Watch.kept_memory (hon : p.config.sanitizeMemory = true) (hhost : p.host.KeepsExtent) :
    Watch.memory.Kept p where
  moves := fun h hs => h.evolves.tidy hhost hs
  push := fun hs _ => hs
  ordinary := by
    rintro e he ⟨address, size, herror⟩
    unfold Failure.isRefusal at he
    rw [herror] at he
    cases he
  shared_within := by
    rintro e c he ⟨address, size, herror⟩
    rw [Failure.error?_within] at herror
    exact he ⟨address, size, herror⟩
  reported_within := by
    rintro e s c ⟨address, size, herror, hdead⟩
    exact ⟨address, size, (Failure.error?_within e c).trans herror, hdead⟩
  reported_leave := by
    rintro e s t ⟨address, size, herror, hpos, hdead⟩ hleaves
    refine ⟨address, size, herror, hpos, ?_⟩
    rintro ⟨a, ha, hrange⟩
    cases hleaves with
    | intro _ hreleased =>
      refine hdead ⟨a, ha.imp_left fun ha => ?_, hrange⟩
      exact (AllocMap.removeAll_sublist hreleased).subset ha
  access := by
    intro s address size hs hrefused
    left
    have hnot : ¬(size = 0 ∨ s.memory.Live address size) := by
      rw [hon] at hrefused
      rw [← hs.accessible_iff, hrefused]
      decide
    rw [not_or] at hnot
    exact ⟨address, size, rfl, Nat.pos_of_ne_zero hnot.1, hnot.2⟩
  overflow := by
    intro s _ _
    right
    rintro ⟨address, size, herror⟩
    cases herror

/-- A rejected access was not inside a live allocation. -/
theorem not_live_of_matches {o o' : EStateM.Result Failure State α}
    (h : Watch.memory.coupling.Matches o o') {e : Failure} (ho : o = .error e t)
    (he : e.error? = some (.invalidMemoryAccess address size)) :
    0 < size ∧ ¬t.memory.Live address size := by
  subst ho
  cases h with
  | error _ hshared => exact absurd ⟨address, size, he⟩ hshared
  | excused _ hreported =>
    obtain ⟨address', size', herror, hdead⟩ := hreported
    have hsame := he.symm.trans herror
    cases hsame
    exact hdead

/-! ## Without a sanitizer -/

/-- The same program without sanitizing. -/
abbrev Program.unsanitized (p : Program) : Program :=
  p.under { p.config with sanitizeMemory := false }

theorem Config.stricter_sanitize (c : Config) : c.Stricter { c with sanitizeMemory := false } where
  depth := Nat.le_refl _
  sanitize := fun hon => absurd hon (by simp)
  globalInit := rfl

/-- Where only sanitizing differs, a refusal is a rejected access. -/
theorem Config.isRejection_of_refuses {c : Config} {e : Failure}
    (h : c.Refuses { c with sanitizeMemory := false } e) : e.isRejection := by
  unfold Refuses at h
  split at h
  · exact absurd rfl h
  · rename_i address size herror
    exact ⟨address, size, herror⟩
  · exact h.elim

/-! ## What a sanitizer does -/

/-- What is promised of a program that runs with sanitizing on, in every state that comes about by
moves from the empty one: between commands, between instructions and in the middle of either. -/
structure Sanitized (p : Program) : Prop where
  /-- A non-empty access of the interpreter that is not inside one live allocation fails, with its
  address and its size, and has no effect. -/
  refused : ∀ {α : Type} {x : Exec α} {s t : State} {address size : Nat}, Moves p {} s →
    Accesses p s x address size t → 0 < size → ¬t.Owns address size →
    x s = .error (.of (.invalidMemoryAccess address size)) t
  /-- Nothing else is refused, by an instruction or by a command. -/
  rejected : ∀ {s t : State} {e : Failure} {address size : Nat}, Moves p {} s →
    e.error? = some (.invalidMemoryAccess address size) →
    (∃ base, Exec.step p base s = .error e t) ∨ (∃ command, Command.obey p command s = .error e t) →
    0 < size ∧ ¬t.Owns address size
  /-- When a frame has returned, no access that touches its storage is inside a live allocation. -/
  returned : ∀ {s t : State} {fr : Frame} {rest : List Frame}, Moves p {} s →
    s.frames = fr :: rest → Exec.popFrame s = .ok () t →
    ∀ range ∈ fr.allocs, ∀ k, range.1 ≤ k ∧ k < range.1 + range.2 →
    ∀ address size, address ≤ k ∧ k < address + size → ¬t.Owns address size
  /-- Nor will one be before the allocator hands the storage out anew, whatever happens. This is so
  for all bytes that are not live. -/
  revived : ∀ {s t : State} {k : Nat}, Moves p {} s → Moves p s t → ¬s.Owns k 1 →
    ∀ address size, address ≤ k ∧ k < address + size → t.Owns address size →
    Memory.HandsOut p s.memory t.memory k
  /-- An access that touches a live allocation and is not inside it is inside no other. -/
  overrun : ∀ {s : State} {a : Allocation}, Moves p {} s → s.memory.Records a →
    ∀ k, a.start ≤ k ∧ k < a.start + a.size → ∀ address size, address ≤ k ∧ k < address + size →
    (address < a.start ∨ a.start + a.size < address + size) → ¬s.Owns address size
  /-- Bytes that are not live are not changed by anything but native code, unless they are handed
  out. -/
  unwritten : p.host.KeepsMemory → ∀ {s t : State} {k : Nat}, Moves p {} s → Moves p s t →
    ¬s.Owns k 1 →
    t.memory.arena.byteAt k = s.memory.arena.byteAt k ∨ Memory.HandsOut p s.memory t.memory k
  /-- Bytes that are not live are not looked at by anything but native code: calls from states that
  differ in such bytes end alike, in states that again differ in such bytes. -/
  unread : p.host.KeepsMemory → ∀ {s : State} {memory : Memory}, Moves p {} s →
    s.memory.Agrees memory → ∀ fuel id args,
    Coupling.unread.Matches (Exec.callFunction p fuel id args s)
      (Exec.callFunction p fuel id args { s with memory })
  /-- A session without rejected accesses has the same answers without sanitizing, and ends with
  the same memory, frames and caches. -/
  transparent : ∀ {commands : List Command},
    (∀ e, .error e ∈ (serve p commands {}).1 → ¬e.isRejection) →
    serve p.unsanitized commands {} = serve p commands {}
  /-- So does every single call, in whichever state it is made. -/
  transparentCall : ∀ {s : State} {fuel : Nat} {id : FuncId} {args : List Value}, Moves p {} s →
    Exec.callFunction p.unsanitized fuel id args s = Exec.callFunction p fuel id args s ∨
      ∃ e t, Exec.callFunction p fuel id args s = .error e t ∧ e.isRejection

/-- With sanitizing on, every access of the interpreter lies inside one live allocation, all others
are refused and none of these is, and for the rest the sanitizer is invisible. -/
theorem sanitizer_exact (hon : p.config.sanitizeMemory = true) (hhost : p.host.KeepsExtent) :
    Sanitized p where
  refused := by
    intro α x s t address size hs h hpos hout
    have hmoved := hs.trans (.of_makes h.makes)
    have htidy := hmoved.tidy hhost
    have howns : OwnsStack t := OwnsStack.fresh.moves hmoved
    apply h.refused
    rw [hon, ← Bool.not_eq_true, htidy.accessible_iff, howns.live_iff]
    rintro (hzero | hin)
    · omega
    · exact hout hin
  rejected := by
    intro s t e address size hs he hfails
    have hwatch := (Watch.kept_memory hon hhost).lasting
    have htidy := hs.tidy hhost
    rcases hfails with ⟨base, hstep⟩ | ⟨command, hobey⟩
    · have howns : OwnsStack t := by
        rw [← Exec.after_of_error hstep]
        exact (OwnsStack.fresh.moves hs).moves (Exec.step_moves base s)
      rw [← howns.live_iff]
      exact not_live_of_matches (hwatch.step base s s ⟨rfl, htidy⟩) hstep he
    · have howns : OwnsStack t := by
        rw [← Exec.after_of_error hobey]
        exact (OwnsStack.fresh.moves hs).moves (command.obey_moves s)
      rw [← howns.live_iff]
      exact not_live_of_matches (hwatch.obey (OwnsStack.fresh.moves hs) ⟨rfl, htidy⟩ command) hobey he
  returned := by
    intro s t fr rest hs hfr hpop range hmade k hk address size hak
    have hleaves := Exec.leaves_of_popFrame hpop
    have hdead := hleaves.dead (OwnsStack.fresh.moves hs) (hs.tidy hhost) hfr hmade hk
    have howns : OwnsStack t := OwnsStack.fresh.moves (hs.trans (.leaves hleaves))
    rw [← howns.live_iff]
    exact fun hlive => hdead (hlive.byte hak)
  revived := by
    intro s t k hs hmoved hdead address size hak howned
    rw [← (OwnsStack.fresh.moves hs).live_iff] at hdead
    rw [← (OwnsStack.fresh.moves (hs.trans hmoved)).live_iff] at howned
    exact hmoved.evolves.handsOut hdead (howned.byte hak)
  overrun := by
    intro s a hs ha k hka address size hak hout
    rw [← (OwnsStack.fresh.moves hs).live_iff]
    exact (hs.tidy hhost).not_live ha hka hak hout
  unwritten := by
    intro hkeeps s t k hs hmoved hdead
    rw [← (OwnsStack.fresh.moves hs).live_iff] at hdead
    exact hmoved.evolves.untouched hon hkeeps (hs.tidy hhost) hdead
  unread := by
    intro hkeeps s memory hs hagrees fuel id args
    have hsound := Coupling.sound_unread hon hkeeps
    exact hsound.callFunction (OwnsStack.fresh.moves hs) ⟨hs.tidy hhost, memory, hagrees, rfl⟩ fuel id args
  transparent := by
    intro commands hanswers
    apply serve_of_stricter p.config.stricter_sanitize OwnsStack.fresh
    intro e hanswer hrefused
    exact hanswers e hanswer (Config.isRejection_of_refuses hrefused)
  transparentCall := by
    intro s fuel id args hs
    have hsound := Coupling.sound_limits p.config.stricter_sanitize
    have hcall := hsound.callFunction (OwnsStack.fresh.moves hs) rfl fuel id args
    rcases Coupling.matches_limits_iff.mp hcall with hsame | ⟨e, t, herror, hrefused⟩
    · exact .inl hsame
    · exact .inr ⟨e, t, herror, Config.isRejection_of_refuses hrefused⟩

namespace Doubling

def checked : Program := program.under { sanitizeMemory := true }

/-- The state in which the argument has been stored into the function's variable. -/
def filled : State :=
  (Exec.step checked 0).after ((Exec.step checked 0).after
    ((Exec.startCall checked ⟨0⟩ [argument]).after {}))

theorem filled_moves : Moves checked {} filled := by
  have hentered : Reachable checked ((Exec.startCall checked ⟨0⟩ [argument]).after {}) :=
    .entered ⟨0⟩ [argument] .fresh rfl
  exact (Reachable.stepped (.stepped hentered)).moves

end Doubling

/-- The function runs without a sanitizer as it does with one. Once it has returned, its variable
can no longer be read. -/
theorem sanitizer_exact_doubling :
    (∃ v t, Exec.callFunction Doubling.checked.unsanitized 9 ⟨0⟩ [Doubling.argument] {} = .ok v t ∧
        v.bytes = [42, 0, 0, 0]) ∧
      ∃ t, Exec.popFrame Doubling.filled = .ok () t ∧ Doubling.filled.Owns Arena.base 4 ∧
        Exec.decayConst Doubling.checked ⟨0⟩ ⟨Ty.i32, .globalVar ⟨0⟩⟩
          (Value.ofAddress (Ty.mutPtrTo Ty.i32) Arena.base) t =
            .error (.of (.invalidMemoryAccess Arena.base 4)) t := by
  have hexact : Sanitized Doubling.checked := sanitizer_exact rfl Native.host_keepsExtent
  have hs := Doubling.filled_moves
  refine ⟨?_, ?_⟩
  · have h := Exec.eq_ok_of_result?
      (x := Exec.callFunction Doubling.checked 9 ⟨0⟩ [Doubling.argument]) (s := {})
      (a := { ty := Ty.i32, bytes := [42, 0, 0, 0] }) (by decide +kernel)
    rcases hexact.transparentCall (refl_of (Moves _) {}) with hsame | ⟨e, t, herror, _⟩
    · exact ⟨_, _, hsame.trans h, rfl⟩
    · rw [h] at herror
      cases herror
  · obtain ⟨fr, hfr, hmade⟩ : ∃ fr, Doubling.filled.frames = [fr] ∧ (Arena.base, 4) ∈ fr.allocs := by
      refine ⟨Doubling.filled.frames.head!, ?_, ?_⟩ <;> decide +kernel
    obtain ⟨stack, hpop, _⟩ := (OwnsStack.fresh.moves hs).popFrame_eq_ok hfr
    refine ⟨_, hpop, .inr ⟨fr, ?_, _, hmade, ?_⟩, ?_⟩
    · rw [hfr]
      exact List.mem_singleton_self fr
    · exact ⟨Nat.le_refl _, Nat.le_refl _⟩
    · have hmoved := hs.trans (.leaves (Exec.leaves_of_popFrame hpop))
      refine hexact.refused hmoved (.copy rfl ?_) (by decide) ?_
      · exact Value.asAddress_ofAddress _ (by decide)
      · exact hexact.returned hs hfr hpop _ hmade Arena.base ⟨Nat.le_refl _, by decide⟩ _ _
          ⟨Nat.le_refl _, by decide⟩

namespace Stale

/-- Returns a pointer to a byte of its own storage. -/
def scratch : Function where
  name := "scratch"
  ty := .function [] (Ty.mutPtrTo Ty.u8) false
  locals := #[⟨Ty.mutPtrTo Ty.u8, false⟩]
  blocks := #[⟨"entry", #[⟨.place .stackAlloc, [.type Ty.u8], some ⟨0⟩⟩,
    ⟨.ret, [.local ⟨0⟩], none⟩]⟩]

def read : Instruction := ⟨.place .readPtr, [.local ⟨0⟩], some ⟨2⟩⟩

/-- Allocates a byte of its own before it reads through that pointer. -/
def stale : Function where
  name := "stale"
  ty := .function [] Ty.u8 false
  locals := #[⟨Ty.mutPtrTo Ty.u8, false⟩, ⟨Ty.mutPtrTo Ty.u8, false⟩, ⟨Ty.u8, false⟩]
  blocks := #[⟨"entry", #[⟨.call .direct, [.const ⟨0⟩], some ⟨0⟩⟩,
    ⟨.place .stackAlloc, [.type Ty.u8], some ⟨1⟩⟩, read, ⟨.ret, [.local ⟨2⟩], none⟩]⟩]

/-- All released storage may be used again. -/
def program : Program where
  module :=
    { name := "stale"
      constants := #[⟨scratch.ty, .function ⟨0⟩⟩]
      functions := #[scratch, stale] }
  config := { sanitizeMemory := true }
  allocator := .firstFit (Nat.pow 2 30) 0

def pointer : Value := .ofAddress (Ty.mutPtrTo Ty.u8) Arena.base

/-- The state in which the inner function is about to return. -/
def inner : State :=
  (Exec.step program 0).after ((Exec.step program 0).after
    ((Exec.startCall program ⟨1⟩ []).after {}))

/-- Its frame is gone. -/
def returned : State := Exec.popFrame.after inner

/-- The outer function has been given the pointer and has allocated its byte. -/
def reused : State := (Exec.step program 0).after ((Exec.deliver program 0 pointer).after returned)

theorem inner_moves : Moves program {} inner := by
  have hentered : Reachable program ((Exec.startCall program ⟨1⟩ []).after {}) :=
    .entered ⟨1⟩ [] .fresh rfl
  exact (Reachable.stepped (.stepped hentered)).moves

theorem reused_moves : Moves program returned reused :=
  (Exec.deliver_moves 0 pointer returned).trans (Exec.step_moves 0 _)

theorem inner_frames : inner.frames = inner.frames.headD default :: inner.frames.tail := by
  decide +kernel

theorem popFrame_inner : Exec.popFrame inner = .ok () returned :=
  Exec.eq_ok_of_result? (by decide +kernel)

/-- In the end the outer function still has the pointer. -/
theorem operand_reused :
    Exec.operand program (.local ⟨0⟩) reused = .ok (pointer.withOrigin (.local ⟨0⟩)) reused := by
  have hframes : reused.frames = [reused.frames.headD default] := by decide +kernel
  have hfunction : (reused.frames.headD default).function = ⟨1⟩ := by decide +kernel
  have hfound : program.module.function (reused.frames.headD default).function = .ok stale := by
    rw [hfunction]
    rfl
  exact Exec.operand_local hframes hfound (by decide +kernel) rfl

end Stale

/-- Released storage may be handed out again. From then on a pointer into the frame that has returned
is as good as a new one, and a read through it is not refused. The whole run ends with what is
read. -/
theorem stale_pointer_accepted :
    (∃ v t, Exec.callFunction Stale.program 9 ⟨1⟩ [] {} = .ok v t ∧ v.bytes = [0]) ∧
      Moves Stale.program {} Stale.inner ∧
      (∃ fr rest, Stale.inner.frames = fr :: rest ∧ (Arena.base, 1) ∈ fr.allocs) ∧
      Exec.popFrame Stale.inner = .ok () Stale.returned ∧ ¬Stale.returned.Owns Arena.base 1 ∧
      Moves Stale.program Stale.returned Stale.reused ∧
      Accesses Stale.program Stale.reused
        (Exec.place Stale.program Stale.stale Stale.read .readPtr) Arena.base 1 Stale.reused ∧
      ∃ v t, Exec.place Stale.program Stale.stale Stale.read .readPtr Stale.reused = .ok v t := by
  have hs := Stale.inner_moves
  have hmade : (Arena.base, 1) ∈ (Stale.inner.frames.headD default).allocs := by decide +kernel
  refine ⟨?_, hs, ⟨_, _, Stale.inner_frames, hmade⟩, Stale.popFrame_inner, ?_, Stale.reused_moves,
    ?_, ?_⟩
  · have hrun := Exec.eq_ok_of_result? (x := Exec.callFunction Stale.program 9 ⟨1⟩ []) (s := {})
      (a := { ty := Ty.u8, bytes := [0] }) (by decide +kernel)
    exact ⟨_, _, hrun, rfl⟩
  · have hleaves := Exec.leaves_of_popFrame Stale.popFrame_inner
    have howns : OwnsStack Stale.returned := OwnsStack.fresh.moves (hs.trans (.leaves hleaves))
    have hdead := hleaves.dead (OwnsStack.fresh.moves hs) (hs.tidy Native.host_keepsExtent)
      Stale.inner_frames hmade ⟨Nat.le_refl Arena.base, by decide⟩
    exact fun howned => hdead (howns.live_iff.mpr howned)
  · have htarget : (Stale.pointer.withOrigin (.local ⟨0⟩)).asAddress = .ok Arena.base :=
      Value.asAddress_ofAddress (Ty.mutPtrTo Ty.u8) (by decide)
    have hdeclared : resultDecl Stale.stale Stale.read = .ok ⟨Ty.u8, false⟩ := rfl
    exact .readPtr rfl Stale.operand_reused htarget hdeclared
  · have hresult : (Exec.place Stale.program Stale.stale Stale.read .readPtr).result? Stale.reused =
        some (some { ty := Ty.u8, bytes := [0] }) := by
      decide +kernel
    exact ⟨_, _, Exec.eq_ok_of_result? hresult⟩

end PackedIR
