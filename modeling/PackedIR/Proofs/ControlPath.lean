/-
The path that control takes through a function.

A frame remembers two blocks, the one it executes and the one before it, and a PHI chooses by the
second. What these two say about the past is said here with a history: for each active call, all
the blocks it has executed. The history is kept beside the machine and the machine does not see it.
A jump adds a block to the call that jumps, a call begins a list of its own, and a return drops the
list of the call that ends and uncovers the caller's, which is as it was however long the callee has
run. In every state the two blocks of each frame are the first two of its list.

A PHI whose operands are pairs then takes the first pair that lists the second block of the list.
Its own error, that no pair does, has no other source: evaluating an operand never raises it.
-/
import Mathlib.Data.List.Forall2
import PackedIR.Proofs.Failures
import PackedIR.Proofs.Reachable

set_option autoImplicit false

namespace PackedIR

variable {α β : Type} {p : Program} {s t : State} {f : Function} {inst : Instruction}
  {fr : Frame} {rest : List Frame}

/-! ## Histories -/

/-- The blocks that each active call has executed, the latest first; the innermost call comes
first. -/
abbrev History := List (List BlockId)

namespace History

/-- What a history becomes when an instruction has been executed, by what the instruction led to.
A call that cannot be left, because its storage cannot be released, has not ended. -/
def record (history : History) (t : State) : Flow → History
  | .complete _ => history
  | .jump target => history.modifyHead (target :: ·)
  | .entered => [⟨0⟩] :: history
  | .ret _ => match Exec.popFrame t with
    | .ok _ _ => history.tail
    | .error _ _ => history

/-- What a history becomes with the next step. -/
def follow (p : Program) (s : State) (history : History) : History :=
  match s.frames with
  | [] => history
  | fr :: _ => match fr.current p.module with
    | .error _ => history
    | .ok (f, _, inst) => match Exec.execute p f inst s with
      | .ok flow t => history.record t flow
      | .error _ _ => history

theorem follow_nil (history : History) (hfr : s.frames = []) :
    history.follow p s = history := by
  unfold follow
  rw [hfr]

theorem follow_of_current_error (history : History) {e : Failure} (hfr : s.frames = fr :: rest)
    (hcur : fr.current p.module = .error e) : history.follow p s = history := by
  unfold follow
  simp only [hfr, hcur]

theorem follow_of_executed (history : History) {block : Block} {flow : Flow}
    (hfr : s.frames = fr :: rest) (hcur : fr.current p.module = .ok (f, block, inst))
    (hx : Exec.execute p f inst s = .ok flow t) :
    history.follow p s = history.record t flow := by
  unfold follow
  simp only [hfr, hcur, hx]

theorem follow_of_execute_error (history : History) {block : Block} {e : Failure}
    (hfr : s.frames = fr :: rest) (hcur : fr.current p.module = .ok (f, block, inst))
    (hx : Exec.execute p f inst s = .error e t) : history.follow p s = history := by
  unfold follow
  simp only [hfr, hcur, hx]

end History

/-- A state of a session together with the history of its active calls. -/
inductive Traced (p : Program) : State → History → Prop where
  | idle {s : State} : Idle p s → Traced p s []
  | entered {s t : State} (id : FuncId) (args : List Value) : Idle p s →
      Exec.startCall p id args s = .ok .entered t → Traced p t [[⟨0⟩]]
  | evaluated {s : State} {history : History} (os : List Operand) : Traced p s history →
      Traced p ((Exec.operands p os).after s) history
  | stepped {s : State} {history : History} : Traced p s history →
      Traced p ((Exec.step p 0).after s) (history.follow p s)

/-- Every state of a session has come about in some way, and the history tells which. -/
theorem Reachable.traced (h : Reachable p s) : ∃ history, Traced p s history := by
  induction h with
  | idle h => exact ⟨_, .idle h⟩
  | entered id args h hstart => exact ⟨_, .entered id args h hstart⟩
  | evaluated os _ ih =>
    obtain ⟨history, htraced⟩ := ih
    exact ⟨_, htraced.evaluated os⟩
  | stepped _ ih =>
    obtain ⟨history, htraced⟩ := ih
    exact ⟨_, htraced.stepped⟩

/-! ## Frames and their histories -/

/-- The frame is where its call has gone: the block it executes is the latest one, and the block it
came from is the one before. Every call begins at the first block of its function. -/
structure Frame.Follows (fr : Frame) (path : List BlockId) : Prop where
  block : path[0]? = some fr.block
  entered : path[0]? = some fr.entered
  previous : path[1]? = fr.previous
  entry : path.getLast? = some ⟨0⟩

/-- Only the blocks count. -/
theorem Frame.Follows.update {path : List BlockId} (h : fr.Follows path)
    (locals : Array (Option Value)) (pc : Nat) (allocs : List (Nat × Nat)) :
    Frame.Follows { fr with locals, pc, allocs } path :=
  ⟨h.block, h.entered, h.previous, h.entry⟩

theorem Frame.follows_entry (id : FuncId) (locals : Array (Option Value)) :
    Frame.Follows { function := id, locals } [⟨0⟩] :=
  ⟨rfl, rfl, rfl, rfl⟩

/-- The block that is executed is the one that was entered last. -/
theorem Frame.Follows.entered_eq {path : List BlockId} (h : fr.Follows path) :
    fr.entered = fr.block :=
  Option.some.inj (h.entered.symm.trans h.block)

theorem Frame.Follows.enterBlock {path : List BlockId} (h : fr.Follows path) (target : BlockId) :
    (fr.enterBlock target).Follows (target :: path) := by
  refine ⟨rfl, rfl, ?_, ?_⟩
  · rw [List.getElem?_cons_succ, h.entered]
    rfl
  · cases path with
    | nil =>
      have hentry := h.entry
      cases hentry
    | cons b path =>
      rw [List.getLast?_cons_cons]
      exact h.entry

/-- The history has one list for each frame, and each frame is where its list says. -/
def History.Fits (history : History) (frames : List Frame) : Prop :=
  List.Forall₂ Frame.Follows frames history

namespace History.Fits

variable {history : History} {flow : Flow}

theorem update (h : Fits history (fr :: rest)) (locals : Array (Option Value)) (pc : Nat)
    (allocs : List (Nat × Nat)) : Fits history ({ fr with locals, pc, allocs } :: rest) := by
  cases h with
  | cons hfr hrest => exact .cons (hfr.update locals pc allocs) hrest

/-- Delivering a value to the frame that waits for it leaves that frame where it was. -/
theorem deliver (h : Fits history s.frames) (base : Nat) (v : Value) :
    Fits history ((Exec.deliver p base v).after s).frames := by
  by_cases hlen : s.frames.length ≤ base
  · rw [Exec.after_of_ok (Exec.deliver_of_le hlen)]
    exact h
  · cases hfr : s.frames with
    | nil =>
      rw [hfr] at hlen
      exact absurd (Nat.zero_le base) hlen
    | cons fr rest =>
      have hlt : base < s.frames.length := by omega
      obtain ⟨⟨locals, pc, hafter⟩, _⟩ := Exec.deliver_shape (p := p) (v := v) hfr hlt
      rw [hafter]
      rw [hfr] at h
      exact h.update locals pc fr.allocs

/-- A return uncovers the history of the caller. -/
theorem ret (h : Fits history t.frames) (base : Nat) (v : Value) :
    Fits (history.record t (.ret v))
      ((do Exec.popFrame; Exec.deliver p base v : Exec (Option Value)).after t).frames := by
  cases hpop : Exec.popFrame t with
  | error e u =>
    have hfails : (do Exec.popFrame; Exec.deliver p base v : Exec (Option Value)) t = .error e u := by
      rw [Exec.bind_apply, hpop]
    rw [Exec.after_of_error hfails, Exec.popFrame_atomic t e u hpop]
    simp only [record, hpop]
    exact h
  | ok a u =>
    rw [Exec.after_congr (Exec.bind_of_ok hpop)]
    simp only [record, hpop]
    refine deliver ?_ base v
    cases Exec.leaves_of_popFrame hpop with
    | intro hfr _ =>
      rw [hfr] at h
      cases h with
      | cons _ hrest => exact hrest

/-- What follows an executed instruction keeps the frames where the history says. -/
theorem proceed (h : Fits history s.frames) (hx : Executed p inst s flow t) (base : Nat)
    (hfr : s.frames = fr :: rest) :
    Fits (history.record t flow) ((Exec.proceed p base f inst flow).after t).frames := by
  rw [hfr] at h
  cases flow with
  | complete v =>
    obtain ⟨allocs, ht⟩ := hx.frames hfr (by simp)
    obtain ⟨locals, pc, hshape⟩ := Exec.complete_shape ht f inst v
    unfold Exec.proceed
    rw [Exec.after_bind_reads fun _ => Exec.reads_pure _, hshape]
    exact h.update locals pc allocs
  | jump target =>
    obtain ⟨allocs, ht⟩ := hx.frames hfr (by simp)
    unfold Exec.proceed
    rw [Exec.after_bind_reads fun _ => Exec.reads_pure _,
      Exec.after_of_ok (Exec.modifyFrame_cons ht)]
    cases h with
    | cons hpath hrest =>
      exact .cons ((hpath.update fr.locals fr.pc allocs).enterBlock target) hrest
  | entered =>
    cases hx with
    | stays _ hne => exact absurd rfl hne
    | enters id _ heff henters =>
      obtain ⟨locals, hframes⟩ := henters.frames
      rw [heff.frames_eq, hfr] at hframes
      change Fits ([⟨0⟩] :: history) t.frames
      rw [hframes]
      exact .cons (Frame.follows_entry id locals) h
  | ret v =>
    obtain ⟨allocs, ht⟩ := hx.frames hfr (by simp)
    refine ret ?_ base v
    rw [ht]
    exact h.update fr.locals fr.pc allocs

/-- A step of the machine goes along the history. -/
theorem step (h : Fits history s.frames) (base : Nat) :
    Fits (history.follow p s) ((Exec.step p base).after s).frames := by
  cases hfr : s.frames with
  | nil =>
    rw [follow_nil history hfr, Exec.after_of_error (Exec.step_nil base hfr)]
    exact h
  | cons fr rest =>
    cases hcur : fr.current p.module with
    | error e =>
      rw [follow_of_current_error history hfr hcur,
        Exec.after_of_error (Exec.step_of_current_error base hfr hcur)]
      exact h
    | ok c =>
      obtain ⟨f, block, inst⟩ := c
      have hsettles := Exec.execute_settles (p := p) (s := s) f inst
      cases hx : Exec.execute p f inst s with
      | error e t =>
        rw [follow_of_execute_error history hfr hcur hx,
          Exec.after_of_error (Exec.step_of_execute_error base hfr hcur hx),
          (hsettles.of_error hx).frames_eq]
        exact h
      | ok flow t =>
        rw [follow_of_executed history hfr hcur hx,
          Exec.after_congr (Exec.step_of_executed base hfr hcur hx)]
        exact h.proceed (hsettles.of_ok hx) base hfr

end History.Fits

/-- In every state of a session each frame is where its history says. -/
theorem Traced.fits {history : History} (h : Traced p s history) : history.Fits s.frames := by
  induction h with
  | idle h =>
    rw [h.frames_eq_nil]
    exact .nil
  | entered id args h hstart =>
    cases (Exec.startCall_settles (refl_of (Effects p) _)).of_ok hstart with
    | entered heff henters =>
      obtain ⟨locals, hframes⟩ := henters.frames
      rw [hframes, heff.frames_eq, h.frames_eq_nil]
      exact .cons (Frame.follows_entry id locals) .nil
  | evaluated os _ ih =>
    rw [(Exec.operands_makes os _).frames_eq]
    exact ih
  | stepped _ ih => exact ih.step 0

/-! ## The error of a PHI

Only a PHI itself can miss a predecessor. Whatever else fails while its operand is evaluated has a
cause of its own. -/

namespace Exec

/-- No failure of the computation is about a predecessor that is not listed. -/
def Listed (x : Exec α) : Prop :=
  ∀ s function block, x.error? s ≠ some (.unlistedPredecessor function block)

theorem Listed.bind {x : Exec α} {g : α → Exec β} (hx : Listed x) (hg : ∀ a, Listed (g a)) :
    Listed (x >>= g) := by
  intro s function block
  have hfirst := hx s function block
  unfold error? at hfirst ⊢
  rw [bind_apply]
  cases h : x s with
  | ok a t => exact hg a t function block
  | error e t =>
    rw [h] at hfirst
    exact hfirst

theorem listed_of_total {x : Exec α} (h : ∀ s, ∃ a t, x s = .ok a t) : Listed x := by
  intro s function block
  obtain ⟨a, t, hok⟩ := h s
  unfold error?
  rw [hok]
  simp

theorem listed_pure (a : α) : Listed (pure a : Exec α) := listed_of_total fun s => ⟨a, s, rfl⟩

theorem listed_get : Listed (get : Exec State) := listed_of_total fun s => ⟨s, s, rfl⟩

theorem listed_modify (g : State → State) : Listed (modify g : Exec PUnit) :=
  listed_of_total fun _ => ⟨_, _, rfl⟩

theorem listed_throw {e : Failure} (he : e.error? = none) : Listed (throw e : Exec α) := by
  intro s function block
  change e.error? ≠ _
  rw [he]
  simp

theorem listed_liftFault (r : Except Fault α) : Listed (liftM r : Exec α) := by
  intro s function block
  cases r <;> simp [error?, Failure.error?]

/-- A pure computation is judged by its failures alone. -/
theorem listed_lift {r : Result α}
    (h : ∀ e function block, r = .error e → e.error? ≠ some (.unlistedPredecessor function block)) :
    Listed (liftM r : Exec α) := by
  intro s function block
  cases hr : r with
  | ok a => simp [error?]
  | error e => exact h e function block hr

theorem listed_raise {e : Error} (he : ∀ function block, e ≠ .unlistedPredecessor function block) :
    Listed (liftM (raise e : Result α) : Exec α) := by
  refine listed_lift ?_
  rintro _ function block ⟨⟩
  exact fun herror => he function block (Option.some.inj herror)

theorem listed_raiseOperand (e : OperandError) : Listed (liftM (raiseOperand e : Result α) : Exec α) :=
  listed_raise (by simp)

theorem listed_raiseTypes (activity : Activity) (types : List Ty) :
    Listed (liftM (raiseTypes activity types : Result α) : Exec α) :=
  listed_raise (by simp)

theorem listed_within {x : Exec α} (c : Context) (hx : Listed x) : Listed (within c x) := by
  intro s function block
  have hfirst := hx s function block
  unfold error? within at *
  cases h : x s with
  | ok a t => simp
  | error e t =>
    rw [h] at hfirst
    simpa using hfirst

theorem listed_ofBytes (ty : Ty) (bytes : Bytes) :
    Listed (liftM (Value.ofBytes ty bytes) : Exec Value) := by
  unfold Value.ofBytes checkSize
  split
  · exact listed_pure _
  · exact listed_raise (by simp)

theorem listed_retype (v : Value) (ty : Ty) : Listed (liftM (v.retype ty) : Exec Value) := by
  unfold Value.retype checkSize
  split
  · exact listed_pure _
  · exact listed_raise (by simp)

theorem listed_ofInt (ty : Ty) (i : Int) : Listed (liftM (Value.ofInt ty i) : Exec Value) := by
  unfold Value.ofInt
  split
  case h_5 => exact listed_raiseTypes _ _
  all_goals
    split
    · exact listed_pure _
    · exact listed_liftFault (.error _)

theorem listed_ofDouble (ty : Ty) (bits : Nat) :
    Listed (liftM (Value.ofDouble ty bits) : Exec Value) := by
  unfold Value.ofDouble
  split
  · exact listed_pure _
  · exact listed_raiseTypes _ _

theorem listed_asAddress (v : Value) : Listed (liftM v.asAddress : Exec Nat) := by
  unfold Value.asAddress
  split
  · exact listed_pure _
  · exact listed_raiseTypes _ _

theorem listed_load (address : Nat) (ty : Ty) : Listed (load p address ty) := by
  refine listed_get.bind fun s => ?_
  unfold Memory.load Memory.checkAccess
  split
  · exact listed_ofBytes _ _
  · exact listed_raise (by simp)

theorem listed_frame : Listed frame := by
  refine listed_get.bind fun s => ?_
  split
  · exact listed_pure _
  · exact listed_throw rfl

theorem listed_findRoom (size : Nat) : Listed (findRoom p size) := by
  refine listed_get.bind fun s => ?_
  split
  · exact listed_pure _
  · exact listed_throw rfl

theorem listed_allocStatic (kind : AllocKind) (bytes : Bytes) :
    Listed (allocStatic p kind bytes) := by
  unfold allocStatic
  split
  · exact listed_pure _
  · exact (listed_findRoom _).bind fun _ => listed_get.bind fun _ => (listed_liftFault _).bind
      fun _ => (listed_modify _).bind fun _ => listed_pure _

theorem listed_globalString (id : StringId) : Listed (globalString p id) := by
  refine listed_get.bind fun s => ?_
  split
  · exact listed_pure _
  · exact (listed_liftFault _).bind fun _ => (listed_allocStatic _ _).bind fun _ =>
      (listed_modify _).bind fun _ => listed_pure _

theorem listed_compileFunction (id : FuncId) : Listed (compileFunction p id) := by
  refine (listed_liftFault _).bind fun f => listed_get.bind fun s => ?_
  split
  · exact listed_pure _
  · split
    · exact listed_raiseOperand _
    · split
      · exact (listed_throw rfl).bind fun _ => (listed_modify _).bind fun _ => listed_pure _
      · exact (listed_modify _).bind fun _ => listed_pure _

theorem listed_constants {operand : ConstId → Exec Value} (h : ∀ id, Listed (operand id))
    (ids : List ConstId) : Listed (constants operand ids) := by
  induction ids with
  | nil => exact listed_pure _
  | cons id ids ih => exact (h id).bind fun _ => ih.bind fun _ => listed_pure _

theorem listed_ownedArray (ty : Ty) (address len : Nat) :
    Listed (liftM (ownedArray ty address len) : Exec Value) := by
  unfold ownedArray
  split
  · split
    · exact listed_ofBytes _ _
    · exact listed_throw rfl
  · exact listed_raiseTypes _ _

theorem listed_materialize {operand : ConstId → Exec Value} (h : ∀ id, Listed (operand id))
    (c : Constant) : Listed (materialize p operand c) := by
  obtain ⟨ty, kind⟩ := c
  cases kind with
  | int i | bool b => exact listed_ofInt _ _
  | float bits => exact listed_ofDouble _ _
  | zero => exact listed_pure _
  | text text => exact (listed_allocStatic _ _).bind fun _ => listed_ofInt _ _
  | globalString id => exact (listed_globalString id).bind fun _ => listed_ofInt _ _
  | bitcast inner => exact (h inner).bind fun _ => listed_retype _ _
  | array | tuple | enumCase | slice | parts =>
    exact (listed_constants h _).bind fun _ => listed_ofBytes _ _
  | owned array =>
    exact (h array).bind fun _ => (listed_allocStatic _ _).bind fun _ => listed_ownedArray _ _ _
  | function id => exact (listed_compileFunction id).bind fun _ => listed_ofInt _ _
  | globalVar id =>
    refine listed_get.bind fun s => ?_
    split
    · exact listed_pure _
    · exact (listed_liftFault _).bind fun _ =>
        listed_raise (by simp)

theorem listed_decayConst (id : ConstId) (c : Constant) (v : Value) :
    Listed (decayConst p id c v) := by
  unfold decayConst
  split
  · exact (listed_asAddress v).bind fun _ => (listed_load _ _).bind fun _ => listed_pure _
  · exact listed_pure _

theorem listed_constValueWith (budget : Nat) (id : ConstId) :
    Listed (constValueWith p budget id) := by
  induction budget generalizing id with
  | zero =>
    refine listed_get.bind fun s => ?_
    split
    · exact listed_pure _
    · exact listed_throw rfl
  | succ budget ih =>
    refine listed_get.bind fun s => ?_
    split
    · exact listed_pure _
    · refine (listed_liftFault _).bind fun c => ?_
      refine (listed_within _ (listed_materialize (fun m => ?_) c)).bind fun v =>
        (listed_modify _).bind fun _ => listed_pure _
      exact (listed_liftFault _).bind fun mc => (ih m).bind fun _ => listed_decayConst _ _ _

theorem listed_operand (o : Operand) : Listed (operand p o) := by
  cases o with
  | «local» l =>
    refine listed_frame.bind fun fr => (listed_liftFault _).bind fun f => ?_
    split
    · exact listed_raise (by simp)
    · split
      · exact (listed_asAddress _).bind fun _ => (listed_load _ _).bind fun _ => listed_pure _
      · exact listed_pure _
  | const id =>
    exact (listed_liftFault _).bind fun c => (listed_constValueWith _ id).bind fun _ =>
      listed_decayConst _ _ _
  | block | type => exact listed_raiseOperand _

/-! ## The choice of a PHI -/

/-- The operands of a PHI that lists values for predecessors. -/
def phiArgs (pairs : List (BlockId × Operand)) : List Operand :=
  pairs.flatMap fun pair => [.block pair.1, pair.2]

theorem length_phiArgs (pairs : List (BlockId × Operand)) :
    (phiArgs pairs).length = 2 * pairs.length := by
  induction pairs with
  | nil => rfl
  | cons pair pairs ih =>
    change (phiArgs pairs).length + 1 + 1 = _
    rw [ih, List.length_cons]
    omega

theorem phiOperand_phiArgs (previous : Option BlockId) (pairs : List (BlockId × Operand)) :
    phiOperand previous (phiArgs pairs) =
      .ok ((pairs.find? fun pair => some pair.1 = previous).map Prod.snd) := by
  induction pairs with
  | nil => rfl
  | cons pair pairs ih =>
    change (if some pair.1 = previous then Except.ok (some pair.2)
      else phiOperand previous (phiArgs pairs)) = _
    by_cases hlisted : some pair.1 = previous
    · rw [if_pos hlisted, List.find?_cons_of_pos (by simpa using hlisted)]
      rfl
    · rw [if_neg hlisted, List.find?_cons_of_neg (by simpa using hlisted), ih]

/-- A PHI of pairs evaluates the operand of the first pair that lists the block control came from,
and nothing else. -/
theorem execute_phi (hfr : s.frames = fr :: rest) (f : Function)
    (pairs : List (BlockId × Operand)) (result : Option Local) :
    execute p f ⟨.phi, phiArgs pairs, result⟩ s =
      match pairs.find? fun pair => some pair.1 = fr.previous with
      | some pair => (do return .complete (some (← operand p pair.2)) : Exec Flow) s
      | none => .error (.of (.unlistedPredecessor f.name
          ((fr.previous.bind f.block?).map Block.name))) s := by
  have heven : ¬(phiArgs pairs).length % 2 ≠ 0 := by
    rw [length_phiArgs]
    omega
  change (do return .complete (some (← phi p f ⟨.phi, phiArgs pairs, result⟩)) : Exec Flow) s = _
  unfold phi
  rw [bind_assoc, bind_of_ok (frame_eq_ok_iff.mpr ⟨rfl, rest, hfr⟩)]
  dsimp only
  rw [if_neg heven, phiOperand_phiArgs, bind_assoc, bind_of_ok (lift_ok _ _)]
  cases pairs.find? fun pair => some pair.1 = fr.previous <;> rfl

end Exec

/-- A step of the innermost call leaves what the other calls have executed as it is. -/
theorem History.follow_cons (p : Program) (s : State) (path : List BlockId) (paths : History) :
    ∃ inner, History.follow p s (path :: paths) = inner ++ paths := by
  have hrecord (t : State) (flow : Flow) : ∃ inner, record (path :: paths) t flow = inner ++ paths := by
    cases flow with
    | complete v => exact ⟨[path], rfl⟩
    | jump target => exact ⟨[target :: path], rfl⟩
    | entered => exact ⟨[[⟨0⟩], path], rfl⟩
    | ret v =>
      unfold record
      dsimp only
      split
      · exact ⟨[], rfl⟩
      · exact ⟨[path], rfl⟩
  unfold follow
  split
  · exact ⟨[path], rfl⟩
  · split
    · exact ⟨[path], rfl⟩
    · split
      · exact hrecord _ _
      · exact ⟨[path], rfl⟩

/-- Every frame executes the block that was entered last in it: the two are never apart. -/
theorem entered_eq_block (hs : Reachable p s) : ∀ fr ∈ s.frames, fr.entered = fr.block := by
  obtain ⟨history, htraced⟩ := hs.traced
  have hfits : List.Forall₂ Frame.Follows s.frames history := htraced.fits
  clear htraced
  generalize s.frames = frames at hfits
  induction hfits with
  | nil => exact fun fr hfr => absurd hfr List.not_mem_nil
  | cons hpath _ ih => exact List.forall_mem_cons.mpr ⟨hpath.entered_eq, ih⟩

/-- In every state of a session each frame executes the last block of its own history and came from
the one before, whatever calls have been made in between. A PHI of pairs evaluates the operand of
the first pair that lists that block, and misses a predecessor exactly when no pair lists it. -/
theorem phi_follows_control_path (hs : Reachable p s) :
    (∃ history, Traced p s history) ∧
    ∀ history, Traced p s history →
      history.Fits s.frames ∧
      (∀ path paths, history = path :: paths → ∃ inner, history.follow p s = inner ++ paths) ∧
      ∀ (fr : Frame) (rest : List Frame) (path : List BlockId) (paths : History),
        s.frames = fr :: rest → history = path :: paths →
        ∀ (f : Function) (pairs : List (BlockId × Operand)) (result : Option Local),
          (∀ pair, (pairs.find? fun pair => some pair.1 = path[1]?) = some pair →
            Exec.execute p f ⟨.phi, Exec.phiArgs pairs, result⟩ s =
              (do return .complete (some (← Exec.operand p pair.2)) : Exec Flow) s) ∧
          ((∃ function name, (Exec.execute p f ⟨.phi, Exec.phiArgs pairs, result⟩).error? s =
              some (.unlistedPredecessor function name)) ↔
            ∀ pair ∈ pairs, some pair.1 ≠ path[1]?) := by
  refine ⟨hs.traced, fun history htraced => ⟨htraced.fits, ?_, ?_⟩⟩
  · rintro path paths rfl
    exact History.follow_cons p s path paths
  · rintro fr rest path paths hfr rfl f pairs result
    -- The block that the frame came from is the second of its history.
    have hprevious : path[1]? = fr.previous := by
      have hfits := htraced.fits
      rw [hfr] at hfits
      cases hfits with
      | cons hpath _ => exact hpath.previous
    have hphi := Exec.execute_phi (p := p) hfr f pairs result
    rw [← hprevious] at hphi
    refine ⟨fun pair hfound => ?_, ?_, fun hnone => ?_⟩
    · simpa only [hfound] using hphi
    · rintro ⟨function, name, herror⟩
      cases hfound : pairs.find? fun pair => some pair.1 = path[1]? with
      | none =>
        intro pair hpair
        simpa using List.find?_eq_none.mp hfound pair hpair
      | some pair =>
        -- With a pair that lists the block, only its operand can fail.
        simp only [hfound] at hphi
        have hlisted := (Exec.listed_operand (p := p) pair.2).bind
          fun v => Exec.listed_pure (Flow.complete (some v))
        refine absurd ?_ (hlisted s function name)
        unfold Exec.error? at herror ⊢
        rwa [hphi] at herror
    · have hfound : (pairs.find? fun pair => some pair.1 = path[1]?) = none := by
        refine List.find?_eq_none.mpr fun pair hpair => ?_
        simpa using hnone pair hpair
      simp only [hfound] at hphi
      refine ⟨f.name, (path[1]?.bind f.block?).map Block.name, ?_⟩
      unfold Exec.error?
      rw [hphi]
      rfl

/-! ## A loop that calls a function

The block jumps to itself, and calls another function each time. -/

namespace Looping

def choice : Instruction :=
  ⟨.phi, Exec.phiArgs [(⟨0⟩, .const ⟨1⟩), (⟨1⟩, .const ⟨2⟩)], some ⟨0⟩⟩

def callee : Function where
  name := "callee"
  ty := .function [] Ty.u8 false
  locals := #[]
  blocks := #[⟨"entry", #[⟨.ret, [.const ⟨1⟩], none⟩]⟩]

def loop : Function where
  name := "loop"
  ty := .function [] Ty.u8 false
  locals := #[⟨Ty.u8, false⟩, ⟨Ty.u8, false⟩]
  blocks := #[⟨"entry", #[⟨.branch, [.block ⟨1⟩], none⟩]⟩,
    ⟨"body", #[choice, ⟨.call .direct, [.const ⟨0⟩], some ⟨1⟩⟩, ⟨.branch, [.block ⟨1⟩], none⟩]⟩]

def program : Program where
  module :=
    { name := "looping"
      constants := #[⟨callee.ty, .function ⟨0⟩⟩, ⟨Ty.u8, .int 1⟩, ⟨Ty.u8, .int 2⟩]
      functions := #[callee, loop] }

/-- The state and the history after some steps of the loop. -/
def run : Nat → State × History
  | 0 => ((Exec.startCall program ⟨1⟩ []).after {}, [[⟨0⟩]])
  | n + 1 => ((Exec.step program 0).after (run n).1, (run n).2.follow program (run n).1)

theorem run_traced (n : Nat) : Traced program (run n).1 (run n).2 := by
  induction n with
  | zero => exact .entered ⟨1⟩ [] .fresh rfl
  | succ n ih => exact ih.stepped

theorem run_reachable (n : Nat) : Reachable program (run n).1 := by
  induction n with
  | zero => exact .entered ⟨1⟩ [] .fresh rfl
  | succ n ih => exact ih.stepped

end Looping

/-- After the first round, with its call, the loop comes from itself and takes the second operand. -/
theorem phi_follows_control_path_looping :
    Traced Looping.program (Looping.run 5).1 [[⟨1⟩, ⟨1⟩, ⟨0⟩]] ∧
    Exec.execute Looping.program Looping.loop Looping.choice (Looping.run 5).1 =
      (do return .complete (some (← Exec.operand Looping.program (.const ⟨2⟩))) : Exec Flow)
        (Looping.run 5).1 := by
  have hpath : (Looping.run 5).2 = [[⟨1⟩, ⟨1⟩, ⟨0⟩]] := by decide +kernel
  have htraced := Looping.run_traced 5
  rw [hpath] at htraced
  have hframes : (Looping.run 5).1.frames =
      (Looping.run 5).1.frames.headD default :: [] := by decide +kernel
  obtain ⟨_, hall⟩ := phi_follows_control_path (Looping.run_reachable 5)
  obtain ⟨_, _, hphi⟩ := hall _ htraced
  obtain ⟨hchosen, _⟩ := hphi _ _ _ _ hframes rfl Looping.loop
    [(⟨0⟩, .const ⟨1⟩), (⟨1⟩, .const ⟨2⟩)] (some ⟨0⟩)
  exact ⟨htraced, hchosen (⟨1⟩, .const ⟨2⟩) (by decide)⟩

end PackedIR
