import Papa.Emu.AddressSpace
import Papa.Emu.WorkspaceEmulator

/-!
# The budgets of a run

Every turn of the loop over a path ends it, or executes an instruction and leaves fewer of them. A
path that is queued takes one of a bounded number of places, so the paths run out once the
instructions do. The number of turns that may still come bounds the visits of every address, and no
counter of visits wraps.

## Main definitions

* `Run.WithinBudgets`: the bounds.
* `Run.turnsLeft`: how many more turns a run may take.

## Main results

* `runFunction_bounded`: every run ends, within its budgets, and every path starts from the state it
  was queued in.
-/

namespace Papa.Emu

open StateTransition StateMachine

/-! ### Saved states -/

theorem RegisterFile.restore_snapshot {r r' : RegisterFile} (h : r'.is64bit = r.is64bit) :
    r'.restore r.snapshot = r := by
  obtain ⟨mode, vals, taint, xmm, masked⟩ := r
  obtain ⟨mode', vals', taint', xmm', masked'⟩ := r'
  obtain rfl : mode' = mode := h
  unfold restore snapshot
  congr 1
  funext i
  exact masked i

/-- A state of the same space that goes back to a saved state is that state. -/
theorem Emulator.setSnap_getSnap {e e' : Emulator} (h : SameSpace e e') :
    e'.setSnap e.getSnap = e := by
  obtain ⟨regs, maps, overlay, cap⟩ := e
  obtain ⟨regs', maps', overlay', cap'⟩ := e'
  obtain ⟨hmode, rfl, rfl⟩ := h
  exact congrArg (Emulator.mk · _) (RegisterFile.restore_snapshot hmode)

theorem Emulator.sameSpace_setSnap {e e' : Emulator} (h : SameSpace e e')
    (snap : Emulator.Snapshot) : SameSpace e (e'.setSnap snap) := ⟨h.is64bit, h.maps, h.overlayCap⟩

namespace Run

open Emulator

variable {μ : Type} {host : Host} {monitor : Monitor μ} {maxhit : UInt32} {s t u : Run μ}

/-! ### What a turn changes -/

/-- Two states of a run with the same books. -/
structure SameBooks (s t : Run μ) : Prop where
  hits : t.hits = s.hits
  todo : t.todo = s.todo
  queuedOverlay : t.queuedOverlay = s.queuedOverlay
  steps : t.steps = s.steps
  executed : t.executed = s.executed
  space : SameSpace s.we.emu t.we.emu

namespace SameBooks

theorem refl : SameBooks s s := ⟨rfl, rfl, rfl, rfl, rfl, .refl⟩

theorem trans (h : SameBooks s t) (h' : SameBooks t u) : SameBooks s u :=
  ⟨h'.hits.trans h.hits, h'.todo.trans h.todo, h'.queuedOverlay.trans h.queuedOverlay,
    h'.steps.trans h.steps, h'.executed.trans h.executed, h.space.trans h'.space⟩

end SameBooks

/-- The rest of a turn keeps the books. It goes on with the path, or leaves it, or ends the run, or
queues successors with the state at hand. -/
structure Settles (s t : Run μ) : Prop where
  books : SameBooks s t
  control : t.control = s.control ∨ t.control = .queue ∨ t.control = .returned ∨
    ∃ targets, t.control = .queueing targets t.we.emu.getSnap

theorem Settles.of_books (h : SameBooks s t) (hcontrol : t.control = s.control)
    (h' : Settles t u) : Settles s u where
  books := h.trans h'.books
  control := by
    rw [← hcontrol]
    exact h'.control

theorem settles_leave : Settles s s.leave := ⟨⟨rfl, rfl, rfl, rfl, rfl, .refl⟩, .inr (.inl rfl)⟩

theorem books_hear (answer : μ × Bool) : SameBooks s (s.hear answer) :=
  ⟨rfl, rfl, rfl, rfl, rfl, .refl⟩

theorem settles_unlessStopped {f : Run μ → Run μ} (hf : Settles s (f s)) :
    Settles s (s.unlessStopped f) := by
  unfold unlessStopped
  split_ifs
  · exact ⟨⟨rfl, rfl, rfl, rfl, rfl, .refl⟩, .inr (.inr (.inl rfl))⟩
  · exact hf

theorem settles_afterCall (op : DecodedInsn) (isCall : Bool) (s : Run μ) :
    Settles s (afterCall op isCall s) := by
  unfold afterCall
  dsimp only
  generalize (if isCall then [] else s.we.checkBranches op) = targets
  split_ifs
  · exact ⟨⟨rfl, rfl, rfl, rfl, rfl, .refl⟩, .inr (.inr (.inr ⟨_, rfl⟩))⟩
  · exact settles_leave
  · exact ⟨.refl, .inl rfl⟩

theorem sameSpace_passCall (we : WorkspaceEmulator) (insn : DecodedInsn) :
    SameSpace we.emu (we.passCall insn).emu :=
  ⟨(setRegister_is64bit _).trans rfl, rfl, rfl⟩

theorem settles_checkCall (op : DecodedInsn) (s : Run μ) : Settles s (checkCall monitor op s) := by
  unfold checkCall
  split_ifs
  · refine .of_books (t := { s with we := s.we.passCall op })
      ⟨rfl, rfl, rfl, rfl, rfl, sameSpace_passCall _ op⟩ rfl ?_
    exact .of_books (books_hear _) rfl (settles_unlessStopped (settles_afterCall op true _))
  · exact settles_unlessStopped (settles_afterCall op false s)

theorem settles_afterExecute (op : DecodedInsn) (starteip : UInt64) (result : ExecResult)
    (s : Run μ) : Settles s (afterExecute monitor op starteip result s) := by
  have hrest (s : Run μ) : Settles s (s.unlessStopped fun s =>
      if result ≠ .continue then s.leave else checkCall monitor op s) := by
    refine settles_unlessStopped ?_
    split_ifs
    · exact settles_leave
    · exact settles_checkCall op s
  unfold afterExecute
  by_cases hzero : result = .divideByZero
  · rw [if_pos hzero]
    exact .of_books (books_hear _) rfl (hrest _)
  · rw [if_neg hzero]
    exact hrest s

theorem sameSpace_execute (e : Emulator) (insn : DecodedInsn) :
    SameSpace e (host.execute e insn).2 := by
  unfold Host.execute
  cases h : e.executeOpcode insn with
  | ok out => exact yields_executeOpcode out h
  | error _ => exact sameSpace_setSnap .refl _

/-- The books after an instruction at `va`. -/
def executedAt (s : Run μ) (va : UInt64) : Run μ :=
  { s with steps := s.steps + 1, executed := va :: s.executed }

theorem settles_executeOpcode (op : DecodedInsn) (starteip : UInt64) (s : Run μ) :
    Settles (s.executedAt starteip) (executeOpcode host monitor op starteip s) := by
  refine .of_books (t := (executedAt { s with
    we := { s.we with emu := (host.execute s.we.emu op).2 } } starteip)) ?_ rfl ?_
  · exact ⟨rfl, rfl, rfl, rfl, rfl, sameSpace_execute _ _⟩
  · exact .of_books (books_hear _) rfl
      (settles_unlessStopped (settles_afterExecute op starteip _ _))

/-- The books after a visit of the address at hand. -/
def visited (s : Run μ) : Run μ :=
  let va := s.we.emu.programCounter
  { s with hits := Function.update s.hits va (s.hits va + 1) }

variable (host monitor maxhit) in
/-- **A turn** ends the path or the run, with or without a visit of the address at hand, or it
visits and executes it. -/
theorem turn_cases (s : Run μ) :
    (∃ s' ∈ [s, s.visited], SameBooks s' (s.turn host monitor maxhit) ∧
      ((s.turn host monitor maxhit).control = .queue ∨
        (s.turn host monitor maxhit).control = .returned)) ∨
    s.hits s.we.emu.programCounter + 1 ≤ maxhit ∧
      Settles (s.visited.executedAt s.we.emu.programCounter) (s.turn host monitor maxhit) := by
  unfold turn
  dsimp only
  split_ifs with hvalid hhit
  · exact .inl ⟨s.visited, by simp, ⟨rfl, rfl, rfl, rfl, rfl, .refl⟩, .inl rfl⟩
  · cases host.decodeAt s.we.emu s.we.emu.programCounter with
    | none => exact .inl ⟨s.visited, by simp, ⟨rfl, rfl, rfl, rfl, rfl, .refl⟩, .inl rfl⟩
    | some op =>
      dsimp only
      unfold unlessStopped
      split_ifs
      · exact .inl ⟨s.visited, by simp, ⟨rfl, rfl, rfl, rfl, rfl, .refl⟩, .inr rfl⟩
      · refine .inr ⟨UInt32.not_lt.mp hhit, ?_⟩
        let heard := s.visited.hear (monitor.prehook s.monitor s.we op s.we.emu.programCounter)
        exact .of_books (t := heard.executedAt s.we.emu.programCounter)
          ⟨rfl, rfl, rfl, rfl, rfl, .refl⟩ rfl (settles_executeOpcode op _ heard)
  · exact .inl ⟨s, by simp, ⟨rfl, rfl, rfl, rfl, rfl, .refl⟩, .inl rfl⟩

/-! ### Budgets -/

/-- The paths that wait and the entries of their overlays. -/
def overlayEntries (todo : List (UInt64 × Emulator.Snapshot)) : ℕ :=
  (todo.map fun path => path.2.mem.overlay.length).sum

/-- The bounds of a run. -/
structure WithinBudgets (maxhit : UInt32) (s : Run μ) : Prop where
  steps_le : s.steps ≤ kMaxEmuSteps
  length_executed : s.executed.length = s.steps
  count_le : ∀ va, s.executed.count va ≤ maxhit.toNat
  length_todo_le : s.todo.length ≤ kMaxTodoQueue
  queuedOverlay_eq : s.queuedOverlay = overlayEntries s.todo
  queuedOverlay_le : s.queuedOverlay ≤ kMaxQueuedOverlayEntries

/-- How many more turns a run may take: an instruction that is executed may fill the queue. -/
def turnsLeft (s : Run μ) : ℕ :=
  (kMaxEmuSteps - s.steps) * (kMaxTodoQueue + 1) +
    match s.control with
    | .queue => s.todo.length
    | .path => s.todo.length + 1
    | .queueing _ _ => kMaxTodoQueue
    | .returned => 0

/-- How far a run is from its next turn. -/
def distance (s : Run μ) : ℕ :=
  match s.control with
  | .queue => 1
  | .queueing targets _ => targets.length + 2
  | .path | .returned => 0

/-- What every step of a run from the state `e₀` keeps. -/
structure Inv (maxhit : UInt32) (e₀ : Emulator) (s : Run μ) : Prop where
  budgets : WithinBudgets maxhit s
  count_le_hits : ∀ va, s.executed.count va ≤ (s.hits va).toNat
  hits_add_le : ∀ va, (s.hits va).toNat + s.turnsLeft ≤ kMaxEmuSteps * (kMaxTodoQueue + 1) +
    kMaxTodoQueue
  space : SameSpace e₀ s.we.emu
  snap_eq : ∀ targets snap, s.control = .queueing targets snap → snap = s.we.emu.getSnap

/-- A step leaves fewer turns, or as many and a shorter distance to the next. -/
def Descends (t s : Run μ) : Prop :=
  t.turnsLeft < s.turnsLeft ∨ t.turnsLeft = s.turnsLeft ∧ t.distance < s.distance

theorem WithinBudgets.of_books (hs : WithinBudgets maxhit s) (h : SameBooks s t) :
    WithinBudgets maxhit t where
  steps_le := h.steps ▸ hs.steps_le
  length_executed := by rw [h.executed, h.steps, hs.length_executed]
  count_le va := h.executed ▸ hs.count_le va
  length_todo_le := h.todo ▸ hs.length_todo_le
  queuedOverlay_eq := by rw [h.queuedOverlay, h.todo, hs.queuedOverlay_eq]
  queuedOverlay_le := h.queuedOverlay ▸ hs.queuedOverlay_le

/-- A run takes fewer turns than fill the queue once for each of its instructions. -/
theorem turnsLeft_le (h : s.todo.length ≤ kMaxTodoQueue) :
    s.turnsLeft ≤ (kMaxEmuSteps - s.steps) * (kMaxTodoQueue + 1) + (kMaxTodoQueue + 1) := by
  unfold turnsLeft
  refine Nat.add_le_add_left ?_ _
  cases s.control with
  | queue | path | queueing targets snap | returned => dsimp only; omega

theorem turnsLeft_path (hcontrol : s.control = .path) : s.turnsLeft =
    (kMaxEmuSteps - s.steps) * (kMaxTodoQueue + 1) + (s.todo.length + 1) := by
  rw [turnsLeft, hcontrol]

/-- Leaving a path, or ending a run, takes its turn. -/
theorem turnsLeft_lt_of_leave (hcontrol : s.control = .path) (hsteps : t.steps = s.steps)
    (htodo : t.todo = s.todo) (hleft : t.control = .queue ∨ t.control = .returned) :
    t.turnsLeft < s.turnsLeft := by
  rw [turnsLeft_path hcontrol, turnsLeft, hsteps]
  refine Nat.add_lt_add_left ?_ _
  obtain hleft | hleft := hleft
  · rw [hleft, htodo]
    exact Nat.lt_succ_self _
  · rw [hleft]
    exact Nat.succ_pos _

/-- An instruction takes the turns of a full queue. -/
theorem turnsLeft_lt_of_executed (hcontrol : s.control = .path) (hlt : s.steps < kMaxEmuSteps)
    (hsteps : t.steps = s.steps + 1) (htodo : t.todo.length ≤ kMaxTodoQueue) :
    t.turnsLeft < s.turnsLeft := by
  have hle := turnsLeft_le htodo
  have hsplit : (kMaxEmuSteps - t.steps) * (kMaxTodoQueue + 1) + (kMaxTodoQueue + 1) =
      (kMaxEmuSteps - s.steps) * (kMaxTodoQueue + 1) := by
    rw [hsteps, ← Nat.succ_mul]
    congr 1
    omega
  rw [turnsLeft_path hcontrol]
  omega

theorem toNat_visited_le (s : Run μ) (va : UInt64) :
    (s.visited.hits va).toNat ≤ (s.hits va).toNat + 1 := by
  show (Function.update s.hits s.we.emu.programCounter _ va).toNat ≤ _
  by_cases hva : va = s.we.emu.programCounter
  · rw [hva, Function.update_self, UInt32.toNat_add]
    exact Nat.mod_le _ _
  · rw [Function.update_of_ne hva]
    exact Nat.le_succ _

theorem le_toNat_visited (s : Run μ) {va : UInt64} (hlt : (s.hits va).toNat + 1 < 2 ^ 32) :
    (s.hits va).toNat ≤ (s.visited.hits va).toNat := by
  show _ ≤ (Function.update s.hits s.we.emu.programCounter _ va).toNat
  by_cases hva : va = s.we.emu.programCounter
  · rw [← hva, Function.update_self, UInt32.toNat_add]
    show _ ≤ ((s.hits va).toNat + 1) % 2 ^ 32
    rw [Nat.mod_eq_of_lt hlt]
    exact Nat.le_succ _
  · rw [Function.update_of_ne hva]

namespace Inv

variable {e₀ : Emulator}

/-- No counter of visits wraps. -/
theorem hits_lt (h : Inv maxhit e₀ s) (va : UInt64) : (s.hits va).toNat + 1 < 2 ^ 32 := by
  have hle := h.hits_add_le va
  norm_num [kMaxEmuSteps, kMaxTodoQueue] at hle ⊢
  omega

/-- A visit without an instruction. -/
theorem visited (h : Inv maxhit e₀ s) {s' : Run μ} (hs' : s' ∈ [s, s.visited])
    (hcontrol : s.control = .path) (hbooks : SameBooks s' t)
    (hleft : t.control = .queue ∨ t.control = .returned) :
    Inv maxhit e₀ t ∧ t.turnsLeft < s.turnsLeft := by
  have hvisited : SameBooks { s with hits := s'.hits } t ∧
      ∀ va, (s.hits va).toNat ≤ (s'.hits va).toNat ∧
        (s'.hits va).toNat ≤ (s.hits va).toNat + 1 := by
    rw [List.mem_pair] at hs'
    obtain rfl | rfl := hs'
    · exact ⟨hbooks, fun va => ⟨le_rfl, Nat.le_succ _⟩⟩
    · exact ⟨hbooks, fun va => ⟨le_toNat_visited s (h.hits_lt va), toNat_visited_le s va⟩⟩
  obtain ⟨hbooks, hhits⟩ := hvisited
  have hturns := turnsLeft_lt_of_leave hcontrol hbooks.steps hbooks.todo hleft
  refine ⟨⟨?_, fun va => ?_, fun va => ?_, h.space.trans hbooks.space, fun targets snap hq => ?_⟩,
    hturns⟩
  · exact WithinBudgets.of_books (s := { s with hits := s'.hits }) ⟨h.budgets.steps_le,
      h.budgets.length_executed, h.budgets.count_le, h.budgets.length_todo_le,
      h.budgets.queuedOverlay_eq, h.budgets.queuedOverlay_le⟩ hbooks
  · rw [hbooks.executed, hbooks.hits]
    exact (h.count_le_hits va).trans (hhits va).1
  · have hle := h.hits_add_le va
    have hone := (hhits va).2
    rw [hbooks.hits]
    show (s'.hits va).toNat + _ ≤ _
    omega
  · rw [hq] at hleft
    exact absurd hleft nofun

/-- A visit and an instruction. -/
theorem executed (h : Inv maxhit e₀ s) (hcontrol : s.control = .path)
    (hlt : s.steps < kMaxEmuSteps) (hhit : s.hits s.we.emu.programCounter + 1 ≤ maxhit)
    (hsettles : Settles (s.visited.executedAt s.we.emu.programCounter) t) :
    Inv maxhit e₀ t ∧ t.turnsLeft < s.turnsLeft := by
  obtain ⟨hbooks, hcontrol'⟩ := hsettles
  have htodo : t.todo = s.todo := hbooks.todo
  have hturns := turnsLeft_lt_of_executed hcontrol hlt hbooks.steps
    (htodo ▸ h.budgets.length_todo_le)
  have hone : (s.hits s.we.emu.programCounter + 1).toNat =
      (s.hits s.we.emu.programCounter).toNat + 1 := by
    rw [UInt32.toNat_add]
    exact Nat.mod_eq_of_lt (h.hits_lt _)
  have hcount (va : UInt64) : (s.we.emu.programCounter :: s.executed).count va ≤ maxhit.toNat ∧
      (s.we.emu.programCounter :: s.executed).count va ≤ (s.visited.hits va).toNat := by
    by_cases hva : va = s.we.emu.programCounter
    · have hle := h.count_le_hits s.we.emu.programCounter
      have hself : s.visited.hits s.we.emu.programCounter =
          s.hits s.we.emu.programCounter + 1 := Function.update_self ..
      rw [hva, List.count_cons_self, hself, hone]
      exact ⟨((Nat.succ_le_succ hle).trans hone.ge).trans (UInt32.le_iff_toNat_le.mp hhit),
        Nat.succ_le_succ hle⟩
    · rw [List.count_cons_of_ne (Ne.symm hva)]
      exact ⟨h.budgets.count_le va,
        (h.count_le_hits va).trans (le_toNat_visited s (h.hits_lt va))⟩
  refine ⟨⟨?_, fun va => ?_, fun va => ?_, h.space.trans hbooks.space, fun targets snap hq => ?_⟩,
    hturns⟩
  · exact WithinBudgets.of_books (s := s.visited.executedAt s.we.emu.programCounter)
      ⟨hlt, congrArg (· + 1) h.budgets.length_executed, fun va => (hcount va).1,
        h.budgets.length_todo_le, h.budgets.queuedOverlay_eq, h.budgets.queuedOverlay_le⟩ hbooks
  · rw [hbooks.executed, hbooks.hits]
    exact (hcount va).2
  · have hle := h.hits_add_le va
    have hvisit := toNat_visited_le s va
    rw [hbooks.hits]
    show (s.visited.hits va).toNat + _ ≤ _
    omega
  · rw [hq] at hcontrol'
    obtain hsame | hqueue | hreturned | ⟨targets', htargets⟩ := hcontrol'
    · exact absurd (hsame.trans hcontrol) nofun
    · exact absurd hqueue nofun
    · exact absurd hreturned nofun
    · exact (Control.queueing.inj htargets).2

/-- **One step** keeps the invariant and descends. -/
theorem step (h : Inv maxhit e₀ s) (hstep : Run.step host monitor maxhit s = some t) :
    Inv maxhit e₀ t ∧ Descends t s := by
  unfold Run.step at hstep
  cases hcontrol : s.control with
  | queue =>
    rw [hcontrol] at hstep
    cases htodo : s.todo with
    | nil =>
      rw [htodo] at hstep
      obtain rfl := Option.some.inj hstep
      have hturns : turnsLeft { s with todo := [], control := .returned } = s.turnsLeft := by
        rw [turnsLeft, turnsLeft, hcontrol, htodo]
        rfl
      refine ⟨⟨h.budgets.of_books ⟨rfl, htodo.symm, rfl, rfl, rfl, .refl⟩, h.count_le_hits,
        fun va => ?_,
        h.space, nofun⟩, .inr ⟨hturns, ?_⟩⟩
      · rw [hturns]
        exact h.hits_add_le va
      · rw [distance, distance, hcontrol]
        exact Nat.one_pos
    | cons path todo =>
      obtain ⟨va, snap⟩ := path
      rw [htodo] at hstep
      obtain rfl := Option.some.inj hstep
      have hsum : s.queuedOverlay = snap.mem.overlay.length + overlayEntries todo := by
        rw [h.budgets.queuedOverlay_eq, htodo]
        rfl
      have hspace := sameSpace_setSnap h.space snap
      have hlength := h.budgets.length_todo_le
      rw [htodo, List.length_cons] at hlength
      refine ⟨⟨⟨h.budgets.steps_le, h.budgets.length_executed, h.budgets.count_le,
        Nat.le_of_succ_le hlength, ?_, ?_⟩, h.count_le_hits, fun va => ?_,
        ⟨hspace.is64bit, hspace.maps, hspace.overlayCap⟩, nofun⟩, .inr ⟨?_, ?_⟩⟩
      · show s.queuedOverlay - _ = _
        rw [hsum]
        exact Nat.add_sub_cancel_left ..
      · exact (Nat.sub_le _ _).trans h.budgets.queuedOverlay_le
      · have hle := h.hits_add_le va
        rw [turnsLeft, hcontrol, htodo] at hle
        exact hle
      · rw [turnsLeft, turnsLeft, hcontrol, htodo]
        rfl
      · rw [distance, distance, hcontrol]
        exact Nat.one_pos
  | path =>
    rw [hcontrol] at hstep
    obtain rfl := Option.some.inj hstep
    by_cases hlt : s.steps < kMaxEmuSteps
    · rw [if_pos hlt]
      obtain ⟨s', hs', hbooks, hleft⟩ | ⟨hhit, hsettles⟩ := turn_cases host monitor maxhit s
      · exact (h.visited hs' hcontrol hbooks hleft).imp_right .inl
      · exact (h.executed hcontrol hlt hhit hsettles).imp_right .inl
    · rw [if_neg hlt]
      exact (h.visited (t := s.leave) List.mem_cons_self hcontrol
        ⟨rfl, rfl, rfl, rfl, rfl, .refl⟩ (.inl rfl)).imp_right .inl
  | queueing targets snap =>
    rw [hcontrol] at hstep
    have hleave : Inv maxhit e₀ s.leave ∧ Descends s.leave s := by
      have hle : s.leave.turnsLeft ≤ s.turnsLeft := by
        rw [turnsLeft, turnsLeft, hcontrol]
        exact Nat.add_le_add_left h.budgets.length_todo_le _
      refine ⟨⟨h.budgets.of_books ⟨rfl, rfl, rfl, rfl, rfl, .refl⟩, h.count_le_hits, fun va => ?_,
        h.space, nofun⟩, (Nat.lt_or_eq_of_le hle).imp_right fun heq => ⟨heq, ?_⟩⟩
      · exact (Nat.add_le_add_left hle _).trans (h.hits_add_le va)
      · rw [distance, distance, hcontrol]
        exact Nat.lt_add_left _ Nat.one_lt_two
    cases targets with
    | nil =>
      obtain rfl := Option.some.inj hstep
      exact hleave
    | cons va targets =>
      dsimp only at hstep
      by_cases hfull : s.todo.length ≥ kMaxTodoQueue ∨
          s.queuedOverlay + snap.mem.overlay.length > kMaxQueuedOverlayEntries
      · rw [pushPath, if_pos hfull] at hstep
        obtain rfl := Option.some.inj hstep
        exact hleave
      · rw [pushPath, if_neg hfull] at hstep
        obtain rfl := Option.some.inj hstep
        rw [not_or, not_le, not_lt] at hfull
        have hturns (q : ℕ) (todo : List (UInt64 × Emulator.Snapshot)) : turnsLeft { s with
            queuedOverlay := q, todo, control := .queueing targets snap } = s.turnsLeft := by
          rw [turnsLeft, turnsLeft, hcontrol]
        refine ⟨⟨⟨h.budgets.steps_le, h.budgets.length_executed, h.budgets.count_le, hfull.1, ?_,
          hfull.2⟩, h.count_le_hits, fun va => ?_, h.space, fun targets' snap' hq => ?_⟩,
          .inr ⟨hturns _ _, ?_⟩⟩
        · show s.queuedOverlay + _ = snap.mem.overlay.length + overlayEntries s.todo
          rw [h.budgets.queuedOverlay_eq, Nat.add_comm]
        · rw [hturns]
          exact h.hits_add_le va
        · obtain ⟨-, rfl⟩ := Control.queueing.inj hq
          exact h.snap_eq _ _ hcontrol
        · rw [distance, distance, hcontrol]
          exact Nat.lt_succ_self _
  | returned =>
    rw [hcontrol] at hstep
    exact absurd hstep nofun

end Inv

variable (host monitor maxhit) in
/-- The next step of `s` queues a path, with a snapshot of its own state. -/
structure Queues (s : Run μ) (va : UInt64) (snap : Emulator.Snapshot) : Prop where
  snap_eq : snap = s.we.emu.getSnap
  control : ∃ targets, s.control = .queueing (va :: targets) snap
  pushed : ∃ t, Run.step host monitor maxhit s = some t ∧ t.todo = (va, snap) :: s.todo

/-- The paths after a step: those from before, or one fewer, or one more that is queued. -/
theorem todo_step (h : Inv maxhit e₀ s) (hstep : Run.step host monitor maxhit s = some t) :
    t.todo = s.todo ∨ (∃ path, s.todo = path :: t.todo) ∨
      ∃ va snap, t.todo = (va, snap) :: s.todo ∧ s.Queues host monitor maxhit va snap := by
  have hstep' := hstep
  unfold Run.step at hstep
  cases hcontrol : s.control with
  | queue =>
    rw [hcontrol] at hstep
    cases htodo : s.todo with
    | nil =>
      rw [htodo] at hstep
      obtain rfl := Option.some.inj hstep
      exact .inl rfl
    | cons path todo =>
      rw [htodo] at hstep
      obtain rfl := Option.some.inj hstep
      exact .inr (.inl ⟨path, rfl⟩)
  | path =>
    rw [hcontrol] at hstep
    obtain rfl := Option.some.inj hstep
    split_ifs
    · obtain ⟨s', hs', hbooks, -⟩ | ⟨-, hsettles⟩ := turn_cases host monitor maxhit s
      · rw [List.mem_pair] at hs'
        obtain rfl | rfl := hs'
        · exact .inl hbooks.todo
        · exact .inl hbooks.todo
      · exact .inl hsettles.books.todo
    · exact .inl rfl
  | queueing targets snap =>
    rw [hcontrol] at hstep
    cases targets with
    | nil =>
      obtain rfl := Option.some.inj hstep
      exact .inl rfl
    | cons va targets =>
      dsimp only at hstep
      by_cases hfull : s.todo.length ≥ kMaxTodoQueue ∨
          s.queuedOverlay + snap.mem.overlay.length > kMaxQueuedOverlayEntries
      · rw [pushPath, if_pos hfull] at hstep
        obtain rfl := Option.some.inj hstep
        exact .inl rfl
      · rw [pushPath, if_neg hfull] at hstep
        obtain rfl := Option.some.inj hstep
        exact .inr (.inr ⟨va, snap, rfl, h.snap_eq _ _ hcontrol, ⟨targets, hcontrol⟩, _, hstep',
          rfl⟩)
  | returned =>
    rw [hcontrol] at hstep
    exact absurd hstep nofun

/-! ### Runs -/

theorem inv_start (we : WorkspaceEmulator) (m : μ) (funcva : UInt64) :
    Inv maxhit we.emu (start we m funcva) where
  budgets := ⟨Nat.zero_le _, rfl, fun _ => Nat.zero_le _, Nat.zero_le _, rfl, Nat.zero_le _⟩
  count_le_hits _ := Nat.zero_le _
  hits_add_le _ := Nat.le_of_eq (Nat.zero_add _)
  space := .refl
  snap_eq _ _ h := (Control.queueing.inj h).2.symm

theorem inv_of_reaches {we : WorkspaceEmulator} {m : μ} {funcva : UInt64}
    (h : Reaches (Run.step host monitor maxhit) (start we m funcva) s) : Inv maxhit we.emu s :=
  reaches_induction (inv_start we m funcva) (fun _ _ _ ht hstep => (ht.step hstep).1) h

/-- Every path that waits was queued, over the paths below it. -/
theorem exists_queues_of_reaches {we : WorkspaceEmulator} {m : μ} {funcva : UInt64}
    (h : Reaches (Run.step host monitor maxhit) (start we m funcva) s)
    {above below : List (UInt64 × Emulator.Snapshot)} {va : UInt64} {snap : Emulator.Snapshot}
    (htodo : s.todo = above ++ (va, snap) :: below) :
    ∃ s₀, Reaches (Run.step host monitor maxhit) (start we m funcva) s₀ ∧
      s₀.Queues host monitor maxhit va snap ∧ s₀.todo = below ∧
      Reaches (Run.step host monitor maxhit) s₀ s := by
  induction h generalizing above with
  | refl => exact absurd htodo (by simp [start])
  | tail hreach hlast ih =>
    obtain heq | ⟨path, heq⟩ | ⟨va', snap', heq, hqueues⟩ :=
      todo_step (inv_of_reaches hreach) hlast
    · obtain ⟨s₀, hstart, hqueues, hbelow, hfrom⟩ := ih (heq ▸ htodo)
      exact ⟨s₀, hstart, hqueues, hbelow, hfrom.tail hlast⟩
    · rw [htodo] at heq
      obtain ⟨s₀, hstart, hqueues, hbelow, hfrom⟩ := ih (heq.trans List.cons_append.symm)
      exact ⟨s₀, hstart, hqueues, hbelow, hfrom.tail hlast⟩
    · rw [htodo] at heq
      cases above with
      | nil =>
        obtain ⟨hpath, hbelow⟩ := List.cons.inj heq
        obtain ⟨rfl, rfl⟩ := Prod.mk.inj hpath
        exact ⟨_, hreach, hqueues, hbelow.symm, .single hlast⟩
      | cons path above =>
        obtain ⟨-, hrest⟩ := List.cons.inj heq
        obtain ⟨s₀, hstart, hqueues, hbelow, hfrom⟩ := ih hrest.symm
        exact ⟨s₀, hstart, hqueues, hbelow, hfrom.tail hlast⟩

end Run

open Run

variable {μ : Type}

/-- **A run** of a function ends, whatever its instructions do, and returns the number of those
executed. In every state that it reaches it is within its budgets: at most `kMaxEmuSteps`
instructions, `maxhit` of them at one address, at most `kMaxTodoQueue` paths that wait, and a size
of their overlays that is counted right and bounded. A path that is taken from the queue was queued
before, and starts from the registers and the memory of that moment at its own address. -/
theorem runFunction_bounded (host : Host) (monitor : Monitor μ) (maxhit : UInt32)
    (we : WorkspaceEmulator) (m : μ) (funcva : UInt64) :
    (∃ fuel₀, ∃ n ≤ kMaxEmuSteps,
      ∀ fuel ≥ fuel₀, runFunction host monitor maxhit we m funcva fuel = some n) ∧
    ∀ s, Reaches (Run.step host monitor maxhit) (start we m funcva) s →
      s.WithinBudgets maxhit ∧
      ∀ va snap below, s.control = .queue → s.todo = (va, snap) :: below →
        snap.mem.overlay.length ≤ s.queuedOverlay ∧
        ∃ s₀, Reaches (Run.step host monitor maxhit) (start we m funcva) s₀ ∧
          s₀.Queues host monitor maxhit va snap ∧ s₀.todo = below ∧
          Reaches (Run.step host monitor maxhit) s₀ s ∧
          ∃ t, Run.step host monitor maxhit s = some t ∧ t.control = .path ∧ t.todo = below ∧
            t.we.emu = s₀.we.emu.setProgramCounter va := by
  constructor
  · have hdescends (t u : Run μ) (ht : Inv maxhit we.emu t)
        (hstep : Run.step host monitor maxhit t = some u) : Inv maxhit we.emu u ∧
          Prod.Lex (· < ·) (· < ·) (u.turnsLeft, u.distance) (t.turnsLeft, t.distance) :=
      (ht.step hstep).imp_right Prod.lex_def.mpr
    obtain ⟨s, hreach, hhalt⟩ := exists_halt (Prod.lex Nat.lt_wfRel Nat.lt_wfRel).wf
      (fun s : Run μ => (s.turnsLeft, s.distance)) hdescends (inv_start we m funcva)
    obtain ⟨fuel₀, hloop⟩ := loop_of_reaches hreach hhalt
    refine ⟨fuel₀, s.steps, (inv_of_reaches hreach).budgets.steps_le, fun fuel hfuel => ?_⟩
    rw [runFunction, hloop fuel hfuel]
    rfl
  · intro s hreach
    have hs := inv_of_reaches hreach
    refine ⟨hs.budgets, fun va snap below hcontrol htodo => ⟨?_, ?_⟩⟩
    · rw [hs.budgets.queuedOverlay_eq, htodo]
      exact Nat.le_add_right _ _
    · obtain ⟨s₀, hstart, hqueues, hbelow, hfrom⟩ := exists_queues_of_reaches hreach
        (htodo.trans (List.nil_append _).symm)
      refine ⟨s₀, hstart, hqueues, hbelow, hfrom, { s with
        we := { s.we with emu := (s.we.emu.setSnap snap).setProgramCounter va }
        todo := below
        queuedOverlay := s.queuedOverlay - snap.mem.overlay.length
        control := .path }, ?_, rfl, rfl, ?_⟩
      · rw [Run.step, hcontrol, htodo]
      · have hspace := (inv_of_reaches hstart).space.symm.trans hs.space
        show (s.we.emu.setSnap snap).setProgramCounter va = _
        rw [hqueues.snap_eq, Emulator.setSnap_getSnap hspace]

end Papa.Emu
