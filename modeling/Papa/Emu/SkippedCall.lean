import Papa.Emu.RunFunction

/-!
# Calls that are not entered

A call pushes the address of the next instruction, and the emulator then goes on there with an
unknown value in the accumulator. The push is not taken back: the stack pointer stays one pointer
lower than before the call. On the way through a function the differences add up, and the states
that are saved for other paths carry them along.

A traced run keeps, beside a run, the stack pointer that the instructions of its path leave when a
call leaves it alone.

## Main definitions

* `Emulator.stackPointer`, `Emulator.ownStackPointer`: the stack pointer, and what an instruction
  makes of it.
* `Traced`, `Traced.step`: a run with the stack pointer of its path.
* `Run.PassesCall`: a path goes on behind a call.

## Main results

* `skippedCall_stackPointer`: what a skipped call leaves, and when the stack pointer of a run is the
  one of its paths.
-/

namespace Papa.Emu

open StateTransition StateMachine

/-! ### The stack pointer -/

/-- A slot that is written with its own value stays. -/
theorem RegisterFile.update_vals (r : RegisterFile) (i : Slot) : r.update i (r.vals i) = r := by
  obtain ⟨mode, vals, taint, xmm, masked⟩ := r
  unfold update
  congr 1
  show Function.update vals i (vals i &&& realMask mode) = vals
  rw [masked i, Function.update_eq_self]

namespace Emulator

variable {e e' : Emulator} {insn : DecodedInsn} {va : UInt64}

/-- The stack pointer. -/
def stackPointer (e : Emulator) : UInt64 := e.regs.get kRegEsp

theorem setRegister_stackPointer : e.setRegister kRegEsp e.stackPointer = e := by
  show { e with regs := e.regs.update 4 (e.regs.vals 4) } = e
  rw [RegisterFile.update_vals]

theorem ne_pcIndex {j : Slot} (h : j < 8) : j ≠ e.regs.pcIndex := by
  have hle : 8 ≤ e.regs.pcIndex := by
    unfold RegisterFile.pcIndex
    split_ifs <;> decide
  exact Fin.ne_of_lt (Fin.lt_of_lt_of_le h hle)

theorem stackPointer_setProgramCounter :
    (e.setProgramCounter va).stackPointer = e.stackPointer :=
  setProgramCounter_vals_of_ne (ne_pcIndex (by decide))

theorem programCounter_setProgramCounter :
    (e.setProgramCounter va).programCounter = va &&& realMask e.is64bit :=
  RegisterFile.update_vals_self _

theorem stackPointer_doPush (value : UInt64) (size : ℕ) :
    (e.doPush value size).stackPointer =
      (e.stackPointer - UInt64.ofNat size) &&& realMask e.is64bit :=
  RegisterFile.update_vals_self _

/-- A stack pointer that is lower by a pointer is another one. -/
theorem sub_ptrSize_ne (e : Emulator) :
    (e.stackPointer - UInt64.ofNat e.ptrSize) &&& realMask e.is64bit ≠ e.stackPointer := by
  have hlt := e.stackPointer.toNat_lt
  intro h
  replace h := congrArg UInt64.toNat h
  unfold ptrSize realMask at h
  split_ifs at h
  · have hmask : (0xFFFFFFFFFFFFFFFF : UInt64).toNat = 2 ^ 64 - 1 := rfl
    have hsize : (UInt64.ofNat 8).toNat = 8 := rfl
    rw [UInt64.toNat_and, hmask, Nat.and_two_pow_sub_one_eq_mod, UInt64.toNat_sub, hsize] at h
    omega
  · have hmask : (0xFFFFFFFF : UInt64).toNat = 2 ^ 32 - 1 := rfl
    have hsize : (UInt64.ofNat 4).toNat = 4 := rfl
    rw [UInt64.toNat_and, hmask, Nat.and_two_pow_sub_one_eq_mod, UInt64.toNat_sub, hsize] at h
    omega

/-! ### A call -/

/-- **A call** pushes a pointer and changes no other general register. -/
theorem executeOpcode_call (e : Emulator) (hmnem : insn.mnem = .call) :
    ∃ e', e.executeOpcode insn = .ok (.continue, e') ∧ e'.is64bit = e.is64bit ∧
      e'.stackPointer = (e.stackPointer - UInt64.ofNat e.ptrSize) &&& realMask e.is64bit ∧
      ∀ j, j ≠ 4 → j ≠ e.regs.pcIndex → e'.regs.vals j = e.regs.vals j := by
  have hhandle : (e.setProgramCounter insn.va).handle insn = .ok
      { nextPc := some (((e.setProgramCounter insn.va).doPush (insn.va + insn.length)
          e.ptrSize).getOperValue insn 0)
        after := (e.setProgramCounter insn.va).doPush (insn.va + insn.length) e.ptrSize } := by
    unfold handle
    rw [hmnem]
    rfl
  unfold executeOpcode
  rw [hhandle]
  refine ⟨_, rfl, rfl, ?_, fun j h4 hpc => ?_⟩
  · exact stackPointer_setProgramCounter.trans ((stackPointer_doPush _ _).trans
      (by rw [stackPointer_setProgramCounter]; rfl))
  · calc
      _ = ((e.setProgramCounter insn.va).doPush (insn.va + insn.length) e.ptrSize).regs.vals j :=
        setProgramCounter_vals_of_ne hpc
      _ = (e.setProgramCounter insn.va).regs.vals j := RegisterFile.update_vals_of_ne h4
      _ = e.regs.vals j := setProgramCounter_vals_of_ne hpc

end Emulator

namespace WorkspaceEmulator

variable {we : WorkspaceEmulator} {insn : DecodedInsn}

/-- A call that is passed changes the accumulator and the program counter. -/
theorem passCall_vals_of_ne_zero {j : Slot} (h0 : j ≠ 0) : (we.passCall insn).emu.regs.vals j =
    (we.emu.setProgramCounter (insn.va + insn.length)).regs.vals j :=
  RegisterFile.update_vals_of_ne h0

theorem stackPointer_passCall : (we.passCall insn).emu.stackPointer = we.emu.stackPointer :=
  (passCall_vals_of_ne_zero (by decide)).trans Emulator.stackPointer_setProgramCounter

theorem programCounter_passCall : (we.passCall insn).emu.programCounter =
    (insn.va + insn.length) &&& realMask we.emu.is64bit :=
  (passCall_vals_of_ne_zero (Emulator.ne_pcIndex (by decide)).symm).trans
    Emulator.programCounter_setProgramCounter

end WorkspaceEmulator

/-! ### The stack pointer of a path -/

/-- The stack pointer after an instruction of a path: a call that is not entered leaves it alone,
and every other instruction does with it what it does. -/
def Emulator.ownStackPointer (host : Host) (e : Emulator) (own : UInt64) (op : DecodedInsn) :
    UInt64 :=
  if op.isCall then own else (host.execute (e.setRegister kRegEsp own) op).2.stackPointer

/-- What the decoder library marks as a call is a call. -/
def Host.MarksCalls (host : Host) : Prop :=
  ∀ bytes va op, host.decode bytes va = some op → op.isCall = true → op.mnem = .call

theorem Host.MarksCalls.decodeAt {host : Host} (h : host.MarksCalls) {e : Emulator} {va : UInt64}
    {op : DecodedInsn} (hdecode : host.decodeAt e va = some op) (hcall : op.isCall = true) :
    op.mnem = .call := by
  unfold Host.decodeAt at hdecode
  dsimp only at hdecode
  split_ifs at hdecode
  exact h _ _ _ hdecode hcall

/-- A run, with the stack pointer of the path at hand and those of the paths that wait. -/
structure Traced (μ : Type) where
  run : Run μ
  own : UInt64
  waiting : List UInt64 := []

namespace Traced

variable {μ : Type} (host : Host) (monitor : Monitor μ) (maxhit : UInt32)

/-- The stack pointers after a step of the run: a path starts from the one it was queued with. -/
def pointers (s : Traced μ) : UInt64 × List UInt64 :=
  match s.run.control with
  | .queue =>
    match s.waiting with
    | [] => (s.own, [])
    | own :: waiting => (own, waiting)
  | .path =>
    match host.decodeAt s.run.we.emu s.run.we.emu.programCounter with
    | none => (s.own, s.waiting)
    | some op => (s.run.we.emu.ownStackPointer host s.own op, s.waiting)
  | .queueing (va :: _) snap =>
    match s.run.pushPath va snap with
    | none => (s.own, s.waiting)
    | some _ => (s.own, s.own :: s.waiting)
  | .queueing [] _ | .returned => (s.own, s.waiting)

/-- One step of a traced run. -/
def step (s : Traced μ) : Option (Traced μ) :=
  (s.run.step host monitor maxhit).map fun run =>
    { run, own := (s.pointers host).1, waiting := (s.pointers host).2 }

/-- A traced run before its first path. -/
def start (we : WorkspaceEmulator) (m : μ) (funcva : UInt64) : Traced μ where
  run := .start we m funcva
  own := we.emu.stackPointer

end Traced

namespace Run

variable {μ : Type} (host : Host) (monitor : Monitor μ) (maxhit : UInt32)

/-- The next step of `s` passes a call and goes on with the path behind it. -/
def PassesCall (s : Run μ) : Prop :=
  s.control = .path ∧
  (∃ op, host.decodeAt s.we.emu s.we.emu.programCounter = some op ∧ op.isCall = true) ∧
  ∃ t, s.step host monitor maxhit = some t ∧ t.control = .path

end Run

/-! ### A turn and the stack pointer -/

namespace Run

variable {μ : Type} {host : Host} {monitor : Monitor μ} {maxhit : UInt32} {s t u : Run μ}

/-- The rest of a turn leaves the path, or it keeps the stack pointer and, after a call, goes on. -/
def GoesOn (isCall : Bool) (s t : Run μ) : Prop :=
  (t.control = .queue ∨ t.control = .returned) ∨
    t.we.emu.stackPointer = s.we.emu.stackPointer ∧ (isCall = true → t.control = s.control)

variable {isCall : Bool}

theorem GoesOn.congr (hpointer : s.we.emu.stackPointer = u.we.emu.stackPointer)
    (hcontrol : s.control = u.control) (h : GoesOn isCall s t) : GoesOn isCall u t := by
  obtain hleaves | ⟨hkeeps, hstays⟩ := h
  · exact .inl hleaves
  · exact .inr ⟨hkeeps.trans hpointer, fun hcall => (hstays hcall).trans hcontrol⟩

theorem goesOn_leave : GoesOn isCall s s.leave := .inl (.inl rfl)

theorem goesOn_unlessStopped {f : Run μ → Run μ} (hf : GoesOn isCall s (f s)) :
    GoesOn isCall s (s.unlessStopped f) := by
  unfold unlessStopped
  split_ifs
  · exact .inl (.inr rfl)
  · exact hf

theorem goesOn_afterCall (op : DecodedInsn) (s : Run μ) :
    GoesOn isCall s (afterCall op isCall s) := by
  unfold afterCall
  dsimp only
  cases isCall with
  | true =>
    rw [if_pos rfl, if_neg (not_not.mpr rfl)]
    split_ifs
    · exact goesOn_leave
    · exact .inr ⟨rfl, fun _ => rfl⟩
  | false =>
    rw [if_neg Bool.false_ne_true]
    split_ifs
    · exact .inr ⟨rfl, nofun⟩
    · exact goesOn_leave
    · exact .inr ⟨rfl, nofun⟩

theorem goesOn_checkCall (op : DecodedInsn) (s : Run μ) :
    GoesOn op.isCall s (checkCall monitor op s) := by
  unfold checkCall
  cases op.isCall with
  | true =>
    rw [if_pos rfl]
    exact .congr (s := hear { s with we := s.we.passCall op } _)
      WorkspaceEmulator.stackPointer_passCall rfl (goesOn_unlessStopped (goesOn_afterCall op _))
  | false =>
    rw [if_neg Bool.false_ne_true]
    exact goesOn_unlessStopped (goesOn_afterCall op s)

theorem goesOn_afterExecute (op : DecodedInsn) (starteip : UInt64) (result : ExecResult)
    (s : Run μ) : GoesOn op.isCall s (afterExecute monitor op starteip result s) := by
  have hrest (s : Run μ) : GoesOn op.isCall s (s.unlessStopped fun s =>
      if result ≠ .continue then s.leave else checkCall monitor op s) := by
    refine goesOn_unlessStopped ?_
    split_ifs
    · exact goesOn_leave
    · exact goesOn_checkCall op s
  unfold afterExecute
  by_cases hzero : result = .divideByZero
  · rw [if_pos hzero]
    exact .congr (s := s.hear _) rfl rfl (hrest _)
  · rw [if_neg hzero]
    exact hrest s

/-- The state right after an instruction. -/
def afterInsn (host : Host) (op : DecodedInsn) (s : Run μ) : Run μ :=
  { s with we := { s.we with emu := (host.execute s.we.emu op).2 } }

theorem goesOn_executeOpcode (op : DecodedInsn) (starteip : UInt64) (s : Run μ) :
    GoesOn op.isCall (s.afterInsn host op) (executeOpcode host monitor op starteip s) :=
  .congr (s := hear { s.afterInsn host op with
    steps := s.steps + 1, executed := starteip :: s.executed } _) rfl rfl
    (goesOn_unlessStopped (goesOn_afterExecute op starteip _ _))

/-- **A turn** leaves the path, or the stack pointer after it is the one after the instruction. -/
theorem turn_goesOn (host : Host) (monitor : Monitor μ) (maxhit : UInt32) (s : Run μ) :
    ((s.turn host monitor maxhit).control = .queue ∨
      (s.turn host monitor maxhit).control = .returned) ∨
    ∃ op, host.decodeAt s.we.emu s.we.emu.programCounter = some op ∧
      (s.turn host monitor maxhit).we.emu.stackPointer =
        (host.execute s.we.emu op).2.stackPointer ∧
      (op.isCall = true → (s.turn host monitor maxhit).control = s.control) := by
  unfold turn
  dsimp only
  split_ifs
  · exact .inl (.inl rfl)
  · cases hdecode : host.decodeAt s.we.emu s.we.emu.programCounter with
    | none => exact .inl (.inl rfl)
    | some op =>
      dsimp only
      unfold unlessStopped
      split_ifs
      · exact .inl (.inr rfl)
      · let heard := s.visited.hear (monitor.prehook s.monitor s.we op s.we.emu.programCounter)
        have hgoes : GoesOn op.isCall (s.afterInsn host op)
            (executeOpcode host monitor op s.we.emu.programCounter heard) :=
          .congr (s := heard.afterInsn host op) rfl rfl (goesOn_executeOpcode op _ heard)
        exact hgoes.imp_right fun h => ⟨op, rfl, h⟩
  · exact .inl (.inl rfl)

theorem step_path (hcontrol : s.control = .path) (hlt : s.steps < kMaxEmuSteps) :
    s.step host monitor maxhit = some (s.turn host monitor maxhit) := by
  unfold step
  rw [hcontrol]
  exact congrArg some (if_pos hlt)

/-- A turn keeps the paths that wait. -/
theorem turn_todo (host : Host) (monitor : Monitor μ) (maxhit : UInt32) (s : Run μ) :
    (s.turn host monitor maxhit).todo = s.todo := by
  obtain ⟨s', hs', hbooks, -⟩ | ⟨-, hsettles⟩ := turn_cases host monitor maxhit s
  · rw [List.mem_pair] at hs'
    obtain rfl | rfl := hs'
    · exact hbooks.todo
    · exact hbooks.todo
  · exact hsettles.books.todo

end Run

/-! ### Runs without calls -/

/-- The stack pointer of a saved state. -/
def Emulator.Snapshot.stackPointer (is64bit : Bool) (snap : Emulator.Snapshot) : UInt64 :=
  snap.regs.vals 4 &&& realMask is64bit

theorem Emulator.stackPointer_setSnap (e : Emulator) (snap : Emulator.Snapshot) :
    (e.setSnap snap).stackPointer = snap.stackPointer e.is64bit := rfl

theorem Emulator.stackPointer_getSnap (e : Emulator) :
    e.getSnap.stackPointer e.is64bit = e.stackPointer := e.regs.masked 4

namespace Traced

variable {μ : Type} {host : Host} {monitor : Monitor μ} {maxhit : UInt32} {s t : Traced μ}
  {e₀ : Emulator}

/-- The traced stack pointers are those of the run from the state `e₀`: of the path that is at hand,
or whose successors are being queued, and of the paths that wait. -/
structure Inv (e₀ : Emulator) (s : Traced μ) : Prop where
  own_eq : s.run.control ≠ .queue → s.run.control ≠ .returned →
    s.run.we.emu.stackPointer = s.own
  waiting_eq : s.waiting = s.run.todo.map fun path => path.2.stackPointer e₀.is64bit

/-- An instruction other than a call keeps the stack pointer of the run and that of its path
together. -/
theorem ownStackPointer_eq {e : Emulator} {op : DecodedInsn} (hcall : op.isCall = false) :
    e.ownStackPointer host e.stackPointer op = (host.execute e op).2.stackPointer := by
  rw [Emulator.ownStackPointer, hcall, if_neg Bool.false_ne_true,
    Emulator.setRegister_stackPointer]

theorem Inv.step (h : Inv e₀ s) (hrun : s.run.Inv maxhit e₀)
    (hpasses : ¬ s.run.PassesCall host monitor maxhit)
    (hstep : s.step host monitor maxhit = some t) : Inv e₀ t := by
  obtain ⟨run, hnext, rfl⟩ := Option.map_eq_some_iff.mp hstep
  have hnext' := hnext
  unfold Run.step at hnext
  unfold pointers
  cases hcontrol : s.run.control with
  | queue =>
    rw [hcontrol] at hnext
    cases htodo : s.run.todo with
    | nil =>
      rw [htodo] at hnext
      obtain rfl := Option.some.inj hnext
      have hwaiting : s.waiting = [] := h.waiting_eq.trans (by rw [htodo]; rfl)
      rw [hwaiting]
      exact ⟨fun _ hreturned => absurd rfl hreturned, rfl⟩
    | cons path todo =>
      obtain ⟨va, snap⟩ := path
      rw [htodo] at hnext
      obtain rfl := Option.some.inj hnext
      have hwaiting : s.waiting = snap.stackPointer e₀.is64bit ::
          todo.map fun path => path.2.stackPointer e₀.is64bit :=
        h.waiting_eq.trans (by rw [htodo]; rfl)
      rw [hwaiting]
      refine ⟨fun _ _ => ?_, rfl⟩
      show ((s.run.we.emu.setSnap snap).setProgramCounter va).stackPointer = _
      rw [Emulator.stackPointer_setProgramCounter, Emulator.stackPointer_setSnap]
      exact congrArg (snap.stackPointer ·) hrun.space.is64bit
  | path =>
    rw [hcontrol] at hnext
    obtain rfl := Option.some.inj hnext
    have hown : s.run.we.emu.stackPointer = s.own :=
      h.own_eq (hcontrol ▸ nofun) (hcontrol ▸ nofun)
    split_ifs with hlt
    · have hwaiting := h.waiting_eq
      rw [← Run.turn_todo host monitor maxhit s.run] at hwaiting
      obtain hleaves | ⟨op, hdecode, hpointer, hgoes⟩ := Run.turn_goesOn host monitor maxhit s.run
      · refine ⟨fun hqueue hreturned => ?_, ?_⟩
        · exact (hleaves.elim hqueue hreturned).elim
        · dsimp only
          split <;> exact hwaiting
      · have hcall : op.isCall = false := by
          by_contra hcall
          rw [Bool.not_eq_false] at hcall
          exact hpasses ⟨hcontrol, ⟨op, hdecode, hcall⟩, _, hnext', by
            rw [if_pos hlt, hgoes hcall, hcontrol]⟩
        rw [hdecode]
        refine ⟨fun _ _ => ?_, hwaiting⟩
        show _ = s.run.we.emu.ownStackPointer host s.own op
        rw [← hown, ownStackPointer_eq hcall]
        exact hpointer
    · refine ⟨fun hqueue => absurd rfl hqueue, ?_⟩
      dsimp only
      split <;> exact h.waiting_eq
  | queueing targets snap =>
    rw [hcontrol] at hnext
    have hown := h.own_eq (hcontrol ▸ nofun) (hcontrol ▸ nofun)
    cases targets with
    | nil =>
      obtain rfl := Option.some.inj hnext
      exact ⟨fun hqueue => absurd rfl hqueue, h.waiting_eq⟩
    | cons va targets =>
      dsimp only at hnext ⊢
      cases hpush : s.run.pushPath va snap with
      | none =>
        rw [hpush] at hnext
        obtain rfl := Option.some.inj hnext
        exact ⟨fun hqueue => absurd rfl hqueue, h.waiting_eq⟩
      | some pushed =>
        rw [hpush] at hnext
        obtain rfl := Option.some.inj hnext
        unfold Run.pushPath at hpush
        dsimp only at hpush
        split_ifs at hpush
        obtain rfl := Option.some.inj hpush
        refine ⟨fun _ _ => hown, ?_⟩
        have hsaved : snap.stackPointer e₀.is64bit = s.own := by
          rw [hrun.snap_eq _ _ hcontrol, ← hrun.space.is64bit, Emulator.stackPointer_getSnap, hown]
        show s.own :: s.waiting = snap.stackPointer e₀.is64bit :: _
        rw [hsaved, h.waiting_eq]
  | returned =>
    rw [hcontrol] at hnext
    exact absurd hnext nofun

theorem inv_start (we : WorkspaceEmulator) (m : μ) (funcva : UInt64) :
    Inv we.emu (start we m funcva) := ⟨fun _ _ => rfl, rfl⟩

variable {we : WorkspaceEmulator} {m : μ} {funcva : UInt64}

/-- A traced run is a run. -/
theorem reaches_run (h : Reaches (step host monitor maxhit) (start we m funcva) s) :
    Reaches (Run.step host monitor maxhit) (.start we m funcva) s.run := by
  induction h with
  | refl => exact .refl
  | tail _ hlast ih =>
    obtain ⟨run, hnext, rfl⟩ := Option.map_eq_some_iff.mp hlast
    exact ih.tail hnext

/-- Every run is traced. -/
theorem exists_reaches {r : Run μ}
    (h : Reaches (Run.step host monitor maxhit) (.start we m funcva) r) :
    ∃ s, Reaches (step host monitor maxhit) (start we m funcva) s ∧ s.run = r := by
  induction h with
  | refl => exact ⟨_, .refl, rfl⟩
  | tail _ hlast ih =>
    obtain ⟨s, hs, rfl⟩ := ih
    exact ⟨_, hs.tail (Option.map_eq_some_iff.mpr ⟨_, hlast, rfl⟩), rfl⟩

/-- **A run without calls** keeps the stack pointers of its paths. -/
theorem inv_of_reaches (hpasses : ∀ r,
    Reaches (Run.step host monitor maxhit) (.start we m funcva) r →
      ¬ r.PassesCall host monitor maxhit)
    (h : Reaches (step host monitor maxhit) (start we m funcva) s) : Inv we.emu s :=
  reaches_induction (inv_start we m funcva) (fun _ _ hreach ht hstep =>
    ht.step (Run.inv_of_reaches (reaches_run hreach)) (hpasses _ (reaches_run hreach)) hstep) h

/-- Behind a call that is passed the stack pointer is not that of the path, if it was before. -/
theorem ne_own_of_passesCall (hmarks : host.MarksCalls)
    (hpasses : s.run.PassesCall host monitor maxhit)
    (hown : s.run.we.emu.stackPointer = s.own) :
    ∃ t, s.step host monitor maxhit = some t ∧ t.run.control = .path ∧
      t.run.we.emu.stackPointer ≠ t.own := by
  obtain ⟨hcontrol, ⟨op, hdecode, hcall⟩, run, hnext, hgoes⟩ := hpasses
  refine ⟨_, Option.map_eq_some_iff.mpr ⟨run, hnext, rfl⟩, hgoes, ?_⟩
  have hsame : (s.pointers host).1 = s.own := by
    unfold pointers
    rw [hcontrol]
    dsimp only
    rw [hdecode]
    dsimp only
    rw [Emulator.ownStackPointer, if_pos hcall]
  have hlower : run.we.emu.stackPointer = (s.run.we.emu.stackPointer -
      UInt64.ofNat s.run.we.emu.ptrSize) &&& realMask s.run.we.emu.is64bit := by
    unfold Run.step at hnext
    rw [hcontrol] at hnext
    obtain rfl := Option.some.inj hnext
    split_ifs at hgoes ⊢
    · obtain hleaves | ⟨op', hdecode', hpointer, -⟩ :=
        Run.turn_goesOn host monitor maxhit s.run
      · rw [hgoes] at hleaves
        exact hleaves.elim nofun nofun
      · obtain rfl := Option.some.inj (hdecode.symm.trans hdecode')
        obtain ⟨e', hok, -, hpush, -⟩ :=
          s.run.we.emu.executeOpcode_call (hmarks.decodeAt hdecode hcall)
        rw [hpointer, Host.execute, hok]
        exact hpush
    · exact absurd hgoes nofun
  show run.we.emu.stackPointer ≠ (s.pointers host).1
  rw [hsame, hlower, ← hown]
  exact s.run.we.emu.sub_ptrSize_ne

end Traced

/-! ### Skipped calls -/

/-- What `execute_opcode` and `check_call` make of a call: the next instruction follows, every
general register but the accumulator is as before, and the stack pointer is lower by a pointer. -/
structure SkippedCall (e after : Emulator) (insn : DecodedInsn) : Prop where
  programCounter_eq : after.programCounter = (insn.va + insn.length) &&& realMask e.is64bit
  vals_eq : ∀ j, j ≠ 0 → j ≠ 4 → j ≠ e.regs.pcIndex → after.regs.vals j = e.regs.vals j
  stackPointer_eq : after.stackPointer =
    (e.stackPointer - UInt64.ofNat e.ptrSize) &&& realMask e.is64bit
  stackPointer_ne : after.stackPointer ≠ e.stackPointer

theorem skippedCall (we : WorkspaceEmulator) {insn : DecodedInsn} (hmnem : insn.mnem = .call) :
    ∃ e', we.emu.executeOpcode insn = .ok (.continue, e') ∧
      SkippedCall we.emu (WorkspaceEmulator.passCall { we with emu := e' } insn).emu insn := by
  obtain ⟨e', hok, hmode, hpointer, hvals⟩ := we.emu.executeOpcode_call hmnem
  have hpointer' : (WorkspaceEmulator.passCall { we with emu := e' } insn).emu.stackPointer =
      (we.emu.stackPointer - UInt64.ofNat we.emu.ptrSize) &&& realMask we.emu.is64bit :=
    WorkspaceEmulator.stackPointer_passCall.trans hpointer
  have hpc : e'.regs.pcIndex = we.emu.regs.pcIndex := by
    have hmode' : e'.regs.is64bit = we.emu.regs.is64bit := hmode
    rw [RegisterFile.pcIndex, RegisterFile.pcIndex, hmode']
  refine ⟨e', hok, ?_, fun j h0 h4 hj => ?_, hpointer', hpointer' ▸ we.emu.sub_ptrSize_ne⟩
  · rw [WorkspaceEmulator.programCounter_passCall]
    exact congrArg (_ &&& realMask ·) hmode
  · rw [WorkspaceEmulator.passCall_vals_of_ne_zero h0]
    exact (Emulator.setProgramCounter_vals_of_ne (hpc ▸ hj)).trans (hvals j h4 hj)

/-- Before every instruction of every path the stack pointer of a run is the one of the path. -/
def KeepsStackPointers {μ : Type} (host : Host) (monitor : Monitor μ) (maxhit : UInt32)
    (we : WorkspaceEmulator) (m : μ) (funcva : UInt64) : Prop :=
  ∀ s, Reaches (Traced.step host monitor maxhit) (.start we m funcva) s →
    s.run.control = .path → s.run.we.emu.stackPointer = s.own

/-- **Skipped calls.** A call that is not entered leaves the stack pointer lower by a pointer, in
every state. So the stack pointer of a run is the one that the pushes, pops and the arithmetic of
its paths determine if and only if no path goes on behind a call. -/
theorem skippedCall_stackPointer {μ : Type} (host : Host) (hmarks : host.MarksCalls)
    (monitor : Monitor μ) (maxhit : UInt32) (we : WorkspaceEmulator) (m : μ) (funcva : UInt64) :
    (∀ (we : WorkspaceEmulator) (insn : DecodedInsn), insn.mnem = .call →
      ∃ e', we.emu.executeOpcode insn = .ok (.continue, e') ∧
        SkippedCall we.emu (WorkspaceEmulator.passCall { we with emu := e' } insn).emu insn) ∧
    (KeepsStackPointers host monitor maxhit we m funcva ↔
      ∀ s, Reaches (Run.step host monitor maxhit) (.start we m funcva) s →
        ¬ s.PassesCall host monitor maxhit) := by
  refine ⟨fun we insn => skippedCall we, fun hkeeps r hr hpasses => ?_, fun hnone s hs hpath => ?_⟩
  · obtain ⟨s, hs, rfl⟩ := Traced.exists_reaches hr
    obtain ⟨t, hstep, hpath, hne⟩ :=
      Traced.ne_own_of_passesCall hmarks hpasses (hkeeps s hs hpasses.1)
    exact hne (hkeeps t (hs.tail hstep) hpath)
  · exact (Traced.inv_of_reaches hnone hs).own_eq (hpath ▸ nofun) (hpath ▸ nofun)

/-- `call` to the next instruction. -/
def callInsn (va : UInt64) : DecodedInsn where
  va
  length := 5
  mnem := .call
  operands := [{ kind := .pcRel, widthBytes := 4 }]
  isCall := true
  branchTarget := some (va + 5)

/-- A decoder of `callInsn`. -/
def callHost : Host where
  decode bytes va := if bytes.take 5 = [0xE8, 0, 0, 0, 0] then some (callInsn va) else none
  undefined e _ := (.unsupported, e.getSnap)

/-- A machine of 32 bits with a stack and a call at `0x1000`. -/
def caller : WorkspaceEmulator where
  emu := Emulator.setRegister {
    regs := { is64bit := false }
    mem := ({} : SandboxMemory).addMap 0x1000 (kMemRead ||| kMemExec) [0xE8, 0, 0, 0, 0, 0xC3]
      |>.initStack 0xBFB00000 } kRegEsp 0xBFB04000

theorem marksCalls_callHost : callHost.MarksCalls := by
  intro bytes va op hdecode _
  unfold callHost at hdecode
  dsimp only at hdecode
  split_ifs at hdecode
  obtain rfl := Option.some.inj hdecode
  rfl

theorem skippedCall_stackPointer_caller :
    (∃ e', caller.emu.executeOpcode (callInsn 0x1000) = .ok (.continue, e') ∧
      SkippedCall caller.emu
        (WorkspaceEmulator.passCall { caller with emu := e' } (callInsn 0x1000)).emu
        (callInsn 0x1000)) ∧
    (KeepsStackPointers callHost {} 2 caller () 0x1000 ↔
      ∀ s, Reaches (Run.step callHost {} 2) (.start caller () 0x1000) s →
        ¬ s.PassesCall callHost {} 2) :=
  (skippedCall_stackPointer callHost marksCalls_callHost {} 2 caller () 0x1000).imp_left
    fun h => h caller (callInsn 0x1000) rfl

theorem Control.eq_path {c : Control} (h : (c matches .path) = true) : c = .path := by
  cases c with
  | path => rfl
  | queue | queueing targets snap | returned => exact absurd h Bool.false_ne_true

/-- Behind the call the stack pointer is lower by four, and not the one of the path. -/
theorem skippedCall_caller :
    (∃ e', caller.emu.executeOpcode (callInsn 0x1000) = .ok (.continue, e') ∧
      caller.emu.stackPointer = 0xBFB04000 ∧
      (WorkspaceEmulator.passCall { caller with emu := e' } (callInsn 0x1000)).emu.stackPointer =
        0xBFB03FFC) ∧
    ¬ KeepsStackPointers callHost {} 2 caller () 0x1000 := by
  constructor
  · obtain ⟨e', hok, hskipped⟩ := skippedCall caller (show (callInsn 0x1000).mnem = .call from rfl)
    exact ⟨e', hok, by decide, hskipped.stackPointer_eq.trans (by decide)⟩
  · intro hkeeps
    let head : Traced Unit :=
      { run := { Run.start caller () 0x1000 with
          we := { caller with
            emu := (caller.emu.setSnap caller.emu.getSnap).setProgramCounter 0x1000 }
          control := .path }
        own := caller.emu.stackPointer }
    have hhead : Reaches (Traced.step callHost {} 2) (.start caller () 0x1000) head :=
      .head rfl (.head rfl (.head rfl .refl))
    have hdecode : callHost.decodeAt head.run.we.emu head.run.we.emu.programCounter =
        some (callInsn 0x1000) := by decide +kernel
    have hgoes : (head.run.turn callHost {} 2).control = .path :=
      Control.eq_path (by decide +kernel)
    have hpasses : head.run.PassesCall callHost {} 2 :=
      ⟨rfl, ⟨_, hdecode, rfl⟩, _, Run.step_path rfl (by decide), hgoes⟩
    obtain ⟨t, hstep, hpath, hne⟩ := Traced.ne_own_of_passesCall marksCalls_callHost hpasses
      (hkeeps head hhead rfl)
    exact hne (hkeeps t (hhead.tail hstep) hpath)

end Papa.Emu
