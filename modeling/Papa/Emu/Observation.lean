import Papa.Emu.RunFunction
import Papa.Library.Fuelled

/-!
# What a monitor sees

A monitor is told of every instruction, every anomaly and every call of a run, and may stop it. The
hooks are handed the emulator and could write to it; those of the source do not, and the hooks here
only answer whether to stop. So a monitor changes nothing else: what it has made of a run is what it
makes of the events of the run without a monitor, taken one by one until it stops.

## Main definitions

* `Event`, `Monitor.react`, `Monitor.watch`: what the hooks are told, and what becomes of a monitor.
* `TurnEvents`: what is told in a turn.
* `observe`: the state of the monitor at the end of a run.
* `recorder`, `Events`: the events of a run that no monitor stops.

## Main results

* `Events.sound`: what holds of the events of every run.
* `Events.observe`: what a monitor has made of a run.
-/

namespace Papa.Emu

open StateTransition StateMachine

variable {μ : Type}

/-! ### Events -/

/-- What a hook is told. -/
inductive Event
  | prehook (we : WorkspaceEmulator) (insn : DecodedInsn) (eip : UInt64)
  | posthook (we : WorkspaceEmulator) (insn : DecodedInsn) (eip : UInt64)
  | logAnomaly (we : WorkspaceEmulator) (eip : UInt64)
  | apicall (we : WorkspaceEmulator) (op : DecodedInsn) (pc : UInt64)

/-- The instruction that a run comes to. -/
def Event.insn? : Event → Option DecodedInsn
  | .prehook _ insn _ => some insn
  | _ => none

/-- The address that a run comes to. -/
def Event.eip? : Event → Option UInt64
  | .prehook _ _ eip => some eip
  | _ => none

/-- What is told of an instruction after it was come to. -/
def Event.IsOf (insn : DecodedInsn) (eip : UInt64) : Event → Prop
  | .prehook _ _ _ => False
  | .posthook _ insn' eip' => insn' = insn ∧ eip' = eip
  | .logAnomaly _ eip' => eip' = eip
  | .apicall _ op _ => op = insn ∧ insn.isCall = true

theorem Event.IsOf.eip?_eq_none {insn : DecodedInsn} {eip : UInt64} {event : Event}
    (h : event.IsOf insn eip) : event.eip? = none := by
  cases event with
  | prehook => exact h.elim
  | posthook => rfl
  | logAnomaly => rfl
  | apicall => rfl

/-- What is told in a turn: an instruction is come to, as it is decoded from the memory at hand, and
what else is told is of this instruction. -/
inductive TurnEvents (host : Host) : List Event → Prop
  | turn {we : WorkspaceEmulator} {insn : DecodedInsn} {eip : UInt64} {more : List Event}
      (hdecoded : host.decodeAt we.emu eip = some insn)
      (hmore : ∀ event ∈ more, event.IsOf insn eip) :
      TurnEvents host (.prehook we insn eip :: more)

/-- The instructions that a run comes to. -/
def visited (events : List Event) : List DecodedInsn := events.filterMap Event.insn?

namespace Monitor

variable (monitor : Monitor μ)

/-- The answer of the hook that an event is for. -/
def react (m : μ) : Event → μ × Bool
  | .prehook we insn eip => monitor.prehook m we insn eip
  | .posthook we insn eip => monitor.posthook m we insn eip
  | .logAnomaly we eip => monitor.logAnomaly m we eip
  | .apicall we op pc => monitor.apicall m we op pc

/-- What becomes of a monitor that is told of events until it stops, and whether it has stopped. -/
def watch (m : μ) : List Event → μ × Bool
  | [] => (m, false)
  | event :: events =>
    let answer := monitor.react m event
    if answer.2 then answer else watch answer.1 events

variable {monitor} {m m' : μ} {events more : List Event}

theorem watch_append_of_stopped (h : monitor.watch m events = (m', true)) :
    monitor.watch m (events ++ more) = (m', true) := by
  induction events generalizing m with
  | nil => exact absurd (congrArg Prod.snd h) Bool.false_ne_true
  | cons event events ih =>
    rw [watch] at h
    rw [List.cons_append, watch]
    split_ifs at h ⊢ with hstop
    · exact h
    · exact ih h

theorem watch_append_of_running (h : monitor.watch m events = (m', false)) :
    monitor.watch m (events ++ more) = monitor.watch m' more := by
  induction events generalizing m with
  | nil =>
    obtain rfl : m = m' := congrArg Prod.fst h
    rfl
  | cons event events ih =>
    rw [watch] at h
    rw [List.cons_append, watch]
    split_ifs at h ⊢ with hstop
    · exact absurd (hstop.symm.trans (congrArg Prod.snd h)) Bool.noConfusion
    · exact ih h

end Monitor

/-- The monitor that keeps what it is told. -/
def recorder : Monitor (List Event) where
  prehook events we insn eip := (events ++ [.prehook we insn eip], false)
  posthook events we insn eip := (events ++ [.posthook we insn eip], false)
  logAnomaly events we eip := (events ++ [.logAnomaly we eip], false)
  apicall events we op pc := (events ++ [.apicall we op pc], false)

theorem react_recorder (events : List Event) (event : Event) :
    recorder.react events event = (events ++ [event], false) := by
  cases event <;> rfl

/-- `run_function`, for the state of the monitor at its end. -/
def observe (host : Host) (monitor : Monitor μ) (maxhit : UInt32) (we : WorkspaceEmulator) (m : μ)
    (funcva : UInt64) (fuel : ℕ) : Option μ :=
  (loop (Run.step host monitor maxhit) fuel (.start we m funcva)).map Run.monitor

namespace Run

variable {host : Host} {monitor : Monitor μ} {maxhit : UInt32} {m₀ m : μ}
  {r : Run (List Event)} {s : Run μ}

/-! ### A run that is watched -/

/-- The same state of a run, with another monitor. -/
def shownTo (r : Run (List Event)) (m : μ) : Run μ where
  we := r.we
  monitor := m
  hits := r.hits
  todo := r.todo
  queuedOverlay := r.queuedOverlay
  steps := r.steps
  executed := r.executed
  control := r.control

variable (monitor m₀) in
/-- A run that a monitor goes on with is where the recorded run is. -/
structure InStep (m : μ) (r : Run (List Event)) : Prop where
  watched : monitor.watch m₀ r.monitor = (m, false)
  running : r.we.emustop = false

variable (monitor m₀) in
/-- A run that is watched follows the recorded run, or its monitor has stopped it. -/
def Follows (s : Run μ) (r : Run (List Event)) : Prop :=
  (∃ m, s = r.shownTo m ∧ InStep monitor m₀ m r) ∨
    s.control = .returned ∧ monitor.watch m₀ r.monitor = (s.monitor, true)

theorem Follows.of_stopped (hcontrol : s.control = .returned) {events : List Event}
    (hwatch : monitor.watch m₀ events = (s.monitor, true)) (h : events <+: r.monitor) :
    Follows monitor m₀ s r := by
  obtain ⟨more, hmore⟩ := h
  exact .inr ⟨hcontrol, hmore ▸ Monitor.watch_append_of_stopped hwatch⟩

theorem unlessStopped_of_stopped {f : Run μ → Run μ} (h : s.we.emustop = true) :
    s.unlessStopped f = { s with control := .returned } := if_pos h

theorem unlessStopped_of_running {f : Run μ → Run μ} (h : s.we.emustop = false) :
    s.unlessStopped f = f s := if_neg (Bool.not_eq_true _ ▸ h)

/-! ### The recorded run -/

/-- What follows in a turn after its instruction is executed: what is told is of the instruction. -/
structure Quiet (op : DecodedInsn) (eip : UInt64) (r r' : Run (List Event)) : Prop where
  told : ∃ more, r'.monitor = r.monitor ++ more ∧ ∀ event ∈ more, event.IsOf op eip
  executed : r'.executed = r.executed
  running : r.we.emustop = false → r'.we.emustop = false

section Quiet

variable {op : DecodedInsn} {eip : UInt64} {g : Run (List Event) → Run (List Event)}

theorem Quiet.of_eq {r' : Run (List Event)} (hmonitor : r'.monitor = r.monitor)
    (hexecuted : r'.executed = r.executed) (hstop : r'.we.emustop = r.we.emustop) :
    Quiet op eip r r' :=
  ⟨⟨[], hmonitor.trans (List.append_nil _).symm, fun _ h => absurd h List.not_mem_nil⟩, hexecuted,
    fun h => hstop.trans h⟩

theorem Quiet.refl : Quiet op eip r r := .of_eq rfl rfl rfl

theorem Quiet.keeps {r' : Run (List Event)} (h : Quiet op eip r r') : r.monitor <+: r'.monitor := by
  obtain ⟨more, hmore, -⟩ := h.told
  exact ⟨more, hmore.symm⟩

theorem quiet_unlessStopped (hquiet : Quiet op eip r (g r)) :
    Quiet op eip r (r.unlessStopped g) := by
  unfold unlessStopped
  split_ifs
  · exact .of_eq rfl rfl rfl
  · exact hquiet

theorem quiet_hear (event : Event) (hevent : event.IsOf op eip)
    (hquiet : Quiet op eip (r.hear (r.monitor ++ [event], false))
      (g (r.hear (r.monitor ++ [event], false)))) :
    Quiet op eip r ((r.hear (recorder.react r.monitor event)).unlessStopped g) := by
  rw [react_recorder]
  obtain ⟨⟨more, hmore, hof⟩, hexecuted, hrunning⟩ := quiet_unlessStopped hquiet
  refine ⟨⟨event :: more, ?_, List.forall_mem_cons.mpr ⟨hevent, hof⟩⟩, hexecuted,
    fun h => hrunning ?_⟩
  · rw [hmore]
    exact List.append_assoc _ [event] more
  · show (r.we.emustop || false) = false
    rw [h]
    rfl

theorem quiet_leave : Quiet op eip r r.leave := .of_eq rfl rfl rfl

variable (op eip)

theorem quiet_afterCall (isCall : Bool) (r : Run (List Event)) :
    Quiet op eip r (afterCall op isCall r) := by
  unfold afterCall
  generalize (if isCall then [] else r.we.checkBranches op) = targets
  dsimp only
  split_ifs
  · exact .of_eq rfl rfl rfl
  · exact quiet_leave
  · exact .refl

theorem quiet_checkCall (r : Run (List Event)) : Quiet op eip r (checkCall recorder op r) := by
  unfold checkCall
  split_ifs with hcall
  · obtain ⟨htold, hexecuted, hrunning⟩ := quiet_hear (r := { r with we := r.we.passCall op })
      (.apicall (r.we.passCall op) op r.we.emu.programCounter) ⟨rfl, hcall⟩
      (quiet_afterCall op eip true _)
    exact ⟨htold, hexecuted, hrunning⟩
  · exact quiet_unlessStopped (quiet_afterCall op eip false r)

theorem quiet_leave_or_checkCall (result : ExecResult) (r : Run (List Event)) :
    Quiet op eip r (if result ≠ .continue then r.leave else checkCall recorder op r) := by
  split_ifs
  · exact quiet_leave
  · exact quiet_checkCall op eip r

theorem quiet_afterExecute (result : ExecResult) (r : Run (List Event)) :
    Quiet op eip r (afterExecute recorder op eip result r) := by
  unfold afterExecute
  by_cases hzero : result = .divideByZero
  · rw [if_pos hzero]
    exact quiet_hear (.logAnomaly r.we eip) rfl (quiet_leave_or_checkCall op eip result _)
  · rw [if_neg hzero]
    exact quiet_unlessStopped (quiet_leave_or_checkCall op eip result r)

variable (host) in
theorem quiet_executeOpcode (r : Run (List Event)) :
    Quiet op eip (r.executedAt eip) (executeOpcode host recorder op eip r) := by
  let r' := { r.executedAt eip with we := { r.we with emu := (host.execute r.we.emu op).2 } }
  obtain ⟨htold, hexecuted, hrunning⟩ := quiet_hear (.posthook r'.we op eip) ⟨rfl, rfl⟩
    (quiet_afterExecute op eip (host.execute r.we.emu op).1 _)
  exact ⟨htold, hexecuted, hrunning⟩

end Quiet

/-- A turn tells of nothing, or of the instruction that it executes. -/
structure Tells (host : Host) (r r' : Run (List Event)) : Prop where
  running : r'.we.emustop = false
  told : r'.monitor = r.monitor ∧ r'.executed = r.executed ∨
    ∃ op more, host.decodeAt r.we.emu r.we.emu.programCounter = some op ∧
      r'.monitor = r.monitor ++ .prehook r.we op r.we.emu.programCounter :: more ∧
      (∀ event ∈ more, event.IsOf op r.we.emu.programCounter) ∧
      r'.executed = r.we.emu.programCounter :: r.executed

theorem tells_turn (hrunning : r.we.emustop = false) :
    Tells host r (r.turn host recorder maxhit) := by
  unfold turn
  dsimp only
  split_ifs
  · exact ⟨hrunning, .inl ⟨rfl, rfl⟩⟩
  · cases hop : host.decodeAt r.we.emu r.we.emu.programCounter with
    | none => exact ⟨hrunning, .inl ⟨rfl, rfl⟩⟩
    | some op =>
      let heard := r.visited.hear (r.monitor ++ [.prehook r.we op r.we.emu.programCounter], false)
      have hheard : heard.we.emustop = false := by
        show (r.we.emustop || false) = false
        rw [hrunning]
        rfl
      obtain ⟨⟨more, hmore, hnone⟩, hexecuted, hkeeps⟩ :=
        quiet_executeOpcode host op r.we.emu.programCounter heard
      have hturn : (r.visited.hear (recorder.prehook r.monitor r.we op
          r.we.emu.programCounter)).unlessStopped
            (executeOpcode host recorder op r.we.emu.programCounter) =
          executeOpcode host recorder op r.we.emu.programCounter heard :=
        unlessStopped_of_running hheard
      have htells : Tells host r
          (executeOpcode host recorder op r.we.emu.programCounter heard) := by
        refine ⟨hkeeps hheard, .inr ⟨op, more, hop, ?_, hnone, hexecuted⟩⟩
        rw [hmore]
        exact List.append_assoc r.monitor [_] more
      rw [← hturn] at htells
      exact htells
  · exact ⟨hrunning, .inl ⟨rfl, rfl⟩⟩

/-- What a step of the recorded run tells of. -/
theorem tells_step {r r' : Run (List Event)} (hrunning : r.we.emustop = false)
    (h : Run.step host recorder maxhit r = some r') : Tells host r r' := by
  unfold Run.step at h
  cases hcontrol : r.control with
  | queue =>
    rw [hcontrol] at h
    cases htodo : r.todo with
    | nil =>
      rw [htodo] at h
      obtain rfl := Option.some.inj h
      exact ⟨hrunning, .inl ⟨rfl, rfl⟩⟩
    | cons path todo =>
      rw [htodo] at h
      obtain rfl := Option.some.inj h
      exact ⟨hrunning, .inl ⟨rfl, rfl⟩⟩
  | path =>
    rw [hcontrol] at h
    rw [← Option.some.inj h]
    split_ifs
    · exact tells_turn hrunning
    · exact ⟨hrunning, .inl ⟨rfl, rfl⟩⟩
  | queueing targets snap =>
    rw [hcontrol] at h
    cases targets with
    | nil =>
      obtain rfl := Option.some.inj h
      exact ⟨hrunning, .inl ⟨rfl, rfl⟩⟩
    | cons va targets =>
      dsimp only [pushPath] at h
      split_ifs at h
      · obtain rfl := Option.some.inj h
        exact ⟨hrunning, .inl ⟨rfl, rfl⟩⟩
      · obtain rfl := Option.some.inj h
        exact ⟨hrunning, .inl ⟨rfl, rfl⟩⟩
  | returned =>
    rw [hcontrol] at h
    exact absurd h nofun

theorem Tells.keeps {r r' : Run (List Event)} (h : Tells host r r') : r.monitor <+: r'.monitor := by
  obtain ⟨hsame, -⟩ | ⟨op, more, -, hmore, -⟩ := h.told
  · rw [hsame]
  · exact ⟨_, hmore.symm⟩

/-! ### A turn that is watched -/

/-- A hook, and what follows unless the monitor stops. -/
theorem follows_hear (event : Event) {f : Run μ → Run μ}
    {g : Run (List Event) → Run (List Event)} (hr : InStep monitor m₀ m r)
    (hkeep : ∀ r, r.monitor <+: (g r).monitor)
    (hfg : ∀ {r m}, InStep monitor m₀ m r → Follows monitor m₀ (f (r.shownTo m)) (g r)) :
    Follows monitor m₀ (((r.shownTo m).hear (monitor.react m event)).unlessStopped f)
      ((r.hear (recorder.react r.monitor event)).unlessStopped g) := by
  have hwatch : monitor.watch m₀ (r.monitor ++ [event]) = monitor.react m event := by
    rw [Monitor.watch_append_of_running hr.watched, Monitor.watch]
    split_ifs with hstop
    · rfl
    · exact Prod.ext rfl ((Bool.not_eq_true _).mp hstop).symm
  have hrunning : (r.hear (r.monitor ++ [event], false)).we.emustop = false := by
    show (r.we.emustop || false) = false
    rw [hr.running]
    rfl
  have hstopped : ((r.shownTo m).hear (monitor.react m event)).we.emustop =
      (monitor.react m event).2 := by
    show (r.we.emustop || _) = _
    rw [hr.running]
    rfl
  rw [react_recorder, unlessStopped_of_running hrunning]
  cases hstop : (monitor.react m event).2 with
  | true =>
    rw [unlessStopped_of_stopped (hstopped.trans hstop)]
    exact .of_stopped rfl (hwatch.trans (Prod.ext rfl hstop))
      (hkeep (r.hear (r.monitor ++ [event], false)))
  | false =>
    have hstep : (r.shownTo m).hear (monitor.react m event) =
        (r.hear (r.monitor ++ [event], false)).shownTo (monitor.react m event).1 := by
      unfold hear shownTo
      rw [hstop]
    rw [unlessStopped_of_running (hstopped.trans hstop), hstep]
    exact hfg ⟨hwatch.trans (Prod.ext rfl hstop), hrunning⟩

theorem follows_refl (hr : InStep monitor m₀ m r) : Follows monitor m₀ (r.shownTo m) r :=
  .inl ⟨m, rfl, hr⟩

theorem follows_leave (hr : InStep monitor m₀ m r) :
    Follows monitor m₀ (r.shownTo m).leave r.leave :=
  .inl ⟨m, rfl, hr.watched, hr.running⟩

theorem follows_afterCall (op : DecodedInsn) (isCall : Bool) (hr : InStep monitor m₀ m r) :
    Follows monitor m₀ (afterCall op isCall (r.shownTo m)) (afterCall op isCall r) := by
  have hwe : (r.shownTo m).we = r.we := rfl
  unfold afterCall
  rw [hwe]
  generalize (if isCall then [] else r.we.checkBranches op) = targets
  dsimp only
  split_ifs
  · exact .inl ⟨m, rfl, hr.watched, hr.running⟩
  · exact follows_leave hr
  · exact follows_refl hr

theorem follows_checkCall (op : DecodedInsn) (hr : InStep monitor m₀ m r) :
    Follows monitor m₀ (checkCall monitor op (r.shownTo m)) (checkCall recorder op r) := by
  unfold checkCall
  split_ifs
  · exact follows_hear (.apicall (r.we.passCall op) op r.we.emu.programCounter)
      (r := { r with we := r.we.passCall op }) ⟨hr.watched, hr.running⟩
      (fun r => (quiet_afterCall op 0 true r).keeps) (follows_afterCall op true)
  · rw [unlessStopped_of_running hr.running, unlessStopped_of_running (s := r.shownTo m) hr.running]
    exact follows_afterCall op false hr

theorem follows_afterExecute (op : DecodedInsn) (starteip : UInt64) (result : ExecResult)
    (hr : InStep monitor m₀ m r) :
    Follows monitor m₀ (afterExecute monitor op starteip result (r.shownTo m))
      (afterExecute recorder op starteip result r) := by
  have hrest {r m} (hr : InStep monitor m₀ m r) : Follows monitor m₀
      (if result ≠ .continue then (r.shownTo m).leave else checkCall monitor op (r.shownTo m))
      (if result ≠ .continue then r.leave else checkCall recorder op r) := by
    split_ifs
    · exact follows_leave hr
    · exact follows_checkCall op hr
  unfold afterExecute
  by_cases hzero : result = .divideByZero
  · rw [if_pos hzero, if_pos hzero]
    exact follows_hear (.logAnomaly r.we starteip) hr
      (fun r => (quiet_leave_or_checkCall op starteip result r).keeps) hrest
  · rw [if_neg hzero, if_neg hzero, unlessStopped_of_running hr.running,
      unlessStopped_of_running (s := r.shownTo m) hr.running]
    exact hrest hr

theorem follows_executeOpcode (op : DecodedInsn) (starteip : UInt64) (hr : InStep monitor m₀ m r) :
    Follows monitor m₀ (executeOpcode host monitor op starteip (r.shownTo m))
      (executeOpcode host recorder op starteip r) := by
  unfold executeOpcode
  let r' := { r with
    we := { r.we with emu := (host.execute r.we.emu op).2 }
    steps := r.steps + 1
    executed := starteip :: r.executed }
  exact follows_hear (.posthook r'.we op starteip) (r := r') ⟨hr.watched, hr.running⟩
    (fun r => (quiet_afterExecute op starteip _ r).keeps) (follows_afterExecute op starteip _)

/-- **A turn** is the same for every monitor until it stops. -/
theorem follows_turn (hr : InStep monitor m₀ m r) :
    Follows monitor m₀ ((r.shownTo m).turn host monitor maxhit) (r.turn host recorder maxhit) := by
  have hwe : (r.shownTo m).we = r.we := rfl
  have hhits : (r.shownTo m).hits = r.hits := rfl
  unfold turn
  rw [hwe, hhits]
  dsimp only
  split_ifs
  · exact .inl ⟨m, rfl, hr.watched, hr.running⟩
  · cases host.decodeAt r.we.emu r.we.emu.programCounter with
    | none => exact .inl ⟨m, rfl, hr.watched, hr.running⟩
    | some op =>
      exact follows_hear (.prehook r.we op r.we.emu.programCounter) (r := r.visited)
        ⟨hr.watched, hr.running⟩ (fun r => (quiet_executeOpcode host op _ r).keeps)
        (follows_executeOpcode op _)
  · exact follows_leave hr

/-! ### A run that is watched -/

variable {s' : Run μ} {r' : Run (List Event)} {we : WorkspaceEmulator} {funcva : UInt64}

/-- **A step** is the same for every monitor until it stops. -/
theorem Follows.step (h : Follows monitor m₀ s r) (hrunning : r.we.emustop = false)
    (hr : Run.step host recorder maxhit r = some r') :
    ∃ s', Reaches (Run.step host monitor maxhit) s s' ∧ Follows monitor m₀ s' r' := by
  obtain ⟨m, rfl, hin⟩ | ⟨hcontrol, hwatch⟩ := h
  · suffices hnext : ∃ s', Run.step host monitor maxhit (r.shownTo m) = some s' ∧
        Follows monitor m₀ s' r' from
      let ⟨s', hs', hfollows⟩ := hnext
      ⟨s', .single hs', hfollows⟩
    unfold Run.step at hr ⊢
    have hcontrol : (r.shownTo m).control = r.control := rfl
    rw [hcontrol]
    cases hc : r.control with
    | queue =>
      have htodo : (r.shownTo m).todo = r.todo := rfl
      rw [hc] at hr
      rw [htodo]
      cases ht : r.todo with
      | nil =>
        rw [ht] at hr
        obtain rfl := Option.some.inj hr
        exact ⟨_, rfl, .inl ⟨m, rfl, hin.watched, hin.running⟩⟩
      | cons path todo =>
        rw [ht] at hr
        obtain rfl := Option.some.inj hr
        exact ⟨_, rfl, .inl ⟨m, rfl, hin.watched, hin.running⟩⟩
    | path =>
      rw [hc] at hr
      obtain rfl := Option.some.inj hr
      refine ⟨_, rfl, ?_⟩
      have hsteps : (r.shownTo m).steps = r.steps := rfl
      rw [hsteps]
      split_ifs
      · exact follows_turn hin
      · exact follows_leave hin
    | queueing targets snap =>
      rw [hc] at hr
      cases targets with
      | nil =>
        obtain rfl := Option.some.inj hr
        exact ⟨_, rfl, follows_leave hin⟩
      | cons va targets =>
        dsimp only [pushPath] at hr ⊢
        have htodo : (r.shownTo m).todo = r.todo := rfl
        have hqueued : (r.shownTo m).queuedOverlay = r.queuedOverlay := rfl
        rw [htodo, hqueued]
        split_ifs at hr ⊢
        · obtain rfl := Option.some.inj hr
          exact ⟨_, rfl, follows_leave hin⟩
        · obtain rfl := Option.some.inj hr
          exact ⟨_, rfl, .inl ⟨m, rfl, hin.watched, hin.running⟩⟩
    | returned =>
      rw [hc] at hr
      exact absurd hr nofun
  · exact ⟨s, .refl, .of_stopped hcontrol hwatch (tells_step hrunning hr).keeps⟩

/-- Nothing stops the recorded run. -/
theorem running_of_reaches (h : Reaches (Run.step host recorder maxhit) (start we [] funcva) r) :
    r.we.emustop = false := by
  induction h with
  | refl => rfl
  | tail _ hlast ih => exact (tells_step ih hlast).running

/-- What is told is told turn by turn, and the instructions that are come to are those executed. -/
theorem recorded_of_reaches (h : Reaches (Run.step host recorder maxhit) (start we [] funcva) r) :
    (∃ turns : List (List Event), r.monitor = turns.flatten ∧
      ∀ turn ∈ turns, TurnEvents host turn) ∧
      r.monitor.filterMap Event.eip? = r.executed.reverse := by
  induction h with
  | refl => exact ⟨⟨[], rfl, fun _ hmem => absurd hmem List.not_mem_nil⟩, rfl⟩
  | @tail r r' hreach hlast ih =>
    obtain ⟨⟨turns, hturns, htold⟩, haddresses⟩ := ih
    obtain ⟨hmonitor, hexecuted⟩ | ⟨op, more, hop, hmonitor, hmore, hexecuted⟩ :=
      (tells_step (running_of_reaches hreach) hlast).told
    · rw [hmonitor, hexecuted]
      exact ⟨⟨turns, hturns, htold⟩, haddresses⟩
    · refine ⟨⟨turns ++ [.prehook r.we op r.we.emu.programCounter :: more], ?_, ?_⟩, ?_⟩
      · rw [hmonitor, hturns, List.flatten_append, List.flatten_singleton]
      · intro turn hturn
        rcases List.mem_append.mp hturn with hturn | hturn
        · exact htold turn hturn
        · exact List.mem_singleton.mp hturn ▸ .turn hop hmore
      · have hnone : more.filterMap Event.eip? = [] :=
          List.filterMap_eq_nil_iff.mpr fun event hevent => (hmore event hevent).eip?_eq_none
        rw [hmonitor, List.filterMap_append, List.filterMap_cons, haddresses, hexecuted,
          List.reverse_cons]
        show r.executed.reverse ++ r.we.emu.programCounter :: more.filterMap Event.eip? = _
        rw [hnone]

variable (monitor m₀) in
theorem exists_follows (h : Reaches (Run.step host recorder maxhit) (start we [] funcva) r) :
    ∃ s, Reaches (Run.step host monitor maxhit) (start we m₀ funcva) s ∧
      Follows monitor m₀ s r := by
  induction h with
  | refl => exact ⟨_, .refl, .inl ⟨m₀, rfl, rfl, rfl⟩⟩
  | tail hreach hlast ih =>
    obtain ⟨s, hs, hfollows⟩ := ih
    obtain ⟨s', hs', hfollows'⟩ := hfollows.step (running_of_reaches hreach) hlast
    exact ⟨s', hs.trans hs', hfollows'⟩

theorem step_eq_none_iff : Run.step host monitor maxhit s = none ↔ s.control = .returned := by
  unfold Run.step
  cases hcontrol : s.control with
  | queue =>
    cases s.todo with
    | nil => simp
    | cons path todo => simp
  | path => simp
  | queueing targets snap =>
    cases targets with
    | nil => simp
    | cons va targets =>
      dsimp only
      cases s.pushPath va snap with
      | none => simp
      | some t => simp
  | returned => simp

variable (host monitor maxhit) in
/-- Every run ends. -/
theorem exists_returned (we : WorkspaceEmulator) (m₀ : μ) (funcva : UInt64) :
    ∃ s, Reaches (Run.step host monitor maxhit) (start we m₀ funcva) s ∧ s.control = .returned := by
  have hdescends (t u : Run μ) (ht : Inv maxhit we.emu t)
      (hstep : Run.step host monitor maxhit t = some u) : Inv maxhit we.emu u ∧
        Prod.Lex (· < ·) (· < ·) (u.turnsLeft, u.distance) (t.turnsLeft, t.distance) :=
    (ht.step hstep).imp_right Prod.lex_def.mpr
  obtain ⟨s, hreach, hhalt⟩ := exists_halt (Prod.lex Nat.lt_wfRel Nat.lt_wfRel).wf
    (fun s : Run μ => (s.turnsLeft, s.distance)) hdescends (inv_start we m₀ funcva)
  exact ⟨s, hreach, step_eq_none_iff.mp hhalt⟩

end Run

open Run

/-- The events of a run that no monitor stops. -/
def Events (host : Host) (maxhit : UInt32) (we : WorkspaceEmulator) (funcva : UInt64)
    (events : List Event) : Prop :=
  ∃ r, Reaches (Run.step host recorder maxhit) (start we [] funcva) r ∧ r.control = .returned ∧
    r.monitor = events

theorem exists_events (host : Host) (maxhit : UInt32) (we : WorkspaceEmulator) (funcva : UInt64) :
    ∃ events, Events host maxhit we funcva events := by
  obtain ⟨r, hr, hcontrol⟩ := exists_returned host recorder maxhit we [] funcva
  exact ⟨r.monitor, r, hr, hcontrol, rfl⟩

/-- What holds of the events of every run: each is of an instruction that the run came to and
decoded from the memory at hand, a bounded number of them, and none more often than it may be
visited. -/
structure Sound (host : Host) (maxhit : UInt32) (events : List Event) : Prop where
  turns : ∃ turns : List (List Event),
    events = turns.flatten ∧ ∀ turn ∈ turns, TurnEvents host turn
  length_le : (events.filterMap Event.eip?).length ≤ kMaxEmuSteps
  count_le : ∀ va, (events.filterMap Event.eip?).count va ≤ maxhit.toNat

theorem Events.sound {host : Host} {maxhit : UInt32} {we : WorkspaceEmulator} {funcva : UInt64}
    {events : List Event} (h : Events host maxhit we funcva events) : Sound host maxhit events := by
  obtain ⟨r, hr, -, rfl⟩ := h
  obtain ⟨hturns, haddresses⟩ := recorded_of_reaches hr
  have hbudgets := (inv_of_reaches hr).budgets
  refine ⟨hturns, ?_, fun va => ?_⟩
  · rw [haddresses, List.length_reverse, hbudgets.length_executed]
    exact hbudgets.steps_le
  · rw [haddresses, List.count_reverse]
    exact hbudgets.count_le va

/-- **What a monitor has made of a run** is what it makes of the events of the run without it, one
by one until it stops. -/
theorem Events.observe {host : Host} {maxhit : UInt32} {we : WorkspaceEmulator} {funcva : UInt64}
    {events : List Event} (h : Events host maxhit we funcva events) (monitor : Monitor μ) (m : μ) :
    Fuelled.Returns (observe host monitor maxhit we m funcva) (· = (monitor.watch m events).1) := by
  obtain ⟨r, hr, hcontrol, rfl⟩ := h
  obtain ⟨s, hs, hfollows⟩ := exists_follows monitor m hr
  have hend : s.control = .returned ∧ s.monitor = (monitor.watch m r.monitor).1 := by
    obtain ⟨m', rfl, hin⟩ | ⟨hreturned, hwatch⟩ := hfollows
    · exact ⟨hcontrol, congrArg Prod.fst hin.watched.symm⟩
    · exact ⟨hreturned, congrArg Prod.fst hwatch.symm⟩
  obtain ⟨fuel₀, hloop⟩ := loop_of_reaches hs (step_eq_none_iff.mpr hend.1)
  refine ⟨s.monitor, hend.2, fuel₀, fun fuel hfuel => ?_⟩
  rw [Papa.Emu.observe, hloop fuel hfuel]
  rfl

end Papa.Emu
