import Papa.Emu.IntelEmulator
import Papa.Library.StateMachine

/-!
# Emulation of a function

The instructions of a function are executed from its entry on. Where an instruction has several
successors the registers and the overlay are saved, and every successor is queued with them; a path
that ends is followed by the one queued last. Calls are not entered: the instruction after the call
comes next, with an unknown value in the accumulator. Four bounds cut the work: the number of
instructions, the visits of an address, the number of paths that wait, and the size of their
overlays taken together.

The two loops of the source are a machine whose control says at which of them it is. The decoder
library is a parameter, and so is what becomes of an instruction whose arithmetic is not defined: an
outcome, some registers and some bytes. A monitor has a state of its own and may ask to stop; the
monitor that is absent in the source is the one whose hooks do nothing.

## Main definitions

* `Emulator.getBranches`: the successors of an instruction.
* `WorkspaceEmulator`, `Monitor`, `Host`: what a run is given.
* `Run`, `Run.step`, `runFunction`: the loops.
-/

namespace Papa.Emu

open Bits

/-! ### Successors -/

/-- A call target. -/
def kBrProc : UInt32 := 1
/-- A conditional edge. -/
def kBrCond : UInt32 := 2
/-- A target that is read from memory. -/
def kBrDeref : UInt32 := 4
/-- A fall-through edge. -/
def kBrFall : UInt32 := 16

/-- A successor of an instruction. -/
structure Branch where
  va : UInt64
  flags : UInt32
  deriving DecidableEq

/-- `kMaxJumpTableEntries`. -/
def kMaxJumpTableEntries : ℕ := 4096

/-- `is_deref_kind`. -/
def isDerefKind (kind : OperandKind) : Bool :=
  kind == .regMem || kind == .immMem || kind == .sib || kind == .ripRel

namespace Emulator

variable (e : Emulator)

/-- The pointers of a jump table that are in a map, up to the first that is not. -/
def walkTable (width : ℕ) : (turns : ℕ) → (base : UInt64) → List Branch
  | 0, _ => []
  | turns + 1, base =>
    let dest := e.mem.readValue base (UInt64.ofNat width)
    if e.mem.isValidPointer dest then
      ⟨dest, kBrCond⟩ :: walkTable width turns (base + UInt64.ofNat width)
    else []

/-- The base of a jump table. -/
def tableBase (op : DecodedOperand) : UInt64 :=
  let base := asU64 op.disp
  (if op.baseReg ≠ .none then base + e.registerValue op.baseReg else base) &&& e.addrMask

/-- The edge to the first operand. -/
def operandBranch (insn : DecodedInsn) (flags : UInt32) : Branch :=
  if isDerefKind (insn.operand 0).kind then ⟨e.getOperAddr insn 0, flags ||| kBrDeref⟩
  else ⟨e.getOperValue insn 0, flags⟩

/-- The successors of an instruction, from the state at hand. -/
def getBranches (insn : DecodedInsn) : List Branch :=
  if insn.mnem = .hlt then []
  else
    let isConditional := insn.isJump && insn.isConditional
    let flags := if isConditional then kBrCond else 0
    let fall := if insn.isFallthrough then [⟨insn.va + insn.length, flags ||| kBrFall⟩] else []
    if insn.operands.isEmpty then fall
    else if insn.isCall then fall ++ [e.operandBranch insn (flags ||| kBrProc)]
    else if insn.isJump ∧ ¬ insn.isConditional then
      let op := insn.operand 0
      if op.kind = .sib ∧ op.scale = 4 then
        fall ++ e.walkTable op.widthBytes kMaxJumpTableEntries (e.tableBase op)
      else fall ++ [e.operandBranch insn flags]
    else if isConditional then fall ++ [e.operandBranch insn flags]
    else fall

end Emulator

/-! ### Taints -/

/-- What an unknown value stands for. -/
inductive TaintType
  | uninitReg
  | funcStack
  | apiCall
  | import
  | dynLib
  | dynFunc
  | other
  deriving DecidableEq

/-- The record of an unknown value. -/
structure TaintInfo where
  va : UInt64
  type : TaintType
  info : UInt64
  deriving DecidableEq

/-- The unknown values in use. -/
structure TaintRegistry where
  counter : UInt64 := 0x4156000F
  taints : List (UInt64 × TaintInfo) := []

/-- `kTaintMask`. -/
def kTaintMask : UInt64 := 0xFFFFE000

/-- Take a new unknown value. -/
def TaintRegistry.allocate (registry : TaintRegistry) (type : TaintType) (info : UInt64) :
    UInt64 × TaintRegistry :=
  let va := registry.counter + 0x1000
  let record : TaintInfo := ⟨va, type, info⟩
  (va, { counter := registry.counter + 0x2000
         taints := AssocList.upsert (va &&& kTaintMask) record (fun _ => record) registry.taints })

/-! ### Saved states -/

/-- The state of a register file. -/
structure RegisterFile.Snapshot where
  vals : Slot → UInt64
  taint : Slot → Bool
  xmm : Fin 16 → Xmm

/-- Save the registers. -/
def RegisterFile.snapshot (r : RegisterFile) : RegisterFile.Snapshot := ⟨r.vals, r.taint, r.xmm⟩

/-- Go back to saved registers. The mask leaves the values of a file of the same mode alone. -/
def RegisterFile.restore (r : RegisterFile) (snap : RegisterFile.Snapshot) : RegisterFile where
  is64bit := r.is64bit
  vals i := snap.vals i &&& realMask r.is64bit
  taint := snap.taint
  xmm := snap.xmm
  masked i := by rw [UInt64.and_assoc, UInt64.and_self]

/-- The registers and the overlay. -/
structure Emulator.Snapshot where
  regs : RegisterFile.Snapshot
  mem : Papa.Emu.Snapshot

/-- `get_snap`. -/
def Emulator.getSnap (e : Emulator) : Emulator.Snapshot := ⟨e.regs.snapshot, e.mem.snapshot⟩

/-- `set_snap`. -/
def Emulator.setSnap (e : Emulator) (snap : Emulator.Snapshot) : Emulator where
  regs := e.regs.restore snap.regs
  mem := e.mem.restore snap.mem

/-! ### The emulator of a workspace -/

/-- The emulator, the unknown values, and whether it has been asked to stop. -/
structure WorkspaceEmulator where
  emu : Emulator
  taints : TaintRegistry := {}
  emustop : Bool := false

/-- Hooks around the instructions, over a state `μ`: each answers whether to stop. -/
structure Monitor (μ : Type) where
  prehook : μ → WorkspaceEmulator → DecodedInsn → UInt64 → μ × Bool := fun m _ _ _ => (m, false)
  posthook : μ → WorkspaceEmulator → DecodedInsn → UInt64 → μ × Bool := fun m _ _ _ => (m, false)
  logAnomaly : μ → WorkspaceEmulator → UInt64 → μ × Bool := fun m _ _ => (m, false)
  apicall : μ → WorkspaceEmulator → DecodedInsn → UInt64 → μ × Bool := fun m _ _ _ => (m, false)

/-- The decoder library, and what becomes of an instruction whose arithmetic is not defined. -/
structure Host where
  decode : List UInt8 → UInt64 → Option DecodedInsn
  undefined : Emulator → DecodedInsn → ExecResult × Emulator.Snapshot

/-- `kMaxInsnBytes`. -/
def kMaxInsnBytes : UInt64 := 15

/-- `kMaxEmuSteps`. -/
def kMaxEmuSteps : ℕ := 4096

/-- `kMaxTodoQueue`. -/
def kMaxTodoQueue : ℕ := 4096

/-- `kMaxQueuedOverlayEntries`. -/
def kMaxQueuedOverlayEntries : ℕ := 2 ^ 22

namespace Host

variable (host : Host)

/-- `decode_at`. -/
def decodeAt (e : Emulator) (va : UInt64) : Option DecodedInsn :=
  let bytes := e.mem.readCode va kMaxInsnBytes
  if bytes.isEmpty then none else host.decode bytes va

/-- Execute an instruction. -/
def execute (e : Emulator) (insn : DecodedInsn) : ExecResult × Emulator :=
  match e.executeOpcode insn with
  | .ok out => out
  | .error _ =>
    let out := host.undefined e insn
    (out.1, e.setSnap out.2)

end Host

namespace WorkspaceEmulator

variable (we : WorkspaceEmulator)

/-- `check_call`, up to its hook: the state after a call that is not entered. -/
def passCall (insn : DecodedInsn) : WorkspaceEmulator :=
  let e := we.emu.setProgramCounter (insn.va + insn.length)
  let (ret, taints) := we.taints.allocate .apiCall insn.va
  let e := e.setRegister kRegEax ret
  { we with emu := { e with regs := e.regs.setTaint 0 true }, taints }

/-- `check_branches`: the successors, once each, when there is more than one. -/
def checkBranches (insn : DecodedInsn) : List UInt64 :=
  let branches := we.emu.getBranches insn
  if branches.length ≤ 1 then []
  else branches.foldl (fun ret b => if b.va ∈ ret then ret else ret ++ [b.va]) []

end WorkspaceEmulator

/-! ### The loops -/

/-- Where a run is: at the head of the loop over the queue, at the head of the loop over the
instructions of a path, at the loop that queues the successors left, or at its end. -/
inductive Control
  | queue
  | path
  | queueing (targets : List UInt64) (snap : Emulator.Snapshot)
  | returned

/-- A run: the state of its monitor, the visits of every address, the paths that wait with the one
queued last first, the size of their overlays, and the number of instructions executed. The
addresses executed so far, the last one first, are kept for the statements only. -/
structure Run (μ : Type) where
  we : WorkspaceEmulator
  monitor : μ
  hits : UInt64 → UInt32 := fun _ => 0
  todo : List (UInt64 × Emulator.Snapshot) := []
  queuedOverlay : ℕ := 0
  steps : ℕ := 0
  executed : List UInt64 := []
  control : Control

namespace Run

variable {μ : Type} (host : Host) (monitor : Monitor μ) (maxhit : UInt32)

/-- Take the answer of a hook. -/
def hear (s : Run μ) (answer : μ × Bool) : Run μ :=
  { s with monitor := answer.1, we := { s.we with emustop := s.we.emustop || answer.2 } }

/-- Go on, unless a hook asked to stop. -/
def unlessStopped (s : Run μ) (f : Run μ → Run μ) : Run μ :=
  if s.we.emustop then { s with control := .returned } else f s

/-- Leave the path. -/
def leave (s : Run μ) : Run μ := { s with control := .queue }

/-- `push_path`. -/
def pushPath (s : Run μ) (va : UInt64) (snap : Emulator.Snapshot) : Option (Run μ) :=
  let cost := snap.mem.overlay.length
  if s.todo.length ≥ kMaxTodoQueue ∨ s.queuedOverlay + cost > kMaxQueuedOverlayEntries then none
  else some { s with queuedOverlay := s.queuedOverlay + cost, todo := (va, snap) :: s.todo }

/-- The rest of a turn after a call was passed or not: successors are queued, a return ends the
path. -/
def afterCall (op : DecodedInsn) (isCall : Bool) (s : Run μ) : Run μ :=
  let targets := if isCall then [] else s.we.checkBranches op
  if targets ≠ [] then { s with control := .queueing targets s.we.emu.getSnap }
  else if op.isReturn then s.leave
  else s

/-- The rest of a turn after an instruction that went on. -/
def checkCall (op : DecodedInsn) (s : Run μ) : Run μ :=
  if op.isCall then
    let pc := s.we.emu.programCounter
    let s := { s with we := s.we.passCall op }
    (s.hear (monitor.apicall s.monitor s.we op pc)).unlessStopped (afterCall op true)
  else s.unlessStopped (afterCall op false)

/-- The rest of a turn after an instruction and its hook. -/
def afterExecute (op : DecodedInsn) (starteip : UInt64) (result : ExecResult) (s : Run μ) : Run μ :=
  let s := if result = .divideByZero then s.hear (monitor.logAnomaly s.monitor s.we starteip) else s
  s.unlessStopped fun s => if result ≠ .continue then s.leave else checkCall monitor op s

/-- Execute an instruction and hear the hook after it. -/
def executeOpcode (op : DecodedInsn) (starteip : UInt64) (s : Run μ) : Run μ :=
  let out := host.execute s.we.emu op
  let s := { s with
    we := { s.we with emu := out.2 }, steps := s.steps + 1, executed := starteip :: s.executed }
  (s.hear (monitor.posthook s.monitor s.we op starteip)).unlessStopped
    (afterExecute monitor op starteip out.1)

/-- One turn of the loop over the instructions of a path. -/
def turn (s : Run μ) : Run μ :=
  let starteip := s.we.emu.programCounter
  if ¬ s.we.emu.mem.isValidPointer starteip then s.leave
  else
    let hit := s.hits starteip + 1
    let s := { s with hits := Function.update s.hits starteip hit }
    if hit > maxhit then s.leave
    else
      match host.decodeAt s.we.emu starteip with
      | none => s.leave
      | some op => (s.hear (monitor.prehook s.monitor s.we op starteip)).unlessStopped
          (executeOpcode host monitor op starteip)

/-- One step of a run. -/
def step (s : Run μ) : Option (Run μ) :=
  match s.control with
  | .queue =>
    match s.todo with
    | [] => some { s with control := .returned }
    | (va, snap) :: todo => some { s with
        we := { s.we with emu := (s.we.emu.setSnap snap).setProgramCounter va }
        todo
        queuedOverlay := s.queuedOverlay - snap.mem.overlay.length
        control := .path }
  | .path => some (if s.steps < kMaxEmuSteps then s.turn host monitor maxhit else s.leave)
  | .queueing [] _ => some s.leave
  | .queueing (va :: targets) snap =>
    match s.pushPath va snap with
    | none => some s.leave
    | some s => some { s with control := .queueing targets snap }
  | .returned => none

/-- The state in which a run queues its entry. -/
def start (we : WorkspaceEmulator) (m : μ) (funcva : UInt64) : Run μ where
  we := { we with emustop := false }
  monitor := m
  control := .queueing [funcva] we.emu.getSnap

end Run

/-- `run_function`: the number of instructions executed, or nothing when the fuel ran out. -/
def runFunction {μ : Type} (host : Host) (monitor : Monitor μ) (maxhit : UInt32)
    (we : WorkspaceEmulator) (m : μ) (funcva : UInt64) (fuel : ℕ) : Option ℕ :=
  (StateMachine.loop (Run.step host monitor maxhit) fuel (.start we m funcva)).map Run.steps

end Papa.Emu
