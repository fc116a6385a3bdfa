import Mathlib.Algebra.Group.Nat.Defs
import Mathlib.Data.List.Basic
import Mathlib.Logic.Function.Basic

/-!
# Code flow

A code flow context makes functions of entry points. The instructions of a function are decoded from
a stack of addresses, a call is descended into before the caller goes on, and a function is reported
once its flow is complete. A jump into a function that is still being flowed makes the jumping
function wait: its report is held until the functions it waits on are reported. Calls into functions
still being flowed are entered later, when the flow that made them ends or, if they are still active
then, from a list that the whole context keeps.

The callbacks may read and change a state of their own, the parameter `σ`, and never call the
context. One that is absent in the source is the one that answers no or does nothing. The recursion
of the source is cut by a fuel, `none` being the result of a call that needs more.

## Main definitions

* `DecodedInsn`, `getBranches`: instructions and their edges.
* `Callbacks`, `CodeFlowContext`: what a context is given and what it keeps.
* `CodeFlowContext.reportFunction`, `CodeFlowContext.addEntryPoint`.
* `CodeFlowContext.Runs`: sequences of outermost calls that return.
-/

namespace Papa.Viv

/-- A virtual address. -/
abbrev VA := UInt64

/-! ### Instructions and their edges -/

/-- The kinds of operands. -/
inductive OperandKind
  | imm
  | immMem
  | pcRel
  | ripRel
  | reg
  | regMem
  | sib
  | unknown
  deriving DecidableEq

/-- A decoded instruction: the kinds of the operands in use, and in `inner` what only callbacks
read. -/
structure DecodedInsn (ι : Type) where
  va : VA
  length : UInt64
  operands : List OperandKind
  isCall : Bool
  isJump : Bool
  isConditional : Bool
  isReturn : Bool
  branchTarget : Option VA
  isFallthrough : Bool
  inner : ι

/-- A call target. -/
def kBrProc : UInt16 := 1
/-- A conditional branch. -/
def kBrCond : UInt16 := 2
/-- The target is dereferenced into the program counter. -/
def kBrDeref : UInt16 := 4
/-- The fall-through to the next instruction. -/
def kBrFall : UInt16 := 16

/-- An edge: its target, absent for an indirect branch, and its flags. -/
structure CfBranch where
  target : Option VA
  flags : UInt16

variable {σ ι : Type}

/-- The edges of an instruction, the fall-through first and the branch target last. -/
def getBranches (op : DecodedInsn ι) : List CfBranch :=
  if op.isReturn then [] else
    let flags := if op.isConditional then kBrCond else 0
    let fall := if op.isFallthrough then [⟨some (op.va + op.length), flags ||| kBrFall⟩] else []
    fall ++
      if op.isCall && op.branchTarget.isSome then [⟨op.branchTarget, flags ||| kBrProc⟩]
      else if op.isJump && op.branchTarget.isSome then [⟨op.branchTarget, flags⟩]
      else if op.isJump && op.branchTarget.isNone then [⟨none, flags ||| kBrDeref⟩]
      else []

/-- Whether an instruction is the kind of indirect jump that a switch uses. -/
def isJumpTableCandidate (op : DecodedInsn ι) : Bool :=
  op.isJump && !op.isConditional && op.branchTarget.isNone &&
    (op.operands.head? == some .reg || op.operands.head? == some .sib)

/-- The cases of a switch, and the table of offsets it reads. -/
structure JumpTableTargets where
  targets : List VA
  tableVa : VA
  tableSize : UInt64

/-! ### The context -/

/-- What a context is given. -/
structure Callbacks (σ ι : Type) where
  read : VA → σ → Option (DecodedInsn ι) × σ
  isExec : VA → σ → Bool × σ
  isDefined : VA → σ → Bool × σ
  onOpcode : VA → DecodedInsn ι → List CfBranch → σ → σ
  onFunction : VA → σ → σ
  resolveJt : List (DecodedInsn ι) → σ → Option JumpTableTargets × σ
  isNoReturnCall : DecodedInsn ι → σ → Bool × σ
  onBranchTable : VA → VA → σ → σ

/-- What happens to functions: made one, held back, passed to `on_function`. -/
inductive Event
  | entered (va : VA)
  | held (va : VA)
  | function (va : VA)
  deriving DecidableEq

/-- What a context keeps. The back of the active call path is the head of `cfBlocks`; `ext` is the
state of the callbacks. -/
structure CodeFlowContext (σ : Type) where
  noflow : List (VA × VA) := []
  functions : List VA := []
  reported : List VA := []
  cfBlocks : List VA := []
  waitsOn : VA → Option (List VA) := fun _ => none
  awaitedBy : VA → Option (List VA) := fun _ => none
  reportHeld : List VA := []
  blockedRecursion : List VA := []
  ext : σ
  /-- History only: what happened so far, the last event first. No code reads it. -/
  trace : List Event := []

/-- `kMaxFunctionsPerImage`. -/
def kMaxFunctionsPerImage : ℕ := 2 ^ 18
/-- `kMaxInsnsPerFunction`. -/
def kMaxInsnsPerFunction : ℕ := 2 ^ 20
/-- `kMaxDescentDepth`. -/
def kMaxDescentDepth : ℕ := 512

/-- Append to a list without repetitions, keeping the first position. -/
def pushUnique (list : List VA) (v : VA) : List VA := if v ∈ list then list else list ++ [v]

namespace CodeFlowContext

/-- Pass a function to `on_function`. -/
def fire (cb : Callbacks σ ι) (va : VA) (s : CodeFlowContext σ) : CodeFlowContext σ :=
  { s with
    reported := s.reported.insert va
    ext := cb.onFunction va s.ext
    trace := .function va :: s.trace }

/-- Take `va` out of what a waiter waits on; a waiter that waits on nothing more is freed. -/
def releaseWaiter (va : VA) (r : (VA → Option (List VA)) × List VA) (waiter : VA) :
    (VA → Option (List VA)) × List VA :=
  match r.1 waiter with
  | none => r
  | some held =>
    let left := held.filter (· ≠ va)
    (Function.update r.1 waiter (some left), if left.isEmpty then r.2 ++ [waiter] else r.2)

/-- A freed function is reported directly, one level deep. -/
def reportFreed (cb : Callbacks σ ι) (s : CodeFlowContext σ) (waiter : VA) : CodeFlowContext σ :=
  fire cb waiter { s with
    waitsOn := Function.update s.waitsOn waiter none
    reportHeld := s.reportHeld.filter (· ≠ waiter) }

/-- Report a completed function and release the functions whose only remaining wait it was. -/
def reportFunction (cb : Callbacks σ ι) (va : VA) (s : CodeFlowContext σ) : CodeFlowContext σ :=
  let s := s.fire cb va
  match s.awaitedBy va with
  | none => s
  | some waiters =>
    let r := waiters.foldl (releaseWaiter va) (s.waitsOn, [])
    r.2.foldl (reportFreed cb)
      { s with waitsOn := r.1, awaitedBy := Function.update s.awaitedBy va none }

/-- Stash the report of a function that waits. -/
def hold (va : VA) (s : CodeFlowContext σ) : CodeFlowContext σ :=
  { s with reportHeld := s.reportHeld.insert va, trace := .held va :: s.trace }

/-- `startva` jumped into the active function `bva`. -/
def wait (startva bva : VA) (s : CodeFlowContext σ) : CodeFlowContext σ :=
  { s with
    waitsOn := Function.update s.waitsOn startva
      (some (((s.waitsOn startva).getD []).insert bva))
    awaitedBy := Function.update s.awaitedBy bva
      (some (((s.awaitedBy bva).getD []).insert startva)) }

/-! ### One function's flow -/

/-- The locals of a flow: the stack of addresses, top first, the addresses taken from it, the
instructions decoded, the byte spans of offset tables, and the calls to enter later. -/
structure Flow (ι : Type) where
  optodo : List VA
  visited : List VA := []
  flowInsns : List (VA × DecodedInsn ι) := []
  jtData : List (VA × VA) := []
  recursionTargets : List VA := []

/-- Whether an address is in a resolved offset table. -/
def Flow.inJtData (f : Flow ι) (addr : VA) : Bool :=
  f.jtData.any fun span => span.1 ≤ addr && addr < span.2

/-- The decoded instructions before a jump, in ascending order, and the jump. -/
def Flow.windowEndingAt (f : Flow ι) (terminal : DecodedInsn ι) : List (DecodedInsn ι) :=
  let before := (f.flowInsns.filter fun e => e.1 < terminal.va).map Prod.snd
  let sorted := before.mergeSort fun a b => a.va ≤ b.va
  sorted.drop (sorted.length - 4096) ++ [terminal]

/-- An indirect branch: the cases of a switch are the edges to follow next, the last one first. -/
def indirectBranch (cb : Callbacks σ ι) (op : DecodedInsn ι) (f : Flow ι)
    (s : CodeFlowContext σ) : List CfBranch × Flow ι × CodeFlowContext σ :=
  if isJumpTableCandidate op then
    let r := cb.resolveJt (f.windowEndingAt op) s.ext
    match r.1 with
    | none => ([], f, { s with ext := r.2 })
    | some jt =>
      let ext := jt.targets.foldl (fun ext va => cb.onBranchTable op.va va ext) r.2
      let jtData := if jt.tableSize ≠ 0 then (jt.tableVa, jt.tableVa + jt.tableSize) :: f.jtData
        else f.jtData
      (jt.targets.reverse.map fun va => ⟨some va, kBrCond⟩, { f with jtData }, { s with ext })
  else ([], f, s)

/-- The callee of a call is entered, or entered later when it is active. -/
def descend (enter : VA → CodeFlowContext σ → Option (CodeFlowContext σ)) (bva : VA) (f : Flow ι)
    (s : CodeFlowContext σ) : Option (Flow ι × CodeFlowContext σ) :=
  if bva ∈ s.cfBlocks then
    some ({ f with recursionTargets := pushUnique f.recursionTargets bva }, s)
  else if s.cfBlocks.length < kMaxDescentDepth then (enter bva s).map fun s => (f, s)
  else some (f, s)

/-- A call edge. A call to the next instruction is not followed, and after a call that does not
return the edge to the next instruction is suppressed. -/
def followCall (cb : Callbacks σ ι) (enter : VA → CodeFlowContext σ → Option (CodeFlowContext σ))
    (cur : VA) (op : DecodedInsn ι) (bva : VA) (f : Flow ι) (s : CodeFlowContext σ) :
    Option (Flow ι × CodeFlowContext σ) :=
  let nextva := cur + op.length
  if bva = nextva then some (f, s) else do
    let (f, s) ← descend enter bva f s
    let r := cb.isNoReturnCall op s.ext
    some (f, { s with
      ext := r.2
      noflow := if r.1 then s.noflow.insert (cur, nextva) else s.noflow })

/-- An edge with a target. -/
def followBranch (cb : Callbacks σ ι) (enter : VA → CodeFlowContext σ → Option (CodeFlowContext σ))
    (startva cur : VA) (op : DecodedInsn ι) (flags : UInt16) (bva : VA) (f : Flow ι)
    (s : CodeFlowContext σ) : Option (Flow ι × CodeFlowContext σ) :=
  let r := cb.isExec bva s.ext
  let s := { s with ext := r.2 }
  if !r.1 then some (f, s)
  else if (cur, bva) ∈ s.noflow then some (f, s)
  else if flags &&& kBrProc ≠ 0 then followCall cb enter cur op bva f s
  else if bva ∈ s.cfBlocks ∧ op.isJump ∧ startva ≠ bva then some (f, s.wait startva bva)
  else if bva ∈ f.visited then some (f, s)
  else some ({ f with optodo := bva :: f.optodo }, s)

/-- The loop over the edges of an instruction, the head being the back of the vector. -/
def branchLoop (cb : Callbacks σ ι) (enter : VA → CodeFlowContext σ → Option (CodeFlowContext σ))
    (startva cur : VA) (op : DecodedInsn ι) :
    (fuel : ℕ) → List CfBranch → Flow ι → CodeFlowContext σ → Option (Flow ι × CodeFlowContext σ)
  | 0, _, _, _ => none
  | _ + 1, [], f, s => some (f, s)
  | fuel + 1, br :: branches, f, s =>
    match br.target with
    | none =>
      let r := indirectBranch cb op f s
      branchLoop cb enter startva cur op fuel (r.1 ++ branches) r.2.1 r.2.2
    | some bva => do
      let (f, s) ← followBranch cb enter startva cur op br.flags bva f s
      branchLoop cb enter startva cur op fuel branches f s

/-- The loop over the stack of addresses. -/
def flowLoop (cb : Callbacks σ ι) (enter : VA → CodeFlowContext σ → Option (CodeFlowContext σ))
    (startva : VA) :
    (fuel : ℕ) → Flow ι → CodeFlowContext σ → Option (Flow ι × CodeFlowContext σ)
  | 0, _, _ => none
  | fuel + 1, f, s =>
    match f.optodo with
    | [] => some (f, s)
    | cur :: optodo =>
      if kMaxInsnsPerFunction ≤ f.flowInsns.length then some (f, s)
      else if cur ∈ f.visited then flowLoop cb enter startva fuel { f with optodo } s
      else
        let f := { f with optodo, visited := cur :: f.visited }
        let defined := cb.isDefined cur s.ext
        let s := { s with ext := defined.2 }
        if defined.1 then flowLoop cb enter startva fuel f s
        else if f.inJtData cur then flowLoop cb enter startva fuel f s
        else
          let insn := cb.read cur s.ext
          let s := { s with ext := insn.2 }
          match insn.1 with
          | none => flowLoop cb enter startva fuel f s
          | some op => do
            let branches := getBranches op
            let f := { f with flowInsns := (cur, op) :: f.flowInsns }
            let s := { s with ext := cb.onOpcode cur op branches s.ext }
            let (f, s) ← branchLoop cb enter startva cur op fuel branches.reverse f s
            flowLoop cb enter startva fuel f s

/-- Enter the calls that a flow deferred, or block them while they are active. -/
def drainTargets (enter : VA → CodeFlowContext σ → Option (CodeFlowContext σ)) :
    List VA → CodeFlowContext σ → Option (CodeFlowContext σ)
  | [], s => some s
  | fva :: targets, s =>
    if fva ∈ s.cfBlocks then
      drainTargets enter targets { s with blockedRecursion := pushUnique s.blockedRecursion fva }
    else if fva ∈ s.reported then drainTargets enter targets s
    else do
      let s ← enter fva s
      drainTargets enter targets s

/-- Enter again the blocked functions that are neither active nor reported; the others are what
stays blocked. -/
def drainBlocked (enter : VA → CodeFlowContext σ → Option (CodeFlowContext σ)) :
    (snapshot stillBlocked : List VA) → CodeFlowContext σ → Option (CodeFlowContext σ)
  | [], stillBlocked, s => some { s with blockedRecursion := stillBlocked }
  | fva :: snapshot, stillBlocked, s =>
    if fva ∉ s.cfBlocks ∧ fva ∉ s.reported then do
      let s ← enter fva { s with
        functions := s.functions.erase fva
        blockedRecursion := s.blockedRecursion.erase fva }
      drainBlocked enter snapshot stillBlocked s
    else drainBlocked enter snapshot (stillBlocked ++ [fva]) s

/-- Decode and follow control flow from an address. -/
def addCodeFlow (cb : Callbacks σ ι) (enter : VA → CodeFlowContext σ → Option (CodeFlowContext σ))
    (fuel : ℕ) (va : VA) (s : CodeFlowContext σ) : Option (CodeFlowContext σ) := do
  let (f, s) ← flowLoop cb enter va fuel { optodo := [va] } { s with cfBlocks := va :: s.cfBlocks }
  let s ← drainTargets enter f.recursionTargets { s with cfBlocks := s.cfBlocks.tail }
  drainBlocked enter s.blockedRecursion [] s

/-- Make an address a function unless it is one, flow its code, and report it or hold the report. -/
def entryPoint (flow : VA → CodeFlowContext σ → Option (CodeFlowContext σ)) (cb : Callbacks σ ι)
    (va : VA) (s : CodeFlowContext σ) : Option (CodeFlowContext σ) :=
  if kMaxFunctionsPerImage ≤ s.functions.length then some s
  else if va ∈ s.functions then some s
  else do
    let s ← flow va { s with functions := va :: s.functions, trace := .entered va :: s.trace }
    if s.waitsOn va = none then some (s.reportFunction cb va) else some (s.hold va)

/-- `add_entry_point` with a bound on the depth of the recursion and on the turns of each loop. -/
def addEntryPoint (cb : Callbacks σ ι) : (fuel : ℕ) → VA → CodeFlowContext σ →
    Option (CodeFlowContext σ)
  | 0 => fun _ _ => none
  | fuel + 1 => entryPoint (addCodeFlow cb (addEntryPoint cb fuel) fuel) cb

/-- The states after sequences of outermost calls, each of which returned. -/
inductive Runs (cb : Callbacks σ ι) (ext : σ) : List VA → CodeFlowContext σ → Prop
  | nil : Runs cb ext [] { ext }
  | call {vas : List VA} {s s' : CodeFlowContext σ} (fuel : ℕ) (va : VA) (h : Runs cb ext vas s)
      (hcall : addEntryPoint cb fuel va s = some s') : Runs cb ext (vas ++ [va]) s'

end CodeFlowContext

end Papa.Viv
