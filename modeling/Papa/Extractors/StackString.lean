import Papa.Extractors.Recovered
import Papa.Extractors.Strings

/-!
# Features of a block

A block is a tight loop when it leads to itself, and it builds a string on the stack when it stores
printable bytes there, one constant after the other. The bytes of consecutive stores are counted in
one pass over the block; a store that is not printable throughout, and any other instruction, begins
the count anew.

## Main definitions

* `extractTightLoop`, `extractStackString`, `extractBasicBlockFeatures`.
* `storedBytes`: the bytes that a stretch of instructions stores.

## Main results

* `extractStackString_eq_some_iff`: the string begins at the first maximal run of printable stores
  that is long enough.
-/

namespace Papa.Extractors

open Emu Features
open Runs (Run IsRun Kept runs runsFrom)

/-- The least number of bytes of a string on the stack. -/
def kMinStackStringLen : ℕ := 8

/-- The width of a store whose operand tells none. -/
def kDefaultStoreWidth : ℕ := 4

/-- The byte of a number at a place, the lowest first. -/
def byteOf (imm : UInt64) (i : ℕ) : UInt8 := UInt8.ofNat (imm.toNat >>> (8 * i))

/-- `leading_printable_bytes`: how many of the low bytes of a number are printable before the first
that is not. -/
def leadingPrintableBytes (imm : UInt64) (widthBytes : ℕ) : ℕ :=
  (((List.range widthBytes).map (byteOf imm)).takeWhile isAsciiPrintable).length

/-- `extract_tight_loop`. -/
def extractTightLoop (bb : Native.BasicBlock) : Option (FeatureValue × Address) :=
  if bb.successors.any (· == bb.va) then some (makeCharacteristic "tight loop" bb.va) else none

section StackString

variable (regs : RegisterTable) (is64bit : Bool)

/-- A constant that is stored in the stack frame. -/
def isStackStore (ins : Native.DecodedInsn) : Bool :=
  ins.mnem = .mov ∧ 2 ≤ ins.operands.length ∧
    ((ins.operand 0).kind = .regMem ∨ (ins.operand 0).kind = .sib) ∧
    isStackReg regs (ins.operand 0).baseReg is64bit ∧ (ins.operand 1).kind = .imm

/-- The width of what is stored. -/
def storeWidth (ins : Native.DecodedInsn) : ℕ :=
  if (ins.operand 1).widthBytes ≠ 0 then (ins.operand 1).widthBytes else kDefaultStoreWidth

/-- The loop over the instructions, with the bytes counted and the address where they begin. -/
def stackStringLoop : List Native.DecodedInsn → (printableRun : ℕ) → (runAnchorVa : UInt64) →
    Option UInt64
  | [], _, _ => none
  | ins :: rest, printableRun, runAnchorVa =>
    if ¬isStackStore regs is64bit ins then stackStringLoop rest 0 (ins.va + ins.length)
    else
      let width := storeWidth ins
      let printable := leadingPrintableBytes (ins.operand 1).imm width
      if printable < width then
        if kMinStackStringLen ≤ printable then some ins.va else stackStringLoop rest 0 ins.va
      else
        let runAnchorVa := if printableRun = 0 then ins.va else runAnchorVa
        let printableRun := printableRun + printable
        if kMinStackStringLen ≤ printableRun then some runAnchorVa
        else stackStringLoop rest printableRun runAnchorVa

/-- `extract_stack_string`. -/
def extractStackString (bb : Native.BasicBlock) : Option (FeatureValue × Address) :=
  (stackStringLoop regs is64bit bb.instructions 0 bb.va).map (makeCharacteristic "stack string")

/-- `extract_basic_block_features`. -/
def extractBasicBlockFeatures (bb : Native.BasicBlock) : List (FeatureValue × Address) :=
  (.basicBlock, .absoluteVirtual bb.va) ::
    ((extractTightLoop bb).toList ++ (extractStackString regs is64bit bb).toList)

/-! ### The runs of stores -/

/-- A store all of whose bytes are printable. -/
def isPrintableStore (ins : Native.DecodedInsn) : Bool :=
  isStackStore regs is64bit ins &&
    decide (leadingPrintableBytes (ins.operand 1).imm (storeWidth ins) = storeWidth ins)

/-- The bytes that a stretch of stores holds. -/
def storedBytes (instructions : List Native.DecodedInsn) (r : Run) : ℕ :=
  (((instructions.drop r.start).take (r.stop - r.start)).map storeWidth).sum

/-- A maximal run of printable stores that is long enough for a string. -/
structure IsStackString (instructions : List Native.DecodedInsn) (r : Run) : Prop where
  isRun : IsRun (instructions.map (isPrintableStore regs is64bit)) r
  long : kMinStackStringLen ≤ storedBytes instructions r

variable {regs is64bit}

theorem storeWidth_pos (ins : Native.DecodedInsn) : 0 < storeWidth ins := by
  rw [storeWidth]
  split_ifs with h
  · exact Nat.pos_of_ne_zero h
  · decide

theorem storeWidth_le {ins : Native.DecodedInsn} (h : (ins.operand 1).widthBytes ≤ 8) :
    storeWidth ins ≤ kMinStackStringLen := by
  rw [storeWidth]
  split_ifs
  · exact h
  · decide

theorem leadingPrintableBytes_le (imm : UInt64) (width : ℕ) :
    leadingPrintableBytes imm width ≤ width := by
  have hle := (List.takeWhile_prefix isAsciiPrintable
    (l := (List.range width).map (byteOf imm))).length_le
  rwa [List.length_map, List.length_range] at hle

/-- The bytes of a stretch that goes on. -/
theorem storedBytes_succ {pre rest : List Native.DecodedInsn} {ins : Native.DecodedInsn}
    {start : ℕ} (hstart : start ≤ pre.length) :
    storedBytes (pre ++ ins :: rest) ⟨start, pre.length + 1⟩ =
      storedBytes (pre ++ ins :: rest) ⟨start, pre.length⟩ + storeWidth ins := by
  have hdrop : (pre ++ ins :: rest).drop start = pre.drop start ++ ins :: rest :=
    List.drop_append_of_le_length hstart
  have hlength : (pre.drop start).length = pre.length - start := List.length_drop
  simp only [storedBytes, hdrop]
  rw [Nat.sub_add_comm hstart, ← hlength, List.take_length_add_append, List.take_left]
  simp

/-- A longer stretch holds no fewer bytes. -/
theorem storedBytes_mono {instructions : List Native.DecodedInsn} {start i j : ℕ} (h : i ≤ j) :
    storedBytes instructions ⟨start, i⟩ ≤ storedBytes instructions ⟨start, j⟩ := by
  have hle : i - start ≤ j - start := Nat.sub_le_sub_right h start
  refine ((List.take_sublist_take_left hle).map storeWidth).sum_le_sum fun _ _ => ?_
  exact Nat.zero_le _

/-- The run under way comes first, and it does not end before the place. -/
theorem exists_runsFrom_some (us : List Bool) (i start : ℕ) :
    ∃ stop rest, i ≤ stop ∧ runsFrom us i (some start) = ⟨start, stop⟩ :: rest := by
  induction us generalizing i with
  | nil => exact ⟨i, [], Nat.le_refl i, rfl⟩
  | cons u us ih =>
    cases u with
    | true =>
      obtain ⟨stop, rest, hle, heq⟩ := ih (i + 1)
      exact ⟨stop, rest, by omega, heq⟩
    | false => exact ⟨i, runsFrom us (i + 1) none, Nat.le_refl i, rfl⟩

/-- The address of an instruction of a list. -/
def vaAt (instructions : List Native.DecodedInsn) (i : ℕ) : Option UInt64 :=
  instructions[i]?.map (·.va)

/-- What is kept before the instructions that are left: the bytes of the run under way, which are
too few, and where it began. -/
structure Counted (instructions : List Native.DecodedInsn) (i : ℕ) (run : Option ℕ)
    (printableRun : ℕ) (runAnchorVa : UInt64) : Prop where
  idle : run = none → printableRun = 0
  running : ∀ start, run = some start → start < i ∧ 0 < printableRun ∧
    printableRun = storedBytes instructions ⟨start, i⟩ ∧ printableRun < kMinStackStringLen ∧
    vaAt instructions start = some runAnchorVa

section Loop

variable {pre rest : List Native.DecodedInsn} {ins : Native.DecodedInsn} {run : Option ℕ}
  {printableRun : ℕ} {runAnchorVa : UInt64}

theorem Counted.nothing (instructions : List Native.DecodedInsn) (i : ℕ) (runAnchorVa : UInt64) :
    Counted instructions i none 0 runAnchorVa := ⟨fun _ => rfl, nofun⟩

/-- The run under way is too short to end here. -/
theorem Counted.short {instructions : List Native.DecodedInsn} {i start : ℕ}
    (h : Counted instructions i run printableRun runAnchorVa) (hrun : run = some start) :
    ¬kMinStackStringLen ≤ storedBytes instructions ⟨start, i⟩ := by
  obtain ⟨-, -, hstored, hshort, -⟩ := h.running start hrun
  omega

/-- Another instruction ends the run under way. -/
theorem find?_runsFrom_false {us : List Bool}
    (h : Counted (pre ++ rest) pre.length run printableRun runAnchorVa) :
    (runsFrom (false :: us) pre.length run).find?
        (fun r => kMinStackStringLen ≤ storedBytes (pre ++ rest) r) =
      (runsFrom us (pre.length + 1) none).find? fun r =>
        kMinStackStringLen ≤ storedBytes (pre ++ rest) r := by
  cases run with
  | none => rfl
  | some start => exact List.find?_cons_of_neg (by simpa using h.short rfl)

/-- **A printable store** goes on with the run under way, or begins one. -/
theorem Counted.store (h : Counted (pre ++ ins :: rest) pre.length run printableRun runAnchorVa) :
    run.getD pre.length < pre.length + 1 ∧
    printableRun + storeWidth ins =
      storedBytes (pre ++ ins :: rest) ⟨run.getD pre.length, pre.length + 1⟩ ∧
    vaAt (pre ++ ins :: rest) (run.getD pre.length) =
      some (if printableRun = 0 then ins.va else runAnchorVa) := by
  cases run with
  | none =>
    rw [Option.getD_none, h.idle rfl, storedBytes_succ (Nat.le_refl _), if_pos rfl]
    refine ⟨Nat.lt_succ_self _, ?_, ?_⟩
    · rw [storedBytes, Nat.sub_self, List.take_zero]
      rfl
    · rw [vaAt, List.getElem?_append_right (Nat.le_refl _), Nat.sub_self]
      rfl
  | some start =>
    obtain ⟨hlt, hpos, hstored, -, hva⟩ := h.running start rfl
    rw [Option.getD_some, storedBytes_succ hlt.le, ← hstored, if_neg (Nat.ne_of_gt hpos)]
    exact ⟨Nat.lt_succ_of_lt hlt, rfl, hva⟩

/-- **What the loop finds** is the first run that is long enough. -/
theorem stackStringLoop_eq (hwidth : ∀ ins ∈ rest, (ins.operand 1).widthBytes ≤ 8)
    (h : Counted (pre ++ rest) pre.length run printableRun runAnchorVa) :
    stackStringLoop regs is64bit rest printableRun runAnchorVa =
      ((runsFrom (rest.map (isPrintableStore regs is64bit)) pre.length run).find? fun r =>
        kMinStackStringLen ≤ storedBytes (pre ++ rest) r).bind fun r =>
          vaAt (pre ++ rest) r.start := by
  induction rest generalizing pre run printableRun runAnchorVa with
  | nil =>
    cases run with
    | none => rfl
    | some start =>
      have hshort := h.short rfl
      rw [stackStringLoop, List.map_nil, runsFrom, List.find?_cons_of_neg (by simpa using hshort)]
      rfl
  | cons ins rest ih =>
    have hrest : ∀ ins ∈ rest, (ins.operand 1).widthBytes ≤ 8 :=
      fun i hi => hwidth i (List.mem_cons_of_mem _ hi)
    have hsplit : pre ++ ins :: rest = (pre ++ [ins]) ++ rest := (List.append_cons pre ins rest)
    have hlength : (pre ++ [ins]).length = pre.length + 1 := by simp
    -- what follows a break of the run
    have hbreak (va : UInt64) (hnot : isPrintableStore regs is64bit ins = false) :
        stackStringLoop regs is64bit rest 0 va =
          ((runsFrom ((ins :: rest).map (isPrintableStore regs is64bit)) pre.length run).find?
            fun r => kMinStackStringLen ≤ storedBytes (pre ++ ins :: rest) r).bind fun r =>
              vaAt (pre ++ ins :: rest) r.start := by
      rw [List.map_cons, hnot, find?_runsFrom_false h, hsplit, ← hlength]
      exact ih hrest (.nothing _ _ va)
    rw [stackStringLoop]
    by_cases hstore : isStackStore regs is64bit ins
    · rw [if_neg (not_not.mpr hstore)]
      dsimp only
      rcases (leadingPrintableBytes_le (ins.operand 1).imm (storeWidth ins)).lt_or_eq with
        hlt | hfull
      · have hfew : ¬kMinStackStringLen ≤
            leadingPrintableBytes (ins.operand 1).imm (storeWidth ins) := by
          have hle := storeWidth_le (hwidth ins List.mem_cons_self)
          exact Nat.not_le.mpr (hlt.trans_le hle)
        rw [if_pos hlt, if_neg hfew]
        exact hbreak _ (by simp [isPrintableStore, Nat.ne_of_lt hlt])
      · have hprintable : isPrintableStore regs is64bit ins = true := by
          simp [isPrintableStore, hstore, hfull]
        obtain ⟨hstart, hstored, hva⟩ := h.store
        rw [if_neg (Nat.not_lt.mpr hfull.ge), hfull, List.map_cons, hprintable, runsFrom]
        by_cases hlong : kMinStackStringLen ≤ printableRun + storeWidth ins
        · obtain ⟨stop, rest', hstop, hfirst⟩ := exists_runsFrom_some
            (rest.map (isPrintableStore regs is64bit)) (pre.length + 1) (run.getD pre.length)
          have hreaches : kMinStackStringLen ≤
              storedBytes (pre ++ ins :: rest) ⟨run.getD pre.length, stop⟩ :=
            (hlong.trans hstored.le).trans (storedBytes_mono hstop)
          rw [if_pos hlong, hfirst, List.find?_cons_of_pos (by simpa using hreaches)]
          exact hva.symm
        · have hcounted : Counted ((pre ++ [ins]) ++ rest) (pre ++ [ins]).length
              (some (run.getD pre.length)) (printableRun + storeWidth ins)
              (if printableRun = 0 then ins.va else runAnchorVa) := by
            refine ⟨fun heq => absurd heq (Option.some_ne_none _), fun start heq => ?_⟩
            obtain rfl := Option.some.inj heq
            rw [← hsplit, hlength]
            have hpos := storeWidth_pos ins
            exact ⟨hstart, by omega, hstored, Nat.not_le.mp hlong, hva⟩
          rw [if_neg hlong, ih hrest hcounted, hlength, ← hsplit]
    · rw [if_pos hstore]
      exact hbreak _ (by simp [isPrintableStore, hstore])

end Loop

/-- **A string on the stack** is found at its first store: that of the first maximal run of
printable stores that holds eight bytes or more. -/
theorem extractStackString_eq_some_iff {bb : Native.BasicBlock}
    (hwidth : ∀ ins ∈ bb.instructions, (ins.operand 1).widthBytes ≤ 8)
    {f : FeatureValue × Address} :
    extractStackString regs is64bit bb = some f ↔
      ∃ r, IsStackString regs is64bit bb.instructions r ∧
        (∀ r', IsStackString regs is64bit bb.instructions r' → r.start ≤ r'.start) ∧
        ∃ ins, bb.instructions[r.start]? = some ins ∧
          f = makeCharacteristic "stack string" ins.va := by
  have hcounted : Counted ([] ++ bb.instructions) ([] : List Native.DecodedInsn).length none 0
      bb.va := .nothing _ _ _
  have hfound {r : Run} : (runs (bb.instructions.map (isPrintableStore regs is64bit))).find?
      (fun r => kMinStackStringLen ≤ storedBytes bb.instructions r) = some r ↔
        IsStackString regs is64bit bb.instructions r ∧
          ∀ r', IsStackString regs is64bit bb.instructions r' → r.start ≤ r'.start := by
    rw [Runs.find?_runs_eq_some_iff]
    simp only [decide_eq_true_eq]
    exact ⟨fun ⟨hr, hlong, hleast⟩ => ⟨⟨hr, hlong⟩, fun r' h' => hleast r' h'.isRun h'.long⟩,
      fun ⟨h, hleast⟩ => ⟨h.isRun, h.long, fun r' hr' hlong' => hleast r' ⟨hr', hlong'⟩⟩⟩
  have heq : extractStackString regs is64bit bb =
      (((runs (bb.instructions.map (isPrintableStore regs is64bit))).find? fun r =>
        kMinStackStringLen ≤ storedBytes bb.instructions r).bind fun r =>
          vaAt bb.instructions r.start).map (makeCharacteristic "stack string") :=
    congrArg _ (stackStringLoop_eq hwidth hcounted)
  rw [heq]
  simp only [Option.map_eq_some_iff, Option.bind_eq_some_iff, hfound, vaAt]
  constructor
  · rintro ⟨va, ⟨r, ⟨hr, hleast⟩, ins, hins, rfl⟩, rfl⟩
    exact ⟨r, hr, hleast, ins, hins, rfl⟩
  · rintro ⟨r, hr, hleast, ins, hins, rfl⟩
    exact ⟨ins.va, ⟨r, ⟨hr, hleast⟩, ins, hins, rfl⟩, rfl⟩

theorem extractTightLoop_eq_some_iff {bb : Native.BasicBlock} {f : FeatureValue × Address} :
    extractTightLoop bb = some f ↔
      bb.va ∈ bb.successors ∧ f = makeCharacteristic "tight loop" bb.va := by
  rw [extractTightLoop, List.any_beq']
  by_cases h : bb.va ∈ bb.successors
  · rw [if_pos (List.contains_iff_mem.mpr h)]
    exact ⟨fun heq => ⟨h, (Option.some.inj heq).symm⟩, fun heq => congrArg some heq.2.symm⟩
  · rw [if_neg (mt List.contains_iff_mem.mp h)]
    exact iff_of_false nofun fun heq => h heq.1

end StackString

/-- **The features of a block**: that it is one, that it leads to itself, and that it stores a
string on the stack. An operand of the processor has no more than eight bytes. -/
theorem mem_extractBasicBlockFeatures_iff (regs : RegisterTable) (is64bit : Bool)
    (bb : Native.BasicBlock)
    (hwidth : ∀ ins ∈ bb.instructions, (ins.operand 1).widthBytes ≤ 8)
    (f : FeatureValue × Address) :
    f ∈ extractBasicBlockFeatures regs is64bit bb ↔
      f = (.basicBlock, .absoluteVirtual bb.va) ∨
      (bb.va ∈ bb.successors ∧ f = makeCharacteristic "tight loop" bb.va) ∨
      ∃ r, IsStackString regs is64bit bb.instructions r ∧
        (∀ r', IsStackString regs is64bit bb.instructions r' → r.start ≤ r'.start) ∧
        ∃ ins, bb.instructions[r.start]? = some ins ∧
          f = makeCharacteristic "stack string" ins.va := by
  rw [extractBasicBlockFeatures, List.mem_cons, List.mem_append, Option.mem_toList,
    Option.mem_toList, extractTightLoop_eq_some_iff, extractStackString_eq_some_iff hwidth]

/-- `mov dword ptr [esp], imm`. -/
def storeImm (va imm : UInt64) : Native.DecodedInsn where
  va := va
  length := 7
  mnem := .mov
  operands := [{ kind := .regMem, baseReg := .gpr32 4, widthBytes := 4, sibEncoded := true },
    { kind := .imm, imm, widthBytes := 4 }]

/-- `cmd.` and `exe` with its end are too short together, `cmd.` and `exe.` are not. -/
theorem mem_extractBasicBlockFeatures_stores :
    let bb (last : UInt64) : Native.BasicBlock :=
      ⟨0x1000, [storeImm 0x1000 0x2E646D63, storeImm 0x1007 last], [], []⟩
    makeCharacteristic "stack string" 0x1000 ∈
        extractBasicBlockFeatures generalRegisters false (bb 0x2E657865) ∧
      ∀ va, makeCharacteristic "stack string" va ∉
        extractBasicBlockFeatures generalRegisters false (bb 0x00657865) := by
  intro bb
  have hwidth (last : UInt64) : ∀ ins ∈ (bb last).instructions,
      (ins.operand 1).widthBytes ≤ 8 := by
    intro ins hins
    rcases List.mem_cons.mp hins with rfl | hins
    · decide
    · rw [List.mem_singleton.mp hins]
      exact (by decide : 4 ≤ 8)
  constructor
  · refine (mem_extractBasicBlockFeatures_iff _ _ _ (hwidth _) _).mpr (Or.inr (Or.inr ?_))
    exact ⟨⟨0, 2⟩, ⟨Runs.mem_runs_iff.mp (by decide), by decide⟩, fun _ _ => Nat.zero_le _,
      _, rfl, rfl⟩
  · intro va hmem
    rcases (mem_extractBasicBlockFeatures_iff _ _ _ (hwidth _) _).mp hmem with
      h | ⟨h, -⟩ | ⟨r, hr, -⟩
    · exact absurd (congrArg (·.1) h) nofun
    · exact absurd h List.not_mem_nil
    · have hmem := Runs.mem_runs_iff.mpr hr.isRun
      rw [show runs ((bb 0x00657865).instructions.map (isPrintableStore generalRegisters false)) =
        [⟨0, 1⟩] by decide, List.mem_singleton] at hmem
      have hlong := hr.long
      rw [hmem] at hlong
      exact absurd hlong (by decide)

end Papa.Extractors
