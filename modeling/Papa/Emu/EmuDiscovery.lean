import Papa.Emu.Observation
import Papa.Viv.Entrypoints

/-!
# Discovery by emulation

A candidate is emulated over the bytes of the sections to see whether it behaves like a function, a
function is emulated to see where its calls go, and the function around a switch is emulated to see
the value of a register at its jump. Each emulation has a monitor of its own.

## Main definitions

* `buildImageMaps`: the bytes of the sections, as far as a budget allows.
* `WorkspaceEmulator.prepare`: the state at the entry of a function.
* `watcher`, `Watcher.looksGood`, `validateCandidate`: whether a candidate looks like a function.
* `analysisMonitor`, `discoverCallTargets`: the targets of calls.
* `regAtTarget`, `emulateToReadRegister`: the value of a register.

## Main results

* `buildImageMaps_spec`: what is copied of an image.
* `validateCandidate_returns`, `discoverCallTargets_returns`, `emulateToReadRegister_returns`: what
  the emulations tell of the events of the run.
-/

namespace Papa.Emu

open Papa.Pe

/-! ### The bytes of an image -/

/-- The bytes of a section with the permissions of its map. -/
structure ImageMap where
  base : UInt64
  perms : UInt32
  bytes : List UInt8
  deriving DecidableEq

def kScnMemExecute : UInt32 := 0x20000000
def kScnMemRead : UInt32 := 0x40000000
def kScnMemWrite : UInt32 := 0x80000000

/-- `section_perms`. -/
def sectionPerms (characteristics : UInt32) : UInt32 :=
  (if characteristics &&& kScnMemRead ≠ 0 then kMemRead else 0) |||
    (if characteristics &&& kScnMemWrite ≠ 0 then kMemWrite else 0) |||
    (if characteristics &&& kScnMemExecute ≠ 0 then kMemExec else 0)

/-- `kMaxEmuImageBytes`. -/
def kMaxEmuImageBytes : ℕ := 2 ^ 29

/-- The map of a section. -/
def mapOfSection (img : PeImage) (s : ParsedSection) (raw : List UInt8) : ImageMap :=
  ⟨img.imageBase + s.virtualAddress.toUInt64, sectionPerms s.characteristics, raw⟩

/-- The loop over the sections. -/
def buildLoop (img : PeImage) : (budget : ℕ) → List ParsedSection → List ImageMap
  | _, [] => []
  | budget, s :: rest =>
    if s.rawSize = 0 then buildLoop img budget rest
    else if s.rawSize.toNat > budget then []
    else
      match img.bytesAtRva s.virtualAddress.toNat s.rawSize.toNat with
      | none => buildLoop img budget rest
      | some raw => mapOfSection img s raw :: buildLoop img (budget - raw.length) rest

/-- `build_image_maps`. -/
def buildImageMaps (img : PeImage) : List ImageMap := buildLoop img kMaxEmuImageBytes img.sections

/-! ### The entry of a function -/

def kStackBase : UInt64 := 0xBFB00000
def kStackTop : UInt64 := kStackBase + kStackSize
def kStackBase64 : UInt64 := 0xFFFFFFFFBFB00000
def kStackTop64 : UInt64 := kStackBase64 + kStackSize

/-- `kTaintRegs`. -/
def kTaintRegs : List Slot := [0, 1, 2, 3, 5, 6, 7]
/-- `kTaintRegs64`. -/
def kTaintRegs64 : List Slot := [0, 1, 2, 3, 5, 6, 7, 8, 9]

/-- `kFuncStackTaints`. -/
def kFuncStackTaints : ℕ := 20

namespace WorkspaceEmulator

/-- An unknown value on the stack. -/
def taintStack (sp : UInt64) (we : WorkspaceEmulator) (i : ℕ) : WorkspaceEmulator :=
  let offset := UInt64.ofNat (i * we.emu.ptrSize)
  let (t, taints) := we.taints.allocate .funcStack offset
  { we with
    emu := { we.emu with mem := we.emu.mem.writeValue (sp + offset) t we.emu.ptrSize }
    taints }

/-- An unknown value in a register. -/
def taintRegister (we : WorkspaceEmulator) (reg : Slot) : WorkspaceEmulator :=
  let (t, taints) := we.taints.allocate .uninitReg (UInt64.ofNat reg)
  let e := we.emu.setRegister (.real reg) t
  { we with emu := { e with regs := e.regs.setTaint reg true }, taints }

/-- `prepare`. -/
def prepare (we : WorkspaceEmulator) (funcva : UInt64) : WorkspaceEmulator :=
  let is64bit := we.emu.is64bit
  let base := if is64bit then kStackBase64 else kStackBase
  let top := if is64bit then kStackTop64 else kStackTop
  let sp := top - UInt64.ofNat (kFuncStackTaints * we.emu.ptrSize)
  let we := { we with emu := { we.emu with mem := we.emu.mem.initStack base } }
  let we := (List.range kFuncStackTaints).foldl (taintStack sp) we
  let we := { we with emu := we.emu.setRegister kRegEsp sp }
  let we := (if is64bit then kTaintRegs64 else kTaintRegs).foldl taintRegister we
  { we with emu := we.emu.setProgramCounter funcva }

/-- A new emulator over the maps of an image. -/
def overMaps (is64bit : Bool) (maps : List ImageMap) : WorkspaceEmulator where
  emu :=
    { regs := { is64bit, masked := fun _ => UInt64.zero_and }
      mem := maps.foldl (fun mem map => mem.addMap map.base map.perms map.bytes) {} }

/-- Whether an address can be executed. -/
def executable (we : WorkspaceEmulator) (va : UInt64) : Bool := we.emu.mem.probe va 1 kMemExec

end WorkspaceEmulator

open WorkspaceEmulator

/-! ### The monitors -/

/-- `is_bad_op_bytes`. -/
def isBadOpBytes : List UInt8 → Bool
  | b0 :: b1 :: _ => (b0 == 0x00 && b1 == 0x00) || (b0 == 0xFF && b1 == 0xFF)
  | _ => false

/-- The bytes of an instruction that was decoded at an address. -/
def rawBytes (we : WorkspaceEmulator) (insn : DecodedInsn) (eip : UInt64) : List UInt8 :=
  (we.emu.mem.readCode eip kMaxInsnBytes).take insn.length.toNat

/-- `ratio_at_least`: whether a share, rounded to thousandths, is at least a number of them. The
source divides doubles, and over the numbers of instructions of a run none of them is rounded across
the threshold. -/
def ratioAtLeast (count total thousandths : ℕ) : Bool :=
  total ≠ 0 && (2 * thousandths - 1) * total ≤ 2000 * count

/-- The state of the watcher. -/
structure Watcher where
  hasret : Bool := false
  badcode : Bool := false
  insnCount : ℕ := 0
  mndist : List (Mnemonic × ℕ) := []

/-- The exit of a process. -/
def isExit (we : WorkspaceEmulator) (insn : DecodedInsn) : Bool :=
  insn.mnem == .int && we.emu.regs.get kRegEax == 1

/-- Whether the watcher gives an instruction up before it counts it. -/
def isGivenUp (we : WorkspaceEmulator) (insn : DecodedInsn) (eip : UInt64) : Bool :=
  insn.mnem == .out || (!isExit we insn && isBadOpBytes (rawBytes we insn eip))

/-- Count an instruction. -/
def Watcher.count (w : Watcher) (insn : DecodedInsn) : Watcher :=
  { w with
    hasret := w.hasret || insn.isReturn
    insnCount := w.insnCount + 1
    mndist := AssocList.upsert insn.mnem 0 (· + 1) w.mndist }

/-- `Watcher`. -/
def watcher : Monitor Watcher where
  prehook w we insn eip :=
    if isGivenUp we insn eip then (w, true)
    else (w.count insn, isExit we insn || insn.isReturn)
  logAnomaly w _ _ := ({ w with badcode := true }, true)

/-- `looks_good`. -/
def Watcher.looksGood (w : Watcher) : Bool :=
  w.hasret && !w.badcode &&
    (w.insnCount ≤ 4 || w.mndist.all fun e => !ratioAtLeast e.2 w.insnCount 670)

/-- `AnalysisMonitor`: the targets of the calls of a function. -/
def analysisMonitor (funcva : UInt64) : Monitor (List UInt64) where
  apicall seeds we op pc :=
    (if pc = funcva ∨ pc = op.va + op.length ∨ ¬we.executable pc ∨ pc ∈ seeds then seeds
      else pc :: seeds, false)

/-- `RegAtTarget`: the value of a register where an address is first reached. -/
def regAtTarget (target : UInt64) (reg : ZydisRegister) : Monitor (Option UInt64) where
  prehook value we _ eip :=
    if value.isNone ∧ eip = target then (some (we.emu.registerValue reg), true) else (value, false)

/-! ### The emulations -/

section Emulate

variable (host : Host) (is64bit : Bool) (maps : List ImageMap)

/-- `validate_candidate`. -/
def validateCandidate (va : UInt64) (fuel : ℕ) : Option Bool :=
  let we := overMaps is64bit maps
  if ¬we.executable va then some false
  else (observe host watcher 1 (we.prepare va) {} va fuel).map Watcher.looksGood

/-- `discover_call_targets`. -/
def discoverCallTargets (va : UInt64) (fuel : ℕ) : Option (List UInt64) :=
  let we := overMaps is64bit maps
  if ¬we.executable va then some []
  else (observe host (analysisMonitor va) 1 (we.prepare va) [] va fuel).map Viv.sortUnique

/-- `emulate_to_read_register`. -/
def emulateToReadRegister (funcva target : UInt64) (reg : ZydisRegister) (fuel : ℕ) :
    Option (Option UInt64) :=
  let we := overMaps is64bit maps
  if ¬we.executable funcva then some none
  else observe host (regAtTarget target reg) 1 (we.prepare funcva) none funcva fuel

end Emulate

/-! ### What is copied of an image -/

/-- The map of a section that can be read. -/
def CopyOf (img : PeImage) (s : ParsedSection) (map : ImageMap) : Prop :=
  s.rawSize ≠ 0 ∧ ∃ raw, img.bytesAtRva s.virtualAddress.toNat s.rawSize.toNat = some raw ∧
    map = mapOfSection img s raw

theorem length_bytesAtRva_le {img : PeImage} {rva n : ℕ} {bytes : List UInt8}
    (h : img.bytesAtRva rva n = some bytes) : bytes.length ≤ n := by
  rw [PeImage.bytesAtRva_eq_some h, PeImage.length_longestAtRva]
  exact Nat.min_le_left _ _

theorem exists_of_mem_buildLoop {img : PeImage} {sections : List ParsedSection} {budget : ℕ}
    {map : ImageMap} (h : map ∈ buildLoop img budget sections) :
    ∃ s ∈ sections, CopyOf img s map := by
  induction sections generalizing budget with
  | nil => exact absurd h List.not_mem_nil
  | cons s rest ih =>
    rw [List.exists_mem_cons_iff]
    rw [buildLoop] at h
    split_ifs at h with hzero hlarge
    · exact .inr (ih h)
    · exact absurd h List.not_mem_nil
    · cases hraw : img.bytesAtRva s.virtualAddress.toNat s.rawSize.toNat with
      | none =>
        rw [hraw] at h
        exact .inr (ih h)
      | some raw =>
        rw [hraw] at h
        rcases List.mem_cons.mp h with rfl | h
        · exact .inl ⟨hzero, raw, hraw, rfl⟩
        · exact .inr (ih h)

theorem sum_buildLoop_le (img : PeImage) (sections : List ParsedSection) (budget : ℕ) :
    ((buildLoop img budget sections).map (·.bytes.length)).sum ≤ budget := by
  induction sections generalizing budget with
  | nil => exact Nat.zero_le _
  | cons s rest ih =>
    rw [buildLoop]
    split_ifs with hzero hlarge
    · exact ih budget
    · exact Nat.zero_le _
    · cases hraw : img.bytesAtRva s.virtualAddress.toNat s.rawSize.toNat with
      | none => exact ih budget
      | some raw =>
        have hlength := length_bytesAtRva_le hraw
        have hrest := ih (budget - raw.length)
        dsimp only
        rw [List.map_cons, List.sum_cons]
        show raw.length + _ ≤ _
        omega

theorem mem_buildLoop_of_sum_le {img : PeImage} {sections : List ParsedSection} {budget : ℕ}
    (hsum : (sections.map (·.rawSize.toNat)).sum ≤ budget) {s : ParsedSection} (hs : s ∈ sections)
    {map : ImageMap} (h : CopyOf img s map) : map ∈ buildLoop img budget sections := by
  induction sections generalizing budget with
  | nil => exact absurd hs List.not_mem_nil
  | cons t rest ih =>
    rw [List.map_cons, List.sum_cons] at hsum
    rw [buildLoop]
    split_ifs with hzero hlarge
    · rcases List.mem_cons.mp hs with rfl | hs
      · exact absurd hzero h.1
      · exact ih (by omega) hs
    · omega
    · cases hraw : img.bytesAtRva t.virtualAddress.toNat t.rawSize.toNat with
      | none =>
        rcases List.mem_cons.mp hs with rfl | hs
        · obtain ⟨-, raw, hsome, -⟩ := h
          exact absurd (hraw.symm.trans hsome) (Option.some_ne_none raw).symm
        · exact ih (by omega) hs
      | some raw =>
        have hlength := length_bytesAtRva_le hraw
        rcases List.mem_cons.mp hs with rfl | hs
        · obtain ⟨-, raw', hsome, rfl⟩ := h
          obtain rfl := Option.some.inj (hraw.symm.trans hsome)
          exact List.mem_cons_self
        · exact List.mem_cons_of_mem _ (ih (by omega) hs)

/-- **What is copied of an image**: sections that can be read, within the budget, and all of them if
their sizes are within it. -/
theorem buildImageMaps_spec (img : PeImage) :
    (∀ map ∈ buildImageMaps img, ∃ s ∈ img.sections, CopyOf img s map) ∧
      ((buildImageMaps img).map (·.bytes.length)).sum ≤ kMaxEmuImageBytes ∧
      ((img.sections.map (·.rawSize.toNat)).sum ≤ kMaxEmuImageBytes →
        ∀ s ∈ img.sections, ∀ map, CopyOf img s map → map ∈ buildImageMaps img) :=
  ⟨fun _ => exists_of_mem_buildLoop, sum_buildLoop_le img _ _,
    fun hsum _ hs _ => mem_buildLoop_of_sum_le hsum hs⟩

/-! ### What the watcher makes of a run -/

/-- The watcher goes on after an event. -/
def Passes : Event → Prop
  | .prehook we insn eip =>
    isGivenUp we insn eip = false ∧ isExit we insn = false ∧ insn.isReturn = false
  | .logAnomaly _ _ => False
  | .posthook _ _ _ | .apicall _ _ _ => True

/-- Of more than four instructions one mnemonic makes up a share that is at least 0.67 when rounded
to thousandths: a share of 0.6695 or more. Exactly two thirds are less. -/
def Monotonous (insns : List DecodedInsn) : Prop :=
  4 < insns.length ∧ ∃ m, 1339 * insns.length ≤ 2000 * (insns.map (·.mnem)).count m

/-- A run comes to a return that is not given up, with nothing before it that the watcher stops at,
and its instructions vary. -/
def Accepted (events : List Event) : Prop :=
  ∃ before we insn eip after, events = before ++ .prehook we insn eip :: after ∧
    (∀ e ∈ before, Passes e) ∧ isGivenUp we insn eip = false ∧ insn.isReturn = true ∧
    ¬Monotonous (visited before ++ [insn])

/-- The watcher after some instructions that it has counted. -/
def Watcher.ofInsns (insns : List DecodedInsn) : Watcher := insns.foldl Watcher.count {}

namespace Watcher

variable {insns : List DecodedInsn}

theorem ofInsns_concat (insns : List DecodedInsn) (insn : DecodedInsn) :
    ofInsns (insns ++ [insn]) = (ofInsns insns).count insn := List.foldl_concat ..

theorem hasret_ofInsns : (ofInsns insns).hasret = insns.any (·.isReturn) := by
  induction insns using List.reverseRecOn with
  | nil => rfl
  | append_singleton insns insn ih =>
    rw [ofInsns_concat, List.any_append, ← ih]
    simp [count]

theorem badcode_ofInsns : (ofInsns insns).badcode = false := by
  induction insns using List.reverseRecOn with
  | nil => rfl
  | append_singleton insns insn ih =>
    rw [ofInsns_concat]
    exact ih

theorem insnCount_ofInsns : (ofInsns insns).insnCount = insns.length := by
  induction insns using List.reverseRecOn with
  | nil => rfl
  | append_singleton insns insn ih =>
    rw [ofInsns_concat, List.length_append, ← ih]
    rfl

theorem nodup_mndist_ofInsns : ((ofInsns insns).mndist.map Prod.fst).Nodup := by
  induction insns using List.reverseRecOn with
  | nil => exact List.nodup_nil
  | append_singleton insns insn ih =>
    rw [ofInsns_concat]
    exact AssocList.nodup_keys_upsert _ _ _ ih

theorem getD_mndist_ofInsns (m : Mnemonic) :
    (AssocList.get? m (ofInsns insns).mndist).getD 0 = (insns.map (·.mnem)).count m := by
  induction insns using List.reverseRecOn with
  | nil => rfl
  | append_singleton insns insn ih =>
    rw [ofInsns_concat, count, AssocList.get?_upsert, List.map_append, List.count_append]
    rw [List.map_singleton, List.count_singleton]
    split_ifs with hm
    · rw [Option.getD_some, eq_of_beq hm, ih]
    · rw [ih, Nat.add_zero]

/-- The counter of a mnemonic, if it has one. -/
theorem eq_count_of_mem_mndist {e : Mnemonic × ℕ} (h : e ∈ (ofInsns insns).mndist) :
    e.2 = (insns.map (·.mnem)).count e.1 := by
  rw [← getD_mndist_ofInsns, AssocList.get?_of_mem nodup_mndist_ofInsns h]
  rfl

theorem exists_mem_mndist {m : Mnemonic} (h : (insns.map (·.mnem)).count m ≠ 0) :
    (m, (insns.map (·.mnem)).count m) ∈ (ofInsns insns).mndist := by
  rw [← getD_mndist_ofInsns] at h ⊢
  cases hget : AssocList.get? m (ofInsns insns).mndist with
  | none => exact absurd (by rw [hget]; rfl) h
  | some n => exact AssocList.mem_of_get?_eq_some hget

theorem ratioAtLeast_zero (total : ℕ) : ratioAtLeast 0 total 670 = false := by
  rw [ratioAtLeast, Bool.and_eq_false_imp, decide_eq_true_iff, decide_eq_false_iff_not]
  omega

theorem monotonous_iff : Monotonous insns ↔ 4 < insns.length ∧
    ∃ m, ratioAtLeast ((insns.map (·.mnem)).count m) insns.length 670 = true := by
  refine and_congr_right fun hlt => exists_congr fun m => ?_
  rw [ratioAtLeast, Bool.and_eq_true, decide_eq_true_iff, decide_eq_true_iff]
  omega

theorem looksGood_ofInsns_iff : (ofInsns insns).looksGood = true ↔
    insns.any (·.isReturn) = true ∧ ¬Monotonous insns := by
  have hratio : ((ofInsns insns).mndist.all fun e => !ratioAtLeast e.2 insns.length 670) = true ↔
      ∀ m, ratioAtLeast ((insns.map (·.mnem)).count m) insns.length 670 = false := by
    rw [List.all_eq_true]
    constructor
    · intro h m
      by_cases hzero : (insns.map (·.mnem)).count m = 0
      · rw [hzero]
        exact ratioAtLeast_zero _
      · exact Bool.not_eq_true' _ ▸ h _ (exists_mem_mndist hzero)
    · intro h e he
      rw [eq_count_of_mem_mndist he, h]
      rfl
  rw [looksGood, hasret_ofInsns, badcode_ofInsns, insnCount_ofInsns, monotonous_iff, not_and,
    not_exists, Bool.not_false, Bool.and_true, Bool.and_eq_true, Bool.or_eq_true,
    decide_eq_true_iff, hratio]
  simp only [Bool.not_eq_true]
  refine and_congr_right fun _ => ⟨fun h hlt => h.resolve_left (Nat.not_le.mpr hlt), fun h => ?_⟩
  rcases Nat.lt_or_ge 4 insns.length with hlt | hle
  · exact .inr (h hlt)
  · exact .inl hle

end Watcher

/-- The watcher counts what it goes on after. -/
theorem watch_of_passes {events : List Event} (h : ∀ e ∈ events, Passes e)
    (insns : List DecodedInsn) :
    watcher.watch (.ofInsns insns) events = (.ofInsns (insns ++ visited events), false) := by
  induction events generalizing insns with
  | nil => rw [visited, List.filterMap_nil, List.append_nil, Monitor.watch]
  | cons event events ih =>
    obtain ⟨hevent, hevents⟩ := List.forall_mem_cons.mp h
    rw [Monitor.watch]
    cases event with
    | prehook we insn eip =>
      obtain ⟨hgiven, hexit, hreturn⟩ := hevent
      have hreact : watcher.react (.ofInsns insns) (.prehook we insn eip) =
          (.ofInsns (insns ++ [insn]), false) := by
        rw [Monitor.react, watcher]
        dsimp only
        rw [hgiven, hexit, hreturn, Watcher.ofInsns_concat]
        rfl
      rw [hreact]
      refine (ih hevents (insns ++ [insn])).trans ?_
      rw [visited, visited, List.filterMap_cons, List.append_assoc]
      rfl
    | posthook we insn eip => exact ih hevents insns
    | logAnomaly we eip => exact absurd hevent id
    | apicall we op pc => exact ih hevents insns

/-- Events up to the first that the watcher stops at. -/
theorem exists_stop {events : List Event} (h : ¬∀ e ∈ events, Passes e) :
    ∃ before event after, events = before ++ event :: after ∧ (∀ e ∈ before, Passes e) ∧
      ¬Passes event := by
  induction events with
  | nil => exact absurd (fun e he => absurd he List.not_mem_nil) h
  | cons event events ih =>
    by_cases hevent : Passes event
    · obtain ⟨before, stop, after, rfl, hbefore, hstop⟩ :=
        ih fun hall => h (List.forall_mem_cons.mpr ⟨hevent, hall⟩)
      exact ⟨event :: before, stop, after, rfl, List.forall_mem_cons.mpr ⟨hevent, hbefore⟩, hstop⟩
    · exact ⟨[], event, events, rfl, fun e he => absurd he List.not_mem_nil, hevent⟩

theorem snd_react_of_not_passes {w : Watcher} {event : Event} (h : ¬Passes event) :
    (watcher.react w event).2 = true := by
  cases event with
  | prehook we insn eip =>
    show (if isGivenUp we insn eip then (w, true)
      else (w.count insn, isExit we insn || insn.isReturn)).2 = true
    split_ifs with hgiven
    · rfl
    · show (isExit we insn || insn.isReturn) = true
      rw [Bool.or_eq_true]
      by_contra hnone
      rw [not_or, Bool.not_eq_true, Bool.not_eq_true] at hnone
      exact h ⟨(Bool.not_eq_true _).mp hgiven, hnone.1, hnone.2⟩
  | logAnomaly we eip => rfl
  | posthook we insn eip => exact absurd trivial h
  | apicall we op pc => exact absurd trivial h

/-- What the watcher has made of events that it stops at. -/
theorem watch_of_not_passes {before after : List Event} {event : Event}
    (hbefore : ∀ e ∈ before, Passes e) (hstop : ¬Passes event) :
    watcher.watch {} (before ++ event :: after) =
      watcher.react (.ofInsns (visited before)) event := by
  have hwatch : watcher.watch {} before = (.ofInsns (visited before), false) :=
    watch_of_passes hbefore []
  rw [Monitor.watch_append_of_running hwatch, Monitor.watch,
    if_pos (snd_react_of_not_passes hstop)]

theorem any_isReturn_of_passes {events : List Event} (h : ∀ e ∈ events, Passes e) :
    (visited events).any (·.isReturn) = false := by
  rw [List.any_eq_false]
  intro insn hinsn
  obtain ⟨event, hevent, heq⟩ := List.mem_filterMap.mp hinsn
  cases event with
  | prehook we insn' eip =>
    obtain rfl := Option.some.inj heq
    exact (Bool.not_eq_true _).mpr (h _ hevent).2.2
  | posthook we insn' eip => exact absurd heq (Option.some_ne_none insn).symm
  | logAnomaly we eip => exact absurd heq (Option.some_ne_none insn).symm
  | apicall we op pc => exact absurd heq (Option.some_ne_none insn).symm

/-- What the watcher makes of an instruction that it counts. -/
theorem react_of_counted {before : List Event} {we : WorkspaceEmulator} {insn : DecodedInsn}
    {eip : UInt64} (h : isGivenUp we insn eip = false) :
    (watcher.react (.ofInsns (visited before)) (.prehook we insn eip)).1 =
      .ofInsns (visited before ++ [insn]) := by
  show (if isGivenUp we insn eip then _ else _ : Watcher × Bool).1 = _
  rw [if_neg ((Bool.not_eq_true _).mpr h), Watcher.ofInsns_concat]

/-- **What looks good** is a run that is accepted. -/
theorem looksGood_watch_iff {events : List Event} :
    (watcher.watch {} events).1.looksGood = true ↔ Accepted events := by
  constructor
  · intro hgood
    by_cases hall : ∀ e ∈ events, Passes e
    · have hwatch : watcher.watch {} events = (.ofInsns (visited events), false) :=
        watch_of_passes hall []
      rw [hwatch, Watcher.looksGood_ofInsns_iff, any_isReturn_of_passes hall] at hgood
      exact absurd hgood.1 Bool.false_ne_true
    · obtain ⟨before, event, after, rfl, hbefore, hstop⟩ := exists_stop hall
      rw [watch_of_not_passes hbefore hstop] at hgood
      cases event with
      | prehook we insn eip =>
        by_cases hgiven : isGivenUp we insn eip = true
        · have hreact : (watcher.react (.ofInsns (visited before)) (.prehook we insn eip)).1 =
              .ofInsns (visited before) := by
            show (if isGivenUp we insn eip then _ else _ : Watcher × Bool).1 = _
            rw [if_pos hgiven]
          rw [hreact, Watcher.looksGood_ofInsns_iff, any_isReturn_of_passes hbefore] at hgood
          exact absurd hgood.1 Bool.false_ne_true
        · rw [Bool.not_eq_true] at hgiven
          rw [react_of_counted hgiven, Watcher.looksGood_ofInsns_iff, List.any_append,
            any_isReturn_of_passes hbefore, Bool.false_or, List.any_cons, List.any_nil,
            Bool.or_false] at hgood
          exact ⟨before, we, insn, eip, after, rfl, hbefore, hgiven, hgood⟩
      | logAnomaly we eip =>
        rw [Watcher.looksGood] at hgood
        simp [Monitor.react, watcher] at hgood
      | posthook we insn eip => exact absurd trivial hstop
      | apicall we op pc => exact absurd trivial hstop
  · rintro ⟨before, we, insn, eip, after, rfl, hbefore, hgiven, hreturn, hvaried⟩
    have hstop : ¬Passes (.prehook we insn eip) := fun h =>
      Bool.false_ne_true (h.2.2.symm.trans hreturn)
    rw [watch_of_not_passes hbefore hstop, react_of_counted hgiven, Watcher.looksGood_ofInsns_iff,
      List.any_append, any_isReturn_of_passes hbefore]
    exact ⟨by simp [hreturn], hvaried⟩

/-! ### What the other monitors make of a run -/

/-- A target of a call of a function, which is not the function itself or the instruction after the
call and can be executed. -/
def IsTarget (funcva : UInt64) (events : List Event) (pc : UInt64) : Prop :=
  ∃ we op, .apicall we op pc ∈ events ∧ pc ≠ funcva ∧ pc ≠ op.va + op.length ∧
    we.executable pc = true

/-- What one event adds to the targets. -/
theorem mem_react_analysisMonitor_iff {funcva pc : UInt64} {event : Event} {seeds : List UInt64} :
    pc ∈ ((analysisMonitor funcva).react seeds event).1 ↔
      pc ∈ seeds ∨ IsTarget funcva [event] pc := by
  cases event with
  | apicall we op target =>
    have htarget : IsTarget funcva [.apicall we op target] pc ↔ pc = target ∧ target ≠ funcva ∧
        target ≠ op.va + op.length ∧ we.executable target = true := by
      constructor
      · rintro ⟨we', op', hmem, hne, hnext, hexec⟩
        cases List.mem_singleton.mp hmem
        exact ⟨rfl, hne, hnext, hexec⟩
      · rintro ⟨rfl, hne, hnext, hexec⟩
        exact ⟨we, op, List.mem_cons_self, hne, hnext, hexec⟩
    rw [htarget]
    show pc ∈ (if target = funcva ∨ target = op.va + op.length ∨ ¬we.executable target ∨
      target ∈ seeds then seeds else target :: seeds) ↔ _
    split_ifs with hskip
    · rw [iff_self_or]
      rintro ⟨rfl, hne, hnext, hexec⟩
      exact ((hskip.resolve_left hne).resolve_left hnext).resolve_left (not_not.mpr hexec)
    · rw [not_or, not_or, not_or, not_not] at hskip
      rw [List.mem_cons, or_comm, and_iff_left ⟨hskip.1, hskip.2.1, hskip.2.2.1⟩]
  | prehook we insn eip | posthook we insn eip | logAnomaly we eip =>
    refine (or_iff_left ?_).symm
    rintro ⟨we', op, hmem, -⟩
    cases List.mem_singleton.mp hmem

theorem isTarget_cons_iff {funcva pc : UInt64} (event : Event) (events : List Event) :
    IsTarget funcva (event :: events) pc ↔
      IsTarget funcva [event] pc ∨ IsTarget funcva events pc := by
  unfold IsTarget
  simp only [List.mem_cons, List.not_mem_nil, or_false, or_and_right, exists_or]

theorem mem_watch_analysisMonitor_iff {funcva pc : UInt64} {events : List Event}
    {seeds : List UInt64} : pc ∈ ((analysisMonitor funcva).watch seeds events).1 ↔
      pc ∈ seeds ∨ IsTarget funcva events pc := by
  induction events generalizing seeds with
  | nil =>
    refine (or_iff_left ?_).symm
    rintro ⟨we, op, hmem, -⟩
    exact absurd hmem List.not_mem_nil
  | cons event events ih =>
    have hgoes : ((analysisMonitor funcva).react seeds event).2 = false := by cases event <;> rfl
    rw [Monitor.watch, if_neg ((Bool.not_eq_true _).mpr hgoes), ih, mem_react_analysisMonitor_iff,
      isTarget_cons_iff event events, or_assoc]

/-- A run reaches an address, and what a register holds there. -/
def ReachedWith (target : UInt64) (reg : ZydisRegister) (events : List Event) (v : UInt64) : Prop :=
  ∃ before we insn after, events = before ++ .prehook we insn target :: after ∧
    (∀ we' insn', .prehook we' insn' target ∉ before) ∧ v = we.emu.registerValue reg

theorem watch_regAtTarget_iff {target v : UInt64} {reg : ZydisRegister} {events : List Event} :
    ((regAtTarget target reg).watch none events).1 = some v ↔ ReachedWith target reg events v := by
  induction events with
  | nil =>
    refine iff_of_false (Option.some_ne_none v).symm ?_
    rintro ⟨before, we, insn, after, heq, -⟩
    exact absurd heq (by simp)
  | cons event events ih =>
    -- An event that is not at the target is passed over.
    have hskip (hevent : ∀ we insn, event ≠ .prehook we insn target)
        (hreact : (regAtTarget target reg).react none event = (none, false)) :
        ((regAtTarget target reg).watch none (event :: events)).1 = some v ↔
          ReachedWith target reg (event :: events) v := by
      rw [Monitor.watch, hreact, if_neg Bool.false_ne_true, ih]
      constructor
      · rintro ⟨before, we, insn, after, rfl, hbefore, hv⟩
        refine ⟨event :: before, we, insn, after, rfl, fun we' insn' hmem => ?_, hv⟩
        rcases List.mem_cons.mp hmem with rfl | hmem
        · exact hevent we' insn' rfl
        · exact hbefore we' insn' hmem
      · rintro ⟨before, we, insn, after, heq, hbefore, hv⟩
        cases before with
        | nil => exact absurd (List.cons.inj heq).1 (hevent we insn)
        | cons first before =>
          obtain ⟨-, rfl⟩ := List.cons.inj heq
          exact ⟨before, we, insn, after, rfl,
            fun we' insn' hmem => hbefore we' insn' (List.mem_cons_of_mem _ hmem), hv⟩
    cases event with
    | prehook we insn eip =>
      by_cases heip : eip = target
      · subst heip
        have hreact : (regAtTarget eip reg).react none (.prehook we insn eip) =
            (some (we.emu.registerValue reg), true) := if_pos ⟨rfl, rfl⟩
        rw [Monitor.watch, hreact, if_pos rfl, Option.some.injEq]
        constructor
        · rintro rfl
          exact ⟨[], we, insn, events, rfl, fun _ _ hmem => absurd hmem List.not_mem_nil, rfl⟩
        · rintro ⟨before, we', insn', after, heq, hbefore, rfl⟩
          cases before with
          | nil =>
            obtain ⟨hfirst, -⟩ := List.cons.inj heq
            cases hfirst
            rfl
          | cons first before =>
            obtain ⟨rfl, -⟩ := List.cons.inj heq
            exact absurd List.mem_cons_self (hbefore we insn)
      · refine hskip (fun we' insn' heq => heip ?_) (if_neg fun h => heip h.2)
        cases heq
        rfl
    | posthook we insn eip => exact hskip (fun _ _ heq => by cases heq) rfl
    | logAnomaly we eip => exact hskip (fun _ _ heq => by cases heq) rfl
    | apicall we op pc => exact hskip (fun _ _ heq => by cases heq) rfl

/-! ### The emulations -/

section Emulate

variable (host : Host) (is64bit : Bool) (maps : List ImageMap)

/-- The events of the emulation of a function. -/
def EventsOf (va : UInt64) : List Event → Prop :=
  Events host 1 ((overMaps is64bit maps).prepare va) va

/-- **A candidate** is emulated to the end, whatever its bytes are, and looks like a function
exactly if it can be executed and its run is accepted. -/
theorem validateCandidate_returns (va : UInt64) :
    ∃ events, EventsOf host is64bit maps va events ∧
      Fuelled.Returns (validateCandidate host is64bit maps va) fun good => good = true ↔
        (overMaps is64bit maps).executable va = true ∧ Accepted events := by
  obtain ⟨events, hevents⟩ := exists_events host 1 ((overMaps is64bit maps).prepare va) va
  refine ⟨events, hevents, ?_⟩
  by_cases hexec : (overMaps is64bit maps).executable va = true
  · obtain ⟨w, rfl, fuel₀, hfuel⟩ := hevents.observe watcher {}
    refine ⟨(watcher.watch {} events).1.looksGood, ?_, fuel₀, fun fuel hge => ?_⟩
    · show _ = true ↔ _
      rw [looksGood_watch_iff, and_iff_right hexec]
    · rw [validateCandidate, if_neg (not_not.mpr hexec), hfuel fuel hge]
      rfl
  · refine ⟨false, iff_of_false Bool.false_ne_true fun h => hexec h.1, 0, fun fuel _ => ?_⟩
    rw [validateCandidate, if_pos hexec]

/-- **The targets of the calls** of a function, in order: those that the calls it is emulated
through go to. -/
theorem discoverCallTargets_returns (va : UInt64) :
    ∃ events, EventsOf host is64bit maps va events ∧
      Fuelled.Returns (discoverCallTargets host is64bit maps va) fun targets =>
        targets.Pairwise (· < ·) ∧ ∀ pc, pc ∈ targets ↔
          (overMaps is64bit maps).executable va = true ∧ IsTarget va events pc := by
  obtain ⟨events, hevents⟩ := exists_events host 1 ((overMaps is64bit maps).prepare va) va
  refine ⟨events, hevents, ?_⟩
  by_cases hexec : (overMaps is64bit maps).executable va = true
  · obtain ⟨seeds, rfl, fuel₀, hfuel⟩ := hevents.observe (analysisMonitor va) []
    refine ⟨Viv.sortUnique ((analysisMonitor va).watch [] events).1,
      ⟨Viv.pairwise_sortUnique _, fun pc => ?_⟩, fuel₀, fun fuel hge => ?_⟩
    · rw [Viv.mem_sortUnique, mem_watch_analysisMonitor_iff, and_iff_right hexec,
        or_iff_right List.not_mem_nil]
    · rw [discoverCallTargets, if_neg (not_not.mpr hexec), hfuel fuel hge]
      rfl
  · refine ⟨[], ⟨.nil, fun pc => ?_⟩, 0, fun fuel _ => ?_⟩
    · exact iff_of_false List.not_mem_nil fun h => hexec h.1
    · rw [discoverCallTargets, if_pos hexec]

/-- **The value of a register** is the one where the run first reaches the address. -/
theorem emulateToReadRegister_returns (funcva target : UInt64) (reg : ZydisRegister) :
    ∃ events, EventsOf host is64bit maps funcva events ∧
      Fuelled.Returns (emulateToReadRegister host is64bit maps funcva target reg) fun value =>
        ∀ v, value = some v ↔
          (overMaps is64bit maps).executable funcva = true ∧ ReachedWith target reg events v := by
  obtain ⟨events, hevents⟩ := exists_events host 1 ((overMaps is64bit maps).prepare funcva) funcva
  refine ⟨events, hevents, ?_⟩
  by_cases hexec : (overMaps is64bit maps).executable funcva = true
  · obtain ⟨value, rfl, fuel₀, hfuel⟩ := hevents.observe (regAtTarget target reg) none
    refine ⟨((regAtTarget target reg).watch none events).1, fun v => ?_, fuel₀, fun fuel hge => ?_⟩
    · rw [watch_regAtTarget_iff, and_iff_right hexec]
    · rw [emulateToReadRegister, if_neg (not_not.mpr hexec), hfuel fuel hge]
  · refine ⟨none, fun v => ?_, 0, fun fuel _ => ?_⟩
    · exact iff_of_false (Option.some_ne_none v).symm fun h => hexec h.1
    · rw [emulateToReadRegister, if_pos hexec]

end Emulate

end Papa.Emu
