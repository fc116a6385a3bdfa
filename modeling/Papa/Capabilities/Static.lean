import Papa.Capabilities.Limitation
import Papa.Library.SharedCounter

/-!
# Static capabilities

The passes of a static analysis. Every instruction is matched on its own features; the set it ends
with flows into its basic block, and the set of each block into its function. The functions are
analysed by any number of workers, one slot per function, and the slots are reduced in the order of
the functions. The file scope is matched last, on the file features and the names of everything that
matched below.

## Main definitions

* `Papa.Capabilities.findInstructionCapabilities`, `Papa.Capabilities.findBasicBlockCapabilities`,
  `Papa.Capabilities.findCodeCapabilities`: the passes below file scope.
* `Papa.Capabilities.resolveWorkerCount`.
* `Papa.Capabilities.findStaticCapabilities`: the whole analysis, for a given run of the workers.
* `Papa.Capabilities.Runs`, `Papa.Capabilities.runAlone`: the runs of the workers.

## Main results

* `Papa.Capabilities.resolveWorkerCount_pos`.
* `Papa.Capabilities.workers_interleave`.
-/

namespace Papa.Capabilities

open Features Features.Extractors Engine Rules

/-- The outcome of an instruction: its set after injection and its matches. -/
structure InstructionCapabilities where
  features : FeatureSet
  results : MatchResults

/-- The outcome of a basic block, with the matches of its instructions. -/
structure BasicBlockCapabilities where
  features : FeatureSet
  results : MatchResults
  insnResults : MatchResults

/-- The outcome of a function over all its blocks and instructions. -/
structure CodeCapabilities where
  functionResults : MatchResults := []
  bbResults : MatchResults := []
  insnResults : MatchResults := []
  featureCount : ℕ := 0

/-- The analysis of one function, held until the reduction. -/
structure FunctionSlot where
  caps : CodeCapabilities := {}
  library : Bool := false

/-- The extracted feature count of a function. -/
structure FunctionFeatureCount where
  address : Address
  count : ℕ := 0

/-- The outcome of a static analysis. -/
structure StaticCapabilities where
  allMatches : MatchResults := []
  featureCount : ℕ := 0
  libraryFunctions : List Address := []
  perFunctionFeatureCounts : List FunctionFeatureCount := []

/-- Append every entry of `src` to `dst`. -/
def mergeInto (dst src : MatchResults) : MatchResults :=
  src.foldl (fun dst e => AssocList.upsert e.1 [] (· ++ e.2) dst) dst

/-- Inject `MatchedRule` features for every rule at every recorded address. -/
def injectMatchFeatures (fs : FeatureSet) (rs : RuleSet) (results : MatchResults) : FeatureSet :=
  results.foldl
    (fun fs e =>
      match rs.find e.1 with
      | none => fs
      | some rule => indexRuleMatches fs rule (e.2.map Prod.fst)) fs

section Passes

variable {φ β ι : Type} (E : RegexEngine) (rs : RuleSet) (extractor : StaticFeatureExtractor φ β ι)

/-- Match one instruction. -/
def findInstructionCapabilities (fh : FunctionHandle φ) (bbh : BBHandle β) (ih : InsnHandle ι)
    (globals : List FeatureWithAddress) : Throws InstructionCapabilities := do
  let features ← extractor.extractInsnFeatures fh bbh ih
  let fs := (FeatureSet.empty.addAll features).addAll globals
  let (mergedFs, results) ← rs.match_ E .instruction fs ih.addr
  return { features := mergedFs, results := results }

/-- The loop over the instructions of a block: the merged sets and the merged matches. -/
def findInstructions (fh : FunctionHandle φ) (bbh : BBHandle β)
    (globals : List FeatureWithAddress) :
    List (InsnHandle ι) → FeatureSet → MatchResults → Throws (FeatureSet × MatchResults)
  | [], fs, acc => .ok (fs, acc)
  | ih :: ihs, fs, acc => do
    let insnCaps ← findInstructionCapabilities E rs extractor fh bbh ih globals
    findInstructions fh bbh globals ihs (fs.mergeIn insnCaps.features)
      (mergeInto acc insnCaps.results)

/-- Match one basic block after its instructions. -/
def findBasicBlockCapabilities (fh : FunctionHandle φ) (bbh : BBHandle β)
    (globals : List FeatureWithAddress) : Throws BasicBlockCapabilities := do
  let ihs ← extractor.getInstructions fh bbh
  let (bbFs, insnAcc) ← findInstructions E rs extractor fh bbh globals ihs .empty []
  let features ← extractor.extractBasicBlockFeatures fh bbh
  let fs := (bbFs.addAll features).addAll globals
  let (mergedFs, results) ← rs.match_ E .basicBlock fs bbh.addr
  return { features := mergedFs, results := results, insnResults := insnAcc }

/-- The loop over the blocks of a function. -/
def findBasicBlocks (fh : FunctionHandle φ) (globals : List FeatureWithAddress) :
    List (BBHandle β) → FeatureSet → (bbAcc insnAcc : MatchResults) →
    Throws (FeatureSet × MatchResults × MatchResults)
  | [], fs, bbAcc, insnAcc => .ok (fs, bbAcc, insnAcc)
  | bbh :: bbhs, fs, bbAcc, insnAcc => do
    let bbCaps ← findBasicBlockCapabilities E rs extractor fh bbh globals
    findBasicBlocks fh globals bbhs (fs.mergeIn bbCaps.features)
      (mergeInto bbAcc bbCaps.results) (mergeInto insnAcc bbCaps.insnResults)

/-- Match one function after its blocks. -/
def findCodeCapabilities (fh : FunctionHandle φ) (globals : List FeatureWithAddress) :
    Throws CodeCapabilities := do
  let bbhs ← extractor.getBasicBlocks fh
  let (fnFs, bbAcc, insnAcc) ← findBasicBlocks E rs extractor fh globals bbhs .empty [] []
  let features ← extractor.extractFunctionFeatures fh
  let fs := (fnFs.addAll features).addAll globals
  let (mergedFs, results) ← rs.match_ E .function fs fh.addr
  return {
    functionResults := results, bbResults := bbAcc, insnResults := insnAcc
    featureCount := mergedFs.size }

/-- The body the workers run on an index: library functions are skipped entirely. -/
def analyzeOne (fhs : List (FunctionHandle φ)) (globals : List FeatureWithAddress) (i : ℕ) :
    Throws FunctionSlot :=
  match fhs[i]? with
  | none => .ok {}
  | some fh => do
    if ← extractor.isLibraryFunction fh.addr then return { library := true }
    else return { caps := ← findCodeCapabilities E rs extractor fh globals }

end Passes

/-! ### The workers -/

/-- Smallest number of functions worth handing to one worker. -/
def kMinFunctionsPerWorker : ℕ := 24

/-- Clamp a requested worker count to the work on hand; a requested count of zero means decide
automatically. The quotient is truncated to 32 bits. -/
def resolveWorkerCount (hardwareConcurrency requested : UInt32) (work : ℕ) : UInt32 :=
  if requested = 1 ∨ work ≤ kMinFunctionsPerWorker then 1
  else
    let want := if requested = 0 then (if hardwareConcurrency = 0 then 1 else hardwareConcurrency)
      else requested
    let byWork := UInt32.ofNat (work / kMinFunctionsPerWorker)
    let want := if byWork < want then byWork else want
    if want = 0 then 1 else want

/-- There is always a worker. -/
theorem resolveWorkerCount_pos (hardwareConcurrency requested : UInt32) (work : ℕ) :
    0 < (resolveWorkerCount hardwareConcurrency requested work).toNat := by
  have hpos {x : UInt32} (hx : x ≠ 0) : 0 < x.toNat :=
    Nat.pos_of_ne_zero fun h => hx (UInt32.toNat_inj.mp h)
  have hclamp (want : UInt32) : 0 < (if want = 0 then 1 else want).toNat := by
    split_ifs with h
    · exact Nat.one_pos
    · exact hpos h
  rw [resolveWorkerCount]
  split
  · exact Nat.one_pos
  · exact hclamp _

/-- What a run of the workers leaves: the slots of the functions, and the first error. -/
abbrev RunOutcome := (ℕ → FunctionSlot) × Option Thrown

/-- A run of `run_indexed` with the given number of workers: some interleaving of their steps until
all have stopped, with the indices in the order they were run. -/
def Runs (workers n : ℕ) (body : ℕ → Throws FunctionSlot) (ran : List ℕ) (o : RunOutcome) : Prop :=
  ∃ s : SharedCounter.State (Fin workers) FunctionSlot Thrown,
    SharedCounter.Finished n body {} s ∧ s.ran = ran ∧ (s.slots, s.error) = o

/-- The run of a single worker. -/
def runAlone (n : ℕ) (body : ℕ → Throws FunctionSlot) : RunOutcome :=
  SharedCounter.runAlone n body {}

/-! ### The reduction -/

/-- What the reduction has merged so far. -/
structure Reduction where
  caps : StaticCapabilities := {}
  fnMatches : MatchResults := []
  bbMatches : MatchResults := []
  insnMatches : MatchResults := []

/-- Merge the slot of one function. -/
def reduceOne {φ : Type} (acc : Reduction) (fh : FunctionHandle φ) (slot : FunctionSlot) :
    Reduction :=
  if slot.library then
    { acc with caps := { acc.caps with
        libraryFunctions := acc.caps.libraryFunctions ++ [fh.addr]
        perFunctionFeatureCounts := acc.caps.perFunctionFeatureCounts ++ [⟨fh.addr, 0⟩] } }
  else
    { caps := { acc.caps with
        perFunctionFeatureCounts :=
          acc.caps.perFunctionFeatureCounts ++ [⟨fh.addr, slot.caps.featureCount⟩] }
      fnMatches := mergeInto acc.fnMatches slot.caps.functionResults
      bbMatches := mergeInto acc.bbMatches slot.caps.bbResults
      insnMatches := mergeInto acc.insnMatches slot.caps.insnResults }

/-- Merge the slots in the order of the functions, from index `i` on. -/
def reduceSlots {φ : Type} (slots : ℕ → FunctionSlot) :
    List (FunctionHandle φ) → (i : ℕ) → Reduction → Reduction
  | [], _, acc => acc
  | fh :: fhs, i, acc => reduceSlots slots fhs (i + 1) (reduceOne acc fh (slots i))

/-- The whole analysis, `run` being the run of the workers on the functions. -/
def findStaticCapabilities {φ β ι : Type} (E : RegexEngine) (rs : RuleSet)
    (extractor : StaticFeatureExtractor φ β ι)
    (cachedFileFeatures : Option (List FeatureWithAddress))
    (run : (n : ℕ) → (body : ℕ → Throws FunctionSlot) → RunOutcome) :
    Throws StaticCapabilities := do
  let globals ← extractor.extractGlobalFeatures
  let fhs ← extractor.getFunctions
  let (slots, error) := run fhs.length (analyzeOne E rs extractor fhs globals)
  match error with
  | some err => throw err
  | none =>
    let red := reduceSlots slots fhs 0 {}
    let fileFs ← fileScopeFeatureSet extractor cachedFileFeatures globals
    let fileFs := injectMatchFeatures fileFs rs red.fnMatches
    let fileFs := injectMatchFeatures fileFs rs red.bbMatches
    let fileFs := injectMatchFeatures fileFs rs red.insnMatches
    let base ← extractor.getBaseAddress
    let (mergedFileFs, fileMatches) ← rs.match_ E .file fileFs base
    let all := mergeInto red.caps.allMatches fileMatches
    let all := mergeInto all red.fnMatches
    let all := mergeInto all red.bbMatches
    let all := mergeInto all red.insnMatches
    return { red.caps with featureCount := mergedFileFs.size, allMatches := all }

/-! ### All runs of the workers agree -/

section Interleaving

variable {φ β ι : Type} {n : ℕ} {body : ℕ → Throws FunctionSlot}

/-- The run of a single worker fills the slots like any other run, as far as they matter. -/
private theorem aloneFrom_of_ok {slots : ℕ → FunctionSlot} {fuel i : ℕ} {acc : ℕ → FunctionSlot}
    (hbody : ∀ j, i ≤ j → j < i + fuel → body j = .ok (slots j))
    (hacc : ∀ j < i, acc j = slots j) :
    ∃ t, SharedCounter.aloneFrom body fuel i acc = (t, none) ∧ ∀ j < i + fuel, t j = slots j := by
  induction fuel generalizing i acc with
  | zero => exact ⟨acc, rfl, hacc⟩
  | succ fuel ih =>
    rw [SharedCounter.aloneFrom, hbody i le_rfl (by omega)]
    have hbody' : ∀ j, i + 1 ≤ j → j < i + 1 + fuel → body j = .ok (slots j) :=
      fun j hle hlt => hbody j (by omega) (by omega)
    have hacc' : ∀ j < i + 1, Function.update acc i (slots i) j = slots j := by
      intro j hj
      by_cases hji : j = i
      · rw [hji, Function.update_self]
      · rw [Function.update_of_ne hji, hacc j (by omega)]
    obtain ⟨t, ht, heq⟩ := ih hbody' hacc'
    exact ⟨t, ht, fun j hj => heq j (by omega)⟩

private theorem aloneFrom_error {fuel i : ℕ} {acc : ℕ → FunctionSlot}
    (hfail : ∃ j, i ≤ j ∧ j < i + fuel ∧ ∃ e, body j = .error e) :
    (SharedCounter.aloneFrom body fuel i acc).2 ≠ none := by
  induction fuel generalizing i acc with
  | zero =>
    obtain ⟨j, hle, hlt, -⟩ := hfail
    omega
  | succ fuel ih =>
    rw [SharedCounter.aloneFrom]
    cases hb : body i with
    | error e => exact Option.some_ne_none _
    | ok v =>
      refine ih ?_
      obtain ⟨j, hle, hlt, e, he⟩ := hfail
      have hne : j ≠ i := by
        rintro rfl
        cases hb.symm.trans he
      exact ⟨j, by omega, by omega, e, he⟩

private theorem reduceSlots_congr {slots slots' : ℕ → FunctionSlot}
    {fhs : List (FunctionHandle φ)} {i : ℕ} (h : ∀ j < i + fhs.length, slots j = slots' j)
    (acc : Reduction) : reduceSlots slots fhs i acc = reduceSlots slots' fhs i acc := by
  induction fhs generalizing i acc with
  | nil => rfl
  | cons fh fhs ih =>
    rw [List.length_cons] at h
    rw [reduceSlots, reduceSlots, h i (by omega), ih fun j hj => h j (by omega)]

end Interleaving

/-- **Every interleaving of the workers gives one result.** Whatever number of workers the request
resolves to, a run that ends without an exception ran every index exactly once and filled each slot
from its own index, and the analysis is that of a single worker; a run on which some body throws
ends with an exception, and so does the run of a single worker. -/
theorem workers_interleave {φ β ι : Type} (E : RegexEngine) (rs : RuleSet)
    (extractor : StaticFeatureExtractor φ β ι)
    (cachedFileFeatures : Option (List FeatureWithAddress))
    (hardwareConcurrency threads : UInt32)
    (ran : (n : ℕ) → (body : ℕ → Throws FunctionSlot) → List ℕ)
    (run : (n : ℕ) → (body : ℕ → Throws FunctionSlot) → RunOutcome)
    (hrun : ∀ n body,
      Runs (resolveWorkerCount hardwareConcurrency threads n).toNat n body (ran n body)
        (run n body)) :
    (∀ n body, (run n body).2 = none →
      (ran n body).Perm (List.range n) ∧ ∀ i < n, body i = .ok ((run n body).1 i)) ∧
    (∀ n body, (∃ i < n, ∃ t, body i = .error t) → (run n body).2 ≠ none) ∧
    (findStaticCapabilities E rs extractor cachedFileFeatures run =
        findStaticCapabilities E rs extractor cachedFileFeatures runAlone ∨
      ∃ t t', findStaticCapabilities E rs extractor cachedFileFeatures run = .error t ∧
        findStaticCapabilities E rs extractor cachedFileFeatures runAlone = .error t') := by
  have hworker (n : ℕ) :
      Nonempty (Fin (resolveWorkerCount hardwareConcurrency threads n).toNat) :=
    ⟨⟨0, resolveWorkerCount_pos hardwareConcurrency threads n⟩⟩
  have hok : ∀ n body, (run n body).2 = none →
      (ran n body).Perm (List.range n) ∧ ∀ i < n, body i = .ok ((run n body).1 i) := by
    intro n body herr
    obtain ⟨s, hs, hran, hout⟩ := hrun n body
    have hnone : s.error = none := (congrArg Prod.snd hout).trans herr
    refine ⟨hran ▸ hs.ran_perm hnone, fun i hi => ?_⟩
    rw [← hout]
    exact hs.slots_eq hnone hi
  have hthrow : ∀ n body, (∃ i < n, ∃ t, body i = .error t) → (run n body).2 ≠ none := by
    intro n body hfail
    obtain ⟨s, hs, -, hout⟩ := hrun n body
    rw [← hout]
    exact hs.error_ne_none hfail
  refine ⟨hok, hthrow, ?_⟩
  simp only [findStaticCapabilities]
  cases extractor.extractGlobalFeatures with
  | error t => exact Or.inl rfl
  | ok globals =>
    cases extractor.getFunctions with
    | error t => exact Or.inl rfl
    | ok fhs =>
      simp only [bind, Except.bind]
      set body := analyzeOne E rs extractor fhs globals with hbody
      by_cases hfail : ∃ i < fhs.length, ∃ t, body i = .error t
      · refine Or.inr ?_
        obtain ⟨t, ht⟩ := Option.ne_none_iff_exists'.mp (hthrow fhs.length body hfail)
        have halone : (runAlone fhs.length body).2 ≠ none := by
          obtain ⟨i, hi, t, ht⟩ := hfail
          exact aloneFrom_error ⟨i, Nat.zero_le i, by omega, t, ht⟩
        obtain ⟨t', ht'⟩ := Option.ne_none_iff_exists'.mp halone
        exact ⟨t, t', by rw [ht]; rfl, by rw [ht']; rfl⟩
      · refine Or.inl ?_
        have hnone : (run fhs.length body).2 = none := by
          obtain ⟨s, hs, -, hout⟩ := hrun fhs.length body
          rw [← hout]
          by_contra hne
          obtain ⟨t, ht⟩ := Option.ne_none_iff_exists'.mp hne
          obtain ⟨i, hi, he⟩ := hs.1.inv.error_error t ht
          exact hfail ⟨i, hi, t, he⟩
        have hslots := (hok fhs.length body hnone).2
        obtain ⟨slots, halone, heq⟩ : ∃ t, runAlone fhs.length body = (t, none) ∧
            ∀ j < 0 + fhs.length, t j = (run fhs.length body).1 j :=
          aloneFrom_of_ok (fun j _ hj => hslots j (by omega)) nofun
        have hred : reduceSlots (run fhs.length body).1 fhs 0 {} = reduceSlots slots fhs 0 {} :=
          reduceSlots_congr (fun j hj => (heq j hj).symm) {}
        rw [hnone, halone, hred]

/-- Some run exists for every number of workers. -/
theorem exists_runs (workers n : ℕ) (body : ℕ → Throws FunctionSlot) :
    ∃ ran o, Runs workers n body ran o := by
  have hstart : SharedCounter.Reachable n body {}
      (SharedCounter.start {} : SharedCounter.State (Fin workers) FunctionSlot Thrown) := .refl
  obtain ⟨s, hs⟩ := SharedCounter.exists_finished hstart
  exact ⟨_, _, s, hs, rfl, rfl⟩

/-- Four workers requested on eight cores analyze two functions that match a rule. -/
theorem workers_interleave_four :
    let a := Rule.plain (str "a") .function none (.feature { value := .mnemonic (str "nop") })
    let extractor : StaticFeatureExtractor Unit Unit Unit :=
      { getBaseAddress := .ok .noAddress
        extractGlobalFeatures := .ok []
        extractFileFeatures := .ok []
        getFunctions := .ok [⟨.absoluteVirtual 0x1000, ()⟩, ⟨.absoluteVirtual 0x2000, ()⟩]
        extractFunctionFeatures := fun fh => .ok [({ value := .mnemonic (str "nop") }, fh.addr)]
        getBasicBlocks := fun _ => .ok []
        extractBasicBlockFeatures := fun _ _ => .ok []
        getInstructions := fun _ _ => .ok []
        extractInsnFeatures := fun _ _ _ => .ok [] }
    ∃ (rs : RuleSet) (run : (n : ℕ) → (body : ℕ → Throws FunctionSlot) → RunOutcome),
      RuleSet.fromRules [some a] = .ok rs ∧
      (∀ n body, ∃ ran, Runs (resolveWorkerCount 8 4 n).toNat n body ran (run n body) ∧
        ((run n body).2 = none → ran.Perm (List.range n))) ∧
      (∀ n body, (∃ i < n, ∃ t, body i = .error t) → (run n body).2 ≠ none) ∧
      ∃ caps, findStaticCapabilities noRegex rs extractor none run = .ok caps ∧
        caps.allMatches.map (fun e => (e.1, e.2.map Prod.fst)) =
          [(str "a", [.absoluteVirtual 0x1000, .absoluteVirtual 0x2000])] := by
  intro a extractor
  obtain ⟨rs, h⟩ := Expected.exists_ok (x := RuleSet.fromRules [some a]) (by decide +kernel)
  have hruns n body := exists_runs (resolveWorkerCount 8 4 n).toNat n body
  choose ran run hrun using hruns
  obtain ⟨hperm, hthrow, hanalysis⟩ :=
    workers_interleave noRegex rs extractor none 8 4 ran run hrun
  -- The analysis of a single worker is computed.
  have halone : ∀ rs ∈ (RuleSet.fromRules [some a]).toOption,
      ∃ caps ∈ (findStaticCapabilities noRegex rs extractor none runAlone).toOption,
        caps.allMatches.map (fun e => (e.1, e.2.map Prod.fst)) =
          [(str "a", [.absoluteVirtual 0x1000, .absoluteVirtual 0x2000])] := by
    decide +kernel
  obtain ⟨caps, hcaps, hmatches⟩ := halone rs (by rw [h]; rfl)
  refine ⟨rs, run, h, fun n body => ⟨ran n body, hrun n body, fun hnone => (hperm n body hnone).1⟩,
    hthrow, caps, ?_, hmatches⟩
  rcases hanalysis with heq | ⟨-, t, -, ht⟩
  · cases hresult : findStaticCapabilities noRegex rs extractor none runAlone with
    | error t =>
      rw [hresult] at hcaps
      exact absurd hcaps (Option.not_mem_none caps)
    | ok caps' =>
      rw [hresult] at hcaps
      exact heq.trans (hresult.trans (congrArg Except.ok (Option.some.inj hcaps)))
  · rw [ht] at hcaps
    exact absurd hcaps (Option.not_mem_none caps)

end Papa.Capabilities
