import Papa.Capabilities.Program

/-!
# What an analysis records

Every entry of the results of an analysis stands under the name of a rule of the corpus, and is the
full evaluation of that rule's statement on some feature set. This is kept by every match and by
every merge, so it holds of whatever a static analysis returns, for every extractor and every run of
the workers.

## Main definitions

* `Papa.Capabilities.Recorded`: the results are evaluations of the rules they are named after.
* `Papa.Capabilities.RecordedOn`: they are evaluations on sets with a property.

## Main results

* `Papa.Capabilities.findStaticCapabilities_recorded`.
-/

namespace Papa.Capabilities

open Features Features.Extractors Engine Rules

/-- The results are evaluations of the rules they are named after, each on a set as `Q` says. -/
def RecordedOn (Q : Rule → FeatureSet → Prop) (E : RegexEngine) (rs : RuleSet)
    (results : MatchResults) : Prop :=
  ∀ e ∈ results, ∃ r ∈ rs.rules, r.name = e.1 ∧
    ∀ p ∈ e.2, ∃ fs, Q r fs ∧ r.statement.evaluate E fs false = .ok p.2

/-- The results are evaluations of the rules they are named after. -/
def Recorded (E : RegexEngine) (rs : RuleSet) (results : MatchResults) : Prop :=
  ∀ e ∈ results, ∃ r ∈ rs.rules, r.name = e.1 ∧
    ∀ p ∈ e.2, ∃ fs, r.statement.holds E fs ∧ r.statement.evaluate E fs false = .ok p.2

section Recorded

variable {Q : Rule → FeatureSet → Prop} {E : RegexEngine} {rs : RuleSet}

theorem RecordedOn.nil : RecordedOn Q E rs [] := fun _ he => absurd he List.not_mem_nil

theorem RecordedOn.imp {Q' : Rule → FeatureSet → Prop} {results : MatchResults}
    (hresults : RecordedOn Q E rs results) (h : ∀ r fs, Q r fs → Q' r fs) :
    RecordedOn Q' E rs results := by
  intro e he
  obtain ⟨r, hr, hname, hentries⟩ := hresults e he
  refine ⟨r, hr, hname, fun p hp => ?_⟩
  obtain ⟨fs, hfs, heval⟩ := hentries p hp
  exact ⟨fs, h r fs hfs, heval⟩

/-- Appending evaluations of a rule to its entries. -/
theorem RecordedOn.upsert (h : rs.Built) {results : MatchResults}
    (hresults : RecordedOn Q E rs results) {r : Rule} (hr : r ∈ rs.rules)
    {added : List (Address × Result)}
    (hadded : ∀ p ∈ added, ∃ fs, Q r fs ∧ r.statement.evaluate E fs false = .ok p.2) :
    RecordedOn Q E rs (AssocList.upsert r.name [] (· ++ added) results) := by
  intro e he
  rcases AssocList.mem_upsert he with he | rfl | ⟨old, hold, hkey, heq⟩
  · exact hresults e he
  · exact ⟨r, hr, rfl, hadded⟩
  · obtain ⟨r', hr', hname, hentries⟩ := hresults _ hold
    obtain rfl : r' = r := h.indexed.eq_of_name hr' hr (hname.trans (eq_of_beq hkey))
    refine ⟨r', hr', hname, fun p hp => ?_⟩
    rw [heq] at hp
    rcases List.mem_append.mp hp with hp | hp
    · exact hentries p hp
    · exact hadded p hp

/-- Merging keeps what both sides record. -/
theorem RecordedOn.merge (h : rs.Built) {dst src : MatchResults} (hdst : RecordedOn Q E rs dst)
    (hsrc : RecordedOn Q E rs src) : RecordedOn Q E rs (mergeInto dst src) := by
  induction src generalizing dst with
  | nil => exact hdst
  | cons e src ih =>
    obtain ⟨r, hr, hname, hentries⟩ := hsrc e List.mem_cons_self
    refine ih ?_ fun e' he' => hsrc e' (List.mem_cons_of_mem _ he')
    have hupsert := hdst.upsert h hr hentries
    rwa [hname] at hupsert

/-- Recording the evaluations of a pass. -/
theorem RecordedOn.recordAll (h : rs.Built) {addr : Address} {fired : List (Rule × Result)}
    (hfired : ∀ p ∈ fired, p.1 ∈ rs.rules ∧
      ∃ fs, Q p.1 fs ∧ p.1.statement.evaluate E fs false = .ok p.2)
    {out : MatchResults} (hout : RecordedOn Q E rs out) :
    RecordedOn Q E rs (recordAll addr out fired) := by
  induction fired generalizing out with
  | nil => exact hout
  | cons p fired ih =>
    obtain ⟨hr, heval⟩ := hfired p List.mem_cons_self
    refine ih (fun q hq => hfired q (List.mem_cons_of_mem _ hq)) (hout.upsert h hr ?_)
    intro q hq
    rw [List.mem_singleton.mp hq]
    exact heval

theorem Recorded.nil : Recorded E rs [] := RecordedOn.nil

theorem Recorded.merge (h : rs.Built) {dst src : MatchResults} (hdst : Recorded E rs dst)
    (hsrc : Recorded E rs src) : Recorded E rs (mergeInto dst src) :=
  RecordedOn.merge h hdst hsrc

/-- **A match records evaluations of the rules of its scope.** -/
theorem recorded_match (h : rs.Built) {scope : Scope} {fs : FeatureSet} {addr : Address}
    {o : FeatureSet × MatchResults} (ho : rs.match_ E scope fs addr = .ok o) :
    Recorded E rs o.2 := by
  rw [match_eq_outcome E h, outcome_eq E h] at ho
  cases ho
  have hfired : ∀ p ∈ ((matchSystem E addr).run (rs.rulesByScope scope) fs).2,
      p.1 ∈ rs.rules ∧ ∃ gs, p.1.statement.holds E gs ∧
        p.1.statement.evaluate E gs false = .ok p.2 := by
    rintro ⟨r, o⟩ hp
    obtain ⟨before, after, heq, hfire⟩ := RuleSystem.fire_of_mem_run _ hp
    have hmem : r ∈ rs.rulesByScope scope := heq ▸ List.mem_append_right _ List.mem_cons_self
    have hr := (h.mem_rulesByScope_iff.mp hmem).1
    exact ⟨hr, _, (fire_eq_some_iff (h.subscopeFree r hr)).mp hfire⟩
  exact RecordedOn.recordAll h hfired .nil

end Recorded

/-! ### The passes -/

section Passes

variable {φ β ι : Type} {E : RegexEngine} {rs : RuleSet} (h : rs.Built)
  {extractor : StaticFeatureExtractor φ β ι} {fh : FunctionHandle φ}
  {globals : List FeatureWithAddress}

include h

theorem recorded_instruction {bbh : BBHandle β} {ih : InsnHandle ι} {caps : InstructionCapabilities}
    (hcaps : findInstructionCapabilities E rs extractor fh bbh ih globals = .ok caps) :
    Recorded E rs caps.results := by
  obtain ⟨features, -, hcaps⟩ := bind_eq_ok.mp hcaps
  obtain ⟨o, ho, hcaps⟩ := bind_eq_ok.mp hcaps
  cases hcaps
  exact recorded_match h ho

theorem recorded_instructions {bbh : BBHandle β} {ihs : List (InsnHandle ι)} {fs : FeatureSet}
    {acc : MatchResults} (hacc : Recorded E rs acc) {o : FeatureSet × MatchResults}
    (ho : findInstructions E rs extractor fh bbh globals ihs fs acc = .ok o) :
    Recorded E rs o.2 := by
  induction ihs generalizing fs acc with
  | nil =>
    cases ho
    exact hacc
  | cons ih ihs hind =>
    obtain ⟨caps, hcaps, ho⟩ := bind_eq_ok.mp ho
    exact hind (hacc.merge h (recorded_instruction h hcaps)) ho

theorem recorded_basicBlock {bbh : BBHandle β} {caps : BasicBlockCapabilities}
    (hcaps : findBasicBlockCapabilities E rs extractor fh bbh globals = .ok caps) :
    Recorded E rs caps.results ∧ Recorded E rs caps.insnResults := by
  obtain ⟨ihs, -, hcaps⟩ := bind_eq_ok.mp hcaps
  obtain ⟨⟨bbFs, insnAcc⟩, hinsns, hcaps⟩ := bind_eq_ok.mp hcaps
  obtain ⟨features, -, hcaps⟩ := bind_eq_ok.mp hcaps
  obtain ⟨o, ho, hcaps⟩ := bind_eq_ok.mp hcaps
  cases hcaps
  exact ⟨recorded_match h ho, recorded_instructions h .nil hinsns⟩

theorem recorded_basicBlocks {bbhs : List (BBHandle β)} {fs : FeatureSet}
    {bbAcc insnAcc : MatchResults} (hbb : Recorded E rs bbAcc) (hinsn : Recorded E rs insnAcc)
    {o : FeatureSet × MatchResults × MatchResults}
    (ho : findBasicBlocks E rs extractor fh globals bbhs fs bbAcc insnAcc = .ok o) :
    Recorded E rs o.2.1 ∧ Recorded E rs o.2.2 := by
  induction bbhs generalizing fs bbAcc insnAcc with
  | nil =>
    cases ho
    exact ⟨hbb, hinsn⟩
  | cons bbh bbhs ih =>
    obtain ⟨caps, hcaps, ho⟩ := bind_eq_ok.mp ho
    obtain ⟨hcapsBb, hcapsInsn⟩ := recorded_basicBlock h hcaps
    exact ih (hbb.merge h hcapsBb) (hinsn.merge h hcapsInsn) ho

/-- The results of a function are evaluations. -/
def CodeCapabilities.Recorded (E : RegexEngine) (rs : RuleSet) (caps : CodeCapabilities) : Prop :=
  Capabilities.Recorded E rs caps.functionResults ∧ Capabilities.Recorded E rs caps.bbResults ∧
    Capabilities.Recorded E rs caps.insnResults

theorem recorded_code {caps : CodeCapabilities}
    (hcaps : findCodeCapabilities E rs extractor fh globals = .ok caps) :
    caps.Recorded E rs := by
  obtain ⟨bbhs, -, hcaps⟩ := bind_eq_ok.mp hcaps
  obtain ⟨⟨fnFs, bbAcc, insnAcc⟩, hblocks, hcaps⟩ := bind_eq_ok.mp hcaps
  obtain ⟨features, -, hcaps⟩ := bind_eq_ok.mp hcaps
  obtain ⟨o, ho, hcaps⟩ := bind_eq_ok.mp hcaps
  cases hcaps
  exact ⟨recorded_match h ho, recorded_basicBlocks h .nil .nil hblocks⟩

theorem recorded_analyzeOne {fhs : List (FunctionHandle φ)} {i : ℕ} {slot : FunctionSlot}
    (hslot : analyzeOne E rs extractor fhs globals i = .ok slot) : slot.caps.Recorded E rs := by
  unfold analyzeOne at hslot
  split at hslot
  · cases hslot
    exact ⟨.nil, .nil, .nil⟩
  · obtain ⟨library, -, hslot⟩ := bind_eq_ok.mp hslot
    split_ifs at hslot
    · cases hslot
      exact ⟨.nil, .nil, .nil⟩
    · obtain ⟨caps, hcaps, hslot⟩ := bind_eq_ok.mp hslot
      cases hslot
      exact recorded_code h hcaps

/-- The results merged so far are evaluations. -/
def Reduction.Recorded (E : RegexEngine) (rs : RuleSet) (acc : Reduction) : Prop :=
  acc.caps.allMatches = [] ∧ Capabilities.Recorded E rs acc.fnMatches ∧
    Capabilities.Recorded E rs acc.bbMatches ∧ Capabilities.Recorded E rs acc.insnMatches

theorem recorded_reduceSlots {slots : ℕ → FunctionSlot} {fhs : List (FunctionHandle φ)} {i : ℕ}
    (hslots : ∀ j < i + fhs.length, i ≤ j → (slots j).caps.Recorded E rs) {acc : Reduction}
    (hacc : acc.Recorded E rs) : (reduceSlots slots fhs i acc).Recorded E rs := by
  induction fhs generalizing i acc with
  | nil => exact hacc
  | cons fh fhs ih =>
    rw [List.length_cons] at hslots
    obtain ⟨hfn, hbb, hinsn⟩ := hslots i (by omega) le_rfl
    refine ih (fun j hj hle => hslots j (by omega) (by omega)) ?_
    unfold reduceOne
    split_ifs
    · exact hacc
    · exact ⟨hacc.1, hacc.2.1.merge h hfn, hacc.2.2.1.merge h hbb, hacc.2.2.2.merge h hinsn⟩

end Passes

/-- A run that ends without an exception filled every slot from its own index. -/
theorem WorkersRun.ok_of_none {hardwareConcurrency threads : UInt32}
    {run : (n : ℕ) → (body : ℕ → Throws FunctionSlot) → RunOutcome}
    (hrun : WorkersRun hardwareConcurrency threads run) {n : ℕ} {body : ℕ → Throws FunctionSlot}
    (hnone : (run n body).2 = none) : ∀ i < n, body i = .ok ((run n body).1 i) := by
  have hworker : Nonempty (Fin (resolveWorkerCount hardwareConcurrency threads n).toNat) :=
    ⟨⟨0, resolveWorkerCount_pos hardwareConcurrency threads n⟩⟩
  obtain ⟨ran, s, hs, -, hout⟩ := hrun n body
  rw [← hout] at hnone ⊢
  exact fun i hi => hs.slots_eq hnone hi

/-- **The results of an analysis are evaluations of the rules they are named after**, whatever the
extractor lists and however the workers interleave. -/
theorem findStaticCapabilities_recorded {φ β ι : Type} {E : RegexEngine} {rs : RuleSet}
    (h : rs.Built) {extractor : StaticFeatureExtractor φ β ι}
    {cachedFileFeatures : Option (List FeatureWithAddress)} {hardwareConcurrency threads : UInt32}
    {run : (n : ℕ) → (body : ℕ → Throws FunctionSlot) → RunOutcome}
    (hrun : WorkersRun hardwareConcurrency threads run) {caps : StaticCapabilities}
    (hcaps : findStaticCapabilities E rs extractor cachedFileFeatures run = .ok caps) :
    Recorded E rs caps.allMatches := by
  obtain ⟨globals, -, hcaps⟩ := bind_eq_ok.mp hcaps
  obtain ⟨fhs, -, hcaps⟩ := bind_eq_ok.mp hcaps
  split at hcaps
  next slots error hran =>
  split at hcaps
  · exact nomatch hcaps
  · obtain ⟨fileFs, -, hcaps⟩ := bind_eq_ok.mp hcaps
    obtain ⟨base, -, hcaps⟩ := bind_eq_ok.mp hcaps
    obtain ⟨o, ho, hcaps⟩ := bind_eq_ok.mp hcaps
    cases hcaps
    have hslots := hrun.ok_of_none (congrArg Prod.snd hran)
    rw [hran] at hslots
    have hstart : ({} : Reduction).Recorded E rs := ⟨rfl, .nil, .nil, .nil⟩
    have hred : (reduceSlots slots fhs 0 {}).Recorded E rs :=
      recorded_reduceSlots h (fun j hj _ => recorded_analyzeOne h (hslots j (by omega))) hstart
    obtain ⟨hall, hfn, hbb, hinsn⟩ := hred
    have hfile : Recorded E rs (mergeInto (reduceSlots slots fhs 0 {}).caps.allMatches o.2) := by
      rw [hall]
      exact Recorded.nil.merge h (recorded_match h ho)
    exact ((hfile.merge h hfn).merge h hbb).merge h hinsn

end Papa.Capabilities
