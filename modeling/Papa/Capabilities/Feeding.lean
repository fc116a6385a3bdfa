import Papa.Capabilities.Recorded

/-!
# Where match features come from

The passes go from the instructions up to the file, and within a pass the rules are tried in the
order of their scope. If the extractor lists no match features, then whatever match feature a rule
sees was injected for a rule of a lower scope, or for an earlier rule of its own.

## Main definitions

* `Papa.Capabilities.Earlier`: the order the rules are tried in.
* `Papa.Capabilities.Feeds`: an earlier rule bears a name.
* `Papa.Capabilities.ListsNoMatches`: the extractor lists no match features.

## Main results

* `Papa.Capabilities.findStaticCapabilities_fed`: every result of an analysis saw names of earlier
  rules only.
-/

namespace Papa.Capabilities

open Features Features.Extractors Engine Rules

/-! ### The order of the rules -/

/-- How early the pass of a scope is. -/
def level : Scope → ℕ
  | .instruction => 0
  | .basicBlock => 1
  | .function => 2
  | .file => 3
  | _ => 4

section Order

variable (rs : RuleSet)

/-- The place of a rule in the order of its scope. -/
def position (r : Rule) : ℕ := ((rs.rulesByScope r.scope).map Rule.name).idxOf r.name

/-- A rule is tried before another: in the pass of a lower scope, or earlier in the same order. -/
def Earlier (d r : Rule) : Prop :=
  level d.scope < level r.scope ∨ d.scope = r.scope ∧ position rs d < position rs r

/-- A rule that is tried earlier bears the name. -/
def Feeds (r : Rule) (name : Str) : Prop :=
  ∃ d ∈ rs.rules, name ∈ d.injectedNames ∧ Earlier rs d r

/-- The match features of a set are those of rules of lower scopes. -/
def NamesBelow (k : ℕ) (fs : FeatureSet) : Prop :=
  ∀ name, fs.has (Feature.matchedRule name) →
    ∃ d ∈ rs.rules, name ∈ d.injectedNames ∧ level d.scope < k

/-- The match features of the set a rule is tried on are those of earlier rules. -/
def FedBelow (k : ℕ) (r : Rule) (fs : FeatureSet) : Prop :=
  level r.scope < k ∧ ∀ name, fs.has (Feature.matchedRule name) → Feeds rs r name

end Order

section Sets

variable {rs : RuleSet} {k : ℕ}

theorem Earlier.irrefl (r : Rule) : ¬Earlier rs r r := by
  rintro (hlt | ⟨-, hlt⟩)
  · exact lt_irrefl _ hlt
  · exact lt_irrefl _ hlt

theorem Earlier.trans {c d r : Rule} (h : Earlier rs c d) (h' : Earlier rs d r) :
    Earlier rs c r := by
  rcases h with hlt | ⟨hscope, hlt⟩
  · rcases h' with hlt' | ⟨hscope', -⟩
    · exact .inl (hlt.trans hlt')
    · exact .inl (hscope' ▸ hlt)
  · rcases h' with hlt' | ⟨hscope', hlt'⟩
    · exact .inl (hscope ▸ hlt')
    · exact .inr ⟨hscope.trans hscope', hlt.trans hlt'⟩

/-- What stands before a rule in the order of its scope is earlier. -/
theorem earlier_of_mem_before (h : rs.Built) {scope : Scope} {before after : List Rule} {d r : Rule}
    (heq : rs.rulesByScope scope = before ++ r :: after) (hd : d ∈ before) : Earlier rs d r := by
  have hr : r ∈ rs.rulesByScope scope := heq ▸ List.mem_append_right _ List.mem_cons_self
  have hd' : d ∈ rs.rulesByScope scope := heq ▸ List.mem_append_left _ hd
  have hnodup : ((rs.rulesByScope scope).map Rule.name).Nodup :=
    List.Nodup.map_on (fun a ha b hb hname =>
      h.indexed.eq_of_name (h.mem_rulesByScope_iff.mp ha).1 (h.mem_rulesByScope_iff.mp hb).1 hname)
      (h.nodup_rulesByScope scope)
  obtain ⟨-, hrscope⟩ := h.mem_rulesByScope_iff.mp hr
  obtain ⟨-, hdscope⟩ := h.mem_rulesByScope_iff.mp hd'
  rw [heq, List.map_append, List.map_cons] at hnodup
  have hname : d.name ∈ before.map Rule.name := List.mem_map_of_mem hd
  have hnot : r.name ∉ before.map Rule.name := fun hmem =>
    hnodup.disjoint hmem List.mem_cons_self
  refine .inr ⟨hdscope.trans hrscope.symm, ?_⟩
  rw [position, position, hdscope, hrscope, heq, List.map_append, List.map_cons,
    List.idxOf_append_of_mem hname, List.idxOf_append_of_notMem hnot, List.idxOf_cons_self,
    Nat.add_zero]
  exact List.idxOf_lt_length_of_mem hname

/-! ### Sets -/

/-- No feature of a list is a match feature. -/
def NoMatches (batch : List FeatureWithAddress) : Prop := ∀ p ∈ batch, p.1.tag ≠ .matchedRule

theorem NamesBelow.empty : NamesBelow rs k .empty := fun name hhas => by
  rw [FeatureSet.has_empty] at hhas
  exact absurd hhas Bool.false_ne_true

theorem NamesBelow.mono {fs : FeatureSet} (hfs : NamesBelow rs k fs) {m : ℕ} (hle : k ≤ m) :
    NamesBelow rs m fs := by
  intro name hhas
  obtain ⟨d, hd, hname, hlt⟩ := hfs name hhas
  exact ⟨d, hd, hname, hlt.trans_le hle⟩

theorem NamesBelow.addAll {fs : FeatureSet} (hfs : NamesBelow rs k fs)
    {batch : List FeatureWithAddress} (hbatch : NoMatches batch) :
    NamesBelow rs k (fs.addAll batch) := by
  intro name hhas
  rcases (FeatureSet.has_addAll _ _ _).mp hhas with ⟨p, hp, hkey⟩ | hhas
  · refine absurd ?_ (hbatch p hp)
    exact Feature.tag_eq_matchedRule_iff.mpr
      ⟨name, (Feature.matchedRule_beq_iff name p.1).mp (BEq.symm hkey)⟩
  · exact hfs name hhas

theorem NamesBelow.mergeIn {fs other : FeatureSet} (hfs : NamesBelow rs k fs)
    (hother : NamesBelow rs k other) : NamesBelow rs k (fs.mergeIn other) := by
  intro name hhas
  rcases (FeatureSet.has_mergeIn _ _ _).mp hhas with hhas | hhas
  · exact hother name hhas
  · exact hfs name hhas

variable {E : RegexEngine}

theorem RecordedOn.fed_mono {results : MatchResults}
    (hresults : RecordedOn (FedBelow rs k) E rs results) {m : ℕ} (hle : k ≤ m) :
    RecordedOn (FedBelow rs m) E rs results :=
  hresults.imp fun _ _ hfs => ⟨hfs.1.trans_le hle, hfs.2⟩

/-- The names injected for recorded rules are those of their scopes. -/
theorem NamesBelow.injectMatchFeatures (h : rs.Built) {fs : FeatureSet} (hfs : NamesBelow rs k fs)
    {results : MatchResults} (hresults : RecordedOn (FedBelow rs k) E rs results) :
    NamesBelow rs k (injectMatchFeatures fs rs results) := by
  induction results generalizing fs with
  | nil => exact hfs
  | cons e results ih =>
    have hrest : RecordedOn (FedBelow rs k) E rs results :=
      fun e' he' => hresults e' (List.mem_cons_of_mem _ he')
    rw [Capabilities.injectMatchFeatures, List.foldl_cons]
    cases hfind : rs.find e.1 with
    | none => exact ih hfs hrest
    | some rule =>
      refine ih (fun name hhas => ?_) hrest
      rcases (has_indexRuleMatches _ _ _ _).mp hhas with ⟨hne, name', hname', heq⟩ | hhas
      · obtain ⟨r, hr, hname, hentries⟩ := hresults e List.mem_cons_self
        obtain ⟨hrule, hrulename⟩ := h.indexed.get?_byName_iff.mp hfind
        obtain rfl : r = rule := h.indexed.eq_of_name hr hrule (hname.trans hrulename.symm)
        obtain ⟨p, hp⟩ := List.exists_mem_of_ne_nil _ (mt List.map_eq_nil_iff.mpr hne)
        obtain ⟨fs', hfs', -⟩ := hentries p hp
        obtain rfl : name = name' := FeatureValue.matchedRule.inj heq
        exact ⟨r, hr, hname', hfs'.1⟩
      · exact hfs name hhas

/-- **A match sees names of earlier rules** when the names of its set are those of lower scopes, and
it leaves names of its scope and of lower ones. -/
theorem fed_match (h : rs.Built) {scope : Scope} {fs : FeatureSet}
    (hfs : NamesBelow rs (level scope) fs) {addr : Address} {o : FeatureSet × MatchResults}
    (ho : rs.match_ E scope fs addr = .ok o) :
    NamesBelow rs (level scope + 1) o.1 ∧
      RecordedOn (FedBelow rs (level scope + 1)) E rs o.2 := by
  rw [match_eq_outcome E h, outcome_eq E h] at ho
  cases ho
  refine ⟨fun name hhas => ?_, RecordedOn.recordAll h ?_ .nil⟩
  · rcases (has_run_matchSystem E addr _ fs name).mp hhas with hhas | ⟨p, hp, hname⟩
    · obtain ⟨d, hd, hdname, hlt⟩ := hfs name hhas
      exact ⟨d, hd, hdname, hlt.trans (Nat.lt_succ_self _)⟩
    · obtain ⟨hr, hscope⟩ := h.mem_rulesByScope_iff.mp
        ((RuleSystem.run_sublist _ _ _).subset (List.mem_map_of_mem hp))
      exact ⟨p.1, hr, hname, hscope ▸ Nat.lt_succ_self _⟩
  · rintro ⟨r, o⟩ hp
    obtain ⟨before, after, heq, hfire⟩ := RuleSystem.fire_of_mem_run _ hp
    have hmem : r ∈ rs.rulesByScope scope := heq ▸ List.mem_append_right _ List.mem_cons_self
    obtain ⟨hr, hscope⟩ := h.mem_rulesByScope_iff.mp hmem
    refine ⟨hr, _, ⟨hscope ▸ Nat.lt_succ_self _, fun name hhas => ?_⟩,
      ((fire_eq_some_iff (h.subscopeFree r hr)).mp hfire).2⟩
    rcases (has_run_matchSystem E addr before fs name).mp hhas with hhas | ⟨p, hp, hname⟩
    · obtain ⟨d, hd, hdname, hlt⟩ := hfs name hhas
      exact ⟨d, hd, hdname, .inl (hscope ▸ hlt)⟩
    · have hbefore := (RuleSystem.run_sublist _ _ _).subset (List.mem_map_of_mem hp)
      have hd : p.1 ∈ rs.rulesByScope scope := heq ▸ List.mem_append_left _ hbefore
      exact ⟨p.1, (h.mem_rulesByScope_iff.mp hd).1, hname, earlier_of_mem_before h heq hbefore⟩

end Sets

/-! ### The passes -/

section Lists

variable {φ β ι : Type} (extractor : StaticFeatureExtractor φ β ι)

/-- The extractor lists no match features for an instruction. -/
def InsnListsNoMatches (fh : FunctionHandle φ) (bbh : BBHandle β) (ih : InsnHandle ι) : Prop :=
  ∀ l, extractor.extractInsnFeatures fh bbh ih = .ok l → NoMatches l

/-- It lists none for a basic block and its instructions. -/
def BlockListsNoMatches (fh : FunctionHandle φ) (bbh : BBHandle β) : Prop :=
  (∀ l, extractor.extractBasicBlockFeatures fh bbh = .ok l → NoMatches l) ∧
    ∀ ihs, extractor.getInstructions fh bbh = .ok ihs →
      ∀ ih ∈ ihs, InsnListsNoMatches extractor fh bbh ih

/-- It lists none for a function and its basic blocks. -/
def FunctionListsNoMatches (fh : FunctionHandle φ) : Prop :=
  (∀ l, extractor.extractFunctionFeatures fh = .ok l → NoMatches l) ∧
    ∀ bbhs, extractor.getBasicBlocks fh = .ok bbhs →
      ∀ bbh ∈ bbhs, BlockListsNoMatches extractor fh bbh

/-- It lists none at all. -/
structure ListsNoMatches : Prop where
  globals : ∀ l, extractor.extractGlobalFeatures = .ok l → NoMatches l
  file : ∀ l, extractor.extractFileFeatures = .ok l → NoMatches l
  functions : ∀ fhs, extractor.getFunctions = .ok fhs →
    ∀ fh ∈ fhs, FunctionListsNoMatches extractor fh

end Lists

section Passes

variable {φ β ι : Type} {E : RegexEngine} {rs : RuleSet} (h : rs.Built)
  {extractor : StaticFeatureExtractor φ β ι} {fh : FunctionHandle φ}
  {globals : List FeatureWithAddress} (hglobals : NoMatches globals)

include h hglobals

theorem fed_instruction {bbh : BBHandle β} {ih : InsnHandle ι}
    (hlists : InsnListsNoMatches extractor fh bbh ih) {caps : InstructionCapabilities}
    (hcaps : findInstructionCapabilities E rs extractor fh bbh ih globals = .ok caps) :
    NamesBelow rs 1 caps.features ∧ RecordedOn (FedBelow rs 1) E rs caps.results := by
  obtain ⟨features, hfeatures, hcaps⟩ := bind_eq_ok.mp hcaps
  obtain ⟨o, ho, hcaps⟩ := bind_eq_ok.mp hcaps
  cases hcaps
  have hfs : NamesBelow rs (level .instruction)
      ((FeatureSet.empty.addAll features).addAll globals) :=
    (NamesBelow.empty.addAll (hlists features hfeatures)).addAll hglobals
  exact fed_match h hfs ho

theorem fed_instructions {bbh : BBHandle β} {ihs : List (InsnHandle ι)}
    (hlists : ∀ ih ∈ ihs, InsnListsNoMatches extractor fh bbh ih) {fs : FeatureSet}
    {acc : MatchResults} (hfs : NamesBelow rs 1 fs) (hacc : RecordedOn (FedBelow rs 1) E rs acc)
    {o : FeatureSet × MatchResults}
    (ho : findInstructions E rs extractor fh bbh globals ihs fs acc = .ok o) :
    NamesBelow rs 1 o.1 ∧ RecordedOn (FedBelow rs 1) E rs o.2 := by
  induction ihs generalizing fs acc with
  | nil =>
    cases ho
    exact ⟨hfs, hacc⟩
  | cons ih ihs hind =>
    obtain ⟨caps, hcaps, ho⟩ := bind_eq_ok.mp ho
    obtain ⟨hnames, hresults⟩ := fed_instruction h hglobals (hlists ih List.mem_cons_self) hcaps
    exact hind (fun ih' hih' => hlists ih' (List.mem_cons_of_mem _ hih')) (hfs.mergeIn hnames)
      (hacc.merge h hresults) ho

theorem fed_basicBlock {bbh : BBHandle β} (hlists : BlockListsNoMatches extractor fh bbh)
    {caps : BasicBlockCapabilities}
    (hcaps : findBasicBlockCapabilities E rs extractor fh bbh globals = .ok caps) :
    NamesBelow rs 2 caps.features ∧ RecordedOn (FedBelow rs 2) E rs caps.results ∧
      RecordedOn (FedBelow rs 1) E rs caps.insnResults := by
  obtain ⟨ihs, hihs, hcaps⟩ := bind_eq_ok.mp hcaps
  obtain ⟨⟨bbFs, insnAcc⟩, hinsns, hcaps⟩ := bind_eq_ok.mp hcaps
  obtain ⟨features, hfeatures, hcaps⟩ := bind_eq_ok.mp hcaps
  obtain ⟨o, ho, hcaps⟩ := bind_eq_ok.mp hcaps
  cases hcaps
  obtain ⟨hnames, hresults⟩ :=
    fed_instructions h hglobals (hlists.2 ihs hihs) .empty .nil hinsns
  have hfs : NamesBelow rs (level .basicBlock) ((bbFs.addAll features).addAll globals) :=
    (hnames.addAll (hlists.1 features hfeatures)).addAll hglobals
  obtain ⟨hout, hrecorded⟩ := fed_match h hfs ho
  exact ⟨hout, hrecorded, hresults⟩

theorem fed_basicBlocks {bbhs : List (BBHandle β)}
    (hlists : ∀ bbh ∈ bbhs, BlockListsNoMatches extractor fh bbh) {fs : FeatureSet}
    {bbAcc insnAcc : MatchResults}
    (hfs : NamesBelow rs 2 fs) (hbb : RecordedOn (FedBelow rs 2) E rs bbAcc)
    (hinsn : RecordedOn (FedBelow rs 1) E rs insnAcc)
    {o : FeatureSet × MatchResults × MatchResults}
    (ho : findBasicBlocks E rs extractor fh globals bbhs fs bbAcc insnAcc = .ok o) :
    NamesBelow rs 2 o.1 ∧ RecordedOn (FedBelow rs 2) E rs o.2.1 ∧
      RecordedOn (FedBelow rs 1) E rs o.2.2 := by
  induction bbhs generalizing fs bbAcc insnAcc with
  | nil =>
    cases ho
    exact ⟨hfs, hbb, hinsn⟩
  | cons bbh bbhs ih =>
    obtain ⟨caps, hcaps, ho⟩ := bind_eq_ok.mp ho
    obtain ⟨hnames, hresults, hinsnResults⟩ :=
      fed_basicBlock h hglobals (hlists bbh List.mem_cons_self) hcaps
    exact ih (fun bbh' hbbh' => hlists bbh' (List.mem_cons_of_mem _ hbbh')) (hfs.mergeIn hnames)
      (hbb.merge h hresults) (hinsn.merge h hinsnResults) ho

/-- The results of a function saw names of earlier rules only. -/
def CodeCapabilities.Fed (E : RegexEngine) (rs : RuleSet) (caps : CodeCapabilities) : Prop :=
  RecordedOn (FedBelow rs 3) E rs caps.functionResults ∧
    RecordedOn (FedBelow rs 3) E rs caps.bbResults ∧
    RecordedOn (FedBelow rs 3) E rs caps.insnResults

omit h hglobals in
theorem CodeCapabilities.Fed.empty : ({} : CodeCapabilities).Fed E rs := ⟨.nil, .nil, .nil⟩

theorem fed_code (hlists : FunctionListsNoMatches extractor fh) {caps : CodeCapabilities}
    (hcaps : findCodeCapabilities E rs extractor fh globals = .ok caps) : caps.Fed E rs := by
  obtain ⟨bbhs, hbbhs, hcaps⟩ := bind_eq_ok.mp hcaps
  obtain ⟨⟨fnFs, bbAcc, insnAcc⟩, hblocks, hcaps⟩ := bind_eq_ok.mp hcaps
  obtain ⟨features, hfeatures, hcaps⟩ := bind_eq_ok.mp hcaps
  obtain ⟨o, ho, hcaps⟩ := bind_eq_ok.mp hcaps
  cases hcaps
  obtain ⟨hnames, hbb, hinsn⟩ :=
    fed_basicBlocks h hglobals (hlists.2 bbhs hbbhs) .empty .nil .nil hblocks
  have hfs : NamesBelow rs (level .function) ((fnFs.addAll features).addAll globals) :=
    (hnames.addAll (hlists.1 features hfeatures)).addAll hglobals
  exact ⟨(fed_match h hfs ho).2, hbb.fed_mono (by omega),
    hinsn.fed_mono (by omega)⟩

theorem fed_analyzeOne {fhs : List (FunctionHandle φ)}
    (hlists : ∀ fh ∈ fhs, FunctionListsNoMatches extractor fh) {i : ℕ} {slot : FunctionSlot}
    (hslot : analyzeOne E rs extractor fhs globals i = .ok slot) : slot.caps.Fed E rs := by
  unfold analyzeOne at hslot
  split at hslot
  · cases hslot
    exact .empty
  next fh hfh =>
    obtain ⟨library, -, hslot⟩ := bind_eq_ok.mp hslot
    split_ifs at hslot
    · cases hslot
      exact .empty
    · obtain ⟨caps, hcaps, hslot⟩ := bind_eq_ok.mp hslot
      cases hslot
      exact fed_code h hglobals (hlists fh (List.mem_of_getElem? hfh)) hcaps

/-- The results merged so far saw names of earlier rules only. -/
def Reduction.Fed (E : RegexEngine) (rs : RuleSet) (acc : Reduction) : Prop :=
  acc.caps.allMatches = [] ∧ RecordedOn (FedBelow rs 3) E rs acc.fnMatches ∧
    RecordedOn (FedBelow rs 3) E rs acc.bbMatches ∧
    RecordedOn (FedBelow rs 3) E rs acc.insnMatches

omit hglobals in
theorem fed_reduceSlots {slots : ℕ → FunctionSlot} {fhs : List (FunctionHandle φ)} {i : ℕ}
    (hslots : ∀ j < i + fhs.length, i ≤ j → (slots j).caps.Fed E rs) {acc : Reduction}
    (hacc : acc.Fed E rs) : (reduceSlots slots fhs i acc).Fed E rs := by
  induction fhs generalizing i acc with
  | nil => exact hacc
  | cons fh fhs ih =>
    rw [List.length_cons] at hslots
    obtain ⟨hfn, hbb, hinsn⟩ := hslots i (by omega) le_rfl
    refine ih (fun j hj hle => hslots j (by omega) (by omega)) ?_
    unfold reduceOne
    split_ifs
    · exact hacc
    · exact ⟨hacc.1, hacc.2.1.merge h hfn, hacc.2.2.1.merge h hbb, hacc.2.2.2.merge h hinsn⟩

omit h in
theorem namesBelow_fileScopeFeatureSet (hlists : ListsNoMatches extractor)
    {cachedFileFeatures : Option (List FeatureWithAddress)}
    (hcached : ∀ l ∈ cachedFileFeatures, NoMatches l) {fs : FeatureSet}
    (hfs : fileScopeFeatureSet extractor cachedFileFeatures globals = .ok fs) (k : ℕ) :
    NamesBelow rs k fs := by
  cases cachedFileFeatures with
  | none =>
    obtain ⟨features, hfeatures, hfs⟩ := bind_eq_ok.mp hfs
    cases hfs
    exact (NamesBelow.empty.addAll (hlists.file _ hfeatures)).addAll hglobals
  | some features =>
    cases hfs
    exact (NamesBelow.empty.addAll (hcached features rfl)).addAll hglobals

end Passes

/-- **Every result of an analysis saw names of earlier rules only**, when the extractor lists no
match features. -/
theorem findStaticCapabilities_fed {φ β ι : Type} {E : RegexEngine} {rs : RuleSet} (h : rs.Built)
    {extractor : StaticFeatureExtractor φ β ι} (hlists : ListsNoMatches extractor)
    {cachedFileFeatures : Option (List FeatureWithAddress)}
    (hcached : ∀ l ∈ cachedFileFeatures, NoMatches l) {hardwareConcurrency threads : UInt32}
    {run : (n : ℕ) → (body : ℕ → Throws FunctionSlot) → RunOutcome}
    (hrun : WorkersRun hardwareConcurrency threads run) {caps : StaticCapabilities}
    (hcaps : findStaticCapabilities E rs extractor cachedFileFeatures run = .ok caps) :
    RecordedOn (FedBelow rs 4) E rs caps.allMatches := by
  obtain ⟨globals, hglobals, hcaps⟩ := bind_eq_ok.mp hcaps
  obtain ⟨fhs, hfhs, hcaps⟩ := bind_eq_ok.mp hcaps
  replace hglobals := hlists.globals _ hglobals
  split at hcaps
  next slots error hran =>
  split at hcaps
  · exact nomatch hcaps
  · obtain ⟨fileFs, hfileFs, hcaps⟩ := bind_eq_ok.mp hcaps
    obtain ⟨base, -, hcaps⟩ := bind_eq_ok.mp hcaps
    obtain ⟨o, ho, hcaps⟩ := bind_eq_ok.mp hcaps
    cases hcaps
    have hslots := hrun.ok_of_none (congrArg Prod.snd hran)
    rw [hran] at hslots
    have hstart : ({} : Reduction).Fed E rs := ⟨rfl, .nil, .nil, .nil⟩
    have hred : (reduceSlots slots fhs 0 {}).Fed E rs :=
      fed_reduceSlots h (fun j hj _ => fed_analyzeOne h hglobals (hlists.functions fhs hfhs)
        (hslots j (by omega))) hstart
    obtain ⟨hall, hfn, hbb, hinsn⟩ := hred
    have hset : NamesBelow rs (level .file) fileFs :=
      namesBelow_fileScopeFeatureSet hglobals hlists hcached hfileFs 3
    have hinjected := ((hset.injectMatchFeatures h hfn).injectMatchFeatures h
      hbb).injectMatchFeatures h hinsn
    have hfile : RecordedOn (FedBelow rs 4) E rs o.2 := (fed_match h hinjected ho).2
    rw [hall]
    exact (((RecordedOn.nil.merge h hfile).merge h (hfn.fed_mono (by omega))).merge h
      (hbb.fed_mono (by omega))).merge h (hinsn.fed_mono (by omega))

end Papa.Capabilities
