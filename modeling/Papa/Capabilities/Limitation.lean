import Papa.Capabilities.Extractor
import Papa.Library.Worklist
import Papa.Rules.MatchCycle

/-!
# The limitation gate

A rule in or below the namespace `internal/limitation/static` says that static analysis of the file
is of limited use. To learn whether one matches it is enough to run the rules of the file scope that
those rules reference, directly or through others: no other rule injects a name they test.

## Main definitions

* `Papa.Capabilities.limitationGateRules`.
* `Papa.Capabilities.findFileCapabilities`, `Papa.Capabilities.findLimitationCapabilities`.
* `Papa.Capabilities.hasStaticLimitation`.

## Main results

* `Papa.Capabilities.mem_gate_of_injects`: the gate holds every rule that injects a name one of its
  rules references.
* `Papa.Capabilities.limitation_verdict`.
-/

namespace Papa.Capabilities

open Features Features.Extractors Engine Rules

/-- The namespace of the rules that gate static analysis. -/
def kStaticLimitationPrefix : Str := str "internal/limitation/static"

/-- The namespace is the prefix or lies below it. -/
def namespaceStartsWith (ns pre : Str) : Bool :=
  if ns.length < pre.length then false
  else if ns.take pre.length ≠ pre then false
  else ns.length = pre.length || ns[pre.length]? = some (ch '/')

/-- The rule is a limitation rule. -/
def isLimitation (r : Rule) : Bool :=
  match r.info.namespace_ with
  | none => false
  | some ns => namespaceStartsWith ns kStaticLimitationPrefix

/-- The rules a rule of a set references: by name, and by namespace. -/
def referencedRules (rs : RuleSet) (name : Str) : List Str :=
  match rs.find name with
  | none => []
  | some r => (collectMatchRefs r.statement).flatMap fun ref =>
      ((rs.find ref).toList ++ rs.rulesInNamespace ref).map Rule.name

/-- The names of the limitation rules of the file scope. -/
def limitationSeeds (rs : RuleSet) : List Str :=
  ((rs.rulesByScope .file).filter isLimitation).map Rule.name

/-- The rules a limitation rule references, directly or through others, with itself. -/
def gateClosure (rs : RuleSet) : List Str :=
  Worklist.closure (referencedRules rs) (rs.rules.map Rule.name) (limitationSeeds rs)

/-- The rule is in the closure. -/
def inGate (rs : RuleSet) (r : Rule) : Bool := decide (r.name ∈ gateClosure rs)

/-- The file-scope rules that can decide whether a limitation rule matches, in topological
order. -/
def limitationGateRules (rs : RuleSet) : List Rule := (rs.rulesByScope .file).filter (inGate rs)

/-- The outcome of matching at file scope. -/
structure FileCapabilities where
  features : FeatureSet
  results : MatchResults
  featureCount : ℕ := 0

section Find

variable {φ β ι : Type}

/-- The file-scope feature set: the file features, cached or extracted, then the globals. -/
def fileScopeFeatureSet (extractor : StaticFeatureExtractor φ β ι)
    (cachedFileFeatures : Option (List FeatureWithAddress)) (globals : List FeatureWithAddress) :
    Throws FeatureSet := do
  let features ← match cachedFileFeatures with
    | some features => pure features
    | none => extractor.extractFileFeatures
  return (FeatureSet.empty.addAll features).addAll globals

/-- Run the whole file scope. The `Expected` it returns always holds a value. -/
def findFileCapabilities (E : RegexEngine) (rs : RuleSet)
    (extractor : StaticFeatureExtractor φ β ι)
    (cachedFileFeatures : Option (List FeatureWithAddress)) : Throws FileCapabilities := do
  let globals ← extractor.extractGlobalFeatures
  let fs ← fileScopeFeatureSet extractor cachedFileFeatures globals
  let base ← extractor.getBaseAddress
  let (mergedFs, results) ← rs.match_ E .file fs base
  return { features := mergedFs, results := results, featureCount := mergedFs.size }

/-- Run only the limitation gate rather than the whole file scope. -/
def findLimitationCapabilities (E : RegexEngine) (rs : RuleSet)
    (extractor : StaticFeatureExtractor φ β ι)
    (cachedFileFeatures : Option (List FeatureWithAddress)) : Throws FileCapabilities := do
  let globals ← extractor.extractGlobalFeatures
  let fs ← fileScopeFeatureSet extractor cachedFileFeatures globals
  let base ← extractor.getBaseAddress
  let (mergedFs, results) ← matchRules E base (limitationGateRules rs) fs
  return { features := mergedFs, results := results, featureCount := mergedFs.size }

end Find

/-- A limitation rule matched. -/
def hasStaticLimitation (rs : RuleSet) (fileCaps : FileCapabilities) : Bool :=
  fileCaps.results.any fun e =>
    match rs.find e.1 with
    | none => false
    | some r => isLimitation r

/-! ### The gate is closed -/

section Gate

variable {rs : RuleSet}

theorem find_eq_some_iff (h : rs.Built) {name : Str} {r : Rule} :
    rs.find name = some r ↔ r ∈ rs.rules ∧ r.name = name :=
  h.indexed.get?_byName_iff

/-- A rule is referenced when it bears one of the references. -/
theorem mem_referencedRules_iff (h : rs.Built) {r : Rule} (hr : r ∈ rs.rules) {n : Str} :
    n ∈ referencedRules rs r.name ↔
      ∃ d ∈ rs.rules, d.name = n ∧ ∃ ref ∈ collectMatchRefs r.statement, ref ∈ d.injectedNames := by
  rw [referencedRules, (find_eq_some_iff h).mpr ⟨hr, rfl⟩]
  simp only [List.mem_flatMap, List.mem_map, List.mem_append, Option.mem_toList,
    find_eq_some_iff h, RuleSet.rulesInNamespace, h.indexed.mem_byNamespace_iff,
    Rule.injectedNames, List.mem_cons]
  constructor
  · rintro ⟨ref, href, d, ⟨hd, rfl⟩ | ⟨hd, hspace⟩, rfl⟩
    · exact ⟨d, hd, rfl, _, href, Or.inl rfl⟩
    · exact ⟨d, hd, rfl, ref, href, Or.inr hspace⟩
  · rintro ⟨d, hd, rfl, ref, href, rfl | hspace⟩
    · exact ⟨d.name, href, d, Or.inl ⟨hd, rfl⟩, rfl⟩
    · exact ⟨ref, href, d, Or.inr ⟨hd, hspace⟩, rfl⟩

private theorem referencedRules_subset (h : rs.Built) :
    ∀ n ∈ rs.rules.map Rule.name, referencedRules rs n ⊆ rs.rules.map Rule.name := by
  intro n hn m hm
  obtain ⟨r, hr, rfl⟩ := List.mem_map.mp hn
  obtain ⟨d, hd, rfl, -⟩ := (mem_referencedRules_iff h hr).mp hm
  exact List.mem_map_of_mem hd

private theorem limitationSeeds_subset (h : rs.Built) :
    limitationSeeds rs ⊆ rs.rules.map Rule.name := by
  intro n hn
  obtain ⟨r, hr, rfl⟩ := List.mem_map.mp hn
  exact List.mem_map_of_mem (h.mem_rulesByScope_iff.mp (List.mem_filter.mp hr).1).1

/-- Every limitation rule of the file scope is in the gate. -/
theorem inGate_of_isLimitation (h : rs.Built) {r : Rule} (hr : r ∈ rs.rulesByScope .file)
    (hlim : isLimitation r) : inGate rs r := by
  refine decide_eq_true (Worklist.seeds_subset_closure (referencedRules_subset h)
    (limitationSeeds_subset h) ?_)
  exact List.mem_map_of_mem (List.mem_filter.mpr ⟨hr, hlim⟩)

/-- **The gate holds every rule that injects a name one of its rules references.** -/
theorem mem_gate_of_injects (h : rs.Built) {r d : Rule} (hr : r ∈ rs.rules) (hd : d ∈ rs.rules)
    (hgate : inGate rs r) {ref : Str} (href : ref ∈ collectMatchRefs r.statement)
    (hinj : ref ∈ d.injectedNames) : inGate rs d := by
  refine decide_eq_true (Worklist.succ_subset_closure (referencedRules_subset h)
    (limitationSeeds_subset h) (of_decide_eq_true hgate) ?_)
  exact (mem_referencedRules_iff h hr).mpr ⟨d, hd, rfl, ref, href, hinj⟩

end Gate

/-! ### The verdict -/

section Verdict

variable {rs : RuleSet} {E : RegexEngine} {addr : Address}

/-- The names no rule of the gate references. -/
def unreferenced (rs : RuleSet) : Set Str :=
  {n | ∀ r ∈ limitationGateRules rs, n ∉ collectMatchRefs r.statement}

/-- The gate yields the outcomes the whole file scope yields for its rules. -/
theorem run_limitationGateRules (h : rs.Built) (fs : FeatureSet) :
    ((matchSystem E addr).run (limitationGateRules rs) fs).2 =
      ((matchSystem E addr).run (rs.rulesByScope .file) fs).2.filter fun p => inGate rs p.1 := by
  have hmem : ∀ r ∈ rs.rulesByScope .file, r ∈ rs.rules ∧ r.scope = .file :=
    fun r => h.mem_rulesByScope_iff.mp
  refine RuleSystem.run_filter_simulates _ (R := FeatureSet.AgreeOff (unreferenced rs))
    ?_ ?_ ?_ (FeatureSet.AgreeOff.refl _ fs)
  · intro r hr hgate gs hs hagree
    refine fire_agree hagree fun ref href hn => ?_
    exact hn r (List.mem_filter.mpr ⟨hr, hgate⟩) href
  · exact fun r _ _ gs hs hagree => agreeOff_indexRuleMatches_both hagree r addr
  · intro r hr hskip gs hs hagree
    refine hagree.trans ((agreeOff_indexRuleMatches hs r [addr]).mono ?_).symm
    intro n hn g hg href
    obtain ⟨hg, hgate⟩ := List.mem_filter.mp hg
    have := mem_gate_of_injects h (hmem g hg).1 (hmem r hr).1 hgate href hn
    rw [hskip] at this
    cases this

private theorem recorded_of_mem_run {rules : List Rule} {fs : FeatureSet} {p : Rule × Result}
    (hp : p ∈ ((matchSystem E addr).run rules fs).2) : p.1 ∈ rules := by
  obtain ⟨_, _, heq, -⟩ := RuleSystem.fire_of_mem_run _ hp
  exact heq ▸ List.mem_append_right _ List.mem_cons_self

/-- The verdict in terms of the rules that fired. -/
private theorem hasStaticLimitation_iff (h : rs.Built) {rules : List Rule}
    (hrules : ∀ r ∈ rules, r ∈ rs.rules) {fs gs : FeatureSet} {n : ℕ} :
    hasStaticLimitation rs
        ⟨gs, recordAll addr [] ((matchSystem E addr).run rules fs).2, n⟩ ↔
      ∃ p ∈ ((matchSystem E addr).run rules fs).2, isLimitation p.1 := by
  simp only [hasStaticLimitation, List.any_eq_true]
  constructor
  · rintro ⟨e, he, hlim⟩
    have hkey : (AssocList.get? e.1
        (recordAll addr [] ((matchSystem E addr).run rules fs).2)).isSome :=
      (AssocList.isSome_get? _ _).mpr ⟨e, he, BEq.rfl⟩
    obtain ⟨p, hp, hname⟩ := ((isSome_get?_recordAll _ _ _ _).mp hkey).resolve_right (by simp)
    have hmem := hrules _ (recorded_of_mem_run hp)
    rw [(find_eq_some_iff h).mpr ⟨hmem, hname⟩] at hlim
    exact ⟨p, hp, hlim⟩
  · rintro ⟨p, hp, hlim⟩
    have hkey := (isSome_get?_recordAll addr [] _ p.1.name).mpr (Or.inl ⟨p, hp, rfl⟩)
    obtain ⟨e, he, hname⟩ := (AssocList.isSome_get? _ _).mp hkey
    refine ⟨e, he, ?_⟩
    have hmem := hrules _ (recorded_of_mem_run hp)
    rw [(find_eq_some_iff h).mpr ⟨hmem, (eq_of_beq hname).symm⟩]
    exact hlim

/-- A rule of the gate is recorded alike in both. -/
private theorem get?_recordAll_gate (h : rs.Built) {r : Rule} (hr : r ∈ limitationGateRules rs)
    (fs : FeatureSet) :
    AssocList.get? r.name
        (recordAll addr [] ((matchSystem E addr).run (limitationGateRules rs) fs).2) =
      AssocList.get? r.name
        (recordAll addr [] ((matchSystem E addr).run (rs.rulesByScope .file) fs).2) := by
  set fired := ((matchSystem E addr).run (rs.rulesByScope .file) fs).2 with hfired
  obtain ⟨hr, hgate⟩ := List.mem_filter.mp hr
  -- only the rule itself is recorded under its name
  have hkeep : ∀ p ∈ fired, p.1.name = r.name → inGate rs p.1 := by
    intro p hp hname
    have hp' := (h.mem_rulesByScope_iff.mp (recorded_of_mem_run hp)).1
    rwa [h.indexed.eq_of_name hp' (h.mem_rulesByScope_iff.mp hr).1 hname]
  have hlist := get?_recordAll addr [] fired r.name
  have hlist' := get?_recordAll addr [] (fired.filter fun p => inGate rs p.1) r.name
  have hsome : (AssocList.get? r.name
        (recordAll addr [] (fired.filter fun p => inGate rs p.1))).isSome ↔
      (AssocList.get? r.name (recordAll addr [] fired)).isSome := by
    rw [isSome_get?_recordAll, isSome_get?_recordAll]
    refine or_congr_left ⟨fun ⟨p, hp, hname⟩ => ⟨p, List.mem_of_mem_filter hp, hname⟩, ?_⟩
    exact fun ⟨p, hp, hname⟩ => ⟨p, List.mem_filter.mpr ⟨hp, hkeep p hp hname⟩, hname⟩
  have hfilter : ((fired.filter fun p => inGate rs p.1).filter fun p => p.1.name == r.name) =
      fired.filter fun p => p.1.name == r.name := by
    rw [List.filter_filter]
    refine List.filter_congr fun p hp => ?_
    rw [Bool.and_eq_left_iff_imp]
    exact fun hname => hkeep p hp (eq_of_beq hname)
  rw [hfilter, ← hlist] at hlist'
  rw [run_limitationGateRules h, ← hfired]
  cases hget : AssocList.get? r.name (recordAll addr [] fired) with
  | none =>
    rw [hget] at hsome
    exact Option.not_isSome_iff_eq_none.mp fun hs => absurd (hsome.mp hs) (by simp)
  | some entries =>
    rw [hget] at hsome hlist'
    obtain ⟨entries', hget'⟩ := Option.isSome_iff_exists.mp (hsome.mpr rfl)
    rw [hget'] at hlist' ⊢
    exact congrArg some hlist'

/-- The gate has the verdict of the whole file scope. -/
private theorem hasStaticLimitation_gate (h : rs.Built) {fs gs gs' : FeatureSet} {n n' : ℕ} :
    hasStaticLimitation rs
        ⟨gs, recordAll addr [] ((matchSystem E addr).run (limitationGateRules rs) fs).2, n⟩ =
      hasStaticLimitation rs
        ⟨gs', recordAll addr [] ((matchSystem E addr).run (rs.rulesByScope .file) fs).2, n'⟩ := by
  have hfile : ∀ r ∈ rs.rulesByScope .file, r ∈ rs.rules :=
    fun r hr => (h.mem_rulesByScope_iff.mp hr).1
  have hgate : ∀ r ∈ limitationGateRules rs, r ∈ rs.rules :=
    fun r hr => hfile r (List.mem_of_mem_filter hr)
  rw [Bool.eq_iff_iff, hasStaticLimitation_iff h hgate, hasStaticLimitation_iff h hfile,
    run_limitationGateRules h]
  refine ⟨fun ⟨p, hp, hlim⟩ => ⟨p, List.mem_of_mem_filter hp, hlim⟩, fun ⟨p, hp, hlim⟩ => ?_⟩
  exact ⟨p, List.mem_filter.mpr ⟨hp, inGate_of_isLimitation h (recorded_of_mem_run hp) hlim⟩, hlim⟩

/-- Both searches throw alike, or match the gate and the whole file scope on one set. -/
private theorem find_cases {φ β ι : Type} (h : rs.Built)
    (extractor : StaticFeatureExtractor φ β ι)
    (cachedFileFeatures : Option (List FeatureWithAddress)) :
    (∃ t, findFileCapabilities E rs extractor cachedFileFeatures = .error t ∧
      findLimitationCapabilities E rs extractor cachedFileFeatures = .error t) ∨
    ∃ base fs gs gs',
      findFileCapabilities E rs extractor cachedFileFeatures = .ok
        ⟨gs, recordAll base [] ((matchSystem E base).run (rs.rulesByScope .file) fs).2, gs.size⟩ ∧
      findLimitationCapabilities E rs extractor cachedFileFeatures = .ok
        ⟨gs', recordAll base [] ((matchSystem E base).run (limitationGateRules rs) fs).2,
          gs'.size⟩ := by
  have hfree := h.subscopeFree_rulesByScope .file
  have hfree' : ∀ r ∈ limitationGateRules rs, r.statement.SubscopeFree :=
    fun r hr => hfree r (List.mem_of_mem_filter hr)
  simp only [findFileCapabilities, findLimitationCapabilities, h.match_eq, matchRules_eq hfree,
    matchRules_eq hfree']
  cases extractor.extractGlobalFeatures with
  | error t => exact Or.inl ⟨t, rfl, rfl⟩
  | ok globals =>
    simp only [bind, Except.bind]
    cases fileScopeFeatureSet extractor cachedFileFeatures globals with
    | error t => exact Or.inl ⟨t, rfl, rfl⟩
    | ok fs =>
      cases extractor.getBaseAddress with
      | error t => exact Or.inl ⟨t, rfl, rfl⟩
      | ok base => exact Or.inr ⟨base, fs, _, _, rfl, rfl⟩

end Verdict

/-- **The gate decides like the whole file scope.** For every built corpus, extractor and cached
features both searches throw the same exception, or both return, with the same verdict and with the
same results for every rule of the gate. -/
theorem limitation_verdict {φ β ι : Type} {rules : List (Option Rule)} {rs : RuleSet}
    (h : RuleSet.fromRules rules = .ok rs) (E : RegexEngine)
    (extractor : StaticFeatureExtractor φ β ι)
    (cachedFileFeatures : Option (List FeatureWithAddress)) :
    (∃ t, findFileCapabilities E rs extractor cachedFileFeatures = .error t ∧
      findLimitationCapabilities E rs extractor cachedFileFeatures = .error t) ∨
    ∃ fileCaps gateCaps,
      findFileCapabilities E rs extractor cachedFileFeatures = .ok fileCaps ∧
      findLimitationCapabilities E rs extractor cachedFileFeatures = .ok gateCaps ∧
      hasStaticLimitation rs gateCaps = hasStaticLimitation rs fileCaps ∧
      ∀ r ∈ limitationGateRules rs,
        AssocList.get? r.name gateCaps.results = AssocList.get? r.name fileCaps.results := by
  have hbuilt := RuleSet.built_of_fromRules h
  rcases find_cases hbuilt extractor cachedFileFeatures with
    hthrow | ⟨base, fs, gs, gs', hfile, hgate⟩
  · exact Or.inl hthrow
  · exact Or.inr ⟨_, _, hfile, hgate, hasStaticLimitation_gate hbuilt,
      fun r hr => get?_recordAll_gate hbuilt hr fs⟩

/-- The limitation rule `a` references `b`, which matches; `z` is left out of the gate. -/
theorem limitation_verdict_gate :
    let a := Rule.plain (str "a") .file (some (str "internal/limitation/static/x"))
      (.feature (Feature.matchedRule (str "b")))
    let b := Rule.plain (str "b") .file none (.feature { value := .section_ (str "x") })
    let z := Rule.plain (str "z") .file none (.feature { value := .section_ (str "y") })
    let extractor : StaticFeatureExtractor Unit Unit Unit :=
      { getBaseAddress := .ok .noAddress
        extractGlobalFeatures := .ok []
        extractFileFeatures := .ok [({ value := .section_ (str "x") }, .fileOffset 0)]
        getFunctions := .ok []
        extractFunctionFeatures := fun _ => .ok []
        getBasicBlocks := fun _ => .ok []
        extractBasicBlockFeatures := fun _ _ => .ok []
        getInstructions := fun _ _ => .ok []
        extractInsnFeatures := fun _ _ _ => .ok [] }
    ∃ rs, RuleSet.fromRules [some a, some b, some z] = .ok rs ∧
      (limitationGateRules rs).map Rule.name = [str "b", str "a"] ∧
      ∃ fileCaps gateCaps,
        findFileCapabilities noRegex rs extractor none = .ok fileCaps ∧
        findLimitationCapabilities noRegex rs extractor none = .ok gateCaps ∧
        hasStaticLimitation rs gateCaps = hasStaticLimitation rs fileCaps := by
  intro a b z extractor
  obtain ⟨rs, h, hgate, hfile⟩ : ∃ rs, RuleSet.fromRules [some a, some b, some z] = .ok rs ∧
      (limitationGateRules rs).map Rule.name = [str "b", str "a"] ∧
      (findFileCapabilities noRegex rs extractor none).toOption.isSome := by
    decide +kernel
  refine ⟨rs, h, hgate, ?_⟩
  rcases limitation_verdict h noRegex extractor none with ⟨t, ht, -⟩ | ⟨fc, gc, hfc, hgc, heq, -⟩
  · rw [ht] at hfile
    cases hfile
  · exact ⟨fc, gc, hfc, hgc, heq⟩

end Papa.Capabilities
