import Papa.Rules.TopologicalSort

/-!
# The match cycle of a scope

Matching a scope of a built corpus prunes its rules with the feature index and runs the cycle over
the rest. The outcome is that of the unpruned cycle. It is stable (a rule is recorded exactly when
it holds on the final set) as long as every rule that can inject a name comes before the rules that
reference the name.

## Main definitions

* `Papa.Rules.Rule.SelfReferring`: a rule that references itself.
* `Papa.Rules.Rule.ReferencesOrdered`, `Papa.Rules.NamespacesOrdered`: references that are also a
  rule name miss no dependency.
* `Papa.Rules.StableMatch`: the outcome of a cycle is stable.

## Main results

* `Papa.Rules.RuleSet.Built.match_eq`: the cycle runs over all rules of the scope.
* `Papa.Rules.match_eq_matchRules`, `Papa.Rules.stableMatch_of_namespacesOrdered`.
-/

namespace Papa.Rules

open Features Engine

namespace RuleSet.Built

variable {rs : RuleSet}

theorem rulesByScope_eq (h : rs.Built) (scope : Scope) :
    rs.rulesByScope scope = scopeOrder rs.rules rs.index scope :=
  orderedRules_eq h.sorted scope

theorem scopeAcyclic (h : rs.Built) (scope : Scope) : ScopeAcyclic rs.rules scope :=
  (exists_topologicallySort_iff h.indexed).mp ⟨_, h.sorted⟩ scope

theorem mem_rulesByScope_iff (h : rs.Built) {scope : Scope} {r : Rule} :
    r ∈ rs.rulesByScope scope ↔ r ∈ rs.rules ∧ r.scope = scope := by
  rw [h.rulesByScope_eq, (perm_scopeOrder h.indexed (h.scopeAcyclic scope)).mem_iff,
    List.mem_filter, decide_eq_true_iff]

theorem nodup_rulesByScope (h : rs.Built) (scope : Scope) : (rs.rulesByScope scope).Nodup := by
  rw [h.rulesByScope_eq]
  exact nodup_scopeOrder h.indexed scope

theorem subscopeFree_rulesByScope (h : rs.Built) (scope : Scope) :
    ∀ r ∈ rs.rulesByScope scope, r.statement.SubscopeFree :=
  fun r hr => h.subscopeFree r (h.mem_rulesByScope_iff.mp hr).1

/-- A direct or indirect dependency comes first. -/
theorem mem_before (h : rs.Built) {scope : Scope} {before after : List Rule} {d r : Rule}
    (heq : rs.rulesByScope scope = before ++ r :: after)
    (hd : Relation.TransGen (DependencyOf rs.rules) d r) : d ∈ before := by
  rw [h.rulesByScope_eq] at heq
  induction hd generalizing before after with
  | single hd => exact dependencyOf_mem_before h.indexed heq hd
  | tail _ hd ih =>
    obtain ⟨before', between, rfl⟩ :=
      List.append_of_mem (dependencyOf_mem_before h.indexed heq hd)
    rw [List.append_assoc, List.cons_append] at heq
    exact List.mem_append_left _ (ih heq)

/-- **Matching a scope** runs the cycle over all its rules. -/
theorem match_eq (h : rs.Built) (E : RegexEngine) (scope : Scope) (fs : FeatureSet)
    (addr : Address) :
    rs.match_ E scope fs addr = matchRules E addr (rs.rulesByScope scope) fs := by
  have hfree := h.subscopeFree_rulesByScope scope
  rw [match_, h.indexByScope, AssocList.get?_map, rulesByScope] at *
  cases hget : AssocList.get? scope rs.byScopeTopo with
  | none => rfl
  | some rules =>
    rw [hget] at hfree
    exact RuleFeatureIndex.matchRules_select hfree fs

end RuleSet.Built

/-- **Pruning never changes a match.** On every corpus the build accepts, the pruned match of a
scope has the outcome of the cycle over all rules of the scope. -/
theorem match_eq_matchRules {rules : List (Option Rule)} {rs : RuleSet}
    (h : RuleSet.fromRules rules = .ok rs) (E : RegexEngine) (scope : Scope) (fs : FeatureSet)
    (addr : Address) :
    rs.match_ E scope fs addr = matchRules E addr (rs.rulesByScope scope) fs :=
  (RuleSet.built_of_fromRules h).match_eq E scope fs addr

theorem match_eq_matchRules_pair :
    let b := Rule.plain (str "b") .function none (.feature { value := .api (str "x") })
    let a := Rule.plain (str "a") .function none (.feature (Feature.matchedRule (str "b")))
    ∃ rs, RuleSet.fromRules [some a, some b] = .ok rs ∧
      ∀ E fs addr, rs.match_ E .function fs addr =
        matchRules E addr (rs.rulesByScope .function) fs := by
  intro b a
  obtain ⟨rs, h⟩ := Expected.exists_ok (x := RuleSet.fromRules [some a, some b]) (by decide +kernel)
  exact ⟨rs, h, fun E fs addr => match_eq_matchRules h E .function fs addr⟩

/-! ### Stability -/

/-- A reference of the rule names the rule itself or one of its namespaces. -/
def Rule.SelfReferring (r : Rule) : Prop :=
  ∃ ref ∈ collectMatchRefs r.statement, ref ∈ r.injectedNames

/-- A reference of the rule that is at once the name of a rule and a namespace of a rule of the same
scope misses no dependency: the rule with that namespace is a direct or indirect dependency all the
same. -/
def Rule.ReferencesOrdered (rules : List Rule) (r : Rule) : Prop :=
  ∀ ref ∈ collectMatchRefs r.statement, (∃ q ∈ rules, q.name = ref) →
    ∀ d ∈ rules, d.scope = r.scope → ref ∈ d.namespaceHierarchy →
      Relation.TransGen (DependencyOf rules) d r

/-- No rule of the scope misses a dependency, those that reference themselves aside. -/
def NamespacesOrdered (rules : List Rule) (scope : Scope) : Prop :=
  ∀ r ∈ rules, r.scope = scope → ¬r.SelfReferring → r.ReferencesOrdered rules

/-- The match of a scope returns, and a rule of the scope that does not reference itself is
recorded exactly when its statement is true on the final set. -/
def StableMatch (rs : RuleSet) (E : RegexEngine) (scope : Scope) (fs : FeatureSet)
    (addr : Address) : Prop :=
  ∃ final out, rs.match_ E scope fs addr = .ok (final, out) ∧
    ∀ r ∈ rs.rulesByScope scope, ¬r.SelfReferring →
      ((AssocList.get? r.name out).isSome ↔ r.statement.evaluateQuick E final = .ok true)

instance (r : Rule) : Decidable r.SelfReferring :=
  inferInstanceAs (Decidable (∃ ref ∈ collectMatchRefs r.statement, ref ∈ r.injectedNames))

instance (rs : RuleSet) (E : RegexEngine) (scope : Scope) (fs : FeatureSet) (addr : Address) :
    Decidable (StableMatch rs E scope fs addr) :=
  decidable_of_iff (∃ res, rs.match_ E scope fs addr = .ok res ∧
    ∀ r ∈ rs.rulesByScope scope, ¬r.SelfReferring →
      ((AssocList.get? r.name res.2).isSome ↔ r.statement.evaluateQuick E res.1 = .ok true))
    Prod.exists

namespace RuleSet.Built

variable {rs : RuleSet}

/-- A rule that can inject a name comes before the rules that reference it. -/
theorem injector_mem_before (h : rs.Built) {scope : Scope} {before after : List Rule} {r : Rule}
    (heq : rs.rulesByScope scope = before ++ r :: after) (hself : ¬r.SelfReferring)
    (hordered : r.ReferencesOrdered rs.rules) {ref : Str}
    (href : ref ∈ collectMatchRefs r.statement) {d : Rule} (hd : d ∈ rs.rulesByScope scope)
    (hinj : ref ∈ d.injectedNames) : d ∈ before := by
  have hmem : r ∈ rs.rulesByScope scope := heq ▸ List.mem_append_right _ List.mem_cons_self
  obtain ⟨hr, rfl⟩ := h.mem_rulesByScope_iff.mp hmem
  obtain ⟨hd, hdscope⟩ := h.mem_rulesByScope_iff.mp hd
  have hne : d ≠ r := by
    rintro rfl
    exact hself ⟨ref, href, hinj⟩
  have hdep (hres : ResolvesTo rs.rules ref d) : DependencyOf rs.rules d r :=
    ⟨hd, hr, hdscope, hne, ref, href, hres⟩
  refine h.mem_before heq ?_
  rcases List.mem_cons.mp hinj with hname | hspace
  · exact .single (hdep (Or.inl hname.symm))
  · by_cases hnamed : ∃ q ∈ rs.rules, q.name = ref
    · exact hordered ref href hnamed d hd hdscope hspace
    · push Not at hnamed
      exact .single (hdep (Or.inr ⟨hnamed, hspace⟩))

/-- A rule that misses no dependency has fired exactly when it holds on the final set. -/
theorem exists_mem_run_iff (h : rs.Built) {scope : Scope} {r : Rule}
    (hr : r ∈ rs.rulesByScope scope) (hself : ¬r.SelfReferring)
    (hordered : r.ReferencesOrdered rs.rules) (E : RegexEngine) (fs : FeatureSet)
    (addr : Address) :
    (∃ o, (r, o) ∈ ((matchSystem E addr).run (rs.rulesByScope scope) fs).2) ↔
      r.statement.holds E ((matchSystem E addr).run (rs.rulesByScope scope) fs).1 := by
  obtain ⟨before, after, heq⟩ := List.append_of_mem hr
  have hnodup : (before ++ r :: after).Nodup := heq ▸ h.nodup_rulesByScope scope
  -- no rule from the turn of `r` on injects a name `r` references
  have hstable : ∀ r' ∈ r :: after, ∀ gs, (matchSystem E addr).Fires r
      ((matchSystem E addr).inject r' gs) ↔ (matchSystem E addr).Fires r gs := by
    intro r' hr' gs
    have hrefs : ∀ ref ∈ collectMatchRefs r.statement, ref ∉ injectedSet r' := by
      intro ref href hinj
      have hmem : r' ∈ rs.rulesByScope scope := heq ▸ List.mem_append_right _ hr'
      exact hnodup.disjoint (h.injector_mem_before heq hself hordered href hmem hinj) hr'
    change ((matchSystem E addr).fire r (indexRuleMatches gs r' [addr])).isSome ↔ _
    rw [fire_agree (agreeOff_indexRuleMatches gs r' [addr]) hrefs, RuleSystem.Fires]
  have hrun := RuleSystem.exists_mem_run_iff (matchSystem E addr) hnodup hstable fs
  rwa [← heq, fires_iff (h.subscopeFree_rulesByScope scope r hr)] at hrun

/-- A rule that fired is told by its name. -/
theorem exists_mem_run_name_iff (h : rs.Built) {scope : Scope} {r : Rule}
    (hr : r ∈ rs.rulesByScope scope) (E : RegexEngine) (fs : FeatureSet) (addr : Address) :
    (∃ p ∈ ((matchSystem E addr).run (rs.rulesByScope scope) fs).2, p.1.name = r.name) ↔
      ∃ o, (r, o) ∈ ((matchSystem E addr).run (rs.rulesByScope scope) fs).2 := by
  constructor
  · rintro ⟨⟨r', o⟩, hp, hname⟩
    obtain ⟨_, _, hr', -⟩ := RuleSystem.fire_of_mem_run _ hp
    have hmem : r' ∈ rs.rulesByScope scope := hr' ▸ List.mem_append_right _ List.mem_cons_self
    have hrules := (h.mem_rulesByScope_iff.mp hmem).1
    cases h.indexed.eq_of_name hrules (h.mem_rulesByScope_iff.mp hr).1 hname
    exact ⟨o, hp⟩
  · rintro ⟨o, ho⟩
    exact ⟨(r, o), ho, rfl⟩

/-- Matching a scope in which no dependency is missed is stable. -/
theorem stableMatch (h : rs.Built) {scope : Scope} (hns : NamespacesOrdered rs.rules scope)
    (E : RegexEngine) (fs : FeatureSet) (addr : Address) : StableMatch rs E scope fs addr := by
  have hfree := h.subscopeFree_rulesByScope scope
  rw [StableMatch, h.match_eq, matchRules_eq hfree]
  refine ⟨_, _, rfl, fun r hr hself => ?_⟩
  obtain ⟨hmem, hscope⟩ := h.mem_rulesByScope_iff.mp hr
  have hrun := h.exists_mem_run_iff hr hself (hns r hmem hscope hself) E fs addr
  rw [isSome_get?_recordAll, h.exists_mem_run_name_iff hr, hrun,
    Statement.evaluateQuick_eq (hfree r hr), Except.ok.injEq]
  exact or_iff_left nofun

end RuleSet.Built

/-- **Matching is stable** when no dependency is missed, for every set the cycle starts from. -/
theorem stableMatch_of_namespacesOrdered {rules : List (Option Rule)} {rs : RuleSet}
    (h : RuleSet.fromRules rules = .ok rs) {scope : Scope}
    (hns : NamespacesOrdered rs.rules scope) (E : RegexEngine) (fs : FeatureSet)
    (addr : Address) : StableMatch rs E scope fs addr :=
  (RuleSet.built_of_fromRules h).stableMatch hns E fs addr

/-- An engine that finds nothing. -/
def noRegex : RegexEngine where
  compiles _ _ := true
  search _ _ _ := false

/-- `b` is a rule and a namespace, and `a` references `z` too, which orders it after `z`. -/
theorem stableMatch_of_namespacesOrdered_named :
    let b := Rule.plain (str "b") .file none (.feature { value := .api (str "y") })
    let z := Rule.plain (str "z") .function (some (str "b")) (.feature { value := .api (str "x") })
    let a := Rule.plain (str "a") .function none
      (.or [some (.feature (Feature.matchedRule (str "b"))),
        some (.feature (Feature.matchedRule (str "z")))])
    let fs := FeatureSet.empty.add { value := .api (str "x") } .noAddress
    ∃ rs, RuleSet.fromRules [some a, some b, some z] = .ok rs ∧
      StableMatch rs noRegex .function fs .noAddress := by
  intro b z a fs
  obtain ⟨rs, h, hnamed⟩ : ∃ rs, RuleSet.fromRules [some a, some b, some z] = .ok rs ∧
      ∀ r ∈ rs.rules, ∀ ref ∈ collectMatchRefs r.statement, ∀ d ∈ rs.rules,
        ref ∈ d.namespaceHierarchy → d.scope = r.scope ∧ d.name ≠ r.name ∧
          d.name ∈ collectMatchRefs r.statement := by
    decide +kernel
  refine ⟨rs, h, stableMatch_of_namespacesOrdered h ?_ noRegex fs .noAddress⟩
  intro r hr _ _ ref href _ d hd _ hspace
  obtain ⟨hscope, hne, hdref⟩ := hnamed r hr ref href d hd hspace
  exact .single ⟨hd, hr, hscope, fun heq => hne (congrArg Rule.name heq), _, hdref, Or.inl rfl⟩

/-- `a` references `b`, at once a rule of the file scope and the namespace of `z`. It is evaluated
before `z`, which then makes its statement true. -/
theorem not_stableMatch_namespace :
    let b := Rule.plain (str "b") .file none (.feature { value := .api (str "y") })
    let z := Rule.plain (str "z") .function (some (str "b")) (.feature { value := .api (str "x") })
    let a := Rule.plain (str "a") .function none (.feature (Feature.matchedRule (str "b")))
    let fs := FeatureSet.empty.add { value := .api (str "x") } .noAddress
    (∀ e ∈ fs.entries, e.1.tag ≠ .matchedRule) ∧
      ∃ rs, RuleSet.fromRules [some a, some b, some z] = .ok rs ∧
        ¬StableMatch rs noRegex .function fs .noAddress := by
  decide +kernel

end Papa.Rules
