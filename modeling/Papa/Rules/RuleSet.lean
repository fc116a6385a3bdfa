import Papa.Library.TopologicalSort
import Papa.Rules.Extraction
import Papa.Rules.FeatureIndex
import Papa.Rules.Optimizer

/-!
# Rule sets

Building a corpus from parsed rules: extract subscopes, optimize, index by name and namespace, drop
rules with an unresolved reference, index again, order each scope, and index each scope by needed
features. Rules are pointers in the source; once indexed a rule is identified by its name.

## Main definitions

* `Papa.Rules.NameIndex`, `Papa.Rules.indexRules`: rules by name and by namespace.
* `Papa.Rules.validateDependencies`: drop rules with unresolved references.
* `Papa.Rules.topologicallySort`: order the rules of every scope.
* `Papa.Rules.RuleSet`, with `Papa.Rules.RuleSet.fromRules` and `Papa.Rules.RuleSet.match_`.
* `Papa.Rules.Indexed`, `Papa.Rules.RuleSet.Built`: what indexing and building establish.

## Main results

* `Papa.Rules.indexRules_ok_iff`: when indexing succeeds.
* `Papa.Rules.Indexed.mem_resolve_iff`: what a reference resolves to.
* `Papa.Rules.RuleSet.built_of_fromRules`.
-/

namespace Papa.Rules

open Features Engine

/-! ### Indexing by name -/

/-- The rules by name, and under every prefix of their namespaces. -/
structure NameIndex where
  byName : List (Str × Rule) := []
  byNamespace : List (Str × List Rule) := []

/-- Register a rule under its name and namespaces. -/
def NameIndex.add (ix : NameIndex) (r : Rule) : NameIndex where
  byName := ix.byName ++ [(r.name, r)]
  byNamespace := AssocList.pushAll (r.namespaceHierarchy.map fun ns => (ns, r)) ix.byNamespace

/-- The loop of `indexRules`. -/
def indexRulesFrom : List Rule → NameIndex → Expected NameIndex
  | [], ix => .ok ix
  | r :: rules, ix =>
    if r.name.isEmpty then .error ⟨.invalidRule, str "encountered rule with empty name"⟩
    else if (AssocList.get? r.name ix.byName).isSome then
      .error ⟨.invalidRule, str "duplicate rule name: " ++ r.name⟩
    else indexRulesFrom rules (ix.add r)

/-- Index rules by name and namespace; names must be nonempty and unique. -/
def indexRules (rules : List Rule) : Expected NameIndex := indexRulesFrom rules {}

/-- The rules a reference resolves to: a rule name first, otherwise a namespace. -/
def NameIndex.resolve (ix : NameIndex) (ref : Str) : List Rule :=
  match AssocList.get? ref ix.byName with
  | some r => [r]
  | none => (AssocList.get? ref ix.byNamespace).getD []

/-! ### Dependencies -/

/-- The reference names a rule or a namespace. -/
def NameIndex.resolved (ix : NameIndex) (ref : Str) : Bool :=
  (AssocList.get? ref ix.byName).isSome || (AssocList.get? ref ix.byNamespace).isSome

/-- Drop the rules whose match references cannot be resolved and index the others again. -/
def validateDependencies (rules : List Rule) (ix : NameIndex) :
    Expected (List Rule × NameIndex) := do
  let kept := rules.filter fun r => (collectMatchRefs r.statement).all ix.resolved
  let ix ← indexRules kept
  return (kept, ix)

/-- The names of the other rules of a group that the references of a rule resolve to, each once. -/
def dependencies (ix : NameIndex) (group : List Rule) (r : Rule) : List Str :=
  ((collectMatchRefs r.statement).flatMap ix.resolve).foldl
    (fun deps dep =>
      if dep.name = r.name then deps
      else if !group.any (·.name = dep.name) then deps
      else if dep.name ∈ deps then deps
      else deps ++ [dep.name]) []

/-- The dependency graph of a group. -/
def adjacency (ix : NameIndex) (group : List Rule) : Kahn.Adjacency Str :=
  group.map fun r => (r.name, dependencies ix group r)

/-- The rules of a list with the given names, in the order of the names. -/
def pick (group : List Rule) (names : List Str) : List Rule :=
  names.filterMap fun n => group.find? fun r => r.name = n

/-- The rules of a group by name. -/
def sortByName (group : List Rule) : List Rule := group.insertionSort fun a b => a.name ≤ b.name

/-- The output of Kahn's algorithm on a group, ties broken by name. -/
def orderGroup (ix : NameIndex) (group : List Rule) : List Rule :=
  let group := sortByName group
  pick group (Kahn.sort (adjacency ix group))

/-- Order one scope; a rule left out of the output is on a cycle or behind one. -/
def sortScope (ix : NameIndex) (scope : Scope) (group : List Rule) : Expected (List Rule) :=
  let sorted := orderGroup ix group
  if sorted.length ≠ group.length then
    .error ⟨.cycle, str "dependency cycle in scope: " ++ scope.toString⟩
  else .ok sorted

/-- Group rules by static scope. -/
def groupByScope (rules : List Rule) : List (Scope × List Rule) :=
  AssocList.pushAll (rules.map fun r => (r.scope, r)) []

/-- Order every scope; the first scope with a cycle fails the whole. -/
def sortScopes (ix : NameIndex) : List (Scope × List Rule) → Expected (List (Scope × List Rule))
  | [] => .ok []
  | (scope, group) :: groups => do
    let sorted ← sortScope ix scope group
    let rest ← sortScopes ix groups
    return (scope, sorted) :: rest

/-- The topologically ordered rules of each scope. -/
def topologicallySort (rules : List Rule) (ix : NameIndex) :
    Expected (List (Scope × List Rule)) :=
  sortScopes ix (groupByScope rules)

/-! ### Rule sets -/

/-- A built corpus: the rules, including synthetic ones, and the indices over them. -/
structure RuleSet where
  rules : List Rule
  index : NameIndex
  byScopeTopo : List (Scope × List Rule)
  indexByScope : List (Scope × RuleFeatureIndex)

/-- The optimizer step of `fromRules`. -/
def optimizeRule (r : Rule) : Rule := { r with statement := optimize r.statement }

/-- The rules after extraction and optimization. -/
def prepare (rules : List Rule) : List Rule := (extractSubscopeRules rules).map optimizeRule

namespace RuleSet

/-- Build a corpus from a list of parsed rules. Every step skips null entries, so they are left out
at once. -/
def fromRules (rules : List (Option Rule)) : Expected RuleSet := do
  let rules := prepare rules.reduceOption
  let ix ← indexRules rules
  let (rules, ix) ← validateDependencies rules ix
  let topo ← topologicallySort rules ix
  return {
    rules := rules
    index := ix
    byScopeTopo := topo
    indexByScope := topo.map fun e => (e.1, RuleFeatureIndex.build e.2) }

/-- Look up a rule by exact name. -/
def find (rs : RuleSet) (name : Str) : Option Rule := AssocList.get? name rs.index.byName

/-- The rules under a namespace, in registration order. -/
def rulesInNamespace (rs : RuleSet) (ns : Str) : List Rule :=
  (AssocList.get? ns rs.index.byNamespace).getD []

/-- The topologically ordered rules of a scope, none when no rule is registered there. -/
def rulesByScope (rs : RuleSet) (scope : Scope) : List Rule :=
  (AssocList.get? scope rs.byScopeTopo).getD []

/-- Run the match cycle of a scope on the rules its feature index selects. -/
def match_ (rs : RuleSet) (E : RegexEngine) (scope : Scope) (fs : FeatureSet) (addr : Address) :
    Throws (FeatureSet × MatchResults) :=
  match AssocList.get? scope rs.indexByScope with
  | none => matchRules E addr (rs.rulesByScope scope) fs
  | some index => matchRules E addr (index.select fs) fs

end RuleSet

/-! ### What indexing establishes -/

/-- An index is the one of a list of rules with nonempty unique names. -/
structure Indexed (rules : List Rule) (ix : NameIndex) : Prop where
  name_ne : ∀ r ∈ rules, r.name ≠ []
  nodup : (rules.map Rule.name).Nodup
  byName : ix.byName = rules.map fun r => (r.name, r)
  byNamespace : ix.byNamespace =
    AssocList.pushAll (rules.flatMap fun r => r.namespaceHierarchy.map fun ns => (ns, r)) []

private theorem indexRulesFrom_ok_iff {done rules : List Rule} {ix ix' : NameIndex}
    (h : Indexed done ix) :
    indexRulesFrom rules ix = .ok ix' ↔ Indexed (done ++ rules) ix' := by
  induction rules generalizing done ix with
  | nil =>
    rw [List.append_nil, indexRulesFrom, Except.ok.injEq]
    constructor
    · rintro rfl
      exact h
    · intro h'
      exact congrArg₂ NameIndex.mk (h.byName.trans h'.byName.symm)
        (h.byNamespace.trans h'.byNamespace.symm)
  | cons r rules ih =>
    rw [indexRulesFrom]
    have hdup : (AssocList.get? r.name ix.byName).isSome ↔ r.name ∈ done.map Rule.name := by
      rw [AssocList.isSome_get?, h.byName]
      simp only [List.mem_map, exists_exists_and_eq_and, beq_iff_eq]
    split_ifs with hempty hsome
    · refine ⟨nofun, fun h' => ?_⟩
      exact absurd (List.isEmpty_iff.mp hempty) (h'.name_ne r (by simp))
    · refine ⟨nofun, fun h' => ?_⟩
      have hnodup := h'.nodup
      rw [List.map_append, List.map_cons] at hnodup
      exact absurd List.mem_cons_self fun hmem => hnodup.disjoint (hdup.mp hsome) hmem
    · have hadd : Indexed (done ++ [r]) (ix.add r) := by
        refine ⟨?_, ?_, ?_, ?_⟩
        · intro q hq
          rcases List.mem_append.mp hq with hq | hq
          · exact h.name_ne q hq
          · rw [List.mem_singleton.mp hq]
            exact fun hnil => hempty (List.isEmpty_iff.mpr hnil)
        · rw [List.map_append]
          refine h.nodup.append (List.nodup_singleton _) fun n hn hn' => ?_
          rw [List.map_singleton, List.mem_singleton] at hn'
          exact hsome (hdup.mpr (hn' ▸ hn))
        · rw [NameIndex.add, h.byName, List.map_append, List.map_singleton]
        · rw [NameIndex.add, h.byNamespace, ← AssocList.pushAll_append, List.flatMap_append,
            List.flatMap_singleton]
      rw [ih hadd, List.append_assoc, List.singleton_append]

/-- **Indexing succeeds** exactly with the index of rules whose names are nonempty and unique. -/
theorem indexRules_ok_iff {rules : List Rule} {ix : NameIndex} :
    indexRules rules = .ok ix ↔ Indexed rules ix := by
  have hempty : Indexed [] {} :=
    ⟨fun r hr => absurd hr List.not_mem_nil, List.nodup_nil, rfl, rfl⟩
  exact indexRulesFrom_ok_iff hempty

/-- Rules with nonempty unique names can be indexed. -/
theorem exists_indexed {rules : List Rule} (hne : ∀ r ∈ rules, r.name ≠ [])
    (hnodup : (rules.map Rule.name).Nodup) : ∃ ix, Indexed rules ix :=
  ⟨⟨_, _⟩, hne, hnodup, rfl, rfl⟩

namespace Indexed

variable {rules : List Rule} {ix : NameIndex}

/-- A rule is identified by its name. -/
theorem eq_of_name (h : Indexed rules ix) {r r' : Rule} (hr : r ∈ rules) (hr' : r' ∈ rules)
    (hname : r.name = r'.name) : r = r' :=
  List.inj_on_of_nodup_map h.nodup hr hr' hname

theorem get?_byName_iff (h : Indexed rules ix) {n : Str} {r : Rule} :
    AssocList.get? n ix.byName = some r ↔ r ∈ rules ∧ r.name = n := by
  rw [h.byName]
  constructor
  · intro hget
    have hmem := AssocList.mem_of_get?_eq_some hget
    obtain ⟨q, hq, heq⟩ := List.mem_map.mp hmem
    cases heq
    exact ⟨hq, rfl⟩
  · rintro ⟨hr, rfl⟩
    refine AssocList.get?_of_mem ?_ (List.mem_map_of_mem hr)
    rw [List.map_map]
    exact h.nodup

theorem get?_byName_eq_none_iff (h : Indexed rules ix) {n : Str} :
    AssocList.get? n ix.byName = none ↔ ∀ r ∈ rules, r.name ≠ n := by
  rw [Option.eq_none_iff_forall_ne_some]
  simp only [ne_eq, h.get?_byName_iff, not_and]

theorem mem_byNamespace_iff (h : Indexed rules ix) {ns : Str} {r : Rule} :
    r ∈ (AssocList.get? ns ix.byNamespace).getD [] ↔
      r ∈ rules ∧ ns ∈ r.namespaceHierarchy := by
  rw [h.byNamespace, AssocList.get?_pushAll]
  simp only [AssocList.get?_nil, Option.getD_none, List.nil_append, List.mem_map, List.mem_filter,
    List.mem_flatMap, beq_iff_eq, Prod.exists, Prod.mk.injEq]
  constructor
  · rintro ⟨_, _, ⟨⟨q, hq, ns', hns', rfl, rfl⟩, rfl⟩, rfl⟩
    exact ⟨hq, hns'⟩
  · rintro ⟨hr, hns⟩
    exact ⟨ns, r, ⟨⟨r, hr, ns, hns, rfl, rfl⟩, rfl⟩, rfl⟩

theorem isSome_byNamespace_iff (h : Indexed rules ix) {ns : Str} :
    (AssocList.get? ns ix.byNamespace).isSome ↔ ∃ r ∈ rules, ns ∈ r.namespaceHierarchy := by
  rw [h.byNamespace, AssocList.isSome_get?_pushAll]
  simp only [AssocList.get?_nil, Option.isSome_none, Bool.false_eq_true, or_false,
    List.mem_flatMap, List.mem_map, beq_iff_eq]
  constructor
  · rintro ⟨_, ⟨r, hr, ns', hns', rfl⟩, rfl⟩
    exact ⟨r, hr, hns'⟩
  · rintro ⟨r, hr, hns⟩
    exact ⟨(ns, r), ⟨r, hr, ns, hns, rfl⟩, rfl⟩

end Indexed

/-- Some rule of the list bears the reference, as its name or as a namespace. -/
def Bears (rules : List Rule) (ref : Str) : Prop := ∃ r ∈ rules, ref ∈ r.injectedNames

/-- The reference resolves to the rule: it is its name, or no rule has that name and it is one of
its namespaces. -/
def ResolvesTo (rules : List Rule) (ref : Str) (d : Rule) : Prop :=
  d.name = ref ∨ ((∀ r ∈ rules, r.name ≠ ref) ∧ ref ∈ d.namespaceHierarchy)

namespace Indexed

variable {rules : List Rule} {ix : NameIndex}

/-- **What a reference resolves to.** -/
theorem mem_resolve_iff (h : Indexed rules ix) {ref : Str} {d : Rule} :
    d ∈ ix.resolve ref ↔ d ∈ rules ∧ ResolvesTo rules ref d := by
  rw [NameIndex.resolve, ResolvesTo]
  cases hget : AssocList.get? ref ix.byName with
  | some r =>
    obtain ⟨hr, rfl⟩ := h.get?_byName_iff.mp hget
    simp only [List.mem_singleton]
    constructor
    · rintro rfl
      exact ⟨hr, Or.inl rfl⟩
    · rintro ⟨hd, hname | ⟨hnone, -⟩⟩
      · exact h.eq_of_name hd hr hname
      · exact absurd rfl (hnone r hr)
  | none =>
    have hnone := h.get?_byName_eq_none_iff.mp hget
    rw [h.mem_byNamespace_iff]
    refine and_congr_right fun hd => ?_
    rw [or_iff_right (hnone d hd), and_iff_right hnone]

theorem resolved_iff (h : Indexed rules ix) {ref : Str} :
    ix.resolved ref ↔ Bears rules ref := by
  have hname : (AssocList.get? ref ix.byName).isSome ↔ ∃ r ∈ rules, r.name = ref := by
    rw [Option.isSome_iff_exists]
    simp only [h.get?_byName_iff]
  rw [NameIndex.resolved, Bool.or_eq_true, hname, h.isSome_byNamespace_iff, Bears]
  simp only [Rule.injectedNames, List.mem_cons, and_or_left, exists_or, eq_comm (a := ref)]

end Indexed

/-- All references of a rule are borne by some rule of the list. -/
def Resolved (rules : List Rule) (r : Rule) : Prop :=
  ∀ ref ∈ collectMatchRefs r.statement, Bears rules ref

instance (rules : List Rule) (r : Rule) : Decidable (Resolved rules r) :=
  inferInstanceAs (Decidable (∀ ref ∈ collectMatchRefs r.statement,
    ∃ d ∈ rules, ref ∈ d.injectedNames))

theorem groupByScope_nodup (rules : List Rule) : ((groupByScope rules).map Prod.fst).Nodup :=
  AssocList.nodup_keys_pushAll _ List.nodup_nil

/-- The group of a scope lists the rules of that scope in order. -/
theorem get?_groupByScope (rules : List Rule) (scope : Scope) :
    (AssocList.get? scope (groupByScope rules)).getD [] = rules.filter (·.scope = scope) := by
  rw [groupByScope, AssocList.get?_pushAll, List.filter_map, List.map_map]
  simp only [AssocList.get?_nil, Option.getD_none, List.nil_append]
  exact List.map_id _

/-! ### Built corpora -/

namespace RuleSet

/-- What the steps of `fromRules` establish of a corpus. -/
structure Built (rs : RuleSet) : Prop where
  subscopeFree : ∀ r ∈ rs.rules, r.statement.SubscopeFree
  indexed : Indexed rs.rules rs.index
  sorted : topologicallySort rs.rules rs.index = .ok rs.byScopeTopo
  indexByScope : rs.indexByScope = rs.byScopeTopo.map fun e => (e.1, RuleFeatureIndex.build e.2)

/-- The steps of a successful build. -/
theorem fromRules_ok {rules : List (Option Rule)} {rs : RuleSet} (h : fromRules rules = .ok rs) :
    ∃ ix, Indexed (prepare rules.reduceOption) ix ∧
      rs.rules = (prepare rules.reduceOption).filter
        (fun r => (collectMatchRefs r.statement).all ix.resolved) ∧
      Indexed rs.rules rs.index ∧ topologicallySort rs.rules rs.index = .ok rs.byScopeTopo ∧
      rs.indexByScope = rs.byScopeTopo.map fun e => (e.1, RuleFeatureIndex.build e.2) := by
  simp only [fromRules, validateDependencies] at h
  cases hix : indexRules (prepare rules.reduceOption) with
  | error e => simp [hix, bind, Except.bind] at h
  | ok ix =>
    set kept := (prepare rules.reduceOption).filter
      (fun r => (collectMatchRefs r.statement).all ix.resolved) with hkept
    cases hix' : indexRules kept with
    | error e => simp [hix, ← hkept, hix', bind, Except.bind] at h
    | ok ix' =>
      cases htopo : topologicallySort kept ix' with
      | error e => simp [hix, ← hkept, hix', htopo, bind, Except.bind, pure, Except.pure] at h
      | ok topo =>
        simp only [hix, ← hkept, hix', htopo, bind, Except.bind, pure, Except.pure,
          Except.ok.injEq] at h
        subst h
        exact ⟨ix, indexRules_ok_iff.mp hix, hkept, indexRules_ok_iff.mp hix', htopo, rfl⟩

/-- The rules kept are those of the prepared list all of whose references are borne in it. -/
theorem mem_rules_of_fromRules {rules : List (Option Rule)} {rs : RuleSet}
    (h : fromRules rules = .ok rs) {r : Rule} :
    r ∈ rs.rules ↔
      r ∈ prepare rules.reduceOption ∧ Resolved (prepare rules.reduceOption) r := by
  obtain ⟨ix, hix, hrules, -⟩ := fromRules_ok h
  rw [hrules, List.mem_filter, List.all_eq_true]
  simp only [hix.resolved_iff, Resolved]

theorem subscopeFree_prepare {rules : List Rule} {r : Rule} (h : r ∈ prepare rules) :
    r.statement.SubscopeFree := by
  obtain ⟨q, hq, rfl⟩ := List.mem_map.mp h
  exact subscopeFree_optimize (subscopeFree_extractSubscopeRules hq)

theorem built_of_fromRules {rules : List (Option Rule)} {rs : RuleSet}
    (h : fromRules rules = .ok rs) : rs.Built := by
  obtain ⟨ix, -, -, hindexed, hsorted, hindex⟩ := fromRules_ok h
  refine ⟨fun r hr => ?_, hindexed, hsorted, hindex⟩
  exact subscopeFree_prepare ((mem_rules_of_fromRules h).mp hr).1

end RuleSet

end Papa.Rules
