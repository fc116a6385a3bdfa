import Papa.Rules.RuleSet

/-!
# The topological order of a scope

The order of a scope is the output of Kahn's algorithm on the graph of its rules, entered by name
and with the least name first in the queue, so it depends only on the set of rules.

## Main definitions

* `Papa.Rules.DependencyOf`: a rule another rule of the same scope depends on.
* `Papa.Rules.ScopeAcyclic`: no rule of the scope reaches itself through dependencies.
* `Papa.Rules.orderedRules`: the order of one scope.

## Main results

* `Papa.Rules.orderedRules_eq`: the order of a scope is that of its group.
* `Papa.Rules.perm_orderGroup_iff`, `Papa.Rules.dependencyOf_mem_before`.
* `Papa.Rules.topologicallySort_correct`.
-/

namespace Papa.Rules

open Engine

/-- Both rules are of the list and of one scope, and a reference of `r` resolves to `d`, which is
another rule. -/
def DependencyOf (rules : List Rule) (d r : Rule) : Prop :=
  d ∈ rules ∧ r ∈ rules ∧ d.scope = r.scope ∧ d ≠ r ∧
    ∃ ref ∈ collectMatchRefs r.statement, ResolvesTo rules ref d

/-- The dependency graph of the scope has no cycle. -/
def ScopeAcyclic (rules : List Rule) (scope : Scope) : Prop :=
  ∀ r, r.scope = scope → ¬Relation.TransGen (DependencyOf rules) r r

/-- The order of one scope in the result of the sort. -/
def orderedRules (topo : List (Scope × List Rule)) (scope : Scope) : List Rule :=
  (AssocList.get? scope topo).getD []

/-! ### The graph of a group -/

section Group

variable {rules : List Rule} {ix : NameIndex} {group : List Rule}

/-- The loop over the resolved references keeps each name once, and drops the rule itself and the
rules of other scopes. -/
private theorem foldl_dependencies (r : Rule) (resolved : List Rule) {deps : List Str}
    (hdeps : deps.Nodup) :
    (resolved.foldl (fun deps dep =>
      if dep.name = r.name then deps
      else if !group.any (·.name = dep.name) then deps
      else if dep.name ∈ deps then deps
      else deps ++ [dep.name]) deps).Nodup ∧
    ∀ n, n ∈ resolved.foldl (fun deps dep =>
      if dep.name = r.name then deps
      else if !group.any (·.name = dep.name) then deps
      else if dep.name ∈ deps then deps
      else deps ++ [dep.name]) deps ↔
        n ∈ deps ∨ ∃ d ∈ resolved, d.name = n ∧ d.name ≠ r.name ∧ ∃ q ∈ group, q.name = d.name := by
  induction resolved generalizing deps with
  | nil => simp [hdeps]
  | cons d resolved ih =>
    simp only [List.foldl_cons, List.mem_cons, exists_eq_or_imp]
    have hany : (!group.any (·.name = d.name)) = true ↔ ¬∃ q ∈ group, q.name = d.name := by
      simp
    split_ifs with hself hscope hmem
    · obtain ⟨hnodup, hiff⟩ := ih hdeps
      refine ⟨hnodup, fun n => (hiff n).trans (or_congr_right ?_)⟩
      exact (or_iff_right fun h => h.2.1 hself).symm
    · obtain ⟨hnodup, hiff⟩ := ih hdeps
      refine ⟨hnodup, fun n => (hiff n).trans (or_congr_right ?_)⟩
      exact (or_iff_right fun h => hany.mp hscope h.2.2).symm
    · obtain ⟨hnodup, hiff⟩ := ih hdeps
      refine ⟨hnodup, fun n => (hiff n).trans ?_⟩
      constructor
      · exact Or.imp_right Or.inr
      · rintro (h | ⟨rfl, -⟩ | h)
        · exact Or.inl h
        · exact Or.inl hmem
        · exact Or.inr h
    · have hnodup' : (deps ++ [d.name]).Nodup :=
        hdeps.append (List.nodup_singleton _) (by simpa using hmem)
      obtain ⟨hnodup, hiff⟩ := ih hnodup'
      refine ⟨hnodup, fun n => (hiff n).trans ?_⟩
      rw [List.mem_append, List.mem_singleton, or_assoc, eq_comm (a := n)]
      have hq : ∃ q ∈ group, q.name = d.name := not_not.mp (mt hany.mpr hscope)
      simp only [ne_eq, hself, not_false_eq_true, hq, and_true]

theorem nodup_dependencies (ix : NameIndex) (group : List Rule) (r : Rule) :
    (dependencies ix group r).Nodup :=
  (foldl_dependencies r _ List.nodup_nil).1

/-- The dependencies of a rule of a scope are the names of its `DependencyOf` rules. -/
theorem mem_dependencies_iff (h : Indexed rules ix) {r : Rule} (hr : r ∈ rules)
    (hgroup : ∀ q, q ∈ group ↔ q ∈ rules ∧ q.scope = r.scope) {n : Str} :
    n ∈ dependencies ix group r ↔ ∃ d, DependencyOf rules d r ∧ d.name = n := by
  rw [dependencies, (foldl_dependencies r _ List.nodup_nil).2]
  simp only [List.not_mem_nil, false_or, List.mem_flatMap, h.mem_resolve_iff]
  constructor
  · rintro ⟨d, ⟨ref, href, hd, hres⟩, hname, hne, q, hq, hqd⟩
    obtain ⟨hqr, hscope⟩ := (hgroup q).mp hq
    cases h.eq_of_name hqr hd hqd
    exact ⟨d, ⟨hd, hr, hscope, fun heq => hne (congrArg Rule.name heq), ref, href, hres⟩, hname⟩
  · rintro ⟨d, ⟨hd, -, hscope, hne, ref, href, hres⟩, hname⟩
    refine ⟨d, ⟨ref, href, hd, hres⟩, hname, fun heq => hne (h.eq_of_name hd hr heq), d, ?_, rfl⟩
    exact (hgroup d).mpr ⟨hd, hscope⟩

end Group

/-! ### One scope -/

/-- The rules of a scope by name. -/
def scopeGroup (rules : List Rule) (scope : Scope) : List Rule :=
  sortByName (rules.filter (·.scope = scope))

section Scope

variable {rules : List Rule} {ix : NameIndex} {scope : Scope}

theorem perm_scopeGroup (rules : List Rule) (scope : Scope) :
    (scopeGroup rules scope).Perm (rules.filter (·.scope = scope)) :=
  List.perm_insertionSort _ _

theorem mem_scopeGroup_iff {q : Rule} :
    q ∈ scopeGroup rules scope ↔ q ∈ rules ∧ q.scope = scope := by
  rw [(perm_scopeGroup rules scope).mem_iff, List.mem_filter, decide_eq_true_iff]

theorem nodup_names_scopeGroup (h : Indexed rules ix) (scope : Scope) :
    ((scopeGroup rules scope).map Rule.name).Nodup := by
  rw [((perm_scopeGroup rules scope).map Rule.name).nodup_iff]
  exact h.nodup.sublist (List.filter_sublist.map _)

private theorem mem_adjacency_iff {group : List Rule} {n : Str} {ds : List Str} :
    (n, ds) ∈ adjacency ix group ↔ ∃ r ∈ group, r.name = n ∧ dependencies ix group r = ds := by
  simp only [adjacency, List.mem_map, Prod.mk.injEq]

theorem vertices_adjacency (ix : NameIndex) (group : List Rule) :
    (adjacency ix group).vertices = group.map Rule.name := by
  rw [Kahn.Adjacency.vertices, adjacency, List.map_map]
  rfl

private theorem mem_dependencies_scopeGroup_iff (h : Indexed rules ix) {r : Rule}
    (hr : r ∈ scopeGroup rules scope) {n : Str} :
    n ∈ dependencies ix (scopeGroup rules scope) r ↔ ∃ d, DependencyOf rules d r ∧ d.name = n := by
  obtain ⟨hmem, rfl⟩ := mem_scopeGroup_iff.mp hr
  exact mem_dependencies_iff h hmem fun q => mem_scopeGroup_iff

theorem wellFormed_adjacency (h : Indexed rules ix) (scope : Scope) :
    Kahn.WellFormed (adjacency ix (scopeGroup rules scope)) where
  nodup := by
    rw [vertices_adjacency]
    exact nodup_names_scopeGroup h scope
  nodup_preds n ds hds := by
    obtain ⟨r, -, -, rfl⟩ := mem_adjacency_iff.mp hds
    exact nodup_dependencies ix _ r
  closed n ds hds m hm := by
    obtain ⟨r, hr, -, rfl⟩ := mem_adjacency_iff.mp hds
    obtain ⟨d, hd, rfl⟩ := (mem_dependencies_scopeGroup_iff h hr).mp hm
    rw [vertices_adjacency]
    have hscope : d.scope = scope := hd.2.2.1.trans (mem_scopeGroup_iff.mp hr).2
    exact List.mem_map_of_mem (mem_scopeGroup_iff.mpr ⟨hd.1, hscope⟩)

/-- The edges of the graph of a scope are the dependencies between its rules. -/
theorem edge_adjacency_iff (h : Indexed rules ix) {n m : Str} :
    Kahn.Edge (adjacency ix (scopeGroup rules scope)) n m ↔
      ∃ d r, DependencyOf rules d r ∧ r.scope = scope ∧ d.name = n ∧ r.name = m := by
  constructor
  · rintro ⟨ds, hds, hn⟩
    obtain ⟨r, hr, rfl, rfl⟩ := mem_adjacency_iff.mp hds
    obtain ⟨d, hd, rfl⟩ := (mem_dependencies_scopeGroup_iff h hr).mp hn
    exact ⟨d, r, hd, (mem_scopeGroup_iff.mp hr).2, rfl, rfl⟩
  · rintro ⟨d, r, hd, hscope, rfl, rfl⟩
    have hr : r ∈ scopeGroup rules scope := mem_scopeGroup_iff.mpr ⟨hd.2.1, hscope⟩
    exact ⟨_, mem_adjacency_iff.mpr ⟨r, hr, rfl, rfl⟩,
      (mem_dependencies_scopeGroup_iff h hr).mpr ⟨d, hd, rfl⟩⟩

/-- The graph of a scope is acyclic exactly when its rules are. -/
theorem acyclic_adjacency_iff (h : Indexed rules ix) :
    Kahn.Acyclic (adjacency ix (scopeGroup rules scope)) ↔ ScopeAcyclic rules scope := by
  constructor
  · intro hacyclic r hscope hcycle
    refine hacyclic r.name ?_
    have hlift {q : Rule} (hq : Relation.TransGen (DependencyOf rules) r q) :
        q.scope = scope ∧
          Relation.TransGen (Kahn.Edge (adjacency ix (scopeGroup rules scope))) r.name q.name := by
      induction hq with
      | single hd =>
        have hq := hd.2.2.1.symm.trans hscope
        exact ⟨hq, .single ((edge_adjacency_iff h).mpr ⟨_, _, hd, hq, rfl, rfl⟩)⟩
      | tail _ hd ih =>
        have hq := hd.2.2.1.symm.trans ih.1
        exact ⟨hq, ih.2.tail ((edge_adjacency_iff h).mpr ⟨_, _, hd, hq, rfl, rfl⟩)⟩
    exact (hlift hcycle).2
  · intro hacyclic n hcycle
    have hlift {m : Str}
        (hm : Relation.TransGen (Kahn.Edge (adjacency ix (scopeGroup rules scope))) n m) :
        ∃ d r, d.name = n ∧ r.name = m ∧ d ∈ rules ∧ r ∈ rules ∧ r.scope = scope ∧
          Relation.TransGen (DependencyOf rules) d r := by
      induction hm with
      | single hedge =>
        obtain ⟨d, r, hd, hscope, rfl, rfl⟩ := (edge_adjacency_iff h).mp hedge
        exact ⟨d, r, rfl, rfl, hd.1, hd.2.1, hscope, .single hd⟩
      | tail _ hedge ih =>
        obtain ⟨d, r, hdn, hrm, hd, hr, -, hpath⟩ := ih
        obtain ⟨r', q, hq, hscope, hr', rfl⟩ := (edge_adjacency_iff h).mp hedge
        cases h.eq_of_name hr hq.1 (hrm.trans hr'.symm)
        exact ⟨d, q, hdn, rfl, hd, hq.2.1, hscope, hpath.tail hq⟩
    obtain ⟨d, r, hdn, hrn, hd, hr, hscope, hpath⟩ := hlift hcycle
    cases h.eq_of_name hd hr (hdn.trans hrn.symm)
    exact hacyclic d hscope hpath

end Scope

/-! ### Picking rules by name -/

theorem map_name_pick {group : List Rule} {names : List Str}
    (h : names ⊆ group.map Rule.name) : (pick group names).map Rule.name = names := by
  induction names with
  | nil => rfl
  | cons n names ih =>
    obtain ⟨hn, hnames⟩ := List.cons_subset.mp h
    obtain ⟨r, hr, hrn⟩ := List.mem_map.mp hn
    cases hfind : group.find? fun r => r.name = n with
    | none => exact absurd (decide_eq_true hrn) (List.find?_eq_none.mp hfind r hr)
    | some q =>
      have hq : q.name = n := by simpa using List.find?_some hfind
      have hcons : pick group (n :: names) = q :: pick group names := by
        simp only [pick, List.filterMap_cons, hfind]
      rw [hcons, List.map_cons, hq, ih hnames]

theorem pick_subset (group : List Rule) (names : List Str) : pick group names ⊆ group := by
  intro r hr
  obtain ⟨n, -, hfind⟩ := List.mem_filterMap.mp hr
  exact List.mem_of_find?_eq_some hfind

/-! ### The order of a group -/

section Order

variable {rules : List Rule} {ix : NameIndex} {scope : Scope}

/-- The order of the rules of a scope. -/
def scopeOrder (rules : List Rule) (ix : NameIndex) (scope : Scope) : List Rule :=
  orderGroup ix (rules.filter (·.scope = scope))

private theorem map_name_scopeOrder (h : Indexed rules ix) (scope : Scope) :
    (scopeOrder rules ix scope).map Rule.name =
      Kahn.sort (adjacency ix (scopeGroup rules scope)) := by
  refine map_name_pick ?_
  rw [← vertices_adjacency ix]
  exact Kahn.sort_subset (wellFormed_adjacency h scope)

private theorem length_scopeOrder (h : Indexed rules ix) (scope : Scope) :
    (scopeOrder rules ix scope).length =
      (Kahn.sort (adjacency ix (scopeGroup rules scope))).length := by
  rw [← map_name_scopeOrder h, List.length_map]

private theorem length_adjacency (rules : List Rule) (ix : NameIndex) (scope : Scope) :
    (adjacency ix (scopeGroup rules scope)).length = (rules.filter (·.scope = scope)).length := by
  rw [adjacency, List.length_map, (perm_scopeGroup rules scope).length_eq]

/-- The order of a scope holds every rule exactly when the scope is acyclic. -/
theorem length_scopeOrder_eq_iff (h : Indexed rules ix) :
    (scopeOrder rules ix scope).length = (rules.filter (·.scope = scope)).length ↔
      ScopeAcyclic rules scope := by
  rw [length_scopeOrder h, ← length_adjacency rules ix, ← acyclic_adjacency_iff h]
  exact Kahn.length_sort_eq_iff (wellFormed_adjacency h scope)

theorem nodup_scopeOrder (h : Indexed rules ix) (scope : Scope) :
    (scopeOrder rules ix scope).Nodup := by
  refine List.Nodup.of_map Rule.name ?_
  rw [map_name_scopeOrder h]
  exact Kahn.nodup_sort (wellFormed_adjacency h scope)

theorem mem_of_mem_scopeOrder {r : Rule} (hr : r ∈ scopeOrder rules ix scope) :
    r ∈ rules ∧ r.scope = scope :=
  mem_scopeGroup_iff.mp (pick_subset _ _ hr)

/-- The order of an acyclic scope is a rearrangement of its rules. -/
theorem perm_scopeOrder (h : Indexed rules ix) (hacyclic : ScopeAcyclic rules scope) :
    (scopeOrder rules ix scope).Perm (rules.filter (·.scope = scope)) := by
  have hsub : scopeOrder rules ix scope ⊆ rules.filter (·.scope = scope) := by
    intro r hr
    obtain ⟨hmem, hscope⟩ := mem_of_mem_scopeOrder hr
    exact List.mem_filter.mpr ⟨hmem, decide_eq_true hscope⟩
  refine ((nodup_scopeOrder h scope).subperm hsub).perm_of_length_le ?_
  exact ((length_scopeOrder_eq_iff h).mpr hacyclic).ge

/-- **Every rule comes after its dependencies.** -/
theorem dependencyOf_mem_before (h : Indexed rules ix) {before after : List Rule} {r d : Rule}
    (heq : scopeOrder rules ix scope = before ++ r :: after) (hd : DependencyOf rules d r) :
    d ∈ before := by
  have hmem := @mem_of_mem_scopeOrder rules ix scope
  have hr : r ∈ scopeOrder rules ix scope := heq ▸ List.mem_append_right _ List.mem_cons_self
  have hnames : Kahn.sort (adjacency ix (scopeGroup rules scope)) =
      before.map Rule.name ++ r.name :: after.map Rule.name := by
    rw [← map_name_scopeOrder h, heq, List.map_append, List.map_cons]
  have hedge : Kahn.Edge (adjacency ix (scopeGroup rules scope)) d.name r.name :=
    (edge_adjacency_iff h).mpr ⟨d, r, hd, (hmem hr).2, rfl, rfl⟩
  obtain ⟨q, hq, hqd⟩ := List.mem_map.mp
    (Kahn.ordered_sort (wellFormed_adjacency h scope) _ _ _ hnames _ hedge)
  have hq' : q ∈ scopeOrder rules ix scope := heq ▸ List.mem_append_left _ hq
  rwa [← h.eq_of_name (hmem hq').1 hd.1 hqd]

/-- Rules with the same dependencies elsewhere in the list: only the set of rules matters. -/
theorem dependencyOf_perm {rules' : List Rule} (hperm : rules'.Perm rules) {d r : Rule} :
    DependencyOf rules' d r ↔ DependencyOf rules d r := by
  simp only [DependencyOf, ResolvesTo, hperm.mem_iff]

/-- **The order depends only on the set of rules.** -/
theorem scopeOrder_perm {rules' : List Rule} {ix' : NameIndex} (h : Indexed rules ix)
    (h' : Indexed rules' ix') (hperm : rules'.Perm rules) (scope : Scope) :
    scopeOrder rules' ix' scope = scopeOrder rules ix scope := by
  have htotal : ∀ a b : Rule, a.name ≤ b.name ∨ b.name ≤ a.name := fun a b => le_total _ _
  have hgroup : scopeGroup rules' scope = scopeGroup rules scope := by
    have hsorted (l : List Rule) : (sortByName l).Pairwise fun a b => a.name ≤ b.name := by
      have htrans : IsTrans Rule fun a b => a.name ≤ b.name := ⟨fun _ _ _ => le_trans⟩
      have htotal' : Std.Total fun a b : Rule => a.name ≤ b.name := ⟨htotal⟩
      exact List.pairwise_insertionSort _ l
    refine List.Perm.eq_of_pairwise (fun a b ha hb hab hba => ?_) (hsorted _) (hsorted _) ?_
    · have ha' := hperm.mem_iff.mp (mem_scopeGroup_iff.mp ha).1
      exact h.eq_of_name ha' (mem_scopeGroup_iff.mp hb).1 (le_antisymm hab hba)
    · exact (perm_scopeGroup rules' scope).trans
        ((hperm.filter _).trans (perm_scopeGroup rules scope).symm)
  have hsort : Kahn.sort (adjacency ix' (scopeGroup rules' scope)) =
      Kahn.sort (adjacency ix (scopeGroup rules scope)) := by
    refine Kahn.sort_congr (wellFormed_adjacency h' scope) (wellFormed_adjacency h scope) ?_
    rw [adjacency, adjacency, hgroup, List.forall₂_map_left_iff, List.forall₂_map_right_iff,
      List.forall₂_same]
    refine fun r hr => ⟨rfl, ?_⟩
    refine (List.perm_ext_iff_of_nodup (nodup_dependencies ix' _ r)
      (nodup_dependencies ix _ r)).mpr fun n => ?_
    rw [mem_dependencies_scopeGroup_iff h hr, ← hgroup,
      mem_dependencies_scopeGroup_iff h' (hgroup ▸ hr)]
    simp only [dependencyOf_perm hperm]
  change pick (scopeGroup rules' scope) (Kahn.sort (adjacency ix' (scopeGroup rules' scope))) =
    pick (scopeGroup rules scope) (Kahn.sort (adjacency ix (scopeGroup rules scope)))
  rw [hsort, hgroup]

end Order

/-! ### All scopes -/

private theorem sortScopes_ok_iff {ix : NameIndex} {groups topo : List (Scope × List Rule)} :
    sortScopes ix groups = .ok topo ↔
      (∀ g ∈ groups, (orderGroup ix g.2).length = g.2.length) ∧
        topo = groups.map fun g => (g.1, orderGroup ix g.2) := by
  induction groups generalizing topo with
  | nil => simp [sortScopes, eq_comm]
  | cons g groups ih =>
    rw [sortScopes, sortScope]
    by_cases hlen : (orderGroup ix g.2).length = g.2.length
    · simp only [hlen, ne_eq, not_true_eq_false, ↓reduceIte, List.mem_cons, forall_eq_or_imp,
        true_and, List.map_cons]
      cases hrest : sortScopes ix groups with
      | error e =>
        have hnot := fun topo' => mt (@ih topo').mpr (by rw [hrest]; nofun)
        refine ⟨nofun, fun ⟨hall, _⟩ => ?_⟩
        exact absurd ⟨hall, rfl⟩ (hnot _)
      | ok rest =>
        obtain ⟨hall, rfl⟩ := ih.mp hrest
        refine ⟨fun heq => ⟨hall, ?_⟩, fun ⟨_, heq⟩ => ?_⟩
        · cases heq
          rfl
        · rw [heq]
          rfl
    · refine ⟨fun heq => ?_, fun ⟨hall, _⟩ => absurd (hall g List.mem_cons_self) hlen⟩
      simp only [ne_eq, hlen, not_false_eq_true, ↓reduceIte, bind, Except.bind] at heq
      cases heq

section Scopes

variable {rules : List Rule} {ix : NameIndex} {topo : List (Scope × List Rule)}

/-- The order of each scope in the result of the sort. -/
theorem orderedRules_eq (h : topologicallySort rules ix = .ok topo) (scope : Scope) :
    orderedRules topo scope = scopeOrder rules ix scope := by
  obtain ⟨-, rfl⟩ := sortScopes_ok_iff.mp h
  have hgroup := get?_groupByScope rules scope
  rw [orderedRules, AssocList.get?_map, scopeOrder, ← hgroup]
  cases AssocList.get? scope (groupByScope rules) <;> rfl

/-- The sort succeeds exactly when every scope is acyclic. -/
theorem exists_topologicallySort_iff (h : Indexed rules ix) :
    (∃ topo, topologicallySort rules ix = .ok topo) ↔ ∀ scope, ScopeAcyclic rules scope := by
  have hgroups : ∀ g ∈ groupByScope rules, g.2 = rules.filter (·.scope = g.1) := by
    intro g hg
    rw [← get?_groupByScope, AssocList.get?_of_mem (groupByScope_nodup rules) hg, Option.getD_some]
  constructor
  · rintro ⟨topo, htopo⟩ scope r hscope hcycle
    have hall := (sortScopes_ok_iff.mp htopo).1
    -- a rule on a cycle puts its scope among the groups
    have hr : r ∈ rules := by
      obtain ⟨q, hq, -⟩ := Relation.TransGen.head'_iff.mp hcycle
      exact hq.1
    have hmem : r ∈ (AssocList.get? scope (groupByScope rules)).getD [] := by
      rw [get?_groupByScope]
      exact List.mem_filter.mpr ⟨hr, decide_eq_true hscope⟩
    cases hget : AssocList.get? scope (groupByScope rules) with
    | none => simp [hget] at hmem
    | some group =>
      have hg := AssocList.mem_of_get?_eq_some hget
      have hlen := hall _ hg
      rw [hgroups _ hg] at hlen
      exact (length_scopeOrder_eq_iff h).mp hlen r hscope hcycle
  · intro hacyclic
    refine ⟨_, sortScopes_ok_iff.mpr ⟨fun g hg => ?_, rfl⟩⟩
    rw [hgroups g hg]
    exact (length_scopeOrder_eq_iff h).mpr (hacyclic g.1)

end Scopes

/-- **The topological sort is correct.** It succeeds exactly when every scope is acyclic; then each
rule is listed once in its own scope and after the rules it depends on, and the lists are the same
for every permutation of the rules. -/
theorem topologicallySort_correct {rules : List Rule} {ix : NameIndex}
    (h : indexRules rules = .ok ix) :
    ((∃ topo, topologicallySort rules ix = .ok topo) ↔ ∀ scope, ScopeAcyclic rules scope) ∧
    ∀ topo, topologicallySort rules ix = .ok topo →
      (∀ scope, (orderedRules topo scope).Perm (rules.filter (·.scope = scope)) ∧
        (orderedRules topo scope).Nodup ∧
        ∀ before r after, orderedRules topo scope = before ++ r :: after →
          ∀ d, DependencyOf rules d r → d ∈ before) ∧
      ∀ rules', rules'.Perm rules → ∃ ix' topo', indexRules rules' = .ok ix' ∧
        topologicallySort rules' ix' = .ok topo' ∧
        ∀ scope, orderedRules topo' scope = orderedRules topo scope := by
  have hindexed := indexRules_ok_iff.mp h
  refine ⟨exists_topologicallySort_iff hindexed, fun topo htopo => ?_⟩
  have hacyclic := (exists_topologicallySort_iff hindexed).mp ⟨topo, htopo⟩
  refine ⟨fun scope => ?_, fun rules' hperm => ?_⟩
  · rw [orderedRules_eq htopo]
    exact ⟨perm_scopeOrder hindexed (hacyclic scope), nodup_scopeOrder hindexed scope,
      fun before r after heq d hd => dependencyOf_mem_before hindexed heq hd⟩
  · obtain ⟨ix', hix'⟩ : ∃ ix', Indexed rules' ix' := exists_indexed
      (fun r hr => hindexed.name_ne r (hperm.mem_iff.mp hr))
      ((hperm.map Rule.name).nodup_iff.mpr hindexed.nodup)
    have hacyclic' : ∀ scope, ScopeAcyclic rules' scope := by
      have hle : DependencyOf rules' ≤ DependencyOf rules :=
        fun d q => (dependencyOf_perm hperm).mp
      intro scope r hscope hcycle
      exact hacyclic scope r hscope (Relation.TransGen.mono hle r r hcycle)
    obtain ⟨topo', htopo'⟩ := (exists_topologicallySort_iff hix').mpr hacyclic'
    refine ⟨ix', topo', indexRules_ok_iff.mpr hix', htopo', fun scope => ?_⟩
    rw [orderedRules_eq htopo', orderedRules_eq htopo]
    exact scopeOrder_perm hindexed hix' hperm scope

theorem topologicallySort_correct_pair :
    let b := Rule.plain (str "b") .function none (.feature { value := .api (str "x") })
    let a := Rule.plain (str "a") .function none (.feature (Features.Feature.matchedRule (str "b")))
    ∃ ix topo, indexRules [a, b] = .ok ix ∧ topologicallySort [a, b] ix = .ok topo ∧
      orderedRules topo .function = [b, a] ∧ ∀ scope, ScopeAcyclic [a, b] scope :=
  ⟨_, _, rfl, rfl, rfl, (topologicallySort_correct rfl).1.mp ⟨_, rfl⟩⟩

end Papa.Rules
