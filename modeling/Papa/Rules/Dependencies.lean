import Papa.Library.Dangling
import Papa.Rules.RuleSet

/-!
# Validation of dependencies

Validation drops, in one pass, every rule with a reference that no rule of the list bears. Dropping
a rule may take away the only bearer of a reference of a rule that was kept, which the pass does
not look at again. What the given rules reference and bear decides whether it does. A rule consists
of its own tree and of the trees of its subscopes, each of which becomes a rule that its parent
references; so a reference that nobody bears drops a subscope and leaves its parent.

## Main definitions

* `Papa.Rules.Closed`: every reference of a rule of the list is borne in the list.
* `Papa.Rules.IsPart`: the trees of the given rules, with the names they bear.
* `Papa.Rules.Broken`, `Papa.Rules.Dangles`: the parts with a reference that no part bears, and
  those with one whose bearers all dangle.

## Main results

* `Papa.Rules.closed_fromRules_iff`.
* `Papa.Rules.closed_of_all_resolved`: nothing dangles when nothing is dropped.
-/

namespace Papa.Engine

open Rules

mutual

/-- The subscopes of a tree that are in no other subscope, in pre-order. -/
def Statement.subscopes : Statement → List (Scope × Statement)
  | .and kids => subscopesKids kids
  | .or kids => subscopesKids kids
  | .not s => s.subscopes
  | .someOf _ kids => subscopesKids kids
  | .range _ _ _ => []
  | .subscope scope inner => [(scope, inner)]
  | .feature _ => []

/-- The subscopes below a list of child slots. -/
def subscopesKids : List (Option Statement) → List (Scope × Statement)
  | [] => []
  | none :: kids => subscopesKids kids
  | some s :: kids => s.subscopes ++ subscopesKids kids

end

end Papa.Engine

namespace Papa.Rules

open Features Engine

/-! ### What extraction makes of the subscopes -/

/-- The rules that the subscope with a number becomes. -/
def spawned (parentName : Str) (sub : (Scope × Statement) × ℕ) : List Rule :=
  let synName := syntheticName parentName sub.2
  (extractSubscopesIn sub.1.2 synName 0).2.2 ++
    [subscopeRule parentName synName sub.1.1 (extractSubscopesIn sub.1.2 synName 0).1]

/-- A tree whose rewriting is told by its subscopes, numbered from the counter. -/
def ExtractedFrom (refs refs' : List Str) (subs : List (Scope × Statement)) (parentName : Str)
    (counter : ℕ) (counter' : ℕ) (rules : List Rule) : Prop :=
  counter' = counter + subs.length ∧
    rules = (subs.zipIdx counter).flatMap (spawned parentName) ∧
    ∀ ref, ref ∈ refs' ↔
      ref ∈ refs ∨ ∃ sub ∈ subs.zipIdx counter, ref = syntheticName parentName sub.2

private theorem extractedFrom_kids {kids : List (Option Statement)}
    (h : ∀ s, some s ∈ kids → ∀ p c, ExtractedFrom (collectMatchRefs s)
      (collectMatchRefs (extractSubscopesIn s p c).1) s.subscopes p c
      (extractSubscopesIn s p c).2.1 (extractSubscopesIn s p c).2.2) (p : Str) (c : ℕ) :
    ExtractedFrom (collectMatchRefsKids kids)
      (collectMatchRefsKids (extractSubscopesInKids kids p c).1) (subscopesKids kids) p c
      (extractSubscopesInKids kids p c).2.1 (extractSubscopesInKids kids p c).2.2 := by
  induction kids generalizing c with
  | nil => exact ⟨rfl, rfl, fun ref => by simp [collectMatchRefsKids, extractSubscopesInKids,
      subscopesKids]⟩
  | cons kid kids ih =>
    have htail := ih fun s hs => h s (List.mem_cons_of_mem _ hs)
    cases kid with
    | none => exact htail c
    | some s =>
      obtain ⟨hcounter, hrules, hrefs⟩ := h s List.mem_cons_self p c
      obtain ⟨hcounter', hrules', hrefs'⟩ := htail (c + s.subscopes.length)
      rw [ExtractedFrom, extractSubscopesInKids, subscopesKids]
      dsimp only
      rw [hcounter, List.zipIdx_append]
      refine ⟨?_, ?_, fun ref => ?_⟩
      · rw [hcounter', List.length_append, Nat.add_assoc]
      · rw [hrules, hrules', List.flatMap_append]
      · rw [collectMatchRefsKids, collectMatchRefsKids, List.mem_append, List.mem_append, hrefs,
          hrefs']
        simp only [List.mem_append, or_and_right, exists_or]
        exact or_or_or_comm ..

/-- **What extraction makes of a tree**: the subscopes become rules that the tree references. -/
theorem extractedFrom (s : Statement) (p : Str) (c : ℕ) :
    ExtractedFrom (collectMatchRefs s) (collectMatchRefs (extractSubscopesIn s p c).1) s.subscopes p
      c (extractSubscopesIn s p c).2.1 (extractSubscopesIn s p c).2.2 := by
  induction s using Statement.inductionOn generalizing p c with
  | and kids ih => exact extractedFrom_kids ih p c
  | or kids ih => exact extractedFrom_kids ih p c
  | not s ih => exact ih p c
  | someOf n kids ih => exact extractedFrom_kids ih p c
  | range f min max =>
    exact ⟨rfl, rfl, fun ref => by simp [extractSubscopesIn, Statement.subscopes]⟩
  | subscope scope s ih =>
    refine ⟨rfl, ?_, fun ref => ?_⟩
    · simp [extractSubscopesIn, Statement.subscopes, spawned]
    · change ref ∈ (Feature.matchedRule (syntheticName p c)).matchedName?.toList ↔ _
      simp [Statement.subscopes, collectMatchRefs, Feature.matchedName?, Feature.matchedRule]
  | feature f => exact ⟨rfl, rfl, fun ref => by simp [extractSubscopesIn, Statement.subscopes]⟩

/-! ### The parts of the given rules -/

/-- A tree of a given rule: the names its rule bears, the one its subscopes are named after, and the
tree. -/
structure Part where
  names : Set Str
  name : Str
  tree : Statement

/-- The parts of the given rules: their trees, and the trees of subscopes, which bear the name of
the part they are in with their number. -/
inductive IsPart (rules : List Rule) : Part → Prop
  | rule {r : Rule} (hr : r ∈ rules) : IsPart rules ⟨{n | n ∈ r.injectedNames}, r.name, r.statement⟩
  | subscope {p : Part} (hp : IsPart rules p) {scope : Scope} {inner : Statement} {i : ℕ}
      (hi : ((scope, inner), i) ∈ p.tree.subscopes.zipIdx) :
      IsPart rules ⟨{syntheticName p.name i}, syntheticName p.name i, inner⟩

/-- The references of a part: those of its tree outside the subscopes, and its subscopes. -/
def Part.refs (p : Part) : Set Str :=
  {ref | ref ∈ collectMatchRefs p.tree ∨ ∃ sub ∈ p.tree.subscopes.zipIdx,
    ref = syntheticName p.name sub.2}

/-- A part with a reference that no part bears. -/
def Broken (rules : List Rule) : Part → Prop :=
  Dangling.Broken Part.names Part.refs {p | IsPart rules p}

/-- A part with a reference all of whose bearers dangle. -/
def Dangles (rules : List Rule) : Part → Prop :=
  Dangling.Dangles Part.names Part.refs {p | IsPart rules p}

/-- A rule bears and references what a part does. -/
structure Stands (q : Rule) (p : Part) : Prop where
  names : ∀ n, n ∈ q.injectedNames ↔ n ∈ p.names
  refs : ∀ ref, ref ∈ collectMatchRefs q.statement ↔ ref ∈ p.refs

theorem stands_extracted {q : Rule} {p : Part} (hnames : ∀ n, n ∈ q.injectedNames ↔ n ∈ p.names)
    (hstatement : q.statement = (extractSubscopesIn p.tree p.name 0).1) : Stands q p := by
  refine ⟨hnames, fun ref => ?_⟩
  rw [hstatement]
  exact (extractedFrom p.tree p.name 0).2.2 ref

section Parts

variable {rules : List Rule}

/-- Numbered subscopes of a part of the name. -/
def SubscopesOf (rules : List Rule) (p : Str) (subs : List ((Scope × Statement) × ℕ)) : Prop :=
  ∀ scope inner i, ((scope, inner), i) ∈ subs →
    IsPart rules ⟨{syntheticName p i}, syntheticName p i, inner⟩

private theorem exists_part_of_mem_kids {kids : List (Option Statement)}
    (ih : ∀ s, some s ∈ kids → ∀ p c, SubscopesOf rules p (s.subscopes.zipIdx c) →
      ∀ q ∈ (extractSubscopesIn s p c).2.2, ∃ part, IsPart rules part ∧ Stands q part)
    (p : Str) (c : ℕ) (h : SubscopesOf rules p ((subscopesKids kids).zipIdx c)) :
    ∀ q ∈ (extractSubscopesInKids kids p c).2.2, ∃ part, IsPart rules part ∧ Stands q part := by
  induction kids generalizing c with
  | nil => exact fun q hq => absurd hq List.not_mem_nil
  | cons kid kids ihk =>
    have htail := ihk fun s hs => ih s (List.mem_cons_of_mem _ hs)
    cases kid with
    | none => exact htail c h
    | some s =>
      rw [subscopesKids, List.zipIdx_append] at h
      intro q hq
      rcases List.mem_append.mp hq with hq | hq
      · exact ih s List.mem_cons_self p c
          (fun scope inner i hi => h scope inner i (List.mem_append_left _ hi)) q hq
      · rw [(extractedFrom s p c).1] at hq
        exact htail _ (fun scope inner i hi => h scope inner i (List.mem_append_right _ hi)) q hq

/-- The rules that the subscopes of a tree become stand for parts, if its subscopes do. -/
theorem exists_part_of_mem_spawned {s : Statement} (p : Str) (c : ℕ)
    (h : SubscopesOf rules p (s.subscopes.zipIdx c)) :
    ∀ q ∈ (extractSubscopesIn s p c).2.2, ∃ part, IsPart rules part ∧ Stands q part := by
  induction s using Statement.inductionOn generalizing p c with
  | and kids ih => exact exists_part_of_mem_kids ih p c h
  | or kids ih => exact exists_part_of_mem_kids ih p c h
  | not s ih => exact ih p c h
  | someOf n kids ih => exact exists_part_of_mem_kids ih p c h
  | range f min max => exact fun q hq => absurd hq List.not_mem_nil
  | subscope scope s ih =>
    have hpart := h scope s c (by simp [Statement.subscopes])
    intro q hq
    rcases List.mem_append.mp hq with hq | hq
    · exact ih _ 0 (fun scope inner i hi => .subscope hpart hi) q hq
    · obtain rfl := List.mem_singleton.mp hq
      exact ⟨_, hpart, stands_extracted (fun n => by simp) rfl⟩
  | feature f => exact fun q hq => absurd hq List.not_mem_nil

/-- Every rule after extraction stands for a part. -/
theorem exists_part_of_mem {q : Rule} (hq : q ∈ extractSubscopeRules rules) :
    ∃ p, IsPart rules p ∧ Stands q p := by
  rcases List.mem_append.mp hq with hq | hq
  · obtain ⟨r, hr, rfl⟩ := List.mem_map.mp hq
    exact ⟨_, .rule hr, stands_extracted (fun n => Iff.rfl) rfl⟩
  · obtain ⟨r, hr, hq⟩ := List.mem_flatMap.mp hq
    exact exists_part_of_mem_spawned r.name 0
      (fun scope inner i hi => .subscope (.rule hr) hi) q hq

/-- Every part is stood for by a rule after extraction, and its subscopes are spawned. -/
theorem exists_rule_of_isPart {p : Part} (hp : IsPart rules p) :
    (∃ q ∈ extractSubscopeRules rules, Stands q p) ∧
      (extractSubscopesIn p.tree p.name 0).2.2 ⊆ extractSubscopeRules rules := by
  induction hp with
  | @rule r hr =>
    refine ⟨⟨_, List.mem_append_left _ (List.mem_map_of_mem hr),
      stands_extracted (fun n => Iff.rfl) rfl⟩, fun q hq => ?_⟩
    exact List.mem_append_right _ (List.mem_flatMap.mpr ⟨r, hr, hq⟩)
  | @subscope p _ scope inner i hi ih =>
    obtain ⟨-, hsub⟩ := ih
    rw [(extractedFrom p.tree p.name 0).2.1] at hsub
    have hspawned : spawned p.name ((scope, inner), i) ⊆ extractSubscopeRules rules :=
      fun q hq => hsub (List.mem_flatMap.mpr ⟨_, hi, hq⟩)
    exact ⟨⟨_, hspawned (List.mem_append_right _ (List.mem_singleton_self _)),
      stands_extracted (fun n => by simp) rfl⟩,
      fun q hq => hspawned (List.mem_append_left _ hq)⟩

theorem Stands.optimizeRule {q : Rule} {p : Part} (h : Stands q p) : Stands (optimizeRule q) p :=
  ⟨h.names, fun ref => mem_collectMatchRefs_optimize.trans (h.refs ref)⟩

/-- The rules that validation is given stand for the parts. -/
theorem stands_prepare :
    (∀ q ∈ prepare rules, ∃ p, IsPart rules p ∧ Stands q p) ∧
      ∀ p, IsPart rules p → ∃ q ∈ prepare rules, Stands q p := by
  constructor
  · intro q hq
    obtain ⟨q', hq', rfl⟩ := List.mem_map.mp hq
    obtain ⟨p, hp, hstands⟩ := exists_part_of_mem hq'
    exact ⟨p, hp, hstands.optimizeRule⟩
  · intro p hp
    obtain ⟨q, hq, hstands⟩ := (exists_rule_of_isPart hp).1
    exact ⟨_, List.mem_map_of_mem hq, hstands.optimizeRule⟩

/-- A rule is resolved exactly if its part is not broken. -/
theorem resolved_iff_not_broken {q : Rule} {p : Part} (h : Stands q p) :
    Resolved (prepare rules) q ↔ ¬Broken rules p := by
  have hbears (ref : Str) : Bears (prepare rules) ref ↔ ∃ b, IsPart rules b ∧ ref ∈ b.names := by
    constructor
    · rintro ⟨d, hd, href⟩
      obtain ⟨b, hb, hstands⟩ := stands_prepare.1 d hd
      exact ⟨b, hb, (hstands.names ref).mp href⟩
    · rintro ⟨b, hb, href⟩
      obtain ⟨d, hd, hstands⟩ := stands_prepare.2 b hb
      exact ⟨d, hd, (hstands.names ref).mpr href⟩
  simp only [Resolved, Broken, Dangling.Broken, hbears, h.refs, not_exists, not_and, not_forall,
    not_not, Set.mem_ofPred_eq, exists_prop]

end Parts

/-! ### Closed corpora -/

/-- Every reference of a rule of the list is the name or a namespace of a rule of the list. -/
def Closed (rules : List Rule) : Prop := ∀ r ∈ rules, Resolved rules r

/-- The kept rules are closed exactly if the parts that are not broken are. -/
theorem closed_iff_parts {rules : List (Option Rule)} {rs : RuleSet}
    (h : RuleSet.fromRules rules = .ok rs) :
    Closed rs.rules ↔ Dangling.Closed Part.names Part.refs
      {p ∈ {p | IsPart rules.reduceOption p} | ¬Broken rules.reduceOption p} := by
  have hmem : ∀ r, r ∈ rs.rules ↔ _ := fun r => RuleSet.mem_rules_of_fromRules h
  constructor
  · rintro hclosed p ⟨hp, hbroken⟩ ref href
    obtain ⟨q, hq, hstands⟩ := stands_prepare.2 p hp
    have hkept := (hmem q).mpr ⟨hq, (resolved_iff_not_broken hstands).mpr hbroken⟩
    obtain ⟨d, hd, hbears⟩ := hclosed q hkept ref ((hstands.refs ref).mpr href)
    obtain ⟨hd, hres⟩ := (hmem d).mp hd
    obtain ⟨b, hb, hstands'⟩ := stands_prepare.1 d hd
    exact ⟨b, ⟨hb, (resolved_iff_not_broken hstands').mp hres⟩, (hstands'.names ref).mp hbears⟩
  · intro hclosed q hq ref href
    obtain ⟨hq, hres⟩ := (hmem q).mp hq
    obtain ⟨p, hp, hstands⟩ := stands_prepare.1 q hq
    obtain ⟨b, ⟨hb, hbroken⟩, hbears⟩ := hclosed p
      ⟨hp, (resolved_iff_not_broken hstands).mp hres⟩ ref ((hstands.refs ref).mp href)
    obtain ⟨d, hd, hstands'⟩ := stands_prepare.2 b hb
    exact ⟨d, (hmem d).mpr ⟨hd, (resolved_iff_not_broken hstands').mpr hbroken⟩,
      (hstands'.names ref).mpr hbears⟩

/-- **One pass leaves a closed corpus** exactly when no part of the given rules dangles but those
with a reference that no part bears. -/
theorem closed_fromRules_iff {rules : List (Option Rule)} {rs : RuleSet}
    (h : RuleSet.fromRules rules = .ok rs) :
    Closed rs.rules ↔ ∀ p, IsPart rules.reduceOption p →
      Dangles rules.reduceOption p → Broken rules.reduceOption p :=
  (closed_iff_parts h).trans Dangling.closed_iff

/-- A rule that references itself does not dangle. -/
theorem closed_fromRules_iff_self :
    let a := Rule.plain (str "a") .function none (.feature (Feature.matchedRule (str "a")))
    ∃ rs, RuleSet.fromRules [some a] = .ok rs ∧
      (Closed rs.rules ↔ ∀ p, IsPart [a] p → Dangles [a] p → Broken [a] p) := by
  intro a
  obtain ⟨rs, h⟩ : ∃ rs, RuleSet.fromRules [some a] = .ok rs := ⟨_, rfl⟩
  exact ⟨rs, h, closed_fromRules_iff h⟩

/-- The pass drops `b`, whose reference nobody bears, and keeps `a`, which references `b`. -/
theorem not_closed_chain :
    let a := Rule.plain (str "a") .function none (.feature (Feature.matchedRule (str "b")))
    let b := Rule.plain (str "b") .function none (.feature (Feature.matchedRule (str "c")))
    ∃ rs, RuleSet.fromRules [some a, some b] = .ok rs ∧ rs.rules.map Rule.name = [str "a"] ∧
      ¬Closed rs.rules := by
  refine ⟨_, rfl, rfl, fun hclosed => ?_⟩
  obtain ⟨r, hr, hbears⟩ := hclosed _ List.mem_cons_self (str "b") List.mem_cons_self
  rw [List.mem_singleton.mp hr] at hbears
  exact absurd hbears (by decide)

/-- When every reference is borne, nothing is dropped and the corpus is closed. -/
theorem closed_of_all_resolved {rules : List (Option Rule)} {rs : RuleSet}
    (h : RuleSet.fromRules rules = .ok rs) (hall : Closed (prepare rules.reduceOption)) :
    Closed rs.rules ∧ ∀ r, r ∈ rs.rules ↔ r ∈ prepare rules.reduceOption := by
  have hmem : ∀ r, r ∈ rs.rules ↔ r ∈ prepare rules.reduceOption := fun r =>
    (RuleSet.mem_rules_of_fromRules h).trans (and_iff_left_of_imp fun hr => hall r hr)
  refine ⟨fun r hr ref href => ?_, hmem⟩
  obtain ⟨b, hb, hbears⟩ := hall r ((hmem r).mp hr) ref href
  exact ⟨b, (hmem b).mpr hb, hbears⟩

end Papa.Rules
