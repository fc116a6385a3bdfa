import Papa.Engine.Truth
import Papa.Rules.Rule

/-!
# Subscope extraction

Before a corpus is indexed every subscope placeholder is cut out of its tree: the inner tree becomes
the statement of a synthetic rule at the scope of the placeholder, and a match feature naming that
rule takes its place. Reading the synthetic names as their rules, extraction keeps the truth value.

## Main definitions

* `Papa.Rules.extractSubscopesIn`: rewrite one tree.
* `Papa.Rules.extractSubscopeRules`: rewrite a list of rules and append the synthetic ones.
* `Papa.Rules.MeansRule`: a frame reads the name of a rule as that rule.

## Main results

* `Papa.Rules.subscopeFree_extractSubscopeRules`: no placeholder is left.
* `Papa.Rules.mem_collectMatchRefs_extractSubscopesIn`: what the rewritten tree references.
* `Papa.Rules.sat_extractSubscopesIn`: extraction keeps the truth value.
-/

namespace Papa.Rules

open Features Engine

/-- The name of the `counter`-th synthetic rule of a parent. -/
def syntheticName (parentName : Str) (counter : ℕ) : Str :=
  parentName ++ ch '/' :: toStr counter

/-- The synthetic rule of a subscope placeholder. -/
def subscopeRule (parentName synName : Str) (innerScope : Scope) (inner : Statement) : Rule where
  info :=
    { name := synName
      scopes := { staticScope := some innerScope }
      lib := true
      isSubscopeRule := true
      parent := some parentName }
  statement := inner

mutual

/-- Replace each placeholder of a tree by a match feature: the rewritten tree, the counter after it
and the synthetic rules spawned, the rules of an inner tree before its own. -/
def extractSubscopesIn : Statement → (parentName : Str) → (counter : ℕ) →
    Statement × ℕ × List Rule
  | .subscope innerScope inner, parentName, counter =>
      let synName := syntheticName parentName counter
      -- a fresh counter rooted at the new name
      let r := extractSubscopesIn inner synName 0
      (.feature (Feature.matchedRule synName), counter + 1,
        r.2.2 ++ [subscopeRule parentName synName innerScope r.1])
  | .and kids, parentName, counter =>
      let r := extractSubscopesInKids kids parentName counter
      (.and r.1, r.2)
  | .or kids, parentName, counter =>
      let r := extractSubscopesInKids kids parentName counter
      (.or r.1, r.2)
  | .not s, parentName, counter =>
      let r := extractSubscopesIn s parentName counter
      (.not r.1, r.2)
  | .someOf n kids, parentName, counter =>
      let r := extractSubscopesInKids kids parentName counter
      (.someOf n r.1, r.2)
  | .range f min max, _, counter => (.range f min max, counter, [])
  | .feature f, _, counter => (.feature f, counter, [])

/-- Rewrite the child slots in order, threading the counter. -/
def extractSubscopesInKids : List (Option Statement) → (parentName : Str) → (counter : ℕ) →
    List (Option Statement) × ℕ × List Rule
  | [], _, counter => ([], counter, [])
  | none :: kids, parentName, counter =>
      let r := extractSubscopesInKids kids parentName counter
      (none :: r.1, r.2)
  | some s :: kids, parentName, counter =>
      let r := extractSubscopesIn s parentName counter
      let rs := extractSubscopesInKids kids parentName r.2.1
      (some r.1 :: rs.1, rs.2.1, r.2.2 ++ rs.2.2)

end

/-- Rewrite one rule: the rule without placeholders and the synthetic rules it spawns. -/
def extractSubscopes (r : Rule) : Rule × List Rule :=
  let e := extractSubscopesIn r.statement r.name 0
  ({ r with statement := e.1 }, e.2.2)

/-- Rewrite every rule and append the synthetic rules. -/
def extractSubscopeRules (rules : List Rule) : List Rule :=
  (rules.map fun r => (extractSubscopes r).1) ++ rules.flatMap fun r => (extractSubscopes r).2

@[simp] theorem name_subscopeRule (parentName synName : Str) (innerScope : Scope)
    (inner : Statement) : (subscopeRule parentName synName innerScope inner).name = synName := rfl

@[simp] theorem scope_subscopeRule (parentName synName : Str) (innerScope : Scope)
    (inner : Statement) : (subscopeRule parentName synName innerScope inner).scope = innerScope :=
  rfl

@[simp] theorem statement_subscopeRule (parentName synName : Str) (innerScope : Scope)
    (inner : Statement) :
    (subscopeRule parentName synName innerScope inner).statement = inner := rfl

@[simp] theorem injectedNames_subscopeRule (parentName synName : Str) (innerScope : Scope)
    (inner : Statement) :
    (subscopeRule parentName synName innerScope inner).injectedNames = [synName] := rfl

/-! ### No placeholder is left -/

section SubscopeFree

private theorem subscopeFree_kids {kids : List (Option Statement)}
    (h : ∀ s, some s ∈ kids → ∀ p c, (extractSubscopesIn s p c).1.SubscopeFree ∧
      ∀ q ∈ (extractSubscopesIn s p c).2.2, q.statement.SubscopeFree) (p : Str) (c : ℕ) :
    Statement.SubscopeFreeKids (extractSubscopesInKids kids p c).1 ∧
      ∀ q ∈ (extractSubscopesInKids kids p c).2.2, q.statement.SubscopeFree := by
  induction kids generalizing c with
  | nil => exact ⟨trivial, fun q hq => absurd hq List.not_mem_nil⟩
  | cons kid kids ih =>
    have htail := ih fun s hs => h s (List.mem_cons_of_mem _ hs)
    cases kid with
    | none => exact htail c
    | some s =>
      obtain ⟨hs, hspawned⟩ := h s List.mem_cons_self p c
      obtain ⟨hkids, hspawned'⟩ := htail (extractSubscopesIn s p c).2.1
      refine ⟨⟨hs, hkids⟩, fun q hq => ?_⟩
      rcases List.mem_append.mp hq with hq | hq
      · exact hspawned q hq
      · exact hspawned' q hq

/-- Neither the rewritten tree nor a spawned rule holds a placeholder. -/
theorem subscopeFree_extractSubscopesIn (s : Statement) (p : Str) (c : ℕ) :
    (extractSubscopesIn s p c).1.SubscopeFree ∧
      ∀ q ∈ (extractSubscopesIn s p c).2.2, q.statement.SubscopeFree := by
  induction s using Statement.inductionOn generalizing p c with
  | and kids ih => exact subscopeFree_kids ih p c
  | or kids ih => exact subscopeFree_kids ih p c
  | not s ih => exact ih p c
  | someOf n kids ih => exact subscopeFree_kids ih p c
  | range f min max => exact ⟨trivial, fun q hq => absurd hq List.not_mem_nil⟩
  | subscope scope s ih =>
    obtain ⟨hs, hspawned⟩ := ih (syntheticName p c) 0
    refine ⟨trivial, fun q hq => ?_⟩
    rcases List.mem_append.mp hq with hq | hq
    · exact hspawned q hq
    · rw [List.mem_singleton.mp hq]
      exact hs
  | feature f => exact ⟨trivial, fun q hq => absurd hq List.not_mem_nil⟩

theorem subscopeFree_extractSubscopeRules {rules : List Rule} {q : Rule}
    (hq : q ∈ extractSubscopeRules rules) : q.statement.SubscopeFree := by
  rcases List.mem_append.mp hq with hq | hq
  · obtain ⟨r, -, rfl⟩ := List.mem_map.mp hq
    exact (subscopeFree_extractSubscopesIn r.statement r.name 0).1
  · obtain ⟨r, -, hspawned⟩ := List.mem_flatMap.mp hq
    exact (subscopeFree_extractSubscopesIn r.statement r.name 0).2 q hspawned

end SubscopeFree

/-! ### References of the rewritten tree -/

section References

private theorem mem_collectMatchRefs_kids {kids : List (Option Statement)} {ref : Str}
    (h : ∀ s, some s ∈ kids → ∀ p c, ref ∈ collectMatchRefs (extractSubscopesIn s p c).1 →
      ref ∈ collectMatchRefs s ∨ ∃ q ∈ (extractSubscopesIn s p c).2.2, q.name = ref)
    (p : Str) (c : ℕ)
    (href : ref ∈ collectMatchRefsKids (extractSubscopesInKids kids p c).1) :
    ref ∈ collectMatchRefsKids kids ∨
      ∃ q ∈ (extractSubscopesInKids kids p c).2.2, q.name = ref := by
  induction kids generalizing c with
  | nil => exact Or.inl href
  | cons kid kids ih =>
    have htail := ih fun s hs => h s (List.mem_cons_of_mem _ hs)
    cases kid with
    | none => exact htail c href
    | some s =>
      rw [extractSubscopesInKids, collectMatchRefsKids, List.mem_append] at href
      rw [extractSubscopesInKids, collectMatchRefsKids, List.mem_append]
      rcases href with href | href
      · rcases h s List.mem_cons_self p c href with href | ⟨q, hq, hname⟩
        · exact Or.inl (Or.inl href)
        · exact Or.inr ⟨q, List.mem_append_left _ hq, hname⟩
      · rcases htail _ href with href | ⟨q, hq, hname⟩
        · exact Or.inl (Or.inr href)
        · exact Or.inr ⟨q, List.mem_append_right _ hq, hname⟩

/-- The rewritten tree references what the tree did, and names of spawned rules. -/
theorem mem_collectMatchRefs_extractSubscopesIn {s : Statement} {ref : Str} (p : Str) (c : ℕ)
    (href : ref ∈ collectMatchRefs (extractSubscopesIn s p c).1) :
    ref ∈ collectMatchRefs s ∨ ∃ q ∈ (extractSubscopesIn s p c).2.2, q.name = ref := by
  induction s using Statement.inductionOn generalizing p c with
  | and kids ih => exact mem_collectMatchRefs_kids ih p c href
  | or kids ih => exact mem_collectMatchRefs_kids ih p c href
  | not s ih => exact ih p c href
  | someOf n kids ih => exact mem_collectMatchRefs_kids ih p c href
  | range f min max => exact Or.inl href
  | subscope scope s ih =>
    refine Or.inr ⟨_, List.mem_append_right _ (List.mem_singleton_self _), ?_⟩
    exact (List.mem_singleton.mp href).symm
  | feature f => exact Or.inl href

private theorem mem_extract_of_kids {kids : List (Option Statement)} {ref : Str}
    (h : ∀ s, some s ∈ kids → ∀ p c, ref ∈ collectMatchRefs s →
      ref ∈ collectMatchRefs (extractSubscopesIn s p c).1) (p : Str) (c : ℕ)
    (href : ref ∈ collectMatchRefsKids kids) :
    ref ∈ collectMatchRefsKids (extractSubscopesInKids kids p c).1 := by
  induction kids generalizing c with
  | nil => exact href
  | cons kid kids ih =>
    have htail := ih fun s hs => h s (List.mem_cons_of_mem _ hs)
    cases kid with
    | none => exact htail c href
    | some s =>
      rw [collectMatchRefsKids, List.mem_append] at href
      rw [extractSubscopesInKids, collectMatchRefsKids, List.mem_append]
      rcases href with href | href
      · exact Or.inl (h s List.mem_cons_self p c href)
      · exact Or.inr (htail _ href)

/-- Extraction keeps the references outside the subscopes. -/
theorem mem_extract_of_mem_collectMatchRefs {s : Statement} {ref : Str} (p : Str) (c : ℕ)
    (href : ref ∈ collectMatchRefs s) :
    ref ∈ collectMatchRefs (extractSubscopesIn s p c).1 := by
  induction s using Statement.inductionOn generalizing p c with
  | and kids ih => exact mem_extract_of_kids ih p c href
  | or kids ih => exact mem_extract_of_kids ih p c href
  | not s ih => exact ih p c href
  | someOf n kids ih => exact mem_extract_of_kids ih p c href
  | range f min max => exact href
  | subscope scope s ih => exact absurd href List.not_mem_nil
  | feature f => exact href

end References

/-! ### Extraction keeps the truth value -/

section Truth

variable {υ : Type} {F : Frame υ} {W : Set υ}

/-- At the worlds of a set the frame reads the name of a rule as that rule: the name is true exactly
when the rule holds at some contained world of its scope. -/
def MeansRule (F : Frame υ) (W : Set υ) (q : Rule) : Prop :=
  ∀ u ∈ W, F.leaf u (Feature.matchedRule q.name) =
    (F.within u q.scope).any fun w => Statement.sat F q.statement w

/-- The worlds contained in a world of the set are in the set. -/
def WithinClosed (F : Frame υ) (W : Set υ) : Prop :=
  ∀ u ∈ W, ∀ scope, ∀ w ∈ F.within u scope, w ∈ W

private theorem sat_kids {kids : List (Option Statement)} {u : υ}
    (h : ∀ s, some s ∈ kids → ∀ p c, (∀ q ∈ (extractSubscopesIn s p c).2.2, MeansRule F W q) →
      Statement.sat F (extractSubscopesIn s p c).1 u = Statement.sat F s u)
    (p : Str) (c : ℕ) (hmeans : ∀ q ∈ (extractSubscopesInKids kids p c).2.2, MeansRule F W q) :
    Statement.satAll F (extractSubscopesInKids kids p c).1 u = Statement.satAll F kids u ∧
    Statement.satAny F (extractSubscopesInKids kids p c).1 u = Statement.satAny F kids u ∧
    Statement.satCount F (extractSubscopesInKids kids p c).1 u = Statement.satCount F kids u := by
  induction kids generalizing c with
  | nil => exact ⟨rfl, rfl, rfl⟩
  | cons kid kids ih =>
    have htail := ih fun s hs => h s (List.mem_cons_of_mem _ hs)
    cases kid with
    | none =>
      obtain ⟨-, hany, hcount⟩ := htail c hmeans
      exact ⟨rfl, hany, hcount⟩
    | some s =>
      have hs : Statement.sat F (extractSubscopesIn s p c).1 u = Statement.sat F s u :=
        h s List.mem_cons_self p c fun q hq => hmeans q (List.mem_append_left _ hq)
      obtain ⟨hall, hany, hcount⟩ := htail (extractSubscopesIn s p c).2.1
        fun q hq => hmeans q (List.mem_append_right _ hq)
      simp only [extractSubscopesInKids, Statement.satAll, Statement.satAny, Statement.satCount,
        hs, hall, hany, hcount, and_self]

/-- **Extraction keeps the truth value** where the frame reads the synthetic names as their
rules. -/
theorem sat_extractSubscopesIn (hclosed : WithinClosed F W) (s : Statement) (p : Str) (c : ℕ)
    (hmeans : ∀ q ∈ (extractSubscopesIn s p c).2.2, MeansRule F W q) {u : υ} (hu : u ∈ W) :
    Statement.sat F (extractSubscopesIn s p c).1 u = Statement.sat F s u := by
  induction s using Statement.inductionOn generalizing p c u with
  | and kids ih => exact (sat_kids (fun s hs p c h => ih s hs p c h hu) p c hmeans).1
  | or kids ih => exact (sat_kids (fun s hs p c h => ih s hs p c h hu) p c hmeans).2.1
  | not s ih => exact congrArg (!·) (ih p c hmeans hu)
  | someOf n kids ih =>
    have hcount := (sat_kids (fun s hs p c h => ih s hs p c h hu) p c hmeans).2.2
    simp only [extractSubscopesIn, Statement.sat, hcount]
  | range f min max => rfl
  | subscope scope s ih =>
    have hsyn := hmeans _ (List.mem_append_right _ (List.mem_singleton_self _)) u hu
    have hinner : ∀ w ∈ F.within u scope,
        Statement.sat F (extractSubscopesIn s (syntheticName p c) 0).1 w = Statement.sat F s w :=
      fun w hw => ih (syntheticName p c) 0 (fun q hq => hmeans q (List.mem_append_left _ hq))
        (hclosed u hu scope w hw)
    rw [name_subscopeRule, scope_subscopeRule, statement_subscopeRule] at hsyn
    rw [extractSubscopesIn, Statement.sat, Statement.sat, hsyn, Bool.eq_iff_iff, List.any_eq_true,
      List.any_eq_true]
    exact exists_congr fun w => and_congr_right fun hw => by rw [hinner w hw]
  | feature f => rfl

end Truth

end Papa.Rules
