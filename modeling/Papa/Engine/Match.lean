import Papa.Engine.Agreement
import Papa.Engine.Truth
import Papa.Library.ForwardChaining
import Papa.Rules.Rule

/-!
# Matching rules against a feature set

`matchRules` is the engine's match cycle: each rule is probed in order; one that matches is
evaluated in full, its result recorded, and its name and namespaces injected as `MatchedRule`
features at the address, where later rules see them. On rules without subscopes the cycle never
throws and is a one-pass forward chaining over feature sets.

## Main definitions

* `Papa.Engine.indexRuleMatches`: inject the names of a rule at some addresses.
* `Papa.Engine.matchRules`: the match cycle, `engine::match` in the source.
* `Papa.Engine.matchSystem`: the cycle as a `RuleSystem`.

## Main results

* `Papa.Engine.has_indexRuleMatches`, `Papa.Engine.agreeOff_indexRuleMatches`.
* `Papa.Engine.matchRules_eq`: the cycle refines the abstract pass.
-/

namespace Papa.Engine

open Features FeatureSet Rules

/-- Attach one `MatchedRule` feature to every address. -/
def emitMatch (fs : FeatureSet) (addresses : List Address) (name : Str) : FeatureSet :=
  addresses.foldl (fun fs addr => fs.add (Feature.matchedRule name) addr) fs

/-- Add `MatchedRule` features for a rule and its namespaces at each address. -/
def indexRuleMatches (fs : FeatureSet) (rule : Rule) (addresses : List Address) : FeatureSet :=
  if addresses.isEmpty then fs
  else rule.injectedNames.foldl (fun fs name => emitMatch fs addresses name) fs

/-- Append a result to the entries of a rule. -/
def recordMatch (out : MatchResults) (name : Str) (addr : Address) (r : Result) : MatchResults :=
  AssocList.push name (addr, r) out

section Match

variable (E : RegexEngine) (addr : Address)

/-- The loop of `matchRules`. -/
def matchLoop : (rules : List Rule) → FeatureSet → MatchResults →
    Throws (FeatureSet × MatchResults)
  | [], fs, out => .ok (fs, out)
  | rule :: rules, fs, out => do
      if ← rule.statement.evaluateQuick E fs then
        let full ← rule.statement.evaluate E fs false
        matchLoop rules (indexRuleMatches fs rule [addr]) (recordMatch out rule.name addr full)
      else matchLoop rules fs out

/-- Walk rules in topological order, record matches and inject `MatchedRule` features. -/
def matchRules (rules : List Rule) (fs : FeatureSet) : Throws (FeatureSet × MatchResults) :=
  matchLoop E addr rules fs []

/-- The match cycle as a rule system over feature sets: a rule whose probe succeeds yields its full
result and injects its names. -/
def matchSystem : RuleSystem Rule FeatureSet Result where
  fire rule fs :=
    match rule.statement.evaluateQuick E fs with
    | .ok true => (rule.statement.evaluate E fs false).toOption
    | _ => none
  inject rule fs := indexRuleMatches fs rule [addr]

/-- Record the outcomes of a pass. -/
def recordAll (out : MatchResults) (fired : List (Rule × Result)) : MatchResults :=
  fired.foldl (fun out p => recordMatch out p.1.name addr p.2) out

end Match

/-! ### Injection -/

theorem has_emitMatch (fs : FeatureSet) (addresses : List Address) (name : Str) (g : Feature) :
    (emitMatch fs addresses name).has g ↔
      (addresses ≠ [] ∧ g.value = .matchedRule name) ∨ fs.has g := by
  induction addresses generalizing fs with
  | nil => simp [emitMatch]
  | cons a addresses ih =>
    change (emitMatch (fs.add (Feature.matchedRule name) a) addresses name).has g ↔ _
    rw [ih, has_add, Feature.matchedRule_beq_iff]
    by_cases hg : g.value = .matchedRule name <;> simp [hg]

/-- A set after injection holds what it held and the names injected. -/
theorem has_indexRuleMatches (fs : FeatureSet) (rule : Rule) (addresses : List Address)
    (g : Feature) : (indexRuleMatches fs rule addresses).has g ↔
      (addresses ≠ [] ∧ ∃ name ∈ rule.injectedNames, g.value = .matchedRule name) ∨ fs.has g := by
  rw [indexRuleMatches]
  split_ifs with hempty
  · simp [List.isEmpty_iff.mp hempty]
  · have hne : addresses ≠ [] := fun h => hempty (List.isEmpty_iff.mpr h)
    generalize rule.injectedNames = names
    induction names generalizing fs with
    | nil => simp
    | cons name names ih =>
      refine (ih _).trans ?_
      rw [has_emitMatch]
      simp only [ne_eq, hne, not_false_eq_true, true_and, List.mem_cons, exists_eq_or_imp]
      exact or_left_comm.trans or_assoc.symm

theorem has_indexRuleMatches_of_tag_ne {g : Feature} (hg : g.tag ≠ .matchedRule) (fs : FeatureSet)
    (rule : Rule) (addresses : List Address) :
    (indexRuleMatches fs rule addresses).has g = fs.has g := by
  rw [Bool.eq_iff_iff, has_indexRuleMatches, or_iff_right]
  rintro ⟨-, name, -, hv⟩
  exact hg (Feature.tag_eq_matchedRule_iff.mpr ⟨name, hv⟩)

/-- The names a rule injects. -/
def injectedSet (rule : Rule) : Set Str := {name | name ∈ rule.injectedNames}

private theorem foldl_emplace_invariant {I : FeatureSet → Prop} {addresses : List Address}
    {name : Str} (h : ∀ fs a, I fs → I (fs.add (Feature.matchedRule name) a)) {fs : FeatureSet}
    (hfs : I fs) : I (emitMatch fs addresses name) := by
  induction addresses generalizing fs with
  | nil => exact hfs
  | cons a addresses ih => exact ih (h fs a hfs)

/-- What holds of a set and is kept by adding any of the injected names holds after injection. -/
theorem indexRuleMatches_invariant {I : FeatureSet → Prop} {rule : Rule}
    {addresses : List Address}
    (h : ∀ name ∈ rule.injectedNames, ∀ fs a, I fs → I (fs.add (Feature.matchedRule name) a))
    {fs : FeatureSet} (hfs : I fs) : I (indexRuleMatches fs rule addresses) := by
  rw [indexRuleMatches]
  split_ifs
  · exact hfs
  · revert h hfs
    generalize rule.injectedNames = names
    intro h hfs
    induction names generalizing fs with
    | nil => exact hfs
    | cons name names ih =>
      refine ih (fun n hn => h n (List.mem_cons_of_mem _ hn)) ?_
      exact foldl_emplace_invariant (h name List.mem_cons_self) hfs

/-- Injection changes a set only in the injected names. -/
theorem agreeOff_indexRuleMatches (fs : FeatureSet) (rule : Rule) (addresses : List Address) :
    AgreeOff (injectedSet rule) (indexRuleMatches fs rule addresses) fs := by
  refine indexRuleMatches_invariant (I := fun gs => AgreeOff (injectedSet rule) gs fs) ?_
    (AgreeOff.refl _ fs)
  exact fun name hname gs a h => h.emplace_left ⟨name, hname, rfl⟩ {a}

/-- Injecting the names of one rule at one address on both sides keeps an agreement. -/
theorem agreeOff_indexRuleMatches_both {N : Set Str} {fs gs : FeatureSet} (h : AgreeOff N fs gs)
    (rule : Rule) (addr : Address) :
    AgreeOff N (indexRuleMatches fs rule [addr]) (indexRuleMatches gs rule [addr]) := by
  change AgreeOff N (rule.injectedNames.foldl (fun fs name => emitMatch fs [addr] name) fs)
    (rule.injectedNames.foldl (fun fs name => emitMatch fs [addr] name) gs)
  generalize rule.injectedNames = names
  induction names generalizing fs gs with
  | nil => exact h
  | cons name names ih => exact ih (h.emplace (f := Feature.matchedRule name) rfl {addr})

/-! ### The cycle as a pass -/

section Pass

variable {E : RegexEngine} {addr : Address}

theorem fires_iff {rule : Rule} (hfree : rule.statement.SubscopeFree) (fs : FeatureSet) :
    (matchSystem E addr).Fires rule fs ↔ rule.statement.holds E fs := by
  obtain ⟨r, hr, -⟩ := @Statement.evaluate_eq E fs _ hfree false
  simp only [RuleSystem.Fires, matchSystem, Statement.evaluateQuick_eq hfree, hr]
  cases rule.statement.holds E fs <;> simp [Except.toOption]

theorem fire_eq_some_iff {rule : Rule} (hfree : rule.statement.SubscopeFree) {fs : FeatureSet}
    {r : Result} : (matchSystem E addr).fire rule fs = some r ↔
      rule.statement.holds E fs ∧ rule.statement.evaluate E fs false = .ok r := by
  obtain ⟨r', hr', -⟩ := @Statement.evaluate_eq E fs _ hfree false
  simp only [matchSystem, Statement.evaluateQuick_eq hfree, hr']
  cases rule.statement.holds E fs <;> simp [Except.toOption]

/-- A rule reads only the match features it references. -/
theorem fire_agree {N : Set Str} {fs gs : FeatureSet} (h : AgreeOff N fs gs) {rule : Rule}
    (hrefs : ∀ ref ∈ collectMatchRefs rule.statement, ref ∉ N) :
    (matchSystem E addr).fire rule fs = (matchSystem E addr).fire rule gs := by
  simp only [matchSystem, Statement.evaluateQuick_agree h E rule.statement hrefs,
    Statement.evaluate_agree h E rule.statement hrefs]

private theorem matchLoop_eq {rules : List Rule}
    (hfree : ∀ r ∈ rules, r.statement.SubscopeFree) (fs : FeatureSet) (out : MatchResults) :
    matchLoop E addr rules fs out =
      .ok (((matchSystem E addr).run rules fs).1,
        recordAll addr out ((matchSystem E addr).run rules fs).2) := by
  induction rules generalizing fs out with
  | nil => rfl
  | cons rule rules ih =>
    have hr := hfree rule List.mem_cons_self
    have htail := ih fun r hr => hfree r (List.mem_cons_of_mem _ hr)
    obtain ⟨r, hfull, -⟩ := @Statement.evaluate_eq E fs _ hr false
    rw [matchLoop, Statement.evaluateQuick_eq hr, hfull]
    cases hb : rule.statement.holds E fs with
    | false =>
      have hnone : (matchSystem E addr).fire rule fs = none := by
        simp only [matchSystem, Statement.evaluateQuick_eq hr, hb]
      rw [RuleSystem.run_cons_none _ hnone]
      exact htail fs out
    | true =>
      have hsome : (matchSystem E addr).fire rule fs = some r :=
        (fire_eq_some_iff hr).mpr ⟨hb, hfull⟩
      rw [RuleSystem.run_cons_some _ hsome]
      exact htail _ _

/-- **The match cycle refines the abstract pass**: on rules without subscopes it never throws. -/
theorem matchRules_eq {rules : List Rule} (hfree : ∀ r ∈ rules, r.statement.SubscopeFree)
    (fs : FeatureSet) : matchRules E addr rules fs =
      .ok (((matchSystem E addr).run rules fs).1,
        recordAll addr [] ((matchSystem E addr).run rules fs).2) :=
  matchLoop_eq hfree fs []

end Pass

/-- A pass leaves the names it found and those of the rules that fired. -/
theorem has_run_matchSystem (E : RegexEngine) (addr : Address) (rules : List Rule) (fs : FeatureSet)
    (name : Str) : ((matchSystem E addr).run rules fs).1.has (Feature.matchedRule name) ↔
      fs.has (Feature.matchedRule name) ∨
        ∃ p ∈ ((matchSystem E addr).run rules fs).2, name ∈ p.1.injectedNames := by
  induction rules generalizing fs with
  | nil => simp
  | cons rule rules ih =>
    cases hf : (matchSystem E addr).fire rule fs with
    | none =>
      rw [RuleSystem.run_cons_none _ hf]
      exact ih fs
    | some o =>
      rw [RuleSystem.run_cons_some _ hf]
      have hinject : ((matchSystem E addr).inject rule fs).has (Feature.matchedRule name) ↔
          name ∈ rule.injectedNames ∨ fs.has (Feature.matchedRule name) := by
        change (indexRuleMatches fs rule [addr]).has _ ↔ _
        rw [has_indexRuleMatches]
        simp [Feature.matchedRule]
      rw [ih, hinject, List.exists_mem_cons_iff]
      tauto

/-! ### Recorded results -/

theorem recordAll_eq (addr : Address) (out : MatchResults) (fired : List (Rule × Result)) :
    recordAll addr out fired =
      AssocList.pushAll (fired.map fun p => (p.1.name, addr, p.2)) out := by
  rw [recordAll, AssocList.pushAll, List.foldl_map]
  rfl

/-- The entries of a name after recording: those it had, then those of the rules of that name. -/
theorem get?_recordAll (addr : Address) (out : MatchResults) (fired : List (Rule × Result))
    (name : Str) : (AssocList.get? name (recordAll addr out fired)).getD [] =
      (AssocList.get? name out).getD [] ++
        (fired.filter fun p => p.1.name == name).map fun p => (addr, p.2) := by
  rw [recordAll_eq, AssocList.get?_pushAll, List.filter_map, List.map_map]
  rfl

theorem isSome_get?_recordAll (addr : Address) (out : MatchResults)
    (fired : List (Rule × Result)) (name : Str) :
    (AssocList.get? name (recordAll addr out fired)).isSome ↔
      (∃ p ∈ fired, p.1.name = name) ∨ (AssocList.get? name out).isSome := by
  rw [recordAll_eq, AssocList.isSome_get?_pushAll]
  simp

end Papa.Engine
