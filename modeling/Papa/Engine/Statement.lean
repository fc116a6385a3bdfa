import Papa.Exceptions
import Papa.Features.FeatureSet

/-!
# Statements of a rule

The logical tree of a rule. Child lists may hold null slots, as the vectors of unique pointers of
the source may; the constructors of `not`, `range`, `subscope` and `feature` reject null, so those
hold a value.

## Main definitions

* `Papa.Rules.Scope`: the matching scopes.
* `Papa.Engine.Statement`: the tree.
* `Papa.Engine.Statement.SubscopeFree`: no subscope placeholder is left in the tree.
* `Papa.Engine.collectMatchRefs`: the names the tree references through `match:`.
* `Papa.Engine.Result`, `Papa.Engine.MatchResults`: outcomes of an evaluation.

## Main results

* `Papa.Engine.Statement.inductionOn`: induction over a tree with null slots.
-/

namespace Papa.Rules

/-- A matching scope. -/
inductive Scope
  | file | function | basicBlock | instruction | global | process | thread | call | spanOfCalls
  deriving DecidableEq

/-- The name of a scope in messages. -/
def Scope.toString : Scope → Str
  | file => str "file"
  | function => str "function"
  | basicBlock => str "basic block"
  | instruction => str "instruction"
  | global => str "global"
  | process => str "process"
  | thread => str "thread"
  | call => str "call"
  | spanOfCalls => str "span of calls"

end Papa.Rules

namespace Papa.Engine

open Features Rules

/-- A node of the logical tree of a rule. `someOf 0` is the optional block. -/
inductive Statement
  | and (children : List (Option Statement))
  | or (children : List (Option Statement))
  | not (child : Statement)
  | someOf (count : ℕ) (children : List (Option Statement))
  | range (feature : Feature) (min max : ℕ)
  | subscope (scope : Scope) (inner : Statement)
  | feature (feature : Feature)

namespace Statement

mutual

/-- Induction over a tree whose child lists may hold null slots. -/
@[elab_as_elim]
theorem inductionOn {motive : Statement → Prop} (s : Statement)
    (and : ∀ kids, (∀ s, Option.some s ∈ kids → motive s) → motive (and kids))
    (or : ∀ kids, (∀ s, Option.some s ∈ kids → motive s) → motive (or kids))
    (not : ∀ s, motive s → motive (not s))
    (someOf : ∀ n kids, (∀ s, Option.some s ∈ kids → motive s) → motive (someOf n kids))
    (range : ∀ f min max, motive (range f min max))
    (subscope : ∀ scope s, motive s → motive (subscope scope s))
    (feature : ∀ f, motive (feature f)) : motive s :=
  match s with
  | .and kids => and kids (inductionOnKids kids and or not someOf range subscope feature)
  | .or kids => or kids (inductionOnKids kids and or not someOf range subscope feature)
  | .not s => not s (inductionOn s and or not someOf range subscope feature)
  | .someOf n kids =>
      someOf n kids (inductionOnKids kids and or not someOf range subscope feature)
  | .range f min max => range f min max
  | .subscope scope s => subscope scope s (inductionOn s and or not someOf range subscope feature)
  | .feature f => feature f

private theorem inductionOnKids {motive : Statement → Prop} (kids : List (Option Statement))
    (and : ∀ kids, (∀ s, Option.some s ∈ kids → motive s) → motive (.and kids))
    (or : ∀ kids, (∀ s, Option.some s ∈ kids → motive s) → motive (.or kids))
    (not : ∀ s, motive s → motive (.not s))
    (someOf : ∀ n kids, (∀ s, Option.some s ∈ kids → motive s) → motive (.someOf n kids))
    (range : ∀ f min max, motive (.range f min max))
    (subscope : ∀ scope s, motive s → motive (.subscope scope s))
    (feature : ∀ f, motive (.feature f)) (s : Statement) (h : Option.some s ∈ kids) : motive s :=
  match kids, h with
  | none :: kids, h => inductionOnKids kids and or not someOf range subscope feature s
      ((List.mem_cons.mp h).resolve_left nofun)
  | Option.some t :: kids, h => by
      rcases List.mem_cons.mp h with h | h
      · cases h
        exact inductionOn s and or not someOf range subscope feature
      · exact inductionOnKids kids and or not someOf range subscope feature s h

end

mutual

/-- No subscope placeholder is left in the tree. -/
def SubscopeFree : Statement → Prop
  | and kids => SubscopeFreeKids kids
  | or kids => SubscopeFreeKids kids
  | not s => SubscopeFree s
  | someOf _ kids => SubscopeFreeKids kids
  | range _ _ _ => True
  | subscope _ _ => False
  | feature _ => True

/-- No subscope placeholder is left below any child slot. -/
def SubscopeFreeKids : List (Option Statement) → Prop
  | [] => True
  | none :: kids => SubscopeFreeKids kids
  | Option.some s :: kids => SubscopeFree s ∧ SubscopeFreeKids kids

end

theorem subscopeFreeKids_iff (kids : List (Option Statement)) :
    SubscopeFreeKids kids ↔ ∀ s, Option.some s ∈ kids → s.SubscopeFree := by
  induction kids with
  | nil => simp [SubscopeFreeKids]
  | cons kid kids ih =>
    cases kid with
    | none => simp [SubscopeFreeKids, ih]
    | some s => simp [SubscopeFreeKids, ih]

end Statement

/-! ### Match references -/

mutual

/-- Every rule name or namespace the tree references through `match:`, in pre-order. -/
def collectMatchRefs : Statement → List Str
  | .feature f => f.matchedName?.toList
  | .range f _ _ => f.matchedName?.toList
  | .and kids => collectMatchRefsKids kids
  | .or kids => collectMatchRefsKids kids
  | .not s => collectMatchRefs s
  | .someOf _ kids => collectMatchRefsKids kids
  | .subscope _ _ => []

/-- The references below a list of child slots. -/
def collectMatchRefsKids : List (Option Statement) → List Str
  | [] => []
  | none :: kids => collectMatchRefsKids kids
  | some s :: kids => collectMatchRefs s ++ collectMatchRefsKids kids

end

theorem mem_collectMatchRefsKids {kids : List (Option Statement)} {ref : Str} :
    ref ∈ collectMatchRefsKids kids ↔ ∃ s, some s ∈ kids ∧ ref ∈ collectMatchRefs s := by
  induction kids with
  | nil => simp [collectMatchRefsKids]
  | cons kid kids ih =>
    cases kid with
    | none => simp [collectMatchRefsKids, ih]
    | some s =>
      simp only [collectMatchRefsKids, List.mem_append, ih, List.mem_cons, Option.some.injEq]
      constructor
      · rintro (h | ⟨t, ht, h⟩)
        · exact ⟨s, Or.inl rfl, h⟩
        · exact ⟨t, Or.inr ht, h⟩
      · rintro ⟨t, rfl | ht, h⟩
        · exact Or.inl h
        · exact Or.inr ⟨t, ht, h⟩

/-! ### Results -/

/-- What a result points back to. -/
inductive ResultNode
  | none
  | statement (s : Statement)
  | feature (f : Feature)

/-- The outcome of evaluating a statement or a feature. -/
structure Result where
  success : Bool := false
  node : ResultNode := .none
  children : List Result := []
  locations : Finset Address := ∅

/-- The results of each rule that matched, by rule name. -/
abbrev MatchResults := List (Str × List (Address × Result))

end Papa.Engine
