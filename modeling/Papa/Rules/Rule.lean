import Papa.Engine.Statement

/-!
# Rules

## Main definitions

* `Papa.Rules.Scopes`, `Papa.Rules.RuleMeta`, `Papa.Rules.Rule`.
* `Papa.Rules.Rule.scope`: the static scope the engine matches a rule at.
* `Papa.Rules.Rule.namespaceHierarchy`: a namespace with its ancestors.
* `Papa.Rules.Rule.injectedNames`: what a match of the rule injects.

## Main results

* `Papa.Rules.hierarchyLoop_succ`: the fuel of the namespace loop suffices.
-/

namespace Papa.Rules

/-- The scopes a rule declares. An absent scope means the rule does not match in that pipeline. -/
structure Scopes where
  staticScope : Option Scope := none
  dynamicScope : Option Scope := none

/-- The metadata of a rule. -/
structure RuleMeta where
  name : Str := []
  scopes : Scopes := {}
  namespace_ : Option Str := none
  authors : List Str := []
  attAndCk : List Str := []
  mbc : List Str := []
  examples : List Str := []
  references : List Str := []
  description : Option Str := none
  lib : Bool := false
  isSubscopeRule : Bool := false
  parent : Option Str := none
  sourcePath : Str := []

/-- A parsed rule: its metadata, its statement and the original text. -/
structure Rule where
  info : RuleMeta
  statement : Engine.Statement
  definition : Str := []

/-- The static scope of a rule that declares none. -/
def kDefaultStaticScope : Scope := .function

/-- The loop of `namespaceHierarchy`: the current namespace, then what precedes its last slash. -/
def hierarchyLoop : (fuel : ℕ) → (current : Str) → List Str
  | 0, _ => []
  | fuel + 1, current =>
    if current.isEmpty then []
    else current ::
      match current.rfind (ch '/') with
      | none => []
      | some slash => hierarchyLoop fuel (current.take slash)

/-- The loop ends before its fuel does, because each turn shortens the namespace. -/
theorem hierarchyLoop_succ {fuel : ℕ} {current : Str} (h : current.length ≤ fuel) :
    hierarchyLoop (fuel + 1) current = hierarchyLoop fuel current := by
  induction fuel generalizing current with
  | zero =>
    have hnil : current = [] := List.eq_nil_of_length_eq_zero (Nat.le_zero.mp h)
    subst hnil
    rfl
  | succ fuel ih =>
    rw [hierarchyLoop, hierarchyLoop]
    split_ifs with hempty
    · rfl
    · cases hr : current.rfind (ch '/') with
      | none => rfl
      | some slash =>
        have hlt := Str.rfind_lt hr
        have hlen : (current.take slash).length ≤ fuel := by
          rw [List.length_take]
          omega
        exact congrArg (current :: ·) (ih hlen)

namespace Rule

/-- The name of a rule. -/
def name (r : Rule) : Str := r.info.name

/-- The scope the engine matches a rule at. -/
def scope (r : Rule) : Scope := r.info.scopes.staticScope.getD kDefaultStaticScope

/-- `a/b/c` expands to `a/b/c`, `a/b` and `a`; no namespace expands to nothing. -/
def namespaceHierarchy (r : Rule) : List Str :=
  match r.info.namespace_ with
  | none => []
  | some ns => hierarchyLoop ns.length ns

/-- The names a match of the rule injects: its own, then its namespaces. -/
def injectedNames (r : Rule) : List Str := r.name :: r.namespaceHierarchy

/-- A rule with a name, a static scope, a namespace and a statement, and no other metadata. -/
def plain (name : Str) (scope : Scope) (namespace_ : Option Str) (s : Engine.Statement) : Rule where
  info := { name := name, scopes := { staticScope := some scope }, namespace_ := namespace_ }
  statement := s

end Rule

example : hierarchyLoop 5 (str "a/b/c") = [str "a/b/c", str "a/b", str "a"] := by
  decide +kernel

end Papa.Rules
