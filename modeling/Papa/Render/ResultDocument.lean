import Papa.Features.Hashing
import Papa.Rules.RuleSet

/-!
# The match tree of a report

A report shows, for each match of a rule, the tree of the evaluation. Where the tree tests a match
feature, the trees of the rules that matched at the same places are spliced in: those of the rule of
that name, or else those of every rule under the namespace. A result at a place is found by the
number its address is linearized to.

The recursion stops splicing at a depth of 256.

## Main definitions

* `Papa.Features.linearize`: the number of an address.
* `Papa.Render.MatchNode`: a node of a tree.
* `Papa.Render.spliced`: the results spliced in below a result.
* `Papa.Render.buildMatch`: the tree of a result.
-/

namespace Papa.Features

/-- The index of an address among the kinds. -/
def Address.index : Address → UInt64
  | noAddress => 0
  | absoluteVirtual _ => 1
  | relativeVirtual _ => 2
  | fileOffset _ => 3
  | dnToken _ => 4
  | dnTokenOffset _ _ => 5

/-- The number an address holds. -/
def Address.payload : Address → UInt64
  | noAddress => 0
  | absoluteVirtual v => v
  | relativeVirtual v => v
  | fileOffset v => v
  | dnToken token => token
  | dnTokenOffset token offset => token ^^^ (offset * kGoldenRatio64)

/-- A number for an address. Addresses may share one. -/
def linearize (a : Address) : UInt64 := (a.index <<< 56) ^^^ a.payload

end Papa.Features

namespace Papa.Render

open Features Engine Rules

/-- `sort_addresses` on the addresses of a set: by their numbers. The order of addresses that share
a number is that of the implementation. -/
structure AddressSort where
  sort : Finset Address → List Address
  mem_sort : ∀ s a, a ∈ sort s ↔ a ∈ s
  nodup : ∀ s, (sort s).Nodup
  sorted : ∀ s, (sort s).Pairwise fun a b => linearize a ≤ linearize b

/-- The addresses of a set can be sorted. -/
theorem exists_addressSort : Nonempty AddressSort := by
  have htrans (a b c : Address) (hab : decide (linearize a ≤ linearize b))
      (hbc : decide (linearize b ≤ linearize c)) : decide (linearize a ≤ linearize c) :=
    decide_eq_true (UInt64.le_trans (of_decide_eq_true hab) (of_decide_eq_true hbc))
  have htotal (a b : Address) :
      decide (linearize a ≤ linearize b) || decide (linearize b ≤ linearize a) := by
    rw [Bool.or_eq_true, decide_eq_true_eq, decide_eq_true_eq]
    exact UInt64.le_total _ _
  exact ⟨{
    sort := fun s => s.toList.mergeSort fun a b => decide (linearize a ≤ linearize b)
    mem_sort := fun s a => List.mem_mergeSort.trans Finset.mem_toList
    nodup := fun s => (List.mergeSort_perm _ _).nodup_iff.mpr s.nodup_toList
    sorted := fun s => (List.pairwise_mergeSort htrans htotal s.toList).imp of_decide_eq_true }⟩

/-- A node of a match tree: a feature or a statement, with what it says in the report. -/
structure MatchNode where
  success : Bool := false
  isFeature : Bool := false
  feature : Option Feature := none
  statementType : Str := []
  count : Option Int64 := none
  rangeMin : Option Int64 := none
  rangeMax : Option Int64 := none
  rangeChild : Option Feature := none
  subscope : Option Scope := none
  children : List MatchNode := []
  locations : List Address := []

/-- A `size_t` cast to a signed number. -/
def toSigned (n : ℕ) : Int64 := (UInt64.ofNat n).toInt64

/-- The kind of a statement and its own fields. -/
def fillStatement (node : MatchNode) : Statement → MatchNode
  | .someOf count _ =>
    if count = 0 then { node with statementType := str "optional" }
    else { node with statementType := str "some", count := some (toSigned count) }
  | .range feature min max =>
    { node with
      statementType := str "range"
      rangeMin := some (toSigned min)
      rangeMax := some (toSigned max)
      rangeChild := some feature }
  | .subscope scope _ => { node with statementType := str "subscope", subscope := some scope }
  | .and _ => { node with statementType := str "and" }
  | .or _ => { node with statementType := str "or" }
  | .not _ => { node with statementType := str "not" }
  | .feature _ => { node with statementType := str "feature" }

/-- The feature or the statement of a result. -/
def fillNode (result : Result) : MatchNode :=
  match result.node with
  | .none => { success := result.success }
  | .feature f => { success := result.success, isFeature := true, feature := some f }
  | .statement s => fillStatement { success := result.success } s

section Build

variable (rs : RuleSet) (results : MatchResults) (order : AddressSort)

/-- The node of a result over the nodes of its children, before anything is spliced in. -/
def plainNode (result : Result) (children : List MatchNode) : MatchNode :=
  let node := { fillNode result with children }
  if result.success ∧ (node.isFeature ∨ node.statementType = str "range") then
    { node with locations := order.sort result.locations }
  else node

/-- The name a successful match feature tests. -/
def matchedName (result : Result) : Option Str :=
  match result.node with
  | .feature f => if result.success then f.matchedName? else none
  | _ => none

/-- The results of a rule at some places, the first one at each. -/
def spliceRule (locs : List Address) (ruleName : Str) : List Result :=
  locs.filterMap fun loc =>
    (((AssocList.get? ruleName results).getD []).find? fun e =>
      linearize e.1 = linearize loc).map Prod.snd

/-- The rules whose results a name stands for: the one of that name, or else those under the
namespace. -/
def splicedNames (name : Str) : List Str :=
  match rs.find name with
  | some _ => [name]
  | none => (rs.rulesInNamespace name).map Rule.name

/-- The results spliced in below a result. -/
def spliced (result : Result) : List Result :=
  match matchedName result with
  | none => []
  | some name => (splicedNames rs name).flatMap (spliceRule results (order.sort result.locations))

/-- A match feature of a subscope rule shows as the subscope it stands for. -/
def rewriteSubscope (name : Str) (node : MatchNode) : MatchNode :=
  match rs.find name with
  | none => node
  | some rule =>
    if rule.info.isSubscopeRule then
      { node with
        isFeature := false
        feature := none
        statementType := str "subscope"
        subscope := rule.info.scopes.staticScope.or rule.info.scopes.dynamicScope }
    else node

mutual

/-- The tree of a result at the depth where nothing is spliced in any more. -/
def buildCut : Result → MatchNode
  | ⟨success, node, children, locations⟩ =>
    plainNode order ⟨success, node, children, locations⟩ (buildCutAll children)

/-- The trees of several results there. -/
def buildCutAll : List Result → List MatchNode
  | [] => []
  | child :: rest => buildCut child :: buildCutAll rest

end

/-- The tree of a result, `todo` levels above that depth. -/
def buildFrom : (todo : ℕ) → Result → MatchNode
  | 0, result => buildCut order result
  | todo + 1, result =>
    let node := plainNode order result (result.children.map (buildFrom todo))
    match matchedName result with
    | none => node
    | some name =>
      let node := rewriteSubscope rs name node
      { node with
        children := node.children ++ (spliced rs results order result).map (buildFrom todo) }

/-- `kMaxMatchDepth`. -/
def kMaxMatchDepth : ℕ := 256

/-- `build_match`: the tree of a result that stands at a depth. -/
def buildMatch (depth : ℕ) (result : Result) : MatchNode :=
  buildFrom rs results order (kMaxMatchDepth - depth) result

end Build

end Papa.Render
