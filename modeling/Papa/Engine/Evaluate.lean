import Papa.Features.Matching

/-!
# The evaluators of statements

`evaluate` builds the result tree, in full or stopping early; `evaluateQuick` only answers yes or
no. Both throw when they reach a subscope placeholder, which has to be extracted before matching.

## Main definitions

* `Papa.Engine.Statement.evaluate`, `Papa.Engine.Statement.evaluateQuick`.
* `Papa.Engine.inRange`: the bounds test of `count(...)`.
-/

namespace Papa.Engine

open Features

/-- `PapaInvariantError` of a subscope that reaches evaluation. -/
def subscopeReached : Thrown := ⟨str "Subscope statement reached evaluate before extraction"⟩

/-- The count lies in the bounds; a zero minimum is met by an absent feature whatever the
maximum. -/
def inRange (cnt min max : ℕ) : Bool := (min == 0 && cnt == 0) || (min ≤ cnt && cnt ≤ max)

/-- The union of the locations of a list of results. -/
def unionLocations (rs : List Result) : Finset Address :=
  rs.foldl (fun locs r => locs ∪ r.locations) ∅

/-- `Range::evaluate`. -/
def evaluateRange (s : Statement) (f : Feature) (min max : ℕ) (fs : FeatureSet) : Result :=
  let cnt := fs.count f
  if min = 0 ∧ cnt = 0 then { success := true, node := .statement s }
  else
    let success := min ≤ cnt && cnt ≤ max
    { success := success, node := .statement s,
      locations := if success then (fs.find f).getD ∅ else ∅ }

namespace Statement

section Evaluate

variable (E : RegexEngine) (fs : FeatureSet)

mutual

/-- Evaluate a statement into a result tree; `sc` stops at the first child that decides. -/
def evaluate : Statement → (sc : Bool) → Throws Result
  | and kids, sc => do
      let (children, ok) ← evaluateAnd kids sc
      return { success := ok, node := .statement (and kids), children := children,
               locations := if ok then unionLocations children else ∅ }
  | or kids, sc => do
      let (children, ok, locs) ← evaluateOr kids sc
      return { success := ok, node := .statement (or kids), children := children,
               locations := locs }
  | not s, _ => do
      -- negation needs the precise truth value of its child
      let cr ← evaluate s false
      return { success := !cr.success, node := .statement (not s), children := [cr] }
  | someOf count kids, sc => do
      let (children, okCount, locs) ← evaluateSome count kids sc 0
      return { success := count = 0 || count ≤ okCount, node := .statement (someOf count kids),
               children := children, locations := locs }
  | range f min max, _ => .ok (evaluateRange (range f min max) f min max fs)
  | subscope _ _, _ => .error subscopeReached
  | feature f, sc => .ok (f.evaluate E fs sc)

/-- The loop of `And::evaluate`: the child results and whether all succeeded. -/
def evaluateAnd : List (Option Statement) → (sc : Bool) → Throws (List Result × Bool)
  | [], _ => .ok ([], true)
  | none :: rest, sc =>
      if sc then .ok ([], false)
      else do
        let (crs, _) ← evaluateAnd rest sc
        return (crs, false)
  | some s :: rest, sc => do
      let cr ← evaluate s sc
      if !cr.success && sc then return ([cr], false)
      else
        let (crs, ok) ← evaluateAnd rest sc
        return (cr :: crs, cr.success && ok)

/-- The loop of `Or::evaluate`: the child results, whether any succeeded, and the locations of
those that did. -/
def evaluateOr : List (Option Statement) → (sc : Bool) →
    Throws (List Result × Bool × Finset Address)
  | [], _ => .ok ([], false, ∅)
  | none :: rest, sc => evaluateOr rest sc
  | some s :: rest, sc => do
      let cr ← evaluate s sc
      if cr.success && sc then return ([cr], true, cr.locations)
      else
        let (crs, ok, locs) ← evaluateOr rest sc
        return (cr :: crs, cr.success || ok, if cr.success then cr.locations ∪ locs else locs)

/-- The loop of `Some::evaluate` with `okCount` successes so far: the child results, the number
that succeeded and their locations. -/
def evaluateSome (count : ℕ) : List (Option Statement) → (sc : Bool) → (okCount : ℕ) →
    Throws (List Result × ℕ × Finset Address)
  | [], _, okCount => .ok ([], okCount, ∅)
  | none :: rest, sc, okCount => evaluateSome count rest sc okCount
  | some s :: rest, sc, okCount => do
      let cr ← evaluate s sc
      let okCount := if cr.success then okCount + 1 else okCount
      let here := if cr.success then cr.locations else ∅
      if sc && decide (0 < count) && decide (count ≤ okCount) then return ([cr], okCount, here)
      else
        let (crs, n, locs) ← evaluateSome count rest sc okCount
        return (cr :: crs, n, here ∪ locs)

end

mutual

/-- The probe: the truth value of a statement, without a result tree. -/
def evaluateQuick : Statement → Throws Bool
  | and kids => quickAnd kids
  | or kids => quickOr kids
  | not s => do return !(← evaluateQuick s)
  | someOf count kids => if count = 0 then .ok true else quickSome count kids 0
  | range f min max => .ok (inRange (fs.count f) min max)
  | subscope _ _ => .error subscopeReached
  | feature f => .ok (f.matchesSet E fs)

/-- The loop of `And::evaluate_quick`. -/
def quickAnd : List (Option Statement) → Throws Bool
  | [] => .ok true
  | none :: _ => .ok false
  | some s :: rest => do if ← evaluateQuick s then quickAnd rest else return false

/-- The loop of `Or::evaluate_quick`. -/
def quickOr : List (Option Statement) → Throws Bool
  | [] => .ok false
  | none :: rest => quickOr rest
  | some s :: rest => do if ← evaluateQuick s then return true else quickOr rest

/-- The loop of `Some::evaluate_quick` with `hits` successes so far. -/
def quickSome (count : ℕ) : List (Option Statement) → (hits : ℕ) → Throws Bool
  | [], _ => .ok false
  | none :: rest, hits => quickSome count rest hits
  | some s :: rest, hits => do
      if ← evaluateQuick s then
        if count ≤ hits + 1 then return true else quickSome count rest (hits + 1)
      else quickSome count rest hits

end

end Evaluate

end Statement

end Papa.Engine
