import Papa.Engine.Statement
import Papa.Util.RegexPrefilter

/-!
# Matching a single feature against a feature set

Every feature has two evaluators, one building a `Result` with the locations found, one only
answering yes or no. Most kinds look themselves up by key; substrings, regular expressions and byte
patterns scan the index of their tag, and operating systems know a wildcard on either side. The
regular expression engine is a parameter.

## Main definitions

* `Papa.Features.RegexEngine`: compilation and search of `std::regex`.
* `Papa.Features.Feature.evaluate`, `Papa.Features.Feature.matchesSet`.

## Main results

* `Papa.Features.Feature.evaluate_success`: the two evaluators agree, whatever the mode.
-/

namespace Papa.Features

open Engine Util

/-- `std::regex` with the ECMAScript grammar: whether a pattern compiles, and whether a compiled
pattern finds a match anywhere in a subject. -/
structure RegexEngine where
  compiles : (pattern : Str) → (icase : Bool) → Bool
  search : (pattern : Str) → (icase : Bool) → (subject : Str) → Bool

/-- A regular expression literal split into its pattern and its case flag. -/
structure RegexLiteral where
  pattern : Str
  caseInsensitive : Bool := false
  deriving DecidableEq

/-- Accept `/pattern/` or `/pattern/i`, taking any other literal as the pattern itself. -/
def parseRegexLiteral (lit : Str) : RegexLiteral :=
  if 2 ≤ lit.length ∧ lit.head? = some (ch '/') then
    if 3 ≤ lit.length ∧ lit.getLast? = some (ch 'i') ∧
        lit[lit.length - 2]? = some (ch '/') then
      ⟨(lit.drop 1).take (lit.length - 3), true⟩
    else if lit.getLast? = some (ch '/') then ⟨(lit.drop 1).take (lit.length - 2), false⟩
    else ⟨lit, false⟩
  else ⟨lit, false⟩

/-- The wildcard of operating systems. -/
def kAnyWildcard : Str := str "any"

/-- The set-side wildcard. -/
def anyOs : Feature := { value := .os kAnyWildcard }

namespace Feature

/-- The text of a feature of the string index. -/
def text (f : Feature) : Str :=
  match f.value with
  | .string v => v
  | _ => []

/-- The payload of a feature of the byte index. -/
def payload (f : Feature) : List UInt8 :=
  match f.value with
  | .bytes v => v
  | _ => []

/-- `Substring`: the text holds the value. -/
def substringHit (value : Str) (f : Feature) : Bool := (Str.findStr f.text value).isSome

/-- `Regex`: the text holds the required literal and the compiled pattern finds a match. -/
def regexHit (E : RegexEngine) (lit : RegexLiteral) (f : Feature) : Bool :=
  containsLiteral f.text (requiredLiteral lit.pattern lit.caseInsensitive) lit.caseInsensitive &&
    E.search lit.pattern lit.caseInsensitive f.text

/-- `Bytes`: the value is a prefix of the candidate. -/
def bytesHit (value : List UInt8) (f : Feature) : Bool :=
  decide (value.length ≤ f.payload.length) && f.payload.take value.length == value

/-- `Os` with the wildcard on the rule side: any operating system. -/
def osHit (f : Feature) : Bool := decide (f.tag = .os)

end Feature

/-- The scanning loop over an index: success and the locations of every hit, stopping at the first
one in short-circuit mode. -/
def scan (fs : FeatureSet) (sc : Bool) (hit : Feature → Bool) : List Feature → Bool × Finset Address
  | [] => (false, ∅)
  | f :: rest =>
    if hit f then
      let locs := (fs.find f).getD ∅
      if sc then (true, locs) else (true, locs ∪ (scan fs sc hit rest).2)
    else scan fs sc hit rest

theorem scan_fst (fs : FeatureSet) (sc : Bool) (hit : Feature → Bool) (l : List Feature) :
    (scan fs sc hit l).1 = l.any hit := by
  induction l with
  | nil => rfl
  | cons f l ih =>
    rw [scan, List.any_cons]
    cases hf : hit f with
    | false => simpa using ih
    | true => cases sc <;> rfl

namespace Feature

/-- The result of a scan. -/
def scanResult (f : Feature) (r : Bool × Finset Address) : Result :=
  { success := r.1, node := .feature f, locations := r.2 }

/-- `Feature::evaluate`: look the feature up by key. -/
def evaluateLookup (f : Feature) (fs : FeatureSet) : Result :=
  match fs.find f with
  | none => { node := .feature f }
  | some locs => { success := true, node := .feature f, locations := locs }

/-- `Os::evaluate` after a failed lookup of the value itself. -/
def evaluateOs (f : Feature) (value : Str) (fs : FeatureSet) (sc : Bool) : Result :=
  if value ≠ kAnyWildcard then
    { evaluateLookup anyOs fs with node := .feature f }
  else scanResult f (scan fs sc osHit (fs.entries.map Prod.fst))

/-- `evaluate` of every feature class. -/
def evaluate (E : RegexEngine) (f : Feature) (fs : FeatureSet) (sc : Bool) : Result :=
  match f.value with
  | .substring value => scanResult f (scan fs sc (substringHit value) fs.strings)
  | .regex literal =>
      let lit := parseRegexLiteral literal
      if !E.compiles lit.pattern lit.caseInsensitive then { node := .feature f }
      else scanResult f (scan fs sc (regexHit E lit) fs.strings)
  | .bytes value => scanResult f (scan fs sc (bytesHit value) fs.bytesFeatures)
  | .os value =>
      let r := evaluateLookup f fs
      if r.success then r else evaluateOs f value fs sc
  | _ => evaluateLookup f fs

/-- `matches` of every feature class, the form of `evaluate` that only answers yes or no. -/
def matchesSet (E : RegexEngine) (f : Feature) (fs : FeatureSet) : Bool :=
  match f.value with
  | .substring value => fs.strings.any (substringHit value)
  | .regex literal =>
      let lit := parseRegexLiteral literal
      if !E.compiles lit.pattern lit.caseInsensitive then false
      else fs.strings.any (regexHit E lit)
  | .bytes value => fs.bytesFeatures.any (bytesHit value)
  | .os value =>
      if fs.has f then true
      else if value ≠ kAnyWildcard then fs.has anyOs
      else (fs.entries.map Prod.fst).any osHit
  | _ => fs.has f

@[simp] theorem evaluateLookup_success (f : Feature) (fs : FeatureSet) :
    (evaluateLookup f fs).success = fs.has f := by
  rw [evaluateLookup, FeatureSet.has]
  cases fs.find f <;> rfl

@[simp] theorem scanResult_success (f : Feature) (r : Bool × Finset Address) :
    (scanResult f r).success = r.1 := rfl

private theorem evaluateOs_success (f : Feature) (value : Str) (fs : FeatureSet) (sc : Bool) :
    (evaluateOs f value fs sc).success =
      if value ≠ kAnyWildcard then fs.has anyOs else (fs.entries.map Prod.fst).any osHit := by
  rw [evaluateOs]
  split_ifs
  · exact evaluateLookup_success anyOs fs
  · exact scan_fst fs sc osHit _

/-- **The two evaluators of a feature agree**, in either mode. -/
theorem evaluate_success (E : RegexEngine) (f : Feature) (fs : FeatureSet) (sc : Bool) :
    (f.evaluate E fs sc).success = f.matchesSet E fs := by
  rw [evaluate, matchesSet]
  split
  · exact scan_fst fs sc _ _
  · dsimp only
    split_ifs
    · rfl
    · exact scan_fst fs sc _ _
  · exact scan_fst fs sc _ _
  · rw [apply_ite Result.success, evaluateLookup_success, evaluateOs_success]
    cases fs.has f <;> rfl
  · exact evaluateLookup_success f fs

/-- A structural lookup decides the feature: not a scanning kind, and not an operating system. -/
def lookupOnly (t : FeatureTag) : Bool :=
  match t with
  | .substring | .regex | .bytes | .os => false
  | _ => true

theorem matchesSet_of_lookupOnly {E : RegexEngine} {f : Feature} (h : lookupOnly f.tag)
    (fs : FeatureSet) : f.matchesSet E fs = fs.has f := by
  rw [matchesSet]
  split <;> first | rfl | simp_all [tag, FeatureValue.tag, lookupOnly]

end Feature

end Papa.Features
