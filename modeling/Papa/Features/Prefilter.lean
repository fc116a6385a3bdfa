import Papa.Features.Matching
import Papa.Util.RequiredLiteral

/-!
# The prefilter of regular expression features

A `Regex` feature searches only the strings that contain its required literal. With an engine that
implements the ECMAScript grammar and its matching, every string it finds a match in contains that
literal, so that evaluation is what it would be without the prefilter.

## Main definitions

* `Papa.Features.RegexEngine.IsEcmaScript`: the engine implements the grammar and its matching.
* `Papa.Features.Feature.evaluateUnfiltered`, `Papa.Features.Feature.matchesUnfiltered`: evaluation
  of a regular expression without the prefilter.

## Main results

* `Papa.Features.prefilter_sound`: the prefilter drops no match.
-/

namespace Papa.Features

open Engine Util EcmaRegex

/-- The engine accepts a pattern only if it is one of the grammar, and a search decides whether the
tree of the pattern matches anywhere. -/
def RegexEngine.IsEcmaScript (E : RegexEngine) (T : Traits) (pattern : Str) (icase : Bool) : Prop :=
  E.compiles pattern icase →
    ∃ a, Derives pattern a ∧ ∀ subject, E.search pattern icase subject = found T icase subject a

theorem RegexEngine.IsEcmaScript.containsLiteral {E : RegexEngine} {T : Traits}
    {pattern subject : Str} {icase : Bool} (hE : E.IsEcmaScript T pattern icase)
    (hc : E.compiles pattern icase) (hs : E.search pattern icase subject) :
    Util.containsLiteral subject (requiredLiteral pattern icase) icase := by
  obtain ⟨a, ha, hsearch⟩ := hE hc
  rw [hsearch subject] at hs
  exact containsLiteral_of_found T ha hs

namespace Feature

/-- The compiled pattern finds a match in the text. -/
def regexSearch (E : RegexEngine) (lit : RegexLiteral) (f : Feature) : Bool :=
  E.search lit.pattern lit.caseInsensitive f.text

/-- `Regex::evaluate` without the prefilter. -/
def evaluateUnfiltered (E : RegexEngine) (f : Feature) (literal : Str) (fs : FeatureSet)
    (sc : Bool) : Result :=
  let lit := parseRegexLiteral literal
  if !E.compiles lit.pattern lit.caseInsensitive then { node := .feature f }
  else scanResult f (scan fs sc (regexSearch E lit) fs.strings)

/-- `Regex::matches` without the prefilter. -/
def matchesUnfiltered (E : RegexEngine) (literal : Str) (fs : FeatureSet) : Bool :=
  let lit := parseRegexLiteral literal
  if !E.compiles lit.pattern lit.caseInsensitive then false
  else fs.strings.any (regexSearch E lit)

/-- A compiled pattern hits the same strings with and without the prefilter. -/
theorem regexHit_eq {E : RegexEngine} {T : Traits} {lit : RegexLiteral}
    (hE : E.IsEcmaScript T lit.pattern lit.caseInsensitive)
    (hc : E.compiles lit.pattern lit.caseInsensitive) : regexHit E lit = regexSearch E lit := by
  funext f
  rw [regexHit, regexSearch, Bool.and_eq_right_iff_imp]
  exact hE.containsLiteral hc

end Feature

/-- **The prefilter drops no match** of a pattern that the engine treats as the grammar does: a
string in which the compiled pattern finds a match contains the required literal, and neither
evaluator of a regular expression changes on any feature set. -/
theorem prefilter_sound {E : RegexEngine} {T : Traits} :
    (∀ (pattern subject : Str) (icase : Bool), E.IsEcmaScript T pattern icase →
      E.compiles pattern icase → E.search pattern icase subject →
        containsLiteral subject (requiredLiteral pattern icase) icase) ∧
    ∀ (f : Feature) (literal : Str), f.value = .regex literal →
      E.IsEcmaScript T (parseRegexLiteral literal).pattern
        (parseRegexLiteral literal).caseInsensitive → ∀ fs : FeatureSet,
      (∀ sc, f.evaluate E fs sc = f.evaluateUnfiltered E literal fs sc) ∧
      f.matchesSet E fs = Feature.matchesUnfiltered E literal fs := by
  refine ⟨fun pattern subject icase hE => hE.containsLiteral, fun f literal hf hE fs => ?_⟩
  cases hc : E.compiles (parseRegexLiteral literal).pattern
    (parseRegexLiteral literal).caseInsensitive with
  | false =>
    simp only [Feature.evaluate, Feature.evaluateUnfiltered, Feature.matchesSet,
      Feature.matchesUnfiltered, hf, hc, Bool.not_false, if_true, implies_true, and_self]
  | true =>
    simp only [Feature.evaluate, Feature.evaluateUnfiltered, Feature.matchesSet,
      Feature.matchesUnfiltered, hf, hc, Bool.not_true, Bool.false_eq_true, if_false,
      Feature.regexHit_eq hE hc, implies_true, and_self]

/-- `ab+c` with letters of either case has a match in `xABBC`. -/
theorem prefilter_sound_repeat : ∃ (E : RegexEngine) (T : Traits),
    E.IsEcmaScript T (str "ab+c") true ∧
    E.compiles (str "ab+c") true ∧ E.search (str "ab+c") true (str "xABBC") ∧
    requiredLiteral (str "ab+c") true = str "ab" ∧
    containsLiteral (str "xABBC") (requiredLiteral (str "ab+c") true) true := by
  let T : Traits := ⟨fun body _ c => body.contains c, false⟩
  let a : Node := .seq (.char (ch 'a')) (.seq (.rep 1 none true (.char (ch 'b')))
    (.seq (.char (ch 'c')) .empty))
  let E : RegexEngine := ⟨fun pattern _ => pattern == str "ab+c", fun _ icase subject =>
    found T icase subject a⟩
  have hE : E.IsEcmaScript T (str "ab+c") true := by
    intro _
    refine ⟨a, ⟨0, .one ?_⟩, fun _ => rfl⟩
    exact .term (p := [ch 'a']) (.atom (.char (by decide))) <|
      .term (p := [ch 'b', ch '+']) (.greedy (p := [ch 'b']) (.char (by decide)) .plus) <|
      .term (p := [ch 'c']) (.atom (.char (by decide))) .empty
  have hc : E.compiles (str "ab+c") true := by decide
  have hs : E.search (str "ab+c") true (str "xABBC") := by decide +kernel
  exact ⟨E, T, hE, hc, hs, by decide +kernel,
    prefilter_sound.1 (str "ab+c") (str "xABBC") true hE hc hs⟩

end Papa.Features
