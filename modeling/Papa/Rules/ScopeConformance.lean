import Papa.Engine.Statement

/-!
# Scope conformance

Which features a rule may use at a scope. A feature has an origin scope, the lowest one it occurs
at, and is allowed there and at every wider scope; a dynamic scope accepts every feature.

## Main definitions

* `Papa.Rules.scopeLevel`, `Papa.Rules.featureOrigin`: the order of scopes and where a kind of
  feature originates.
* `Papa.Rules.isFeatureAllowed`, `Papa.Rules.isCharacteristicAllowed`: the conformance checks.

## Main results

* `Papa.Rules.isFeatureAllowed_mono`, `Papa.Rules.isCharacteristicAllowed_mono`: what is allowed at
  a static scope is allowed at every wider one.
-/

namespace Papa.Rules

open Features

/-- The rank of a static scope, and zero for any other. -/
def scopeLevel : Scope → ℕ
  | .instruction => 1
  | .basicBlock => 2
  | .function => 3
  | .file => 4
  | _ => 0

/-- A scope of the dynamic pipeline. -/
def Scope.isDynamic : Scope → Bool
  | .process => true
  | .thread => true
  | .call => true
  | .spanOfCalls => true
  | _ => false

/-- The lowest scope a kind of feature may appear at in a rule. Characteristics have their own
rules, and the basic block tag is for extractors only. -/
def featureOrigin : FeatureTag → Option Scope
  | .os | .arch | .format | .matchedRule | .string | .substring | .regex => some .instruction
  | .import_ | .export_ | .section_ => some .file
  | .functionName | .class_ | .namespace_ => some .instruction
  | .api | .mnemonic | .number | .offset | .bytes | .operandNumber | .operandOffset
  | .property => some .instruction
  | .characteristic => none
  | .basicBlock => none

/-- Whether a rule may test a kind of feature at a scope. -/
def isFeatureAllowed (tag : FeatureTag) (scope : Scope) : Bool :=
  if tag = .basicBlock then false
  else if scope.isDynamic then true
  else if tag = .functionName ∨ tag = .class_ ∨ tag = .namespace_ then
    scopeLevel .instruction ≤ scopeLevel scope
  else if tag = .characteristic then true
  else
    match featureOrigin tag with
    | none => false
    | some origin => scopeLevel origin ≤ scopeLevel scope

/-- The characteristics of a file. -/
def kFileOrigin : List Str := [str "embedded pe", str "mixed mode", str "forwarded export"]

/-- The characteristics of a function. -/
def kFnOrigin : List Str := [str "loop", str "calls from", str "calls to", str "recursive call"]

/-- The characteristics of a basic block. -/
def kBbOrigin : List Str := [str "tight loop", str "stack string"]

/-- The characteristics of an instruction. -/
def kInsnOrigin : List Str :=
  [str "nzxor", str "peb access", str "fs access", str "gs access", str "call $+5",
    str "cross section flow", str "indirect call", str "unmanaged call"]

/-- Whether a rule may test a characteristic at a scope. Unknown names are accepted. -/
def isCharacteristicAllowed (value : Str) (scope : Scope) : Bool :=
  if scope.isDynamic then true
  else if kFileOrigin.contains value then scope = .file
  else if kFnOrigin.contains value then scopeLevel .function ≤ scopeLevel scope
  else if kBbOrigin.contains value then scopeLevel .basicBlock ≤ scopeLevel scope
  else if kInsnOrigin.contains value then scopeLevel .instruction ≤ scopeLevel scope
  else true

/-! ### Wider scopes -/

theorem isDynamic_eq_false_of_scopeLevel_pos {s : Scope} (h : 0 < scopeLevel s) :
    s.isDynamic = false := by
  cases s <;> first | rfl | exact absurd h (Nat.lt_irrefl 0)

theorem eq_file_of_four_le {s : Scope} (h : 4 ≤ scopeLevel s) : s = .file := by
  cases s <;> simp [scopeLevel] at h ⊢

variable {s t : Scope} (hs : 0 < scopeLevel s) (hst : scopeLevel s ≤ scopeLevel t)

include hs hst

/-- **A feature allowed at a static scope is allowed at every wider one.** -/
theorem isFeatureAllowed_mono {tag : FeatureTag} (h : isFeatureAllowed tag s) :
    isFeatureAllowed tag t := by
  have hsd := isDynamic_eq_false_of_scopeLevel_pos hs
  have htd := isDynamic_eq_false_of_scopeLevel_pos (hs.trans_le hst)
  unfold isFeatureAllowed at h ⊢
  simp only [hsd, htd, Bool.false_eq_true, if_false] at h ⊢
  split_ifs at h ⊢ with hbb hname hchar
  · exact decide_eq_true ((of_decide_eq_true h).trans hst)
  · exact h
  · cases horigin : featureOrigin tag with
    | none =>
      rw [horigin] at h
      exact absurd h Bool.false_ne_true
    | some origin =>
      rw [horigin] at h
      exact decide_eq_true ((of_decide_eq_true h).trans hst)

/-- **A characteristic allowed at a static scope is allowed at every wider one.** -/
theorem isCharacteristicAllowed_mono {value : Str} (h : isCharacteristicAllowed value s) :
    isCharacteristicAllowed value t := by
  have hsd := isDynamic_eq_false_of_scopeLevel_pos hs
  have htd := isDynamic_eq_false_of_scopeLevel_pos (hs.trans_le hst)
  unfold isCharacteristicAllowed at h ⊢
  simp only [hsd, htd, Bool.false_eq_true, if_false] at h ⊢
  split_ifs at h ⊢ with hfile hfn hbb hinsn
  · have hs4 : scopeLevel s = 4 := congrArg scopeLevel (of_decide_eq_true h)
    exact decide_eq_true (eq_file_of_four_le (hs4 ▸ hst))
  · exact decide_eq_true ((of_decide_eq_true h).trans hst)
  · exact decide_eq_true ((of_decide_eq_true h).trans hst)
  · exact decide_eq_true ((of_decide_eq_true h).trans hst)
  · exact h

end Papa.Rules
