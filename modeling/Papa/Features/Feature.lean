import Papa.Util.Text

/-!
# Addresses and features

A feature is a kind with its payload, a free-text description that takes no part in comparisons,
and the identity of the object holding it. Features are held by shared pointers, so two pointers
to one object always compare equal; this is visible only for a number that is not equal to itself.
A `double` is its IEEE 754 bit pattern.

## Main definitions

* `Papa.Features.Address`, `Papa.Features.FeatureTag`, `Papa.Features.NumberValue`.
* `Papa.Features.FeatureValue`, `Papa.Features.Feature`: the feature classes.
* `Papa.Features.FeatureValue.equals`: structural equality of features.
* `Papa.Features.Feature.eqKey`: the key equality of feature containers, an equivalence.
-/

namespace Papa.Features

/-- A location in a binary, in one of several address spaces. -/
inductive Address
  | noAddress
  | absoluteVirtual (v : UInt64)
  | relativeVirtual (v : UInt64)
  | fileOffset (v : UInt64)
  | dnToken (token : UInt64)
  | dnTokenOffset (token offset : UInt64)
  deriving DecidableEq

/-- Identifier for every feature kind. -/
inductive FeatureTag
  | string | substring | regex | bytes | number | offset | mnemonic | api | import_ | export_
  | section_ | functionName | class_ | namespace_ | property | characteristic | matchedRule
  | os | arch | format | operandNumber | operandOffset | basicBlock
  deriving DecidableEq

/-! ### Numbers -/

/-- The bits of a `double` without its sign. -/
def doubleMagnitude (bits : UInt64) : UInt64 := bits &&& 0x7FFFFFFFFFFFFFFF

/-- A `double` that is not a number. -/
def isNaN (bits : UInt64) : Bool := 0x7FF0000000000000 < doubleMagnitude bits

/-- `==` on doubles: no NaN equals anything, and the two zeros are equal. -/
def doubleEq (a b : UInt64) : Bool :=
  !isNaN a && !isNaN b && (a == b || (doubleMagnitude a == 0 && doubleMagnitude b == 0))

theorem doubleEq_symm {a b : UInt64} (h : doubleEq a b) : doubleEq b a := by
  simp only [doubleEq, Bool.and_eq_true, Bool.or_eq_true, beq_iff_eq] at h ⊢
  tauto

theorem doubleEq_trans {a b c : UInt64} (hab : doubleEq a b) (hbc : doubleEq b c) :
    doubleEq a c := by
  simp only [doubleEq, Bool.and_eq_true, Bool.or_eq_true, beq_iff_eq] at hab hbc ⊢
  obtain ⟨⟨ha, hb⟩, hab⟩ := hab
  obtain ⟨⟨-, hc⟩, hbc⟩ := hbc
  refine ⟨⟨ha, hc⟩, ?_⟩
  rcases hab with rfl | ⟨ha0, hb0⟩
  · exact hbc
  · rcases hbc with rfl | ⟨-, hc0⟩
    · exact Or.inr ⟨ha0, hb0⟩
    · exact Or.inr ⟨ha0, hc0⟩

/-- A number literal: unsigned, signed or floating point. -/
inductive NumberValue
  | uint64 (v : UInt64)
  | int64 (v : Int64)
  | double (bits : UInt64)
  deriving DecidableEq

/-- Equality of variants: differing alternatives are unequal even when their payloads match. -/
def NumberValue.equals : NumberValue → NumberValue → Bool
  | .uint64 v, .uint64 w => v == w
  | .int64 v, .int64 w => v == w
  | .double v, .double w => doubleEq v w
  | _, _ => false

theorem NumberValue.equals_symm {v w : NumberValue} (h : v.equals w) : w.equals v := by
  cases v <;> cases w <;> simp only [equals, beq_iff_eq, Bool.false_eq_true] at h ⊢
  · exact h.symm
  · exact h.symm
  · exact doubleEq_symm h

theorem NumberValue.equals_trans {u v w : NumberValue} (huv : u.equals v) (hvw : v.equals w) :
    u.equals w := by
  cases u <;> cases v <;> simp only [equals, beq_iff_eq, Bool.false_eq_true] at huv <;>
    cases w <;> simp only [equals, beq_iff_eq, Bool.false_eq_true] at hvw ⊢
  · exact huv.trans hvw
  · exact huv.trans hvw
  · exact doubleEq_trans huv hvw

/-! ### Features -/

/-- Access kind of a managed-language property. -/
inductive Access
  | none | read | write
  deriving DecidableEq

/-- The feature classes with what each compares by. -/
inductive FeatureValue
  | string (value : Str)
  | substring (value : Str)
  | regex (literal : Str)
  | bytes (value : List UInt8)
  | number (value : NumberValue)
  | offset (value : Int64)
  | mnemonic (value : Str)
  | api (value : Str)
  | import_ (value : Str)
  | export_ (value : Str)
  | section_ (value : Str)
  | functionName (value : Str)
  | class_ (value : Str)
  | namespace_ (value : Str)
  | property (value : Str) (access : Access)
  | characteristic (value : Str)
  | matchedRule (ruleName : Str)
  | os (value : Str)
  | arch (value : Str)
  | format (value : Str)
  | operandNumber (index : ℕ) (value : NumberValue)
  | operandOffset (index : ℕ) (value : Int64)
  | basicBlock
  deriving DecidableEq

namespace FeatureValue

/-- The tag each class passes to its base constructor. -/
def tag : FeatureValue → FeatureTag
  | string _ => .string
  | substring _ => .substring
  | regex _ => .regex
  | bytes _ => .bytes
  | number _ => .number
  | offset _ => .offset
  | mnemonic _ => .mnemonic
  | api _ => .api
  | import_ _ => .import_
  | export_ _ => .export_
  | section_ _ => .section_
  | functionName _ => .functionName
  | class_ _ => .class_
  | namespace_ _ => .namespace_
  | property _ _ => .property
  | characteristic _ => .characteristic
  | matchedRule _ => .matchedRule
  | os _ => .os
  | arch _ => .arch
  | format _ => .format
  | operandNumber _ _ => .operandNumber
  | operandOffset _ _ => .operandOffset
  | basicBlock => .basicBlock

/-- Structural equality of payloads. The kinds that hold a number compare it as a variant, every
other kind compares tag and payload. -/
def equals (v w : FeatureValue) : Bool :=
  match v with
  | number a =>
    match w with
    | number b => a.equals b
    | _ => false
  | operandNumber i a =>
    match w with
    | operandNumber j b => i == j && a.equals b
    | _ => false
  | _ => decide (v = w)

/-- The relation `equals` decides. -/
inductive Same : FeatureValue → FeatureValue → Prop
  | number {a b : NumberValue} (h : a.equals b) : Same (number a) (number b)
  | operandNumber {a b : NumberValue} (i : ℕ) (h : a.equals b) :
      Same (operandNumber i a) (operandNumber i b)
  | rest (v : FeatureValue) (h : v.tag ≠ .number ∧ v.tag ≠ .operandNumber) : Same v v

theorem equals_iff_same (v w : FeatureValue) : v.equals w ↔ Same v w := by
  constructor
  · intro h
    cases v
    case number a =>
      cases w <;> first | exact .number h | exact absurd h Bool.false_ne_true
    case operandNumber i a =>
      cases w
      case operandNumber j b =>
        obtain ⟨hi, hab⟩ := Bool.and_eq_true_iff.mp h
        exact eq_of_beq hi ▸ .operandNumber i hab
      all_goals exact absurd h Bool.false_ne_true
    all_goals
      cases of_decide_eq_true h
      exact .rest _ ⟨nofun, nofun⟩
  · intro h
    cases h with
    | number h => exact h
    | operandNumber i h => simp only [equals, beq_self_eq_true, Bool.true_and, h]
    | rest _ hv =>
      cases v
      case number => exact absurd rfl hv.1
      case operandNumber => exact absurd rfl hv.2
      all_goals simp [equals]

namespace Same

theorem symm {v w : FeatureValue} (h : Same v w) : Same w v := by
  cases h with
  | number h => exact .number (NumberValue.equals_symm h)
  | operandNumber i h => exact .operandNumber i (NumberValue.equals_symm h)
  | rest _ hv => exact .rest _ hv

theorem trans {u v w : FeatureValue} (huv : Same u v) (hvw : Same v w) : Same u w := by
  cases huv with
  | number h =>
    cases hvw with
    | number h' => exact .number (NumberValue.equals_trans h h')
    | rest _ hv => exact absurd rfl hv.1
  | operandNumber i h =>
    cases hvw with
    | operandNumber _ h' => exact .operandNumber i (NumberValue.equals_trans h h')
    | rest _ hv => exact absurd rfl hv.2
  | rest => exact hvw

/-- Equal features have the same tag. -/
theorem tag_eq {v w : FeatureValue} (h : Same v w) : v.tag = w.tag := by
  cases h <;> rfl

end Same

end FeatureValue

/-- A feature object behind a shared pointer. -/
structure Feature where
  value : FeatureValue
  description : Str := []
  object : ℕ := 0
  deriving DecidableEq

namespace Feature

/-- The tag of a feature. -/
def tag (f : Feature) : FeatureTag := f.value.tag

/-- Structural equality, ignoring the description. -/
def equals (f g : Feature) : Bool := f.value.equals g.value

/-- `FeatureEqKey`: the same object, or structurally equal features. -/
def eqKey (f g : Feature) : Bool := decide (f = g) || f.equals g

instance : BEq Feature := ⟨eqKey⟩

theorem beq_iff (f g : Feature) : f == g ↔ f = g ∨ FeatureValue.Same f.value g.value := by
  change (decide (f = g) || f.equals g) = true ↔ _
  rw [Bool.or_eq_true, decide_eq_true_iff, equals, FeatureValue.equals_iff_same]

instance : EquivBEq Feature where
  rfl := (beq_iff _ _).mpr (Or.inl rfl)
  symm {f g} h := by
    rcases (beq_iff f g).mp h with rfl | h
    · exact (beq_iff _ _).mpr (Or.inl rfl)
    · exact (beq_iff _ _).mpr (Or.inr h.symm)
  trans {f g h} hfg hgh := by
    rcases (beq_iff f g).mp hfg with rfl | hfg
    · exact hgh
    · rcases (beq_iff g h).mp hgh with rfl | hgh
      · exact (beq_iff _ _).mpr (Or.inr hfg)
      · exact (beq_iff _ _).mpr (Or.inr (hfg.trans hgh))

/-- Features that are equal as keys have the same tag. -/
theorem tag_eq_of_beq {f g : Feature} (h : f == g) : f.tag = g.tag := by
  rcases (beq_iff f g).mp h with rfl | h
  · rfl
  · exact h.tag_eq

/-- A feature object created by the program for a rule that matched. -/
def matchedRule (name : Str) : Feature := { value := .matchedRule name }

/-- The name a `MatchedRule` feature carries. -/
def matchedName? (f : Feature) : Option Str :=
  match f.value with
  | .matchedRule name => some name
  | _ => none

theorem matchedName?_eq_some_iff {f : Feature} {name : Str} :
    f.matchedName? = some name ↔ f.value = .matchedRule name := by
  rw [matchedName?]
  split <;> simp_all

theorem tag_eq_matchedRule_iff {f : Feature} :
    f.tag = .matchedRule ↔ ∃ name, f.value = .matchedRule name := by
  obtain ⟨v, d, o⟩ := f
  cases v <;> simp [tag, FeatureValue.tag]

/-- A `MatchedRule` feature is a key equal to the one created for the same name only. -/
theorem matchedRule_beq_iff (name : Str) (f : Feature) :
    matchedRule name == f ↔ f.value = .matchedRule name := by
  rw [beq_iff]
  constructor
  · rintro (rfl | h)
    · rfl
    · generalize hv : f.value = v at h
      cases h
      rfl
  · intro h
    rw [h]
    exact Or.inr (.rest _ ⟨nofun, nofun⟩)

end Feature

end Papa.Features
