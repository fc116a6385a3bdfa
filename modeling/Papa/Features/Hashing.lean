import Mathlib.Algebra.Group.Nat.Defs
import Papa.Features.FeatureSet
import Papa.Library.HashTable

/-!
# Hashes of features

Feature containers are hash tables keyed by the structural hash of a feature, with structural
equality deciding inside a bucket. A number is hashed by its bits, so the two zeros, which are
equal, hash apart; every other pair of equal features hashes alike. The hash functions of the
standard library are parameters.

## Main definitions

* `Papa.Features.StdHash`: the hashes of the standard library.
* `Papa.Features.hashCombine`, `Papa.Features.fnv1a64`: the mixing functions.
* `Papa.Features.Feature.hash`: the structural hash.
* `Papa.Features.Feature.OppositeZeros`: two features that differ in the sign of a zero only.

## Main results

* `Papa.Features.Feature.equals_hash`: equality is an equivalence away from NaN, and which equal
  features hash alike and are found through their hash.
* `Papa.Features.FeatureSet.lookup_eq_find`: a table with any buckets looks features up as the map
  of a feature set does.
-/

namespace Papa.Features

/-! ### Mixing functions -/

/-- The fractional part of the golden ratio in 64 bits. -/
def kGoldenRatio64 : UInt64 := 0x9E3779B97F4A7C15

/-- The offset basis of FNV-1a in 64 bits. -/
def kFnv64OffsetBasis : UInt64 := 0xCBF29CE484222325

/-- The prime of FNV-1a in 64 bits. -/
def kFnv64Prime : UInt64 := 0x100000001B3

/-- Mix two hash values. -/
def hashCombine (seed value : UInt64) : UInt64 :=
  seed ^^^ (value + kGoldenRatio64 + (seed <<< 6) + (seed >>> 2))

/-- FNV-1a over a byte range. -/
def fnv1a64 (data : List UInt8) : UInt64 :=
  data.foldl (fun h b => (h ^^^ b.toUInt64) * kFnv64Prime) kFnv64OffsetBasis

/-- The hash of a `double`: its bits. -/
def hashDoubleBits (bits : UInt64) : UInt64 := bits

/-- `std::hash` at the types the features hash. -/
structure StdHash where
  string : Str → UInt64
  uint64 : UInt64 → UInt64
  int64 : Int64 → UInt64

/-- Mixing is injective in the value mixed in. -/
theorem hashCombine_right_injective (seed : UInt64) : Function.Injective (hashCombine seed) := by
  intro a b h
  have hsum := congrArg (seed ^^^ ·) h
  simpa [hashCombine, ← UInt64.xor_assoc] using hsum

/-! ### Hashes of the feature kinds -/

/-- The position of a tag in the enumeration. -/
def FeatureTag.toUInt64 : FeatureTag → UInt64
  | string => 0
  | substring => 1
  | regex => 2
  | bytes => 3
  | number => 4
  | offset => 5
  | mnemonic => 6
  | api => 7
  | import_ => 8
  | export_ => 9
  | section_ => 10
  | functionName => 11
  | class_ => 12
  | namespace_ => 13
  | property => 14
  | characteristic => 15
  | matchedRule => 16
  | os => 17
  | arch => 18
  | format => 19
  | operandNumber => 20
  | operandOffset => 21
  | basicBlock => 22

/-- The position of an access kind in the enumeration. -/
def Access.toUInt64 : Access → UInt64
  | none => 0
  | read => 1
  | write => 2

/-- Fold the tag into a payload hash. -/
def mixTag (t : FeatureTag) (h : UInt64) : UInt64 := hashCombine t.toUInt64 h

variable (H : StdHash)

/-- The hash of a number: that of its payload mixed with the index of its alternative. -/
def hashNumberValue : NumberValue → UInt64
  | .uint64 v => hashCombine (H.uint64 v) 0
  | .int64 v => hashCombine (H.int64 v) 1
  | .double bits => hashCombine (hashDoubleBits bits) 2

namespace FeatureValue

/-- `hash` of every feature class. -/
def hash : FeatureValue → UInt64
  | string v => mixTag .string (H.string v)
  | substring v => mixTag .substring (H.string v)
  | regex v => mixTag .regex (H.string v)
  | bytes v => mixTag .bytes (fnv1a64 v)
  | number v => mixTag .number (hashNumberValue H v)
  | offset v => mixTag .offset (H.int64 v)
  | mnemonic v => mixTag .mnemonic (H.string v)
  | api v => mixTag .api (H.string v)
  | import_ v => mixTag .import_ (H.string v)
  | export_ v => mixTag .export_ (H.string v)
  | section_ v => mixTag .section_ (H.string v)
  | functionName v => mixTag .functionName (H.string v)
  | class_ v => mixTag .class_ (H.string v)
  | namespace_ v => mixTag .namespace_ (H.string v)
  | property v access => mixTag .property (hashCombine (H.string v) access.toUInt64)
  | characteristic v => mixTag .characteristic (H.string v)
  | matchedRule v => mixTag .matchedRule (H.string v)
  | os v => mixTag .os (H.string v)
  | arch v => mixTag .arch (H.string v)
  | format v => mixTag .format (H.string v)
  | operandNumber i v =>
    mixTag .operandNumber (hashCombine (H.uint64 (.ofNat i)) (hashNumberValue H v))
  | operandOffset i v => mixTag .operandOffset (hashCombine (H.uint64 (.ofNat i)) (H.int64 v))
  | basicBlock => FeatureTag.toUInt64 .basicBlock * kGoldenRatio64

end FeatureValue

/-! ### Zeros -/

/-- The two zeros, in either order. -/
def NumberValue.OppositeZeros : NumberValue → NumberValue → Prop
  | .double a, .double b => doubleMagnitude a = 0 ∧ doubleMagnitude b = 0 ∧ a ≠ b
  | _, _ => False

/-- A number that is not equal to itself. -/
def NumberValue.isNaN : NumberValue → Bool
  | .double bits => Features.isNaN bits
  | _ => false

theorem toNat_doubleMagnitude (a : UInt64) : (doubleMagnitude a).toNat = a.toNat % 2 ^ 63 := by
  rw [doubleMagnitude, UInt64.toNat_and]
  exact Nat.and_two_pow_sub_one_eq_mod a.toNat 63

/-- The two `double`s without magnitude. -/
theorem eq_or_eq_of_doubleMagnitude {a : UInt64} (h : doubleMagnitude a = 0) :
    a = 0 ∨ a = 0x8000000000000000 := by
  have hmod : a.toNat % 2 ^ 63 = 0 := by rw [← toNat_doubleMagnitude, h]; rfl
  have hlt : a.toNat < 2 ^ 64 := a.toNat_lt
  have hcases : a.toNat = 0 ∨ a.toNat = 2 ^ 63 := by omega
  exact hcases.imp UInt64.toNat_inj.mp UInt64.toNat_inj.mp

namespace NumberValue

/-- A number is equal to itself unless it is a NaN. -/
theorem equals_self {v : NumberValue} (h : v.isNaN = false) : v.equals v := by
  cases v with
  | uint64 v => exact beq_self_eq_true v
  | int64 v => exact beq_self_eq_true v
  | double bits =>
    have hbits : Features.isNaN bits = false := h
    simp [equals, doubleEq, hbits]

/-- Equal numbers are the same or the two zeros. -/
theorem eq_or_oppositeZeros {v w : NumberValue} (h : v.equals w) : v = w ∨ v.OppositeZeros w := by
  cases v <;> cases w <;> simp only [equals, beq_iff_eq, Bool.false_eq_true] at h
  case uint64 => exact Or.inl (congrArg _ h)
  case int64 => exact Or.inl (congrArg _ h)
  case double a b =>
    simp only [doubleEq, Bool.and_eq_true, Bool.or_eq_true, beq_iff_eq] at h
    by_cases hab : a = b
    · exact Or.inl (congrArg _ hab)
    · exact Or.inr ⟨(h.2.resolve_left hab).1, (h.2.resolve_left hab).2, hab⟩

/-- The two zeros hash apart. -/
theorem hash_ne_of_oppositeZeros {v w : NumberValue} (h : v.OppositeZeros w) :
    hashNumberValue H v ≠ hashNumberValue H w := by
  cases v <;> cases w <;> simp only [OppositeZeros] at h
  case double a b =>
    obtain ⟨ha, hb, hne⟩ := h
    rcases eq_or_eq_of_doubleMagnitude ha with rfl | rfl <;>
      rcases eq_or_eq_of_doubleMagnitude hb with rfl | rfl
    · exact absurd rfl hne
    · change hashCombine 0 2 ≠ hashCombine 0x8000000000000000 2
      decide
    · change hashCombine 0x8000000000000000 2 ≠ hashCombine 0 2
      decide
    · exact absurd rfl hne

/-- The two zeros are equal. -/
theorem equals_of_oppositeZeros {v w : NumberValue} (h : v.OppositeZeros w) : v.equals w := by
  cases v <;> cases w <;> simp only [OppositeZeros] at h
  case double a b =>
    have hnan {x : UInt64} (hx : doubleMagnitude x = 0) : Features.isNaN x = false := by
      rw [Features.isNaN, hx]
      rfl
    simp [equals, doubleEq, hnan h.1, hnan h.2.1, h.1, h.2.1]

end NumberValue

namespace FeatureValue

/-- A feature that holds a NaN. -/
def isNaN : FeatureValue → Bool
  | number v => v.isNaN
  | operandNumber _ v => v.isNaN
  | _ => false

/-- Two features that differ in the sign of a zero only. -/
def OppositeZeros : FeatureValue → FeatureValue → Prop
  | number v, number w => v.OppositeZeros w
  | operandNumber i v, operandNumber j w => i = j ∧ v.OppositeZeros w
  | _, _ => False

/-- Equal features have one payload or differ in the sign of a zero. -/
theorem Same.eq_or_oppositeZeros {v w : FeatureValue} (h : Same v w) :
    v = w ∨ v.OppositeZeros w := by
  cases h with
  | number h => exact (NumberValue.eq_or_oppositeZeros h).imp (congrArg _) id
  | operandNumber i h => exact (NumberValue.eq_or_oppositeZeros h).imp (congrArg _) (⟨rfl, ·⟩)
  | rest => exact Or.inl rfl

theorem same_of_oppositeZeros {v w : FeatureValue} (h : v.OppositeZeros w) : Same v w := by
  cases v <;> cases w <;> simp only [OppositeZeros] at h
  case number => exact .number (NumberValue.equals_of_oppositeZeros h)
  case operandNumber => exact h.1 ▸ .operandNumber _ (NumberValue.equals_of_oppositeZeros h.2)

/-- Features that differ in the sign of a zero hash apart. -/
theorem hash_ne_of_oppositeZeros {v w : FeatureValue} (h : v.OppositeZeros w) :
    v.hash H ≠ w.hash H := by
  cases v <;> cases w <;> simp only [OppositeZeros] at h
  case number =>
    exact (hashCombine_right_injective _).ne (NumberValue.hash_ne_of_oppositeZeros H h)
  case operandNumber =>
    obtain ⟨rfl, h⟩ := h
    exact (hashCombine_right_injective _).ne
      ((hashCombine_right_injective _).ne (NumberValue.hash_ne_of_oppositeZeros H h))

theorem same_self {v : FeatureValue} (h : v.isNaN = false) : Same v v := by
  by_cases hnum : v.tag ≠ .number ∧ v.tag ≠ .operandNumber
  · exact .rest v hnum
  · cases v
    case number v => exact .number (NumberValue.equals_self h)
    case operandNumber i v => exact .operandNumber i (NumberValue.equals_self h)
    all_goals exact absurd ⟨nofun, nofun⟩ hnum

end FeatureValue

namespace Feature

/-- `hash` of a feature, which ignores the description. -/
def hash (f : Feature) : UInt64 := f.value.hash H

/-- Two features that differ in the sign of a zero only. -/
def OppositeZeros (f g : Feature) : Prop := f.value.OppositeZeros g.value

theorem equals_iff (f g : Feature) : f.equals g ↔ FeatureValue.Same f.value g.value :=
  FeatureValue.equals_iff_same f.value g.value

variable {H}

/-- Equal features hash alike unless they are zeros of opposite sign. -/
theorem hash_eq_iff {f g : Feature} (h : f == g) : f.hash H = g.hash H ↔ ¬f.OppositeZeros g := by
  constructor
  · exact fun heq hzeros => FeatureValue.hash_ne_of_oppositeZeros H hzeros heq
  · intro hzeros
    rcases (beq_iff f g).mp h with rfl | h
    · rfl
    · exact congrArg (FeatureValue.hash H) (h.eq_or_oppositeZeros.resolve_right hzeros)

/-- **Equality and hash of features.** Away from NaN equality is an equivalence. Two features that
are equal hash alike exactly when they are not zeros of opposite sign, and a container keyed by
features finds a key equal to the probe under every choice of buckets exactly when one of the equal
keys is not such a zero. -/
theorem equals_hash {ν : Type} (H : StdHash) :
    (∀ f : Feature, f.value.isNaN = false → f.equals f) ∧
    (∀ f g : Feature, f.equals g → g.equals f) ∧
    (∀ f g h : Feature, f.equals g → g.equals h → f.equals h) ∧
    (∀ f g : Feature, (f.equals g → f.hash H = g.hash H) ↔ ¬f.OppositeZeros g) ∧
    ∀ (m : List (Feature × ν)) (probe : Feature),
      (∀ index, (HashTable.lookup index (hash H) probe m).isSome) ↔
        ∃ e ∈ m, e.1 == probe ∧ ¬e.1.OppositeZeros probe := by
  refine ⟨fun f hf => ?_, fun f g hfg => ?_, fun f g h hfg hgh => ?_, fun f g => ⟨?_, ?_⟩,
    fun m probe => ?_⟩
  · exact (equals_iff f f).mpr (FeatureValue.same_self hf)
  · exact (equals_iff g f).mpr ((equals_iff f g).mp hfg).symm
  · exact (equals_iff f h).mpr (((equals_iff f g).mp hfg).trans ((equals_iff g h).mp hgh))
  · intro h hzeros
    have hsame := FeatureValue.same_of_oppositeZeros hzeros
    exact FeatureValue.hash_ne_of_oppositeZeros H hzeros (h ((equals_iff f g).mpr hsame))
  · intro hzeros h
    exact (hash_eq_iff ((beq_iff f g).mpr (Or.inr ((equals_iff f g).mp h)))).mpr hzeros
  · rw [HashTable.forall_isSome_lookup_iff]
    refine exists_congr fun e => and_congr_right fun _ => ?_
    rw [and_comm]
    exact and_congr_right hash_eq_iff

/-- The two zeros as numbers: they are equal, hash apart, and a container with `0.0` for a key does
not find `-0.0` under some choice of buckets. -/
theorem zeros_hash_apart :
    let zero : Feature := { value := .number (.double 0) }
    let negZero : Feature := { value := .number (.double 0x8000000000000000) }
    zero.value.isNaN = false ∧ negZero.value.isNaN = false ∧ zero.equals negZero ∧
    (∀ H : StdHash, zero.hash H ≠ negZero.hash H) ∧
    ∀ H : StdHash, ∃ index, HashTable.lookup index (hash H) negZero [(zero, ())] = none := by
  have hzeros : NumberValue.OppositeZeros (.double 0) (.double 0x8000000000000000) :=
    ⟨rfl, rfl, by decide⟩
  have hne (H : StdHash) := (hashCombine_right_injective 4).ne
    (NumberValue.hash_ne_of_oppositeZeros H hzeros)
  refine ⟨rfl, rfl, rfl, hne, fun H => ⟨fun h => if h = hash H { value := .number (.double 0) }
    then 0 else 1, ?_⟩⟩
  have hskip : ((if hash H { value := .number (.double 0x8000000000000000) } =
      hash H { value := .number (.double 0) } then 0 else 1 : ℕ)) = 1 := if_neg (hne H).symm
  simp [HashTable.lookup, hskip]

end Feature

/-! ### The map of a feature set -/

/-- **A table with any buckets looks features up as the map of a feature set does**, as long as no
key is a zero whose opposite is looked up. -/
theorem FeatureSet.lookup_eq_find (fs : FeatureSet) (H : StdHash) (index : UInt64 → ℕ)
    {f : Feature} (h : ∀ e ∈ fs.entries, ¬e.1.OppositeZeros f) :
    HashTable.lookup index (Feature.hash H) f fs.entries = fs.find f :=
  HashTable.lookup_eq_get? index fun e he heq => (Feature.hash_eq_iff heq).mpr (h e he)

end Papa.Features
