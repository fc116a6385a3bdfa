import Papa.Features.Feature
import Papa.Library.AssocList
import Mathlib.Data.Finset.Card
import Mathlib.Data.Finset.Lattice.Basic

/-!
# Feature sets

A feature set maps each feature, identified by `Feature.eqKey`, to the set of addresses where it
occurred. Two side indices list the string and the byte features in order of insertion; that they
list exactly the keys of that tag is carried by the type.

## Main definitions

* `Papa.Features.FeatureSet`: the map with its indices.
* `Papa.Features.FeatureSet.find`, `Papa.Features.FeatureSet.count`: lookups.
* `Papa.Features.FeatureSet.add`, `Papa.Features.FeatureSet.addAll`,
  `Papa.Features.FeatureSet.mergeIn`: the ways a set grows.

## Main results

* `Papa.Features.FeatureSet.find_emplace`: what a lookup sees after an insertion.
* `Papa.Features.FeatureSet.has_add`, `Papa.Features.FeatureSet.has_addAll`,
  `Papa.Features.FeatureSet.has_mergeIn`: which features a grown set holds.
-/

namespace Papa.Features

open AssocList

/-- Features with their locations, and the indices scanning evaluators iterate. -/
@[ext]
structure FeatureSet where
  entries : List (Feature × Finset Address)
  strings : List Feature
  bytesFeatures : List Feature
  strings_eq : strings = (entries.map Prod.fst).filter (·.tag = .string)
  bytesFeatures_eq : bytesFeatures = (entries.map Prod.fst).filter (·.tag = .bytes)

namespace FeatureSet

/-- The set without features. -/
def empty : FeatureSet where
  entries := []
  strings := []
  bytesFeatures := []
  strings_eq := rfl
  bytesFeatures_eq := rfl

/-- The locations of a feature, if the set holds it. -/
def find (fs : FeatureSet) (f : Feature) : Option (Finset Address) := get? f fs.entries

/-- The set holds the feature. -/
def has (fs : FeatureSet) (f : Feature) : Bool := (fs.find f).isSome

/-- The number of locations of a feature, zero when it is absent. -/
def count (fs : FeatureSet) (f : Feature) : ℕ := ((fs.find f).getD ∅).card

/-- The number of features in the set. -/
def size (fs : FeatureSet) : ℕ := fs.entries.length

private theorem filter_keys_upsert (fs : FeatureSet) (f : Feature) (locs : Finset Address)
    (t : FeatureTag) :
    ((upsert f ∅ (· ∪ locs) fs.entries).map Prod.fst).filter (·.tag = t) =
      if !fs.has f && decide (f.tag = t) then
        (fs.entries.map Prod.fst).filter (·.tag = t) ++ [f]
      else (fs.entries.map Prod.fst).filter (·.tag = t) := by
  rw [keys_upsert, has, find]
  by_cases h : (get? f fs.entries).isSome <;> by_cases ht : f.tag = t <;> simp [h, ht]

/-- Insert locations under a key, adding the key to the index of its tag when it is new. -/
def emplace (fs : FeatureSet) (f : Feature) (locs : Finset Address) : FeatureSet where
  entries := upsert f ∅ (· ∪ locs) fs.entries
  strings := if !fs.has f && decide (f.tag = .string) then fs.strings ++ [f] else fs.strings
  bytesFeatures :=
    if !fs.has f && decide (f.tag = .bytes) then fs.bytesFeatures ++ [f] else fs.bytesFeatures
  strings_eq := by rw [filter_keys_upsert, fs.strings_eq]
  bytesFeatures_eq := by rw [filter_keys_upsert, fs.bytesFeatures_eq]

/-- Add one location of a feature. -/
def add (fs : FeatureSet) (f : Feature) (a : Address) : FeatureSet := fs.emplace f {a}

/-- Add every pair of a batch. -/
def addAll (fs : FeatureSet) (batch : List (Feature × Address)) : FeatureSet :=
  batch.foldl (fun fs p => fs.add p.1 p.2) fs

/-- Add every feature of another set with all its locations. -/
def mergeIn (fs other : FeatureSet) : FeatureSet :=
  other.entries.foldl (fun fs e => fs.emplace e.1 e.2) fs

/-! ### Lookups -/

theorem find_congr {f g : Feature} (h : f == g) (fs : FeatureSet) : fs.find f = fs.find g :=
  get?_congr h fs.entries

theorem has_iff (fs : FeatureSet) (f : Feature) : fs.has f ↔ ∃ e ∈ fs.entries, e.1 == f :=
  isSome_get? f fs.entries

theorem has_congr {f g : Feature} (h : f == g) (fs : FeatureSet) : fs.has f = fs.has g := by
  rw [has, has, find_congr h]

theorem has_of_mem {fs : FeatureSet} {e : Feature × Finset Address} (h : e ∈ fs.entries) :
    fs.has e.1 :=
  (has_iff _ _).mpr ⟨e, h, BEq.rfl⟩

/-- A feature that occurs somewhere is in the set. -/
theorem has_of_count_pos {fs : FeatureSet} {f : Feature} (h : 0 < fs.count f) : fs.has f := by
  rw [has]
  cases hf : fs.find f with
  | none => simp [count, hf] at h
  | some _ => rfl

/-- What a lookup sees after an insertion. -/
theorem find_emplace (fs : FeatureSet) (f g : Feature) (locs : Finset Address) :
    (fs.emplace f locs).find g =
      if f == g then some ((fs.find f).getD ∅ ∪ locs) else fs.find g :=
  get?_upsert f g ∅ (· ∪ locs) fs.entries

theorem find_emplace_of_ne {f g : Feature} (h : (f == g) = false) (fs : FeatureSet)
    (locs : Finset Address) : (fs.emplace f locs).find g = fs.find g := by
  rw [find_emplace, h, if_neg Bool.false_ne_true]

theorem has_emplace (fs : FeatureSet) (f g : Feature) (locs : Finset Address) :
    (fs.emplace f locs).has g ↔ f == g ∨ fs.has g :=
  isSome_get?_upsert f g ∅ (· ∪ locs) fs.entries

theorem has_add (fs : FeatureSet) (f g : Feature) (a : Address) :
    (fs.add f a).has g ↔ f == g ∨ fs.has g :=
  has_emplace fs f g {a}

theorem has_addAll (fs : FeatureSet) (batch : List (Feature × Address)) (g : Feature) :
    (fs.addAll batch).has g ↔ (∃ p ∈ batch, p.1 == g) ∨ fs.has g := by
  induction batch generalizing fs with
  | nil => simp [addAll]
  | cons p batch ih =>
    change ((fs.add p.1 p.2).addAll batch).has g ↔ _
    rw [ih, has_add]
    simp only [List.mem_cons, exists_eq_or_imp]
    exact or_left_comm.trans or_assoc.symm

theorem has_foldl_emplace (l : List (Feature × Finset Address)) (fs : FeatureSet)
    (g : Feature) :
    (l.foldl (fun fs e => fs.emplace e.1 e.2) fs).has g ↔ (∃ e ∈ l, e.1 == g) ∨ fs.has g := by
  induction l generalizing fs with
  | nil => simp
  | cons e l ih =>
    rw [List.foldl_cons, ih, has_emplace]
    simp only [List.mem_cons, exists_eq_or_imp]
    exact or_left_comm.trans or_assoc.symm

theorem has_mergeIn (fs other : FeatureSet) (g : Feature) :
    (fs.mergeIn other).has g ↔ other.has g ∨ fs.has g := by
  rw [mergeIn, has_foldl_emplace, ← has_iff]

@[simp] theorem has_empty (g : Feature) : empty.has g = false := rfl

/-! ### Side indices -/

theorem emplace_strings_of_ne {f : Feature} (h : f.tag ≠ .string) (fs : FeatureSet)
    (locs : Finset Address) : (fs.emplace f locs).strings = fs.strings := by
  simp [emplace, h]

theorem emplace_bytesFeatures_of_ne {f : Feature} (h : f.tag ≠ .bytes) (fs : FeatureSet)
    (locs : Finset Address) : (fs.emplace f locs).bytesFeatures = fs.bytesFeatures := by
  simp [emplace, h]

end FeatureSet

end Papa.Features
