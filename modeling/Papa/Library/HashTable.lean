import Papa.Library.AssocList

/-!
# Lookups through a hash

A hash table compares a key only with the entries in its own bucket. Which bucket a hash selects
is up to the table and changes as the table grows, so a lookup is reliable only if it succeeds
under every choice of buckets, and that is so exactly when an entry with an equal key and the same
hash is there.

## Main definitions

* `HashTable.lookup`: the lookup of a key among the entries of its bucket.

## Main results

* `HashTable.lookup_eq_get?`: the buckets are invisible when equal keys hash alike.
* `HashTable.forall_isSome_lookup_iff`: which keys are found under every choice of buckets.
-/

namespace HashTable

open AssocList

variable {κ ν η : Type*} [BEq κ]

/-- The value at the first entry in the bucket of `k` whose key equals `k`. -/
def lookup (index : η → ℕ) (hash : κ → η) (k : κ) (m : List (κ × ν)) : Option ν :=
  get? k (m.filter fun e => index (hash e.1) == index (hash k))

variable {hash : κ → η} {k : κ} {m : List (κ × ν)}

theorem isSome_lookup {index : η → ℕ} :
    (lookup index hash k m).isSome ↔ ∃ e ∈ m, index (hash e.1) = index (hash k) ∧ e.1 == k := by
  rw [lookup, isSome_get?]
  simp only [List.mem_filter, beq_iff_eq, and_assoc]

/-- **The buckets are invisible** when the keys equal to the one looked up hash like it. -/
theorem lookup_eq_get? (index : η → ℕ) (h : ∀ e ∈ m, e.1 == k → hash e.1 = hash k) :
    lookup index hash k m = get? k m := by
  induction m with
  | nil => rfl
  | cons e m ih =>
    have htail := ih fun e' he' => h e' (List.mem_cons_of_mem _ he')
    rw [lookup] at htail
    rw [lookup, List.filter_cons]
    by_cases hk : (e.1 == k) = true
    · rw [if_pos (by rw [h e List.mem_cons_self hk, beq_self_eq_true]), get?_cons, get?_cons,
        if_pos hk, if_pos hk]
    · have hskip : get? k (e :: m) = get? k m := by rw [get?_cons, if_neg hk]
      rw [hskip]
      split_ifs
      · rw [get?_cons, if_neg hk, htail]
      · exact htail

/-- **A key is found under every choice of buckets** exactly when an entry with an equal key has
the same hash. -/
theorem forall_isSome_lookup_iff :
    (∀ index : η → ℕ, (lookup index hash k m).isSome) ↔ ∃ e ∈ m, hash e.1 = hash k ∧ e.1 == k := by
  classical
  constructor
  · intro h
    -- a table that keeps the hash of `k` apart from all others
    obtain ⟨e, he, hindex, hk⟩ := isSome_lookup.mp (h fun x => if x = hash k then 0 else 1)
    refine ⟨e, he, ?_, hk⟩
    by_contra hne
    rw [if_neg hne, if_pos rfl] at hindex
    exact absurd hindex Nat.one_ne_zero
  · rintro ⟨e, he, hhash, hk⟩ index
    exact isSome_lookup.mpr ⟨e, he, by rw [hhash], hk⟩

end HashTable
