import Mathlib.Data.List.Nodup
import Mathlib.Tactic.SplitIfs

/-!
# Association lists with a Boolean key equality

A finite map is a list of entries in insertion order. Keys are compared by `==`, which need not
be equality of Lean terms: it is any Boolean equivalence. This models hash maps keyed by a custom
equality, whose iteration order is unspecified.

## Main definitions

* `AssocList.get?`: the value at the first entry whose key equals the given one.
* `AssocList.upsert`: update the value at a key, from a default when the key is absent.
* `AssocList.push`, `AssocList.pushAll`: append to the lists of a map of lists.

## Main results

* `AssocList.get?_upsert`: what a lookup sees after an update.
* `AssocList.get?_pushAll`: the list at a key after a batch.
* `AssocList.keys_upsert`: an update of a present key leaves the keys, of an absent one appends it.
-/

namespace AssocList

variable {κ ν ω : Type*} [BEq κ]

/-- The value at the first entry whose key equals `k`. -/
def get? (k : κ) : List (κ × ν) → Option ν
  | [] => none
  | (k', v) :: m => if k' == k then some v else get? k m

/-- Replace the value `v` at `k` by `f v`, taking `init` for `v` and appending the entry when `k`
is absent. -/
def upsert (k : κ) (init : ν) (f : ν → ν) : List (κ × ν) → List (κ × ν)
  | [] => [(k, f init)]
  | (k', v) :: m => if k' == k then (k', f v) :: m else (k', v) :: upsert k init f m

@[simp] theorem get?_nil (k : κ) : get? k ([] : List (κ × ν)) = none := rfl

theorem get?_cons (k k' : κ) (v : ν) (m : List (κ × ν)) :
    get? k ((k', v) :: m) = if k' == k then some v else get? k m := rfl

theorem isSome_get? (k : κ) (m : List (κ × ν)) :
    (get? k m).isSome ↔ ∃ e ∈ m, e.1 == k := by
  induction m with
  | nil => simp
  | cons e m ih =>
    rw [get?_cons]
    split_ifs with h
    · simp [h]
    · simp [h, ih]

theorem exists_mem_of_get?_eq_some {k : κ} {v : ν} {m : List (κ × ν)} (h : get? k m = some v) :
    ∃ k', (k', v) ∈ m ∧ k' == k := by
  induction m with
  | nil => simp at h
  | cons e m ih =>
    rw [get?_cons] at h
    split_ifs at h with hk
    · exact ⟨e.1, by simp [← Option.some.inj h], hk⟩
    · obtain ⟨k', hmem, hk'⟩ := ih h
      exact ⟨k', List.mem_cons_of_mem _ hmem, hk'⟩

theorem mem_of_get?_eq_some [LawfulBEq κ] {k : κ} {v : ν} {m : List (κ × ν)}
    (h : get? k m = some v) : (k, v) ∈ m := by
  obtain ⟨k', hmem, hk⟩ := exists_mem_of_get?_eq_some h
  exact eq_of_beq hk ▸ hmem

theorem get?_append (k : κ) (m n : List (κ × ν)) :
    get? k (m ++ n) = (get? k m).or (get? k n) := by
  induction m with
  | nil => rfl
  | cons e m ih =>
    rw [List.cons_append, get?_cons, get?_cons, ih]
    split_ifs <;> rfl

/-- A lookup among entries that are kept and changed by their keys. -/
theorem get?_filterMap {τ : Type*} [LawfulBEq κ] (k : κ) (g : κ → Option τ)
    (f : τ → ν → ω) (m : List (κ × ν)) :
    get? k (m.filterMap fun e => (g e.1).map fun t => (e.1, f t e.2)) =
      (g k).bind fun t => (get? k m).map (f t) := by
  induction m with
  | nil =>
    rw [List.filterMap_nil, get?_nil]
    exact (Option.bind_fun_none _).symm
  | cons e m ih =>
    rw [List.filterMap_cons, get?_cons]
    by_cases hk : e.1 = k
    · subst hk
      rw [if_pos (beq_self_eq_true e.1)]
      cases hg : g e.1 with
      | none =>
        rw [hg] at ih
        exact ih
      | some t =>
        rw [Option.map_some]
        dsimp only
        rw [get?_cons, if_pos (beq_self_eq_true e.1)]
        rfl
    · have hne : ¬(e.1 == k) = true := fun heq => hk (eq_of_beq heq)
      rw [if_neg hne, ← ih]
      cases hg : g e.1 with
      | none => rfl
      | some t =>
        rw [Option.map_some]
        dsimp only
        rw [get?_cons, if_neg hne]

theorem get?_map (f : ν → ω) (k : κ) (m : List (κ × ν)) :
    get? k (m.map fun e => (e.1, f e.2)) = (get? k m).map f := by
  induction m with
  | nil => rfl
  | cons e m ih =>
    rw [List.map_cons, get?_cons, get?_cons, ih]
    split_ifs <;> rfl

section Equivalence

variable [EquivBEq κ]

theorem get?_congr {k k' : κ} (h : k == k') (m : List (κ × ν)) : get? k m = get? k' m := by
  induction m with
  | nil => rfl
  | cons e m ih =>
    have hiff : (e.1 == k) = (e.1 == k') := BEq.congr_right h
    simp only [get?, hiff, ih]

/-- Where no two keys are equal, the key of an entry is found with the value of the entry. -/
theorem get?_eq_some_of_mem {m : List (κ × ν)} (h : (m.map Prod.fst).Pairwise fun k k' => ¬k == k')
    {e : κ × ν} (he : e ∈ m) : get? e.1 m = some e.2 := by
  induction m with
  | nil => exact absurd he List.not_mem_nil
  | cons e' m ih =>
    obtain ⟨hhead, htail⟩ := List.pairwise_cons.mp h
    rw [get?_cons]
    rcases List.mem_cons.mp he with rfl | he
    · exact if_pos BEq.rfl
    · rw [if_neg (hhead e.1 (List.mem_map_of_mem he)), ih htail he]

/-- What a lookup sees after an update. -/
theorem get?_upsert (k k' : κ) (init : ν) (f : ν → ν) (m : List (κ × ν)) :
    get? k' (upsert k init f m) =
      if k == k' then some (f ((get? k m).getD init)) else get? k' m := by
  induction m with
  | nil => simp [upsert, get?]
  | cons e m ih =>
    obtain ⟨a, v⟩ := e
    by_cases ha : a == k
    · have hiff : (a == k') = (k == k') := BEq.congr_left ha
      simp only [upsert, ha, get?_cons, hiff, ↓reduceIte, Option.getD_some]
      split_ifs <;> rfl
    · simp only [upsert, ha, get?_cons, ih, Bool.false_eq_true, ↓reduceIte]
      by_cases hk : k == k'
      · have hiff : (a == k') = (a == k) := (BEq.congr_right hk).symm
        simp [hiff, ha, hk]
      · simp [hk]

theorem get?_upsert_self (k : κ) (init : ν) (f : ν → ν) (m : List (κ × ν)) :
    get? k (upsert k init f m) = some (f ((get? k m).getD init)) := by
  rw [get?_upsert, if_pos BEq.rfl]

theorem get?_upsert_of_ne {k k' : κ} (h : (k == k') = false) (init : ν) (f : ν → ν)
    (m : List (κ × ν)) : get? k' (upsert k init f m) = get? k' m := by
  rw [get?_upsert, h, if_neg Bool.false_ne_true]

theorem isSome_get?_upsert (k k' : κ) (init : ν) (f : ν → ν) (m : List (κ × ν)) :
    (get? k' (upsert k init f m)).isSome ↔ k == k' ∨ (get? k' m).isSome := by
  rw [get?_upsert]
  split_ifs with h <;> simp [h]

end Equivalence

/-- An update of a present key leaves the keys as they are, of an absent one appends it. -/
theorem keys_upsert (k : κ) (init : ν) (f : ν → ν) (m : List (κ × ν)) :
    (upsert k init f m).map Prod.fst =
      if (get? k m).isSome then m.map Prod.fst else m.map Prod.fst ++ [k] := by
  induction m with
  | nil => simp [upsert]
  | cons e m ih =>
    obtain ⟨a, v⟩ := e
    by_cases ha : a == k
    · simp [upsert, get?_cons, ha]
    · simp only [upsert, get?_cons, ha, Bool.false_eq_true, ↓reduceIte, List.map_cons, ih]
      split_ifs <;> rfl

/-! ### Maps of lists -/

/-- An update of a key that is there appends nothing. -/
theorem length_upsert (k : κ) (init : ν) (f : ν → ν) (m : List (κ × ν)) :
    (upsert k init f m).length = m.length + if (get? k m).isSome then 0 else 1 := by
  rw [← List.length_map (f := Prod.fst), keys_upsert]
  split_ifs
  · rw [List.length_map, Nat.add_zero]
  · rw [List.length_append, List.length_map, List.length_singleton]

/-- Append a value to the list at a key. -/
def push (k : κ) (v : ν) (m : List (κ × List ν)) : List (κ × List ν) := upsert k [] (· ++ [v]) m

/-- Append every value of a batch to the list at its key. -/
def pushAll (batch : List (κ × ν)) (m : List (κ × List ν)) : List (κ × List ν) :=
  batch.foldl (fun m p => push p.1 p.2 m) m

/-- An entry after an update was there before, or is the one updated or appended. -/
theorem mem_upsert {k : κ} {init : ν} {f : ν → ν} {m : List (κ × ν)} {e : κ × ν}
    (h : e ∈ upsert k init f m) :
    e ∈ m ∨ e = (k, f init) ∨ ∃ v, (e.1, v) ∈ m ∧ e.1 == k ∧ e.2 = f v := by
  induction m with
  | nil => exact Or.inr (Or.inl (List.mem_singleton.mp h))
  | cons e' m ih =>
    rw [upsert] at h
    split_ifs at h with hk
    · rcases List.mem_cons.mp h with rfl | h
      · exact Or.inr (Or.inr ⟨e'.2, List.mem_cons_self, hk, rfl⟩)
      · exact Or.inl (List.mem_cons_of_mem _ h)
    · rcases List.mem_cons.mp h with rfl | h
      · exact Or.inl List.mem_cons_self
      · rcases ih h with h | h | ⟨v, hv, h⟩
        · exact Or.inl (List.mem_cons_of_mem _ h)
        · exact Or.inr (Or.inl h)
        · exact Or.inr (Or.inr ⟨v, List.mem_cons_of_mem _ hv, h⟩)

theorem pushAll_append (batch batch' : List (κ × ν)) (m : List (κ × List ν)) :
    pushAll (batch ++ batch') m = pushAll batch' (pushAll batch m) :=
  List.foldl_append

section Equivalence

variable [EquivBEq κ]

/-- The values at a key after a batch: those it had, then those of the batch. -/
theorem get?_pushAll (batch : List (κ × ν)) (k : κ) (m : List (κ × List ν)) :
    (get? k (pushAll batch m)).getD [] =
      (get? k m).getD [] ++ (batch.filter fun p => p.1 == k).map Prod.snd := by
  induction batch generalizing m with
  | nil => simp [pushAll]
  | cons p batch ih =>
    change (get? k (pushAll batch (push p.1 p.2 m))).getD [] = _
    rw [ih, push, get?_upsert]
    by_cases h : p.1 == k
    · simp [h, get?_congr h]
    · simp [h]

theorem isSome_get?_pushAll (batch : List (κ × ν)) (k : κ) (m : List (κ × List ν)) :
    (get? k (pushAll batch m)).isSome ↔ (∃ p ∈ batch, p.1 == k) ∨ (get? k m).isSome := by
  induction batch generalizing m with
  | nil => simp [pushAll]
  | cons p batch ih =>
    change (get? k (pushAll batch (push p.1 p.2 m))).isSome ↔ _
    rw [ih, push, isSome_get?_upsert]
    simp only [List.mem_cons, exists_eq_or_imp]
    exact or_left_comm.trans or_assoc.symm

end Equivalence

/-! ### Unique keys -/

section Lawful

variable [LawfulBEq κ]

theorem get?_of_mem {m : List (κ × ν)} (hm : (m.map Prod.fst).Nodup) {k : κ} {v : ν}
    (h : (k, v) ∈ m) : get? k m = some v := by
  induction m with
  | nil => cases h
  | cons e m ih =>
    obtain ⟨hnot, hm⟩ := List.nodup_cons.mp hm
    rw [get?_cons]
    rcases List.mem_cons.mp h with rfl | hmem
    · rw [if_pos BEq.rfl]
    · have hne : ¬(e.1 == k) := fun heq => hnot (eq_of_beq heq ▸ List.mem_map_of_mem hmem)
      rw [if_neg hne, ih hm hmem]

theorem nodup_keys_upsert (k : κ) (init : ν) (f : ν → ν) {m : List (κ × ν)}
    (hm : (m.map Prod.fst).Nodup) : ((upsert k init f m).map Prod.fst).Nodup := by
  rw [keys_upsert]
  split_ifs with h
  · exact hm
  · refine hm.append (List.nodup_singleton k) fun k' hk' hk => ?_
    obtain ⟨e, he, rfl⟩ := List.mem_map.mp hk'
    exact h ((isSome_get? k m).mpr ⟨e, he, beq_iff_eq.mpr (List.mem_singleton.mp hk)⟩)

theorem nodup_keys_pushAll (batch : List (κ × ν)) {m : List (κ × List ν)}
    (hm : (m.map Prod.fst).Nodup) : ((pushAll batch m).map Prod.fst).Nodup := by
  induction batch generalizing m with
  | nil => exact hm
  | cons p batch ih => exact ih (nodup_keys_upsert p.1 [] _ hm)

end Lawful

end AssocList
