import Mathlib.Order.Lattice
import Papa.Library.AssocList

/-!
# Maps that are kept in order

A map is a list of entries whose keys ascend. An entry is put in at the place of its key, unless
there is one with that key already.

## Main definitions

* `OrderedMap`: entries with ascending keys.
* `OrderedMap.emplace`, `OrderedMap.ofEntries`: one more entry, and several in turn.

## Main results

* `OrderedMap.mem_ofEntries_iff`: the first entry with each key is kept.
-/

/-- Entries with ascending keys. -/
structure OrderedMap (κ ν : Type*) [LinearOrder κ] where
  entries : List (κ × ν)
  sorted : entries.Pairwise fun a b => a.1 < b.1

namespace OrderedMap

variable {κ ν : Type*} [LinearOrder κ] {k : κ} {v : ν} {e : κ × ν}

/-- The empty map. -/
def empty : OrderedMap κ ν := ⟨[], .nil⟩

/-- An entry at its place among entries with ascending keys, if its key is new. -/
def emplaceList (k : κ) (v : ν) : List (κ × ν) → List (κ × ν)
  | [] => [(k, v)]
  | e :: m => if k < e.1 then (k, v) :: e :: m else if k = e.1 then e :: m
    else e :: emplaceList k v m

theorem mem_emplaceList_iff {m : List (κ × ν)} (hm : m.Pairwise fun a b => a.1 < b.1) :
    e ∈ emplaceList k v m ↔ e ∈ m ∨ (e = (k, v) ∧ ∀ d ∈ m, d.1 ≠ k) := by
  induction m with
  | nil => simp [emplaceList]
  | cons d m ih =>
    obtain ⟨hd, hm⟩ := List.pairwise_cons.mp hm
    rw [emplaceList]
    split_ifs with hlt heq
    · have hnew : ∀ c ∈ d :: m, c.1 ≠ k := by
        intro c hc
        rcases List.mem_cons.mp hc with rfl | hc
        · exact ne_of_gt hlt
        · exact ne_of_gt (hlt.trans (hd c hc))
      rw [List.mem_cons, and_iff_left hnew]
      exact or_comm
    · have hold : ¬∀ c ∈ d :: m, c.1 ≠ k := fun h => h d List.mem_cons_self heq.symm
      rw [or_iff_left fun h => hold h.2]
    · rw [List.mem_cons, ih hm, List.mem_cons, List.forall_mem_cons, or_assoc,
        and_iff_right (Ne.symm heq)]

theorem pairwise_emplaceList {m : List (κ × ν)} (hm : m.Pairwise fun a b => a.1 < b.1) :
    (emplaceList k v m).Pairwise fun a b => a.1 < b.1 := by
  induction m with
  | nil => exact List.pairwise_singleton _ _
  | cons d m ih =>
    obtain ⟨hd, hm'⟩ := List.pairwise_cons.mp hm
    rw [emplaceList]
    split_ifs with hlt heq
    · refine List.pairwise_cons.mpr ⟨fun c hc => ?_, hm⟩
      rcases List.mem_cons.mp hc with rfl | hc
      · exact hlt
      · exact hlt.trans (hd c hc)
    · exact hm
    · refine List.pairwise_cons.mpr ⟨fun c hc => ?_, ih hm'⟩
      rcases (mem_emplaceList_iff hm').mp hc with hc | ⟨rfl, -⟩
      · exact hd c hc
      · exact lt_of_le_of_ne (not_lt.mp hlt) (Ne.symm heq)

/-- One more entry, if its key is new. -/
def emplace (m : OrderedMap κ ν) (k : κ) (v : ν) : OrderedMap κ ν :=
  ⟨emplaceList k v m.entries, pairwise_emplaceList m.sorted⟩

theorem mem_emplace_iff {m : OrderedMap κ ν} :
    e ∈ (m.emplace k v).entries ↔ e ∈ m.entries ∨ (e = (k, v) ∧ ∀ d ∈ m.entries, d.1 ≠ k) :=
  mem_emplaceList_iff m.sorted

/-- Several entries in turn. -/
def ofEntries (l : List (κ × ν)) : OrderedMap κ ν := l.foldl (fun m e => m.emplace e.1 e.2) empty

theorem mem_foldl_emplace_iff [BEq κ] [LawfulBEq κ] {l : List (κ × ν)} {m : OrderedMap κ ν} :
    (k, v) ∈ (l.foldl (fun m e => m.emplace e.1 e.2) m).entries ↔ (k, v) ∈ m.entries ∨
      ((∀ d ∈ m.entries, d.1 ≠ k) ∧ AssocList.get? k l = some v) := by
  induction l generalizing m with
  | nil => simp
  | cons d l ih =>
    rw [List.foldl_cons, ih, mem_emplace_iff, AssocList.get?_cons]
    simp only [mem_emplace_iff, beq_iff_eq]
    by_cases hk : d.1 = k
    · subst hk
      rw [if_pos rfl]
      by_cases hnew : ∀ c ∈ m.entries, c.1 ≠ d.1
      · have hpresent : ¬∀ c, (c ∈ m.entries ∨ c = (d.1, d.2) ∧ ∀ b ∈ m.entries, b.1 ≠ d.1) →
            c.1 ≠ d.1 := fun h => h (d.1, d.2) (.inr ⟨rfl, hnew⟩) rfl
        rw [or_iff_left fun h => hpresent h.1, Prod.mk.injEq, Option.some.injEq]
        simp only [true_and, and_iff_left hnew, and_iff_right hnew]
        exact or_congr_right eq_comm
      · have hpresent : ¬∀ c, (c ∈ m.entries ∨ c = (d.1, d.2) ∧ ∀ b ∈ m.entries, b.1 ≠ d.1) →
            c.1 ≠ d.1 := fun h => hnew fun c hc => h c (.inl hc)
        rw [or_iff_left fun h => hpresent h.1, or_iff_left fun h => hnew h.2,
          or_iff_left fun h => hnew h.1]
    · rw [if_neg hk]
      have hother : ¬((k, v) = (d.1, d.2) ∧ ∀ c ∈ m.entries, c.1 ≠ d.1) := fun h =>
        hk (congrArg Prod.fst h.1).symm
      have hnew : (∀ c, (c ∈ m.entries ∨ c = (d.1, d.2) ∧ ∀ b ∈ m.entries, b.1 ≠ d.1) →
          c.1 ≠ k) ↔ ∀ c ∈ m.entries, c.1 ≠ k := by
        refine ⟨fun h c hc => h c (.inl hc), fun h c hc => ?_⟩
        rcases hc with hc | ⟨rfl, -⟩
        · exact h c hc
        · exact hk
      rw [or_iff_left hother, hnew]

/-- **The first entry with each key** is kept. -/
theorem mem_ofEntries_iff [BEq κ] [LawfulBEq κ] {l : List (κ × ν)} :
    (k, v) ∈ (ofEntries l).entries ↔ AssocList.get? k l = some v := by
  rw [ofEntries, mem_foldl_emplace_iff]
  simp [empty]

end OrderedMap
