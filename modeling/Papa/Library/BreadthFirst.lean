import Mathlib.Data.Finset.Card
import Mathlib.Data.Set.Card
import Mathlib.Data.Set.Finite.List

/-!
# Breadth-first search with a cap

A graph is searched level by level from a vertex. The vertices of a level come in the order in which
the lists of the level before name them, each vertex once. A level is begun only while fewer
vertices than a cap have been examined, so the vertices examined are those that have at most as many
vertices nearer to the start.

## Main definitions

* `BreadthFirst.ball`, `BreadthFirst.sphere`: the vertices within a number of steps, and those at
  exactly that distance.
* `BreadthFirst.order`: the vertices examined, in order.
* `BreadthFirst.Through`: vertices that a path through given vertices leads to.

## Main results

* `BreadthFirst.Searched.next_level`: what a level is.
* `BreadthFirst.mem_order_iff`: the vertices examined.
* `BreadthFirst.exists_through`: a vertex is found through vertices examined before.
-/

namespace BreadthFirst

variable {α : Type*} (next : α → List α) (s : α)

/-- The vertices within a number of steps. -/
def ball : ℕ → Set α
  | 0 => {s}
  | n + 1 => ball n ∪ {w | ∃ v ∈ ball n, w ∈ next v}

/-- The vertices at a distance. -/
def sphere : ℕ → Set α
  | 0 => {s}
  | n + 1 => ball next s (n + 1) \ ball next s n

/-- The vertices to which a path leads that goes through vertices with a property, in so many
steps. -/
inductive Through (Q : α → Prop) : ℕ → α → Prop
  | start : Through Q 0 s
  | step {n : ℕ} {u v : α} (h : Through Q n u) (huv : v ∈ next u) (hv : Q v) : Through Q (n + 1) v

section Search

variable [DecidableEq α]

/-- The elements of a list that are not seen yet, each once. -/
def fresh (seen : List α) : List α → List α
  | [] => []
  | v :: vs => if v ∈ seen then fresh seen vs else v :: fresh (v :: seen) vs

/-- The vertices examined from a level on. -/
def order (cap : ℕ) : (turns : ℕ) → (frontier seen : List α) → (examined : ℕ) → List α
  | 0, _, _, _ => []
  | turns + 1, frontier, seen, examined =>
    if frontier = [] ∨ cap ≤ examined then []
    else
      let level := fresh seen (frontier.flatMap next)
      level ++ order cap turns level (level ++ seen) (examined + level.length)

end Search

/-! ### Balls and spheres -/

section Balls

variable {next s}

theorem ball_subset_succ (n : ℕ) : ball next s n ⊆ ball next s (n + 1) := Set.subset_union_left

theorem ball_mono {m n : ℕ} (h : m ≤ n) : ball next s m ⊆ ball next s n := by
  induction h with
  | refl => exact subset_rfl
  | step _ ih => exact ih.trans (ball_subset_succ _)

theorem sphere_subset_ball (n : ℕ) : sphere next s n ⊆ ball next s n := by
  cases n with
  | zero => exact subset_rfl
  | succ n => exact Set.sdiff_subset

theorem finite_ball (n : ℕ) : (ball next s n).Finite := by
  induction n with
  | zero => exact Set.finite_singleton s
  | succ n ih =>
    have himage : {w | ∃ v ∈ ball next s n, w ∈ next v} = ⋃ v ∈ ball next s n,
        {w | w ∈ next v} := by
      ext w
      simp
    rw [ball, himage]
    exact ih.union (ih.biUnion fun v _ => List.finite_toSet (next v))

/-- The vertices at the next distance are the new neighbours of those at a distance. -/
theorem mem_sphere_succ_iff {n : ℕ} {w : α} : w ∈ sphere next s (n + 1) ↔
    w ∉ ball next s n ∧ ∃ v ∈ sphere next s n, w ∈ next v := by
  constructor
  · rintro ⟨hw | ⟨v, hv, hvw⟩, hnot⟩
    · exact absurd hw hnot
    · refine ⟨hnot, v, ?_, hvw⟩
      cases n with
      | zero => exact hv
      | succ n => exact ⟨hv, fun hbefore => hnot (Or.inr ⟨v, hbefore, hvw⟩)⟩
  · rintro ⟨hnot, v, hv, hvw⟩
    exact ⟨Or.inr ⟨v, sphere_subset_ball n hv, hvw⟩, hnot⟩

/-- Past a distance at which there is nothing there is nothing. -/
theorem sphere_eq_empty {m n : ℕ} (h : sphere next s m = ∅) (hmn : m ≤ n) :
    sphere next s n = ∅ := by
  induction hmn with
  | refl => exact h
  | step _ ih =>
    refine Set.eq_empty_iff_forall_notMem.mpr fun w hw => ?_
    obtain ⟨-, v, hv, -⟩ := mem_sphere_succ_iff.mp hw
    exact Set.eq_empty_iff_forall_notMem.mp ih v hv

end Balls

/-! ### The levels of the search -/

section Levels

variable [DecidableEq α] {next s}

theorem mem_fresh_iff {seen l : List α} {v : α} : v ∈ fresh seen l ↔ v ∈ l ∧ v ∉ seen := by
  induction l generalizing seen with
  | nil => exact iff_of_false List.not_mem_nil fun h => List.not_mem_nil h.1
  | cons w l ih =>
    rw [fresh]
    split_ifs with hw
    · rw [ih, List.mem_cons]
      refine and_congr_left fun hv => ⟨Or.inr, fun h => h.resolve_left ?_⟩
      rintro rfl
      exact hv hw
    · rw [List.mem_cons, ih, List.mem_cons, List.mem_cons, not_or]
      by_cases hvw : v = w
      · subst hvw
        simp [hw]
      · simp [hvw]

theorem nodup_fresh (seen l : List α) : (fresh seen l).Nodup := by
  induction l generalizing seen with
  | nil => exact .nil
  | cons w l ih =>
    rw [fresh]
    split_ifs
    · exact ih seen
    · exact List.nodup_cons.mpr ⟨fun h => (mem_fresh_iff.mp h).2 List.mem_cons_self, ih _⟩

/-- What holds before a level: what is seen, and where the search stands. -/
structure Searched (next : α → List α) (s : α) (n : ℕ) (frontier seen : List α) : Prop where
  mem_seen : ∀ v, v ∈ seen ↔ v ∈ ball next s n
  nodup : seen.Nodup
  mem_frontier : ∀ v, v ∈ frontier ↔ v ∈ sphere next s n

namespace Searched

variable {n : ℕ} {frontier seen : List α}

omit [DecidableEq α] in
theorem start : Searched next s 0 [s] [s] :=
  ⟨fun _ => List.mem_singleton, List.nodup_singleton s, fun _ => List.mem_singleton⟩

theorem mem_level (h : Searched next s n frontier seen) {v : α} :
    v ∈ fresh seen (frontier.flatMap next) ↔ v ∈ sphere next s (n + 1) := by
  rw [mem_fresh_iff, mem_sphere_succ_iff, List.mem_flatMap, h.mem_seen, and_comm]
  simp only [h.mem_frontier]

/-- **A level** is what is at the next distance. -/
theorem next_level (h : Searched next s n frontier seen) :
    Searched next s (n + 1) (fresh seen (frontier.flatMap next))
      (fresh seen (frontier.flatMap next) ++ seen) := by
  refine ⟨fun v => ?_, ?_, fun v => h.mem_level⟩
  · rw [List.mem_append, h.mem_level, h.mem_seen]
    constructor
    · rintro (hv | hv)
      · exact hv.1
      · exact ball_subset_succ n hv
    · intro hv
      by_cases hbefore : v ∈ ball next s n
      · exact Or.inr hbefore
      · exact Or.inl ⟨hv, hbefore⟩
  · refine List.nodup_append.mpr ⟨nodup_fresh _ _, h.nodup, fun v hv w hw hvw => ?_⟩
    exact (mem_fresh_iff.mp hv).2 (hvw ▸ hw)

theorem ncard_ball (h : Searched next s n frontier seen) :
    (ball next s n).ncard = seen.length := by
  have hset : ball next s n = ↑seen.toFinset := by
    ext v
    rw [Finset.mem_coe, List.mem_toFinset, h.mem_seen]
  rw [hset, Set.ncard_coe_finset, List.toFinset_card_of_nodup h.nodup]

end Searched

/-- When the search stops, nothing is left with few enough vertices nearer. -/
theorem Searched.stop {n cap examined : ℕ} {frontier seen : List α}
    (h : Searched next s n frontier seen) (hlen : seen.length = examined + 1)
    (hstop : frontier = [] ∨ cap ≤ examined) {v : α} :
    ¬∃ i, n ≤ i ∧ v ∈ sphere next s (i + 1) ∧ (ball next s i).ncard ≤ cap := by
  rintro ⟨i, hi, hv, hcard⟩
  rcases hstop with rfl | hcap
  · have hempty : sphere next s n = ∅ :=
      Set.eq_empty_iff_forall_notMem.mpr fun w hw => List.not_mem_nil ((h.mem_frontier w).mpr hw)
    exact Set.eq_empty_iff_forall_notMem.mp (sphere_eq_empty hempty (Nat.le_succ_of_le hi)) v hv
  · have hle : (ball next s n).ncard ≤ (ball next s i).ncard :=
      Set.ncard_le_ncard (ball_mono hi) (finite_ball i)
    rw [h.ncard_ball] at hle
    omega

/-- The vertices examined from a level on. -/
theorem mem_order_iff_of_searched {n cap turns examined : ℕ} {frontier seen : List α}
    (h : Searched next s n frontier seen) (hlen : seen.length = examined + 1)
    (hturns : frontier = [] ∨ cap ≤ examined + turns) {v : α} :
    v ∈ order next cap turns frontier seen examined ↔
      ∃ i, n ≤ i ∧ v ∈ sphere next s (i + 1) ∧ (ball next s i).ncard ≤ cap := by
  induction turns generalizing n frontier seen examined with
  | zero => exact iff_of_false List.not_mem_nil (h.stop hlen hturns)
  | succ turns ih =>
    rw [order]
    split_ifs with hstop
    · exact iff_of_false List.not_mem_nil (h.stop hlen hstop)
    · dsimp only
      have hlen' : (fresh seen (frontier.flatMap next) ++ seen).length =
          examined + (fresh seen (frontier.flatMap next)).length + 1 := by
        rw [List.length_append]
        omega
      have hturns' : fresh seen (frontier.flatMap next) = [] ∨
          cap ≤ examined + (fresh seen (frontier.flatMap next)).length + turns := by
        by_cases hempty : fresh seen (frontier.flatMap next) = []
        · exact Or.inl hempty
        · have := List.length_pos_iff.mpr hempty
          have := hturns.resolve_left fun hnil => hstop (Or.inl hnil)
          exact Or.inr (by omega)
      have hcard : (ball next s n).ncard ≤ cap := by
        rw [h.ncard_ball]
        omega
      rw [List.mem_append, ih h.next_level hlen' hturns', h.mem_level]
      constructor
      · rintro (hv | ⟨i, hi, hv⟩)
        · exact ⟨n, le_rfl, hv, hcard⟩
        · exact ⟨i, Nat.le_of_succ_le hi, hv⟩
      · rintro ⟨i, hi, hv⟩
        rcases hi.eq_or_lt with rfl | hlt
        · exact Or.inl hv.1
        · exact Or.inr ⟨i, hlt, hv⟩

/-- **The vertices examined** are those at a positive distance that have at most as many vertices
nearer, the start among them, as the cap says. -/
theorem mem_order_iff {cap turns : ℕ} (hturns : cap ≤ turns) {v : α} :
    v ∈ order next cap turns [s] [s] 0 ↔
      ∃ i, v ∈ sphere next s (i + 1) ∧ (ball next s i).ncard ≤ cap := by
  have hcap : [s] = [] ∨ cap ≤ 0 + turns := Or.inr (by omega)
  rw [mem_order_iff_of_searched Searched.start (show [s].length = 0 + 1 from rfl) hcap]
  exact ⟨fun ⟨i, _, hv⟩ => ⟨i, hv⟩, fun ⟨i, hv⟩ => ⟨i, Nat.zero_le i, hv⟩⟩

/-- **A vertex is found through vertices examined before it.** -/
theorem exists_through {Q : α → Prop} {cap turns examined : ℕ} {frontier seen : List α}
    (hfrontier : ∀ u ∈ frontier, ∃ n, Through next s Q n u) {before after : List α} {v : α}
    (h : order next cap turns frontier seen examined = before ++ v :: after)
    (hbefore : ∀ u ∈ before, Q u) : ∃ u n, Through next s Q n u ∧ v ∈ next u := by
  induction turns generalizing frontier seen examined before with
  | zero => exact absurd h.symm (List.append_ne_nil_of_right_ne_nil _ (List.cons_ne_nil _ _))
  | succ turns ih =>
    rw [order] at h
    split_ifs at h with hstop
    · exact absurd h.symm (List.append_ne_nil_of_right_ne_nil _ (List.cons_ne_nil _ _))
    · dsimp only at h
      have hfound {u : α} (hu : u ∈ fresh seen (frontier.flatMap next)) :
          ∃ w n, Through next s Q n w ∧ u ∈ next w := by
        obtain ⟨w, hw, huw⟩ := List.mem_flatMap.mp (mem_fresh_iff.mp hu).1
        obtain ⟨n, hn⟩ := hfrontier w hw
        exact ⟨w, n, hn, huw⟩
      rcases List.append_eq_append_iff.mp h with ⟨front, hfront, hrest⟩ | ⟨back, hback, hrest⟩
      · -- the vertex is past the level, and the whole level comes before it
        refine ih (fun u hu => ?_) hrest fun u hu => hbefore u (hfront ▸ List.mem_append_right _ hu)
        obtain ⟨w, n, hn, huw⟩ := hfound hu
        exact ⟨n + 1, .step hn huw (hbefore u (hfront ▸ List.mem_append_left _ hu))⟩
      · cases back with
        | nil =>
          -- the level ends right before the vertex
          rw [List.append_nil] at hback
          rw [List.nil_append] at hrest
          refine ih (fun u hu => ?_) (hrest.symm.trans (List.nil_append _).symm) nofun
          obtain ⟨w, n, hn, huw⟩ := hfound hu
          exact ⟨n + 1, .step hn huw (hbefore u (hback ▸ hu))⟩
        | cons u back =>
          obtain ⟨rfl, -⟩ := List.cons.inj hrest
          exact hfound (hback ▸ List.mem_append_right _ List.mem_cons_self)

end Levels

end BreadthFirst
