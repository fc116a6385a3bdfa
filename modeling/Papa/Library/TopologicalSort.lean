import Mathlib.Data.Set.Finite.List
import Mathlib.Data.List.Perm.Subperm
import Mathlib.Logic.Relation
import Mathlib.Order.WellFounded

/-!
# Kahn's algorithm with a least-first queue

A graph is an adjacency list giving each vertex its predecessors. The algorithm counts the
predecessors of each vertex, keeps the vertices without a predecessor left in a queue, and moves
the least of them to the output until the queue is empty. The output puts every vertex after its
predecessors, and it holds all vertices exactly when the graph has no cycle.

## Main definitions

* `Kahn.Adjacency`, `Kahn.Edge`, `Kahn.Acyclic`, `Kahn.Ordered`.
* `Kahn.build`: successors and in-degrees.
* `Kahn.sort`: the output of the algorithm.

## Main results

* `Kahn.succ_build`, `Kahn.indegree_build`: what the built graph holds.
* `Kahn.ordered_sort`, `Kahn.nodup_sort`, `Kahn.sort_subset`.
* `Kahn.length_sort_eq_iff`: all vertices are output exactly when the graph is acyclic.
* `Kahn.sort_congr`: the output does not depend on the order in which predecessors are listed.
-/

namespace Kahn

/-- The vertices of a graph, each with its predecessors. -/
abbrev Adjacency (α : Type*) := List (α × List α)

variable {α : Type*}

/-- The vertices. -/
def Adjacency.vertices (adj : Adjacency α) : List α := adj.map Prod.fst

/-- `d` is a predecessor of the vertex `v`. -/
def Edge (adj : Adjacency α) (d v : α) : Prop := ∃ ds, (v, ds) ∈ adj ∧ d ∈ ds

/-- No vertex reaches itself. -/
def Acyclic (adj : Adjacency α) : Prop := ∀ v, ¬Relation.TransGen (Edge adj) v v

/-- Every element comes after all its predecessors. -/
def Ordered (adj : Adjacency α) (l : List α) : Prop :=
  ∀ before v after, l = before ++ v :: after → ∀ d, Edge adj d v → d ∈ before

/-- Each vertex is listed once, each predecessor of a vertex is listed once and is a vertex. -/
structure WellFormed (adj : Adjacency α) : Prop where
  nodup : adj.vertices.Nodup
  nodup_preds : ∀ v ds, (v, ds) ∈ adj → ds.Nodup
  closed : ∀ v ds, (v, ds) ∈ adj → ds ⊆ adj.vertices

theorem WellFormed.preds_unique {adj : Adjacency α} (h : WellFormed adj) {v : α} {ds ds' : List α}
    (hds : (v, ds) ∈ adj) (hds' : (v, ds') ∈ adj) : ds = ds' :=
  congrArg Prod.snd (List.inj_on_of_nodup_map h.nodup hds hds' rfl)

theorem WellFormed.edge_iff {adj : Adjacency α} (h : WellFormed adj) {v d : α} {ds : List α}
    (hds : (v, ds) ∈ adj) : Edge adj d v ↔ d ∈ ds :=
  ⟨fun ⟨_, hds', hd⟩ => h.preds_unique hds hds' ▸ hd, fun hd => ⟨ds, hds, hd⟩⟩

theorem Ordered.append_singleton {adj : Adjacency α} {l : List α} (h : Ordered adj l) {v : α}
    (hv : ∀ d, Edge adj d v → d ∈ l) : Ordered adj (l ++ [v]) := by
  intro before w after heq d hd
  rcases List.eq_nil_or_concat after with rfl | ⟨after, x, rfl⟩
  · obtain ⟨rfl, hvw⟩ := List.append_inj' heq rfl
    cases hvw
    exact hv d hd
  · have heq' : l ++ [v] = (before ++ w :: after) ++ [x] := by simpa using heq
    exact h before w after (List.append_inj' heq' rfl).1 d hd

/-- An ordered list holds the predecessors of its elements. -/
theorem Ordered.mem_of_edge {adj : Adjacency α} {l : List α} (h : Ordered adj l) {d v : α}
    (hv : v ∈ l) (hd : Edge adj d v) : d ∈ l := by
  obtain ⟨before, after, rfl⟩ := List.append_of_mem hv
  exact List.mem_append_left _ (h before v after rfl d hd)

/-- A list without repetitions that orders all vertices leaves no cycle. -/
theorem Ordered.acyclic [DecidableEq α] {adj : Adjacency α} {l : List α} (h : Ordered adj l)
    (hnodup : l.Nodup) (hall : adj.vertices ⊆ l) : Acyclic adj := by
  have hstep {d v : α} (hd : Edge adj d v) : l.idxOf d < l.idxOf v := by
    obtain ⟨ds, hv, -⟩ := id hd
    have hmem : v ∈ l := hall (List.mem_map_of_mem hv)
    obtain ⟨before, after, rfl⟩ := List.append_of_mem hmem
    have hbefore : d ∈ before := h before v after rfl d hd
    have hv' : v ∉ before := fun hvb => hnodup.disjoint hvb List.mem_cons_self
    rw [List.idxOf_append_of_mem hbefore, List.idxOf_append_of_notMem hv',
      List.idxOf_cons_self, Nat.add_zero]
    exact List.idxOf_lt_length_of_mem hbefore
  intro v hcycle
  have hlt {u w : α} (huw : Relation.TransGen (Edge adj) u w) : l.idxOf u < l.idxOf w := by
    induction huw with
    | single hd => exact hstep hd
    | tail _ hd ih => exact ih.trans (hstep hd)
  exact lt_irrefl _ (hlt hcycle)

/-- In an acyclic graph every nonempty set of vertices has one without a predecessor in it. -/
theorem Acyclic.exists_source {adj : Adjacency α} (h : Acyclic adj) {P : α → Prop}
    (hP : ∃ v ∈ adj.vertices, P v) :
    ∃ v ∈ adj.vertices, P v ∧ ∀ d ∈ adj.vertices, P d → ¬Edge adj d v := by
  let r : {v // v ∈ adj.vertices} → {v // v ∈ adj.vertices} → Prop :=
    fun d v => Relation.TransGen (Edge adj) d v
  have htrans : IsTrans _ r := ⟨fun _ _ _ => Relation.TransGen.trans⟩
  have hirrefl : Std.Irrefl r := ⟨fun v => h v⟩
  have hfinite : Finite {v // v ∈ adj.vertices} := adj.vertices.finite_toSet
  have hwf : WellFounded r := Finite.wellFounded_of_trans_of_irrefl r
  obtain ⟨v, hv, hPv⟩ := hP
  obtain ⟨m, hm, hmin⟩ := hwf.has_min {v | P v} ⟨⟨v, hv⟩, hPv⟩
  exact ⟨m, m.2, hm, fun d hd hPd hedge => hmin ⟨d, hd⟩ hPd (.single hedge)⟩

/-! ### The graph -/

/-- The successors of each vertex and the number of its predecessors. -/
structure Graph (α : Type*) where
  succ : α → List α := fun _ => []
  indegree : α → ℕ := fun _ => 0

section Build

variable [DecidableEq α]

/-- Enter one predecessor of `v`. -/
def addEdge (v : α) (g : Graph α) (d : α) : Graph α where
  succ := Function.update g.succ d (g.succ d ++ [v])
  indegree := Function.update g.indegree v (g.indegree v + 1)

/-- Enter all predecessors of a vertex. -/
def addVertex (g : Graph α) (e : α × List α) : Graph α := e.2.foldl (addEdge e.1) g

/-- Enter all vertices. -/
def build (adj : Adjacency α) : Graph α := adj.foldl addVertex {}

private theorem succ_foldl_addEdge (v d : α) {ds : List α} (hds : ds.Nodup) (g : Graph α) :
    (ds.foldl (addEdge v) g).succ d = g.succ d ++ if d ∈ ds then [v] else [] := by
  induction ds generalizing g with
  | nil => simp
  | cons d' ds ih =>
    obtain ⟨hnot, hds⟩ := List.nodup_cons.mp hds
    rw [List.foldl_cons, ih hds]
    by_cases h : d = d'
    · subst h
      simp [addEdge, hnot]
    · simp [addEdge, h]

private theorem indegree_foldl_addEdge (v w : α) (ds : List α) (g : Graph α) :
    (ds.foldl (addEdge v) g).indegree w = g.indegree w + if w = v then ds.length else 0 := by
  induction ds generalizing g with
  | nil => simp
  | cons d ds ih =>
    rw [List.foldl_cons, ih]
    by_cases h : w = v
    · subst h
      simp only [addEdge, Function.update_self, ↓reduceIte, List.length_cons]
      omega
    · simp [addEdge, h]

private theorem succ_foldl_addVertex (adj : Adjacency α)
    (hadj : ∀ v ds, (v, ds) ∈ adj → ds.Nodup) (d : α) (g : Graph α) :
    (adj.foldl addVertex g).succ d =
      g.succ d ++ (adj.filter fun e => decide (d ∈ e.2)).map Prod.fst := by
  induction adj generalizing g with
  | nil => simp
  | cons e adj ih =>
    rw [List.foldl_cons, ih fun v ds h => hadj v ds (List.mem_cons_of_mem _ h), addVertex,
      succ_foldl_addEdge _ _ (hadj e.1 e.2 List.mem_cons_self)]
    by_cases h : d ∈ e.2 <;> simp [h]

/-- The successors of a vertex are the vertices that list it as a predecessor, in order. -/
theorem succ_build {adj : Adjacency α} (h : WellFormed adj) (d : α) :
    (build adj).succ d = (adj.filter fun e => decide (d ∈ e.2)).map Prod.fst := by
  rw [build, succ_foldl_addVertex adj h.nodup_preds, List.nil_append]

private theorem indegree_foldl_addVertex_of_notMem {adj : Adjacency α} {v : α}
    (hv : v ∉ adj.vertices) (g : Graph α) :
    (adj.foldl addVertex g).indegree v = g.indegree v := by
  induction adj generalizing g with
  | nil => rfl
  | cons e adj ih =>
    obtain ⟨hne, hv⟩ := not_or.mp (mt List.mem_cons.mpr hv)
    rw [List.foldl_cons, ih hv, addVertex, indegree_foldl_addEdge, if_neg hne, Nat.add_zero]

/-- The in-degree of a vertex is the number of its predecessors. -/
theorem indegree_build {adj : Adjacency α} (h : adj.vertices.Nodup) {v : α} {ds : List α}
    (hv : (v, ds) ∈ adj) : (build adj).indegree v = ds.length := by
  suffices hg : ∀ g : Graph α, (adj.foldl addVertex g).indegree v = g.indegree v + ds.length by
    exact (hg {}).trans (Nat.zero_add _)
  intro g
  induction adj generalizing g with
  | nil => cases hv
  | cons e adj ih =>
    obtain ⟨hnot, hnodup⟩ := List.nodup_cons.mp h
    rw [List.foldl_cons]
    rcases List.mem_cons.mp hv with rfl | hmem
    · rw [indegree_foldl_addVertex_of_notMem hnot, addVertex, indegree_foldl_addEdge, if_pos rfl]
    · have hne : v ≠ e.1 := fun heq => hnot (heq ▸ List.mem_map_of_mem hmem)
      rw [ih hnodup hmem, addVertex, indegree_foldl_addEdge, if_neg hne, Nat.add_zero]

end Build

/-! ### The loop -/

variable [LinearOrder α]

/-- The queue, the predecessors left of each vertex, and the output so far. -/
structure State (α : Type*) where
  ready : List α
  indegree : α → ℕ
  sorted : List α

/-- One predecessor of `v` less; `v` is queued when none is left. -/
def release (s : State α) (v : α) : State α :=
  let left := s.indegree v - 1
  { s with
    ready := if left = 0 then v :: s.ready else s.ready
    indegree := Function.update s.indegree v left }

/-- Move the least queued vertex to the output and release its successors. -/
def pop (succ : α → List α) (s : State α) (v : α) : State α :=
  (succ v).foldl release { s with ready := s.ready.erase v, sorted := s.sorted ++ [v] }

/-- Move vertices to the output until the queue is empty. -/
def loop (succ : α → List α) : (fuel : ℕ) → State α → List α
  | 0, s => s.sorted
  | fuel + 1, s =>
    match s.ready.min? with
    | none => s.sorted
    | some v => loop succ fuel (pop succ s v)

/-- The state before the loop: the vertices without predecessors are queued. -/
def start (adj : Adjacency α) : State α where
  ready := adj.vertices.filter fun v => (build adj).indegree v = 0
  indegree := (build adj).indegree
  sorted := []

/-- The output of Kahn's algorithm. Each turn outputs one vertex, so their number is enough
fuel. -/
def sort (adj : Adjacency α) : List α := loop (build adj).succ adj.length (start adj)

/-- What releasing the successors of a vertex does. -/
private theorem foldl_release {l : List α} (hl : l.Nodup) (s : State α) :
    (l.foldl release s).sorted = s.sorted ∧
    (∀ w, (l.foldl release s).indegree w = s.indegree w - if w ∈ l then 1 else 0) ∧
    ((l.foldl release s).ready.Nodup ↔
      s.ready.Nodup ∧ ∀ w ∈ l, s.indegree w - 1 = 0 → w ∉ s.ready) ∧
    ∀ w, w ∈ (l.foldl release s).ready ↔ w ∈ s.ready ∨ (w ∈ l ∧ s.indegree w - 1 = 0) := by
  induction l generalizing s with
  | nil => simp
  | cons v l ih =>
    obtain ⟨hnot, hl⟩ := List.nodup_cons.mp hl
    obtain ⟨hsorted, hdeg, hnodup, hready⟩ := ih hl (release s v)
    have hdeg' (w : α) (hw : w ∈ l) : (release s v).indegree w = s.indegree w := by
      have hne : w ≠ v := fun h => hnot (h ▸ hw)
      simp [release, hne]
    have hready' (w : α) :
        w ∈ (release s v).ready ↔ (w = v ∧ s.indegree v - 1 = 0) ∨ w ∈ s.ready := by
      by_cases h0 : s.indegree v - 1 = 0 <;> simp [release, h0]
    rw [List.foldl_cons]
    refine ⟨hsorted, fun w => ?_, ?_, fun w => ?_⟩
    · rw [hdeg w]
      by_cases hw : w = v
      · subst hw
        simp [release, hnot]
      · simp [release, hw]
    · rw [hnodup]
      by_cases h0 : s.indegree v - 1 = 0
      · simp only [release, h0, ↓reduceIte, List.nodup_cons, List.mem_cons, not_or,
          forall_eq_or_imp, forall_const]
        constructor
        · rintro ⟨⟨hv, hs⟩, hrest⟩
          refine ⟨hs, hv, fun w hw hzero => (hrest w hw ?_).2⟩
          have hne : w ≠ v := fun h => hnot (h ▸ hw)
          rwa [Function.update_of_ne hne]
        · rintro ⟨hs, hv, hrest⟩
          refine ⟨⟨hv, hs⟩, fun w hw hzero => ?_⟩
          have hne : w ≠ v := fun h => hnot (h ▸ hw)
          rw [Function.update_of_ne hne] at hzero
          exact ⟨hne, hrest w hw hzero⟩
      · have hsame : (release s v).ready = s.ready := by simp [release, h0]
        rw [hsame]
        simp only [List.mem_cons, forall_eq_or_imp, h0, false_implies, true_and]
        refine and_congr_right fun _ => forall₂_congr fun w hw => ?_
        rw [hdeg' w hw]
    · rw [hready w, hready']
      constructor
      · rintro ((⟨rfl, h0⟩ | hw) | ⟨hw, h0⟩)
        · exact Or.inr ⟨List.mem_cons_self, h0⟩
        · exact Or.inl hw
        · exact Or.inr ⟨List.mem_cons_of_mem _ hw, hdeg' w hw ▸ h0⟩
      · rintro (hw | ⟨hw, h0⟩)
        · exact Or.inl (Or.inr hw)
        · rcases List.mem_cons.mp hw with rfl | hw
          · exact Or.inl (Or.inl ⟨rfl, h0⟩)
          · exact Or.inr ⟨hw, (hdeg' w hw).symm ▸ h0⟩

/-- The invariant of the loop: the output is ordered, the counts are those of the predecessors not
yet output, and the queue holds the vertices that wait for none. -/
structure Inv (adj : Adjacency α) (s : State α) : Prop where
  nodup : s.sorted.Nodup
  ordered : Ordered adj s.sorted
  subset : s.sorted ⊆ adj.vertices
  nodup_ready : s.ready.Nodup
  mem_ready : ∀ v, v ∈ s.ready ↔
    v ∈ adj.vertices ∧ v ∉ s.sorted ∧ ∀ d, Edge adj d v → d ∈ s.sorted
  indegree : ∀ v ds, (v, ds) ∈ adj →
    s.indegree v = (ds.filter fun d => decide (d ∉ s.sorted)).length

theorem inv_start {adj : Adjacency α} (h : WellFormed adj) : Inv adj (start adj) where
  nodup := List.nodup_nil
  ordered := fun before v after heq => by simp [start] at heq
  subset := List.nil_subset _
  nodup_ready := h.nodup.filter _
  mem_ready v := by
    simp only [start, List.mem_filter, decide_eq_true_eq, List.not_mem_nil, not_false_eq_true,
      true_and, imp_false]
    refine and_congr_right fun hv => ?_
    obtain ⟨⟨v, ds⟩, hds, rfl⟩ := List.mem_map.mp hv
    rw [indegree_build h.nodup hds, List.length_eq_zero_iff, List.eq_nil_iff_forall_not_mem]
    exact forall_congr' fun d => not_congr (h.edge_iff hds).symm
  indegree v ds hds := by
    simpa [start] using indegree_build h.nodup hds

private theorem length_filter_append {ds l : List α} (hds : ds.Nodup) {v : α} (hv : v ∉ l) :
    (ds.filter fun d => decide (d ∉ l ++ [v])).length =
      (ds.filter fun d => decide (d ∉ l)).length - if v ∈ ds then 1 else 0 := by
  have hsplit : (ds.filter fun d => decide (d ∉ l ++ [v])) =
      (ds.filter fun d => decide (d ∉ l)).erase v := by
    rw [(hds.filter _).erase_eq_filter, List.filter_filter]
    refine List.filter_congr fun d _ => ?_
    rw [Bool.eq_iff_iff]
    simp [and_comm]
  rw [hsplit, List.length_erase]
  split_ifs with h₁ h₂ h₂
  · rfl
  · exact absurd (List.mem_of_mem_filter h₁) h₂
  · exact absurd (List.mem_filter.mpr ⟨h₂, decide_eq_true hv⟩) h₁
  · rfl

/-- A turn keeps the invariant. -/
theorem Inv.pop {adj : Adjacency α} (h : WellFormed adj) {s : State α} (hs : Inv adj s) {v : α}
    (hv : v ∈ s.ready) : Inv adj (pop (build adj).succ s v) := by
  obtain ⟨hmem, hnot, hpreds⟩ := (hs.mem_ready v).mp hv
  have hsucc : ((build adj).succ v).Nodup := by
    rw [succ_build h]
    exact h.nodup.sublist (List.filter_sublist.map _)
  have hmem_succ {w : α} {ds : List α} (hds : (w, ds) ∈ adj) :
      w ∈ (build adj).succ v ↔ v ∈ ds := by
    rw [succ_build h, ← h.edge_iff hds]
    constructor
    · intro hw
      obtain ⟨⟨w, ds⟩, hmem, rfl⟩ := List.mem_map.mp hw
      obtain ⟨hadj, hin⟩ := List.mem_filter.mp hmem
      exact ⟨ds, hadj, of_decide_eq_true hin⟩
    · rintro ⟨ds, hadj, hin⟩
      exact List.mem_map.mpr ⟨(w, ds), List.mem_filter.mpr ⟨hadj, decide_eq_true hin⟩, rfl⟩
  obtain ⟨hsorted, hdeg, hnodup, hready⟩ := foldl_release hsucc
    { s with ready := s.ready.erase v, sorted := s.sorted ++ [v] }
  have hcount {w : α} {ds : List α} (hds : (w, ds) ∈ adj) :
      s.indegree w - (if v ∈ ds then 1 else 0) =
        (ds.filter fun d => decide (d ∉ s.sorted ++ [v])).length := by
    rw [hs.indegree w ds hds, length_filter_append (h.nodup_preds w ds hds) hnot]
  -- a successor of `v` is neither output nor queued yet
  have hfresh {w : α} (hw : Edge adj v w) : w ∉ s.sorted ∧ w ∉ s.ready := by
    refine ⟨fun hws => hnot (hs.ordered.mem_of_edge hws hw), fun hwr => ?_⟩
    exact hnot (((hs.mem_ready w).mp hwr).2.2 v hw)
  have hsucc_iff {w : α} : w ∈ (build adj).succ v ↔ Edge adj v w := by
    constructor
    · intro hw
      have hw' := hw
      rw [succ_build h] at hw'
      obtain ⟨⟨w, ds⟩, hmem, rfl⟩ := List.mem_map.mp hw'
      have hadj := (List.mem_filter.mp hmem).1
      exact (h.edge_iff hadj).mpr ((hmem_succ hadj).mp hw)
    · rintro ⟨ds, hadj, hin⟩
      exact (hmem_succ hadj).mpr hin
  -- no predecessor of `w` is left exactly when all are in the new output
  have hzero {w : α} {ds : List α} (hds : (w, ds) ∈ adj) (hin : v ∈ ds) :
      s.indegree w - 1 = 0 ↔ ∀ d, Edge adj d w → d ∈ s.sorted ++ [v] := by
    have hc := hcount hds
    rw [if_pos hin] at hc
    rw [hc, List.length_eq_zero_iff, List.filter_eq_nil_iff]
    simp only [decide_not, Bool.not_eq_true', decide_eq_false_iff_not, not_not, h.edge_iff hds]
  refine ⟨?_, ?_, ?_, ?_, fun w => ?_, fun w ds hds => ?_⟩
  · rw [Kahn.pop, hsorted]
    exact hs.nodup.append (List.nodup_singleton v) (by simpa using hnot)
  · rw [Kahn.pop, hsorted]
    exact hs.ordered.append_singleton hpreds
  · rw [Kahn.pop, hsorted]
    exact List.append_subset.mpr ⟨hs.subset, by simpa using hmem⟩
  · rw [Kahn.pop, hnodup]
    refine ⟨hs.nodup_ready.erase v, fun w hw _ hwr => ?_⟩
    exact (hfresh (hsucc_iff.mp hw)).2 (List.mem_of_mem_erase hwr)
  · rw [Kahn.pop, hready w, hsorted, hs.nodup_ready.mem_erase_iff, hs.mem_ready w]
    constructor
    · rintro (⟨hne, hwmem, hws, hwpreds⟩ | ⟨hw, h0⟩)
      · exact ⟨hwmem, by simp [hws, hne], fun d hd => List.mem_append_left _ (hwpreds d hd)⟩
      · have hedge := hsucc_iff.mp hw
        obtain ⟨ds, hds, hin⟩ := id hedge
        refine ⟨List.mem_map_of_mem hds, ?_, (hzero hds hin).mp h0⟩
        have hne : w ≠ v := fun heq => hnot (hpreds v (heq ▸ hedge))
        simp [(hfresh hedge).1, hne]
    · rintro ⟨hwmem, hws, hwpreds⟩
      obtain ⟨⟨w, ds⟩, hds, rfl⟩ := List.mem_map.mp hwmem
      have hws' : w ∉ s.sorted ∧ w ≠ v := by simpa using hws
      by_cases hin : v ∈ ds
      · exact Or.inr ⟨(hmem_succ hds).mpr hin, (hzero hds hin).mpr hwpreds⟩
      · refine Or.inl ⟨hws'.2, hwmem, hws'.1, fun d hd => ?_⟩
        rcases List.mem_append.mp (hwpreds d hd) with hd' | hd'
        · exact hd'
        · exact absurd (List.mem_singleton.mp hd' ▸ (h.edge_iff hds).mp hd) hin
  · rw [Kahn.pop, hsorted, hdeg w, ← hcount hds]
    simp only [hmem_succ hds]

theorem sorted_pop {adj : Adjacency α} (h : WellFormed adj) (s : State α) (v : α) :
    (pop (build adj).succ s v).sorted = s.sorted ++ [v] := by
  have hsucc : ((build adj).succ v).Nodup := by
    rw [succ_build h]
    exact h.nodup.sublist (List.filter_sublist.map _)
  exact (foldl_release hsucc _).1

/-- With enough fuel the loop ends in a state that keeps the invariant and has an empty queue. -/
private theorem loop_spec {adj : Adjacency α} (h : WellFormed adj) {fuel : ℕ} {s : State α}
    (hs : Inv adj s) (hfuel : adj.length ≤ fuel + s.sorted.length) :
    ∃ t, loop (build adj).succ fuel s = t.sorted ∧ Inv adj t ∧ t.ready = [] := by
  have hempty (t : State α) (ht : Inv adj t) (hlen : adj.length ≤ t.sorted.length) :
      t.ready = [] := by
    rw [List.eq_nil_iff_forall_not_mem]
    intro v hv
    obtain ⟨hmem, hnot, -⟩ := (ht.mem_ready v).mp hv
    have hcons : (v :: t.sorted).Nodup := List.nodup_cons.mpr ⟨hnot, ht.nodup⟩
    have hsub : v :: t.sorted ⊆ adj.vertices := List.cons_subset.mpr ⟨hmem, ht.subset⟩
    have hle := (hcons.subperm hsub).length_le
    simp only [List.length_cons, Adjacency.vertices, List.length_map] at hle
    omega
  induction fuel generalizing s with
  | zero => exact ⟨s, rfl, hs, hempty s hs (by omega)⟩
  | succ fuel ih =>
    rw [loop]
    cases hmin : s.ready.min? with
    | none => exact ⟨s, rfl, hs, List.min?_eq_none_iff.mp hmin⟩
    | some v =>
      refine ih (hs.pop h (List.min?_mem hmin)) ?_
      rw [sorted_pop h, List.length_append, List.length_singleton]
      omega

private theorem sort_spec {adj : Adjacency α} (h : WellFormed adj) :
    ∃ t, sort adj = t.sorted ∧ Inv adj t ∧ t.ready = [] :=
  loop_spec h (inv_start h) (by simp [start])

/-! ### The output -/

variable {adj : Adjacency α}

theorem nodup_sort (h : WellFormed adj) : (sort adj).Nodup := by
  obtain ⟨t, heq, ht, -⟩ := sort_spec h
  exact heq ▸ ht.nodup

theorem sort_subset (h : WellFormed adj) : sort adj ⊆ adj.vertices := by
  obtain ⟨t, heq, ht, -⟩ := sort_spec h
  exact heq ▸ ht.subset

/-- **Every vertex is output after its predecessors.** -/
theorem ordered_sort (h : WellFormed adj) : Ordered adj (sort adj) := by
  obtain ⟨t, heq, ht, -⟩ := sort_spec h
  exact heq ▸ ht.ordered

theorem sort_perm_iff (h : WellFormed adj) :
    (sort adj).Perm adj.vertices ↔ (sort adj).length = adj.length := by
  have hlen : adj.vertices.length = adj.length := List.length_map _
  constructor
  · exact fun hperm => hperm.length_eq.trans hlen
  · intro heq
    exact ((nodup_sort h).subperm (sort_subset h)).perm_of_length_le (by omega)

/-- **All vertices are output exactly when the graph is acyclic.** -/
theorem length_sort_eq_iff (h : WellFormed adj) :
    (sort adj).length = adj.length ↔ Acyclic adj := by
  rw [← sort_perm_iff h]
  constructor
  · exact fun hperm => (ordered_sort h).acyclic (nodup_sort h) hperm.symm.subset
  · intro hacyclic
    obtain ⟨t, heq, ht, hempty⟩ := sort_spec h
    refine (List.perm_ext_iff_of_nodup (nodup_sort h) h.nodup).mpr fun v => ?_
    refine ⟨fun hv => sort_subset h hv, fun hv => ?_⟩
    rw [heq]
    by_contra hnot
    -- a least vertex left over would have been queued
    obtain ⟨m, hm, hmnot, hmin⟩ := hacyclic.exists_source (P := (· ∉ t.sorted)) ⟨v, hv, hnot⟩
    have hready : m ∈ t.ready := by
      refine (ht.mem_ready m).mpr ⟨hm, hmnot, fun d hd => ?_⟩
      by_contra hd'
      obtain ⟨ds, hds, hin⟩ := id hd
      exact hmin d (h.closed m ds hds hin) hd' hd
    rw [hempty] at hready
    cases hready

/-- **Predecessor lists may be reordered.** Two graphs with the same vertices in the same order
and the same edges have the same output. -/
theorem sort_congr {adj' : Adjacency α} (h : WellFormed adj) (h' : WellFormed adj')
    (hadj : List.Forall₂ (fun e e' => e.1 = e'.1 ∧ e.2.Perm e'.2) adj adj') :
    sort adj = sort adj' := by
  have hvertices : adj.vertices = adj'.vertices := by
    clear h h'
    induction hadj with
    | nil => rfl
    | cons he _ ih => exact congrArg₂ List.cons he.1 ih
  have hsucc : (build adj).succ = (build adj').succ := by
    funext d
    rw [succ_build h, succ_build h']
    clear h h' hvertices
    induction hadj with
    | nil => rfl
    | cons he _ ih =>
      simp only [List.filter_cons, he.2.mem_iff]
      split_ifs
      · exact congrArg₂ List.cons he.1 ih
      · exact ih
  have hindegree : (build adj).indegree = (build adj').indegree := by
    funext v
    by_cases hv : v ∈ adj.vertices
    · obtain ⟨⟨v, ds⟩, hds, rfl⟩ := List.mem_map.mp hv
      obtain ⟨i, hi, hget⟩ := List.mem_iff_getElem.mp hds
      have hi' : i < adj'.length := hadj.length_eq ▸ hi
      have hrel := List.forall₂_iff_get.mp hadj |>.2 i hi hi'
      simp only [List.get_eq_getElem, hget] at hrel
      have hds' : (v, (adj'[i]).2) ∈ adj' := by
        rw [hrel.1]
        exact List.getElem_mem hi'
      rw [indegree_build h.nodup hds, indegree_build h'.nodup hds', hrel.2.length_eq]
    · have hv' : v ∉ adj'.vertices := hvertices ▸ hv
      exact (indegree_foldl_addVertex_of_notMem hv {}).trans
        (indegree_foldl_addVertex_of_notMem hv' {}).symm
  rw [sort, sort, start, start, hsucc, hindegree, hvertices, hadj.length_eq]

end Kahn
