import Mathlib.Algebra.Order.BigOperators.Group.List
import Mathlib.Algebra.Order.Ring.Nat
import Mathlib.Logic.Relation

/-!
# Worklist closure

A stack of vertices is worked off: a vertex taken for the first time is marked and its successors
are pushed. When the stack is empty the marked vertices are those reachable from the seeds.

## Main definitions

* `Worklist.loop`, `Worklist.closure`.
* `Worklist.run`: the loop that tells when it was cut.
* `Worklist.potential`: what bounds the number of turns left.

## Main results

* `Worklist.mem_loop_iff`, `Worklist.mem_closure_iff`: the marked vertices are the reachable ones.
* `Worklist.run_eq_some_loop`: the loop ends.
-/

namespace Worklist

variable {α : Type*} [DecidableEq α] (succ : α → List α)

/-- Take vertices from the stack until it is empty, the head being its top. -/
def loop : (fuel : ℕ) → (work visited : List α) → List α
  | 0, _, visited => visited
  | _ + 1, [], visited => visited
  | fuel + 1, v :: work, visited =>
    if v ∈ visited then loop fuel work visited
    else loop fuel ((succ v).reverse ++ work) (v :: visited)

/-- The loop with successors that may be missing: nothing, when they are or when the fuel is
spent before the stack is empty. -/
def run (succ : α → Option (List α)) : (fuel : ℕ) → (work visited : List α) → Option (List α)
  | 0, _, _ => none
  | _ + 1, [], visited => some visited
  | fuel + 1, v :: work, visited =>
    if v ∈ visited then run succ fuel work visited
    else (succ v).bind fun next => run succ fuel (next.reverse ++ work) (v :: visited)

/-- The number of turns a stack can take: its length and what its unmarked vertices push. -/
def potential (vertices work visited : List α) : ℕ :=
  work.length + ((vertices.filter fun v => decide (v ∉ visited)).map fun v => (succ v).length).sum

/-- The vertices marked from some seeds, pushed in order. -/
def closure (vertices seeds : List α) : List α :=
  loop succ (potential succ vertices seeds []) seeds.reverse []

section Potential

variable {succ}

private theorem sum_filter_cons_le {v : α} {visited : List α} (hnot : v ∉ visited)
    {vertices : List α} (hv : v ∈ vertices) (f : α → ℕ) :
    ((vertices.filter fun w => decide (w ∉ v :: visited)).map f).sum + f v ≤
      ((vertices.filter fun w => decide (w ∉ visited)).map f).sum := by
  have hle (l : List α) : ((l.filter fun w => decide (w ∉ v :: visited)).map f).sum ≤
      ((l.filter fun w => decide (w ∉ visited)).map f).sum := by
    refine List.Sublist.sum_le_sum (List.Sublist.map f ?_) fun _ _ => Nat.zero_le _
    exact List.monotone_filter_right l fun w hw => by simp_all
  induction vertices with
  | nil => cases hv
  | cons u vertices ih =>
    by_cases huv : u = v
    · subst huv
      have := hle vertices
      simp only [List.mem_cons, true_or, not_true_eq_false, decide_false, hnot, not_false_eq_true,
        decide_true, Bool.false_eq_true, List.filter_cons_of_neg, List.filter_cons_of_pos,
        List.map_cons, List.sum_cons] at this ⊢
      omega
    · have hrest := ih ((List.mem_cons.mp hv).resolve_left fun h => huv h.symm)
      by_cases hu : u ∈ visited <;> simp_all
      omega

/-- Marking a vertex and pushing its successors uses up a turn. -/
private theorem potential_mark_lt {vertices work visited : List α} {v : α}
    (hv : v ∈ vertices) (hnot : v ∉ visited) :
    potential succ vertices ((succ v).reverse ++ work) (v :: visited) <
      potential succ vertices (v :: work) visited := by
  have h := sum_filter_cons_le hnot hv fun w => (succ w).length
  simp only [potential, List.length_append, List.length_reverse, List.length_cons]
  omega

end Potential

/-- The invariant of the loop: marked and stacked vertices are reachable vertices, and the seeds
and the successors of marked vertices are marked or stacked. -/
structure Inv (vertices seeds work visited : List α) : Prop where
  vertex : ∀ v ∈ work, v ∈ vertices
  sound : ∀ v, v ∈ visited ∨ v ∈ work →
    ∃ s ∈ seeds, Relation.ReflTransGen (fun a b => b ∈ succ a) s v
  seeds : ∀ s ∈ seeds, s ∈ visited ∨ s ∈ work
  closed : ∀ v ∈ visited, ∀ w ∈ succ v, w ∈ visited ∨ w ∈ work

variable {succ}

omit [DecidableEq α] in
private theorem Inv.skip {vertices seeds work visited : List α} {v : α}
    (h : Inv succ vertices seeds (v :: work) visited) (hv : v ∈ visited) :
    Inv succ vertices seeds work visited := by
  have hcover {w : α} (hw : w ∈ visited ∨ w ∈ v :: work) : w ∈ visited ∨ w ∈ work := by
    rcases hw with hw | hw
    · exact Or.inl hw
    · rcases List.mem_cons.mp hw with rfl | hw
      · exact Or.inl hv
      · exact Or.inr hw
  exact ⟨fun w hw => h.vertex w (List.mem_cons_of_mem _ hw),
    fun w hw => h.sound w (hw.imp_right (List.mem_cons_of_mem _)),
    fun s hs => hcover (h.seeds s hs), fun u hu w hw => hcover (h.closed u hu w hw)⟩

omit [DecidableEq α] in
private theorem Inv.mark {vertices seeds work visited : List α} {v : α}
    (hvertices : ∀ v ∈ vertices, succ v ⊆ vertices)
    (h : Inv succ vertices seeds (v :: work) visited) :
    Inv succ vertices seeds ((succ v).reverse ++ work) (v :: visited) := by
  have hcover {w : α} (hw : w ∈ visited ∨ w ∈ v :: work) :
      w ∈ v :: visited ∨ w ∈ (succ v).reverse ++ work := by
    rcases hw with hw | hw
    · exact Or.inl (List.mem_cons_of_mem _ hw)
    · rcases List.mem_cons.mp hw with rfl | hw
      · exact Or.inl List.mem_cons_self
      · exact Or.inr (List.mem_append_right _ hw)
  have hv := h.vertex v List.mem_cons_self
  refine ⟨fun w hw => ?_, fun w hw => ?_, fun s hs => hcover (h.seeds s hs), fun u hu w hw => ?_⟩
  · rcases List.mem_append.mp hw with hw | hw
    · exact hvertices v hv (List.mem_reverse.mp hw)
    · exact h.vertex w (List.mem_cons_of_mem _ hw)
  · rcases hw with hw | hw
    · rcases List.mem_cons.mp hw with rfl | hw
      · exact h.sound w (Or.inr List.mem_cons_self)
      · exact h.sound w (Or.inl hw)
    · rcases List.mem_append.mp hw with hw | hw
      · obtain ⟨s, hs, hpath⟩ := h.sound v (Or.inr List.mem_cons_self)
        exact ⟨s, hs, hpath.tail (List.mem_reverse.mp hw)⟩
      · exact h.sound w (Or.inr (List.mem_cons_of_mem _ hw))
  · rcases List.mem_cons.mp hu with rfl | hu
    · exact Or.inr (List.mem_append_left _ (List.mem_reverse.mpr hw))
    · exact hcover (h.closed u hu w hw)

/-- With enough fuel the loop ends with an empty stack. -/
private theorem loop_spec {vertices seeds : List α} (hvertices : ∀ v ∈ vertices, succ v ⊆ vertices)
    {fuel : ℕ} {work visited : List α} (h : Inv succ vertices seeds work visited)
    (hfuel : potential succ vertices work visited ≤ fuel) :
    Inv succ vertices seeds [] (loop succ fuel work visited) := by
  induction fuel generalizing work visited with
  | zero =>
    have hlen : work.length = 0 := by
      rw [potential] at hfuel
      omega
    rwa [List.eq_nil_of_length_eq_zero hlen] at h
  | succ fuel ih =>
    match work with
    | [] => exact h
    | v :: work =>
      rw [loop]
      split_ifs with hv
      · refine ih (h.skip hv) ?_
        rw [potential, List.length_cons] at hfuel
        rw [potential]
        omega
      · have hlt : potential succ vertices ((succ v).reverse ++ work) (v :: visited) <
            potential succ vertices (v :: work) visited :=
          potential_mark_lt (h.vertex v List.mem_cons_self) hv
        exact ih (h.mark hvertices) (by omega)

/-- **The loop ends** within its potential: more fuel changes nothing. -/
theorem run_eq_some_loop {vertices : List α} (hvertices : ∀ v ∈ vertices, succ v ⊆ vertices)
    {fuel fuel' : ℕ} {work visited : List α} (hwork : work ⊆ vertices)
    (hfuel : potential succ vertices work visited < fuel)
    (hfuel' : potential succ vertices work visited ≤ fuel') :
    run (fun v => some (succ v)) fuel work visited = some (loop succ fuel' work visited) := by
  induction fuel generalizing fuel' work visited with
  | zero => exact absurd hfuel (Nat.not_lt_zero _)
  | succ fuel ih =>
    match work, fuel' with
    | [], 0 => rfl
    | [], fuel' + 1 => rfl
    | v :: work, 0 =>
      rw [potential, List.length_cons] at hfuel'
      omega
    | v :: work, fuel' + 1 =>
      have hv := hwork List.mem_cons_self
      have hrest : work ⊆ vertices := List.Subset.trans (List.subset_cons_self v work) hwork
      rw [run, loop]
      split_ifs with hvisited
      · rw [potential, List.length_cons] at hfuel hfuel'
        exact ih hrest (by rw [potential]; omega) (by rw [potential]; omega)
      · have hlt : potential succ vertices ((succ v).reverse ++ work) (v :: visited) <
            potential succ vertices (v :: work) visited := potential_mark_lt hv hvisited
        refine ih (List.append_subset.mpr ⟨?_, hrest⟩) (by omega) (by omega)
        exact fun w hw => hvertices v hv (List.mem_reverse.mp hw)

/-- A vertex is marked once. -/
theorem nodup_loop {fuel : ℕ} {work visited : List α} (h : visited.Nodup) :
    (loop succ fuel work visited).Nodup := by
  induction fuel generalizing work visited with
  | zero => exact h
  | succ fuel ih =>
    match work with
    | [] => exact h
    | v :: work =>
      rw [loop]
      split_ifs with hv
      · exact ih h
      · exact ih (List.nodup_cons.mpr ⟨hv, h⟩)

/-- **The marked vertices are the reachable ones**, for seeds among vertices that are closed under
successors and a fuel of at least their potential. -/
theorem mem_loop_iff {vertices seeds : List α} (hvertices : ∀ v ∈ vertices, succ v ⊆ vertices)
    (hseeds : seeds ⊆ vertices) {fuel : ℕ} (hfuel : potential succ vertices seeds [] ≤ fuel)
    {v : α} :
    v ∈ loop succ fuel seeds.reverse [] ↔
      ∃ s ∈ seeds, Relation.ReflTransGen (fun a b => b ∈ succ a) s v := by
  have hstart : Inv succ vertices seeds seeds.reverse [] := by
    refine ⟨fun w hw => hseeds (List.mem_reverse.mp hw), fun w hw => ?_,
      fun s hs => Or.inr (List.mem_reverse.mpr hs), nofun⟩
    exact ⟨w, List.mem_reverse.mp (hw.resolve_left List.not_mem_nil), .refl⟩
  have hpotential : potential succ vertices seeds.reverse [] ≤ fuel := by
    simpa [potential] using hfuel
  have hend : Inv succ vertices seeds [] (loop succ fuel seeds.reverse []) :=
    loop_spec hvertices hstart hpotential
  constructor
  · exact fun hv => hend.sound v (Or.inl hv)
  · rintro ⟨s, hs, hpath⟩
    induction hpath with
    | refl => exact (hend.seeds s hs).resolve_right List.not_mem_nil
    | tail _ hedge ih => exact (hend.closed _ ih _ hedge).resolve_right List.not_mem_nil

theorem mem_closure_iff {vertices seeds : List α} (hvertices : ∀ v ∈ vertices, succ v ⊆ vertices)
    (hseeds : seeds ⊆ vertices) {v : α} :
    v ∈ closure succ vertices seeds ↔
      ∃ s ∈ seeds, Relation.ReflTransGen (fun a b => b ∈ succ a) s v :=
  mem_loop_iff hvertices hseeds le_rfl

/-- The closure holds its seeds and the successors of what it holds. -/
theorem seeds_subset_closure {vertices seeds : List α}
    (hvertices : ∀ v ∈ vertices, succ v ⊆ vertices) (hseeds : seeds ⊆ vertices) :
    seeds ⊆ closure succ vertices seeds :=
  fun s hs => (mem_closure_iff hvertices hseeds).mpr ⟨s, hs, .refl⟩

theorem succ_subset_closure {vertices seeds : List α}
    (hvertices : ∀ v ∈ vertices, succ v ⊆ vertices) (hseeds : seeds ⊆ vertices) {v : α}
    (hv : v ∈ closure succ vertices seeds) : succ v ⊆ closure succ vertices seeds := by
  intro w hw
  obtain ⟨s, hs, hpath⟩ := (mem_closure_iff hvertices hseeds).mp hv
  exact (mem_closure_iff hvertices hseeds).mpr ⟨s, hs, hpath.tail hw⟩

end Worklist
