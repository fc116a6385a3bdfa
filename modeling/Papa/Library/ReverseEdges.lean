import Mathlib.Data.List.Nodup

/-!
# Edges read backwards

The nodes of a graph have a key and the keys of the nodes their edges lead to. The edges that lead
to a key are read off by going through all nodes in order.

## Main definitions

* `ReverseEdges.reversed`: the keys of the nodes with an edge to a key, once for each edge.

## Main results

* `ReverseEdges.count_reversed`: as many edges lead back as lead on.
-/

namespace ReverseEdges

variable {α β : Type*} [DecidableEq α] (key : β → α) (succ : β → List α)

/-- All edges, each with the key it leads to first. -/
def edges (nodes : List β) : List (α × α) := nodes.flatMap fun b => (succ b).map (·, key b)

/-- The keys of the nodes with an edge to `v`, once for each edge. -/
def reversed (nodes : List β) (v : α) : List α :=
  ((edges key succ nodes).filter (·.1 == v)).map Prod.snd

variable {key succ} {nodes : List β} {u v : α} {b : β}

theorem reversed_cons (b : β) (nodes : List β) (v : α) :
    reversed key succ (b :: nodes) v =
      List.replicate ((succ b).count v) (key b) ++ reversed key succ nodes v := by
  have hfirst : (((succ b).map (·, key b)).filter (·.1 == v)).map Prod.snd =
      List.replicate ((succ b).count v) (key b) := by
    induction succ b with
    | nil => rfl
    | cons w l ih =>
      by_cases h : w = v
      · subst h
        have hself : ((w, key b).1 == w) = true := beq_self_eq_true w
        rw [List.map_cons, List.filter_cons, if_pos hself, List.map_cons, ih, List.count_cons_self,
          List.replicate_succ]
      · have hother : ¬ ((w, key b).1 == v) = true := by simpa using h
        rw [List.map_cons, List.filter_cons, if_neg hother, ih, List.count_cons_of_ne h]
  unfold reversed edges
  rw [List.flatMap_cons, List.filter_append, List.map_append, hfirst]

/-- An edge that is read backwards. -/
theorem mem_reversed_iff : u ∈ reversed key succ nodes v ↔
    ∃ b ∈ nodes, key b = u ∧ v ∈ succ b := by
  induction nodes with
  | nil => exact iff_of_false List.not_mem_nil (by simp)
  | cons b nodes ih =>
    rw [reversed_cons, List.mem_append, ih, List.mem_replicate, List.exists_mem_cons_iff,
      ← Nat.pos_iff_ne_zero, List.count_pos_iff]
    exact or_congr_left ⟨fun h => ⟨h.2.symm, h.1⟩, fun h => ⟨h.2, h.1.symm⟩⟩

/-- **As many edges lead back as lead on**, where no two nodes have one key. -/
theorem count_reversed (hnodup : (nodes.map key).Nodup) (hb : b ∈ nodes) :
    (reversed key succ nodes v).count (key b) = (succ b).count v := by
  induction nodes with
  | nil => exact absurd hb List.not_mem_nil
  | cons first nodes ih =>
    rw [List.map_cons, List.nodup_cons] at hnodup
    rw [reversed_cons, List.count_append]
    rcases List.mem_cons.mp hb with rfl | hb
    · have hrest : (reversed key succ nodes v).count (key b) = 0 := by
        refine List.count_eq_zero.mpr fun hmem => hnodup.1 ?_
        obtain ⟨c, hc, hkey, -⟩ := mem_reversed_iff.mp hmem
        exact List.mem_map.mpr ⟨c, hc, hkey⟩
      rw [List.count_replicate_self, hrest, Nat.add_zero]
    · have hne : key first ≠ key b := fun heq =>
        hnodup.1 (heq ▸ List.mem_map_of_mem hb)
      rw [List.count_replicate, if_neg (by simpa using hne), Nat.zero_add, ih hnodup.2 hb]

end ReverseEdges
