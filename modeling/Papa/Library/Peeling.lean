import Mathlib.Algebra.BigOperators.Group.Finset.Basic
import Mathlib.Algebra.Order.BigOperators.Group.Finset
import Mathlib.Data.Fintype.Card
import Mathlib.Data.Fintype.EquivFin
import Mathlib.Logic.Relation

/-!
# Peeling a graph

Vertices of a finite graph are taken off one after the other, each after all its predecessors. When
no vertex can be taken off any more, the vertices left are none exactly when the graph has no cycle.
An edge may occur any number of times: the edges into a vertex are counted with their multiplicity.

## Main definitions

* `Peeling.Peels`: the vertices taken off.
* `Peeling.edgesFrom`: the number of edges from some vertices to one.

## Main results

* `Peeling.Peels.not_transGen_self`: no vertex that is taken off lies on a cycle.
* `Peeling.Peels.forall_mem_iff`, `Peeling.Peels.length_eq_card_iff`: all vertices are taken off
  exactly when there is no cycle.
* `Peeling.edgesFrom_compl_cons`: taking off a vertex takes off its edges.
-/

namespace Peeling

open Relation (TransGen)

variable {α : Type*}

/-! ### Taking off vertices -/

/-- Vertices that are taken off one after the other, the last one first. -/
inductive Peels (r : α → α → Prop) : List α → Prop
  | nil : Peels r []
  | cons {v : α} {off : List α} (hnot : v ∉ off) (hpred : ∀ u, r u v → u ∈ off)
      (hoff : Peels r off) : Peels r (v :: off)

namespace Peels

variable {r : α → α → Prop} {off : List α}

theorem nodup (h : Peels r off) : off.Nodup := by
  induction h with
  | nil => exact List.nodup_nil
  | cons hnot _ _ ih => exact List.nodup_cons.mpr ⟨hnot, ih⟩

/-- The predecessors of a vertex are taken off before it. -/
theorem mem_of_rel (h : Peels r off) {u v : α} (hv : v ∈ off) (huv : r u v) : u ∈ off := by
  induction h with
  | nil => exact absurd hv List.not_mem_nil
  | cons _ hpred _ ih =>
    rcases List.mem_cons.mp hv with rfl | hv
    · exact List.mem_cons_of_mem _ (hpred u huv)
    · exact List.mem_cons_of_mem _ (ih hv)

theorem mem_of_transGen (h : Peels r off) {u v : α} (hv : v ∈ off) (huv : TransGen r u v) :
    u ∈ off := by
  induction huv using TransGen.head_induction_on with
  | single hedge => exact h.mem_of_rel hv hedge
  | head hedge _ ih => exact h.mem_of_rel ih hedge

/-- **No vertex that is taken off lies on a cycle.** -/
theorem not_transGen_self (h : Peels r off) {v : α} (hv : v ∈ off) : ¬TransGen r v v := by
  induction h with
  | nil => exact absurd hv List.not_mem_nil
  | @cons w off hnot hpred hoff ih =>
    rcases List.mem_cons.mp hv with rfl | hv
    · intro hcycle
      -- the last edge of the cycle begins at a vertex that is taken off before
      obtain ⟨u, hvu, huv⟩ := TransGen.tail'_iff.mp hcycle
      have hu : u ∈ off := hpred u huv
      rcases Relation.reflTransGen_iff_eq_or_transGen.mp hvu with rfl | hvu
      · exact hnot hu
      · exact hnot (hoff.mem_of_transGen hu hvu)
    · exact ih hv

/-- **All vertices are taken off exactly when there is no cycle**, once every vertex left has a
predecessor that is left. -/
theorem forall_mem_iff [Finite α] (h : Peels r off) (hleft : ∀ v ∉ off, ∃ u ∉ off, r u v) :
    (∀ v, v ∈ off) ↔ ∀ v, ¬TransGen r v v := by
  refine ⟨fun hall v => h.not_transGen_self (hall v), fun hacyclic => ?_⟩
  have : Std.Irrefl (TransGen r) := ⟨hacyclic⟩
  have hwf : WellFounded (TransGen r) := Finite.wellFounded_of_trans_of_irrefl _
  intro v
  induction v using hwf.induction with
  | _ v ih =>
    by_contra hv
    obtain ⟨u, hu, huv⟩ := hleft v hv
    exact hu (ih u (.single huv))

/-- The number of vertices taken off tells whether there is a cycle. -/
theorem length_eq_card_iff [Fintype α] (h : Peels r off)
    (hleft : ∀ v ∉ off, ∃ u ∉ off, r u v) :
    off.length = Fintype.card α ↔ ∀ v, ¬TransGen r v v := by
  classical
  rw [← h.forall_mem_iff hleft, ← List.toFinset_card_of_nodup h.nodup, Finset.card_eq_iff_eq_univ,
    Finset.eq_univ_iff_forall]
  simp only [List.mem_toFinset]

end Peels

/-! ### Counting edges -/

section Edges

variable [DecidableEq α] (succ : α → List α)

/-- The number of edges from some vertices to one. -/
def edgesFrom (from_ : Finset α) (w : α) : ℕ := ∑ v ∈ from_, (succ v).count w

variable {succ}

theorem edgesFrom_eq_zero_iff {from_ : Finset α} {w : α} :
    edgesFrom succ from_ w = 0 ↔ ∀ v ∈ from_, w ∉ succ v := by
  rw [edgesFrom, Finset.sum_eq_zero_iff]
  exact forall₂_congr fun v _ => List.count_eq_zero

variable [Fintype α]

/-- Taking off a vertex takes off its edges. -/
theorem edgesFrom_compl_cons {v : α} {off : List α} (hv : v ∉ off) (w : α) :
    edgesFrom succ (off.toFinsetᶜ) w =
      edgesFrom succ ((v :: off).toFinsetᶜ) w + (succ v).count w := by
  have hmem : v ∈ off.toFinsetᶜ := Finset.mem_compl.mpr (mt List.mem_toFinset.mp hv)
  have herase : (v :: off).toFinsetᶜ = (off.toFinsetᶜ).erase v := by
    rw [List.toFinset_cons, Finset.compl_insert]
  rw [edgesFrom, edgesFrom, herase, Finset.sum_erase_add _ _ hmem]

end Edges

end Peeling
