import Mathlib.Algebra.BigOperators.Fin
import Papa.Emu.Operands
import Papa.Features.Feature
import Papa.Library.Peeling

/-!
# Loops of a function

The blocks of a function are the vertices of a graph, and an edge leads to the block that begins at
the address of a successor. Addresses at which no block begins are dropped, and so are edges from a
block to itself. A loop is found by counting the edges into each block and taking off the blocks
without one, from a stack, until none is left to take off.

## Main definitions

* `BasicBlock`, `Function`: what is recovered of a function.
* `hasCycle`, `extractLoop`.
* `Function.Edge`, `Function.component`: the graph of the blocks and its strongly connected
  components.

## Main results

* `Peel.turn`, `peel_spec`: what one turn keeps, and what is taken off in the end.
* `hasCycle_iff`: the test of a graph for cycles.
* `extractLoop_iff`: the feature is emitted for a component of two blocks at least.
-/

namespace Papa.Extractors

open Papa.Features Peeling
open Relation (ReflTransGen TransGen)

/-- A run of instructions with no branches inside. -/
structure BasicBlock where
  va : UInt64
  instructions : List Emu.DecodedInsn
  successors : List UInt64
  predecessors : List UInt64
  deriving DecidableEq

/-- A function with its blocks. -/
structure Function where
  va : UInt64
  basicBlocks : List BasicBlock

/-! ### The test for a cycle -/

section HasCycle

variable {n : ℕ}

/-- Count an edge into each of the targets. -/
def countEdges (inDegree : Fin n → ℕ) (targets : List (Fin n)) : Fin n → ℕ :=
  targets.foldl (fun d w => Function.update d w (d w + 1)) inDegree

/-- Take off an edge into each of the targets. One that loses its last edge becomes ready. -/
def takeEdges (inDegree : Fin n → ℕ) (ready : List (Fin n)) :
    List (Fin n) → (Fin n → ℕ) × List (Fin n)
  | [] => (inDegree, ready)
  | w :: targets =>
    let left := inDegree w - 1
    takeEdges (Function.update inDegree w left) (if left = 0 then w :: ready else ready) targets

variable (succ : Fin n → List (Fin n))

/-- The loop over the ready vertices, the last one pushed first. It counts the vertices, and has no
result after too many turns. -/
def peel : (turns : ℕ) → (Fin n → ℕ) → List (Fin n) → ℕ → Option ℕ
  | 0, _, _, _ => none
  | _ + 1, _, [], peeled => some peeled
  | turns + 1, inDegree, v :: ready, peeled =>
    let next := takeEdges inDegree ready (succ v)
    peel turns next.1 next.2 (peeled + 1)

/-- The number of edges into each vertex. -/
def inDegrees : Fin n → ℕ :=
  (List.finRange n).foldl (fun inDegree v => countEdges inDegree (succ v)) fun _ => 0

/-- `has_cycle`. -/
def hasCycle : Option Bool :=
  let inDegree := inDegrees succ
  let ready := (List.finRange n).foldl
    (fun ready v => if inDegree v = 0 then v :: ready else ready) []
  (peel succ (n + 1) inDegree ready 0).map (· != n)

end HasCycle

/-! ### What is taken off -/

section Peel

variable {n : ℕ}

theorem countEdges_apply (inDegree : Fin n → ℕ) (targets : List (Fin n)) (w : Fin n) :
    countEdges inDegree targets w = inDegree w + targets.count w := by
  rw [countEdges]
  induction targets generalizing inDegree with
  | nil => rfl
  | cons v targets ih =>
    rw [List.foldl_cons, ih]
    by_cases hvw : v = w
    · subst hvw
      rw [Function.update_self, List.count_cons_self]
      omega
    · rw [Function.update_of_ne (Ne.symm hvw), List.count_cons_of_ne hvw]

/-- Taking off the edges of a vertex: what is left is counted, and what has no edge left becomes
ready once. -/
theorem takeEdges_spec {inDegree : Fin n → ℕ} {ready targets : List (Fin n)}
    (hcount : ∀ w, targets.count w ≤ inDegree w) (hnodup : ready.Nodup)
    (hready : ∀ w ∈ ready, inDegree w = 0) :
    (∀ w, (takeEdges inDegree ready targets).1 w = inDegree w - targets.count w) ∧
      (takeEdges inDegree ready targets).2.Nodup ∧
      ∀ w, w ∈ (takeEdges inDegree ready targets).2 ↔
        w ∈ ready ∨ (w ∈ targets ∧ inDegree w = targets.count w) := by
  induction targets generalizing inDegree ready with
  | nil => exact ⟨fun w => (Nat.sub_zero _).symm, hnodup, fun w => by simp [takeEdges]⟩
  | cons v targets ih =>
    have hv := hcount v
    rw [List.count_cons_self] at hv
    have hnot : v ∉ ready := fun h => by
      have := hready v h
      omega
    have hother {w : Fin n} (hw : w ≠ v) : (v :: targets).count w = targets.count w :=
      List.count_cons_of_ne (Ne.symm hw)
    rw [takeEdges]
    generalize hleft : inDegree v - 1 = left
    have hself : Function.update inDegree v left v = left := Function.update_self ..
    have hkeep {w : Fin n} (hw : w ≠ v) : Function.update inDegree v left w = inDegree w :=
      Function.update_of_ne hw ..
    have hcount' (w : Fin n) : targets.count w ≤ Function.update inDegree v left w := by
      by_cases hw : w = v
      · subst hw
        rw [hself]
        omega
      · rw [hkeep hw, ← hother hw]
        exact hcount w
    have hready' : ∀ w ∈ (if left = 0 then v :: ready else ready),
        Function.update inDegree v left w = 0 := by
      intro w hw
      by_cases hwv : w = v
      · subst hwv
        split_ifs at hw with hzero
        · rw [hself, hzero]
        · exact absurd hw hnot
      · rw [hkeep hwv]
        split_ifs at hw
        · exact hready w (List.mem_of_ne_of_mem hwv hw)
        · exact hready w hw
    have hnodup' : (if left = 0 then v :: ready else ready).Nodup := by
      split_ifs
      · exact List.nodup_cons.mpr ⟨hnot, hnodup⟩
      · exact hnodup
    obtain ⟨hdegree, hend, hmem⟩ := ih hcount' hnodup' hready'
    refine ⟨fun w => ?_, hend, fun w => ?_⟩
    · rw [hdegree]
      by_cases hw : w = v
      · subst hw
        rw [hself, List.count_cons_self]
        omega
      · rw [hkeep hw, hother hw]
    · rw [hmem]
      by_cases hw : w = v
      · subst hw
        rw [hself, List.count_cons_self]
        -- the vertex becomes ready at once, or at one of the edges that are left
        by_cases hzero : left = 0
        · simp only [hzero, if_true, List.mem_cons_self, true_or, true_and, true_iff]
          exact Or.inr (by omega)
        · rw [if_neg hzero]
          refine or_congr_right ⟨fun h => ⟨List.mem_cons_self, by omega⟩, fun h => ?_⟩
          exact ⟨List.count_pos_iff.mp (by omega), by omega⟩
      · rw [hkeep hw, hother hw, List.mem_cons, or_iff_right hw]
        split_ifs
        · rw [List.mem_cons, or_iff_right hw]
        · rfl

variable {succ : Fin n → List (Fin n)}

/-- What holds in every turn: the vertices taken off, the edges from the vertices left, and the
vertices left that have none. -/
structure Peel (succ : Fin n → List (Fin n)) (off : List (Fin n)) (inDegree : Fin n → ℕ)
    (ready : List (Fin n)) : Prop where
  peels : Peels (fun u v => v ∈ succ u) off
  degree : ∀ w, inDegree w = edgesFrom succ off.toFinsetᶜ w
  nodup : ready.Nodup
  mem_ready : ∀ w, w ∈ ready ↔ w ∉ off ∧ inDegree w = 0

namespace Peel

variable {off ready : List (Fin n)} {inDegree : Fin n → ℕ} {v : Fin n}

/-- A vertex without an edge from the vertices left has all its predecessors taken off. -/
theorem mem_off (h : Peel succ off inDegree ready) {u w : Fin n} (hzero : inDegree w = 0)
    (huw : w ∈ succ u) : u ∈ off := by
  by_contra hu
  rw [h.degree, edgesFrom_eq_zero_iff] at hzero
  exact hzero u (Finset.mem_compl.mpr (mt List.mem_toFinset.mp hu)) huw

/-- **A turn** takes off a vertex. -/
theorem turn (h : Peel succ off inDegree (v :: ready)) :
    Peel succ (v :: off) (takeEdges inDegree ready (succ v)).1
      (takeEdges inDegree ready (succ v)).2 := by
  obtain ⟨hoff, hzero⟩ := (h.mem_ready v).mp List.mem_cons_self
  obtain ⟨hnot, hnodup⟩ := List.nodup_cons.mp h.nodup
  have hdegree (w : Fin n) :
      inDegree w = edgesFrom succ (v :: off).toFinsetᶜ w + (succ v).count w := by
    rw [h.degree, edgesFrom_compl_cons hoff]
  have hready {w : Fin n} (hw : w ∈ ready) : w ∉ off ∧ inDegree w = 0 :=
    (h.mem_ready w).mp (List.mem_cons_of_mem _ hw)
  have hcount (w : Fin n) : (succ v).count w ≤ inDegree w := by
    rw [hdegree]
    exact Nat.le_add_left ..
  obtain ⟨hleft, hnodup', hmem⟩ := takeEdges_spec hcount hnodup fun w hw => (hready hw).2
  refine ⟨.cons hoff (fun u hu => h.mem_off hzero hu) h.peels, fun w => ?_, hnodup', fun w => ?_⟩
  · rw [hleft, hdegree, Nat.add_sub_cancel]
  · rw [hmem, hleft, List.mem_cons, not_or]
    constructor
    · rintro (hw | ⟨hw, hzero'⟩)
      · obtain ⟨hwoff, hwzero⟩ := hready hw
        exact ⟨⟨fun heq => hnot (heq ▸ hw), hwoff⟩, by omega⟩
      · refine ⟨⟨fun heq => ?_, fun hwoff => ?_⟩, by omega⟩
        · subst heq
          exact hoff (h.mem_off hzero hw)
        · exact hoff (h.peels.mem_of_rel hwoff hw)
    · rintro ⟨⟨hwv, hwoff⟩, hsub⟩
      have hle := hcount w
      by_cases hw : w ∈ succ v
      · exact Or.inr ⟨hw, by omega⟩
      · rw [List.count_eq_zero_of_not_mem hw, Nat.sub_zero] at hsub
        exact Or.inl (List.mem_of_ne_of_mem hwv ((h.mem_ready w).mpr ⟨hwoff, hsub⟩))

/-- When no vertex is ready, every vertex left has a predecessor that is left. -/
theorem exists_pred (h : Peel succ off inDegree []) {w : Fin n} (hw : w ∉ off) :
    ∃ u ∉ off, w ∈ succ u := by
  by_contra hnone
  have hzero : inDegree w = 0 := by
    rw [h.degree, edgesFrom_eq_zero_iff]
    intro u hu hmem
    exact hnone ⟨u, fun hoff => Finset.mem_compl.mp hu (List.mem_toFinset.mpr hoff), hmem⟩
  exact List.not_mem_nil ((h.mem_ready w).mpr ⟨hw, hzero⟩)

theorem length_le (h : Peel succ off inDegree ready) : off.length ≤ n :=
  h.peels.nodup.length_le_card.trans (Fintype.card_fin n).le

end Peel

/-- **The loop ends**, and it counts the vertices that are taken off. -/
theorem peel_spec {turns : ℕ} {off ready : List (Fin n)} {inDegree : Fin n → ℕ}
    (h : Peel succ off inDegree ready) (hturns : n < turns + off.length) :
    ∃ off' inDegree', Peel succ off' inDegree' [] ∧
      peel succ turns inDegree ready off.length = some off'.length := by
  induction turns generalizing off ready inDegree with
  | zero =>
    have := h.length_le
    omega
  | succ turns ih =>
    match ready with
    | [] => exact ⟨off, inDegree, h, rfl⟩
    | v :: ready =>
      obtain ⟨off', inDegree', hend, hpeel⟩ := ih h.turn (by rw [List.length_cons]; omega)
      exact ⟨off', inDegree', hend, hpeel⟩

theorem inDegrees_apply (w : Fin n) : inDegrees succ w = edgesFrom succ Finset.univ w := by
  have hfold (vs : List (Fin n)) (inDegree : Fin n → ℕ) :
      vs.foldl (fun inDegree v => countEdges inDegree (succ v)) inDegree w =
        inDegree w + (vs.map fun v => (succ v).count w).sum := by
    induction vs generalizing inDegree with
    | nil => rfl
    | cons v vs ih =>
      rw [List.foldl_cons, ih, countEdges_apply, List.map_cons, List.sum_cons]
      exact Nat.add_assoc ..
  rw [inDegrees, hfold, edgesFrom, Fin.sum_univ_def, Nat.zero_add]

/-- The vertices that are ready at first. -/
theorem foldl_ready (inDegree : Fin n → ℕ) (vs ready : List (Fin n)) :
    vs.foldl (fun ready v => if inDegree v = 0 then v :: ready else ready) ready =
      (vs.filter (inDegree · = 0)).reverse ++ ready := by
  induction vs generalizing ready with
  | nil => rfl
  | cons v vs ih =>
    rw [List.foldl_cons, ih, List.filter_cons]
    split_ifs with hzero hzero' hzero'
    · rw [List.reverse_cons, List.append_assoc]
      rfl
    · exact absurd (decide_eq_true hzero) hzero'
    · exact absurd (of_decide_eq_true hzero') hzero
    · rfl

/-- **The test for a cycle** answers, and it answers what it is asked. -/
theorem hasCycle_iff : ∃ cycle, hasCycle succ = some cycle ∧
    (cycle = true ↔ ∃ v, TransGen (fun u v => v ∈ succ u) v v) := by
  have hstart : Peel succ [] (inDegrees succ) ((List.finRange n).foldl
      (fun ready v => if inDegrees succ v = 0 then v :: ready else ready) []) := by
    refine ⟨.nil, fun w => ?_, ?_, fun w => ?_⟩
    · rw [inDegrees_apply, List.toFinset_nil, Finset.compl_empty]
    · rw [foldl_ready, List.append_nil, List.nodup_reverse]
      exact (List.nodup_finRange n).filter _
    · simp [foldl_ready]
  obtain ⟨off, inDegree, hend, hpeel⟩ := peel_spec hstart (show n < n + 1 + 0 by omega)
  refine ⟨off.length != n, congrArg (Option.map _) hpeel, ?_⟩
  have hall : off.length = n ↔ ∀ v, ¬TransGen (fun u v => v ∈ succ u) v v := by
    have hcard := hend.peels.length_eq_card_iff fun v hv => hend.exists_pred hv
    rwa [Fintype.card_fin] at hcard
  rw [bne_iff_ne, Ne, hall, not_forall_not]

end Peel

/-! ### The feature -/

/-- `make_characteristic`: a characteristic of what is at an address. -/
def makeCharacteristic (name : String) (va : UInt64) : FeatureValue × Address :=
  (.characteristic (str name), .absoluteVirtual va)

namespace Function

variable (fn : Function)

/-- The block of an index. -/
def block (i : Fin fn.basicBlocks.length) : BasicBlock := fn.basicBlocks.get i

/-- `bb_index`: the block at an address. The first one with the address keeps it. -/
def bbIndex (va : UInt64) : Option (Fin fn.basicBlocks.length) :=
  (List.finRange fn.basicBlocks.length).find? fun i => (fn.block i).va == va

/-- The blocks that follow a block, other than itself. -/
def succ (i : Fin fn.basicBlocks.length) : List (Fin fn.basicBlocks.length) :=
  (fn.block i).successors.filterMap fun s => (fn.bbIndex s).filter (· != i)

end Function

/-- `extract_loop`. -/
def extractLoop (fn : Function) : Option (Option (FeatureValue × Address)) :=
  if fn.basicBlocks.length < 2 then some none
  else (hasCycle fn.succ).map fun cycle =>
    if cycle then some (makeCharacteristic "loop" fn.va) else none

/-! ### The graph of the blocks -/

namespace Function

variable (fn : Function)

/-- An edge leads from a block to another one at the address of a successor. Of several blocks at
one address the first one is meant. -/
def Edge (i j : Fin fn.basicBlocks.length) : Prop :=
  i ≠ j ∧ (fn.block j).va ∈ (fn.block i).successors ∧ ∀ k < j, (fn.block k).va ≠ (fn.block j).va

/-- The strongly connected component of a block: what it reaches and is reached from. -/
def component (i : Fin fn.basicBlocks.length) : Set (Fin fn.basicBlocks.length) :=
  {j | ReflTransGen fn.Edge i j ∧ ReflTransGen fn.Edge j i}

/-- There is a component of two blocks at least. -/
def HasLoop : Prop := ∃ i, (fn.component i).Nontrivial

variable {fn}

theorem bbIndex_eq_some_iff {va : UInt64} {j : Fin fn.basicBlocks.length} :
    fn.bbIndex va = some j ↔ (fn.block j).va = va ∧ ∀ k < j, (fn.block k).va ≠ va := by
  rw [bbIndex, List.find?_eq_some_iff_getElem, beq_iff_eq]
  refine and_congr_right fun _ => ?_
  simp only [List.getElem_finRange, List.length_finRange, Bool.not_eq_true', beq_eq_false_iff_ne]
  constructor
  · rintro ⟨i, hi, rfl, hfirst⟩ k hk
    exact hfirst k hk
  · exact fun hfirst => ⟨j, j.isLt, rfl, fun k hk => hfirst ⟨k, hk.trans j.isLt⟩ hk⟩

/-- The lists of successors hold the edges. -/
theorem mem_succ_iff {i j : Fin fn.basicBlocks.length} : j ∈ fn.succ i ↔ fn.Edge i j := by
  simp only [succ, List.mem_filterMap, Option.filter_eq_some_iff, bbIndex_eq_some_iff, bne_iff_ne]
  constructor
  · rintro ⟨s, hs, ⟨rfl, hfirst⟩, hne⟩
    exact ⟨Ne.symm hne, hs, hfirst⟩
  · rintro ⟨hne, hs, hfirst⟩
    exact ⟨_, hs, ⟨rfl, hfirst⟩, Ne.symm hne⟩

/-- A component of two blocks is a cycle, for no edge leads from a block to itself. -/
theorem hasLoop_iff : fn.HasLoop ↔ ∃ v, TransGen fn.Edge v v := by
  constructor
  · rintro ⟨i, j, ⟨hij, hji⟩, k, ⟨hik, hki⟩, hne⟩
    have hjk : ReflTransGen fn.Edge j k := hji.trans hik
    rcases Relation.reflTransGen_iff_eq_or_transGen.mp hjk with rfl | hjk
    · exact absurd rfl hne
    · exact ⟨j, hjk.trans_left (hki.trans hij)⟩
  · rintro ⟨v, hcycle⟩
    obtain ⟨u, hvu, huv⟩ := TransGen.head'_iff.mp hcycle
    exact ⟨v, v, ⟨.refl, .refl⟩, u, ⟨.single hvu, huv⟩, hvu.1⟩

/-- A component of two blocks takes two blocks. -/
theorem two_le_of_hasLoop (h : fn.HasLoop) : 2 ≤ fn.basicBlocks.length := by
  obtain ⟨_, j, _, k, _, hne⟩ := h
  have hval : j.val ≠ k.val := mt Fin.ext hne
  omega

end Function

/-- **The loop of a function**: the feature is emitted for the function when a strongly connected
component has two blocks at least, and nothing is emitted otherwise. -/
theorem extractLoop_iff (fn : Function) :
    (extractLoop fn = some (some (makeCharacteristic "loop" fn.va)) ↔ fn.HasLoop) ∧
      (extractLoop fn = some none ↔ ¬fn.HasLoop) := by
  unfold extractLoop
  by_cases hfew : fn.basicBlocks.length < 2
  · have hnone : ¬fn.HasLoop := fun h => absurd (Function.two_le_of_hasLoop h) (not_le.mpr hfew)
    simp [hfew, hnone]
  · obtain ⟨cycle, hcycle, hiff⟩ : ∃ cycle, hasCycle fn.succ = some cycle ∧ _ := hasCycle_iff
    have hloop : cycle = true ↔ fn.HasLoop := by
      simp only [hiff, Function.mem_succ_iff, Function.hasLoop_iff]
    rw [if_neg hfew, hcycle]
    cases cycle <;> simp [← hloop]

end Papa.Extractors
