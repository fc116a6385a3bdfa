import Mathlib.Data.List.Sort
import Mathlib.Data.Multiset.ZeroCons
import Papa.Engine.Locations

/-!
# The statement optimizer

Before matching, the children of the topmost and, or and some node of a rule are put in order of
estimated cost. Children only change places, so the rule keeps its truth value in every frame, its
match references and the locations it reports.

## Main definitions

* `Papa.Rules.nodeCost`: the estimated cost of a statement.
* `Papa.Rules.optimize`, `Papa.Rules.optimized`: the optimizer, and where it is defined.
* `Papa.Rules.Reordered`: two statements that differ in the order of children only.

## Main results

* `Papa.Rules.sat_optimize`, `Papa.Rules.mem_collectMatchRefs_optimize`,
  `Papa.Rules.subscopeFree_optimize`.
* `Papa.Rules.evaluate_optimize`: the optimizer permutes children, and evaluation does not see it.
-/

namespace Papa.Rules

open Features Engine

/-- Relative evaluation cost of a leaf feature. -/
def featureCost (f : Feature) : ℕ :=
  match f.tag with
  | .os | .arch | .format => 0
  | .substring | .regex | .bytes => 2
  | _ => 1

mutual

/-- Worst-case evaluation cost of a statement subtree. -/
def nodeCost : Statement → ℕ
  | .feature f => featureCost f
  | .range f _ _ => 1 + featureCost f
  | .and kids => 1 + kidsCost kids
  | .or kids => 1 + kidsCost kids
  | .not s => 1 + nodeCost s
  | .someOf _ kids => 1 + kidsCost kids
  | .subscope _ _ => 1

/-- The summed cost of the children of a node. -/
def kidsCost : List (Option Statement) → ℕ
  | [] => 0
  | none :: kids => kidsCost kids
  | some s :: kids => nodeCost s + kidsCost kids

end

/-- The cost the children are sorted by. The source dereferences the slot, so there is no cost of a
null slot; `optimized` has no result where one is asked for. -/
def slotCost : Option Statement → ℕ
  | none => 0
  | some s => nodeCost s

/-- `std::stable_sort` of the children by cost. -/
def sortByCost (kids : List (Option Statement)) : List (Option Statement) :=
  kids.insertionSort fun a b => slotCost a ≤ slotCost b

/-- Reorder the children of a node so that cheaper ones are evaluated first. A not follows through
to its child, any other node is not followed past. -/
def optimize : Statement → Statement
  | .and kids => .and (sortByCost kids)
  | .or kids => .or (sortByCost kids)
  | .someOf n kids => .someOf n (sortByCost kids)
  | .not s => .not (optimize s)
  | s => s

/-- No null slot is compared: where two children or more are sorted, all slots hold a statement. -/
def comparesStatements : Statement → Bool
  | .and kids => kids.length ≤ 1 ∨ kids.all Option.isSome
  | .or kids => kids.length ≤ 1 ∨ kids.all Option.isSome
  | .someOf _ kids => kids.length ≤ 1 ∨ kids.all Option.isSome
  | .not s => comparesStatements s
  | _ => true

/-- `optimize` where it is defined: every slot among two or more is compared, and the comparison
dereferences it. -/
def optimized (s : Statement) : Option Statement :=
  if comparesStatements s then some (optimize s) else none

/-! ### What reordering keeps -/

theorem perm_sortByCost (kids : List (Option Statement)) : (sortByCost kids).Perm kids :=
  List.perm_insertionSort _ kids

section Sat

variable {υ : Type} (F : Frame υ) (u : υ) {kids kids' : List (Option Statement)}

private theorem satAll_perm (h : kids.Perm kids') :
    Statement.satAll F kids u = Statement.satAll F kids' u := by
  rw [Bool.eq_iff_iff, Statement.satAll_iff, Statement.satAll_iff]
  exact forall_congr' fun kid => by rw [h.mem_iff]

private theorem satAny_perm (h : kids.Perm kids') :
    Statement.satAny F kids u = Statement.satAny F kids' u := by
  rw [Bool.eq_iff_iff, Statement.satAny_iff, Statement.satAny_iff]
  exact exists_congr fun s => by rw [h.mem_iff]

private theorem satCount_cons (kid : Option Statement) (kids : List (Option Statement)) :
    Statement.satCount F (kid :: kids) u =
      (if kid.any (Statement.sat F · u) then 1 else 0) + Statement.satCount F kids u := by
  cases kid with
  | none => exact (Nat.zero_add _).symm
  | some s => rfl

private theorem satCount_perm (h : kids.Perm kids') :
    Statement.satCount F kids u = Statement.satCount F kids' u := by
  induction h with
  | nil => rfl
  | cons kid _ ih => rw [satCount_cons, satCount_cons, ih]
  | swap a b l =>
    simp only [satCount_cons]
    omega
  | trans _ _ ih ih' => exact ih.trans ih'

/-- **The match outcome is unchanged**: the optimizer keeps the truth value. -/
theorem sat_optimize (s : Statement) : Statement.sat F (optimize s) u = Statement.sat F s u := by
  induction s using Statement.inductionOn with
  | and kids _ => exact satAll_perm F u (perm_sortByCost kids)
  | or kids _ => exact satAny_perm F u (perm_sortByCost kids)
  | not s ih =>
    change (!Statement.sat F (optimize s) u) = !Statement.sat F s u
    rw [ih]
  | someOf n kids _ =>
    have hcount := satCount_perm F u (perm_sortByCost kids)
    simp only [optimize, Statement.sat, hcount]
  | range f min max => rfl
  | subscope scope s _ => rfl
  | feature f => rfl

end Sat

/-- The optimizer keeps the match references. -/
theorem mem_collectMatchRefs_optimize {s : Statement} {ref : Str} :
    ref ∈ collectMatchRefs (optimize s) ↔ ref ∈ collectMatchRefs s := by
  have hkids (kids : List (Option Statement)) :
      ref ∈ collectMatchRefsKids (sortByCost kids) ↔ ref ∈ collectMatchRefsKids kids := by
    simp only [mem_collectMatchRefsKids, (perm_sortByCost kids).mem_iff]
  induction s using Statement.inductionOn with
  | and kids _ => exact hkids kids
  | or kids _ => exact hkids kids
  | not s ih => exact ih
  | someOf n kids _ => exact hkids kids
  | range f min max => rfl
  | subscope scope s _ => rfl
  | feature f => rfl

theorem subscopeFree_optimize {s : Statement} (h : s.SubscopeFree) :
    (optimize s).SubscopeFree := by
  have hkids (kids : List (Option Statement)) (h : Statement.SubscopeFreeKids kids) :
      Statement.SubscopeFreeKids (sortByCost kids) := by
    rw [Statement.subscopeFreeKids_iff] at h ⊢
    exact fun s hs => h s ((perm_sortByCost kids).mem_iff.mp hs)
  induction s using Statement.inductionOn with
  | and kids _ => exact hkids kids h
  | or kids _ => exact hkids kids h
  | not s ih => exact ih h
  | someOf n kids _ => exact hkids kids h
  | range f min max => exact h
  | subscope scope s _ => exact h
  | feature f => exact h

/-! ### Reordering -/

/-- Two statements that differ in the order of the children of one node only. -/
inductive Reordered : Statement → Statement → Prop
  | refl (s : Statement) : Reordered s s
  | and {kids kids' : List (Option Statement)} (h : kids.Perm kids') :
      Reordered (.and kids) (.and kids')
  | or {kids kids' : List (Option Statement)} (h : kids.Perm kids') :
      Reordered (.or kids) (.or kids')
  | someOf (n : ℕ) {kids kids' : List (Option Statement)} (h : kids.Perm kids') :
      Reordered (.someOf n kids) (.someOf n kids')
  | not {s s' : Statement} (h : Reordered s s') : Reordered (.not s) (.not s')

theorem reordered_optimize (s : Statement) : Reordered (optimize s) s := by
  induction s using Statement.inductionOn with
  | and kids _ => exact .and (perm_sortByCost kids)
  | or kids _ => exact .or (perm_sortByCost kids)
  | not s ih => exact .not ih
  | someOf n kids _ => exact .someOf n (perm_sortByCost kids)
  | range f min max => exact .refl _
  | subscope scope s _ => exact .refl _
  | feature f => exact .refl _

mutual

/-- The subtrees under a node, in pre-order. -/
def subtrees : Statement → List Statement
  | .and kids => subtreesKids kids
  | .or kids => subtreesKids kids
  | .not s => s :: subtrees s
  | .someOf _ kids => subtreesKids kids
  | .range _ _ _ => []
  | .subscope _ s => s :: subtrees s
  | .feature _ => []

/-- The subtrees under the children of a node. -/
def subtreesKids : List (Option Statement) → List Statement
  | [] => []
  | none :: kids => subtreesKids kids
  | some s :: kids => s :: (subtrees s ++ subtreesKids kids)

end

private theorem subtreesKids_eq (kids : List (Option Statement)) :
    subtreesKids kids = kids.flatMap fun kid => kid.elim [] fun s => s :: subtrees s := by
  induction kids with
  | nil => rfl
  | cons kid kids ih =>
    cases kid with
    | none => exact ih
    | some s => rw [subtreesKids, ih, List.flatMap_cons]; rfl

private theorem perm_subtreesKids {kids kids' : List (Option Statement)} (h : kids.Perm kids') :
    (subtreesKids kids).Perm (subtreesKids kids') := by
  rw [subtreesKids_eq, subtreesKids_eq]
  exact h.flatMap_right _

/-- **The subtrees under every node are the same**, each up to the order of its children. -/
theorem rel_subtrees {s s' : Statement} (h : Reordered s s') :
    Multiset.Rel Reordered (subtrees s) (subtrees s') := by
  have hperm {l l' : List Statement} (h : l.Perm l') : Multiset.Rel Reordered l l' := by
    rw [Multiset.coe_eq_coe.mpr h]
    exact Multiset.rel_refl_of_refl_on fun s _ => .refl s
  induction h with
  | refl s => exact hperm (List.Perm.refl _)
  | and h => exact hperm (perm_subtreesKids h)
  | or h => exact hperm (perm_subtreesKids h)
  | someOf n h => exact hperm (perm_subtreesKids h)
  | not h ih => exact .cons h ih

/-! ### What evaluation sees -/

section Found

variable {E : RegexEngine} {fs : FeatureSet}

private theorem foundKids_perm {kids kids' : List (Option Statement)} (h : kids.Perm kids') :
    Statement.foundKids E fs kids = Statement.foundKids E fs kids' := by
  ext a
  simp only [Statement.mem_foundKids, h.mem_iff]

theorem found_reordered {s s' : Statement} (h : Reordered s s') :
    s.found E fs = s'.found E fs := by
  cases h with
  | refl s => rfl
  | and h => rw [Statement.found, Statement.found, foundKids_perm h, satAll_perm _ _ h]
  | or h => exact foundKids_perm h
  | someOf n h => exact foundKids_perm h
  | not h => rfl

end Found

/-- **Evaluation does not see the optimizer.** On every tree without subscopes, none of whose null
slots is compared, and every feature set, the optimizer is defined; the optimized tree evaluates
with the same success in either mode and for the probe, in full mode with the same locations; and
the optimizer only permutes lists of children, so the subtrees under every node stay the same. -/
theorem evaluate_optimize (E : RegexEngine) (fs : FeatureSet) (s : Statement)
    (hfree : s.SubscopeFree) (hslots : comparesStatements s) :
    ∃ s', optimized s = some s' ∧
      (∀ sc, ∃ r r', s.evaluate E fs sc = .ok r ∧ s'.evaluate E fs sc = .ok r' ∧
        r'.success = r.success ∧ (sc = false → r'.locations = r.locations)) ∧
      s'.evaluateQuick E fs = s.evaluateQuick E fs ∧
      Reordered s' s ∧ Multiset.Rel Reordered (subtrees s') (subtrees s) := by
  have hfree' := subscopeFree_optimize hfree
  have hholds : (optimize s).holds E fs = s.holds E fs := sat_optimize _ fs s
  have hreordered := reordered_optimize s
  refine ⟨optimize s, if_pos hslots, fun sc => ?_, ?_, hreordered, rel_subtrees hreordered⟩
  · cases sc with
    | true =>
      obtain ⟨r, hr, hb⟩ := @Statement.evaluate_eq E fs _ hfree true
      obtain ⟨r', hr', hb'⟩ := @Statement.evaluate_eq E fs _ hfree' true
      exact ⟨r, r', hr, hr', by rw [hb, hb', hholds], nofun⟩
    | false =>
      obtain ⟨r, hr, hb, hfound⟩ := @Statement.evaluate_false_eq E fs _ hfree
      obtain ⟨r', hr', hb', hfound'⟩ := @Statement.evaluate_false_eq E fs _ hfree'
      exact ⟨r, r', hr, hr', by rw [hb, hb', hholds],
        fun _ => by rw [hfound, hfound', found_reordered hreordered]⟩
  · rw [Statement.evaluateQuick_eq hfree, Statement.evaluateQuick_eq hfree', hholds]

/-- A negated or whose expensive child comes first. -/
theorem evaluate_optimize_not_or :
    let E : RegexEngine := ⟨fun _ _ => true, fun _ _ _ => false⟩
    let a := Statement.feature { value := .substring (str "a") }
    let b := Statement.feature { value := .os (str "any") }
    ∃ s', optimized (.not (.or [some a, some b])) = some s' ∧
      s' = .not (.or [some b, some a]) ∧
      s'.evaluateQuick E .empty = Statement.evaluateQuick E .empty
          (.not (.or [some a, some b])) := by
  intro E a b
  obtain ⟨s', hs', -, hquick, -⟩ := evaluate_optimize E .empty (.not (.or [some a, some b]))
    (by simp [a, b, Statement.SubscopeFree, Statement.SubscopeFreeKids]) rfl
  exact ⟨s', hs', (Option.some.inj hs').symm, hquick⟩

end Papa.Rules
