import Papa.Engine.Truth

/-!
# The locations an evaluation reports

In full mode every child of a node is evaluated, so the locations of a result do not depend on the
order of the children: a node reports the locations of its children that succeed, an and only when
all of them do, and a not reports none.

## Main definitions

* `Papa.Engine.Statement.found`: the locations a statement binds on a feature set.

## Main results

* `Papa.Engine.Statement.evaluate_false_eq`: the full mode computes truth and these locations.
* `Papa.Engine.Statement.mem_foundKids`: the children contribute whatever their order.
-/

namespace Papa.Engine

open Features

theorem unionLocations_cons (r : Result) (rs : List Result) :
    unionLocations (r :: rs) = r.locations ∪ unionLocations rs := by
  have hfold (rs : List Result) (locs : Finset Address) :
      rs.foldl (fun locs r => locs ∪ r.locations) locs = locs ∪ unionLocations rs := by
    induction rs generalizing locs with
    | nil => exact (Finset.union_empty locs).symm
    | cons r rs ih =>
      rw [unionLocations, List.foldl_cons, List.foldl_cons, ih, ih, Finset.empty_union,
        Finset.union_assoc]
  rw [unionLocations, List.foldl_cons, hfold, Finset.empty_union]

namespace Statement

variable (E : RegexEngine) (fs : FeatureSet)

mutual

/-- The locations a statement binds on a feature set. -/
def found : Statement → Finset Address
  | and kids => if satAll (setFrame E) kids fs then foundKids kids else ∅
  | or kids => foundKids kids
  | not _ => ∅
  | someOf _ kids => foundKids kids
  | range f min max => (evaluateRange (range f min max) f min max fs).locations
  | subscope _ _ => ∅
  | feature f => (f.evaluate E fs false).locations

/-- The locations of the slots that hold a true statement. -/
def foundKids : List (Option Statement) → Finset Address
  | [] => ∅
  | none :: kids => foundKids kids
  | some s :: kids => (if s.holds E fs then found s else ∅) ∪ foundKids kids

end

variable {E fs}

theorem mem_foundKids {kids : List (Option Statement)} {a : Address} :
    a ∈ foundKids E fs kids ↔ ∃ s, some s ∈ kids ∧ s.holds E fs ∧ a ∈ s.found E fs := by
  induction kids with
  | nil => simp [foundKids]
  | cons kid kids ih =>
    cases kid with
    | none => simp [foundKids, ih]
    | some s =>
      rw [foundKids, Finset.mem_union, ih]
      simp only [List.mem_cons, Option.some.injEq, or_and_right, exists_or, exists_eq_left]
      exact or_congr_left (by cases s.holds E fs <;> simp)

/-- A full evaluation with the truth value and the locations of a statement. -/
def EvaluatesFully (E : RegexEngine) (fs : FeatureSet) (s : Statement) : Prop :=
  ∃ r, s.evaluate E fs false = .ok r ∧ r.success = s.holds E fs ∧ r.locations = s.found E fs

section Loops

variable {kids : List (Option Statement)}

private theorem evaluateAnd_false (h : ∀ s, some s ∈ kids → s.EvaluatesFully E fs) :
    ∃ crs, evaluateAnd E fs kids false = .ok (crs, satAll (setFrame E) kids fs) ∧
      (satAll (setFrame E) kids fs → unionLocations crs = foundKids E fs kids) := by
  induction kids with
  | nil => exact ⟨[], rfl, fun _ => rfl⟩
  | cons kid kids ih =>
    obtain ⟨crs, htail, hlocs⟩ := ih fun t ht => h t (List.mem_cons_of_mem _ ht)
    cases kid with
    | none => exact ⟨crs, by rw [evaluateAnd, htail]; rfl, nofun⟩
    | some s =>
      obtain ⟨r, hr, hb, hfound⟩ := h s List.mem_cons_self
      refine ⟨r :: crs, ?_, fun hall => ?_⟩
      · rw [evaluateAnd, hr, htail, satAll]
        change (if (!r.success && false) = true then _ else _) = Except.ok (_, s.holds E fs && _)
        rw [Bool.and_false, if_neg Bool.false_ne_true, ← hb]
        rfl
      · obtain ⟨hs, hkids⟩ := Bool.and_eq_true_iff.mp hall
        exact unionLocations_cons r crs ▸ by rw [hlocs hkids, hfound, foundKids, holds, if_pos hs]

private theorem evaluateOr_false (h : ∀ s, some s ∈ kids → s.EvaluatesFully E fs) :
    ∃ crs, evaluateOr E fs kids false =
      .ok (crs, satAny (setFrame E) kids fs, foundKids E fs kids) := by
  induction kids with
  | nil => exact ⟨[], rfl⟩
  | cons kid kids ih =>
    obtain ⟨crs, htail⟩ := ih fun t ht => h t (List.mem_cons_of_mem _ ht)
    cases kid with
    | none => exact ⟨crs, htail⟩
    | some s =>
      obtain ⟨r, hr, hb, hfound⟩ := h s List.mem_cons_self
      refine ⟨r :: crs, ?_⟩
      rw [evaluateOr, hr, htail, satAny, foundKids, ← hfound]
      change (if (r.success && false) = true then _ else _) =
        Except.ok (_, s.holds E fs || _, _)
      rw [Bool.and_false, if_neg Bool.false_ne_true, ← hb]
      cases r.success
      · simp [pure, Except.pure, bind, Except.bind]
      · rfl

private theorem evaluateSome_false {count : ℕ} (h : ∀ s, some s ∈ kids → s.EvaluatesFully E fs) :
    ∀ okCount : ℕ, ∃ crs n, evaluateSome E fs count kids false okCount =
      .ok (crs, n, foundKids E fs kids) := by
  induction kids with
  | nil => exact fun okCount => ⟨[], okCount, rfl⟩
  | cons kid kids ih =>
    have htail := ih fun t ht => h t (List.mem_cons_of_mem _ ht)
    intro okCount
    cases kid with
    | none => exact htail okCount
    | some s =>
      obtain ⟨r, hr, hb, hfound⟩ := h s List.mem_cons_self
      obtain ⟨crs, n, heq⟩ := htail (if r.success then okCount + 1 else okCount)
      refine ⟨r :: crs, n, ?_⟩
      rw [evaluateSome, hr, foundKids, ← hfound, ← hb]
      simp only [bind, Except.bind, Bool.false_and, Bool.false_eq_true, if_false, heq]
      rfl

end Loops

/-- **The full mode computes truth and locations.** -/
theorem evaluate_false_eq {s : Statement} (hfree : s.SubscopeFree) : s.EvaluatesFully E fs := by
  induction s using inductionOn with
  | and kids ih =>
    have hkids := fun s hs => ih s hs ((subscopeFreeKids_iff kids).mp hfree s hs)
    obtain ⟨crs, heq, hlocs⟩ := evaluateAnd_false hkids
    refine ⟨_, by rw [evaluate, heq]; rfl, rfl, ?_⟩
    rw [found]
    split_ifs with hall
    · exact hlocs hall
    · rfl
  | or kids ih =>
    have hkids := fun s hs => ih s hs ((subscopeFreeKids_iff kids).mp hfree s hs)
    obtain ⟨crs, heq⟩ := evaluateOr_false hkids
    exact ⟨_, by rw [evaluate, heq]; rfl, rfl, rfl⟩
  | someOf n kids ih =>
    have hkids := fun s hs => ih s hs ((subscopeFreeKids_iff kids).mp hfree s hs)
    obtain ⟨r, hr, hb⟩ := @evaluate_eq E fs _ hfree false
    obtain ⟨crs, k, heq⟩ := @evaluateSome_false E fs kids n hkids 0
    refine ⟨r, hr, hb, ?_⟩
    rw [evaluate, heq] at hr
    cases hr
    rfl
  | not s ih =>
    obtain ⟨r, hr, hb, -⟩ := ih hfree
    exact ⟨_, by rw [evaluate, hr]; rfl, by simp only [hb, holds, sat], rfl⟩
  | range f min max =>
    obtain ⟨r, hr, hb⟩ := @evaluate_eq E fs _ hfree false
    exact ⟨r, hr, hb, by cases hr; rfl⟩
  | subscope scope s => exact hfree.elim
  | feature f => exact ⟨_, rfl, f.evaluate_success E fs false, rfl⟩

end Statement

end Papa.Engine
