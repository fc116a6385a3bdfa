import Papa.Engine.Evaluate

/-!
# The truth of a statement

A statement is read in a frame of worlds: what a leaf and a count see at a world, and which worlds
of a given scope a world contains. A subscope is true at a world when its inner tree is true at
some contained world of its scope. A feature set is the world of a statement without subscopes, and
there the three evaluators (the probe, the short-circuit mode and the full mode) compute exactly
this truth value.

## Main definitions

* `Papa.Engine.Frame`: worlds with their leaves, counts and contained worlds.
* `Papa.Engine.Statement.sat`: truth at a world.
* `Papa.Engine.setFrame`, `Papa.Engine.Statement.holds`: truth on a feature set.

## Main results

* `Papa.Engine.Statement.sat_congr`: truth depends only on the leaves the tree tests.
* `Papa.Engine.Statement.evaluateQuick_eq`, `Papa.Engine.Statement.evaluate_eq`: the evaluators
  refine truth on a feature set.
* `Papa.Engine.Statement.evaluators_agree`.
-/

namespace Papa.Engine

open Features Rules

/-- What statements see at each world, and the worlds contained in a world. -/
structure Frame (υ : Type) where
  leaf : υ → Feature → Bool
  count : υ → Feature → ℕ
  within : υ → Scope → List υ

namespace Statement

section Sat

variable {υ : Type} (F : Frame υ)

mutual

/-- The truth value of a statement at a world. -/
def sat : Statement → υ → Bool
  | and kids, u => satAll kids u
  | or kids, u => satAny kids u
  | not s, u => !sat s u
  | someOf count kids, u => count ≤ satCount kids u
  | range f min max, u => inRange (F.count u f) min max
  | subscope scope s, u => (F.within u scope).any fun w => sat s w
  | feature f, u => F.leaf u f

/-- Every slot holds a true statement. -/
def satAll : List (Option Statement) → υ → Bool
  | [], _ => true
  | none :: _, _ => false
  | some s :: kids, u => sat s u && satAll kids u

/-- Some slot holds a true statement. -/
def satAny : List (Option Statement) → υ → Bool
  | [], _ => false
  | none :: kids, u => satAny kids u
  | some s :: kids, u => sat s u || satAny kids u

/-- The number of slots that hold a true statement. -/
def satCount : List (Option Statement) → υ → ℕ
  | [], _ => 0
  | none :: kids, u => satCount kids u
  | some s :: kids, u => (if sat s u then 1 else 0) + satCount kids u

end

theorem satAll_iff (kids : List (Option Statement)) (u : υ) :
    satAll F kids u ↔ ∀ kid ∈ kids, ∃ s, kid = some s ∧ sat F s u := by
  induction kids with
  | nil => simp [satAll]
  | cons kid kids ih => cases kid <;> simp [satAll, ih]

theorem satAny_iff (kids : List (Option Statement)) (u : υ) :
    satAny F kids u ↔ ∃ s, some s ∈ kids ∧ sat F s u := by
  induction kids with
  | nil => simp [satAny]
  | cons kid kids ih =>
    cases kid with
    | none => simp [satAny, ih]
    | some s =>
      simp only [satAny, Bool.or_eq_true, ih, List.mem_cons, Option.some.injEq]
      constructor
      · rintro (h | ⟨t, ht, h⟩)
        · exact ⟨s, Or.inl rfl, h⟩
        · exact ⟨t, Or.inr ht, h⟩
      · rintro ⟨t, rfl | ht, h⟩
        · exact Or.inl h
        · exact Or.inr ⟨t, ht, h⟩

theorem exists_of_satCount_pos {kids : List (Option Statement)} {u : υ}
    (h : 0 < satCount F kids u) : ∃ s, some s ∈ kids ∧ sat F s u := by
  induction kids with
  | nil => simp [satCount] at h
  | cons kid kids ih =>
    cases kid with
    | none =>
      obtain ⟨s, hs, ht⟩ := ih h
      exact ⟨s, List.mem_cons_of_mem _ hs, ht⟩
    | some s =>
      by_cases hs : sat F s u
      · exact ⟨s, List.mem_cons_self, hs⟩
      · have hrest : 0 < satCount F kids u := by simpa [satCount, hs] using h
        obtain ⟨t, ht, hsat⟩ := ih hrest
        exact ⟨t, List.mem_cons_of_mem _ ht, hsat⟩

end Sat

/-! ### Truth depends on the leaves -/

mutual

/-- The features a tree tests outside its subscopes, as leaves or under a count. -/
def testedFeatures : Statement → List Feature
  | and kids => testedFeaturesKids kids
  | or kids => testedFeaturesKids kids
  | not s => testedFeatures s
  | someOf _ kids => testedFeaturesKids kids
  | range f _ _ => [f]
  | subscope _ _ => []
  | feature f => [f]

/-- The features tested below a list of child slots. -/
def testedFeaturesKids : List (Option Statement) → List Feature
  | [] => []
  | none :: kids => testedFeaturesKids kids
  | some s :: kids => testedFeatures s ++ testedFeaturesKids kids

end

section Congr

variable {υ ω : Type} {F : Frame υ} {G : Frame ω} {u : υ} {w : ω}

private theorem satKids_congr {kids : List (Option Statement)}
    (h : ∀ s, some s ∈ kids → sat F s u = sat G s w) :
    satAll F kids u = satAll G kids w ∧ satAny F kids u = satAny G kids w ∧
      satCount F kids u = satCount G kids w := by
  induction kids with
  | nil => exact ⟨rfl, rfl, rfl⟩
  | cons kid kids ih =>
    obtain ⟨hall, hany, hcount⟩ := ih fun s hs => h s (List.mem_cons_of_mem _ hs)
    cases kid with
    | none => exact ⟨rfl, hany, hcount⟩
    | some s =>
      have hs := h s List.mem_cons_self
      simp only [satAll, satAny, satCount, hs, hall, hany, hcount, and_self]

private theorem testedFeatures_subset {s : Statement} {kids : List (Option Statement)}
    (h : some s ∈ kids) : s.testedFeatures ⊆ testedFeaturesKids kids := by
  induction kids with
  | nil => cases h
  | cons kid kids ih =>
    rcases List.mem_cons.mp h with rfl | hmem
    · exact List.subset_append_left _ _
    · intro f hf
      cases kid with
      | none => exact ih hmem hf
      | some t => exact List.mem_append_right _ (ih hmem hf)

/-- **Truth depends on the leaves.** A tree without subscopes has the same truth value at two
worlds, of one frame or two, that agree on the leaves and counts it tests. -/
theorem sat_congr {s : Statement} (hfree : s.SubscopeFree)
    (hleaf : ∀ f ∈ s.testedFeatures, F.leaf u f = G.leaf w f)
    (hcount : ∀ f ∈ s.testedFeatures, F.count u f = G.count w f) :
    sat F s u = sat G s w := by
  induction s using inductionOn with
  | and kids ih =>
    refine (satKids_congr fun s hs => ih s hs ?_ ?_ ?_).1
    · exact (subscopeFreeKids_iff kids).mp hfree s hs
    · exact fun f hf => hleaf f (testedFeatures_subset hs hf)
    · exact fun f hf => hcount f (testedFeatures_subset hs hf)
  | or kids ih =>
    refine (satKids_congr fun s hs => ih s hs ?_ ?_ ?_).2.1
    · exact (subscopeFreeKids_iff kids).mp hfree s hs
    · exact fun f hf => hleaf f (testedFeatures_subset hs hf)
    · exact fun f hf => hcount f (testedFeatures_subset hs hf)
  | not s ih => simp only [sat, ih hfree hleaf hcount]
  | someOf n kids ih =>
    have h : satCount F kids u = satCount G kids w := by
      refine (satKids_congr fun s hs => ih s hs ?_ ?_ ?_).2.2
      · exact (subscopeFreeKids_iff kids).mp hfree s hs
      · exact fun f hf => hleaf f (testedFeatures_subset hs hf)
      · exact fun f hf => hcount f (testedFeatures_subset hs hf)
    simp only [sat, h]
  | range f min max => simp only [sat, hcount f (List.mem_singleton_self f)]
  | subscope scope s => exact hfree.elim
  | feature f => exact hleaf f (List.mem_singleton_self f)

end Congr

end Statement

/-! ### Truth on a feature set -/

/-- Feature sets as worlds, each containing no other. -/
def setFrame (E : RegexEngine) : Frame FeatureSet where
  leaf fs f := f.matchesSet E fs
  count fs f := fs.count f
  within _ _ := []

namespace Statement

variable (E : RegexEngine)

/-- The truth value of a statement on a feature set. -/
def holds (fs : FeatureSet) (s : Statement) : Bool := s.sat (setFrame E) fs

variable {E} {fs : FeatureSet}

section Quick

variable {kids : List (Option Statement)}

private theorem quickAnd_eq
    (h : ∀ s, some s ∈ kids → s.evaluateQuick E fs = .ok (s.holds E fs)) :
    quickAnd E fs kids = .ok (satAll (setFrame E) kids fs) := by
  induction kids with
  | nil => rfl
  | cons kid kids ih =>
    cases kid with
    | none => rfl
    | some s =>
      rw [quickAnd, h s List.mem_cons_self, satAll, ih fun t ht => h t (List.mem_cons_of_mem _ ht)]
      change (if s.holds E fs then _ else _) = Except.ok (s.holds E fs && _)
      cases s.holds E fs <;> rfl

private theorem quickOr_eq
    (h : ∀ s, some s ∈ kids → s.evaluateQuick E fs = .ok (s.holds E fs)) :
    quickOr E fs kids = .ok (satAny (setFrame E) kids fs) := by
  induction kids with
  | nil => rfl
  | cons kid kids ih =>
    have htail := ih fun t ht => h t (List.mem_cons_of_mem _ ht)
    cases kid with
    | none => exact htail
    | some s =>
      rw [quickOr, h s List.mem_cons_self, satAny, htail]
      change (if s.holds E fs then _ else _) = Except.ok (s.holds E fs || _)
      cases s.holds E fs <;> rfl

/-- The counting loop succeeds when the slots still to come bring the hits up to the count. -/
private theorem quickSome_eq {count : ℕ}
    (h : ∀ s, some s ∈ kids → s.evaluateQuick E fs = .ok (s.holds E fs)) :
    ∀ {hits : ℕ}, hits < count →
      quickSome E fs count kids hits =
        .ok (decide (count ≤ hits + satCount (setFrame E) kids fs)) := by
  induction kids with
  | nil =>
    intro hits hlt
    simp only [quickSome, satCount, Nat.add_zero, Nat.not_le.mpr hlt, decide_false]
  | cons kid kids ih =>
    have htail := @ih fun t ht => h t (List.mem_cons_of_mem _ ht)
    intro hits hlt
    cases kid with
    | none => exact htail hlt
    | some s =>
      rw [quickSome, h s List.mem_cons_self, satCount]
      change (if s.holds E fs then _ else _) = Except.ok (decide
        (count ≤ hits + ((if s.holds E fs then 1 else 0) + _)))
      cases s.holds E fs with
      | false => simpa using htail hlt
      | true =>
        by_cases hle : count ≤ hits + 1
        · have hge : count ≤ hits + (1 + satCount (setFrame E) kids fs) := by omega
          simp only [↓reduceIte, hle, hge, decide_true]
          rfl
        · have hnext := htail (Nat.lt_of_not_le hle)
          simp only [↓reduceIte, hle, hnext, Nat.add_assoc]

end Quick

/-- **The probe computes truth.** -/
theorem evaluateQuick_eq {s : Statement} (hfree : s.SubscopeFree) :
    s.evaluateQuick E fs = .ok (s.holds E fs) := by
  induction s using inductionOn with
  | and kids ih =>
    exact quickAnd_eq fun s hs => ih s hs ((subscopeFreeKids_iff kids).mp hfree s hs)
  | or kids ih =>
    exact quickOr_eq fun s hs => ih s hs ((subscopeFreeKids_iff kids).mp hfree s hs)
  | not s ih =>
    rw [evaluateQuick, ih hfree]
    rfl
  | someOf n kids ih =>
    have hkids := fun s hs => ih s hs ((subscopeFreeKids_iff kids).mp hfree s hs)
    rw [evaluateQuick, holds, sat]
    split_ifs with hn
    · simp [hn]
    · rw [quickSome_eq hkids (Nat.pos_of_ne_zero hn), Nat.zero_add]
  | range f min max => rfl
  | subscope scope s => exact hfree.elim
  | feature f => rfl

/-- An evaluation that returns a result of the given success. -/
def Evaluates (E : RegexEngine) (fs : FeatureSet) (s : Statement) (sc b : Bool) : Prop :=
  ∃ r, s.evaluate E fs sc = .ok r ∧ r.success = b

section Full

variable {kids : List (Option Statement)} {sc : Bool}

private theorem evaluateAnd_eq
    (h : ∀ s, some s ∈ kids → s.Evaluates E fs sc (s.holds E fs)) :
    ∃ crs, evaluateAnd E fs kids sc = .ok (crs, satAll (setFrame E) kids fs) := by
  induction kids with
  | nil => exact ⟨[], rfl⟩
  | cons kid kids ih =>
    obtain ⟨crs, htail⟩ := ih fun t ht => h t (List.mem_cons_of_mem _ ht)
    cases kid with
    | none =>
      cases sc with
      | true => exact ⟨[], rfl⟩
      | false =>
        refine ⟨crs, ?_⟩
        rw [evaluateAnd, htail]
        rfl
    | some s =>
      obtain ⟨r, hr, hb⟩ := h s List.mem_cons_self
      rw [evaluateAnd, hr, htail, satAll]
      change ∃ crs', (if !r.success && sc then _ else _) = Except.ok (crs', s.holds E fs && _)
      rw [← hb]
      by_cases hstop : (!r.success && sc) = true
      · have hfail : r.success = false := by simpa using (Bool.and_eq_true_iff.mp hstop).1
        rw [if_pos hstop, hfail]
        exact ⟨[r], rfl⟩
      · rw [if_neg hstop]
        exact ⟨r :: crs, rfl⟩

private theorem evaluateOr_eq
    (h : ∀ s, some s ∈ kids → s.Evaluates E fs sc (s.holds E fs)) :
    ∃ crs locs, evaluateOr E fs kids sc = .ok (crs, satAny (setFrame E) kids fs, locs) := by
  induction kids with
  | nil => exact ⟨[], ∅, rfl⟩
  | cons kid kids ih =>
    obtain ⟨crs, locs, htail⟩ := ih fun t ht => h t (List.mem_cons_of_mem _ ht)
    cases kid with
    | none => exact ⟨crs, locs, htail⟩
    | some s =>
      obtain ⟨r, hr, hb⟩ := h s List.mem_cons_self
      rw [evaluateOr, hr, htail, satAny]
      change ∃ crs' locs', (if r.success && sc then _ else _) =
        Except.ok (crs', s.holds E fs || _, locs')
      rw [← hb]
      by_cases hstop : (r.success && sc) = true
      · rw [if_pos hstop, (Bool.and_eq_true_iff.mp hstop).1]
        exact ⟨[r], r.locations, rfl⟩
      · rw [if_neg hstop]
        exact ⟨r :: crs, _, rfl⟩

/-- The counting loop, with the successes so far: early stopping happens only once the count is
reached, so it changes the number of successes but not whether the count is reached. -/
private theorem evaluateSome_eq {count : ℕ}
    (h : ∀ s, some s ∈ kids → s.Evaluates E fs sc (s.holds E fs)) :
    ∀ okCount : ℕ, ∃ crs n locs, evaluateSome E fs count kids sc okCount = .ok (crs, n, locs) ∧
      (count ≤ n ↔ count ≤ okCount + satCount (setFrame E) kids fs) := by
  induction kids with
  | nil => exact fun okCount => ⟨[], okCount, ∅, rfl, Iff.rfl⟩
  | cons kid kids ih =>
    have htail := ih fun t ht => h t (List.mem_cons_of_mem _ ht)
    intro okCount
    cases kid with
    | none => exact htail okCount
    | some s =>
      obtain ⟨r, hr, hb⟩ := h s List.mem_cons_self
      set here := if r.success then okCount + 1 else okCount with hhere
      have hsum : okCount + satCount (setFrame E) (some s :: kids) fs =
          here + satCount (setFrame E) kids fs := by
        rw [satCount, hhere, hb, holds]
        split_ifs <;> omega
      rw [hsum]
      obtain ⟨crs, n, locs, heq, hiff⟩ := htail here
      rw [evaluateSome, hr]
      change ∃ crs' n' locs', (if sc && decide (0 < count) && decide (count ≤ here) then _ else _) =
        Except.ok (crs', n', locs') ∧ _
      by_cases hstop : (sc && decide (0 < count) && decide (count ≤ here)) = true
      · have hle : count ≤ here := of_decide_eq_true (Bool.and_eq_true_iff.mp hstop).2
        rw [if_pos hstop]
        exact ⟨[r], here, _, rfl, by omega⟩
      · rw [if_neg hstop, heq]
        exact ⟨r :: crs, n, _, rfl, hiff⟩

end Full

/-- **The result-building evaluator computes truth**, in the short-circuit mode and in full. -/
theorem evaluate_eq {s : Statement} (hfree : s.SubscopeFree) (sc : Bool) :
    s.Evaluates E fs sc (s.holds E fs) := by
  induction s using inductionOn generalizing sc with
  | and kids ih =>
    obtain ⟨crs, heq⟩ := evaluateAnd_eq fun s hs =>
      ih s hs ((subscopeFreeKids_iff kids).mp hfree s hs) sc
    exact ⟨_, by rw [evaluate, heq]; rfl, rfl⟩
  | or kids ih =>
    obtain ⟨crs, locs, heq⟩ := evaluateOr_eq fun s hs =>
      ih s hs ((subscopeFreeKids_iff kids).mp hfree s hs) sc
    exact ⟨_, by rw [evaluate, heq]; rfl, rfl⟩
  | not s ih =>
    obtain ⟨r, hr, hb⟩ := ih hfree false
    exact ⟨_, by rw [evaluate, hr]; rfl, by simp only [hb, holds, sat]⟩
  | someOf n kids ih =>
    obtain ⟨crs, k, locs, heq, hiff⟩ := evaluateSome_eq (fun s hs =>
      ih s hs ((subscopeFreeKids_iff kids).mp hfree s hs) sc) 0
    refine ⟨_, by rw [evaluate, heq]; rfl, ?_⟩
    rw [Nat.zero_add] at hiff
    rw [holds, sat, Bool.eq_iff_iff, Bool.or_eq_true, decide_eq_true_iff, decide_eq_true_iff,
      decide_eq_true_iff, hiff]
    omega
  | range f min max =>
    refine ⟨_, rfl, ?_⟩
    rw [evaluateRange, holds, sat, inRange]
    change Result.success (if _ then _ else _) = (_ || _)
    split_ifs with h0
    · simp [setFrame, h0]
    · have hfalse : (min == 0 && fs.count f == 0) = false := by
        simpa [Bool.and_eq_false_iff, not_and_or] using h0
      simp only [setFrame, hfalse, Bool.false_or]
      rfl
  | subscope scope s => exact hfree.elim
  | feature f => exact ⟨_, rfl, f.evaluate_success E fs sc⟩

/-- **The three evaluators agree.** On every tree without subscopes, whatever null slots it has,
and on every feature set, the probe, the short-circuit mode and the full mode return, and with one
truth value. -/
theorem evaluators_agree (E : RegexEngine) (fs : FeatureSet) (s : Statement)
    (hfree : s.SubscopeFree) :
    ∃ b rsc rfull, s.evaluateQuick E fs = .ok b ∧
      s.evaluate E fs true = .ok rsc ∧ rsc.success = b ∧
      s.evaluate E fs false = .ok rfull ∧ rfull.success = b := by
  obtain ⟨rsc, hsc, hb⟩ := @evaluate_eq E fs _ hfree true
  obtain ⟨rfull, hfull, hb'⟩ := @evaluate_eq E fs _ hfree false
  exact ⟨_, rsc, rfull, evaluateQuick_eq hfree, hsc, hb, hfull, hb'⟩

/-- A null slot, a negated count and an optional block. -/
theorem evaluators_agree_nested :
    let E : RegexEngine := ⟨fun _ _ => true, fun _ _ _ => false⟩
    let s := or [none, some (and [some (not (range { value := .basicBlock } 1 2)), none]),
      some (someOf 0 [some (feature { value := .os (str "any") })])]
    ∃ b rsc rfull, s.evaluateQuick E .empty = .ok b ∧
      s.evaluate E .empty true = .ok rsc ∧ rsc.success = b ∧
      s.evaluate E .empty false = .ok rfull ∧ rfull.success = b := by
  intro E s
  exact evaluators_agree E .empty s (by simp [s, SubscopeFree, SubscopeFreeKids])

end Statement

end Papa.Engine
