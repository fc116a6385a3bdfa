import Papa.Engine.Match

/-!
# The feature index of a scope

For every rule of a scope the index picks a set of features one of which must be present for the
rule to match, and a match cycle only evaluates the rules one of whose features is in the set.
Features that can match without an equal feature in the set, and match features, which appear only
during the cycle, are never picked. The truth of a rule therefore forces one of its picked features
to be in the set the cycle starts from, and pruning by the index is exact.

## Main definitions

* `Papa.Rules.Need`, `Papa.Rules.need`: the features a statement cannot match without.
* `Papa.Rules.RuleFeatureIndex`, with `Papa.Rules.RuleFeatureIndex.build` and
  `Papa.Rules.RuleFeatureIndex.select`.

## Main results

* `Papa.Rules.need_sound`: a statement that holds has one of its needed features in the set.
* `Papa.Rules.RuleFeatureIndex.select_build`: which rules are selected.
* `Papa.Rules.RuleFeatureIndex.matchRules_select`: pruning is exact.
-/

namespace Papa.Rules

open Features FeatureSet Engine

/-! ### Scores -/

/-- A structural lookup in the set decides whether a feature of the kind matches, and the match
cycle does not inject it. -/
def indexable (tag : FeatureTag) : Bool :=
  match tag with
  | .substring | .regex | .bytes | .os | .arch | .matchedRule => false
  | _ => true

/-- Small and near-maximum numbers are common, others selective. -/
def numberScore (v : NumberValue) : ℕ :=
  let common (x : UInt64) : ℕ :=
    if x ≤ 0x8000 || (0xFFFFFF00 ≤ x && x ≤ 0xFFFFFFFF) || 0xFFFFFFFFFFFFFF00 ≤ x then 3 else 7
  match v with
  | .uint64 u => common u
  | .int64 i => if i < 0 then (if -0x8000 ≤ i then 3 else 7) else common i.toUInt64
  | .double _ => 7

/-- Higher means more selective. -/
def score (f : Feature) : ℕ :=
  match f.value with
  | .string _ => 9
  | .api _ => 8
  | .export_ _ => 7
  | .number v => numberScore v
  | .operandNumber _ v => numberScore v
  | .class_ _ | .namespace_ _ | .property _ _ | .import_ _ | .section_ _ | .functionName _ => 5
  | .characteristic _ | .offset _ | .operandOffset _ _ => 4
  | .mnemonic _ => 2
  | .basicBlock => 1
  | .format _ => 0
  | .substring _ | .regex _ | .bytes _ | .os _ | .arch _ | .matchedRule _ => 0

/-! ### Needed features -/

/-- Features one of which a subtree cannot match without; none when nothing is provably
required. -/
structure Need where
  score : ℕ := 0
  feats : List Feature := []

/-- `std::numeric_limits<int>::max()`. -/
def kIntMax : ℕ := 2147483647

/-- `unordered_set::merge`: add the features that are not there yet. -/
def mergeFeats (feats more : List Feature) : List Feature :=
  more.foldl (fun feats f => if feats.any (· == f) then feats else feats ++ [f]) feats

/-- The need of a leaf. -/
def leafNeed (f : Feature) : Need := if indexable f.tag then ⟨score f, [f]⟩ else {}

/-- `n` is a better choice than `best` among the children of an `and`. -/
def Need.better (best n : Need) : Bool :=
  best.feats.isEmpty || best.score < n.score ||
    (n.score == best.score && decide (n.feats.length < best.feats.length))

mutual

/-- The features a statement cannot match without. -/
def need : Statement → Need
  | .feature f => leafNeed f
  | .range f min _ => if min = 0 then {} else leafNeed f
  | .and kids => needAnd kids {}
  | .or kids => needAny kids ⟨kIntMax, []⟩
  | .someOf count kids => if count = 0 then {} else needAny kids ⟨kIntMax, []⟩
  | .not _ => {}
  | .subscope _ _ => {}

/-- Every child must match, so the most selective one is enough. -/
def needAnd : List (Option Statement) → (best : Need) → Need
  | [], best => best
  | none :: kids, best => needAnd kids best
  | some s :: kids, best =>
      let n := need s
      if n.feats.isEmpty then needAnd kids best
      else needAnd kids (if best.better n then n else best)

/-- Any child can satisfy it, so an unconstrained child leaves nothing required. -/
def needAny : List (Option Statement) → (acc : Need) → Need
  | [], acc => if acc.feats.isEmpty then {} else acc
  | none :: _, _ => {}
  | some s :: kids, acc =>
      let n := need s
      if n.feats.isEmpty then {}
      else needAny kids ⟨min acc.score n.score, mergeFeats acc.feats n.feats⟩

end

/-! ### Soundness of needs -/

/-- One of the needed features is in the set, and it is one the cycle never injects. -/
def Need.Met (n : Need) (fs : FeatureSet) : Prop :=
  ∃ f ∈ n.feats, indexable f.tag ∧ fs.has f

theorem lookupOnly_of_indexable {t : FeatureTag} (h : indexable t) : Feature.lookupOnly t := by
  cases t <;> first | rfl | exact absurd h Bool.false_ne_true

theorem ne_matchedRule_of_indexable {t : FeatureTag} (h : indexable t) : t ≠ .matchedRule := by
  rintro rfl
  exact absurd h Bool.false_ne_true

theorem subset_mergeFeats (feats more : List Feature) : feats ⊆ mergeFeats feats more := by
  induction more generalizing feats with
  | nil => exact List.Subset.refl feats
  | cons f more ih =>
    intro g hg
    rw [mergeFeats, List.foldl_cons]
    split_ifs
    · exact ih feats hg
    · exact ih _ (List.mem_append_left _ hg)

/-- Merging keeps every feature, up to key equality. -/
theorem exists_mem_mergeFeats (feats : List Feature) {more : List Feature} {f : Feature}
    (h : f ∈ more) : ∃ g ∈ mergeFeats feats more, g == f := by
  induction more generalizing feats with
  | nil => cases h
  | cons f' more ih =>
    rw [mergeFeats, List.foldl_cons]
    rcases List.mem_cons.mp h with rfl | hmem
    · split_ifs with hany
      · obtain ⟨g, hg, hgf⟩ := List.any_eq_true.mp hany
        exact ⟨g, subset_mergeFeats feats more hg, hgf⟩
      · exact ⟨f, subset_mergeFeats _ more (List.mem_append_right _ List.mem_cons_self), BEq.rfl⟩
    · exact ih _ hmem

theorem Need.met_merge_left {feats : List Feature} {fs : FeatureSet} {s s' : ℕ}
    (h : (⟨s, feats⟩ : Need).Met fs) (more : List Feature) :
    (⟨s', mergeFeats feats more⟩ : Need).Met fs := by
  obtain ⟨f, hf, hmet⟩ := h
  exact ⟨f, subset_mergeFeats feats more hf, hmet⟩

theorem Need.met_merge_right {n : Need} {fs : FeatureSet} (h : n.Met fs) (s' : ℕ)
    (feats : List Feature) : (⟨s', mergeFeats feats n.feats⟩ : Need).Met fs := by
  obtain ⟨f, hf, hindex, hhas⟩ := h
  obtain ⟨g, hg, hgf⟩ := exists_mem_mergeFeats feats hf
  refine ⟨g, hg, ?_, ?_⟩
  · rwa [Feature.tag_eq_of_beq hgf]
  · rwa [has_congr hgf]

/-- A need that is empty or met. -/
def Need.Sound (n : Need) (fs : FeatureSet) : Prop := n.feats = [] ∨ n.Met fs

variable {E : RegexEngine} {fs : FeatureSet}

theorem leafNeed_sound {f : Feature} (h : fs.has f) : (leafNeed f).Sound fs := by
  rw [leafNeed]
  split_ifs with hindex
  · exact Or.inr ⟨f, List.mem_cons_self, hindex, h⟩
  · exact Or.inl rfl

private theorem needAnd_sound {kids : List (Option Statement)}
    (h : ∀ s, some s ∈ kids → (need s).Sound fs) {best : Need} (hbest : best.Sound fs) :
    (needAnd kids best).Sound fs := by
  induction kids generalizing best with
  | nil => exact hbest
  | cons kid kids ih =>
    have htail := @ih fun s hs => h s (List.mem_cons_of_mem _ hs)
    cases kid with
    | none => exact htail hbest
    | some s =>
      rw [needAnd]
      split_ifs
      · exact htail hbest
      · exact htail (h s List.mem_cons_self)
      · exact htail hbest

/-- The union over alternatives is empty or met as soon as one alternative that holds, or the part
collected so far, is met. -/
private theorem needAny_sound {kids : List (Option Statement)} {acc : Need}
    (h : acc.Met fs ∨ ∃ s, some s ∈ kids ∧ (need s).Sound fs) : (needAny kids acc).Sound fs := by
  induction kids generalizing acc with
  | nil =>
    rw [needAny]
    split_ifs with hempty
    · exact Or.inl rfl
    · rcases h with h | ⟨s, hs, -⟩
      · exact Or.inr h
      · cases hs
  | cons kid kids ih =>
    cases kid with
    | none => exact Or.inl rfl
    | some t =>
      rw [needAny]
      split_ifs with hempty
      · exact Or.inl rfl
      · refine ih ?_
        rcases h with h | ⟨s, hs, hsound⟩
        · exact Or.inl (Need.met_merge_left h _)
        · rcases List.mem_cons.mp hs with heq | hmem
          · cases heq
            rcases hsound with hnil | hmet
            · exact absurd (List.isEmpty_iff.mpr hnil) hempty
            · exact Or.inl (Need.met_merge_right hmet _ _)
          · exact Or.inr ⟨s, hmem, hsound⟩

/-- **Needs are sound.** A statement that holds needs nothing, or has one of its needed features in
the set. -/
theorem need_sound {s : Statement} (h : s.holds E fs) : (need s).Sound fs := by
  induction s using Statement.inductionOn with
  | and kids ih =>
    refine needAnd_sound (fun s hs => ih s hs ?_) (Or.inl rfl)
    obtain ⟨t, ht, hsat⟩ := (Statement.satAll_iff _ kids fs).mp h _ hs
    cases ht
    exact hsat
  | or kids ih =>
    obtain ⟨s, hs, hsat⟩ := (Statement.satAny_iff _ kids fs).mp h
    exact needAny_sound (Or.inr ⟨s, hs, ih s hs hsat⟩)
  | not s ih => exact Or.inl rfl
  | someOf n kids ih =>
    rw [need]
    split_ifs with hn
    · exact Or.inl rfl
    · have hle : n ≤ Statement.satCount (setFrame E) kids fs := of_decide_eq_true h
      have hpos : 0 < Statement.satCount (setFrame E) kids fs :=
        Nat.lt_of_lt_of_le (Nat.pos_of_ne_zero hn) hle
      obtain ⟨s, hs, hsat⟩ := Statement.exists_of_satCount_pos _ hpos
      exact needAny_sound (Or.inr ⟨s, hs, ih s hs hsat⟩)
  | range f min max =>
    rw [need]
    split_ifs with hmin
    · exact Or.inl rfl
    · refine leafNeed_sound (has_of_count_pos ?_)
      have hin : inRange (fs.count f) min max := h
      simp only [inRange, beq_iff_eq, hmin, Bool.or_eq_true, Bool.and_eq_true, false_and,
        decide_eq_true_eq, false_or] at hin
      omega
  | subscope scope s => exact Or.inl rfl
  | feature f =>
    rw [need, leafNeed]
    split_ifs with hindex
    · have hmatch : f.matchesSet E fs := h
      rw [Feature.matchesSet_of_lookupOnly (lookupOnly_of_indexable hindex)] at hmatch
      exact Or.inr ⟨f, List.mem_cons_self, hindex, hmatch⟩
    · exact Or.inl rfl

/-! ### The index -/

/-- The rules of a scope, which of them are always run, and for each needed feature the positions
of the rules it selects. -/
structure RuleFeatureIndex where
  order : List Rule := []
  alwaysRun : List Bool := []
  byFeature : List (Feature × List ℕ) := []

namespace RuleFeatureIndex

/-- Enter the rules from position `i` on. -/
def buildFrom : List Rule → (i : ℕ) → RuleFeatureIndex → RuleFeatureIndex
  | [], _, ix => ix
  | r :: rules, i, ix =>
    let n := need r.statement
    if n.feats.isEmpty then buildFrom rules (i + 1) { ix with alwaysRun := ix.alwaysRun ++ [true] }
    else buildFrom rules (i + 1)
      { ix with
        alwaysRun := ix.alwaysRun ++ [false]
        byFeature := n.feats.foldl (fun m f => AssocList.upsert f [] (· ++ [i]) m) ix.byFeature }

/-- Index the topologically ordered rules of a scope. -/
def build (rules : List Rule) : RuleFeatureIndex := buildFrom rules 0 { order := rules }

/-- The positions hit by the features of a set. -/
def hits (ix : RuleFeatureIndex) (fs : FeatureSet) : List ℕ :=
  fs.entries.flatMap fun e => (AssocList.get? e.1 ix.byFeature).getD []

/-- The rules worth evaluating against a feature set, in the order given to `build`. -/
def select (ix : RuleFeatureIndex) (fs : FeatureSet) : List Rule :=
  let hit := ix.hits fs
  (ix.order.zipIdx.filter fun p => ix.alwaysRun.getD p.2 false || hit.contains p.2).map Prod.fst

/-- A position is selected by a feature. -/
def Selects (ix : RuleFeatureIndex) (f : Feature) (i : ℕ) : Prop :=
  i ∈ (AssocList.get? f ix.byFeature).getD []

private theorem mem_foldl_upsert (feats : List Feature) (m : List (Feature × List ℕ)) (i : ℕ)
    {f : Feature} {j : ℕ} :
    j ∈ (AssocList.get? f (feats.foldl (fun m f => AssocList.upsert f [] (· ++ [i]) m) m)).getD []
      ↔ (j = i ∧ ∃ g ∈ feats, g == f) ∨ j ∈ (AssocList.get? f m).getD [] := by
  induction feats generalizing m with
  | nil => simp
  | cons g feats ih =>
    rw [List.foldl_cons, ih, AssocList.get?_upsert]
    by_cases hg : g == f
    · rw [if_pos hg, ← AssocList.get?_congr hg m]
      simp only [Option.getD_some, List.mem_append, List.mem_cons, exists_eq_or_imp, hg, true_or,
        and_true]
      tauto
    · rw [if_neg hg]
      simp [hg]

/-- What entering rules does: the flags are appended and each position is selected by the features
its rule needs. -/
private theorem buildFrom_spec (rules : List Rule) (i : ℕ) (ix : RuleFeatureIndex) :
    (buildFrom rules i ix).order = ix.order ∧
    (buildFrom rules i ix).alwaysRun =
      ix.alwaysRun ++ rules.map (fun r => (need r.statement).feats.isEmpty) ∧
    ∀ f j, (buildFrom rules i ix).Selects f j ↔
      (∃ k, ∃ r, rules[k]? = some r ∧ j = i + k ∧ ∃ g ∈ (need r.statement).feats, g == f) ∨
        ix.Selects f j := by
  induction rules generalizing i ix with
  | nil => simp [buildFrom]
  | cons r rules ih =>
    have hstep (P : Rule → Prop) (j : ℕ) :
        (∃ k, ∃ r', (r :: rules)[k]? = some r' ∧ j = i + k ∧ P r') ↔
          (j = i ∧ P r) ∨ ∃ k, ∃ r', rules[k]? = some r' ∧ j = i + 1 + k ∧ P r' := by
      constructor
      · rintro ⟨k, r', hk, rfl, hP⟩
        cases k with
        | zero => exact Or.inl ⟨rfl, Option.some.inj hk ▸ hP⟩
        | succ k => exact Or.inr ⟨k, r', hk, by omega, hP⟩
      · rintro (⟨rfl, hP⟩ | ⟨k, r', hk, rfl, hP⟩)
        · exact ⟨0, r, rfl, rfl, hP⟩
        · exact ⟨k + 1, r', hk, by omega, hP⟩
    rw [buildFrom]
    by_cases hempty : (need r.statement).feats.isEmpty
    · obtain ⟨horder, halways, hsel⟩ := ih (i + 1) { ix with alwaysRun := ix.alwaysRun ++ [true] }
      rw [if_pos hempty]
      refine ⟨horder, by rw [halways]; simp [hempty], fun f j => ?_⟩
      rw [hsel f j, hstep]
      have hnone : ¬∃ g ∈ (need r.statement).feats, g == f := by
        simp [List.isEmpty_iff.mp hempty]
      simp only [hnone, and_false, false_or]
      rfl
    · obtain ⟨horder, halways, hsel⟩ := ih (i + 1)
        { ix with
          alwaysRun := ix.alwaysRun ++ [false]
          byFeature := (need r.statement).feats.foldl
            (fun m f => AssocList.upsert f [] (· ++ [i]) m) ix.byFeature }
      rw [if_neg hempty]
      refine ⟨horder, by rw [halways]; simp [hempty], fun f j => ?_⟩
      rw [hsel f j, hstep, Selects, mem_foldl_upsert, ← Selects]
      exact or_left_comm.trans or_assoc.symm

/-- The part of an order the index selects, as a predicate on rules and positions. -/
theorem selects_build_iff (rules : List Rule) (f : Feature) (i : ℕ) :
    (build rules).Selects f i ↔
      ∃ r, rules[i]? = some r ∧ ∃ g ∈ (need r.statement).feats, g == f := by
  rw [build, (buildFrom_spec rules 0 _).2.2]
  simp [Selects]

/-- A rule that is not always run is selected exactly when one of its needed features is in the
set. -/
theorem mem_hits_iff {rules : List Rule} {i : ℕ} {r : Rule} (hr : rules[i]? = some r) :
    i ∈ (build rules).hits fs ↔ ∃ f ∈ (need r.statement).feats, fs.has f := by
  simp only [hits, List.mem_flatMap]
  constructor
  · rintro ⟨e, he, hsel⟩
    obtain ⟨r', hr', g, hg, hge⟩ := (selects_build_iff rules e.1 i).mp hsel
    cases hr.symm.trans hr'
    exact ⟨g, hg, (has_congr hge fs).trans (has_of_mem he)⟩
  · rintro ⟨f, hf, hhas⟩
    obtain ⟨e, he, hef⟩ := (has_iff fs f).mp hhas
    exact ⟨e, he, (selects_build_iff rules e.1 i).mpr ⟨r, hr, f, hf, BEq.symm hef⟩⟩

/-- A rule needs nothing or has one of its needed features in the set. -/
def kept (fs : FeatureSet) (r : Rule) : Bool :=
  (need r.statement).feats.isEmpty || (need r.statement).feats.any fs.has

private theorem filter_zipIdx_map_fst (rules : List Rule) (p : Rule → Bool) :
    (rules.zipIdx.filter fun x => p x.1).map Prod.fst = rules.filter p := by
  have h := List.filter_map (p := p) (f := (Prod.fst : Rule × ℕ → Rule)) (l := rules.zipIdx)
  rw [List.zipIdx_map_fst] at h
  exact h.symm

/-- **What is selected**: the rules that need nothing or have one of their needed features in the
set, in order. -/
theorem select_build (rules : List Rule) (fs : FeatureSet) :
    (build rules).select fs = rules.filter (kept fs) := by
  have horder : (build rules).order = rules := (buildFrom_spec rules 0 _).1
  have halways : (build rules).alwaysRun =
      rules.map fun r => (need r.statement).feats.isEmpty :=
    (buildFrom_spec rules 0 _).2.1
  have hpred : ∀ p ∈ rules.zipIdx,
      ((build rules).alwaysRun.getD p.2 false || ((build rules).hits fs).contains p.2) =
        kept fs p.1 := by
    rintro ⟨r, i⟩ hp
    have hr : rules[i]? = some r := List.mk_mem_zipIdx_iff_getElem?.mp hp
    rw [halways, kept, Bool.eq_iff_iff, Bool.or_eq_true, Bool.or_eq_true, List.contains_iff_mem,
      mem_hits_iff hr, List.any_eq_true]
    simp [List.getD_eq_getElem?_getD, hr]
  rw [select]
  simp only [horder]
  rw [List.filter_congr hpred, filter_zipIdx_map_fst]

/-- **Pruning is exact.** The match cycle over the selected rules has the outcome of the cycle over
all of them, although the selection is made on the set before the cycle injects names into it. -/
theorem matchRules_select {E : RegexEngine} {addr : Address} {rules : List Rule}
    (hfree : ∀ r ∈ rules, r.statement.SubscopeFree) (fs : FeatureSet) :
    matchRules E addr ((build rules).select fs) fs = matchRules E addr rules fs := by
  have hkept : ∀ r ∈ rules.filter (kept fs), r.statement.SubscopeFree :=
    fun r hr => hfree r (List.mem_of_mem_filter hr)
  -- the cycle only ever adds match features, which no need mentions
  let I (gs : FeatureSet) : Prop := ∀ f : Feature, f.tag ≠ .matchedRule → gs.has f = fs.has f
  have hinject : ∀ r gs, (matchSystem E addr).Fires r gs → I gs →
      I ((matchSystem E addr).inject r gs) := by
    intro r gs _ hgs f hf
    exact (has_indexRuleMatches_of_tag_ne hf gs r [addr]).trans (hgs f hf)
  have hskip : ∀ r ∈ rules, kept fs r = false → ∀ gs, I gs →
      (matchSystem E addr).fire r gs = none := by
    intro r hr hk gs hgs
    simp only [kept, Bool.or_eq_false_iff, List.any_eq_false, Bool.not_eq_true] at hk
    by_contra hne
    have hholds : r.statement.holds E gs :=
      (fires_iff (hfree r hr) gs).mp (Option.ne_none_iff_isSome.mp hne)
    rcases need_sound hholds with hnil | ⟨f, hf, hindex, hhas⟩
    · simp [hnil] at hk
    · rw [hgs f (ne_matchedRule_of_indexable hindex), hk.2 f hf] at hhas
      cases hhas
  rw [select_build, matchRules_eq hkept, matchRules_eq hfree,
    RuleSystem.run_filter (I := I) _ hinject hskip fun _ _ => rfl]

end RuleFeatureIndex

end Papa.Rules
