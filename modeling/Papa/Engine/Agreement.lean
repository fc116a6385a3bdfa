import Papa.Engine.Evaluate

/-!
# Feature sets that differ in match features only

Rules communicate through `MatchedRule` features. Two feature sets agree off a set of names when
they differ at most in the `MatchedRule` features of those names; a statement that references none
of the names cannot tell them apart, in any evaluator and down to the result tree.

## Main definitions

* `Papa.Features.FeatureSet.AgreeOff`: agreement off a set of names.

## Main results

* `Papa.Features.FeatureSet.AgreeOff.emplace_left`, `Papa.Features.FeatureSet.AgreeOff.emplace`.
* `Papa.Engine.Statement.evaluate_agree`, `Papa.Engine.Statement.evaluateQuick_agree`.
-/

namespace Papa.Features

/-- The feature is a `MatchedRule` feature of one of the names. -/
def Feature.NamedIn (N : Set Str) (f : Feature) : Prop := ∃ n ∈ N, f.value = .matchedRule n

theorem Feature.NamedIn.tag_eq {N : Set Str} {f : Feature} (h : f.NamedIn N) :
    f.tag = .matchedRule := by
  obtain ⟨n, -, hn⟩ := h
  rw [Feature.tag, hn]
  rfl

theorem Feature.not_namedIn_of_tag_ne {N : Set Str} {f : Feature} (h : f.tag ≠ .matchedRule) :
    ¬f.NamedIn N :=
  fun hf => h hf.tag_eq

namespace FeatureSet

/-- The two sets differ at most in the `MatchedRule` features of the names. -/
structure AgreeOff (N : Set Str) (fs gs : FeatureSet) : Prop where
  find_eq : ∀ f, ¬f.NamedIn N → fs.find f = gs.find f
  strings_eq : fs.strings = gs.strings
  bytesFeatures_eq : fs.bytesFeatures = gs.bytesFeatures
  osKeys_eq : (fs.entries.map Prod.fst).filter Feature.osHit =
    (gs.entries.map Prod.fst).filter Feature.osHit

theorem osKeys_emplace (fs : FeatureSet) (f : Feature) (locs : Finset Address) :
    ((fs.emplace f locs).entries.map Prod.fst).filter Feature.osHit =
      if !fs.has f && f.osHit then (fs.entries.map Prod.fst).filter Feature.osHit ++ [f]
      else (fs.entries.map Prod.fst).filter Feature.osHit := by
  rw [emplace, AssocList.keys_upsert, has, find]
  cases (AssocList.get? f fs.entries).isSome <;> cases ht : f.osHit <;> simp [ht]

namespace AgreeOff

variable {N : Set Str} {fs gs hs : FeatureSet}

theorem refl (N : Set Str) (fs : FeatureSet) : AgreeOff N fs fs := ⟨fun _ _ => rfl, rfl, rfl, rfl⟩

theorem symm (h : AgreeOff N fs gs) : AgreeOff N gs fs :=
  ⟨fun f hf => (h.find_eq f hf).symm, h.strings_eq.symm, h.bytesFeatures_eq.symm,
    h.osKeys_eq.symm⟩

theorem trans (h : AgreeOff N fs gs) (h' : AgreeOff N gs hs) : AgreeOff N fs hs :=
  ⟨fun f hf => (h.find_eq f hf).trans (h'.find_eq f hf), h.strings_eq.trans h'.strings_eq,
    h.bytesFeatures_eq.trans h'.bytesFeatures_eq, h.osKeys_eq.trans h'.osKeys_eq⟩

theorem mono {M : Set Str} (hNM : N ⊆ M) (h : AgreeOff N fs gs) : AgreeOff M fs gs where
  find_eq f hf := h.find_eq f fun ⟨n, hn, hv⟩ => hf ⟨n, hNM hn, hv⟩
  strings_eq := h.strings_eq
  bytesFeatures_eq := h.bytesFeatures_eq
  osKeys_eq := h.osKeys_eq

/-- Inserting a `MatchedRule` feature of one of the names on one side keeps the agreement. -/
theorem emplace_left (h : AgreeOff N fs gs) {f : Feature} (hf : f.NamedIn N)
    (locs : Finset Address) : AgreeOff N (fs.emplace f locs) gs where
  find_eq g hg := by
    have hne : (f == g) = false := by
      rw [Bool.eq_false_iff]
      intro hfg
      obtain ⟨n, hn, hv⟩ := hf
      have hkey : Feature.matchedRule n == g :=
        BEq.trans ((Feature.matchedRule_beq_iff n f).mpr hv) hfg
      exact hg ⟨n, hn, (Feature.matchedRule_beq_iff n g).mp hkey⟩
    rw [find_emplace_of_ne hne, h.find_eq g hg]
  strings_eq := by
    rw [emplace_strings_of_ne (by rw [hf.tag_eq]; nofun), h.strings_eq]
  bytesFeatures_eq := by
    rw [emplace_bytesFeatures_of_ne (by rw [hf.tag_eq]; nofun), h.bytesFeatures_eq]
  osKeys_eq := by
    have hos : f.osHit = false := by rw [Feature.osHit, hf.tag_eq]; rfl
    rw [osKeys_emplace, hos, Bool.and_false, if_neg Bool.false_ne_true, h.osKeys_eq]

/-- Inserting one `MatchedRule` feature on both sides keeps the agreement. -/
theorem emplace (h : AgreeOff N fs gs) {f : Feature} (hf : f.tag = .matchedRule)
    (locs : Finset Address) : AgreeOff N (fs.emplace f locs) (gs.emplace f locs) where
  find_eq g hg := by
    rw [find_emplace, find_emplace, h.find_eq g hg]
    split_ifs with hfg
    · have hf' : ¬f.NamedIn N := by
        rintro ⟨n, hn, hv⟩
        have hkey : Feature.matchedRule n == g :=
          BEq.trans ((Feature.matchedRule_beq_iff n f).mpr hv) hfg
        exact hg ⟨n, hn, (Feature.matchedRule_beq_iff n g).mp hkey⟩
      rw [h.find_eq f hf']
    · rfl
  strings_eq := by
    rw [emplace_strings_of_ne (by rw [hf]; nofun), emplace_strings_of_ne (by rw [hf]; nofun),
      h.strings_eq]
  bytesFeatures_eq := by
    rw [emplace_bytesFeatures_of_ne (by rw [hf]; nofun),
      emplace_bytesFeatures_of_ne (by rw [hf]; nofun), h.bytesFeatures_eq]
  osKeys_eq := by
    have hos : f.osHit = false := by rw [Feature.osHit, hf]; rfl
    simp only [osKeys_emplace, hos, Bool.and_false, Bool.false_eq_true, ↓reduceIte, h.osKeys_eq]

theorem count_eq (h : AgreeOff N fs gs) {f : Feature} (hf : ¬f.NamedIn N) :
    fs.count f = gs.count f := by
  rw [count, count, h.find_eq f hf]

end AgreeOff

end FeatureSet

open FeatureSet

variable {N : Set Str} {fs gs : FeatureSet}

/-! ### Features -/

theorem scan_congr {sc : Bool} {hit : Feature → Bool} {l : List Feature}
    (h : ∀ f ∈ l, fs.find f = gs.find f) : scan fs sc hit l = scan gs sc hit l := by
  induction l with
  | nil => rfl
  | cons f l ih =>
    rw [scan, scan, h f List.mem_cons_self, ih fun g hg => h g (List.mem_cons_of_mem _ hg)]

theorem scan_filter (fs : FeatureSet) (sc : Bool) (hit : Feature → Bool) (l : List Feature) :
    scan fs sc hit (l.filter hit) = scan fs sc hit l := by
  induction l with
  | nil => rfl
  | cons f l ih =>
    cases hf : hit f with
    | false =>
      rw [List.filter_cons_of_neg (by simp [hf]), ih, scan, hf]
      rfl
    | true => rw [List.filter_cons_of_pos hf, scan, scan, ih]

private theorem not_namedIn_of_mem_strings (N : Set Str) {f : Feature} (h : f ∈ fs.strings) :
    ¬f.NamedIn N := by
  rw [fs.strings_eq] at h
  refine Feature.not_namedIn_of_tag_ne ?_
  rw [of_decide_eq_true (List.mem_filter.mp h).2]
  nofun

private theorem not_namedIn_of_mem_bytesFeatures (N : Set Str) {f : Feature}
    (h : f ∈ fs.bytesFeatures) : ¬f.NamedIn N := by
  rw [fs.bytesFeatures_eq] at h
  refine Feature.not_namedIn_of_tag_ne ?_
  rw [of_decide_eq_true (List.mem_filter.mp h).2]
  nofun

private theorem scan_os_agree (h : AgreeOff N fs gs) (sc : Bool) :
    scan fs sc Feature.osHit (fs.entries.map Prod.fst) =
      scan gs sc Feature.osHit (gs.entries.map Prod.fst) := by
  rw [← scan_filter, h.osKeys_eq, ← scan_filter gs]
  refine scan_congr fun f hf => h.find_eq f (Feature.not_namedIn_of_tag_ne ?_)
  rw [of_decide_eq_true (List.mem_filter.mp hf).2]
  nofun

private theorem not_namedIn_anyOs (N : Set Str) : ¬anyOs.NamedIn N :=
  Feature.not_namedIn_of_tag_ne nofun

namespace Feature

theorem evaluateLookup_agree (h : AgreeOff N fs gs) {f : Feature} (hf : ¬f.NamedIn N) :
    f.evaluateLookup fs = f.evaluateLookup gs := by
  rw [evaluateLookup, evaluateLookup, h.find_eq f hf]

/-- A feature that is not one of the named match features evaluates alike. -/
theorem evaluate_agree (h : AgreeOff N fs gs) (E : RegexEngine) {f : Feature} (hf : ¬f.NamedIn N)
    (sc : Bool) : f.evaluate E fs sc = f.evaluate E gs sc := by
  have hstrings (hit : Feature → Bool) :
      scan fs sc hit fs.strings = scan gs sc hit gs.strings := by
    rw [← h.strings_eq]
    exact scan_congr fun g hg => h.find_eq g (not_namedIn_of_mem_strings N hg)
  have hbytes (hit : Feature → Bool) :
      scan fs sc hit fs.bytesFeatures = scan gs sc hit gs.bytesFeatures := by
    rw [← h.bytesFeatures_eq]
    exact scan_congr fun g hg => h.find_eq g (not_namedIn_of_mem_bytesFeatures N hg)
  rw [evaluate, evaluate]
  split
  · rw [hstrings]
  · simp only [hstrings]
  · rw [hbytes]
  · simp only [evaluateOs, evaluateLookup_agree h hf,
      evaluateLookup_agree h (not_namedIn_anyOs N), scan_os_agree h]
  · exact evaluateLookup_agree h hf

theorem matchesSet_agree (h : AgreeOff N fs gs) (E : RegexEngine) {f : Feature}
    (hf : ¬f.NamedIn N) : f.matchesSet E fs = f.matchesSet E gs := by
  rw [← evaluate_success E f fs true, ← evaluate_success E f gs true, evaluate_agree h E hf]

end Feature

end Papa.Features

namespace Papa.Engine.Statement

open Features FeatureSet

/-! ### Statements -/

variable {N : Set Str} {fs gs : FeatureSet}

private theorem not_namedIn_of_refs {f : Feature} (hf : ∀ ref ∈ f.matchedName?.toList, ref ∉ N) :
    ¬f.NamedIn N := by
  rintro ⟨n, hn, hv⟩
  exact hf n (by rw [Feature.matchedName?_eq_some_iff.mpr hv]; exact List.mem_singleton_self n) hn

private theorem evaluateRange_agree (h : AgreeOff N fs gs) (s : Statement) {f : Feature}
    (hf : ¬f.NamedIn N) (min max : ℕ) :
    evaluateRange s f min max fs = evaluateRange s f min max gs := by
  simp only [evaluateRange, h.count_eq hf, h.find_eq f hf]

section Kids

variable {E : RegexEngine} {kids : List (Option Statement)}

private theorem evaluateAnd_congr {sc : Bool}
    (h : ∀ s, some s ∈ kids → s.evaluate E fs sc = s.evaluate E gs sc) :
    evaluateAnd E fs kids sc = evaluateAnd E gs kids sc := by
  induction kids with
  | nil => rfl
  | cons kid kids ih =>
    have htail := ih fun t ht => h t (List.mem_cons_of_mem _ ht)
    cases kid with
    | none => rw [evaluateAnd, evaluateAnd, htail]
    | some s => rw [evaluateAnd, evaluateAnd, h s List.mem_cons_self, htail]

private theorem evaluateOr_congr {sc : Bool}
    (h : ∀ s, some s ∈ kids → s.evaluate E fs sc = s.evaluate E gs sc) :
    evaluateOr E fs kids sc = evaluateOr E gs kids sc := by
  induction kids with
  | nil => rfl
  | cons kid kids ih =>
    have htail := ih fun t ht => h t (List.mem_cons_of_mem _ ht)
    cases kid with
    | none => exact htail
    | some s => rw [evaluateOr, evaluateOr, h s List.mem_cons_self, htail]

private theorem evaluateSome_congr {sc : Bool} {count : ℕ}
    (h : ∀ s, some s ∈ kids → s.evaluate E fs sc = s.evaluate E gs sc) (okCount : ℕ) :
    evaluateSome E fs count kids sc okCount = evaluateSome E gs count kids sc okCount := by
  induction kids generalizing okCount with
  | nil => rfl
  | cons kid kids ih =>
    have htail := ih fun t ht => h t (List.mem_cons_of_mem _ ht)
    cases kid with
    | none => exact htail okCount
    | some s => simp only [evaluateSome, h s List.mem_cons_self, htail]

private theorem quickAnd_congr
    (h : ∀ s, some s ∈ kids → s.evaluateQuick E fs = s.evaluateQuick E gs) :
    quickAnd E fs kids = quickAnd E gs kids := by
  induction kids with
  | nil => rfl
  | cons kid kids ih =>
    have htail := ih fun t ht => h t (List.mem_cons_of_mem _ ht)
    cases kid with
    | none => rfl
    | some s => rw [quickAnd, quickAnd, h s List.mem_cons_self, htail]

private theorem quickOr_congr
    (h : ∀ s, some s ∈ kids → s.evaluateQuick E fs = s.evaluateQuick E gs) :
    quickOr E fs kids = quickOr E gs kids := by
  induction kids with
  | nil => rfl
  | cons kid kids ih =>
    have htail := ih fun t ht => h t (List.mem_cons_of_mem _ ht)
    cases kid with
    | none => exact htail
    | some s => rw [quickOr, quickOr, h s List.mem_cons_self, htail]

private theorem quickSome_congr {count : ℕ}
    (h : ∀ s, some s ∈ kids → s.evaluateQuick E fs = s.evaluateQuick E gs) (hits : ℕ) :
    quickSome E fs count kids hits = quickSome E gs count kids hits := by
  induction kids generalizing hits with
  | nil => rfl
  | cons kid kids ih =>
    have htail := ih fun t ht => h t (List.mem_cons_of_mem _ ht)
    cases kid with
    | none => exact htail hits
    | some s => simp only [quickSome, h s List.mem_cons_self, htail]

end Kids

private theorem refs_of_kid {kids : List (Option Statement)}
    (h : ∀ ref ∈ collectMatchRefsKids kids, ref ∉ N) {s : Statement} (hs : some s ∈ kids) :
    ∀ ref ∈ collectMatchRefs s, ref ∉ N :=
  fun ref href => h ref (mem_collectMatchRefsKids.mpr ⟨s, hs, href⟩)

/-- **A statement that references none of the names evaluates alike**, down to the result tree. -/
theorem evaluate_agree (h : AgreeOff N fs gs) (E : RegexEngine) (s : Statement)
    (hrefs : ∀ ref ∈ collectMatchRefs s, ref ∉ N) (sc : Bool) :
    s.evaluate E fs sc = s.evaluate E gs sc := by
  induction s using inductionOn generalizing sc with
  | and kids ih =>
    rw [evaluate, evaluate, evaluateAnd_congr fun t ht => ih t ht (refs_of_kid hrefs ht) sc]
  | or kids ih =>
    rw [evaluate, evaluate, evaluateOr_congr fun t ht => ih t ht (refs_of_kid hrefs ht) sc]
  | not s ih => rw [evaluate, evaluate, ih hrefs false]
  | someOf n kids ih =>
    rw [evaluate, evaluate,
      evaluateSome_congr (fun t ht => ih t ht (refs_of_kid hrefs ht) sc) 0]
  | range f min max =>
    rw [evaluate, evaluate, evaluateRange_agree h _ (not_namedIn_of_refs hrefs)]
  | subscope scope s => rfl
  | feature f => rw [evaluate, evaluate, Feature.evaluate_agree h E (not_namedIn_of_refs hrefs)]

/-- The probe of a statement that references none of the names answers alike. -/
theorem evaluateQuick_agree (h : AgreeOff N fs gs) (E : RegexEngine) (s : Statement)
    (hrefs : ∀ ref ∈ collectMatchRefs s, ref ∉ N) :
    s.evaluateQuick E fs = s.evaluateQuick E gs := by
  induction s using inductionOn with
  | and kids ih => exact quickAnd_congr fun t ht => ih t ht (refs_of_kid hrefs ht)
  | or kids ih => exact quickOr_congr fun t ht => ih t ht (refs_of_kid hrefs ht)
  | not s ih => rw [evaluateQuick, evaluateQuick, ih hrefs]
  | someOf n kids ih =>
    rw [evaluateQuick, evaluateQuick,
      quickSome_congr (fun t ht => ih t ht (refs_of_kid hrefs ht)) 0]
  | range f min max => rw [evaluateQuick, evaluateQuick, h.count_eq (not_namedIn_of_refs hrefs)]
  | subscope scope s => rfl
  | feature f =>
    rw [evaluateQuick, evaluateQuick, Feature.matchesSet_agree h E (not_namedIn_of_refs hrefs)]

end Papa.Engine.Statement
