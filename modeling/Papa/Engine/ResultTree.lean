import Papa.Engine.Evaluate

/-!
# The shape of result trees

A full evaluation follows the statement: the children of a result are the results of the statements
in the child slots, and a result at some depth of the tree is that of the statement
at this depth. All match features of one name in a tree look up the same entry of the set.

## Main definitions

* `Papa.Engine.Statement.height`, `Papa.Engine.Statement.kids`: the height of a tree and its slots.
* `Papa.Engine.Inside`: a result some levels below another.
* `Papa.Engine.TestsAt`: a match feature of a name at some depth of a statement.

## Main results

* `Papa.Engine.testsAt_of_inside`, `Papa.Engine.inside_of_testsAt`: where the match features are.
-/

namespace Papa.Engine

open Features

mutual

/-- The height of a tree. -/
def Statement.height : Statement → ℕ
  | .and kids => heightKids kids + 1
  | .or kids => heightKids kids + 1
  | .not s => s.height + 1
  | .someOf _ kids => heightKids kids + 1
  | .range _ _ _ => 0
  | .subscope _ _ => 0
  | .feature _ => 0

/-- The height of the highest child. -/
def heightKids : List (Option Statement) → ℕ
  | [] => 0
  | none :: kids => heightKids kids
  | some s :: kids => max s.height (heightKids kids)

end

theorem height_le_heightKids {kids : List (Option Statement)} {s : Statement} (h : some s ∈ kids) :
    s.height ≤ heightKids kids := by
  induction kids with
  | nil => exact absurd h List.not_mem_nil
  | cons kid kids ih =>
    rcases List.mem_cons.mp h with rfl | hmem
    · exact le_max_left _ _
    · cases kid with
      | none => exact ih hmem
      | some t => exact (ih hmem).trans (le_max_right _ _)

/-- The child slots of a statement. -/
def Statement.kids : Statement → List (Option Statement)
  | .and kids => kids
  | .or kids => kids
  | .not s => [some s]
  | .someOf _ kids => kids
  | .range _ _ _ => []
  | .subscope _ _ => []
  | .feature _ => []

/-- Induction over the child slots, whatever the statement. -/
theorem Statement.kidsInduction {motive : Statement → Prop} (s : Statement)
    (h : ∀ s, (∀ t, some t ∈ s.kids → motive t) → motive s) : motive s := by
  induction s using Statement.inductionOn with
  | and kids ih => exact h _ ih
  | or kids ih => exact h _ ih
  | not s ih =>
    refine h _ fun t ht => ?_
    obtain rfl : t = s := Option.some.inj (List.mem_singleton.mp ht)
    exact ih
  | someOf n kids ih => exact h _ ih
  | range f min max => exact h _ fun t ht => absurd ht List.not_mem_nil
  | subscope scope s _ => exact h _ fun t ht => absurd ht List.not_mem_nil
  | feature f => exact h _ fun t ht => absurd ht List.not_mem_nil

theorem height_of_mem_kids {s t : Statement} (h : some t ∈ s.kids) : t.height + 1 ≤ s.height := by
  cases s with
  | and kids => exact Nat.succ_le_succ (height_le_heightKids h)
  | or kids => exact Nat.succ_le_succ (height_le_heightKids h)
  | not s =>
    obtain rfl : t = s := Option.some.inj (List.mem_singleton.mp h)
    exact le_rfl
  | someOf n kids => exact Nat.succ_le_succ (height_le_heightKids h)
  | range f min max => exact absurd h List.not_mem_nil
  | subscope scope s => exact absurd h List.not_mem_nil
  | feature f => exact absurd h List.not_mem_nil

theorem collectMatchRefs_of_mem_kids {s t : Statement} (h : some t ∈ s.kids) :
    collectMatchRefs t ⊆ collectMatchRefs s := by
  intro name hname
  cases s with
  | and kids => exact mem_collectMatchRefsKids.mpr ⟨t, h, hname⟩
  | or kids => exact mem_collectMatchRefsKids.mpr ⟨t, h, hname⟩
  | not s =>
    obtain rfl : t = s := Option.some.inj (List.mem_singleton.mp h)
    exact hname
  | someOf n kids => exact mem_collectMatchRefsKids.mpr ⟨t, h, hname⟩
  | range f min max => exact absurd h List.not_mem_nil
  | subscope scope s => exact absurd h List.not_mem_nil
  | feature f => exact absurd h List.not_mem_nil

/-! ### The children of a result -/

section Children

variable (E : RegexEngine) (fs : FeatureSet)

/-- The results are those of the statements in the slots. -/
structure Evaluated (kids : List (Option Statement)) (results : List Result) : Prop where
  exists_kid : ∀ c ∈ results, ∃ s, some s ∈ kids ∧ s.evaluate E fs false = .ok c
  exists_result : ∀ s, some s ∈ kids → ∃ c ∈ results, s.evaluate E fs false = .ok c

variable {E fs} {kids : List (Option Statement)} {results : List Result}

theorem Evaluated.nil : Evaluated E fs [] [] where
  exists_kid _ hc := absurd hc List.not_mem_nil
  exists_result _ hs := absurd hs List.not_mem_nil

theorem Evaluated.null (h : Evaluated E fs kids results) :
    Evaluated E fs (none :: kids) results where
  exists_kid c hc :=
    have ⟨s, hs, heval⟩ := h.exists_kid c hc
    ⟨s, List.mem_cons_of_mem _ hs, heval⟩
  exists_result s hs := by
    rcases List.mem_cons.mp hs with hs | hs
    · cases hs
    · exact h.exists_result s hs

theorem Evaluated.cons {s : Statement} {c : Result} (hc : s.evaluate E fs false = .ok c)
    (h : Evaluated E fs kids results) : Evaluated E fs (some s :: kids) (c :: results) where
  exists_kid d hd := by
    rcases List.mem_cons.mp hd with rfl | hd
    · exact ⟨s, List.mem_cons_self, hc⟩
    · obtain ⟨t, ht, heval⟩ := h.exists_kid d hd
      exact ⟨t, List.mem_cons_of_mem _ ht, heval⟩
  exists_result t ht := by
    rcases List.mem_cons.mp ht with ht | ht
    · cases ht
      exact ⟨c, List.mem_cons_self, hc⟩
    · obtain ⟨d, hd, heval⟩ := h.exists_result t ht
      exact ⟨d, List.mem_cons_of_mem _ hd, heval⟩

theorem evaluated_and {o : List Result × Bool}
    (ho : Statement.evaluateAnd E fs kids false = .ok o) : Evaluated E fs kids o.1 := by
  induction kids generalizing o with
  | nil =>
    cases ho
    exact .nil
  | cons kid kids ih =>
    cases kid with
    | none =>
      obtain ⟨o', ho', ho⟩ := bind_eq_ok.mp ho
      cases ho
      exact (ih ho').null
    | some s =>
      obtain ⟨cr, hcr, ho⟩ := bind_eq_ok.mp ho
      rw [Bool.and_false, if_neg Bool.false_ne_true] at ho
      obtain ⟨o', ho', ho⟩ := bind_eq_ok.mp ho
      cases ho
      exact .cons hcr (ih ho')

theorem evaluated_or {o : List Result × Bool × Finset Address}
    (ho : Statement.evaluateOr E fs kids false = .ok o) : Evaluated E fs kids o.1 := by
  induction kids generalizing o with
  | nil =>
    cases ho
    exact .nil
  | cons kid kids ih =>
    cases kid with
    | none => exact (ih ho).null
    | some s =>
      obtain ⟨cr, hcr, ho⟩ := bind_eq_ok.mp ho
      rw [Bool.and_false, if_neg Bool.false_ne_true] at ho
      obtain ⟨o', ho', ho⟩ := bind_eq_ok.mp ho
      cases ho
      exact .cons hcr (ih ho')

theorem evaluated_some {count okCount : ℕ} {o : List Result × ℕ × Finset Address}
    (ho : Statement.evaluateSome E fs count kids false okCount = .ok o) :
    Evaluated E fs kids o.1 := by
  induction kids generalizing okCount o with
  | nil =>
    cases ho
    exact .nil
  | cons kid kids ih =>
    cases kid with
    | none => exact (ih ho).null
    | some s =>
      obtain ⟨cr, hcr, ho⟩ := bind_eq_ok.mp ho
      dsimp only at ho
      rw [Bool.false_and, Bool.false_and, if_neg Bool.false_ne_true] at ho
      obtain ⟨o', ho', ho⟩ := bind_eq_ok.mp ho
      cases ho
      exact .cons hcr (ih ho')

/-- **A full evaluation** is that of a feature, or its children are those of the child slots. -/
theorem evaluate_cases {s : Statement} {x : Result} (hx : s.evaluate E fs false = .ok x) :
    (∃ f, s = .feature f ∧ x = f.evaluate E fs false) ∨
      (∀ f, s ≠ .feature f) ∧ x.node = .statement s ∧ Evaluated E fs s.kids x.children := by
  cases s with
  | and kids =>
    obtain ⟨o, ho, hx⟩ := bind_eq_ok.mp hx
    cases hx
    exact .inr ⟨fun f => Statement.noConfusion, rfl, evaluated_and ho⟩
  | or kids =>
    obtain ⟨o, ho, hx⟩ := bind_eq_ok.mp hx
    cases hx
    exact .inr ⟨fun f => Statement.noConfusion, rfl, evaluated_or ho⟩
  | not s =>
    obtain ⟨cr, hcr, hx⟩ := bind_eq_ok.mp hx
    cases hx
    exact .inr ⟨fun f => Statement.noConfusion, rfl, .cons hcr .nil⟩
  | someOf n kids =>
    obtain ⟨o, ho, hx⟩ := bind_eq_ok.mp hx
    cases hx
    exact .inr ⟨fun f => Statement.noConfusion, rfl, evaluated_some ho⟩
  | range f min max =>
    cases hx
    refine .inr ⟨fun f => Statement.noConfusion, ?_⟩
    unfold evaluateRange
    dsimp only
    split_ifs <;> exact ⟨rfl, .nil⟩
  | subscope scope s => exact nomatch hx
  | feature f =>
    cases hx
    exact .inl ⟨f, rfl, rfl⟩

end Children

/-! ### The results of features -/

section Features

variable {E : RegexEngine} {fs : FeatureSet}

/-- The result of a feature points to the feature and has no children. -/
def OfFeature (f : Feature) (x : Result) : Prop := x.node = .feature f ∧ x.children = []

theorem ofFeature_lookup (f : Feature) : OfFeature f (f.evaluateLookup fs) := by
  unfold Feature.evaluateLookup
  split
  · exact ⟨rfl, rfl⟩
  · exact ⟨rfl, rfl⟩

theorem ofFeature_os (f : Feature) (value : Str) (sc : Bool) :
    OfFeature f (f.evaluateOs value fs sc) := by
  unfold Feature.evaluateOs
  split_ifs
  · exact ⟨rfl, (ofFeature_lookup anyOs).2⟩
  · exact ⟨rfl, rfl⟩

theorem ofFeature_evaluate (f : Feature) (sc : Bool) : OfFeature f (f.evaluate E fs sc) := by
  unfold Feature.evaluate
  split
  · exact ⟨rfl, rfl⟩
  · dsimp only
    split_ifs
    · exact ⟨rfl, rfl⟩
    · exact ⟨rfl, rfl⟩
  · exact ⟨rfl, rfl⟩
  · dsimp only
    split_ifs
    · exact ofFeature_lookup f
    · exact ofFeature_os f _ sc
  · exact ofFeature_lookup f

/-- All features of a name look up the same entry of a set. -/
theorem evaluate_of_matchedName {f g : Feature} {name : Str} (hf : f.matchedName? = some name)
    (hg : g.matchedName? = some name) :
    (f.evaluate E fs false).success = (g.evaluate E fs false).success ∧
      (f.evaluate E fs false).locations = (g.evaluate E fs false).locations := by
  have hvalue {f : Feature} (hf : f.matchedName? = some name) :
      f.evaluate E fs false = f.evaluateLookup fs := by
    rw [Feature.evaluate, Feature.matchedName?_eq_some_iff.mp hf]
  have hkey {f : Feature} (hf : f.matchedName? = some name) :
      fs.find f = fs.find (Feature.matchedRule name) :=
    FeatureSet.find_congr (BEq.symm ((Feature.matchedRule_beq_iff name f).mpr
      (Feature.matchedName?_eq_some_iff.mp hf))) fs
  rw [hvalue hf, hvalue hg, Feature.evaluateLookup, Feature.evaluateLookup, hkey hf, hkey hg]
  cases fs.find (Feature.matchedRule name) <;> exact ⟨rfl, rfl⟩

end Features

/-! ### Where the match features are -/

/-- A result some levels below another. -/
inductive Inside : ℕ → Result → Result → Prop
  | self (x : Result) : Inside 0 x x
  | child {d : ℕ} {x c y : Result} (hc : c ∈ x.children) (h : Inside d c y) : Inside (d + 1) x y

theorem Inside.extend {d : ℕ} {x y c : Result} (h : Inside d x y) (hc : c ∈ y.children) :
    Inside (d + 1) x c := by
  induction h with
  | self x => exact .child hc (.self c)
  | child hmem _ ih => exact .child hmem (ih hc)

/-- A match feature of a name stands at a depth of a statement. -/
inductive TestsAt (name : Str) : ℕ → Statement → Prop
  | feature {f : Feature} (hf : f.matchedName? = some name) : TestsAt name 0 (.feature f)
  | kid {d : ℕ} {s t : Statement} (ht : some t ∈ s.kids) (h : TestsAt name d t) :
      TestsAt name (d + 1) s

theorem TestsAt.mem_collectMatchRefs {name : Str} {d : ℕ} {s : Statement} (h : TestsAt name d s) :
    name ∈ collectMatchRefs s := by
  induction h with
  | @feature f hf =>
    change name ∈ f.matchedName?.toList
    rw [hf]
    exact List.mem_singleton_self name
  | kid ht _ ih => exact collectMatchRefs_of_mem_kids ht ih

theorem TestsAt.le_height {name : Str} {d : ℕ} {s : Statement} (h : TestsAt name d s) :
    d ≤ s.height := by
  induction h with
  | feature hf => exact Nat.zero_le _
  | kid ht _ ih => exact (Nat.succ_le_succ ih).trans (height_of_mem_kids ht)

section Mirror

variable {E : RegexEngine} {fs : FeatureSet} {name : Str} {d : ℕ} {s : Statement} {x : Result}

/-- A match feature in a result is one of the statement, at the same depth. -/
theorem testsAt_of_inside {y : Result} {f : Feature} (h : Inside d x y)
    (hx : s.evaluate E fs false = .ok x) (hy : y.node = .feature f)
    (hf : f.matchedName? = some name) : TestsAt name d s ∧ y = f.evaluate E fs false := by
  induction h generalizing s with
  | self x =>
    rcases evaluate_cases hx with ⟨g, rfl, rfl⟩ | ⟨-, hnode, -⟩
    · obtain rfl : g = f := ResultNode.feature.inj ((ofFeature_evaluate g false).1.symm.trans hy)
      exact ⟨.feature hf, rfl⟩
    · exact nomatch hnode.symm.trans hy
  | child hc _ ih =>
    rcases evaluate_cases hx with ⟨g, -, rfl⟩ | ⟨-, -, hkids⟩
    · rw [(ofFeature_evaluate g false).2] at hc
      exact absurd hc List.not_mem_nil
    · obtain ⟨t, ht, heval⟩ := hkids.exists_kid _ hc
      obtain ⟨htests, heq⟩ := ih heval hy
      exact ⟨.kid ht htests, heq⟩

/-- A match feature of the statement has its result at the same depth. -/
theorem inside_of_testsAt (h : TestsAt name d s) (hx : s.evaluate E fs false = .ok x) :
    ∃ f : Feature, f.matchedName? = some name ∧ Inside d x (f.evaluate E fs false) := by
  induction h generalizing x with
  | @feature f hf =>
    cases hx
    exact ⟨f, hf, .self _⟩
  | kid ht _ ih =>
    rcases evaluate_cases hx with ⟨g, rfl, -⟩ | ⟨-, -, hkids⟩
    · exact absurd ht List.not_mem_nil
    · obtain ⟨c, hc, heval⟩ := hkids.exists_result _ ht
      obtain ⟨f, hf, hinside⟩ := ih heval
      exact ⟨f, hf, .child hc hinside⟩

end Mirror

end Papa.Engine
