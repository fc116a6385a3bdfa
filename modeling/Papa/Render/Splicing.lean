import Papa.Capabilities.Feeding
import Papa.Engine.ResultTree
import Papa.Render.MatchTree

/-!
# Splicing and the order of the rules

In an analysis a match feature of a result was injected for an earlier rule, but what is spliced in
below it are the results of every rule the name stands for, at the same place and in any scope. With
names of rules only the two are the same, and no result is spliced in beneath itself. A namespace
stands for rules that come later as well, and for the rule that refers to it.

## Main definitions

* `RefersTo`, `ChainLength`: the references between recorded results, and the lengths of their
  chains.
* `PullsIn`: a rule whose results may be spliced in below those of another.
* `ShortReferences`: no chain of rules is too high.

## Main results

* `buildMatch_cutFree_iff`: when the depth limit does not show in the trees of an analysis.
-/

namespace Papa.Render

open Features Features.Extractors Engine Rules Capabilities

/-! ### The names a result tests -/

/-- The successful match features of a tree of results test names of a set, and the tree is not
higher than a number. -/
def Within (N : Set Str) : ℕ → Result → Prop
  | 0, x => (∀ name, matchedName x = some name → name ∈ N) ∧ x.children = []
  | h + 1, x => (∀ name, matchedName x = some name → name ∈ N) ∧ ∀ c ∈ x.children, Within N h c

section Within

variable {N : Set Str} {x : Result} {h : ℕ}

theorem Within.matched (hx : Within N h x) {name : Str} (hname : matchedName x = some name) :
    name ∈ N := by
  cases h with
  | zero => exact hx.1 name hname
  | succ h => exact hx.1 name hname

/-- A child stands lower. -/
theorem Within.child (hx : Within N h x) {c : Result} (hc : c ∈ x.children) :
    ∃ h', h = h' + 1 ∧ Within N h' c := by
  cases h with
  | zero =>
    rw [hx.2] at hc
    exact absurd hc List.not_mem_nil
  | succ h => exact ⟨h, rfl, hx.2 c hc⟩

theorem Within.mono {M : Set Str} (hNM : N ⊆ M) {k : ℕ} (hle : h ≤ k) (hx : Within N h x) :
    Within M k x := by
  induction k generalizing h x with
  | zero =>
    obtain rfl := Nat.le_zero.mp hle
    exact ⟨fun name hname => hNM (hx.1 name hname), hx.2⟩
  | succ k ih =>
    refine ⟨fun name hname => hNM (hx.matched hname), fun c hc => ?_⟩
    obtain ⟨h', rfl, hc'⟩ := hx.child hc
    exact ih (Nat.le_of_succ_le_succ hle) hc'

end Within

/-- The names a rule can test on a set. -/
def testedNames (s : Statement) (fs : FeatureSet) : Set Str :=
  {name | name ∈ collectMatchRefs s ∧ fs.has (Feature.matchedRule name)}

section Tested

variable {E : RegexEngine} {fs : FeatureSet}

/-- A feature that tests a name succeeds when the set has the name. -/
theorem within_feature (f : Feature) (sc : Bool) :
    Within (testedNames (.feature f) fs) 0 (f.evaluate E fs sc) := by
  obtain ⟨hnode, hchildren⟩ : OfFeature f (f.evaluate E fs sc) := ofFeature_evaluate f sc
  refine ⟨fun name hname => ?_, hchildren⟩
  rw [matchedName, hnode] at hname
  dsimp only at hname
  split_ifs at hname with hsuccess
  refine ⟨?_, ?_⟩
  · change name ∈ f.matchedName?.toList
    rw [hname]
    exact List.mem_singleton_self name
  · have hvalue := Feature.matchedName?_eq_some_iff.mp hname
    rw [Feature.evaluate_success, Feature.matchesSet, hvalue] at hsuccess
    rw [FeatureSet.has_congr ((Feature.matchedRule_beq_iff name f).mpr hvalue)]
    exact hsuccess

/-- The nodes of a statement other than a feature test no name themselves. -/
theorem within_statement {N : Set Str} {s : Statement} {x : Result} {h : ℕ}
    (hnode : x.node = .statement s) (hchildren : ∀ c ∈ x.children, ∃ k, k + 1 ≤ h ∧ Within N k c) :
    Within N h x := by
  have hmatched : ∀ name, matchedName x = some name → name ∈ N := by
    intro name hname
    rw [matchedName, hnode] at hname
    exact nomatch hname
  cases h with
  | zero =>
    refine ⟨hmatched, List.eq_nil_iff_forall_not_mem.mpr fun c hc => ?_⟩
    obtain ⟨k, hle, -⟩ := hchildren c hc
    exact absurd hle (Nat.not_succ_le_zero k)
  | succ h =>
    refine ⟨hmatched, fun c hc => ?_⟩
    obtain ⟨k, hle, hwithin⟩ := hchildren c hc
    exact hwithin.mono subset_rfl (Nat.le_of_succ_le_succ hle)

/-- **What a result tests**: names its statement references and the set has. -/
theorem within_evaluate (s : Statement) {x : Result} (hx : s.evaluate E fs false = .ok x) :
    Within (testedNames s fs) s.height x := by
  induction s using Statement.kidsInduction generalizing x with
  | h s ih =>
    rcases evaluate_cases hx with ⟨f, rfl, rfl⟩ | ⟨-, hnode, hkids⟩
    · exact within_feature f false
    · refine within_statement hnode fun c hc => ?_
      obtain ⟨t, ht, heval⟩ := hkids.exists_kid c hc
      have hsub : testedNames t fs ⊆ testedNames s fs :=
        fun _ hname => ⟨collectMatchRefs_of_mem_kids ht hname.1, hname.2⟩
      exact ⟨t.height, height_of_mem_kids ht, (ih t ht heval).mono hsub le_rfl⟩

end Tested

/-! ### What is spliced in -/

section Spliced

variable {rs : RuleSet} {results : MatchResults} {order : AddressSort}

/-- The first result recorded for a rule at a place. -/
def FirstAt (results : MatchResults) (s : Rule) (loc : Address) (y : Result) : Prop :=
  ∃ before addr after, entries s.name results = before ++ (addr, y) :: after ∧
    linearize addr = linearize loc ∧ ∀ e ∈ before, linearize e.1 ≠ linearize loc

theorem mem_spliceRule_iff {locs : List Address} {s : Rule} {y : Result} :
    y ∈ spliceRule results locs s.name ↔ ∃ loc ∈ locs, FirstAt results s loc y := by
  simp only [spliceRule, List.mem_filterMap, Option.map_eq_some_iff,
    List.find?_eq_some_iff_append, FirstAt, entries, decide_eq_true_eq, Bool.not_eq_true',
    decide_eq_false_iff_not]
  constructor
  · rintro ⟨loc, hloc, ⟨addr, x⟩, ⟨hlin, before, after, heq, hbefore⟩, rfl⟩
    exact ⟨loc, hloc, before, addr, after, heq, hlin, fun e he => hbefore e he⟩
  · rintro ⟨loc, hloc, before, addr, after, heq, hlin, hbefore⟩
    exact ⟨loc, hloc, (addr, y), ⟨hlin, before, after, heq, fun e he => hbefore e he⟩, rfl⟩

theorem mem_splicedNames_iff (h : rs.Built) {ref name : Str} :
    name ∈ splicedNames rs ref ↔ ∃ s ∈ rs.rules, s.name = name ∧ ResolvesTo rs.rules ref s := by
  rw [splicedNames]
  cases hfind : rs.find ref with
  | some rule =>
    obtain ⟨hrule, hrulename⟩ := h.indexed.get?_byName_iff.mp hfind
    rw [List.mem_singleton]
    constructor
    · rintro rfl
      exact ⟨rule, hrule, hrulename, .inl hrulename⟩
    · rintro ⟨s, -, rfl, hname | ⟨hnone, -⟩⟩
      · exact hname
      · exact absurd hrulename (hnone rule hrule)
  | none =>
    have hnone := h.indexed.get?_byName_eq_none_iff.mp hfind
    rw [List.mem_map]
    constructor
    · rintro ⟨s, hs, rfl⟩
      obtain ⟨hmem, hspace⟩ := h.indexed.mem_byNamespace_iff.mp hs
      exact ⟨s, hmem, rfl, .inr ⟨hnone, hspace⟩⟩
    · rintro ⟨s, hs, rfl, hname | ⟨-, hspace⟩⟩
      · exact absurd hname (hnone s hs)
      · exact ⟨s, h.indexed.mem_byNamespace_iff.mpr ⟨hs, hspace⟩, rfl⟩

/-- **What is spliced in below a result**: the first results of the rules its name stands for, where
the name was found. -/
theorem mem_spliced_iff (h : rs.Built) {x y : Result} :
    y ∈ spliced rs results order x ↔ ∃ name, matchedName x = some name ∧
      ∃ s ∈ rs.rules, ResolvesTo rs.rules name s ∧
        ∃ loc ∈ x.locations, FirstAt results s loc y := by
  rw [spliced]
  cases matchedName x with
  | none => simp
  | some ref =>
    simp only [Option.some.injEq, exists_eq_left', List.mem_flatMap, mem_splicedNames_iff h]
    constructor
    · rintro ⟨name, ⟨s, hs, rfl, hresolves⟩, hy⟩
      obtain ⟨loc, hloc, hfirst⟩ := mem_spliceRule_iff.mp hy
      exact ⟨s, hs, hresolves, loc, (order.mem_sort _ _).mp hloc, hfirst⟩
    · rintro ⟨s, hs, hresolves, loc, hloc, hfirst⟩
      exact ⟨s.name, ⟨s, hs, rfl, hresolves⟩,
        mem_spliceRule_iff.mpr ⟨loc, (order.mem_sort _ _).mpr hloc, hfirst⟩⟩

/-- A first result is recorded. -/
theorem FirstAt.exists_mem {s : Rule} {loc : Address} {y : Result} (h : FirstAt results s loc y) :
    ∃ e ∈ results, e.1 = s.name ∧ ∃ p ∈ e.2, p.2 = y := by
  obtain ⟨before, addr, after, heq, -⟩ := h
  have hmem : (addr, y) ∈ entries s.name results :=
    heq ▸ List.mem_append_right _ List.mem_cons_self
  rw [entries] at hmem
  cases hget : AssocList.get? s.name results with
  | none =>
    rw [hget] at hmem
    exact absurd hmem List.not_mem_nil
  | some l =>
    rw [hget] at hmem
    exact ⟨_, AssocList.mem_of_get?_eq_some hget, rfl, _, hmem, rfl⟩

end Spliced

/-! ### References between results -/

theorem matchedName_eq_some_iff {x : Result} {name : Str} :
    matchedName x = some name ↔
      x.success ∧ ∃ f, x.node = .feature f ∧ f.matchedName? = some name := by
  rw [matchedName]
  cases hnode : x.node with
  | none => simp
  | statement s => simp
  | feature f =>
    simp only [ResultNode.feature.injEq, exists_eq_left']
    split_ifs with hsuccess
    · simp [hsuccess]
    · simp [hsuccess]

section References

variable (rs : RuleSet) (results : MatchResults)

/-- A successful match feature of a name in the tree of a result. -/
def Finds (x : Result) (name : Str) (z : Result) : Prop :=
  matchedName z = some name ∧ ∃ d, Inside d x z

/-- A result refers to another by a name: the name stands for the rule of the other, and was found
at a place where the other is the first result of its rule. -/
def RefersTo (x : Result) (name : Str) (s : Rule) (y : Result) : Prop :=
  s ∈ rs.rules ∧ ResolvesTo rs.rules name s ∧
    ∃ z, Finds x name z ∧ ∃ loc ∈ z.locations, FirstAt results s loc y

/-- A result has a name of a subscope rule. -/
def ShowsSubscope (x : Result) (name : Str) : Prop :=
  (∃ z, Finds x name z) ∧ ∃ s ∈ rs.rules, s.name = name ∧ s.info.isSubscopeRule

/-- The lengths of the chains of references from a result of a rule. A reference counts the depth of
its match feature in the statement of the rule, and one more if the chain goes on below it. -/
inductive ChainLength : Rule → Result → ℕ → Prop
  | refers {r s : Rule} {x y : Result} {name : Str} {d : ℕ}
      (htests : TestsAt name d r.statement) (hrefers : RefersTo rs results x name s y) :
      ChainLength r x d
  | subscope {r : Rule} {x : Result} {name : Str} {d : ℕ}
      (htests : TestsAt name d r.statement) (hshows : ShowsSubscope rs x name) :
      ChainLength r x d
  | step {r s : Rule} {x y : Result} {name : Str} {d n : ℕ}
      (htests : TestsAt name d r.statement) (hrefers : RefersTo rs results x name s y)
      (h : ChainLength s y n) : ChainLength r x (d + 1 + n)

end References

section References

variable {rs : RuleSet} {results : MatchResults} {order : AddressSort} {E : RegexEngine}

theorem chain_of_inside {d : ℕ} {x y : Result} (h : Inside d x y) :
    Chain rs results order d x y := by
  induction h with
  | self x => exact .nil x
  | child hc _ ih => exact .cons (List.mem_append_left _ hc) ih

/-- A first result is a full evaluation of its rule. -/
theorem FirstAt.evaluated (h : rs.Built) (hrecorded : Recorded E rs results) {s : Rule}
    (hs : s ∈ rs.rules) {loc : Address} {y : Result} (hy : FirstAt results s loc y) :
    ∃ fs, s.statement.evaluate E fs false = .ok y := by
  obtain ⟨e, he, hname, p, hp, rfl⟩ := hy.exists_mem
  obtain ⟨r, hr, hrname, hentries⟩ := hrecorded e he
  obtain rfl : r = s := h.indexed.eq_of_name hr hs (hrname.trans hname)
  obtain ⟨fs, -, heval⟩ := hentries p hp
  exact ⟨fs, heval⟩

/-- What a match feature of the statement finds is what any of its name in the tree found. -/
theorem exists_found {s : Statement} {fs : FeatureSet} {x z : Result} {name : Str} {d : ℕ}
    (hx : s.evaluate E fs false = .ok x) (htests : TestsAt name d s) (hz : Finds x name z) :
    ∃ y, Inside d x y ∧ matchedName y = some name ∧ y.locations = z.locations := by
  obtain ⟨hzname, k, hk⟩ := hz
  obtain ⟨hsuccess, f, hnode, hf⟩ := matchedName_eq_some_iff.mp hzname
  obtain ⟨-, rfl⟩ := testsAt_of_inside hk hx hnode hf
  obtain ⟨g, hg, hinside⟩ := inside_of_testsAt htests hx
  obtain ⟨hsame, hlocs⟩ := @evaluate_of_matchedName E fs _ _ _ hg hf
  exact ⟨_, hinside, matchedName_eq_some_iff.mpr
    ⟨hsame.trans hsuccess, g, (ofFeature_evaluate g false).1, hg⟩, hlocs⟩

/-- **A chain of steps to a result that expands** goes along references. -/
theorem chainLength_of_chain (h : rs.Built) (hrecorded : Recorded E rs results) {n : ℕ}
    {z y : Result} (hchain : Chain rs results order n z y) (hy : Expands rs results order y)
    {r : Rule} {x : Result} {fs : FeatureSet} (hx : r.statement.evaluate E fs false = .ok x)
    {d : ℕ} (hz : Inside d x z) : ChainLength rs results r x (d + n) := by
  have htests {z : Result} {d : ℕ} {name : Str} {x : Result} {r : Rule} {fs : FeatureSet}
      (hx : r.statement.evaluate E fs false = .ok x) (hz : Inside d x z)
      (hname : matchedName z = some name) : TestsAt name d r.statement := by
    obtain ⟨-, f, hnode, hf⟩ := matchedName_eq_some_iff.mp hname
    exact (testsAt_of_inside hz hx hnode hf).1
  induction hchain generalizing r x d fs with
  | nil z =>
    obtain ⟨name, hname, hspliced | ⟨rule, hrule, hsub⟩⟩ := hy
    · obtain ⟨w, hw⟩ := List.exists_mem_of_ne_nil _ hspliced
      obtain ⟨name', hname', s, hs, hresolves, loc, hloc, hfirst⟩ := (mem_spliced_iff h).mp hw
      exact .refers (htests hx hz hname') ⟨hs, hresolves, z, ⟨hname', d, hz⟩, loc, hloc, hfirst⟩
    · obtain ⟨hmem, hrulename⟩ := h.indexed.get?_byName_iff.mp hrule
      exact .subscope (htests hx hz hname) ⟨⟨z, hname, d, hz⟩, rule, hmem, hrulename, hsub⟩
  | @cons n z w y hw _ ih =>
    rcases List.mem_append.mp hw with hchild | hspliced
    · have hlength := ih hy hx (hz.extend hchild)
      rwa [Nat.add_right_comm, Nat.add_assoc] at hlength
    · obtain ⟨name, hname, s, hs, hresolves, loc, hloc, hfirst⟩ := (mem_spliced_iff h).mp hspliced
      obtain ⟨gs, heval⟩ := hfirst.evaluated h hrecorded hs
      have hlength := ChainLength.step (htests hx hz hname)
        ⟨hs, hresolves, z, ⟨hname, d, hz⟩, loc, hloc, hfirst⟩ (ih hy heval (.self w))
      rwa [Nat.zero_add, Nat.add_assoc, Nat.add_comm 1 n] at hlength

variable (order) in
/-- What a result refers to is spliced in below the match features of the name. -/
theorem RefersTo.exists_spliced (h : rs.Built) {r s : Rule} {x y : Result} {name : Str}
    (hrefers : RefersTo rs results x name s y) {fs : FeatureSet}
    (hx : r.statement.evaluate E fs false = .ok x) {d : ℕ} (htests : TestsAt name d r.statement) :
    ∃ w, Inside d x w ∧ matchedName w = some name ∧ y ∈ spliced rs results order w := by
  obtain ⟨hs, hresolves, z, hz, loc, hloc, hfirst⟩ := hrefers
  obtain ⟨w, hw, hname, hlocs⟩ := exists_found hx htests hz
  exact ⟨w, hw, hname,
    (mem_spliced_iff h).mpr ⟨name, hname, s, hs, hresolves, loc, hlocs ▸ hloc, hfirst⟩⟩

/-- **A chain of references** is a chain of steps of its length to a result that expands. -/
theorem exists_chain_of_chainLength (h : rs.Built) (hrecorded : Recorded E rs results) {r : Rule}
    {x : Result} {n : ℕ} (hlength : ChainLength rs results r x n) {fs : FeatureSet}
    (hx : r.statement.evaluate E fs false = .ok x) :
    ∃ y, Chain rs results order n x y ∧ Expands rs results order y := by
  induction hlength generalizing fs with
  | refers htests hrefers =>
    obtain ⟨w, hw, hname, hspliced⟩ := hrefers.exists_spliced order h hx htests
    exact ⟨w, chain_of_inside hw, _, hname, .inl (List.ne_nil_of_mem hspliced)⟩
  | subscope htests hshows =>
    obtain ⟨⟨z, hz⟩, s, hs, hsname, hsub⟩ := hshows
    obtain ⟨w, hw, hname, -⟩ := exists_found hx htests hz
    exact ⟨w, chain_of_inside hw, _, hname,
      .inr ⟨s, h.indexed.get?_byName_iff.mpr ⟨hs, hsname⟩, hsub⟩⟩
  | step htests hrefers _ ih =>
    obtain ⟨w, hw, -, hspliced⟩ := hrefers.exists_spliced order h hx htests
    obtain ⟨hs, -, -, -, loc, -, hfirst⟩ := hrefers
    obtain ⟨gs, heval⟩ := hfirst.evaluated h hrecorded hs
    obtain ⟨y, hchain, hy⟩ := ih heval
    refine ⟨y, ?_, hy⟩
    rw [Nat.add_assoc, Nat.add_comm 1]
    exact (chain_of_inside hw).append (.cons (List.mem_append_right _ hspliced) hchain)

end References

/-! ### Chains of rules -/

section Rules

variable (rs : RuleSet)

/-- The results of a rule may be spliced in below those of another: an earlier rule bears a name the
other references, and the name stands for the rule. -/
def PullsIn (r s : Rule) : Prop :=
  ∃ name ∈ collectMatchRefs r.statement,
    Feeds rs r name ∧ s ∈ rs.rules ∧ ResolvesTo rs.rules name s

/-- The height of a rule's results, and the step into them. -/
def reach (r : Rule) : ℕ := r.statement.height + 1

/-- No chain of rules that pull in one another is as high as the depth limit. -/
def ShortReferences : Prop :=
  ∀ chain : List Rule, (∀ r ∈ chain, r ∈ rs.rules) → chain.IsChain (PullsIn rs) →
    (chain.map reach).sum ≤ kMaxMatchDepth

/-- A rule pulls in earlier rules only. -/
def PullsInEarlier : Prop := ∀ r ∈ rs.rules, ∀ s, PullsIn rs r s → Earlier rs s r

/-- The names a rule references that some earlier rule bears. -/
def fedNames (r : Rule) : Set Str := {name | name ∈ collectMatchRefs r.statement ∧ Feeds rs r name}

/-- The results are trees over the fed names of their rules. -/
def Trees (results : MatchResults) : Prop :=
  ∀ e ∈ results, ∃ r ∈ rs.rules, r.name = e.1 ∧
    ∀ p ∈ e.2, Within (fedNames rs r) r.statement.height p.2

end Rules

section Chains

variable {rs : RuleSet} {results : MatchResults} {order : AddressSort}

theorem trees_of_fed {E : RegexEngine} {k : ℕ} (h : RecordedOn (FedBelow rs k) E rs results) :
    Trees rs results := by
  intro e he
  obtain ⟨r, hr, hname, hentries⟩ := h e he
  refine ⟨r, hr, hname, fun p hp => ?_⟩
  obtain ⟨fs, hfs, heval⟩ := hentries p hp
  have hsub : testedNames r.statement fs ⊆ fedNames rs r :=
    fun name hname => ⟨hname.1, hfs.2 name hname.2⟩
  exact (within_evaluate r.statement heval).mono hsub le_rfl

/-- What is spliced in below a result of a rule are results of rules it pulls in. -/
theorem exists_pullsIn (h : rs.Built) (htrees : Trees rs results) {r : Rule} {x y : Result}
    {k : ℕ} (hx : Within (fedNames rs r) k x) (hy : y ∈ spliced rs results order x) :
    ∃ s, PullsIn rs r s ∧ Within (fedNames rs s) s.statement.height y := by
  obtain ⟨ref, hname, s, hs, hresolves, loc, -, hfirst⟩ := (mem_spliced_iff h).mp hy
  obtain ⟨e, he, hkey, p, hp, rfl⟩ := hfirst.exists_mem
  obtain ⟨s', hs', hname', hentries⟩ := htrees e he
  obtain rfl : s' = s := h.indexed.eq_of_name hs' hs (hname'.trans hkey)
  obtain ⟨href, hfed⟩ := hx.matched hname
  exact ⟨s', ⟨ref, href, hfed, hs, hresolves⟩, hentries p hp⟩

/-- **A chain of results goes along a chain of rules** that is at least as high. -/
theorem exists_rules_of_chain (h : rs.Built) (htrees : Trees rs results) {n : ℕ} {x y : Result}
    (hchain : Chain rs results order n x y) {r : Rule} {k : ℕ} (hx : Within (fedNames rs r) k x) :
    ∃ rest : List Rule, (r :: rest).IsChain (PullsIn rs) ∧ n ≤ k + (rest.map reach).sum := by
  induction hchain generalizing r k with
  | nil x => exact ⟨[], List.isChain_singleton r, Nat.zero_le _⟩
  | @cons n x y z hy _ ih =>
    rcases List.mem_append.mp hy with hchild | hspliced
    · obtain ⟨k', rfl, hy'⟩ := hx.child hchild
      obtain ⟨rest, hrest, hle⟩ := ih hy'
      exact ⟨rest, hrest, by omega⟩
    · obtain ⟨s, hs, hy'⟩ := exists_pullsIn h htrees hx hspliced
      obtain ⟨rest, hrest, hle⟩ := ih hy'
      refine ⟨s :: rest, hrest.cons_cons hs, ?_⟩
      rw [List.map_cons, List.sum_cons, reach]
      omega

theorem mem_rules_of_isChain {r : Rule} (hr : r ∈ rs.rules) {rest : List Rule}
    (hchain : (r :: rest).IsChain (PullsIn rs)) : ∀ s ∈ r :: rest, s ∈ rs.rules := by
  induction rest generalizing r with
  | nil =>
    intro s hs
    rwa [List.mem_singleton.mp hs]
  | cons s rest ih =>
    obtain ⟨⟨name, -, -, hs, -⟩, htail⟩ := List.isChain_cons_cons.mp hchain
    intro t ht
    rcases List.mem_cons.mp ht with rfl | ht
    · exact hr
    · exact ih hs htail t ht

/-- The chains from the results of a corpus with short references are short. -/
theorem chain_lt (h : rs.Built) (htrees : Trees rs results) (hshort : ShortReferences rs)
    {e : Str × List (Address × Result)} (he : e ∈ results) {p : Address × Result} (hp : p ∈ e.2)
    {n : ℕ} {y : Result} (hchain : Chain rs results order n p.2 y) : n < kMaxMatchDepth := by
  obtain ⟨r, hr, -, hentries⟩ := htrees e he
  obtain ⟨rest, hrest, hle⟩ := exists_rules_of_chain h htrees hchain (hentries p hp)
  have hsum := hshort (r :: rest) (mem_rules_of_isChain hr hrest) hrest
  rw [List.map_cons, List.sum_cons, reach] at hsum
  omega

/-- A chain of rules that pull in earlier ones has no rule twice. -/
theorem nodup_of_isChain (hearlier : PullsInEarlier rs) {chain : List Rule}
    (hmem : ∀ r ∈ chain, r ∈ rs.rules) (hchain : chain.IsChain (PullsIn rs)) : chain.Nodup := by
  have htrans : IsTrans Rule fun r s => Earlier rs s r :=
    ⟨fun _ _ _ hab hbc => Earlier.trans hbc hab⟩
  have hdown : chain.IsChain fun r s => Earlier rs s r := by
    refine List.IsChain.imp_of_mem_imp (fun r s hr _ hpulls => ?_) hchain
    exact hearlier r (hmem r hr) s hpulls
  refine hdown.pairwise.imp fun hlt heq => ?_
  subst heq
  exact Earlier.irrefl _ hlt

/-- The chains from the results of a corpus whose rules pull in earlier ones are bounded. -/
theorem chain_lt_sum (h : rs.Built) (htrees : Trees rs results) (hearlier : PullsInEarlier rs)
    {e : Str × List (Address × Result)} (he : e ∈ results) {p : Address × Result} (hp : p ∈ e.2)
    {n : ℕ} {y : Result} (hchain : Chain rs results order n p.2 y) :
    n < (rs.rules.map reach).sum := by
  obtain ⟨r, hr, -, hentries⟩ := htrees e he
  obtain ⟨rest, hrest, hle⟩ := exists_rules_of_chain h htrees hchain (hentries p hp)
  have hmem := mem_rules_of_isChain hr hrest
  have hsub := List.subperm_of_subset (nodup_of_isChain hearlier hmem hrest) hmem
  obtain ⟨l, hperm, hsublist⟩ := hsub
  have hsum : ((r :: rest).map reach).sum ≤ (rs.rules.map reach).sum := by
    rw [← (hperm.map reach).sum_eq]
    exact (hsublist.map reach).sum_le_sum fun _ _ => Nat.zero_le _
  rw [List.map_cons, List.sum_cons, reach] at hsum
  omega

end Chains

/-- References that are names of rules and no namespaces pull in earlier rules only. -/
theorem pullsInEarlier_of_named {rs : RuleSet} (h : rs.Built)
    (hnamed : ∀ r ∈ rs.rules, ∀ ref ∈ collectMatchRefs r.statement,
      ∀ d ∈ rs.rules, ref ∉ d.namespaceHierarchy) : PullsInEarlier rs := by
  rintro r hr s ⟨ref, href, ⟨d, hd, hinjected, hlt⟩, hs, hresolves⟩
  have hnot := hnamed r hr ref href
  have hdname : d.name = ref :=
    ((List.mem_cons.mp hinjected).resolve_right (hnot d hd)).symm
  have hsname : s.name = ref := hresolves.resolve_right fun hspace => hnot s hs hspace.2
  obtain rfl : d = s := h.indexed.eq_of_name hd hs (hdname.trans hsname.symm)
  exact hlt

/-! ### The trees of an analysis -/

/-- The tree of a result is built to its end: the depth limit does not show in it, and no result is
below itself. -/
def TreeEnds (rs : RuleSet) (results : MatchResults) (order : AddressSort) (x : Result) : Prop :=
  (∀ limit, kMaxMatchDepth ≤ limit →
    buildFrom rs results order limit x = buildMatch rs results order 0 x) ∧
  ∀ i y, Chain rs results order i x y → ∀ n, ¬Chain rs results order (n + 1) y y

theorem treeEnds_iff {rs : RuleSet} {results : MatchResults} {order : AddressSort} {x : Result} :
    TreeEnds rs results order x ↔
      ∀ n y, kMaxMatchDepth ≤ n → Chain rs results order n x y → ¬Expands rs results order y := by
  rw [← cutFree_iff]
  exact ⟨fun h => h.1, fun h => ⟨h, fun _ _ hy _ => not_chain_self h hy⟩⟩

/-- The tree of a result of a rule ends when no chain of references from it is too long. -/
theorem treeEnds_iff_chainLength {rs : RuleSet} (h : rs.Built) {results : MatchResults}
    {E : RegexEngine} (hrecorded : Recorded E rs results) {order : AddressSort} {r : Rule}
    {fs : FeatureSet} {x : Result} (hx : r.statement.evaluate E fs false = .ok x) :
    TreeEnds rs results order x ↔ ∀ n, ChainLength rs results r x n → n < kMaxMatchDepth := by
  rw [treeEnds_iff]
  constructor
  · intro hends n hlength
    obtain ⟨y, hchain, hy⟩ := exists_chain_of_chainLength h hrecorded hlength hx
    exact Nat.lt_of_not_le fun hle => hends n y hle hchain hy
  · intro hshort n y hle hchain hy
    have hlength := chainLength_of_chain h hrecorded hchain hy hx (.self x)
    rw [Nat.zero_add] at hlength
    exact absurd hle (Nat.not_le.mpr (hshort n hlength))

/-- **The match trees of an analysis**: on every corpus the build accepts, the tree of a recorded
result is built to its end exactly when every chain of references from it, through the statements of
the rules and the places where the names were found, is shorter than the depth limit. If the
extractor lists no match features, short references of the corpus make sure of that for every run,
and as long as rules pull in earlier ones only no result is below itself. -/
theorem buildMatch_cutFree_iff {φ β ι : Type} {rules : List (Option Rule)} {rs : RuleSet}
    (h : RuleSet.fromRules rules = .ok rs) (E : RegexEngine)
    (extractor : StaticFeatureExtractor φ β ι)
    (cachedFileFeatures : Option (List FeatureWithAddress)) (hardwareConcurrency threads : UInt32)
    (run : (n : ℕ) → (body : ℕ → Throws FunctionSlot) → RunOutcome)
    (hrun : WorkersRun hardwareConcurrency threads run) (caps : StaticCapabilities)
    (hcaps : findStaticCapabilities E rs extractor cachedFileFeatures run = .ok caps)
    (order : AddressSort) :
    (∀ e ∈ caps.allMatches, ∃ r ∈ rs.rules, r.name = e.1 ∧ ∀ p ∈ e.2,
      (TreeEnds rs caps.allMatches order p.2 ↔
        ∀ n, ChainLength rs caps.allMatches r p.2 n → n < kMaxMatchDepth)) ∧
    (ListsNoMatches extractor → (∀ l ∈ cachedFileFeatures, NoMatches l) →
      (ShortReferences rs →
        ∀ e ∈ caps.allMatches, ∀ p ∈ e.2, TreeEnds rs caps.allMatches order p.2) ∧
      (PullsInEarlier rs →
        ∀ e ∈ caps.allMatches, ∀ p ∈ e.2, ∀ i y, Chain rs caps.allMatches order i p.2 y →
          ∀ n, ¬Chain rs caps.allMatches order (n + 1) y y)) := by
  have hbuilt := RuleSet.built_of_fromRules h
  have hrecorded := findStaticCapabilities_recorded hbuilt hrun hcaps
  refine ⟨fun e he => ?_, fun hlists hcached => ?_⟩
  · obtain ⟨r, hr, hname, hentries⟩ := hrecorded e he
    refine ⟨r, hr, hname, fun p hp => ?_⟩
    obtain ⟨fs, -, heval⟩ := hentries p hp
    exact treeEnds_iff_chainLength hbuilt hrecorded heval
  have htrees := trees_of_fed (findStaticCapabilities_fed hbuilt hlists hcached hrun hcaps)
  refine ⟨fun hshort e he p hp => ?_, fun hearlier e he p hp i y hy n => ?_⟩
  · refine treeEnds_iff.mpr fun n y hle hchain => ?_
    exact absurd hle (Nat.not_le.mpr (chain_lt hbuilt htrees hshort he hp hchain))
  · have hfree : CutFree rs caps.allMatches order (rs.rules.map reach).sum p.2 :=
      cutFree_iff.mpr fun n y hle hchain =>
        absurd hle (Nat.not_le.mpr (chain_lt_sum hbuilt htrees hearlier he hp hchain))
    exact not_chain_self hfree hy

/-- A file with a section `x` and nothing else. -/
def sectionProgram : Program where
  base := .absoluteVirtual 0x1000
  globals := []
  fileFeatures := [({ value := .section_ (str "x") }, .fileOffset 0)]
  functions := []

/-- A rule that matches it, in a namespace. -/
def sectionRule : Rule :=
  Rule.plain (str "a") .file (some (str "n")) (.feature { value := .section_ (str "x") })

/-- A rule that refers to the namespace it is in. -/
def namespaceRule : Rule :=
  Rule.plain (str "b") .file (some (str "n")) (.feature (Feature.matchedRule (str "n")))

theorem listsNoMatches_sectionProgram : ListsNoMatches sectionProgram.extractor where
  globals l hl := by
    cases hl
    exact fun p hp => absurd hp List.not_mem_nil
  file l hl := by
    cases hl
    intro p hp
    rw [List.mem_singleton.mp hp]
    exact nofun
  functions fhs hfhs := by
    cases hfhs
    exact fun fh hfh => absurd hfh List.not_mem_nil

theorem exists_workersRun : ∃ run, WorkersRun 8 4 run := by
  have hruns n body := exists_runs (resolveWorkerCount 8 4 n).toNat n body
  choose ran run hrun using hruns
  exact ⟨run, fun n body => ⟨ran n body, hrun n body⟩⟩

/-- Where no statement is nested and what a reference stands for has no references, chains of
references have one link. -/
theorem chainLength_eq_zero {rs : RuleSet} {results : MatchResults}
    (hflat : ∀ r ∈ rs.rules, r.statement.height = 0 ∧ ∀ name ∈ collectMatchRefs r.statement,
      ∀ s ∈ rs.rules, name ∈ s.injectedNames → collectMatchRefs s.statement = [])
    {r : Rule} (hr : r ∈ rs.rules) {x : Result} {n : ℕ} (h : ChainLength rs results r x n) :
    n = 0 := by
  have hzero {name : Str} {d : ℕ} (htests : TestsAt name d r.statement) : d = 0 :=
    Nat.le_zero.mp ((hflat r hr).1 ▸ htests.le_height)
  cases h with
  | refers htests _ => exact hzero htests
  | subscope htests _ => exact hzero htests
  | @step _ s _ y name d n htests hrefers h =>
    obtain ⟨hs, hresolves, -⟩ := hrefers
    have hbears : name ∈ s.injectedNames := by
      rcases hresolves with rfl | ⟨-, hspace⟩
      · exact List.mem_cons_self
      · exact List.mem_cons_of_mem _ hspace
    have hnone := (hflat r hr).2 name htests.mem_collectMatchRefs s hs hbears
    have htested : ∃ name, name ∈ collectMatchRefs s.statement := by
      cases h with
      | refers htests _ => exact ⟨_, htests.mem_collectMatchRefs⟩
      | subscope htests _ => exact ⟨_, htests.mem_collectMatchRefs⟩
      | step htests _ _ => exact ⟨_, htests.mem_collectMatchRefs⟩
    obtain ⟨name, hname⟩ := htested
    rw [hnone] at hname
    exact absurd hname List.not_mem_nil

/-- The result of the section rule is spliced in below that of a rule that refers to it, and no
further. -/
theorem buildMatch_cutFree_iff_section :
    let reference := Rule.plain (str "c") .file none (.feature (Feature.matchedRule (str "a")))
    ∃ rs run caps, ∃ order : AddressSort,
      RuleSet.fromRules [some sectionRule, some reference] = .ok rs ∧ WorkersRun 8 4 run ∧
      findStaticCapabilities noRegex rs sectionProgram.extractor none run = .ok caps ∧
      ∀ e ∈ caps.allMatches, ∀ p ∈ e.2, TreeEnds rs caps.allMatches order p.2 ∧
        ∀ i y, Chain rs caps.allMatches order i p.2 y →
          ∀ n, ¬Chain rs caps.allMatches order (n + 1) y y := by
  intro reference
  obtain ⟨rs, h, hflat, hnamed⟩ : ∃ rs,
      RuleSet.fromRules [some sectionRule, some reference] = .ok rs ∧
      (∀ r ∈ rs.rules, r.statement.height = 0 ∧ ∀ name ∈ collectMatchRefs r.statement,
        ∀ s ∈ rs.rules, name ∈ s.injectedNames → collectMatchRefs s.statement = []) ∧
      ∀ r ∈ rs.rules, ∀ name ∈ collectMatchRefs r.statement,
        ∀ s ∈ rs.rules, name ∉ s.namespaceHierarchy := by
    decide +kernel
  obtain ⟨run, hrun⟩ := exists_workersRun
  obtain ⟨order⟩ := exists_addressSort
  have hcached : ∀ features ∈ (none : Option (List FeatureWithAddress)),
      features = sectionProgram.fileFeatures :=
    fun features hmem => absurd hmem (Option.not_mem_none features)
  have hbuilt := RuleSet.built_of_fromRules h
  obtain ⟨caps, hcaps, -⟩ :=
    findStaticCapabilities_program noRegex sectionProgram hbuilt hcached hrun
  obtain ⟨hends, hcorpus⟩ := buildMatch_cutFree_iff h noRegex sectionProgram.extractor none 8 4 run
    hrun caps hcaps order
  refine ⟨rs, run, caps, order, h, hrun, hcaps, fun e he p hp => ⟨?_, ?_⟩⟩
  · obtain ⟨r, hr, -, hiff⟩ := hends e he
    refine (hiff p hp).mpr fun n hlength => ?_
    rw [chainLength_eq_zero hflat hr hlength]
    decide
  · exact (hcorpus listsNoMatches_sectionProgram fun l hl => absurd hl (Option.not_mem_none l)).2
      (pullsInEarlier_of_named hbuilt hnamed) e he p hp

/-- A result whose own entry is spliced in below it is below itself. -/
theorem chain_self_of_entry {rs : RuleSet} {results : MatchResults} (order : AddressSort)
    {name ref : Str} {addr : Address} {x : Result}
    (hentries : entries name results = [(addr, x)]) (href : matchedName x = some ref)
    (hname : name ∈ splicedNames rs ref) (haddr : addr ∈ x.locations) :
    Chain rs results order 1 x x ∧ Expands rs results order x := by
  have hmem : x ∈ spliced rs results order x := by
    rw [spliced, href]
    refine List.mem_flatMap.mpr ⟨name, hname, List.mem_filterMap.mpr ⟨addr, ?_, ?_⟩⟩
    · exact (order.mem_sort _ _).mpr haddr
    · change ((entries name results).find? _).map _ = _
      rw [hentries, List.find?_cons, decide_eq_true rfl]
      rfl
  exact ⟨.cons (List.mem_append_right _ hmem) (.nil x),
    ref, href, .inl (List.ne_nil_of_mem hmem)⟩

/-- The rules of a namespace match a file, one of them through the namespace: its result is spliced
in beneath itself until the depth limit cuts the tree off. -/
theorem not_treeEnds_namespace :
    ∃ rs run caps, RuleSet.fromRules [some sectionRule, some namespaceRule] = .ok rs ∧
      WorkersRun 8 4 run ∧
      findStaticCapabilities noRegex rs sectionProgram.extractor none run = .ok caps ∧
      ∀ order : AddressSort, ∃ e ∈ caps.allMatches, ∃ p ∈ e.2,
        Chain rs caps.allMatches order 1 p.2 p.2 ∧ ¬TreeEnds rs caps.allMatches order p.2 := by
  obtain ⟨rs, h, hone, hname⟩ : ∃ rs,
      RuleSet.fromRules [some sectionRule, some namespaceRule] = .ok rs ∧
      ((entries (str "b") (CodeUnit.file.outcome noRegex rs sectionProgram).2).map fun p =>
        (p.1, matchedName p.2, p.2.locations)) =
          [(.absoluteVirtual 0x1000, some (str "n"), {.absoluteVirtual 0x1000})] ∧
      str "b" ∈ splicedNames rs (str "n") := by
    decide +kernel
  obtain ⟨run, hrun⟩ := exists_workersRun
  have hcached : ∀ features ∈ (none : Option (List FeatureWithAddress)),
      features = sectionProgram.fileFeatures :=
    fun features hmem => absurd hmem (Option.not_mem_none features)
  obtain ⟨caps, hcaps, hentries⟩ := findStaticCapabilities_program noRegex sectionProgram
    (RuleSet.built_of_fromRules h) hcached hrun
  have hfile : entries (str "b") caps.allMatches =
      entries (str "b") (CodeUnit.file.outcome noRegex rs sectionProgram).2 := by
    rw [hentries]
    simp [Program.fnResults, Program.bbResults, Program.insnResults, sectionProgram, mergeResults,
      entries]
  rw [← hfile] at hone
  obtain ⟨⟨addr, x⟩, rest, hcons, hx, hrest⟩ := List.map_eq_cons_iff.mp hone
  obtain ⟨rfl, hx⟩ := Prod.mk.inj hx
  obtain ⟨href, hlocs⟩ := Prod.mk.inj hx
  rw [List.map_eq_nil_iff.mp hrest] at hcons
  refine ⟨rs, run, caps, h, hrun, hcaps, fun order => ?_⟩
  obtain ⟨hself, -⟩ := chain_self_of_entry order hcons href hname
    (hlocs ▸ Finset.mem_singleton_self _)
  cases hget : AssocList.get? (str "b") caps.allMatches with
  | none =>
    rw [entries, hget] at hcons
    exact absurd hcons (List.cons_ne_nil _ _).symm
  | some l =>
    rw [entries, hget] at hcons
    obtain rfl : l = [(.absoluteVirtual 0x1000, x)] := hcons
    exact ⟨_, AssocList.mem_of_get?_eq_some hget, _, List.mem_singleton_self _, hself,
      fun hends => hends.2 0 x (.nil x) 0 hself⟩

end Papa.Render
