import Mathlib.Data.List.Destutter
import Mathlib.Data.List.Lex
import Papa.Capabilities.Static
import Papa.Library.OrderedMap
import Papa.Render.ResultDocument

/-!
# The document of a report

What an analysis found is put together for the renderers: for each rule that matched, its metadata
and text, the places where it matched and the match tree at each. Rules that stand for a subscope
are left out. The rules that a capability rule pulls in are noted, since the text report does not
list them on their own.

## Main definitions

* `Metadata`: what is known of the analysis itself.
* `computeStaticLayout`: the functions with the basic blocks where a rule matched.
* `collectMatchedRules`: the rules that a result pulls in.
* `buildDocument`: the document.

## Main results

* `mem_rules_buildDocument_iff`: the rules of the document.
* `RuleReport.Tells`, `tells_ruleReport`: what is told of a rule.
* `mem_collectMatchedRules_iff`: what a result pulls in.
* `mem_computeStaticLayout_iff`: the blocks of the layout.
-/

namespace Papa.Render

open Features Features.Extractors Engine Rules Capabilities

/-! ### Metadata -/

/-- The digests of the sample. -/
structure SampleHashes where
  md5 : Str
  sha1 : Str
  sha256 : Str

/-- A library function with its name. -/
structure LibraryFunction where
  address : Address
  name : Str

/-- A function with the basic blocks where a rule matched. -/
structure FunctionMatchLayout where
  address : Address
  matchedBasicBlocks : List Address
  deriving DecidableEq

/-- The static analysis. -/
structure StaticAnalysisMeta where
  arch : Str
  os : Str
  format : Str
  extractor : Str
  rulesPaths : List Str
  baseAddress : UInt64
  layout : List FunctionMatchLayout
  featureCountFile : UInt64
  featureCountsFunctions : List (Address × UInt64)
  libraryFunctions : List LibraryFunction

/-- The head of a report. The path of the sample is the absolute one, with slashes. -/
structure Metadata where
  timestamp : Str
  version : Str
  argv : List Str
  samplePath : Str
  hashes : SampleHashes
  analysis : StaticAnalysisMeta

section Layout

variable {φ β ι : Type} (rules : RuleSet) (extractor : StaticFeatureExtractor φ β ι)

/-- The numbers of the places where a rule of basic-block scope matched. -/
def matchedBbs (results : MatchResults) : List UInt64 :=
  results.flatMap fun e =>
    match rules.find e.1 with
    | none => []
    | some rule =>
      if rule.info.scopes.staticScope = some .basicBlock then e.2.map fun m => linearize m.1 else []

/-- The loop over the functions. -/
def layoutLoop (matched : List UInt64) : List (FunctionHandle φ) → Throws (List FunctionMatchLayout)
  | [] => .ok []
  | fh :: rest => do
    let bbs ← extractor.getBasicBlocks fh
    let blocks := (bbs.map (·.addr)).filter fun addr => linearize addr ∈ matched
    let layout ← layoutLoop matched rest
    pure (if blocks.isEmpty then layout else ⟨fh.addr, blocks⟩ :: layout)

/-- `compute_static_layout`. -/
def computeStaticLayout (results : MatchResults) : Throws (List FunctionMatchLayout) := do
  let fhs ← extractor.getFunctions
  layoutLoop extractor (matchedBbs rules results) fhs

end Layout

/-! ### The document -/

/-- `is_capability_rule`: no library rule, no subscope and nothing internal. -/
def isCapabilityRule (m : RuleMeta) : Bool :=
  !m.lib && !m.isSubscopeRule && !(m.namespace_.any fun ns => (str "internal/").isPrefixOf ns)

mutual

/-- `collect_matched_rules`: the names that successful match features of a result test. -/
def collectMatchedRules : Result → List Str
  | ⟨success, node, children, locations⟩ =>
    if success then
      (matchedName ⟨success, node, [], locations⟩).toList ++ collectMatchedRulesAll children
    else []

/-- The same for several results. -/
def collectMatchedRulesAll : List Result → List Str
  | [] => []
  | child :: rest => collectMatchedRules child ++ collectMatchedRulesAll rest

end

/-- Sorting by the numbers of addresses. The order of what shares a number is that of the
implementation. -/
structure LinearSort where
  sort : {α : Type} → (α → Address) → List α → List α
  perm : ∀ {α : Type} (f : α → Address) (l : List α), (sort f l).Perm l
  sorted : ∀ {α : Type} (f : α → Address) (l : List α),
    (sort f l).Pairwise fun a b => linearize (f a) ≤ linearize (f b)

/-- What is told of a rule that matched. -/
structure RuleReport where
  info : RuleMeta
  sourceYaml : Str
  addresses : List Address
  matchCount : ℕ
  matchTrees : List (Address × MatchNode)

/-- What a renderer is given. -/
structure ResultDocument where
  metadata : Metadata
  rules : OrderedMap Str RuleReport
  matchedSubrules : Finset Str

section Build

variable (rs : RuleSet) (results : MatchResults) (order : AddressSort) (linear : LinearSort)

/-- The report of a rule: its places without those that share a number with another one, and the
tree at each match. -/
def ruleReport (rule : Rule) (addrList : List (Address × Result)) : RuleReport where
  info := rule.info
  sourceYaml := rule.definition
  matchCount := addrList.length
  addresses := (linear.sort id (addrList.map (·.1))).destutter (linearize · ≠ linearize ·)
  matchTrees := linear.sort (·.1) (addrList.map fun m => (m.1, buildMatch rs results order 0 m.2))

/-- The rule of a name, unless it stands for a subscope. -/
def reportedRule (name : Str) : Option Rule := (rs.find name).filter fun rule =>
  !rule.info.isSubscopeRule

/-- `build_document`. -/
def buildDocument (metadata : Metadata) : ResultDocument where
  metadata
  rules := .ofEntries (results.filterMap fun e =>
    (reportedRule rs e.1).map fun rule => (e.1, ruleReport rs results order linear rule e.2))
  matchedSubrules := (results.flatMap fun e =>
    match reportedRule rs e.1 with
    | none => []
    | some rule =>
      if isCapabilityRule rule.info then e.2.flatMap fun m => collectMatchedRules m.2
      else []).toFinset

end Build

/-! ### What the document tells -/

/-- There is such a sort: the stable one. -/
instance : Nonempty LinearSort := by
  have htrans {α : Type} (f : α → Address) (a b c : α)
      (hab : decide (linearize (f a) ≤ linearize (f b)))
      (hbc : decide (linearize (f b) ≤ linearize (f c))) :
      decide (linearize (f a) ≤ linearize (f c)) :=
    decide_eq_true (UInt64.le_trans (of_decide_eq_true hab) (of_decide_eq_true hbc))
  have htotal {α : Type} (f : α → Address) (a b : α) :
      decide (linearize (f a) ≤ linearize (f b)) || decide (linearize (f b) ≤ linearize (f a)) := by
    rw [Bool.or_eq_true, decide_eq_true_eq, decide_eq_true_eq]
    exact UInt64.le_total _ _
  exact ⟨{
    sort := fun f l => l.mergeSort fun a b => decide (linearize (f a) ≤ linearize (f b))
    perm := fun f l => List.mergeSort_perm _ _
    sorted := fun f l =>
      (List.pairwise_mergeSort (htrans f) (htotal f) l).imp of_decide_eq_true }⟩

/-- A result shows another one through successful results only. -/
inductive Shows : Result → Result → Prop
  | self {r : Result} (h : r.success = true) : Shows r r
  | child {r c x : Result} (h : r.success = true) (hc : c ∈ r.children) (hx : Shows c x) : Shows r x

theorem collectMatchedRulesAll_eq (l : List Result) :
    collectMatchedRulesAll l = l.flatMap collectMatchedRules := by
  induction l with
  | nil => rfl
  | cons r l ih => rw [collectMatchedRulesAll, ih, List.flatMap_cons]

theorem collectMatchedRules_eq (r : Result) : collectMatchedRules r =
    if r.success then (matchedName r).toList ++ r.children.flatMap collectMatchedRules else [] := by
  obtain ⟨success, node, children, locations⟩ := r
  rw [collectMatchedRules, collectMatchedRulesAll_eq]
  rfl

/-- **What a result pulls in**: the names that match features beneath it test, reached through
successful results only. -/
theorem mem_collectMatchedRules_iff {r : Result} {name : Str} :
    name ∈ collectMatchedRules r ↔ ∃ x, Shows r x ∧ matchedName x = some name := by
  constructor
  · intro h
    induction hn : sizeOf r using Nat.strong_induction_on generalizing r with
    | _ n ih =>
      subst hn
      rw [collectMatchedRules_eq] at h
      split_ifs at h with hsuccess
      · rcases List.mem_append.mp h with h | h
        · exact ⟨r, .self hsuccess, Option.mem_toList.mp h⟩
        · obtain ⟨c, hc, hname⟩ := List.mem_flatMap.mp h
          have hlt : sizeOf c < sizeOf r := by
            obtain ⟨success, node, children, locations⟩ := r
            have hlt : sizeOf c < sizeOf children := List.sizeOf_lt_of_mem hc
            simp only [Result.mk.sizeOf_spec]
            omega
          obtain ⟨x, hx, hname⟩ := ih _ hlt hname rfl
          exact ⟨x, .child hsuccess hc hx, hname⟩
      · exact absurd h List.not_mem_nil
  · rintro ⟨x, hx, hname⟩
    induction hx with
    | self hsuccess =>
      rw [collectMatchedRules_eq, if_pos hsuccess]
      exact List.mem_append_left _ (Option.mem_toList.mpr hname)
    | child hsuccess hc _ ih =>
      rw [collectMatchedRules_eq, if_pos hsuccess]
      exact List.mem_append_right _ (List.mem_flatMap.mpr ⟨_, hc, ih hname⟩)

/-- What the report of a rule tells. -/
structure RuleReport.Tells (rs : RuleSet) (results : MatchResults) (order : AddressSort)
    (rule : Rule) (addrList : List (Address × Result)) (rep : RuleReport) : Prop where
  info : rep.info = rule.info
  sourceYaml : rep.sourceYaml = rule.definition
  matchCount : rep.matchCount = addrList.length
  ascending : rep.addresses.Pairwise fun a b => linearize a < linearize b
  mem_addresses : ∀ a ∈ rep.addresses, ∃ m ∈ addrList, m.1 = a
  exists_address : ∀ m ∈ addrList, ∃ a ∈ rep.addresses, linearize a = linearize m.1
  matchTrees : rep.matchTrees.Perm (addrList.map fun m => (m.1, buildMatch rs results order 0 m.2))
  sorted : rep.matchTrees.Pairwise fun a b => linearize a.1 ≤ linearize b.1

section Destutter

variable {l : List Address}

/-- Among addresses in order, no two that are left share a number, and every number is left. -/
theorem destutter'_linearize {a : Address}
    (h : (a :: l).Pairwise fun a b => linearize a ≤ linearize b) :
    (l.destutter' (linearize · ≠ linearize ·) a).Pairwise (fun a b => linearize a < linearize b) ∧
      ∀ b ∈ a :: l, ∃ c ∈ l.destutter' (linearize · ≠ linearize ·) a,
        linearize c = linearize b := by
  induction l generalizing a with
  | nil => exact ⟨List.pairwise_singleton _ _, fun b hb => ⟨b, hb, rfl⟩⟩
  | cons d l ih =>
    obtain ⟨ha, hd⟩ := List.pairwise_cons.mp h
    by_cases hne : linearize a ≠ linearize d
    · have hlt : linearize a < linearize d :=
        UInt64.lt_of_le_of_ne (ha d List.mem_cons_self) hne
      obtain ⟨hascending, hexists⟩ := ih hd
      rw [List.destutter'_cons, if_pos hne]
      constructor
      · refine List.pairwise_cons.mpr ⟨fun c hc => ?_, hascending⟩
        rcases List.mem_cons.mp ((List.destutter'_sublist _ _ _).subset hc) with rfl | hc
        · exact hlt
        · exact UInt64.lt_of_lt_of_le hlt ((List.pairwise_cons.mp hd).1 c hc)
      · intro b hb
        rcases List.mem_cons.mp hb with rfl | hb
        · exact ⟨b, List.mem_cons_self, rfl⟩
        · obtain ⟨c, hc, heq⟩ := hexists b hb
          exact ⟨c, List.mem_cons_of_mem _ hc, heq⟩
    · have hal : (a :: l).Pairwise fun a b => linearize a ≤ linearize b :=
        List.pairwise_cons.mpr ⟨fun c hc => ha c (List.mem_cons_of_mem _ hc), hd.of_cons⟩
      obtain ⟨hascending, hexists⟩ := ih hal
      rw [List.destutter'_cons, if_neg hne]
      refine ⟨hascending, fun b hb => ?_⟩
      rcases List.mem_cons.mp hb with rfl | hb
      · exact hexists b List.mem_cons_self
      · rcases List.mem_cons.mp hb with rfl | hb
        · obtain ⟨c, hc, heq⟩ := hexists a List.mem_cons_self
          exact ⟨c, hc, heq.trans (not_not.mp hne)⟩
        · exact hexists b (List.mem_cons_of_mem _ hb)

end Destutter

variable {rs : RuleSet} {results : MatchResults} {order : AddressSort} {linear : LinearSort}

variable (rs results order linear) in
theorem tells_ruleReport (rule : Rule) (addrList : List (Address × Result)) :
    (ruleReport rs results order linear rule addrList).Tells rs results order rule addrList := by
  have hperm := linear.perm id (addrList.map (·.1))
  have hsorted := linear.sorted id (addrList.map (·.1))
  have hmem (a : Address) : a ∈ linear.sort id (addrList.map (·.1)) ↔ ∃ m ∈ addrList, m.1 = a := by
    rw [hperm.mem_iff, List.mem_map]
  have hdistinct : ((linear.sort id (addrList.map (·.1))).destutter
        (linearize · ≠ linearize ·)).Pairwise (fun a b => linearize a < linearize b) ∧
      ∀ b ∈ linear.sort id (addrList.map (·.1)),
        ∃ c ∈ (linear.sort id (addrList.map (·.1))).destutter (linearize · ≠ linearize ·),
          linearize c = linearize b := by
    cases hlist : linear.sort id (addrList.map (·.1)) with
    | nil => exact ⟨.nil, fun b hb => absurd hb List.not_mem_nil⟩
    | cons a l =>
      rw [hlist] at hsorted
      exact destutter'_linearize hsorted
  exact
    { info := rfl
      sourceYaml := rfl
      matchCount := rfl
      ascending := hdistinct.1
      mem_addresses := fun a ha => (hmem a).mp ((List.destutter_sublist _ _).subset ha)
      exists_address := fun m hm => hdistinct.2 m.1 ((hmem m.1).mpr ⟨m, hm, rfl⟩)
      matchTrees := linear.perm _ _
      sorted := linear.sorted _ _ }

/-- **The rules of the document**: those that matched and do not stand for a subscope. -/
theorem mem_rules_buildDocument_iff {metadata : Metadata} {name : Str} {rep : RuleReport} :
    (name, rep) ∈ (buildDocument rs results order linear metadata).rules.entries ↔
      ∃ rule addrList, reportedRule rs name = some rule ∧
        AssocList.get? name results = some addrList ∧
        rep = ruleReport rs results order linear rule addrList := by
  rw [buildDocument, OrderedMap.mem_ofEntries_iff, AssocList.get?_filterMap]
  simp only [Option.bind_eq_some_iff, Option.map_eq_some_iff]
  constructor
  · rintro ⟨rule, hrule, addrList, haddrList, rfl⟩
    exact ⟨rule, addrList, hrule, haddrList, rfl⟩
  · rintro ⟨rule, addrList, hrule, haddrList, rfl⟩
    exact ⟨rule, hrule, addrList, haddrList, rfl⟩

/-! ### The layout -/

section Layout

variable {φ β ι : Type} {extractor : StaticFeatureExtractor φ β ι}

theorem mem_layoutLoop_iff {matched : List UInt64} {fhs : List (FunctionHandle φ)}
    {layout : List FunctionMatchLayout} (h : layoutLoop extractor matched fhs = .ok layout)
    {fn : FunctionMatchLayout} : fn ∈ layout ↔ fn.matchedBasicBlocks ≠ [] ∧
      ∃ fh ∈ fhs, ∃ bbs, extractor.getBasicBlocks fh = .ok bbs ∧ fn.address = fh.addr ∧
        fn.matchedBasicBlocks = (bbs.map (·.addr)).filter fun addr => linearize addr ∈ matched := by
  induction fhs generalizing layout with
  | nil =>
    obtain rfl := Except.ok.inj h
    simp
  | cons fh fhs ih =>
    obtain ⟨bbs, hbbs, h⟩ := bind_eq_ok.mp h
    obtain ⟨rest, hrest, h⟩ := bind_eq_ok.mp h
    replace h := Except.ok.inj h
    have hfirst {P : List (BBHandle β) → Prop} :
        (∃ bbs, extractor.getBasicBlocks fh = .ok bbs ∧ P bbs) ↔ P bbs :=
      ⟨fun ⟨bbs', hbbs', hP⟩ => Except.ok.inj (hbbs'.symm.trans hbbs) ▸ hP,
        fun hP => ⟨bbs, hbbs, hP⟩⟩
    rw [List.exists_mem_cons_iff, hfirst, and_or_left, ← ih hrest, ← h]
    split_ifs with hempty
    · refine (or_iff_right fun hfn => hfn.1 ?_).symm
      exact hfn.2.2.trans (List.isEmpty_iff.mp hempty)
    · rw [List.mem_cons]
      refine or_congr_left ⟨?_, ?_⟩
      · rintro rfl
        exact ⟨fun hnil => hempty (List.isEmpty_iff.mpr hnil), rfl, rfl⟩
      · rintro ⟨-, haddress, hblocks⟩
        obtain ⟨address, blocks⟩ := fn
        exact congrArg₂ FunctionMatchLayout.mk haddress hblocks

/-- **The layout** lists the functions with a basic block where a rule of that scope matched, each
with all these blocks. -/
theorem mem_computeStaticLayout_iff {layout : List FunctionMatchLayout}
    (h : computeStaticLayout rs extractor results = .ok layout) {fn : FunctionMatchLayout} :
    fn ∈ layout ↔ fn.matchedBasicBlocks ≠ [] ∧
      ∃ fhs, extractor.getFunctions = .ok fhs ∧ ∃ fh ∈ fhs, ∃ bbs,
        extractor.getBasicBlocks fh = .ok bbs ∧ fn.address = fh.addr ∧
          fn.matchedBasicBlocks =
            (bbs.map (·.addr)).filter fun addr => linearize addr ∈ matchedBbs rs results := by
  obtain ⟨fhs, hfhs, h⟩ := bind_eq_ok.mp h
  rw [mem_layoutLoop_iff h]
  refine and_congr_right fun _ => ⟨fun hfn => ⟨fhs, hfhs, hfn⟩, ?_⟩
  rintro ⟨fhs', hfhs', hfn⟩
  rwa [Except.ok.inj (hfhs.symm.trans hfhs')]

end Layout

end Papa.Render
