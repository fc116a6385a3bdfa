import Papa.Render.JsonReading
import Papa.Render.MatchTree

/-!
# What the JSON report tells of an analysis

The text of a report is a JSON text from which each rule that matched is read back with the tree of
each match. A node of a tree tells the statement or the feature of the result it was made of, and
the counts of a statement exactly as long as they are below `2 ^ 63`.

## Main definitions

* `TellsStatement`, `TellsKind`: what a node tells of a statement or of a result.
* `Tells`: what a tree tells of a result and of those spliced in beneath it.
* `TellsRule`, `TellsDocument`: what a report tells.

## Main results

* `toInt_toSigned_eq_iff`: the counts that are told.
* `exists_tells`: every tree of a result tells it.
* `renderToString_tells`: the text of a report tells the analysis.
-/

namespace Papa.Render

open Features Engine Rules Util

/-! ### Counts -/

/-- **A count is told** if and only if it is below `2 ^ 63`. -/
theorem toInt_toSigned_eq_iff {n : ℕ} : (toSigned n).toInt = n ↔ n < 2 ^ 63 := by
  have hint : (toSigned n).toInt = Int.bmod n (2 ^ 64) := Int64.toInt_ofNat'
  rw [hint, Int.bmod_def]
  split_ifs <;> omega

/-! ### Nodes -/

/-- What a node tells of a statement. Its counts are exact exactly if they are below `2 ^ 63`. -/
def TellsStatement (t : ToldStatement) : Statement → Prop
  | .and _ => t = { type := str "and" }
  | .or _ => t = { type := str "or" }
  | .not _ => t = { type := str "not" }
  | .feature _ => t = { type := str "feature" }
  | .subscope scope _ => t = { type := str "subscope", scope := some scope }
  | .someOf count _ =>
    if count = 0 then t = { type := str "optional" }
    else ∃ n : ℤ, t = { type := str "some", count := some n } ∧ (n = count ↔ count < 2 ^ 63)
  | .range feature min max =>
    ∃ lo hi : ℤ, t = { type := str "range", range := some (lo, hi, toldFeature feature) } ∧
      (lo = min ↔ min < 2 ^ 63) ∧ (hi = max ↔ max < 2 ^ 63)

/-- What a node tells of a result. -/
def TellsKind (x : Result) : ToldKind → Prop
  | .feature f => ∃ g, x.node = .feature g ∧ f = toldFeature g
  | .statement t => match x.node with
    | .none => t = { type := [] }
    | .feature _ => False
    | .statement s => TellsStatement t s

theorem exists_tellsStatement (success : Bool) (s : Statement) :
    ∃ t, toldKind (fillStatement { success } s) = some (.statement t) ∧ TellsStatement t s := by
  cases s with
  | someOf count children =>
    by_cases hzero : count = 0
    · subst hzero
      exact ⟨{ type := str "optional" }, rfl, rfl⟩
    · refine ⟨{ type := str "some", count := some (toSigned count).toInt }, ?_, ?_⟩
      · rw [fillStatement, if_neg hzero]
        rfl
      · exact (if_neg hzero).mpr ⟨_, rfl, toInt_toSigned_eq_iff⟩
  | range feature min max =>
    exact ⟨_, rfl, _, _, rfl, toInt_toSigned_eq_iff, toInt_toSigned_eq_iff⟩
  | _ => exact ⟨_, rfl, rfl⟩

theorem exists_tellsKind (order : AddressSort) (x : Result) :
    ∃ kind, toldKind (plainNode order x []) = some kind ∧ TellsKind x kind := by
  have hfill : toldKind (plainNode order x []) = toldKind (fillNode x) := by
    unfold plainNode
    dsimp only
    split_ifs <;> rfl
  rw [hfill, fillNode]
  cases hnode : x.node with
  | none => exact ⟨.statement { type := [] }, rfl, by rw [TellsKind, hnode]⟩
  | feature f => exact ⟨.feature (toldFeature f), rfl, f, hnode, rfl⟩
  | statement s =>
    obtain ⟨t, ht, htells⟩ := exists_tellsStatement x.success s
    exact ⟨.statement t, ht, by rw [TellsKind, hnode]; exact htells⟩

/-! ### Trees -/

/-- The subscope rule that a match feature stands for. At the depth limit it stands for itself. -/
def subscopeRule (rs : RuleSet) (todo : ℕ) (x : Result) : Option Rule :=
  if todo = 0 then none else ((matchedName x).bind rs.find).filter (·.info.isSubscopeRule)

/-- What is told of a result `todo` levels above the depth limit: of a match feature that stands for
a subscope rule the scope of the rule, and of anything else the result itself. -/
def TellsShown (rs : RuleSet) (todo : ℕ) (x : Result) (kind : ToldKind) : Prop :=
  match subscopeRule rs todo x with
  | none => TellsKind x kind
  | some rule => kind = .statement { type := str "subscope", scope :=
      rule.info.scopes.staticScope.or rule.info.scopes.dynamicScope }

/-- The results whose trees stand beneath a result. -/
def shownBelow (rs : RuleSet) (results : MatchResults) (order : AddressSort) :
    (todo : ℕ) → Result → List Result
  | 0, x => x.children
  | _ + 1, x => below rs results order x

mutual

/-- A tree tells a result, with the results beneath it in order, and where it holds. -/
def Tells (rs : RuleSet) (results : MatchResults) (order : AddressSort) (todo : ℕ) (x : Result) :
    ToldNode → Prop
  | ⟨success, kind, children, locations⟩ =>
    success = x.success ∧ TellsShown rs todo x kind ∧
      locations = (plainNode order x []).locations ∧
      TellsAll rs results order (todo - 1) (shownBelow rs results order todo x) children

/-- Trees tell results one by one. -/
def TellsAll (rs : RuleSet) (results : MatchResults) (order : AddressSort) (todo : ℕ)
    (xs : List Result) : List ToldNode → Prop
  | [] => xs = []
  | t :: ts => ∃ x xs', xs = x :: xs' ∧ Tells rs results order todo x t ∧
      TellsAll rs results order todo xs' ts

end

variable {rs : RuleSet} {results : MatchResults} {order : AddressSort}

theorem exists_tellsAll {todo : ℕ} {xs : List Result}
    (h : ∀ x ∈ xs, ∃ t, toldNode (buildFrom rs results order todo x) = some t ∧
      Tells rs results order todo x t) :
    ∃ ts, toldNodes (xs.map (buildFrom rs results order todo)) = some ts ∧
      TellsAll rs results order todo xs ts := by
  induction xs with
  | nil => exact ⟨[], rfl, rfl⟩
  | cons x xs ih =>
    obtain ⟨t, ht, htells⟩ := h x List.mem_cons_self
    obtain ⟨ts, hts, htellsAll⟩ := ih fun y hy => h y (List.mem_cons_of_mem _ hy)
    refine ⟨t :: ts, ?_, x, xs, rfl, htells, htellsAll⟩
    rw [List.map_cons, toldNodes, ht, hts]
    rfl

/-- A node over children that are told. -/
theorem toldNode_of_children {node : MatchNode} {children : List MatchNode} {kind : ToldKind}
    {ts : List ToldNode} (hkind : toldKind node = some kind) (hts : toldNodes children = some ts) :
    toldNode { node with children } = some ⟨node.success, kind, ts, node.locations⟩ := by
  obtain ⟨success, isFeature, feature, statementType, count, rangeMin, rangeMax, rangeChild,
    subscope,
    children', locations⟩ := node
  have hkind' : toldKind ⟨success, isFeature, feature, statementType, count, rangeMin, rangeMax,
      rangeChild, subscope, [], []⟩ = some kind := hkind
  rw [toldNode, hkind', hts]
  rfl

theorem success_fillStatement (node : MatchNode) (s : Statement) :
    (fillStatement node s).success = node.success := by
  cases s with
  | someOf count children =>
    rw [fillStatement]
    split_ifs <;> rfl
  | _ => rfl

theorem success_plainNode (x : Result) : (plainNode order x []).success = x.success := by
  have hplain : (plainNode order x []).success = (fillNode x).success := by
    unfold plainNode
    dsimp only
    split_ifs <;> rfl
  rw [hplain, fillNode]
  cases x.node with
  | none => rfl
  | feature f => rfl
  | statement s => exact success_fillStatement _ s

/-- A node that shows as a subscope. -/
theorem toldKind_subscope (node : MatchNode) (subscope : Option Scope) :
    toldKind { node with
      isFeature := false
      feature := none
      statementType := str "subscope"
      subscope := subscope } =
      some (.statement { type := str "subscope", scope := subscope }) := by
  cases subscope <;> rfl

theorem tellsShown_of_eq_none {todo : ℕ} {x : Result} {kind : ToldKind}
    (h : subscopeRule rs todo x = none) (hkind : TellsKind x kind) : TellsShown rs todo x kind := by
  rwa [TellsShown, h]

variable (rs results order)

/-- What a result shows as is told. -/
theorem exists_tellsShown (todo : ℕ) (x : Result) : ∃ kind,
    toldKind (shownNode rs order x) = some kind ∧ TellsShown rs (todo + 1) x kind ∧
      (shownNode rs order x).success = x.success ∧
      (shownNode rs order x).locations = (plainNode order x []).locations := by
  obtain ⟨kind, hkind, htells⟩ := exists_tellsKind order x
  have hrule : subscopeRule rs (todo + 1) x =
      ((matchedName x).bind rs.find).filter (·.info.isSubscopeRule) := rfl
  cases hname : matchedName x with
  | none =>
    rw [hname] at hrule
    rw [shownNode, hname]
    exact ⟨kind, hkind, tellsShown_of_eq_none hrule htells, success_plainNode x, rfl⟩
  | some name =>
    rw [hname, Option.bind_some] at hrule
    rw [shownNode, hname]
    dsimp only
    rw [rewriteSubscope]
    cases hfind : rs.find name with
    | none =>
      rw [hfind] at hrule
      exact ⟨kind, hkind, tellsShown_of_eq_none hrule htells, success_plainNode x, rfl⟩
    | some rule =>
      dsimp only
      rw [hfind, Option.filter_some] at hrule
      by_cases hsub : rule.info.isSubscopeRule
      · rw [if_pos hsub] at hrule ⊢
        refine ⟨_, toldKind_subscope _ _, ?_, success_plainNode x, rfl⟩
        rw [TellsShown, hrule]
      · rw [if_neg hsub] at hrule ⊢
        exact ⟨kind, hkind, tellsShown_of_eq_none hrule htells, success_plainNode x, rfl⟩

/-- **Every tree of a result tells it.** -/
theorem exists_tells (todo : ℕ) (x : Result) :
    ∃ t, toldNode (buildFrom rs results order todo x) = some t ∧
      Tells rs results order todo x t := by
  induction todo generalizing x with
  | zero =>
    induction hn : sizeOf x using Nat.strong_induction_on generalizing x with
    | _ n ih =>
      subst hn
      have hchildren : ∀ y ∈ x.children, ∃ t, toldNode (buildFrom rs results order 0 y) = some t ∧
          Tells rs results order 0 y t := by
        intro y hy
        refine ih _ ?_ y rfl
        obtain ⟨success, node, children, locations⟩ := x
        have hlt : sizeOf y < sizeOf children := List.sizeOf_lt_of_mem hy
        simp only [Result.mk.sizeOf_spec]
        omega
      obtain ⟨ts, hts, htells⟩ := exists_tellsAll hchildren
      obtain ⟨kind, hkind, htellsKind⟩ := exists_tellsKind order x
      refine ⟨_, (buildFrom_zero x).symm ▸ toldNode_of_children hkind hts, ?_⟩
      exact ⟨success_plainNode x, htellsKind, rfl, htells⟩
  | succ todo ih =>
    obtain ⟨ts, hts, htells⟩ := exists_tellsAll fun y (_ : y ∈ below rs results order x) => ih y
    obtain ⟨kind, hkind, htellsKind, hsuccess, hlocations⟩ := exists_tellsShown rs order todo x
    refine ⟨_, (buildFrom_succ todo x).symm ▸ toldNode_of_children hkind hts, ?_⟩
    exact ⟨hsuccess, htellsKind, hlocations, htells⟩

/-! ### Rules -/

/-- What is read one by one stands in the place of what it is read from. -/
theorem exists_mapM_forall₂ {α β : Type} {f : α → Option β} {P : α → β → Prop} {xs : List α}
    (h : ∀ x ∈ xs, ∃ y, f x = some y ∧ P x y) :
    ∃ ys, xs.mapM f = some ys ∧ List.Forall₂ P xs ys := by
  induction xs with
  | nil => exact ⟨[], rfl, .nil⟩
  | cons x xs ih =>
    obtain ⟨y, hy, hP⟩ := h x List.mem_cons_self
    obtain ⟨ys, hys, hforall⟩ := ih fun z hz => h z (List.mem_cons_of_mem _ hz)
    refine ⟨y :: ys, ?_, .cons hP hforall⟩
    rw [List.mapM_cons, hy, hys]
    rfl

theorem map_fst_of_forall₂ {α β γ : Type} {xs : List (α × β)} {ys : List (α × γ)}
    (h : List.Forall₂ (fun x y => x.1 = y.1) xs ys) : xs.map Prod.fst = ys.map Prod.fst := by
  rw [← List.forall₂_eq_eq_eq]
  exact List.forall₂_map_left_iff.mpr (List.forall₂_map_right_iff.mpr h)

/-- What a report tells of a rule with its matches: each match once, in the order of the addresses,
with its whole tree. -/
structure TellsRule (rs : RuleSet) (results : MatchResults) (order : AddressSort) (rule : Rule)
    (addrList : List (Address × Result)) (t : ToldRule) : Prop where
  info : t.info = toldRuleMeta rule.info
  source : t.source = rule.definition
  sorted : t.matchTrees.Pairwise fun a b => linearize a.1 ≤ linearize b.1
  matchTrees : ∃ listed, List.Forall₂ (fun m e => e.1 = m.1 ∧
    Tells rs results order kMaxMatchDepth m.2 e.2) listed t.matchTrees ∧ listed.Perm addrList

variable (linear : LinearSort)

/-- A match with its tree. -/
theorem exists_tellsMatch (m : Address × Result) :
    ∃ e, toldMatch (m.1, buildMatch rs results order 0 m.2) = some e ∧ e.1 = m.1 ∧
      Tells rs results order kMaxMatchDepth m.2 e.2 := by
  obtain ⟨t, ht, htells⟩ := exists_tells rs results order kMaxMatchDepth m.2
  exact ⟨(m.1, t), congrArg (Option.map (m.1, ·)) ht, rfl, htells⟩

theorem exists_tellsRule (rule : Rule) (addrList : List (Address × Result)) :
    ∃ t, toldRule (ruleReport rs results order linear rule addrList) = some t ∧
      TellsRule rs results order rule addrList t := by
  have hrep := tells_ruleReport rs results order linear rule addrList
  -- The trees are those of the matches in another order.
  have hself : List.Forall₂ (fun e m => e = (m.1, buildMatch rs results order 0 m.2))
      (addrList.map fun m => (m.1, buildMatch rs results order 0 m.2)) addrList :=
    List.forall₂_map_left_iff.mpr (List.forall₂_same.mpr fun m _ => rfl)
  obtain ⟨listed, hlisted, hperm⟩ := List.perm_comp_forall₂ hrep.matchTrees hself
  have htrees : (ruleReport rs results order linear rule addrList).matchTrees =
      listed.map fun m => (m.1, buildMatch rs results order 0 m.2) := by
    rw [← List.forall₂_eq_eq_eq]
    exact List.forall₂_map_right_iff.mpr hlisted
  obtain ⟨ts, hts, hforall⟩ := exists_mapM_forall₂ fun m (_ : m ∈ listed) =>
    exists_tellsMatch rs results order m
  have haddresses := map_fst_of_forall₂ (hforall.flip.imp fun _ _ h => h.1)
  refine ⟨⟨toldRuleMeta rule.info, rule.definition, ts⟩, ?_, rfl, rfl, ?_, listed, hforall, hperm⟩
  · have hread : (listed.map fun m => (m.1, buildMatch rs results order 0 m.2)).mapM toldMatch =
        some ts := (List.mapM_map ..).trans hts
    rw [toldRule, htrees, hread]
    rfl
  · have hsorted := hrep.sorted
    rw [htrees, List.pairwise_map] at hsorted
    have hpairwise : (listed.map Prod.fst).Pairwise fun a b => linearize a ≤ linearize b :=
      List.pairwise_map.mpr hsorted
    rw [← haddresses, List.pairwise_map] at hpairwise
    exact hpairwise

/-! ### The report -/

/-- What a report tells: the metadata, and each rule that matched and does not stand for a subscope,
in the order of the names. -/
structure TellsDocument (rs : RuleSet) (results : MatchResults) (order : AddressSort)
    (metadata : Metadata) (t : ToldDocument) : Prop where
  metadata : t.metadata = metadata
  ascending : t.rules.Pairwise fun a b => a.1 < b.1
  mem_iff : ∀ name, name ∈ t.rules.map Prod.fst ↔
    (reportedRule rs name).isSome ∧ (AssocList.get? name results).isSome
  tells : ∀ e ∈ t.rules, ∃ rule addrList, reportedRule rs e.1 = some rule ∧
    AssocList.get? e.1 results = some addrList ∧ TellsRule rs results order rule addrList e.2

/-- The rules of a document, told one by one. -/
theorem exists_tellsRules (metadata : Metadata) :
    ∃ rules, (buildDocument rs results order linear metadata).rules.entries.mapM
        (fun e => (toldRule e.2).map (e.1, ·)) = some rules ∧
      List.Forall₂ (fun d e => e.1 = d.1 ∧ ∃ rule addrList, reportedRule rs e.1 = some rule ∧
        AssocList.get? e.1 results = some addrList ∧ TellsRule rs results order rule addrList e.2)
        (buildDocument rs results order linear metadata).rules.entries rules := by
  refine exists_mapM_forall₂ fun d hd => ?_
  obtain ⟨rule, addrList, hrule, haddrList, hrep⟩ := mem_rules_buildDocument_iff.mp hd
  obtain ⟨t, ht, htells⟩ := exists_tellsRule rs results order linear rule addrList
  refine ⟨(d.1, t), ?_, rfl, rule, addrList, hrule, haddrList, htells⟩
  rw [hrep, ht]
  rfl

theorem mem_keys_buildDocument_iff (metadata : Metadata) {name : Str} :
    name ∈ (buildDocument rs results order linear metadata).rules.entries.map Prod.fst ↔
      (reportedRule rs name).isSome ∧ (AssocList.get? name results).isSome := by
  rw [List.mem_map, Option.isSome_iff_exists, Option.isSome_iff_exists]
  constructor
  · rintro ⟨d, hd, rfl⟩
    obtain ⟨rule, addrList, hrule, haddrList, -⟩ := mem_rules_buildDocument_iff.mp hd
    exact ⟨⟨rule, hrule⟩, addrList, haddrList⟩
  · rintro ⟨⟨rule, hrule⟩, addrList, haddrList⟩
    exact ⟨(name, _), mem_rules_buildDocument_iff.mpr ⟨rule, addrList, hrule, haddrList, rfl⟩, rfl⟩

theorem exists_tellsDocument (metadata : Metadata) :
    ∃ t, (buildDocument rs results order linear metadata).told = some t ∧
      TellsDocument rs results order metadata t := by
  obtain ⟨rules, hrules, hforall⟩ := exists_tellsRules rs results order linear metadata
  obtain ⟨htells, hnames⟩ :=
    (List.forall₂_and_left _ _).mp (hforall.flip.imp fun _ _ h => And.comm.mp h)
  have hkeys := map_fst_of_forall₂ hnames
  refine ⟨⟨metadata, rules⟩, ?_, ?_⟩
  · rw [ResultDocument.told, hrules]
    rfl
  · have hsorted := (buildDocument rs results order linear metadata).rules.sorted
    rw [← List.pairwise_map (f := Prod.fst) (R := (· < ·)), ← hkeys, List.pairwise_map] at hsorted
    exact
      { metadata := rfl
        ascending := hsorted
        mem_iff := fun name => by
          rw [← mem_keys_buildDocument_iff rs results order linear metadata, hkeys]
        tells := htells }

/-- **The text of a report** tells the analysis: for every set of rules and all results, in either
layout, it is a text of JSON's grammar from which the rules with the trees of all matches are read
back. -/
theorem renderToString_tells (metadata : Metadata) (pretty : Bool) :
    ∃ text j t, renderToString (buildDocument rs results order linear metadata) pretty = .ok text ∧
      Json.parse text = some j ∧ readDocument j = some t ∧
      TellsDocument rs results order metadata t := by
  obtain ⟨t, ht, htells⟩ := exists_tellsDocument rs results order linear metadata
  obtain ⟨w, hw, hparse⟩ :=
    (emitDocument (buildDocument rs results order linear metadata)).exists_run pretty
  refine ⟨w.out, _, t, ?_, hparse, (readDocument_emitDocument _).trans ht, htells⟩
  rw [renderToString, hw]
  rfl

end Papa.Render
