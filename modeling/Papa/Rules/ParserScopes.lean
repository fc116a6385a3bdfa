import Papa.Rules.Parser

/-!
# Scopes of parsed leaves

The effective scope of a leaf is that of the innermost subscope around it, and the static scope of
the rule outside any. The parser checks each leaf at that scope. Two leaves pass unchecked inside a
count: the number of basic blocks, which any scope may count, and the name of a characteristic.

## Main definitions

* `Papa.Engine.Leaf`, `Papa.Engine.Statement.leaves`: the leaves of a tree with their effective
  scopes.
* `Papa.Engine.Leaf.Allowed`: the feature of a leaf is allowed at its effective scope.
* `Papa.Engine.Leaf.Checked`: it is allowed as far as the parser checks that.

## Main results

* `Papa.Rules.RuleParser.parse_checked`: every leaf of an accepted rule is checked.
-/

namespace Papa.Engine

open Features Rules

/-- A feature of a tree with its effective scope. -/
structure Leaf where
  feature : Feature
  scope : Scope
  counted : Bool

mutual

/-- The leaves of a tree whose root stands at a scope. -/
def Statement.leaves (scope : Scope) : Statement → List Leaf
  | .and kids => Statement.leavesOfKids scope kids
  | .or kids => Statement.leavesOfKids scope kids
  | .not s => s.leaves scope
  | .someOf _ kids => Statement.leavesOfKids scope kids
  | .range f _ _ => [{ feature := f, scope := scope, counted := true }]
  | .subscope inner s => s.leaves inner
  | .feature f => [{ feature := f, scope := scope, counted := false }]

/-- The leaves below a list of child slots. -/
def Statement.leavesOfKids (scope : Scope) : List (Option Statement) → List Leaf
  | [] => []
  | none :: kids => Statement.leavesOfKids scope kids
  | some s :: kids => s.leaves scope ++ Statement.leavesOfKids scope kids

end

theorem Statement.mem_leavesOfKids_map {scope : Scope} {kids : List Statement} {leaf : Leaf} :
    leaf ∈ Statement.leavesOfKids scope (kids.map some) ↔ ∃ s ∈ kids, leaf ∈ s.leaves scope := by
  induction kids with
  | nil => simp [Statement.leavesOfKids]
  | cons s kids ih => simp [Statement.leavesOfKids, ih]

/-- The name of a characteristic. -/
def characteristicName? (f : Feature) : Option Str :=
  match f.value with
  | .characteristic name => some name
  | _ => none

namespace Leaf

/-- The name of a characteristic is allowed at its effective scope. -/
def NameAllowed (l : Leaf) : Prop :=
  ∀ name ∈ characteristicName? l.feature, isCharacteristicAllowed name l.scope

/-- The feature of a leaf is allowed at its effective scope. -/
def Allowed (l : Leaf) : Prop := isFeatureAllowed l.feature.tag l.scope ∧ l.NameAllowed

/-- The feature of a leaf is allowed as far as the parser checks that: inside a count, basic blocks
may stand at any scope, and the name of a characteristic is not looked at. -/
def Checked (l : Leaf) : Prop :=
  (¬(l.counted ∧ l.feature.value = .basicBlock) → isFeatureAllowed l.feature.tag l.scope) ∧
    (¬l.counted → l.NameAllowed)

instance (l : Leaf) : Decidable l.Allowed := by
  unfold Allowed NameAllowed
  infer_instance

end Leaf

/-- Every leaf of a tree at a scope is checked. -/
def Statement.Checked (scope : Scope) (s : Statement) : Prop :=
  ∀ leaf ∈ s.leaves scope, leaf.Checked

theorem Statement.checked_of_kids {scope : Scope} {kids : List Statement}
    (h : ∀ s ∈ kids, s.Checked scope) :
    ∀ leaf ∈ Statement.leavesOfKids scope (kids.map some), leaf.Checked := by
  intro leaf hleaf
  obtain ⟨s, hs, hmem⟩ := Statement.mem_leavesOfKids_map.mp hleaf
  exact h s hs leaf hmem

theorem Statement.checked_feature {scope : Scope} {f : Feature}
    (htag : isFeatureAllowed f.tag scope)
    (hname : ∀ name ∈ characteristicName? f, isCharacteristicAllowed name scope) :
    (Statement.feature f).Checked scope := by
  intro leaf hleaf
  obtain rfl := List.mem_singleton.mp hleaf
  exact ⟨fun _ => htag, fun _ => hname⟩

theorem Statement.checked_range {scope : Scope} {f : Feature} {min max : ℕ}
    (h : f.value = .basicBlock ∨ isFeatureAllowed f.tag scope) :
    (Statement.range f min max).Checked scope := by
  intro leaf hleaf
  obtain rfl := List.mem_singleton.mp hleaf
  exact ⟨fun hnot => h.resolve_left fun hbb => hnot ⟨rfl, hbb⟩, fun hnot => absurd rfl hnot⟩

end Papa.Engine

namespace Papa.Rules

open Features Engine Util
open Util.Yaml (Node)

/-! ### Items -/

theorem conjoin_checked {scope : Scope} {kids : List Statement}
    (h : ∀ s ∈ kids, s.Checked scope) : (conjoin kids).Checked scope := by
  unfold conjoin
  split
  · next kid => exact h kid (List.mem_singleton_self kid)
  · exact Statement.checked_of_kids h

section

variable {children : ChildParser} {key : Str} {node value : Node} {scope : Scope}
  {siblings : List (Str × Node)} {st : Statement}

/-- A parser of children whose statements are checked at the scope it is given. -/
def ChildParser.Checks (children : ChildParser) : Prop :=
  ∀ s kids, children s = .ok kids → ∀ kid ∈ kids, kid.Checked s

theorem parseOperator_checked (hchildren : children.Checks)
    (h : parseOperator children key node value scope = some (.ok st)) : st.Checked scope := by
  unfold parseOperator at h
  split_ifs at h
  · obtain ⟨kids, hkids, h⟩ := bind_eq_ok.mp (Option.some.inj h)
    cases h
    exact Statement.checked_of_kids (hchildren scope kids hkids)
  · obtain ⟨kids, hkids, h⟩ := bind_eq_ok.mp (Option.some.inj h)
    cases h
    exact Statement.checked_of_kids (hchildren scope kids hkids)
  · obtain ⟨kids, hkids, h⟩ := bind_eq_ok.mp (Option.some.inj h)
    split at h
    · next kid =>
      cases h
      exact hchildren scope _ hkids kid (List.mem_singleton_self kid)
    · exact nomatch h
  · obtain ⟨kids, hkids, h⟩ := bind_eq_ok.mp (Option.some.inj h)
    cases h
    exact Statement.checked_of_kids (hchildren scope kids hkids)
  · split at h
    · exact nomatch h
    · split_ifs at h
      split at h
      · exact nomatch h
      · obtain ⟨kids, hkids, h⟩ := bind_eq_ok.mp (Option.some.inj h)
        cases h
        exact Statement.checked_of_kids (hchildren scope kids hkids)

theorem parseSubscope_checked (hchildren : children.Checks)
    (h : parseSubscope children key = some (.ok st)) : st.Checked scope := by
  obtain ⟨inner, -, h⟩ := Option.map_eq_some_iff.mp h
  obtain ⟨kids, hkids, h⟩ := bind_eq_ok.mp h
  cases h
  exact conjoin_checked (hchildren inner kids hkids)

theorem parseCom_checked (h : parseCom key node value scope = some (.ok st)) :
    st.Checked scope := by
  unfold parseCom at h
  split at h
  · exact nomatch h
  obtain ⟨text, -, h⟩ := bind_eq_ok.mp (Option.some.inj h)
  split at h
  extract_lets desc comKind at h
  split at h
  · exact nomatch h
  · split_ifs at h with hallowed
    · exact nomatch h
    · cases h
      simp only [Bool.or_eq_true, Bool.not_eq_true', not_or, Bool.not_eq_false] at hallowed
      refine @Statement.checked_of_kids scope [_, _] fun s hs => ?_
      simp only [List.mem_cons, List.not_mem_nil, or_false] at hs
      rcases hs with rfl | rfl
      · exact Statement.checked_feature hallowed.1 nofun
      · exact Statement.checked_feature hallowed.2 nofun

theorem parseCount_checked (h : parseCount key node value scope = some (.ok st)) :
    st.Checked scope := by
  unfold parseCount at h
  split_ifs at h
  · obtain ⟨text, -, h⟩ := bind_eq_ok.mp (Option.some.inj h)
    obtain ⟨rng, -, h⟩ := bind_eq_ok.mp h
    cases h
    exact Statement.checked_range (Or.inl rfl)
  · obtain ⟨⟨innerKey, innerValue⟩, -, h⟩ := Option.map_eq_some_iff.mp h
    obtain ⟨text, -, h⟩ := bind_eq_ok.mp h
    obtain ⟨rng, -, h⟩ := bind_eq_ok.mp h
    obtain ⟨feat, -, h⟩ := bind_eq_ok.mp h
    split_ifs at h with hallowed
    · exact nomatch h
    · cases h
      exact Statement.checked_range (Or.inr (by simpa using hallowed))

theorem parseLeaf_checked (h : parseLeaf key node value siblings scope = .ok st) :
    st.Checked scope := by
  obtain ⟨text, -, h⟩ := bind_eq_ok.mp h
  obtain ⟨desc, -, h⟩ := bind_eq_ok.mp h
  obtain ⟨feat, -, h⟩ := bind_eq_ok.mp h
  split_ifs at h with hallowed
  · cases h
  · have htag : isFeatureAllowed feat.tag scope := by simpa using hallowed
    split at h
    · next name hname =>
      split_ifs at h with hchar
      · cases h
      · cases h
        refine Statement.checked_feature htag fun name' hname' => ?_
        rw [characteristicName?, hname, Option.mem_some_iff] at hname'
        simpa [← hname'] using hchar
    · next hother =>
      cases h
      refine Statement.checked_feature htag fun name hname => ?_
      unfold characteristicName? at hname
      split at hname
      · next name' hvalue => exact absurd hvalue (hother name')
      · cases hname

/-- Every branch checks the leaves it makes. -/
theorem parseKeyed_checked (hchildren : children.Checks)
    (h : parseKeyed children key node value siblings scope = .ok st) : st.Checked scope := by
  unfold parseKeyed at h
  cases hop : parseOperator children key node value scope with
  | some r =>
    rw [hop] at h
    exact parseOperator_checked hchildren (hop.trans (congrArg some h))
  | none =>
    cases hsub : parseSubscope children key with
    | some r =>
      rw [hop, hsub] at h
      exact parseSubscope_checked hchildren (hsub.trans (congrArg some h))
    | none =>
      cases hcom : parseCom key node value scope with
      | some r =>
        rw [hop, hsub, hcom] at h
        exact parseCom_checked (hcom.trans (congrArg some h))
      | none =>
        cases hcount : parseCount key node value scope with
        | some r =>
          rw [hop, hsub, hcom, hcount] at h
          exact parseCount_checked (hcount.trans (congrArg some h))
        | none =>
          rw [hop, hsub, hcom, hcount] at h
          exact parseLeaf_checked h

end

/-! ### Trees -/

mutual

theorem parseStatementItem_checked (node : Node) (scope : Scope) (st : Statement)
    (h : parseStatementItem node scope = .ok st) : st.Checked scope :=
  match node, h with
  | .mapping ((key, value) :: siblings) line column, h => by
    rw [parseStatementItem] at h
    exact parseKeyed_checked (fun s kids hkids kid hkid =>
      parseStatementChildren_checked value s kids hkids kid hkid) h
  | .mapping [] _ _, h => nomatch h
  | .scalar _ _ _, h => nomatch h
  | .sequence _ _ _, h => nomatch h

theorem parseStatementChildren_checked (node : Node) (scope : Scope) (kids : List Statement)
    (h : parseStatementChildren node scope = .ok kids) (kid : Statement) (hkid : kid ∈ kids) :
    kid.Checked scope :=
  match node, h with
  | .sequence items _ _, h => by
    rw [parseStatementChildren] at h
    exact parseStatementItems_checked items scope kids h kid hkid
  | .scalar _ _ _, h => nomatch h
  | .mapping _ _ _, h => nomatch h

theorem parseStatementItems_checked (items : List Node) (scope : Scope) (kids : List Statement)
    (h : parseStatementItems items scope = .ok kids) (kid : Statement) (hkid : kid ∈ kids) :
    kid.Checked scope :=
  match items, h with
  | [], h => by
    cases h
    exact absurd hkid List.not_mem_nil
  | child :: rest, h => by
    rw [parseStatementItems] at h
    split_ifs at h with hdescription
    · exact parseStatementItems_checked rest scope kids h kid hkid
    · obtain ⟨st, hst, h⟩ := bind_eq_ok.mp h
      obtain ⟨out, hout, h⟩ := bind_eq_ok.mp h
      cases h
      rcases List.mem_cons.mp hkid with rfl | hmem
      · exact parseStatementItem_checked child scope kid hst
      · exact parseStatementItems_checked rest scope out hout kid hmem

end

theorem parseFeaturesRoot_checked {node : Node} {scope : Scope} {st : Statement}
    (h : parseFeaturesRoot node scope = .ok st) : st.Checked scope := by
  unfold parseFeaturesRoot at h
  split at h
  · exact nomatch h
  · obtain ⟨kids, hkids, h⟩ := bind_eq_ok.mp h
    cases h
    exact conjoin_checked (parseStatementChildren_checked _ scope kids hkids)
  · exact nomatch h

/-- **Scope conformance of accepted rules.** Every leaf of the tree, other than a count of basic
blocks, is of a kind that is allowed at its effective scope, and every characteristic that is not
inside a count has a name that is. -/
theorem RuleParser.parse_checked {yamlText sourcePath : Str} {r : Rule}
    (h : RuleParser.parse yamlText sourcePath = .ok r) : r.statement.Checked r.scope := by
  obtain ⟨_, _, _, _, _, _, _, hroot⟩ := RuleParser.parse_ok h
  exact parseFeaturesRoot_checked hroot

/-- The bytes of a document from its lines. -/
def document (lines : List String) : Str := lines.flatMap fun line => str line ++ [10]

/-- The theorem on a rule with a counted leaf and one in a subscope. -/
theorem RuleParser.parse_checked_subscope :
    ∃ r, RuleParser.parse (document ["rule:", "  meta:", "    name: a", "  features:",
        "    - and:", "      - count(api(x)): 2 or more", "      - basic block:",
        "        - characteristic: tight loop"]) [] = .ok r ∧
      (r.statement.leaves r.scope).map Leaf.scope = [.function, .basicBlock] ∧
      r.statement.Checked r.scope := by
  obtain ⟨r, h, hscopes⟩ : ∃ r, RuleParser.parse (document ["rule:", "  meta:", "    name: a",
      "  features:", "    - and:", "      - count(api(x)): 2 or more", "      - basic block:",
      "        - characteristic: tight loop"]) [] = .ok r ∧
      (r.statement.leaves r.scope).map Leaf.scope = [.function, .basicBlock] := by
    decide +kernel
  exact ⟨r, h, hscopes, RuleParser.parse_checked h⟩

/-- A rule may count basic blocks at the scope of a function, and count at the scope of an
instruction a characteristic that only functions have. -/
theorem RuleParser.not_allowed_counted :
    (∃ r, RuleParser.parse (document ["rule:", "  meta:", "    name: a", "  features:",
        "    - count(basic blocks): 1"]) [] = .ok r ∧
      ¬∀ leaf ∈ r.statement.leaves r.scope, leaf.Allowed) ∧
    ∃ r, RuleParser.parse (document ["rule:", "  meta:", "    name: a", "    scope: instruction",
        "  features:", "    - count(characteristic(loop)): 1"]) [] = .ok r ∧
      ¬∀ leaf ∈ r.statement.leaves r.scope, leaf.Allowed := by
  constructor <;> decide +kernel

end Papa.Rules
