import Papa.Engine.Truth
import Papa.Rules.ParserScopes

/-!
# Rules that match nothing at all

A rule that asks for no absence should not match where there are no features. The parser drops the
items that describe a statement after it looked whether a list is empty, so a list of descriptions
becomes a conjunction without members, which is always true. No other statement of such a rule is
true without features.

## Main definitions

* `Papa.Engine.Statement.matchesEmpty`: a statement is true where no world has features.
* `Papa.Engine.Statement.positive`: a tree that asks for no absence.
* `Papa.Engine.Statement.Part`: the statements of a tree.
* `Papa.Rules.filledItem`, `Papa.Rules.filledRoot`: no list that has to hold all at once is one of
  descriptions only.

## Main results

* `Papa.Engine.Statement.filled_iff`: where no statement of a tree matches the empty set.
* `Papa.Rules.RuleParser.parse_notVacuous_iff`: for which accepted documents that is so.
-/

namespace Papa.Engine

open Features Rules

/-! ### Worlds without features -/

/-- One world without features, which contains a world of each scope: itself. -/
def emptyFrame (E : RegexEngine) : Frame Unit where
  leaf _ f := f.matchesSet E .empty
  count _ f := FeatureSet.empty.count f
  within _ _ := [()]

theorem matchesSet_empty (E : RegexEngine) (f : Feature) : f.matchesSet E .empty = false := by
  rw [Feature.matchesSet]
  split
  · rfl
  · dsimp only
    split_ifs <;> rfl
  · rfl
  · split_ifs with h
    · exact absurd h (by simp)
    · rfl
    · rfl
  · rfl

namespace Statement

/-- The statement is true where no world has features. -/
def matchesEmpty (E : RegexEngine) (s : Statement) : Bool := s.sat (emptyFrame E) ()

/-- Without subscopes that is what the probe answers on the empty feature set. -/
theorem evaluateQuick_empty (E : RegexEngine) {s : Statement} (hfree : s.SubscopeFree) :
    s.evaluateQuick E .empty = .ok (s.matchesEmpty E) := by
  rw [evaluateQuick_eq hfree, holds, matchesEmpty]
  exact congrArg Except.ok (sat_congr hfree (fun _ _ => rfl) fun _ _ => rfl)

/-! ### Trees -/

mutual

/-- A tree without `not`, without blocks that need no child, and without counts that may be zero. -/
def positive : Statement → Bool
  | and kids => positiveKids kids
  | or kids => positiveKids kids
  | not _ => false
  | someOf n kids => n != 0 && positiveKids kids
  | range _ min _ => min != 0
  | subscope _ s => positive s
  | feature _ => true

/-- Every child slot holds a positive tree. -/
def positiveKids : List (Option Statement) → Bool
  | [] => true
  | none :: kids => positiveKids kids
  | some s :: kids => positive s && positiveKids kids

end

mutual

/-- A tree without a conjunction that has no members. -/
def filled : Statement → Bool
  | and kids => !kids.isEmpty && filledKids kids
  | or kids => filledKids kids
  | not s => filled s
  | someOf _ kids => filledKids kids
  | range _ _ _ => true
  | subscope _ s => filled s
  | feature _ => true

/-- Every child slot holds such a tree. -/
def filledKids : List (Option Statement) → Bool
  | [] => true
  | none :: kids => filledKids kids
  | some s :: kids => filled s && filledKids kids

end

/-- A statement is part of a tree. -/
inductive Part : Statement → Statement → Prop
  | refl (s : Statement) : Part s s
  | and {t s : Statement} {kids : List (Option Statement)} (hs : some s ∈ kids) (h : Part t s) :
    Part t (and kids)
  | or {t s : Statement} {kids : List (Option Statement)} (hs : some s ∈ kids) (h : Part t s) :
    Part t (or kids)
  | not {t s : Statement} (h : Part t s) : Part t (not s)
  | someOf {t s : Statement} {n : ℕ} {kids : List (Option Statement)} (hs : some s ∈ kids)
    (h : Part t s) : Part t (someOf n kids)
  | subscope {t s : Statement} {scope : Scope} (h : Part t s) : Part t (subscope scope s)

theorem positiveKids_iff (kids : List (Option Statement)) :
    positiveKids kids ↔ ∀ s, Option.some s ∈ kids → s.positive := by
  induction kids with
  | nil => simp [positiveKids]
  | cons kid kids ih => cases kid <;> simp [positiveKids, ih]

theorem filledKids_iff (kids : List (Option Statement)) :
    filledKids kids ↔ ∀ s, Option.some s ∈ kids → s.filled := by
  induction kids with
  | nil => simp [filledKids]
  | cons kid kids ih => cases kid <;> simp [filledKids, ih]

/-- A positive tree without an empty conjunction is false where there are no features. -/
theorem not_matchesEmpty (E : RegexEngine) {s : Statement} (hpos : s.positive)
    (hfilled : s.filled) : ¬s.matchesEmpty E := by
  induction s using inductionOn with
  | and kids ih =>
    rw [filled, Bool.and_eq_true, Bool.not_eq_true', List.isEmpty_eq_false_iff] at hfilled
    obtain ⟨kid, kids', rfl⟩ := List.exists_cons_of_ne_nil hfilled.1
    intro h
    -- the first member has to be there and to be true
    obtain ⟨s, rfl, hs⟩ := (satAll_iff _ _ _).mp h kid List.mem_cons_self
    exact ih s List.mem_cons_self ((positiveKids_iff _).mp hpos s List.mem_cons_self)
      ((filledKids_iff _).mp hfilled.2 s List.mem_cons_self) hs
  | or kids ih =>
    intro h
    obtain ⟨s, hmem, hs⟩ := (satAny_iff _ _ _).mp h
    exact ih s hmem ((positiveKids_iff _).mp hpos s hmem) ((filledKids_iff _).mp hfilled s hmem) hs
  | not s ih => exact absurd hpos (by simp [positive])
  | someOf n kids ih =>
    rw [positive, Bool.and_eq_true, bne_iff_ne] at hpos
    intro h
    have hcount : 0 < satCount (emptyFrame E) kids () :=
      (Nat.pos_of_ne_zero hpos.1).trans_le (of_decide_eq_true h)
    obtain ⟨s, hmem, hs⟩ := exists_of_satCount_pos _ hcount
    exact ih s hmem ((positiveKids_iff _).mp hpos.2 s hmem)
        ((filledKids_iff _).mp hfilled s hmem) hs
  | range f min max =>
    rw [positive, bne_iff_ne] at hpos
    have hnone : inRange 0 min max = false := by
      rw [inRange]
      simp [hpos]
    exact Bool.not_eq_true _ ▸ hnone
  | subscope scope s ih =>
    intro h
    obtain ⟨w, -, hw⟩ := List.any_eq_true.mp h
    exact ih hpos hfilled hw
  | feature f => exact Bool.not_eq_true _ ▸ matchesSet_empty E f

theorem Part.positive {t s : Statement} (h : Part t s) (hs : s.positive) : t.positive := by
  induction h with
  | refl => exact hs
  | and hmem _ ih => exact ih ((positiveKids_iff _).mp hs _ hmem)
  | or hmem _ ih => exact ih ((positiveKids_iff _).mp hs _ hmem)
  | not _ _ => exact absurd hs (by simp [Statement.positive])
  | someOf hmem _ ih =>
    rw [Statement.positive, Bool.and_eq_true] at hs
    exact ih ((positiveKids_iff _).mp hs.2 _ hmem)
  | subscope _ ih => exact ih hs

theorem Part.filled {t s : Statement} (h : Part t s) (hs : s.filled) : t.filled := by
  induction h with
  | refl => exact hs
  | and hmem _ ih =>
    rw [Statement.filled, Bool.and_eq_true] at hs
    exact ih ((filledKids_iff _).mp hs.2 _ hmem)
  | or hmem _ ih => exact ih ((filledKids_iff _).mp hs _ hmem)
  | not _ ih => exact ih hs
  | someOf hmem _ ih => exact ih ((filledKids_iff _).mp hs _ hmem)
  | subscope _ ih => exact ih hs

/-- A tree that is not filled has a conjunction without members. -/
theorem part_of_not_filled {s : Statement} (h : ¬s.filled) : Part (.and []) s := by
  have hkid {kids : List (Option Statement)} (h : ¬filledKids kids) :
      ∃ s, some s ∈ kids ∧ ¬s.filled := by
    rw [filledKids_iff] at h
    push Not at h
    exact h
  induction s using inductionOn with
  | and kids ih =>
    by_cases hnil : kids = []
    · exact hnil ▸ .refl _
    · have hkids : ¬filledKids kids := fun hkids => h (by simp [filled, hnil, hkids])
      obtain ⟨s, hmem, hs⟩ := hkid hkids
      exact .and hmem (ih s hmem hs)
  | or kids ih =>
    obtain ⟨s, hmem, hs⟩ := hkid h
    exact .or hmem (ih s hmem hs)
  | not s ih => exact .not (ih h)
  | someOf n kids ih =>
    obtain ⟨s, hmem, hs⟩ := hkid h
    exact .someOf hmem (ih s hmem hs)
  | range f min max => exact absurd rfl h
  | subscope scope s ih => exact .subscope (ih h)
  | feature f => exact absurd rfl h

/-- **Where no statement of a tree matches the empty set**: exactly where none is a conjunction
without members. -/
theorem filled_iff {s : Statement} (hpos : s.positive) :
    s.filled ↔ ∀ E t, Part t s → ¬t.matchesEmpty E := by
  refine ⟨fun hs E t ht => not_matchesEmpty E (ht.positive hpos) (ht.filled hs), fun h => ?_⟩
  by_contra hs
  exact h ⟨fun _ _ => true, fun _ _ _ => false⟩ _ (part_of_not_filled hs) rfl

end Statement

end Papa.Engine

namespace Papa.Rules

open Features Engine Util
open Util.Yaml (Node)

/-! ### Documents -/

/-- The keys whose list has to hold all at once. -/
def isConjunctionKey (key : Str) : Bool := key == str "and" || (subscopeScope key).isSome

/-- A list has an item that is no description. -/
def hasStatementItem : Node → Bool
  | .sequence items _ _ => items.any fun item => !isInlineDescriptionItem item
  | _ => false

mutual

/-- Below an item no list that has to hold all at once is one of descriptions only. -/
def filledItem : Node → Bool
  | .mapping ((key, value) :: _) _ _ =>
    (!isConjunctionKey key || hasStatementItem value) && filledChildren value
  | _ => true

/-- Nor below the statements of a list. -/
def filledChildren : Node → Bool
  | .sequence items _ _ => filledItems items
  | _ => true

/-- The loop of `filledChildren`. -/
def filledItems : List Node → Bool
  | [] => true
  | item :: items => (isInlineDescriptionItem item || filledItem item) && filledItems items

end

/-- The same for the list under `features:`, which has to hold all at once. -/
def filledRoot (node : Node) : Bool := hasStatementItem node && filledChildren node

/-- The list under `features:` of a document. -/
def documentFeatures (yamlText : Str) : Option Node :=
  match Yaml.parse yamlText with
  | .ok root => do
    let ruleNode ← root.find (str "rule")
    ruleNode.find (str "features")
  | .error _ => none

/-! ### Parsed statements -/

/-- The statements parsed from a list are as many as its items that are no descriptions, and filled
as these are. -/
def ChildParser.Fills (children : ChildParser) (value : Node) : Prop :=
  ∀ scope kids, children scope = .ok kids → (kids ≠ [] ↔ hasStatementItem value) ∧
    (Statement.filledKids (kids.map some) ↔ filledChildren value)

theorem conjoin_filled (kids : List Statement) :
    (conjoin kids).filled ↔ kids ≠ [] ∧ Statement.filledKids (kids.map some) := by
  match kids with
  | [] => simp [conjoin, Statement.filled]
  | [kid] => simp [conjoin, Statement.filledKids]
  | kid :: kid' :: kids => simp [conjoin, Statement.filled]

/-- No key of a subscope ends like a key of a block with a count. -/
theorem rfindStr_of_subscopeScope {key : Str} (h : (subscopeScope key).isSome) :
    key.rfindStr (str " or more") = none := by
  have hkeys : ∀ k ∈ [str "basic block", str "instruction", str "function", str "call",
      str "process", str "thread", str "span of calls"], k.rfindStr (str " or more") = none := by
    decide
  refine hkeys key ?_
  rw [subscopeScope] at h
  split_ifs at h <;> simp_all

/-- What is parsed from an item is filled. -/
def FillsItem (st : Statement) (key : Str) (value : Node) : Prop :=
  st.filled ↔ (isConjunctionKey key → hasStatementItem value) ∧ filledChildren value

section

variable {children : ChildParser} {key : Str} {node value : Node} {scope : Scope}
  {siblings : List (Str × Node)} {st : Statement}

/-- A statement from a scalar has no list below it. -/
theorem fillsItem_scalar {detail text : Str} (htext : scalarOr detail value = .ok text)
    (hkey : ¬isConjunctionKey key) (hst : st.filled) : FillsItem st key value := by
  refine iff_of_true hst ⟨fun h => absurd h hkey, ?_⟩
  cases value with
  | scalar => rfl
  | sequence => exact nomatch htext
  | mapping => exact nomatch htext

theorem parseOperator_fills (hchildren : children.Fills value)
    (h : parseOperator children key node value scope = some (.ok st)) : FillsItem st key value := by
  have hother {kids : List Statement} (hkids : children scope = .ok kids)
      (hkey : ¬isConjunctionKey key) (hst : st.filled = Statement.filledKids (kids.map some)) :
      FillsItem st key value := by
    rw [FillsItem, hst, (hchildren scope kids hkids).2]
    exact ⟨fun h => ⟨fun hk => absurd hk hkey, h⟩, fun h => h.2⟩
  unfold parseOperator at h
  split_ifs at h with hand hor hnot hoptional
  · obtain ⟨kids, hkids, h⟩ := bind_eq_ok.mp (Option.some.inj h)
    cases h
    obtain ⟨hitems, hfilled⟩ := hchildren scope kids hkids
    have hkey : isConjunctionKey key := by simp [isConjunctionKey, hand]
    rw [FillsItem, ← hitems, ← hfilled, Statement.filled, Bool.and_eq_true]
    exact and_congr_left' (by simp [hkey])
  · obtain ⟨kids, hkids, h⟩ := bind_eq_ok.mp (Option.some.inj h)
    cases h
    exact hother hkids (by rw [hor]; decide) rfl
  · obtain ⟨kids, hkids, h⟩ := bind_eq_ok.mp (Option.some.inj h)
    split at h
    · next kid =>
      cases h
      exact hother hkids (by rw [hnot]; decide) (by simp [Statement.filled, Statement.filledKids])
    · exact nomatch h
  · obtain ⟨kids, hkids, h⟩ := bind_eq_ok.mp (Option.some.inj h)
    cases h
    exact hother hkids (by rw [hoptional]; decide) rfl
  · split at h
    · exact nomatch h
    · next pos hpos =>
      split_ifs at h with hlen
      split at h
      · exact nomatch h
      · obtain ⟨kids, hkids, h⟩ := bind_eq_ok.mp (Option.some.inj h)
        cases h
        refine hother hkids (fun hkey => ?_) rfl
        rw [isConjunctionKey, Bool.or_eq_true, beq_iff_eq] at hkey
        have hnone := rfindStr_of_subscopeScope (hkey.resolve_left hand)
        exact absurd (hpos.symm.trans hnone) nofun

theorem parseSubscope_fills (hchildren : children.Fills value)
    (h : parseSubscope children key = some (.ok st)) : FillsItem st key value := by
  obtain ⟨inner, hinner, h⟩ := Option.map_eq_some_iff.mp h
  obtain ⟨kids, hkids, h⟩ := bind_eq_ok.mp h
  cases h
  obtain ⟨hitems, hfilled⟩ := hchildren inner kids hkids
  have hkey : isConjunctionKey key := by simp [isConjunctionKey, hinner]
  rw [FillsItem, ← hitems, ← hfilled, Statement.filled, conjoin_filled]
  exact and_congr_left' (by simp [hkey])

theorem parseCom_fills (hkey : ¬isConjunctionKey key)
    (h : parseCom key node value scope = some (.ok st)) : FillsItem st key value := by
  unfold parseCom at h
  split at h
  · exact nomatch h
  obtain ⟨text, htext, h⟩ := bind_eq_ok.mp (Option.some.inj h)
  split at h
  extract_lets desc comKind at h
  split at h
  · exact nomatch h
  · split_ifs at h
    · exact nomatch h
    · cases h
      exact fillsItem_scalar htext hkey rfl

theorem parseCount_fills (hkey : ¬isConjunctionKey key)
    (h : parseCount key node value scope = some (.ok st)) : FillsItem st key value := by
  unfold parseCount at h
  split_ifs at h
  · obtain ⟨text, htext, h⟩ := bind_eq_ok.mp (Option.some.inj h)
    obtain ⟨rng, -, h⟩ := bind_eq_ok.mp h
    cases h
    exact fillsItem_scalar htext hkey rfl
  · obtain ⟨⟨innerKey, innerValue⟩, -, h⟩ := Option.map_eq_some_iff.mp h
    obtain ⟨text, htext, h⟩ := bind_eq_ok.mp h
    obtain ⟨rng, -, h⟩ := bind_eq_ok.mp h
    obtain ⟨feat, -, h⟩ := bind_eq_ok.mp h
    split_ifs at h
    · exact nomatch h
    · cases h
      exact fillsItem_scalar htext hkey rfl

theorem parseLeaf_fills (hkey : ¬isConjunctionKey key)
    (h : parseLeaf key node value siblings scope = .ok st) : FillsItem st key value := by
  obtain ⟨text, htext, h⟩ := bind_eq_ok.mp h
  obtain ⟨desc, -, h⟩ := bind_eq_ok.mp h
  obtain ⟨feat, -, h⟩ := bind_eq_ok.mp h
  split_ifs at h
  · exact nomatch h
  · split at h
    · split_ifs at h
      · exact nomatch h
      · cases h
        exact fillsItem_scalar htext hkey rfl
    · cases h
      exact fillsItem_scalar htext hkey rfl

/-- Every branch makes a statement that is filled as its item is. -/
theorem parseKeyed_fills (hchildren : children.Fills value)
    (h : parseKeyed children key node value siblings scope = .ok st) : FillsItem st key value := by
  unfold parseKeyed at h
  cases hop : parseOperator children key node value scope with
  | some r =>
    rw [hop] at h
    exact parseOperator_fills hchildren (hop.trans (congrArg some h))
  | none =>
    cases hsub : parseSubscope children key with
    | some r =>
      rw [hop, hsub] at h
      exact parseSubscope_fills hchildren (hsub.trans (congrArg some h))
    | none =>
      have hkey : ¬isConjunctionKey key := by
        have hand : key ≠ str "and" := by
          rintro rfl
          exact nomatch hop
        have hscope : subscopeScope key = none := Option.map_eq_none_iff.mp hsub
        simp [isConjunctionKey, hand, hscope]
      cases hcom : parseCom key node value scope with
      | some r =>
        rw [hop, hsub, hcom] at h
        exact parseCom_fills hkey (hcom.trans (congrArg some h))
      | none =>
        cases hcount : parseCount key node value scope with
        | some r =>
          rw [hop, hsub, hcom, hcount] at h
          exact parseCount_fills hkey (hcount.trans (congrArg some h))
        | none =>
          rw [hop, hsub, hcom, hcount] at h
          exact parseLeaf_fills hkey h

end

mutual

theorem parseStatementItem_fills (node : Node) (scope : Scope) (st : Statement)
    (h : parseStatementItem node scope = .ok st) : st.filled ↔ filledItem node :=
  match node, h with
  | .mapping ((key, value) :: siblings) line column, h => by
    rw [parseStatementItem] at h
    have hfills : FillsItem st key value := parseKeyed_fills
      (fun s kids hkids => parseStatementChildren_fills value s kids hkids) h
    rw [FillsItem] at hfills
    rw [hfills, filledItem, Bool.and_eq_true, Bool.or_eq_true, Bool.not_eq_true',
      ← Bool.not_eq_true, ← imp_iff_not_or]
  | .mapping [] _ _, h => nomatch h
  | .scalar _ _ _, h => nomatch h
  | .sequence _ _ _, h => nomatch h

theorem parseStatementChildren_fills (node : Node) (scope : Scope) (kids : List Statement)
    (h : parseStatementChildren node scope = .ok kids) :
    (kids ≠ [] ↔ hasStatementItem node) ∧
      (Statement.filledKids (kids.map some) ↔ filledChildren node) :=
  match node, h with
  | .sequence items _ _, h => by
    rw [parseStatementChildren] at h
    exact parseStatementItems_fills items scope kids h
  | .scalar _ _ _, h => nomatch h
  | .mapping _ _ _, h => nomatch h

theorem parseStatementItems_fills (items : List Node) (scope : Scope) (kids : List Statement)
    (h : parseStatementItems items scope = .ok kids) :
    (kids ≠ [] ↔ items.any fun item => !isInlineDescriptionItem item) ∧
      (Statement.filledKids (kids.map some) ↔ filledItems items) :=
  match items, h with
  | [], h => by
    cases h
    exact ⟨by simp, Iff.rfl⟩
  | child :: rest, h => by
    rw [parseStatementItems] at h
    split_ifs at h with hdescription
    · obtain ⟨hitems, hfilled⟩ := parseStatementItems_fills rest scope kids h
      refine ⟨hitems.trans ?_, hfilled.trans ?_⟩
      · simp [hdescription]
      · simp [filledItems, hdescription]
    · obtain ⟨st, hst, h⟩ := bind_eq_ok.mp h
      obtain ⟨out, hout, h⟩ := bind_eq_ok.mp h
      cases h
      have hitem := parseStatementItem_fills child scope st hst
      have hrest := (parseStatementItems_fills rest scope out hout).2
      refine ⟨by simp [hdescription], ?_⟩
      rw [List.map_cons, Statement.filledKids, filledItems, Bool.and_eq_true, Bool.and_eq_true,
        hitem, hrest]
      simp [hdescription]

end

theorem parseFeaturesRoot_fills {node : Node} {scope : Scope} {st : Statement}
    (h : parseFeaturesRoot node scope = .ok st) : st.filled ↔ filledRoot node := by
  unfold parseFeaturesRoot at h
  split at h
  · exact nomatch h
  · obtain ⟨kids, hkids, h⟩ := bind_eq_ok.mp h
    cases h
    obtain ⟨hitems, hfilled⟩ := parseStatementChildren_fills _ scope kids hkids
    rw [conjoin_filled, filledRoot, Bool.and_eq_true, hitems, hfilled]
  · exact nomatch h

/-- **Which accepted rules match nothing without features.** A rule that asks for no absence has no
statement that matches the empty feature set, neither as a whole nor in a subscope or another list,
exactly when no `and`, no subscope and not the list under `features:` is one of descriptions only.
-/
theorem RuleParser.parse_notVacuous_iff {yamlText sourcePath : Str} {r : Rule}
    (h : RuleParser.parse yamlText sourcePath = .ok r) (hpos : r.statement.positive) :
    (∀ E t, Statement.Part t r.statement → ¬t.matchesEmpty E) ↔
      ∀ node ∈ documentFeatures yamlText, filledRoot node := by
  obtain ⟨root, ruleNode, featuresNode, hroot, hrule, -, hfeatures, hstatement⟩ :=
    RuleParser.parse_ok h
  have hdocument : documentFeatures yamlText = some featuresNode := by
    rw [documentFeatures, hroot]
    dsimp only
    rw [hrule]
    exact hfeatures
  rw [← Statement.filled_iff hpos, parseFeaturesRoot_fills hstatement, hdocument]
  simp

/-- A rule with a description beside the members of its conjunction. -/
theorem RuleParser.parse_notVacuous_described :
    ∃ r, RuleParser.parse (document ["rule:", "  meta:", "    name: a", "  features:",
        "    - and:", "      - description: b", "      - api: c"]) [] = .ok r ∧
      ∀ E t, Statement.Part t r.statement → ¬t.matchesEmpty E := by
  obtain ⟨r, h, hpos⟩ : ∃ r, RuleParser.parse (document ["rule:", "  meta:", "    name: a",
      "  features:", "    - and:", "      - description: b", "      - api: c"]) [] = .ok r ∧
      r.statement.positive := by
    decide +kernel
  exact ⟨r, h, (RuleParser.parse_notVacuous_iff h hpos).mpr (by decide +kernel)⟩

/-- Lists of descriptions under `features:`, under `and` and under a subscope are accepted, and
match without features. -/
theorem RuleParser.parse_vacuous :
    let E : RegexEngine := ⟨fun _ _ => true, fun _ _ _ => false⟩
    let Vacuous (lines : List String) := ∃ r,
      RuleParser.parse (document (["rule:", "  meta:", "    name: a", "  features:"] ++ lines)) [] =
        .ok r ∧ r.statement.positive ∧ r.statement.matchesEmpty E
    Vacuous ["    - description: b"] ∧
    Vacuous ["    - and:", "      - description: b"] ∧
    Vacuous ["    - basic block:", "      - description: b"] := by
  refine ⟨?_, ?_, ?_⟩ <;> decide +kernel

end Papa.Rules
