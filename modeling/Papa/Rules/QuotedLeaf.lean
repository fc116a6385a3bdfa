import Papa.Rules.ApiSpelling
import Papa.Rules.Parser
import Papa.Util.YamlQuoted

/-!
# Quoted strings in leaves

The value of a string leaf may be quoted, which settles its text for the document. The leaf then
looks for a description in that text, with quotes of its own, and trims it. So a quoted text is kept
exactly when it has no blanks around it and no separator of descriptions outside its own quotes;
and the text of a slash and an `i` counts as a pattern, although it has one slash only.

## Main definitions

* `Papa.Rules.IsStringFeature`: the feature a string leaf is meant to be.
* `Papa.Rules.ReadsQuoted`: a quoted string leaf is read as that feature.

## Main results

* `Papa.Rules.readsQuoted_iff`: which texts are kept.
-/

namespace Papa.Rules

open Features Engine Util
open Util.Yaml (Node QuotedScalar)

/-! ### String features -/

/-- A text between slashes, with an optional mark for ignoring case. -/
def HasRegexShape (v : Str) : Prop :=
  ∃ p : Str, v = ch '/' :: (p ++ str "/") ∨ v = ch '/' :: (p ++ str "/i")

/-- The feature a leaf `string` or `substring` of a text is meant to be. -/
inductive IsStringFeature : Str → Str → FeatureValue → Prop
  | regex {v : Str} (h : HasRegexShape v) : IsStringFeature (str "string") v (.regex v)
  | string {v : Str} (h : ¬HasRegexShape v) : IsStringFeature (str "string") v (.string v)
  | substring (v : Str) : IsStringFeature (str "substring") v (.substring v)

/-- The shape the parser tests is that of a pattern, or a slash and an `i`. -/
theorem isRegexShape_iff (v : Str) : isRegexShape v ↔ HasRegexShape v ∨ v = str "/i" := by
  have hsuffix (t : Str) : t.isSuffixOf v ↔ ∃ p, p ++ t = v := List.isSuffixOf_iff_suffix
  simp only [isRegexShape, Bool.and_eq_true, Bool.or_eq_true, decide_eq_true_eq, beq_iff_eq,
    hsuffix]
  constructor
  · rintro ⟨⟨hlen, hhead⟩, ⟨p, rfl⟩ | ⟨p, rfl⟩⟩
    · cases p with
      | nil => exact absurd hlen (by decide)
      | cons c p =>
        obtain rfl : c = ch '/' := by simpa using hhead
        exact Or.inl ⟨p, Or.inl rfl⟩
    · cases p with
      | nil => exact Or.inr rfl
      | cons c p =>
        obtain rfl : c = ch '/' := by simpa using hhead
        exact Or.inl ⟨p, Or.inr rfl⟩
  · rintro (⟨p, rfl | rfl⟩ | rfl)
    · exact ⟨⟨by simp [str], rfl⟩, Or.inl ⟨ch '/' :: p, rfl⟩⟩
    · exact ⟨⟨by simp [str], rfl⟩, Or.inr ⟨ch '/' :: p, rfl⟩⟩
    · exact ⟨⟨by decide, by decide⟩, Or.inr ⟨[], rfl⟩⟩

theorem not_hasRegexShape_slash_i : ¬HasRegexShape (str "/i") := by
  rintro ⟨p, h | h⟩
  · have hlast := congrArg List.getLast? h
    rw [← List.cons_append, List.getLast?_append] at hlast
    change some (ch 'i') = some (ch '/') at hlast
    exact absurd hlast (by decide)
  · have hlen := congrArg List.length h
    simp [str] at hlen

/-- The payload of a string leaf after its description was split off. -/
def stringLeaf (key value : Str) : FeatureValue :=
  if key = str "substring" then .substring value
  else if isRegexShape value then .regex value else .string value

theorem leafValue_string {key : Str} (hkey : key = str "string" ∨ key = str "substring")
    (value : Str) (line column : ℕ) :
    leafValue key value line column = .ok (stringLeaf key value) := by
  rcases hkey with rfl | rfl
  · rw [stringLeaf, if_neg (by decide)]; rfl
  · rfl

/-- A leaf of a text is the feature it is meant to be exactly when the text is the same and is not
a slash and an `i`. -/
theorem isStringFeature_stringLeaf {key : Str}
    (hkey : key = str "string" ∨ key = str "substring") (v value : Str) :
    IsStringFeature key v (stringLeaf key value) ↔
      value = v ∧ (key = str "string" → v ≠ str "/i") := by
  have hne : str "string" ≠ str "substring" := by decide
  rcases hkey with rfl | rfl
  · have hshape := isRegexShape_iff value
    rw [stringLeaf, if_neg hne]
    constructor
    · intro h
      split_ifs at h with hregex
      · generalize hf : FeatureValue.regex value = f at h
        generalize hk : str "string" = k at h
        cases h with
        | regex h =>
          obtain rfl := FeatureValue.regex.inj hf
          exact ⟨rfl, fun _ heq => not_hasRegexShape_slash_i (heq ▸ h)⟩
        | string => cases hf
        | substring => cases hf
      · generalize hf : FeatureValue.string value = f at h
        generalize hk : str "string" = k at h
        cases h with
        | regex => cases hf
        | string =>
          obtain rfl := FeatureValue.string.inj hf
          exact ⟨rfl, fun _ heq => hregex (hshape.mpr (Or.inr heq))⟩
        | substring => cases hf
    · rintro ⟨rfl, hslash⟩
      split_ifs with hregex
      · exact .regex ((hshape.mp hregex).resolve_right (hslash rfl))
      · exact .string fun h => hregex (hshape.mpr (Or.inl h))
  · rw [stringLeaf, if_pos rfl]
    constructor
    · intro h
      generalize hf : FeatureValue.substring value = f at h
      generalize hk : str "substring" = k at h
      cases h with
      | regex => cases hf
      | string => cases hf
      | substring => exact ⟨FeatureValue.substring.inj hf, fun heq => absurd heq.symm hne⟩
    · rintro ⟨rfl, -⟩
      exact .substring value

/-! ### The leaf -/

/-- The text keeps its blanks and holds no separator of descriptions outside its own quotes. -/
def KeepsText (v : Str) : Prop := findInlineDescSep v = none ∧ v.trim = v

/-- What is split off a text leaves it whole exactly when it keeps its text. -/
theorem splitLeafDescription_eq_iff (v : Str) :
    splitLeafDescription v [] = (v, []) ↔ KeepsText v := by
  rw [splitLeafDescription, splitInlineDescription, KeepsText]
  cases hsep : findInlineDescSep v with
  | none => simp
  | some pos =>
    refine iff_of_false (fun h => ?_) fun h => Option.some_ne_none pos h.1
    -- what comes before a separator is shorter than the text
    have hvalue : Str.trim (v.take pos) = v := congrArg Prod.fst h
    have hpos : pos < v.length := findInlineDescSep_lt hsep
    have hle : (Str.trim (v.take pos)).length ≤ (v.take pos).length :=
      (List.rdropWhile_prefix _ _).length_le.trans (List.dropWhile_suffix _).length_le
    rw [hvalue, List.length_take] at hle
    omega

/-- A string leaf of a text at a scope where strings are allowed. -/
theorem parseStatementItem_string {key : Str} (hkey : key = str "string" ∨ key = str "substring")
    {scope : Scope} (hscope : isFeatureAllowed .string scope) (v : Str) (l c line column : ℕ) :
    parseStatementItem (.mapping [(key, .scalar v l c)] line column) scope =
      .ok (.feature { value := stringLeaf key (splitLeafDescription v []).1,
                      description := (splitLeafDescription v []).2 }) := by
  have hallowed (value : Str) : isFeatureAllowed (stringLeaf key value).tag scope := by
    have htags : isFeatureAllowed .substring scope ∧ isFeatureAllowed .regex scope := by
      revert hscope
      cases scope <;> decide
    rw [stringLeaf]
    split_ifs
    · exact htags.1
    · exact htags.2
    · exact hscope
  have hkeyed : parseStatementItem (.mapping [(key, .scalar v l c)] line column) scope =
      parseLeaf key (.mapping [(key, .scalar v l c)] line column) (.scalar v l c) [] scope := by
    rcases hkey with rfl | rfl <;> rfl
  have hbuild : buildFeatureLeaf key v [] l c =
      .ok { value := stringLeaf key (splitLeafDescription v []).1,
            description := (splitLeafDescription v []).2 } := by
    rw [buildFeatureLeaf]
    dsimp only
    rw [leafValue_string hkey]
    rfl
  have hleaf (v : FeatureValue) :
      (∃ k w, v = stringLeaf k w) → ∀ name, v ≠ .characteristic name := by
    rintro ⟨k, w, rfl⟩ name
    rw [stringLeaf]
    split_ifs <;> rintro ⟨⟩
  rw [hkeyed, parseLeaf]
  change (buildFeatureLeaf key v [] l c >>= _) = _
  rw [hbuild]
  change (if (!isFeatureAllowed (stringLeaf key _).tag scope) = true then _ else _) = _
  rw [hallowed, if_neg (by decide)]
  split
  · next name hname => exact absurd hname (hleaf _ ⟨_, _, rfl⟩ name)
  · rfl

/-! ### The document -/

/-- A quoted string leaf is read as the feature it is meant to be, without a description, both when
it follows a dash on its line and when it is a line of a block mapping, whatever lines follow that
add no sibling to it. -/
def ReadsQuoted (key s v : Str) (scope : Scope) : Prop :=
  (∀ (value : Yaml.ValueParser) (ln : Yaml.Line) (rest after : List Yaml.Line),
    ln.payload = str "- " ++ (key ++ ch ':' :: ch ' ' :: s) →
    Yaml.compactLoop value (ln.indent + 2) rest.length rest = .ok ([], after) →
    ∃ node f, Yaml.sequenceItem value ln rest = .ok (node, after) ∧
      parseStatementItem node scope = .ok (.feature { value := f }) ∧ IsStringFeature key v f) ∧
  ∀ (value : Yaml.ValueParser) (ln : Yaml.Line) (rest after : List Yaml.Line) (fuel : ℕ),
    ln.payload = key ++ ch ':' :: ch ' ' :: s →
    Yaml.mappingLoop value ln.indent fuel rest = .ok ([], after) →
    ∃ entries f, Yaml.mappingLoop value ln.indent (fuel + 1) (ln :: rest) = .ok (entries, after) ∧
      (∀ line column, parseStatementItem (.mapping entries line column) scope =
        .ok (.feature { value := f })) ∧ IsStringFeature key v f

section Document

variable {key s v : Str} (hs : QuotedScalar s v)

include hs

theorem splitKey_quoted (hkey : key = str "string" ∨ key = str "substring") :
    Yaml.splitKey (key ++ ch ':' :: ch ' ' :: s) = some (key, s) := by
  have hplain : ∀ c ∈ key, c ≠ Yaml.kSingleQuote ∧ c ≠ Yaml.kDoubleQuote ∧ c ≠ ch ':' := by
    rcases hkey with rfl | rfl <;> decide
  rw [Yaml.splitKey_append hplain]
  obtain ⟨q, body, hq, rfl⟩ := hs.exists_eq
  rw [List.dropWhile_cons_of_neg]
  rcases hq with rfl | rfl <;> decide

/-- After a dash the item is a mapping with the text of the scalar. -/
theorem sequenceItem_quoted (hkey : key = str "string" ∨ key = str "substring")
    {value : Yaml.ValueParser} {ln : Yaml.Line} {rest after : List Yaml.Line}
    (hln : ln.payload = str "- " ++ (key ++ ch ':' :: ch ' ' :: s))
    (hrest : Yaml.compactLoop value (ln.indent + 2) rest.length rest = .ok ([], after)) :
    ∃ l c line column, Yaml.sequenceItem value ln rest =
      .ok (.mapping [(key, .scalar v l c)] line column, after) := by
  have hcontent : ln.payload.drop 2 = key ++ ch ':' :: ch ' ' :: s := by rw [hln]; rfl
  have hne : ¬(key ++ ch ':' :: ch ' ' :: s).isEmpty := by simp
  have hsne := hs.isEmpty_eq_false
  refine ⟨ln.lineNo, ln.indent + 2 + 1 + key.length + 2, ln.lineNo, ln.indent + 1, ?_⟩
  rw [Yaml.sequenceItem]
  dsimp only
  rw [hcontent, if_neg hne, splitKey_quoted hs hkey]
  dsimp only
  rw [Yaml.firstEntry, hsne, hs.isCommentOnly_eq_false, if_pos (by decide), hs.inlineScalar_eq]
  change (Yaml.compactLoop value (ln.indent + 2) rest.length rest >>= _) = _
  rw [hrest]
  rfl

/-- On a line of a block mapping the value is the text of the scalar. -/
theorem mappingLoop_quoted (hkey : key = str "string" ∨ key = str "substring")
    {value : Yaml.ValueParser} {ln : Yaml.Line} {rest after : List Yaml.Line} {fuel : ℕ}
    (hln : ln.payload = key ++ ch ':' :: ch ' ' :: s)
    (hrest : Yaml.mappingLoop value ln.indent fuel rest = .ok ([], after)) :
    ∃ l c, Yaml.mappingLoop value ln.indent (fuel + 1) (ln :: rest) =
      .ok ([(key, .scalar v l c)], after) := by
  have hhead : ∃ c cs, ln.payload = c :: cs ∧ c ≠ ch '#' ∧ c ≠ ch '-' := by
    rw [hln]
    rcases hkey with rfl | rfl
    · exact ⟨_, _, rfl, by decide, by decide⟩
    · exact ⟨_, _, rfl, by decide, by decide⟩
  have hmappingKey : Yaml.mappingKey key ln.lineNo (ln.indent + 1) = .ok key := by
    rcases hkey with rfl | rfl <;> rfl
  have hsplit := hln ▸ splitKey_quoted hs hkey
  obtain ⟨c, cs, hpayload, hhash, hdash⟩ := hhead
  have hskip : Yaml.skipBlankAndComment (ln :: rest) = ln :: rest :=
    List.dropWhile_cons_of_neg (by
      simp [Yaml.Line.isBlank, Yaml.Line.isComment, hpayload, hhash])
  refine ⟨ln.lineNo, ln.indent + 1 + key.length + 2, ?_⟩
  rw [Yaml.mappingLoop, hskip]
  dsimp only
  rw [if_neg (Nat.lt_irrefl _), if_neg (Nat.lt_irrefl _),
    if_neg (by simp [hpayload, hdash]), hsplit]
  dsimp only
  rw [hmappingKey]
  change (Yaml.entryValue value ln.indent ln key.length s rest >>= _) = _
  rw [Yaml.entryValue]
  dsimp only
  rw [hs.isEmpty_eq_false, hs.isCommentOnly_eq_false, hs.isBlockHeader_eq_false, if_neg (by decide),
    if_neg (by decide), hs.inlineScalar_eq]
  change (Yaml.mappingLoop value ln.indent fuel rest >>= _) = _
  rw [hrest]
  rfl

end Document

/-- A quoted text that is read as the feature it is meant to be is kept whole. -/
theorem keepsText_of_readsQuoted {key s v : Str} {scope : Scope} (hs : QuotedScalar s v)
    (hkey : key = str "string" ∨ key = str "substring") (hscope : isFeatureAllowed .string scope)
    (h : ReadsQuoted key s v scope) : KeepsText v ∧ (key = str "string" → v ≠ str "/i") := by
  have hitem := parseStatementItem_string hkey hscope v
  let value : Yaml.ValueParser := fun _ _ => .ok (.empty, [])
  let ln : Yaml.Line := ⟨1, 0, str "- " ++ (key ++ ch ':' :: ch ' ' :: s)⟩
  let rest : List Yaml.Line := []
  have hrest : Yaml.compactLoop value (ln.indent + 2) rest.length rest = .ok ([], rest) := rfl
  obtain ⟨node, f, hnode, hparse, hf⟩ := h.1 value ln rest rest rfl hrest
  obtain ⟨l, c, line, column, heq⟩ := sequenceItem_quoted hs hkey (rfl : ln.payload = _) hrest
  obtain rfl := (Prod.mk.inj (Except.ok.inj (heq.symm.trans hnode))).1
  have hfeature := Statement.feature.inj (Except.ok.inj ((hitem l c line column).symm.trans hparse))
  have hvalue : stringLeaf key (splitLeafDescription v []).1 = f := congrArg Feature.value hfeature
  have hdescription : (splitLeafDescription v []).2 = [] := congrArg Feature.description hfeature
  obtain ⟨htext, hslash⟩ := (isStringFeature_stringLeaf hkey v _).mp (hvalue ▸ hf)
  exact ⟨(splitLeafDescription_eq_iff v).mp (Prod.ext htext hdescription), hslash⟩

/-- **Which quoted strings are kept.** At every scope where strings are allowed, the leaf of a
quoted text is the feature it is meant to be, with exactly that text and without a description, when
the text has no blanks around it and no separator of descriptions outside its own quotes, and is not
a slash and an `i` in a leaf `string`; and only then. -/
theorem readsQuoted_iff {key s v : Str} {scope : Scope} (hs : QuotedScalar s v)
    (hkey : key = str "string" ∨ key = str "substring") (hscope : isFeatureAllowed .string scope) :
    ReadsQuoted key s v scope ↔
      findInlineDescSep v = none ∧ v.trim = v ∧ (key = str "string" → v ≠ str "/i") := by
  constructor
  · intro h
    obtain ⟨⟨hsep, htrim⟩, hslash⟩ := keepsText_of_readsQuoted hs hkey hscope h
    exact ⟨hsep, htrim, hslash⟩
  · rintro ⟨hsep, htrim, hslash⟩
    have hitem := parseStatementItem_string hkey hscope v
    have hsplit := (splitLeafDescription_eq_iff v).mpr ⟨hsep, htrim⟩
    have hf := (isStringFeature_stringLeaf hkey v v).mpr ⟨rfl, hslash⟩
    simp only [hsplit] at hitem
    refine ⟨fun value ln rest after hln hrest => ?_, fun value ln rest after fuel hln hrest => ?_⟩
    · obtain ⟨l, c, line, column, heq⟩ := sequenceItem_quoted hs hkey hln hrest
      exact ⟨_, _, heq, hitem l c line column, hf⟩
    · obtain ⟨l, c, heq⟩ := mappingLoop_quoted hs hkey hln hrest
      exact ⟨_, _, heq, hitem l c, hf⟩

/-- A text with a comma between apostrophes. -/
theorem readsQuoted_hello :
    ReadsQuoted (str "string") (39 :: (str "Hello, world" ++ [39])) (str "Hello, world")
      .function := by
  have hs : QuotedScalar (39 :: (str "Hello, world" ++ [39])) (str "Hello, world") :=
    .single (str "Hello, world")
  exact (readsQuoted_iff hs (Or.inl rfl) (by decide)).mpr (by decide)

/-- A quoted text with an equals sign between spaces is cut there, one that starts with a space
loses it, and a slash and an `i` is a pattern. -/
theorem quoted_text_changed :
    let read (v : Str) := parseStatementItem
      (.mapping [(str "string", .scalar v 1 1)] 1 1) .function
    QuotedScalar (39 :: (str "a = b" ++ [39])) (str "a = b") ∧
    read (str "a = b") = .ok (.feature { value := .string (str "a"), description := str "b" }) ∧
    read (str " a") = .ok (.feature { value := .string (str "a") }) ∧
    read (str "/i") = .ok (.feature { value := .regex (str "/i") }) ∧
    ¬ReadsQuoted (str "string") (39 :: (str "a = b" ++ [39])) (str "a = b") .function := by
  intro read
  have hs : QuotedScalar (39 :: (str "a = b" ++ [39])) (str "a = b") := .single (str "a = b")
  refine ⟨hs, rfl, rfl, rfl, fun h => ?_⟩
  have hsep := (keepsText_of_readsQuoted hs (Or.inl rfl) (by decide) h).1.1
  exact absurd hsep (by decide)

end Papa.Rules
