import Papa.Rules.Literal

/-!
# Leaves of rules

A leaf of a rule document is a key with a scalar value, which becomes a feature. An inline
description is split off the value first; a description beside the leaf wins over it.

## Main definitions

* `Papa.Rules.buildFeatureLeaf`: the feature of a key and its value.
* `Papa.Rules.splitCountCall`: the key and the value inside `count(...)`.

## Main results

* `Papa.Rules.buildFeatureLeaf_ne_basicBlock`: no leaf is a basic block.
-/

namespace Papa.Rules

open Features Util

/-- Drop the module of an import name with exactly one point; an ordinal stays whole. -/
def trimDllPart (api : Str) : Str :=
  if (api.findStr (str ".#")).isSome then api
  else if api.count (ch '.') = 1 ∧ (api.findStr (str "::")).isNone then
    api.drop (((api.find (ch '.')).getD 0) + 1)
  else api

/-- Split an inline description off the value of a leaf. -/
def splitLeafDescription (text description : Str) : Str × Str :=
  let (value, inlineDesc) := splitInlineDescription text
  (value, if description.isEmpty then inlineDesc.getD description else description)

/-- A number as a signed offset, or `none` for a floating point one. -/
def asOffset : NumberValue → Option Int64
  | .int64 i => some i
  | .uint64 u => some u.toInt64
  | .double _ => none

/-- An error at the position of a leaf. -/
def leafError (detail : Str) (line column : ℕ) : Expected FeatureValue :=
  .error (ruleErrorAt detail line column)

/-- `operand[i].number` and `operand[i].offset`. -/
def operandLeaf (key value : Str) (line column : ℕ) : Expected FeatureValue :=
  match key.find (ch ']') with
  | none => leafError (str "malformed operand key: " ++ key) line column
  | some bracketClose =>
    match (parseSizeT ((key.take bracketClose).drop 8)).filter (· ≤ 4) with
    | none => leafError (str "operand index out of range: " ++ key) line column
    | some idx =>
      let kind := key.drop (bracketClose + 1)
      if kind ≠ str ".number" ∧ kind ≠ str ".offset" then
        leafError (str "unknown operand suffix: " ++ key) line column
      else do
        let num ← parseNumber value
        if kind = str ".number" then pure (.operandNumber idx num)
        else
          match asOffset num with
          | none => leafError (str "operand offset cannot be floating point") line column
          | some off => pure (.operandOffset idx off)

/-- `property/read` and `property/write`. -/
def propertyLeaf (key value : Str) (line column : ℕ) : Expected FeatureValue :=
  let suffix := key.drop (str "property/").length
  if suffix = str "read" then .ok (.property value .read)
  else if suffix = str "write" then .ok (.property value .write)
  else leafError (str "unknown property access: " ++ key) line column

/-- `number` and `offset`. -/
def numberLeaf (key value : Str) (line column : ℕ) : Expected FeatureValue := do
  let num ← parseNumber value
  if key = str "number" then pure (.number num)
  else
    match asOffset num with
    | none => leafError (str "offset cannot be floating point") line column
    | some off => pure (.offset off)

/-- `bytes`. -/
def bytesLeaf (value : Str) (line column : ℕ) : Expected FeatureValue := do
  let bl ← parseBytesLiteral value
  if bl.hasWildcards then
    leafError (str "bytes wildcards are not yet supported in v1") line column
  else pure (.bytes (bl.pattern.filterMap id))

/-- A string literal between slashes, with an optional mark for ignoring case, is a pattern. -/
def isRegexShape (value : Str) : Bool :=
  2 ≤ value.length && value.head? == some (ch '/') &&
    ((str "/").isSuffixOf value || (str "/i").isSuffixOf value)

/-- The keys that name a feature with a string as its payload, and those features. -/
def valueLeaves (value : Str) : List (Str × FeatureValue) :=
  [(str "api", .api (trimDllPart value)),
    (str "import", .import_ value),
    (str "export", .export_ value),
    (str "section", .section_ value),
    (str "function-name", .functionName value),
    (str "mnemonic", .mnemonic value),
    (str "characteristic", .characteristic value),
    (str "class", .class_ value),
    (str "namespace", .namespace_ value),
    (str "os", .os value),
    (str "arch", .arch value),
    (str "format", .format value),
    (str "match", .matchedRule value),
    (str "string", if isRegexShape value then .regex value else .string value),
    (str "substring", .substring value)]

/-- The feature that a key names with a string as its payload, or `none` for any other key. -/
def valueLeaf (key value : Str) : Option FeatureValue :=
  ((valueLeaves value).find? fun leaf => leaf.1 == key).map Prod.snd

/-- The payload of the feature of a leaf. -/
def leafValue (key value : Str) (line column : ℕ) : Expected FeatureValue :=
  if (str "operand[").isPrefixOf key then operandLeaf key value line column
  else if (str "property/").isPrefixOf key then propertyLeaf key value line column
  else if key = str "number" ∨ key = str "offset" then numberLeaf key value line column
  else if key = str "bytes" then bytesLeaf value line column
  else
    match valueLeaf key value with
    | some feat => .ok feat
    | none => leafError (str "unknown feature key: " ++ key) line column

/-- The feature of a leaf, from its key and the text of its value. -/
def buildFeatureLeaf (key rawValue description : Str) (line column : ℕ) : Expected Feature := do
  let (value, desc) := splitLeafDescription rawValue description
  let feat ← leafValue key value line column
  pure { value := feat, description := desc }

/-- The key and the value inside `count(...)`. -/
def splitCountCall (key : Str) : Option (Str × Str) :=
  if !(str "count(").isPrefixOf key || !(str ")").isSuffixOf key then none
  else
    let inner := (key.drop (str "count(").length).dropLast
    match Str.find inner (ch '(') with
    | none => none
    | some open_ =>
      if !(str ")").isSuffixOf inner then none
      else some (inner.take open_, (inner.drop (open_ + 1)).dropLast)

/-! ### What a leaf can be -/

theorem operandLeaf_ne_basicBlock {key value : Str} {line column : ℕ} {v : FeatureValue}
    (h : operandLeaf key value line column = .ok v) : v ≠ .basicBlock := by
  unfold operandLeaf at h
  split at h
  · exact nomatch h
  · split at h
    · exact nomatch h
    · extract_lets kind at h
      split_ifs at h with hkind
      · exact nomatch h
      · obtain ⟨num, -, h⟩ := bind_eq_ok.mp h
        cases h
        exact nofun
      · obtain ⟨num, -, h⟩ := bind_eq_ok.mp h
        split at h
        · exact nomatch h
        · cases h
          exact nofun

theorem valueLeaves_ne_basicBlock (value : Str) :
    ∀ leaf ∈ valueLeaves value, leaf.2 ≠ .basicBlock := by
  have hstring : (if isRegexShape value then FeatureValue.regex value else .string value) ≠
      .basicBlock := by
    split_ifs
    · exact nofun
    · exact nofun
  simpa [valueLeaves] using hstring

theorem valueLeaf_ne_basicBlock {key value : Str} {v : FeatureValue}
    (h : valueLeaf key value = some v) : v ≠ .basicBlock := by
  obtain ⟨leaf, hfind, rfl⟩ := Option.map_eq_some_iff.mp h
  exact valueLeaves_ne_basicBlock value leaf (List.mem_of_find?_eq_some hfind)

theorem leafValue_ne_basicBlock {key value : Str} {line column : ℕ} {v : FeatureValue}
    (h : leafValue key value line column = .ok v) : v ≠ .basicBlock := by
  unfold leafValue at h
  split_ifs at h with hoperand hproperty hnumber hbytes
  · exact operandLeaf_ne_basicBlock h
  · unfold propertyLeaf at h
    extract_lets suffix at h
    split_ifs at h <;> cases h <;> exact nofun
  · obtain ⟨num, -, h⟩ := bind_eq_ok.mp h
    split_ifs at h
    · cases h
      exact nofun
    · split at h <;> cases h
      exact nofun
  · obtain ⟨bl, -, h⟩ := bind_eq_ok.mp h
    split_ifs at h <;> cases h
    exact nofun
  · split at h
    · next feat hfeat =>
      cases h
      exact valueLeaf_ne_basicBlock hfeat
    · exact nomatch h

/-- **No leaf is a basic block**: that tag is for extractors. -/
theorem buildFeatureLeaf_ne_basicBlock {key rawValue description : Str} {line column : ℕ}
    {f : Feature} (h : buildFeatureLeaf key rawValue description line column = .ok f) :
    f.value ≠ .basicBlock := by
  obtain ⟨v, hv, h⟩ := bind_eq_ok.mp h
  cases h
  exact leafValue_ne_basicBlock hv

end Papa.Rules
