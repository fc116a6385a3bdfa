import Papa.Rules.ComLookup
import Papa.Rules.Leaf
import Papa.Rules.Rule
import Papa.Rules.ScopeConformance
import Papa.Util.Yaml

/-!
# The rule parser

A rule document becomes a rule: its metadata, and the tree of its features. Each family of keys has
its parser, which gives `none` for a key of another family. The parsers of one item take the parser
of the children below it, which the source declares ahead, as their first argument.

The features of a parsed rule carry no object identity of their own.

## Main definitions

* `Papa.Rules.parseMeta`: the metadata.
* `Papa.Rules.parseStatementItem`, `Papa.Rules.parseStatementChildren`: the tree.
* `Papa.Rules.RuleParser.parse`: the parser.

## Main results

* `Papa.Rules.parseMeta_name`: an accepted rule has a name.
* `Papa.Rules.RuleParser.parse_ok`: what an accepted document consists of.
-/

namespace Papa.Rules

open Features Engine Util
open Util.Yaml (Node)

/-- An error of the rule parser at the position of a node. -/
def nodeError {α : Type} (detail : Str) (node : Node) : Expected α :=
  .error (ruleErrorAt detail node.line node.column)

/-! ### Metadata -/

/-- The scope of a name. An unsupported scope is an absent one. -/
def parseScopeName (name : Str) : Expected (Option Scope) :=
  let t := name.trim
  if t = str "file" then .ok (some .file)
  else if t = str "function" then .ok (some .function)
  else if t = str "basic block" then .ok (some .basicBlock)
  else if t = str "instruction" then .ok (some .instruction)
  else if t = str "global" then .ok (some .global)
  else if t = str "process" then .ok (some .process)
  else if t = str "thread" then .ok (some .thread)
  else if t = str "call" then .ok (some .call)
  else if t = str "span of calls" then .ok (some .spanOfCalls)
  else if t = str "unsupported" then .ok none
  else .error (ruleError (str "unknown scope name: " ++ t))

/-- The text of a scalar node, or an error at its position. -/
def scalarOr (detail : Str) : Node → Expected Str
  | .scalar text _ _ => .ok text
  | node => nodeError detail node

/-- The texts of a sequence of scalars. -/
def collectStringList (seq : Node) (ctx : String) : Expected (List Str) :=
  match seq with
  | .sequence items _ _ => items.mapM (scalarOr (str ctx ++ str " entries must be scalar"))
  | _ => nodeError (str ctx ++ str " must be a sequence") seq

/-- One entry of `meta.scopes`. -/
def scopesEntry (out : Scopes) (entry : Str × Node) : Expected Scopes := do
  let text ← scalarOr (str "'meta.scopes' entries must be scalar") entry.2
  let scope ← parseScopeName text
  if entry.1 = str "static" then pure { out with staticScope := scope }
  else if entry.1 = str "dynamic" then pure { out with dynamicScope := scope }
  else nodeError (str "unknown scopes key: " ++ entry.1) entry.2

/-- One entry of `meta`. Unknown keys are skipped. -/
def metaEntry (out : RuleMeta) (entry : Str × Node) : Expected RuleMeta :=
  let (key, val) := entry
  if key = str "name" then do
    let text ← scalarOr (str "'meta.name' must be scalar") val
    pure { out with name := text }
  else if key = str "namespace" then do
    let text ← scalarOr (str "'meta.namespace' must be scalar") val
    pure (if text.isEmpty then out else { out with namespace_ := some text })
  else if key = str "scope" then do
    let text ← scalarOr (str "'meta.scope' must be scalar") val
    let scope ← parseScopeName text
    pure { out with scopes := { out.scopes with staticScope := scope } }
  else if key = str "scopes" then
    match val with
    | .mapping entries _ _ => do
      let scopes ← entries.foldlM scopesEntry out.scopes
      pure { out with scopes := scopes }
    | _ => nodeError (str "'meta.scopes' must be a mapping") val
  else if key = str "authors" then do
    let texts ← collectStringList val "meta.authors"
    pure { out with authors := out.authors ++ texts }
  else if key = str "att&ck" then do
    let texts ← collectStringList val "meta.att&ck"
    pure { out with attAndCk := out.attAndCk ++ texts }
  else if key = str "mbc" then do
    let texts ← collectStringList val "meta.mbc"
    pure { out with mbc := out.mbc ++ texts }
  else if key = str "examples" then do
    let texts ← collectStringList val "meta.examples"
    pure { out with examples := out.examples ++ texts }
  else if key = str "references" then do
    let texts ← collectStringList val "meta.references"
    pure { out with references := out.references ++ texts }
  else if key = str "description" then do
    let text ← scalarOr (str "'meta.description' must be scalar") val
    pure { out with description := some text }
  else if key = str "lib" then do
    let text ← scalarOr (str "'meta.lib' must be scalar") val
    pure { out with lib := text = str "true" ∨ text = str "True" ∨ text = str "yes" }
  else .ok out

/-- The metadata of a rule. -/
def parseMeta (ruleNode : Node) (out : RuleMeta) : Expected RuleMeta :=
  match ruleNode.find (str "meta") with
  | none => nodeError (str "rule is missing 'meta:'") ruleNode
  | some metaNode =>
    match metaNode with
    | .mapping entries _ _ => do
      let out ← entries.foldlM metaEntry out
      if out.name.isEmpty then nodeError (str "rule is missing 'meta.name'") metaNode
      else pure out
    | _ => nodeError (str "'meta:' must be a mapping") metaNode

/-- **An accepted rule has a name.** -/
theorem parseMeta_name {ruleNode : Node} {out info : RuleMeta}
    (h : parseMeta ruleNode out = .ok info) : info.name ≠ [] := by
  unfold parseMeta at h
  split at h
  · exact nomatch h
  · split at h
    · obtain ⟨out', -, h⟩ := bind_eq_ok.mp h
      split_ifs at h with hempty
      · exact nomatch h
      · cases h
        exact fun hnil => hempty (List.isEmpty_iff.mpr hnil)
    · exact nomatch h

/-! ### Items of the tree -/

/-- The parser of the children of a node at a scope. -/
abbrev ChildParser := Scope → Expected (List Statement)

/-- A parser of one family of keys gives `none` for any other key. -/
abbrev MaybeStatement := Option (Expected Statement)

/-- An item that describes its parent. -/
def isInlineDescriptionItem : Node → Bool
  | .mapping ((key, _) :: _) _ _ => key = str "description"
  | _ => false

/-- `and`, `or`, `not`, `optional` and `N or more`, over a sequence of children. -/
def parseOperator (children : ChildParser) (key : Str) (node value : Node) (scope : Scope) :
    MaybeStatement :=
  if key = str "and" then some do
    let kids ← children scope
    pure (.and (kids.map some))
  else if key = str "or" then some do
    let kids ← children scope
    pure (.or (kids.map some))
  else if key = str "not" then some do
    let kids ← children scope
    match kids with
    | [kid] => pure (.not kid)
    | _ => nodeError (str "'not' takes exactly one child") value
  else if key = str "optional" then some do
    let kids ← children scope
    pure (.someOf 0 (kids.map some))
  else
    match key.rfindStr (str " or more") with
    | none => none
    | some pos =>
      if pos + (str " or more").length ≠ key.length then none
      else
        match parseSizeT (key.take pos) with
        | none => some (nodeError (str "malformed N-or-more: " ++ key) node)
        | some n => some do
          let kids ← children scope
          pure (.someOf n (kids.map some))

/-- The scope a subscope key opens. -/
def subscopeScope (key : Str) : Option Scope :=
  if key = str "basic block" then some .basicBlock
  else if key = str "instruction" then some .instruction
  else if key = str "function" then some .function
  else if key = str "call" then some .call
  else if key = str "process" then some .process
  else if key = str "thread" then some .thread
  else if key = str "span of calls" then some .spanOfCalls
  else none

/-- One statement, or the conjunction of several. -/
def conjoin : List Statement → Statement
  | [kid] => kid
  | kids => .and (kids.map some)

/-- A subscope block. Its children are parsed at its own scope. -/
def parseSubscope (children : ChildParser) (key : Str) : MaybeStatement :=
  (subscopeScope key).map fun subscopeKind => do
    let kids ← children subscopeKind
    pure (.subscope subscopeKind (conjoin kids))

/-- `com/class` and `com/interface`: the bytes of a GUID or its text. -/
def parseCom (key : Str) (node value : Node) (scope : Scope) : MaybeStatement :=
  if key ≠ str "com/class" ∧ key ≠ str "com/interface" then none
  else some do
    let text ← scalarOr (str "'" ++ key ++ str "' value must be scalar") value
    let (namePart, desc) := splitInlineDescription text
    let desc := desc.getD []
    let comKind := if key = str "com/class" then ComKind.class_ else .interface_
    match lookupCom comKind namePart with
    | none =>
      nodeError (str "unknown COM " ++ (if comKind = .class_ then str "class" else str "interface")
        ++ str " name: " ++ namePart) value
    | some entry =>
      if !isFeatureAllowed .bytes scope || !isFeatureAllowed .string scope then
        nodeError (str "'" ++ key ++ str "' not allowed at scope " ++ scope.toString) node
      else
        pure (.or [some (.feature { value := .bytes entry.guidBytes, description := desc }),
          some (.feature { value := .string entry.guidString, description := desc })])

/-- `count(basic blocks)` and `count(feature(value))`, bounded by a scalar range. -/
def parseCount (key : Str) (node value : Node) (scope : Scope) : MaybeStatement :=
  if key = str "count(basic blocks)" ∨ key = str "count(basic block)" then some do
    let text ← scalarOr (str "count(basic blocks) value must be a scalar range") value
    let rng ← parseCountRange text
    pure (.range { value := .basicBlock } rng.min rng.max)
  else
    (splitCountCall key).map fun (innerKey, innerValue) => do
      let text ← scalarOr (str "count(...) value must be a scalar range") value
      let rng ← parseCountRange text
      let feat ← buildFeatureLeaf innerKey innerValue [] node.line node.column
      if !isFeatureAllowed feat.tag scope then
        nodeError (str "feature in count(): " ++ innerKey ++ str " not allowed at scope " ++
          scope.toString) node
      else pure (.range feat rng.min rng.max)

/-- One sibling of a leaf, which may only be its description. -/
def siblingEntry (_ : Str) (entry : Str × Node) : Expected Str :=
  if entry.1 = str "description" then scalarOr (str "'description' must be scalar") entry.2
  else nodeError (str "unexpected sibling key in feature mapping: " ++ entry.1) entry.2

/-- A leaf with an optional description beside it, checked against the scope. -/
def parseLeaf (key : Str) (node value : Node) (siblings : List (Str × Node)) (scope : Scope) :
    Expected Statement := do
  let text ← scalarOr (str "feature '" ++ key ++ str "' expects a scalar value") value
  let siblingDesc ← siblings.foldlM siblingEntry []
  let feat ← buildFeatureLeaf key text siblingDesc value.line value.column
  if !isFeatureAllowed feat.tag scope then
    nodeError (str "feature '" ++ key ++ str "' not allowed at scope " ++ scope.toString) node
  else
    match feat.value with
    | .characteristic name =>
      if !isCharacteristicAllowed name scope then
        nodeError (str "characteristic '" ++ name ++ str "' not allowed at scope " ++
          scope.toString) node
      else pure (.feature feat)
    | _ => pure (.feature feat)

/-- The statement of an item whose first entry is `key: value`. -/
def parseKeyed (children : ChildParser) (key : Str) (node value : Node)
    (siblings : List (Str × Node)) (scope : Scope) : Expected Statement :=
  ((parseOperator children key node value scope).or <|
    (parseSubscope children key).or <|
    (parseCom key node value scope).or <|
    parseCount key node value scope).getD (parseLeaf key node value siblings scope)

/-! ### Trees -/

mutual

/-- The statement of one item, a mapping whose first key says what it is. -/
def parseStatementItem : Node → Scope → Expected Statement
  | .mapping ((key, value) :: siblings) line column, scope =>
    parseKeyed (parseStatementChildren value) key (.mapping ((key, value) :: siblings) line column)
      value siblings scope
  | .mapping [] line column, _ =>
    .error (ruleErrorAt (str "feature mapping is empty") line column)
  | .scalar _ line column, _ =>
    .error (ruleErrorAt (str "feature item must be a mapping") line column)
  | .sequence _ line column, _ =>
    .error (ruleErrorAt (str "feature item must be a mapping") line column)
  termination_by structural node => node

/-- The statements of a sequence of items, without those that describe their parent. -/
def parseStatementChildren : Node → Scope → Expected (List Statement)
  | .sequence items _ _, scope => parseStatementItems items scope
  | .scalar _ line column, _ =>
    .error (ruleErrorAt (str "expected a sequence of child statements") line column)
  | .mapping _ line column, _ =>
    .error (ruleErrorAt (str "expected a sequence of child statements") line column)
  termination_by structural node => node

/-- The loop of `parseStatementChildren`. -/
def parseStatementItems : List Node → Scope → Expected (List Statement)
  | [], _ => .ok []
  | child :: rest, scope =>
    if isInlineDescriptionItem child then parseStatementItems rest scope
    else do
      let st ← parseStatementItem child scope
      let out ← parseStatementItems rest scope
      pure (st :: out)
  termination_by structural items => items

end

/-- The tree under `features:`. -/
def parseFeaturesRoot (seqNode : Node) (scope : Scope) : Expected Statement :=
  match seqNode with
  | .sequence [] _ _ => nodeError (str "'features:' is empty") seqNode
  | .sequence _ _ _ => do
    let kids ← parseStatementChildren seqNode scope
    pure (conjoin kids)
  | _ => nodeError (str "'features:' must be a sequence") seqNode

/-- Parse one rule document. -/
def RuleParser.parse (yamlText sourcePath : Str) : Expected Rule := do
  let root ← Yaml.parse yamlText
  match root with
  | .mapping _ _ _ =>
    match root.find (str "rule") with
    | none => nodeError (str "missing top-level 'rule:'") root
    | some ruleNode =>
      match ruleNode with
      | .mapping _ _ _ => do
        let info ← parseMeta ruleNode { sourcePath := sourcePath }
        match ruleNode.find (str "features") with
        | none => nodeError (str "rule is missing 'features:'") ruleNode
        | some featuresNode => do
          let scope := info.scopes.staticScope.getD .function
          let statement ← parseFeaturesRoot featuresNode scope
          pure { info := info, statement := statement, definition := yamlText }
      | _ => nodeError (str "'rule:' must be a mapping") ruleNode
  | _ => nodeError (str "rule document must have a top-level mapping") root

/-- **What an accepted document consists of**: the metadata of its rule node, and the tree of its
features at the scope the rule is matched at. -/
theorem RuleParser.parse_ok {yamlText sourcePath : Str} {r : Rule}
    (h : RuleParser.parse yamlText sourcePath = .ok r) :
    ∃ root ruleNode featuresNode, Yaml.parse yamlText = .ok root ∧
      root.find (str "rule") = some ruleNode ∧
      parseMeta ruleNode { sourcePath := sourcePath } = .ok r.info ∧
      ruleNode.find (str "features") = some featuresNode ∧
      parseFeaturesRoot featuresNode r.scope = .ok r.statement := by
  obtain ⟨root, hroot, h⟩ := bind_eq_ok.mp h
  split at h
  · split at h
    · exact nomatch h
    · next ruleNode hrule =>
      split at h
      · obtain ⟨info, hmeta, h⟩ := bind_eq_ok.mp h
        split at h
        · exact nomatch h
        · next featuresNode hfeatures =>
          obtain ⟨statement, hstatement, h⟩ := bind_eq_ok.mp h
          cases h
          exact ⟨_, _, featuresNode, hroot, hrule, hmeta, hfeatures, hstatement⟩
      · exact nomatch h
  · exact nomatch h

end Papa.Rules
