import Papa.Render.Report
import Papa.Render.Spec
import Papa.Util.JsonDocument

/-!
# The JSON report

Each function of the renderer writes one value; what it writes is the tree of its calls. A tree is
written by the calls of the writer in order.

## Main definitions

* `emitAddress`, `emitFeature`, `emitMatchNode`, `emitMeta`, `emitRules`: the values written.
* `renderToString`: the text of a document.
-/

namespace Papa.Render

open Features Engine Rules Util

/-! ### Scalars -/

/-- `value_string`. -/
def docString (s : Str) : Doc := .scalar (.string s)

/-- `value_uint`. -/
def docUint (n : UInt64) : Doc := .scalar (.uint n)

/-- `value_int`. -/
def docInt (n : Int64) : Doc := .scalar (.int n)

/-- `value_bool`. -/
def docBool (b : Bool) : Doc := .scalar (.bool b)

/-- `emit_string_array`. -/
def emitStringArray (items : List Str) : Doc := .array (items.map docString)

/-! ### Addresses and features -/

/-- `emit_address`. -/
def emitAddress : Address → Doc
  | .absoluteVirtual v =>
    .object [(str "type", docString (str "absolute")), (str "value", docUint v)]
  | .relativeVirtual v =>
    .object [(str "type", docString (str "relative")), (str "value", docUint v)]
  | .fileOffset v => .object [(str "type", docString (str "file")), (str "value", docUint v)]
  | .dnToken token =>
    .object [(str "type", docString (str "dn_token")), (str "value", docUint token)]
  | .dnTokenOffset token offset =>
    .object [(str "type", docString (str "dn_token_offset")), (str "token", docUint token),
      (str "offset", docUint offset)]
  | .noAddress => .object [(str "type", docString (str "none")), (str "value", .scalar .null)]

/-- `emit_number_value`. -/
def emitNumberValue : NumberValue → Doc
  | .uint64 v => docUint v
  | .int64 v => docInt v
  | .double bits => .scalar (.double bits)

/-- The digits of a byte. -/
def hexByte (b : UInt8) : Str :=
  [kHex.getD (b >>> 4).toNat 0, kHex.getD (b &&& 0xF).toNat 0]

/-- `emit_hex_bytes`. -/
def emitHexBytes (bytes : List UInt8) : Doc := docString (bytes.flatMap hexByte)

/-- The type and the key of a kind of feature that holds one string. -/
structure ValueFeatureJson where
  tag : FeatureTag
  type : Str
  key : Str
  deriving DecidableEq

/-- The kinds of features that hold one string. -/
def kValueFeatureJson : List ValueFeatureJson := [
  ⟨.os, str "os", str "os"⟩,
  ⟨.arch, str "arch", str "arch"⟩,
  ⟨.format, str "format", str "format"⟩,
  ⟨.matchedRule, str "match", str "match"⟩,
  ⟨.characteristic, str "characteristic", str "characteristic"⟩,
  ⟨.export_, str "export", str "export"⟩,
  ⟨.import_, str "import", str "import_"⟩,
  ⟨.section_, str "section", str "section"⟩,
  ⟨.functionName, str "function name", str "function_name"⟩,
  ⟨.substring, str "substring", str "substring"⟩,
  ⟨.regex, str "regex", str "regex"⟩,
  ⟨.string, str "string", str "string"⟩,
  ⟨.class_, str "class", str "class_"⟩,
  ⟨.namespace_, str "namespace", str "namespace"⟩,
  ⟨.api, str "api", str "api"⟩,
  ⟨.mnemonic, str "mnemonic", str "mnemonic"⟩]

/-- The members of a feature that holds one string. The source throws for a kind that the table does
not have; it is called for kinds of the table only. -/
def emitValue (tag : FeatureTag) (value : Str) : List (Str × Doc) :=
  match kValueFeatureJson.find? (·.tag = tag) with
  | some row => [(str "type", docString row.type), (row.key, docString value)]
  | none => []

/-- The members of a feature, without its description. -/
def featureMembers (v : FeatureValue) : List (Str × Doc) :=
  match v with
  | .os value | .arch value | .format value | .matchedRule value | .characteristic value
  | .export_ value | .import_ value | .section_ value | .functionName value | .substring value
  | .regex value | .string value | .class_ value | .namespace_ value | .api value
  | .mnemonic value => emitValue v.tag value
  | .property value access =>
    (str "type", docString (str "property")) ::
      (match access with
        | .read => [(str "access", docString (str "read"))]
        | .write => [(str "access", docString (str "write"))]
        | .none => []) ++ [(str "property", docString value)]
  | .number value => [(str "type", docString (str "number")), (str "number", emitNumberValue value)]
  | .bytes value => [(str "type", docString (str "bytes")), (str "bytes", emitHexBytes value)]
  | .offset value => [(str "type", docString (str "offset")), (str "offset", docInt value)]
  | .operandNumber index value =>
    [(str "type", docString (str "operand number")), (str "index", docUint (.ofNat index)),
      (str "operand_number", emitNumberValue value)]
  | .operandOffset index value =>
    [(str "type", docString (str "operand offset")), (str "index", docUint (.ofNat index)),
      (str "operand_offset", docInt value)]
  | .basicBlock => [(str "type", docString (str "basic block"))]

/-- `emit_feature`. -/
def emitFeature (f : Feature) : Doc :=
  .object (featureMembers f.value ++
    if f.description.isEmpty then [] else [(str "description", docString f.description)])

/-- A feature that is pointed to. No tree has a node without the feature it needs. -/
def emitPointed (f : Option Feature) : Doc := (f.map emitFeature).getD (.scalar .null)

/-! ### Match trees -/

/-- The members of a statement. -/
def statementMembers (node : MatchNode) : List (Str × Doc) :=
  (str "type", docString node.statementType) ::
    if node.statementType = str "some" ∧ node.count.isSome then
      [(str "count", docInt (node.count.getD 0))]
    else if node.statementType = str "range" then
      [(str "min", docInt (node.rangeMin.getD 0)), (str "max", docInt (node.rangeMax.getD 0)),
        (str "child", emitPointed node.rangeChild)]
    else if node.statementType = str "subscope" ∧ node.subscope.isSome then
      [(str "scope", docString ((node.subscope.map Scope.toString).getD []))]
    else []

/-- The feature or the statement of a node. -/
def emitNode (node : MatchNode) : Doc :=
  if node.isFeature then
    .object [(str "type", docString (str "feature")), (str "feature", emitPointed node.feature)]
  else
    .object [(str "type", docString (str "statement")),
      (str "statement", .object (statementMembers node))]

mutual

/-- `emit_match_node`. -/
def emitMatchNode : MatchNode → Doc
  | ⟨success, isFeature, feature, statementType, count, rangeMin, rangeMax, rangeChild, subscope,
      children, locations⟩ =>
    .object [
      (str "success", docBool success),
      (str "node", emitNode ⟨success, isFeature, feature, statementType, count, rangeMin, rangeMax,
        rangeChild, subscope, [], []⟩),
      (str "children", .array (emitMatchNodes children)),
      (str "locations", .array (locations.map emitAddress)),
      (str "captures", .object [])]

/-- The children of a node. -/
def emitMatchNodes : List MatchNode → List Doc
  | [] => []
  | node :: rest => emitMatchNode node :: emitMatchNodes rest

end

/-! ### Rules -/

/-- An entry of `emit_attack_array`. -/
def emitAttack (s : Str) : Doc :=
  let spec := attackFromString s
  .object [
    (str "parts", emitStringArray spec.parts),
    (str "tactic", docString spec.tactic),
    (str "technique", docString spec.technique),
    (str "subtechnique", docString spec.subtechnique),
    (str "id", docString spec.id)]

/-- An entry of `emit_mbc_array`. -/
def emitMbc (s : Str) : Doc :=
  let spec := mbcFromString s
  .object [
    (str "parts", emitStringArray spec.parts),
    (str "objective", docString spec.objective),
    (str "behavior", docString spec.behavior),
    (str "method", docString spec.method),
    (str "id", docString spec.id)]

/-- A member that may be missing. -/
def optionalMember (key : Str) (value : Option Str) : List (Str × Doc) :=
  (value.map fun v => (key, docString v)).toList

/-- `emit_rule_meta`. -/
def emitRuleMeta (rm : RuleMeta) : Doc :=
  .object ([(str "name", docString rm.name)] ++ optionalMember (str "namespace") rm.namespace_ ++ [
    (str "authors", emitStringArray rm.authors),
    (str "scopes", .object (
      optionalMember (str "static") (rm.scopes.staticScope.map Scope.toString) ++
        optionalMember (str "dynamic") (rm.scopes.dynamicScope.map Scope.toString))),
    (str "attack", .array (rm.attAndCk.map emitAttack)),
    (str "mbc", .array (rm.mbc.map emitMbc)),
    (str "references", emitStringArray rm.references),
    (str "examples", emitStringArray rm.examples),
    (str "description", docString (rm.description.getD [])),
    (str "lib", docBool rm.lib),
    (str "is_subscope_rule", docBool rm.isSubscopeRule),
    (str "maec", .object [])])

/-- The report of a rule. -/
def emitRule (rep : RuleReport) : Doc :=
  .object [
    (str "meta", emitRuleMeta rep.info),
    (str "source", docString rep.sourceYaml),
    (str "matches", .array (rep.matchTrees.map fun m =>
      .array [emitAddress m.1, emitMatchNode m.2]))]

/-- `emit_rules`. -/
def emitRules (doc : ResultDocument) : Doc :=
  .object (doc.rules.entries.map fun e => (e.1, emitRule e.2))

/-! ### The document -/

/-- A function of the layout. -/
def emitLayout (fn : FunctionMatchLayout) : Doc :=
  .object [
    (str "address", emitAddress fn.address),
    (str "matched_basic_blocks", .array (fn.matchedBasicBlocks.map fun bb =>
      .object [(str "address", emitAddress bb)]))]

/-- A function with the number of its features. -/
def emitFeatureCount (fc : Address × UInt64) : Doc :=
  .object [(str "address", emitAddress fc.1), (str "count", docUint fc.2)]

/-- A library function. -/
def emitLibraryFunction (lf : LibraryFunction) : Doc :=
  .object [(str "address", emitAddress lf.address), (str "name", docString lf.name)]

/-- The static analysis in `emit_meta`. -/
def emitAnalysis (a : StaticAnalysisMeta) : Doc :=
  .object [
    (str "format", docString a.format),
    (str "arch", docString a.arch),
    (str "os", docString a.os),
    (str "extractor", docString a.extractor),
    (str "rules", emitStringArray a.rulesPaths),
    (str "base_address", emitAddress (.absoluteVirtual a.baseAddress)),
    (str "layout", .object [(str "functions", .array (a.layout.map emitLayout))]),
    (str "feature_counts", .object [
      (str "file", docUint a.featureCountFile),
      (str "functions", .array (a.featureCountsFunctions.map emitFeatureCount))]),
    (str "library_functions", .array (a.libraryFunctions.map emitLibraryFunction))]

/-- `emit_meta`. -/
def emitMeta (m : Metadata) : Doc :=
  .object [
    (str "timestamp", docString m.timestamp),
    (str "version", docString m.version),
    (str "argv", emitStringArray m.argv),
    (str "sample", .object [
      (str "md5", docString m.hashes.md5),
      (str "sha1", docString m.hashes.sha1),
      (str "sha256", docString m.hashes.sha256),
      (str "path", docString m.samplePath)]),
    (str "flavor", docString (str "static")),
    (str "analysis", emitAnalysis m.analysis)]

/-- The whole document. -/
def emitDocument (doc : ResultDocument) : Doc :=
  .object [(str "meta", emitMeta doc.metadata), (str "rules", emitRules doc)]

/-- `render_to_string`. -/
def renderToString (doc : ResultDocument) (pretty : Bool) : Throws Str := do
  let w ← Writer.run { pretty } (emitDocument doc).calls
  pure w.out

end Papa.Render
