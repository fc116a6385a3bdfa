import Papa.Library.JsonMembers
import Papa.Render.JsonReport

/-!
# Reading the JSON report

A consumer of the report reads its value member by member: names of features and statements, numbers
of any size, hexadecimal digits, the tree of a match. What it reads from the value that the renderer
writes is what the document tells: for every document nothing is lost but the kind of a number and
the fields that the report does not show.

## Main definitions

* `ToldFeature`, `ToldNode`, `ToldDocument`: what a report tells.
* `readFeature`, `readNode`, `readDocument`: what is read from a value.
* `toldNode`, `ResultDocument.told`: what a document tells.

## Main results

* `readFeature_emitFeature`, `readNode_emitMatchNode`: features and trees are read back.
* `readDocument_emitDocument`: the document is read back.
-/

namespace Papa.Render

open Features Engine Rules Util

/-! ### What a report tells -/

/-- The value of a feature. A number is told by its literal, one that is not finite as `null`. -/
inductive ToldValue
  | text (tag : FeatureTag) (value : Str)
  | property (access : Access) (value : Str)
  | number (literal : Option Str)
  | bytes (value : List UInt8)
  | offset (value : ℤ)
  | operandNumber (index : UInt64) (literal : Option Str)
  | operandOffset (index : UInt64) (value : ℤ)
  | basicBlock

/-- A feature. -/
structure ToldFeature where
  value : ToldValue
  description : Str

/-- A statement, with what its type tells. -/
structure ToldStatement where
  type : Str
  count : Option ℤ := none
  range : Option (ℤ × ℤ × ToldFeature) := none
  scope : Option Scope := none

/-- What a node of a tree wraps. -/
inductive ToldKind
  | feature (f : ToldFeature)
  | statement (s : ToldStatement)

/-- A node of a tree. -/
structure ToldNode where
  success : Bool
  kind : ToldKind
  children : List ToldNode
  locations : List Address

/-- The metadata of a rule. -/
structure ToldRuleMeta where
  name : Str
  namespace_ : Option Str
  authors : List Str
  scopes : Scopes
  attack : List AttackSpec
  mbc : List MbcSpec
  references : List Str
  examples : List Str
  description : Str
  lib : Bool
  isSubscopeRule : Bool

/-- A rule that matched. -/
structure ToldRule where
  info : ToldRuleMeta
  source : Str
  matchTrees : List (Address × ToldNode)

/-- A report. -/
structure ToldDocument where
  metadata : Metadata
  rules : List (Str × ToldRule)

/-! ### Reading -/

/-- An unsigned number. -/
def readUint : Json → Option UInt64
  | .number literal => (fromChars 10 literal).map UInt64.ofNat
  | _ => none

/-- A number without fraction. -/
def readInt : Json → Option ℤ
  | .number [] => none
  | .number (c :: literal) =>
    if c = ch '-' then (digits 10 literal).map fun n : ℕ => -(n : ℤ)
    else (digits 10 (c :: literal)).map fun n : ℕ => (n : ℤ)
  | _ => none

/-- The literal of a number, or `null`. -/
def readNumber : Json → Option (Option Str)
  | .number literal => some (some literal)
  | .null => some none
  | _ => none

/-- Bytes from their digits. -/
def readHex : Str → Option (List UInt8)
  | [] => some []
  | [_] => none
  | a :: b :: rest => do
    let high ← hexNibble a
    let low ← hexNibble b
    let bytes ← readHex rest
    pure (.ofNat (high * 16 + low) :: bytes)

/-- A string member. -/
def readString (key : Str) (j : Json) : Option Str := (j.get? key).bind Json.string?

/-- The items of an array member. -/
def readItems (key : Str) (j : Json) : Option (List Json) := (j.get? key).bind Json.items?

/-- An array of strings. -/
def readStrings (key : Str) (j : Json) : Option (List Str) :=
  (readItems key j).bind (·.mapM Json.string?)

/-- The scope of a name. -/
def readScope (name : Str) : Option Scope :=
  [Scope.file, .function, .basicBlock, .instruction, .global, .process, .thread, .call,
    .spanOfCalls].find? (·.toString = name)

def readAddress (j : Json) : Option Address := do
  let type ← readString (str "type") j
  let value := (j.get? (str "value")).bind readUint
  if type = str "absolute" then value.map .absoluteVirtual
  else if type = str "relative" then value.map .relativeVirtual
  else if type = str "file" then value.map .fileOffset
  else if type = str "dn_token" then value.map .dnToken
  else if type = str "dn_token_offset" then do
    let token ← (j.get? (str "token")).bind readUint
    let offset ← (j.get? (str "offset")).bind readUint
    pure (.dnTokenOffset token offset)
  else if type = str "none" then pure .noAddress
  else none

/-- The value of a feature. -/
def readFeatureValue (j : Json) : Option ToldValue := do
  let type ← readString (str "type") j
  let index := (j.get? (str "index")).bind readUint
  if type = str "property" then do
    let value ← readString (str "property") j
    match readString (str "access") j with
    | none => pure (.property .none value)
    | some access =>
      if access = str "read" then pure (.property .read value)
      else if access = str "write" then pure (.property .write value)
      else none
  else if type = str "number" then
    ((j.get? (str "number")).bind readNumber).map .number
  else if type = str "bytes" then ((readString (str "bytes") j).bind readHex).map .bytes
  else if type = str "offset" then ((j.get? (str "offset")).bind readInt).map .offset
  else if type = str "operand number" then do
    let index ← index
    let literal ← (j.get? (str "operand_number")).bind readNumber
    pure (.operandNumber index literal)
  else if type = str "operand offset" then do
    let index ← index
    let value ← (j.get? (str "operand_offset")).bind readInt
    pure (.operandOffset index value)
  else if type = str "basic block" then pure .basicBlock
  else do
    let row ← kValueFeatureJson.find? (·.type = type)
    let value ← readString row.key j
    pure (.text row.tag value)

def readFeature (j : Json) : Option ToldFeature :=
  (readFeatureValue j).map fun value => ⟨value, (readString (str "description") j).getD []⟩

def readStatement (j : Json) : Option ToldStatement := do
  let type ← readString (str "type") j
  if type = str "range" then do
    let min ← (j.get? (str "min")).bind readInt
    let max ← (j.get? (str "max")).bind readInt
    let child ← (j.get? (str "child")).bind readFeature
    pure { type, range := some (min, max, child) }
  else
    pure { type, count := (j.get? (str "count")).bind readInt,
           scope := (readString (str "scope") j).bind readScope }

/-- What a node wraps. -/
def readKind (j : Json) : Option ToldKind := do
  let type ← readString (str "type") j
  if type = str "feature" then ((j.get? (str "feature")).bind readFeature).map .feature
  else if type = str "statement" then ((j.get? (str "statement")).bind readStatement).map .statement
  else none

mutual

def readNode : Json → Option ToldNode
  | .object members => do
    let success ← (AssocList.get? (str "success") members).bind Json.bool?
    let kind ← (AssocList.get? (str "node") members).bind readKind
    let children ← readChildren members
    let locations ← readItems (str "locations") (.object members)
    let locations ← locations.mapM readAddress
    pure { success, kind, children, locations }
  | _ => none

/-- The children among the members of a node. -/
def readChildren : List (Str × Json) → Option (List ToldNode)
  | [] => none
  | (key, j) :: members => if key = str "children" then readNodeArray j else readChildren members

def readNodeArray : Json → Option (List ToldNode)
  | .array items => readNodes items
  | _ => none

def readNodes : List Json → Option (List ToldNode)
  | [] => some []
  | j :: rest => do
    let node ← readNode j
    let nodes ← readNodes rest
    pure (node :: nodes)

end

/-- An entry of the ATT&CK references. -/
def readAttack (j : Json) : Option AttackSpec := do
  let parts ← readStrings (str "parts") j
  let tactic ← readString (str "tactic") j
  let technique ← readString (str "technique") j
  let subtechnique ← readString (str "subtechnique") j
  let id ← readString (str "id") j
  pure { parts, tactic, technique, subtechnique, id }

/-- An entry of the MBC references. -/
def readMbc (j : Json) : Option MbcSpec := do
  let parts ← readStrings (str "parts") j
  let objective ← readString (str "objective") j
  let behavior ← readString (str "behavior") j
  let method ← readString (str "method") j
  let id ← readString (str "id") j
  pure { parts, objective, behavior, method, id }

def readRuleMeta (j : Json) : Option ToldRuleMeta := do
  let name ← readString (str "name") j
  let authors ← readStrings (str "authors") j
  let scopes ← j.get? (str "scopes")
  let attack ← (readItems (str "attack") j).bind (·.mapM readAttack)
  let mbc ← (readItems (str "mbc") j).bind (·.mapM readMbc)
  let references ← readStrings (str "references") j
  let examples ← readStrings (str "examples") j
  let description ← readString (str "description") j
  let lib ← (j.get? (str "lib")).bind Json.bool?
  let isSubscopeRule ← (j.get? (str "is_subscope_rule")).bind Json.bool?
  pure {
    name, authors, attack, mbc, references, examples, description, lib, isSubscopeRule
    namespace_ := readString (str "namespace") j
    scopes := {
      staticScope := (readString (str "static") scopes).bind readScope
      dynamicScope := (readString (str "dynamic") scopes).bind readScope } }

/-- An address with the tree of a match. -/
def readMatch (j : Json) : Option (Address × ToldNode) :=
  match j with
  | .array [address, node] => do
    let address ← readAddress address
    let node ← readNode node
    pure (address, node)
  | _ => none

def readRule (j : Json) : Option ToldRule := do
  let info ← (j.get? (str "meta")).bind readRuleMeta
  let source ← readString (str "source") j
  let matchTrees ← (readItems (str "matches") j).bind (·.mapM readMatch)
  pure { info, source, matchTrees }

/-- The rules, by their names. -/
def readRules : Json → Option (List (Str × ToldRule))
  | .object members => members.mapM fun e => (readRule e.2).map (e.1, ·)
  | _ => none

/-- An address member. -/
def readAddressMember (j : Json) : Option Address := (j.get? (str "address")).bind readAddress

def readLayout (j : Json) : Option FunctionMatchLayout := do
  let address ← readAddressMember j
  let matchedBasicBlocks ←
    (readItems (str "matched_basic_blocks") j).bind (·.mapM readAddressMember)
  pure { address, matchedBasicBlocks }

def readFeatureCount (j : Json) : Option (Address × UInt64) := do
  let address ← readAddressMember j
  let count ← (j.get? (str "count")).bind readUint
  pure (address, count)

def readLibraryFunction (j : Json) : Option LibraryFunction := do
  let address ← readAddressMember j
  let name ← readString (str "name") j
  pure { address, name }

def readAnalysis (j : Json) : Option StaticAnalysisMeta := do
  let format ← readString (str "format") j
  let arch ← readString (str "arch") j
  let os ← readString (str "os") j
  let extractor ← readString (str "extractor") j
  let rulesPaths ← readStrings (str "rules") j
  let base ← (j.get? (str "base_address")).bind readAddress
  let layout ← (j.get? (str "layout")).bind (readItems (str "functions"))
  let layout ← layout.mapM readLayout
  let featureCountFile ← ((j.get? (str "feature_counts")).bind (·.get? (str "file"))).bind readUint
  let counts ← (j.get? (str "feature_counts")).bind (readItems (str "functions"))
  let featureCountsFunctions ← counts.mapM readFeatureCount
  let libraryFunctions ←
    (readItems (str "library_functions") j).bind (·.mapM readLibraryFunction)
  match base with
  | .absoluteVirtual baseAddress =>
    pure { arch, os, format, extractor, rulesPaths, baseAddress, layout, featureCountFile,
           featureCountsFunctions, libraryFunctions }
  | _ => none

def readSample (j : Json) : Option (SampleHashes × Str) := do
  let md5 ← readString (str "md5") j
  let sha1 ← readString (str "sha1") j
  let sha256 ← readString (str "sha256") j
  let path ← readString (str "path") j
  pure ({ md5, sha1, sha256 }, path)

def readMeta (j : Json) : Option Metadata := do
  let timestamp ← readString (str "timestamp") j
  let version ← readString (str "version") j
  let argv ← readStrings (str "argv") j
  let sample ← (j.get? (str "sample")).bind readSample
  let analysis ← (j.get? (str "analysis")).bind readAnalysis
  pure { timestamp, version, argv, samplePath := sample.2, hashes := sample.1, analysis }

def readDocument (j : Json) : Option ToldDocument := do
  let metadata ← (j.get? (str "meta")).bind readMeta
  let rules ← (j.get? (str "rules")).bind readRules
  pure { metadata, rules }

/-! ### What a document tells -/

/-- The literal of a number, if it is finite. -/
def numberLiteral : NumberValue → Option Str
  | .uint64 v => some (toStr v.toNat)
  | .int64 v => some (toCharsInt v.toInt)
  | .double bits => if isFinite bits then some (toCharsDouble bits) else none

/-- What the report tells of the value of a feature. -/
def toldValue (v : FeatureValue) : ToldValue :=
  match v with
  | .os value | .arch value | .format value | .matchedRule value | .characteristic value
  | .export_ value | .import_ value | .section_ value | .functionName value | .substring value
  | .regex value | .string value | .class_ value | .namespace_ value | .api value
  | .mnemonic value => .text v.tag value
  | .property value access => .property access value
  | .number value => .number (numberLiteral value)
  | .bytes value => .bytes value
  | .offset value => .offset value.toInt
  | .operandNumber index value => .operandNumber (.ofNat index) (numberLiteral value)
  | .operandOffset index value => .operandOffset (.ofNat index) value.toInt
  | .basicBlock => .basicBlock

def toldFeature (f : Feature) : ToldFeature := ⟨toldValue f.value, f.description⟩

def toldStatement (node : MatchNode) : Option ToldStatement :=
  if node.statementType = str "some" ∧ node.count.isSome then
    some { type := node.statementType, count := node.count.map (·.toInt) }
  else if node.statementType = str "range" then
    node.rangeChild.map fun child =>
      { type := node.statementType
        range := some ((node.rangeMin.getD 0).toInt, (node.rangeMax.getD 0).toInt,
          toldFeature child) }
  else if node.statementType = str "subscope" ∧ node.subscope.isSome then
    some { type := node.statementType, scope := node.subscope }
  else some { type := node.statementType }

/-- What a node wraps. A node that misses its feature tells nothing. -/
def toldKind (node : MatchNode) : Option ToldKind :=
  if node.isFeature then node.feature.map fun f => .feature (toldFeature f)
  else (toldStatement node).map .statement

mutual

/-- What the report tells of a tree. -/
def toldNode : MatchNode → Option ToldNode
  | ⟨success, isFeature, feature, statementType, count, rangeMin, rangeMax, rangeChild, subscope,
      children, locations⟩ => do
    let kind ← toldKind ⟨success, isFeature, feature, statementType, count, rangeMin, rangeMax,
      rangeChild, subscope, [], []⟩
    let children ← toldNodes children
    pure { success, kind, children, locations }

def toldNodes : List MatchNode → Option (List ToldNode)
  | [] => some []
  | node :: rest => do
    let node ← toldNode node
    let nodes ← toldNodes rest
    pure (node :: nodes)

end

/-- What the report tells of a rule's metadata: a missing description as an empty one, and the
references as they are parsed. -/
def toldRuleMeta (rm : RuleMeta) : ToldRuleMeta where
  name := rm.name
  namespace_ := rm.namespace_
  authors := rm.authors
  scopes := rm.scopes
  attack := rm.attAndCk.map attackFromString
  mbc := rm.mbc.map mbcFromString
  references := rm.references
  examples := rm.examples
  description := rm.description.getD []
  lib := rm.lib
  isSubscopeRule := rm.isSubscopeRule

def toldMatch (e : Address × MatchNode) : Option (Address × ToldNode) := (toldNode e.2).map (e.1, ·)

def toldRule (rep : RuleReport) : Option ToldRule :=
  (rep.matchTrees.mapM toldMatch).map (⟨toldRuleMeta rep.info, rep.sourceYaml, ·⟩)

/-- What the report tells of a document. -/
def ResultDocument.told (doc : ResultDocument) : Option ToldDocument :=
  (doc.rules.entries.mapM fun e => (toldRule e.2).map (e.1, ·)).map (⟨doc.metadata, ·⟩)

/-! ### Members -/

section Members

variable {m : List (Str × Doc)} {k v : Str} {d : Doc} {β : Type} {f : Json → Option β}

theorem get?_json_object (k : Str) :
    (Doc.object m).json.get? k = (AssocList.get? k m).map Doc.json := by
  rw [Doc.json_object, Json.get?, AssocList.get?_map]

/-- What is read from a member. -/
theorem bind_get?_json (h : AssocList.get? k m = some d) :
    ((Doc.object m).json.get? k).bind f = f d.json := by
  rw [get?_json_object, h]
  rfl

theorem bind_get?_json_of_none (h : AssocList.get? k m = none) :
    ((Doc.object m).json.get? k).bind f = none := by
  rw [get?_json_object, h]
  rfl

theorem json_docString (s : Str) : (docString s).json = .string s := Doc.json_scalar _

theorem json_docUint (n : UInt64) : (docUint n).json = .number (toStr n.toNat) := Doc.json_scalar _

theorem json_docInt (n : Int64) : (docInt n).json = .number (toCharsInt n.toInt) :=
  Doc.json_scalar _

theorem json_docBool (b : Bool) : (docBool b).json = .bool b := Doc.json_scalar _

theorem readString_json (h : AssocList.get? k m = some (docString v)) :
    readString k (Doc.object m).json = some v := by
  rw [readString, bind_get?_json h, json_docString]
  rfl

theorem readString_json_of_none (h : AssocList.get? k m = none) :
    readString k (Doc.object m).json = none :=
  bind_get?_json_of_none h

theorem readItems_json {items : List Doc} (h : AssocList.get? k m = some (.array items)) :
    readItems k (Doc.object m).json = some (items.map Doc.json) := by
  rw [readItems, bind_get?_json h, Doc.json_array]
  rfl

end Members

/-! ### Scalars -/

theorem readUint_docUint (n : UInt64) : readUint (docUint n).json = some n := by
  rw [json_docUint, readUint, fromChars, digits_toStr]
  have hlt : n.toNat < 2 ^ 64 := n.toNat_lt
  rw [Option.filter_some, if_pos (decide_eq_true hlt), Option.map_some, UInt64.ofNat_toNat]

theorem readInt_toCharsInt (n : ℤ) : readInt (.number (toCharsInt n)) = some n := by
  rw [toCharsInt]
  split_ifs with hneg
  · rw [readInt, if_pos rfl, digits_toStr, Option.map_some]
    congr 1
    omega
  · cases htext : toStr n.natAbs with
    | nil => exact absurd htext (toStr_ne_nil _)
    | cons c rest =>
      have hc : c ≠ ch '-' := by
        rintro rfl
        have hdigit := isDigit_of_mem_toStr (htext.symm ▸ List.mem_cons_self :
          ch '-' ∈ toStr n.natAbs)
        exact absurd hdigit (by decide)
      rw [readInt, if_neg hc, ← htext, digits_toStr, Option.map_some]
      congr 1
      omega

theorem readInt_docInt (n : Int64) : readInt (docInt n).json = some n.toInt := by
  rw [json_docInt, readInt_toCharsInt]

theorem readNumber_emitNumberValue (v : NumberValue) :
    readNumber (emitNumberValue v).json = some (numberLiteral v) := by
  cases v with
  | uint64 v => rw [emitNumberValue, json_docUint, numberLiteral]; rfl
  | int64 v => rw [emitNumberValue, json_docInt, numberLiteral]; rfl
  | double bits =>
    rw [emitNumberValue, Doc.json_scalar, Scalar.json, numberLiteral]
    split_ifs <;> rfl

/-- The digits of a byte are read back. -/
theorem readHex_hexByte (b : UInt8) (rest : Str) :
    readHex (hexByte b ++ rest) = (readHex rest).map (b :: ·) := by
  have hhex : ∀ n < 16, hexNibble (kHex.getD n 0) = some n := by decide
  have hhigh : (b >>> 4).toNat = b.toNat / 16 := by
    rw [UInt8.toNat_shiftRight]
    exact Nat.shiftRight_eq_div_pow _ 4
  have hlow : (b &&& 0xF).toNat = b.toNat % 16 := Nat.and_two_pow_sub_one_eq_mod b.toNat 4
  have hb : b.toNat < 256 := b.toNat_lt
  have hvalue : UInt8.ofNat (b.toNat / 16 * 16 + b.toNat % 16) = b := by
    rw [Nat.div_add_mod', UInt8.ofNat_toNat]
  show (hexNibble (kHex.getD (b >>> 4).toNat 0)).bind (fun high =>
    (hexNibble (kHex.getD (b &&& 0xF).toNat 0)).bind fun low =>
      (readHex rest).bind fun bytes => some (.ofNat (high * 16 + low) :: bytes)) = _
  rw [hhigh, hlow, hhex _ (by omega), hhex _ (by omega), Option.bind_some, Option.bind_some, hvalue]
  exact Option.map_eq_bind.symm

theorem readHex_flatMap_hexByte (bytes : List UInt8) :
    readHex (bytes.flatMap hexByte) = some bytes := by
  induction bytes with
  | nil => rfl
  | cons b bytes ih => rw [List.flatMap_cons, readHex_hexByte, ih, Option.map_some]

theorem readScope_toString (scope : Scope) : readScope scope.toString = some scope := by
  cases scope <;> rfl

/-! ### Addresses and features -/

theorem readAddress_emitAddress (a : Address) : readAddress (emitAddress a).json = some a := by
  cases a with
  | noAddress =>
    rw [emitAddress, readAddress, readString_json rfl]
    rfl
  | absoluteVirtual v =>
    rw [emitAddress, readAddress, readString_json rfl,
      bind_get?_json (k := str "value") (d := docUint v) rfl, readUint_docUint]
    rfl
  | relativeVirtual v =>
    rw [emitAddress, readAddress, readString_json rfl,
      bind_get?_json (k := str "value") (d := docUint v) rfl, readUint_docUint]
    rfl
  | fileOffset v =>
    rw [emitAddress, readAddress, readString_json rfl,
      bind_get?_json (k := str "value") (d := docUint v) rfl, readUint_docUint]
    rfl
  | dnToken token =>
    rw [emitAddress, readAddress, readString_json rfl,
      bind_get?_json (k := str "value") (d := docUint token) rfl, readUint_docUint]
    rfl
  | dnTokenOffset token offset =>
    rw [emitAddress, readAddress, readString_json rfl,
      bind_get?_json (k := str "token") (d := docUint token) rfl, readUint_docUint,
      bind_get?_json (k := str "offset") (d := docUint offset) rfl, readUint_docUint]
    rfl

/-- A kind of feature that holds one string, with its row of the table. -/
theorem exists_row {tag : FeatureTag} (h : (kValueFeatureJson.find? (·.tag = tag)).isSome) :
    ∃ row, kValueFeatureJson.find? (·.tag = tag) = some row ∧ row.tag = tag ∧
      kValueFeatureJson.find? (·.type = row.type) = some row ∧ row.key ≠ str "type" ∧
      row.key ≠ str "description" ∧ row.type ∉ [str "property", str "number", str "bytes",
        str "offset", str "operand number", str "operand offset", str "basic block"] := by
  have htable : ∀ row ∈ kValueFeatureJson,
      kValueFeatureJson.find? (·.type = row.type) = some row ∧ row.key ≠ str "type" ∧
      row.key ≠ str "description" ∧ row.type ∉ [str "property", str "number", str "bytes",
        str "offset", str "operand number", str "operand offset", str "basic block"] := by
    decide +kernel
  obtain ⟨row, hrow⟩ := Option.isSome_iff_exists.mp h
  have htag := List.find?_some hrow
  exact ⟨row, hrow, of_decide_eq_true (p := row.tag = tag) htag,
    htable row (List.mem_of_find?_eq_some hrow)⟩

/-- The members of a feature that holds one string are read back, whatever follows them. -/
theorem readFeatureValue_emitValue {tag : FeatureTag}
    (h : (kValueFeatureJson.find? (·.tag = tag)).isSome) (value : Str) (more : List (Str × Doc)) :
    readFeatureValue (Doc.object (emitValue tag value ++ more)).json = some (.text tag value) ∧
      AssocList.get? (str "description") (emitValue tag value) = none := by
  obtain ⟨row, hfind, rfl, htype, hkey, hdescription, hspecial⟩ := exists_row h
  have hmembers : emitValue row.tag value =
      [(str "type", docString row.type), (row.key, docString value)] := by
    rw [emitValue, hfind]
  have hgetType : AssocList.get? (str "type") (emitValue row.tag value ++ more) =
      some (docString row.type) := by
    rw [hmembers]
    rfl
  have hgetKey : AssocList.get? row.key (emitValue row.tag value ++ more) =
      some (docString value) := by
    rw [hmembers, List.cons_append, AssocList.get?_cons, if_neg, List.cons_append,
      AssocList.get?_cons, if_pos (beq_self_eq_true row.key)]
    exact fun heq => hkey (eq_of_beq heq).symm
  constructor
  · simp only [List.mem_cons, List.not_mem_nil, or_false, not_or] at hspecial
    obtain ⟨h₁, h₂, h₃, h₄, h₅, h₆, h₇⟩ := hspecial
    rw [readFeatureValue, readString_json hgetType, Option.bind_eq_bind, Option.bind_some]
    dsimp only
    rw [if_neg h₁, if_neg h₂, if_neg h₃, if_neg h₄, if_neg h₅, if_neg h₆, if_neg h₇, htype,
      Option.bind_eq_bind, Option.bind_some, readString_json hgetKey]
    rfl
  · have hother : ¬(row.key == str "description") = true := fun heq => hdescription (eq_of_beq heq)
    have htype' : ¬(str "type" == str "description") = true := by decide
    rw [hmembers, AssocList.get?_cons, if_neg htype', AssocList.get?_cons, if_neg hother]
    rfl

/-- A feature, with the members that its kind writes. -/
theorem readFeature_object {v : FeatureValue} {description : Str}
    (hvalue : ∀ more, AssocList.get? (str "access") more = none →
      readFeatureValue (Doc.object (featureMembers v ++ more)).json = some (toldValue v))
    (hnone : AssocList.get? (str "description") (featureMembers v) = none) {object : ℕ} :
    readFeature (emitFeature ⟨v, description, object⟩).json = some ⟨toldValue v, description⟩ := by
  have haccess : AssocList.get? (str "access") (if description.isEmpty then []
      else [(str "description", docString description)]) = none := by
    split_ifs <;> rfl
  rw [readFeature, emitFeature, hvalue _ haccess, Option.map_some]
  congr 2
  dsimp only
  split_ifs with hempty
  · rw [readString_json_of_none (by rwa [List.append_nil])]
    exact (List.isEmpty_iff.mp hempty).symm
  · rw [readString_json (v := description)]
    · rfl
    · rw [AssocList.get?_append, hnone]
      rfl

theorem readFeature_emitValue {v : FeatureValue} {value description : Str} {object : ℕ}
    (hmembers : featureMembers v = emitValue v.tag value) (htold : toldValue v = .text v.tag value)
    (hrow : (kValueFeatureJson.find? (·.tag = v.tag)).isSome) :
    readFeature (emitFeature ⟨v, description, object⟩).json = some ⟨toldValue v, description⟩ := by
  refine readFeature_object (fun more _ => ?_) ?_
  · rw [hmembers, htold]
    exact (readFeatureValue_emitValue hrow value more).1
  · rw [hmembers]
    exact (readFeatureValue_emitValue hrow value []).2

/-- **A feature is read back.** -/
theorem readFeature_emitFeature (f : Feature) :
    readFeature (emitFeature f).json = some (toldFeature f) := by
  obtain ⟨v, description, object⟩ := f
  cases v with
  | property value access =>
    refine readFeature_object (fun more hmore => ?_) ?_
    · cases access with
      | none =>
        have hnone : AssocList.get? (str "access")
            (featureMembers (.property value .none) ++ more) = none := hmore
        rw [readFeatureValue, readString_json (v := str "property") rfl,
          readString_json (v := value) rfl, readString_json_of_none hnone]
        rfl
      | read =>
        rw [readFeatureValue, readString_json (v := str "property") rfl,
          readString_json (v := value) rfl, readString_json (v := str "read") rfl]
        rfl
      | write =>
        rw [readFeatureValue, readString_json (v := str "property") rfl,
          readString_json (v := value) rfl, readString_json (v := str "write") rfl]
        rfl
    · cases access <;> rfl
  | number value =>
    refine readFeature_object (fun more _ => ?_) rfl
    rw [readFeatureValue, featureMembers, List.cons_append, readString_json rfl,
      bind_get?_json (k := str "number") (d := emitNumberValue value) rfl,
      readNumber_emitNumberValue]
    rfl
  | bytes value =>
    refine readFeature_object (fun more _ => ?_) rfl
    rw [readFeatureValue, featureMembers, List.cons_append, readString_json rfl, emitHexBytes,
      readString_json (k := str "bytes") (v := value.flatMap hexByte) rfl, Option.bind_some,
          readHex_flatMap_hexByte]
    rfl
  | offset value =>
    refine readFeature_object (fun more _ => ?_) rfl
    rw [readFeatureValue, featureMembers, List.cons_append, readString_json rfl,
      bind_get?_json (k := str "offset") (d := docInt value) rfl, readInt_docInt]
    rfl
  | operandNumber index value =>
    refine readFeature_object (fun more _ => ?_) rfl
    rw [readFeatureValue, featureMembers, List.cons_append, readString_json rfl,
      bind_get?_json (k := str "index") (d := docUint (.ofNat index)) rfl, readUint_docUint,
      bind_get?_json (k := str "operand_number") (d := emitNumberValue value) rfl,
      readNumber_emitNumberValue]
    rfl
  | operandOffset index value =>
    refine readFeature_object (fun more _ => ?_) rfl
    rw [readFeatureValue, featureMembers, List.cons_append, readString_json rfl,
      bind_get?_json (k := str "index") (d := docUint (.ofNat index)) rfl, readUint_docUint,
      bind_get?_json (k := str "operand_offset") (d := docInt value) rfl, readInt_docInt]
    rfl
  | basicBlock =>
    refine readFeature_object (fun more _ => ?_) rfl
    rw [readFeatureValue, featureMembers, List.cons_append, readString_json rfl]
    rfl
  | _ value => exact readFeature_emitValue rfl rfl rfl

/-! ### Match trees -/

/-- A feature that is pointed to. -/
theorem readFeature_emitPointed (f : Option Feature) :
    readFeature (emitPointed f).json = f.map toldFeature := by
  cases f with
  | none =>
    rw [emitPointed, Option.map_none, Option.getD_none, Doc.json_scalar]
    rfl
  | some f => exact readFeature_emitFeature f

theorem readStatement_statementMembers (node : MatchNode) :
    readStatement (Doc.object (statementMembers node)).json = toldStatement node := by
  have htype (rest : List (Str × Doc)) : readString (str "type")
      (Doc.object ((str "type", docString node.statementType) :: rest)).json =
        some node.statementType := readString_json rfl
  rw [statementMembers, readStatement, htype, toldStatement, Option.bind_eq_bind, Option.bind_some]
  by_cases hrange : node.statementType = str "range"
  · have hsome : ¬(node.statementType = str "some" ∧ node.count.isSome) := fun h =>
      absurd (h.1.symm.trans hrange) (by decide)
    rw [if_neg hsome, if_pos hrange, if_pos hrange, if_neg hsome, if_pos hrange,
      bind_get?_json (k := str "min") (d := docInt (node.rangeMin.getD 0)) rfl, readInt_docInt,
      bind_get?_json (k := str "max") (d := docInt (node.rangeMax.getD 0)) rfl, readInt_docInt,
      bind_get?_json (k := str "child") (d := emitPointed node.rangeChild) rfl,
      readFeature_emitPointed]
    cases node.rangeChild <;> rfl
  · rw [if_neg hrange, if_neg hrange, if_neg hrange]
    by_cases hsome : node.statementType = str "some" ∧ node.count.isSome
    · obtain ⟨n, hn⟩ := Option.isSome_iff_exists.mp hsome.2
      rw [if_pos hsome, if_pos hsome, hn, readString_json_of_none rfl,
        bind_get?_json (k := str "count") (d := docInt n) rfl, readInt_docInt]
      rfl
    · rw [if_neg hsome, if_neg hsome]
      by_cases hscope : node.statementType = str "subscope" ∧ node.subscope.isSome
      · obtain ⟨scope, hscope'⟩ := Option.isSome_iff_exists.mp hscope.2
        rw [if_pos hscope, if_pos hscope, hscope', readString_json (v := scope.toString) rfl,
          bind_get?_json_of_none rfl, Option.bind_some, readScope_toString]
        rfl
      · rw [if_neg hscope, if_neg hscope, readString_json_of_none rfl, bind_get?_json_of_none rfl]
        rfl

theorem readKind_emitNode (node : MatchNode) : readKind (emitNode node).json = toldKind node := by
  rw [emitNode, toldKind]
  split_ifs
  · rw [readKind, readString_json (v := str "feature") rfl,
      bind_get?_json (k := str "feature") (d := emitPointed node.feature) rfl,
      readFeature_emitPointed]
    cases node.feature <;> rfl
  · rw [readKind, readString_json (v := str "statement") rfl,
      bind_get?_json (k := str "statement") (d := .object (statementMembers node)) rfl,
      readStatement_statementMembers]
    rfl

/-- What is read item by item. -/
theorem mapM_json_map {α β : Type} {f : α → Doc} {g : Json → Option β} {h : α → Option β}
    (hfg : ∀ x, g (f x).json = h x) (l : List α) : ((l.map f).map Doc.json).mapM g = l.mapM h := by
  rw [List.map_map, List.mapM_map]
  congr 1
  funext x
  exact hfg x

theorem mapM_some {α β : Type} (f : α → β) (l : List α) :
    l.mapM (fun x => some (f x)) = some (l.map f) := by
  induction l with
  | nil => rfl
  | cons x l ih =>
    rw [List.mapM_cons, ih]
    rfl

mutual

/-- **A match tree is read back.** -/
theorem readNode_emitMatchNode : ∀ node : MatchNode,
    readNode (emitMatchNode node).json = toldNode node
  | ⟨success, isFeature, feature, statementType, count, rangeMin, rangeMax, rangeChild, subscope,
      children, locations⟩ => by
    set m : List (Str × Doc) := [
      (str "success", docBool success),
      (str "node", emitNode ⟨success, isFeature, feature, statementType, count, rangeMin, rangeMax,
        rangeChild, subscope, [], []⟩),
      (str "children", .array (emitMatchNodes children)),
      (str "locations", .array (locations.map emitAddress)),
      (str "captures", .object [])] with hm
    have hsuccess : (AssocList.get? (str "success") (m.map fun e => (e.1, e.2.json))).bind
        Json.bool? = some success := by
      rw [AssocList.get?_map]
      show (docBool success).json.bool? = _
      rw [json_docBool]
      rfl
    have hkind : (AssocList.get? (str "node") (m.map fun e => (e.1, e.2.json))).bind readKind =
        toldKind ⟨success, isFeature, feature, statementType, count, rangeMin, rangeMax, rangeChild,
          subscope, [], []⟩ := by
      rw [AssocList.get?_map]
      exact readKind_emitNode _
    have hchildren : readChildren (m.map fun e => (e.1, e.2.json)) = toldNodes children := by
      show readNodeArray (Doc.array (emitMatchNodes children)).json = _
      rw [Doc.json_array, readNodeArray, readNodes_emitMatchNodes children]
    have hitems : readItems (str "locations") (.object (m.map fun e => (e.1, e.2.json))) =
        some ((locations.map emitAddress).map Doc.json) := by
      rw [← Doc.json_object]
      exact readItems_json rfl
    have hlocations : ((locations.map emitAddress).map Doc.json).mapM readAddress =
        some locations := by
      rw [mapM_json_map readAddress_emitAddress, mapM_some, List.map_id']
    rw [emitMatchNode, ← hm, Doc.json_object, readNode, hsuccess, hkind, hchildren, hitems,
      toldNode]
    cases toldKind _ with
    | none => rfl
    | some kind =>
      cases toldNodes children with
      | none => rfl
      | some nodes =>
        show (((locations.map emitAddress).map Doc.json).mapM readAddress).bind (fun locations =>
          some (ToldNode.mk success kind nodes locations)) = _
        rw [hlocations]
        rfl

theorem readNodes_emitMatchNodes : ∀ nodes : List MatchNode,
    readNodes ((emitMatchNodes nodes).map Doc.json) = toldNodes nodes
  | [] => rfl
  | node :: rest => by
    rw [emitMatchNodes, List.map_cons, readNodes, readNode_emitMatchNode node,
      readNodes_emitMatchNodes rest, toldNodes]

end

/-! ### Documents -/

/-- Items that are all read back. -/
theorem mapM_read {α β : Type} {f : α → Doc} {g : Json → Option β} {h : α → β}
    (hfg : ∀ x, g (f x).json = some (h x)) (l : List α) :
    ((l.map f).map Doc.json).mapM g = some (l.map h) := by
  rw [mapM_json_map hfg, mapM_some]

theorem readStrings_json {m : List (Str × Doc)} {k : Str} {l : List Str}
    (h : AssocList.get? k m = some (emitStringArray l)) :
    readStrings k (Doc.object m).json = some l := by
  have hstring (s : Str) : (docString s).json.string? = some s := by
    rw [json_docString]
    rfl
  rw [readStrings, readItems_json h, Option.bind_some, mapM_read hstring, List.map_id']

theorem readAttack_emitAttack (s : Str) :
    readAttack (emitAttack s).json = some (attackFromString s) := by
  rw [emitAttack, readAttack, readStrings_json rfl, readString_json rfl, readString_json rfl,
    readString_json rfl, readString_json rfl]
  rfl

theorem readMbc_emitMbc (s : Str) : readMbc (emitMbc s).json = some (mbcFromString s) := by
  rw [emitMbc, readMbc, readStrings_json rfl, readString_json rfl, readString_json rfl,
    readString_json rfl, readString_json rfl]
  rfl

theorem readItems_mapM {α β : Type} {m : List (Str × Doc)} {k : Str} {l : List α} {f : α → Doc}
    {g : Json → Option β} {h : α → β} (hm : AssocList.get? k m = some (.array (l.map f)))
    (hfg : ∀ x, g (f x).json = some (h x)) :
    (readItems k (Doc.object m).json).bind (·.mapM g) = some (l.map h) := by
  rw [readItems_json hm, Option.bind_some, mapM_read hfg]

/-- The scopes of a rule. -/
theorem readScopes (static dynamic : Option Scope) :
    let doc : Doc := .object (optionalMember (str "static") (static.map Scope.toString) ++
      optionalMember (str "dynamic") (dynamic.map Scope.toString))
    (readString (str "static") doc.json).bind readScope = static ∧
      (readString (str "dynamic") doc.json).bind readScope = dynamic := by
  dsimp only
  cases static with
  | none =>
    cases dynamic with
    | none => exact ⟨by rw [readString_json_of_none rfl]; rfl,
        by rw [readString_json_of_none rfl]; rfl⟩
    | some d =>
      constructor
      · rw [readString_json_of_none rfl]
        rfl
      · rw [readString_json (v := d.toString) rfl, Option.bind_some, readScope_toString]
  | some t =>
    constructor
    · rw [readString_json (v := t.toString) rfl, Option.bind_some, readScope_toString]
    · cases dynamic with
      | none =>
        rw [readString_json_of_none rfl]
        rfl
      | some d => rw [readString_json (v := d.toString) rfl, Option.bind_some, readScope_toString]

theorem readRuleMeta_emitRuleMeta (rm : RuleMeta) :
    readRuleMeta (emitRuleMeta rm).json = some (toldRuleMeta rm) := by
  have hname : readString (str "name") (emitRuleMeta rm).json = some rm.name :=
    readString_json rfl
  have hnamespace : readString (str "namespace") (emitRuleMeta rm).json = rm.namespace_ := by
    cases hns : rm.namespace_ with
    | none => exact readString_json_of_none (by rw [hns]; rfl)
    | some ns => exact readString_json (by rw [hns]; rfl)
  -- A namespace or none stands before the later members.
  have hauthors : readStrings (str "authors") (emitRuleMeta rm).json = some rm.authors :=
    readStrings_json (by cases rm.namespace_ <;> rfl)
  have hscopes : (emitRuleMeta rm).json.get? (str "scopes") = some (Doc.object (
      optionalMember (str "static") (rm.scopes.staticScope.map Scope.toString) ++
        optionalMember (str "dynamic") (rm.scopes.dynamicScope.map Scope.toString))).json := by
    rw [emitRuleMeta, get?_json_object]
    cases rm.namespace_ <;> rfl
  have hattack : (readItems (str "attack") (emitRuleMeta rm).json).bind (·.mapM readAttack) =
      some (rm.attAndCk.map attackFromString) :=
    readItems_mapM (by cases rm.namespace_ <;> rfl) readAttack_emitAttack
  have hmbc : (readItems (str "mbc") (emitRuleMeta rm).json).bind (·.mapM readMbc) =
      some (rm.mbc.map mbcFromString) :=
    readItems_mapM (by cases rm.namespace_ <;> rfl) readMbc_emitMbc
  have hreferences : readStrings (str "references") (emitRuleMeta rm).json = some rm.references :=
    readStrings_json (by cases rm.namespace_ <;> rfl)
  have hexamples : readStrings (str "examples") (emitRuleMeta rm).json = some rm.examples :=
    readStrings_json (by cases rm.namespace_ <;> rfl)
  have hdescription : readString (str "description") (emitRuleMeta rm).json =
      some (rm.description.getD []) := readString_json (by cases rm.namespace_ <;> rfl)
  have hlib : ((emitRuleMeta rm).json.get? (str "lib")).bind Json.bool? = some rm.lib := by
    rw [emitRuleMeta, bind_get?_json (d := docBool rm.lib) (by cases rm.namespace_ <;> rfl),
      json_docBool]
    rfl
  have hsubscope : ((emitRuleMeta rm).json.get? (str "is_subscope_rule")).bind Json.bool? =
      some rm.isSubscopeRule := by
    rw [emitRuleMeta, bind_get?_json (d := docBool rm.isSubscopeRule)
      (by cases rm.namespace_ <;> rfl), json_docBool]
    rfl
  obtain ⟨hstatic, hdynamic⟩ := readScopes rm.scopes.staticScope rm.scopes.dynamicScope
  rw [readRuleMeta, hname, hauthors, hscopes, hattack, hmbc, hreferences, hexamples, hdescription,
    hlib, hsubscope, hnamespace]
  simp only [Option.bind_eq_bind, Option.bind_some, hstatic, hdynamic]
  rfl

theorem readMatch_json (e : Address × MatchNode) :
    readMatch (Doc.array [emitAddress e.1, emitMatchNode e.2]).json = toldMatch e := by
  rw [Doc.json_array, List.map_cons, List.map_cons, List.map_nil, readMatch,
    readAddress_emitAddress, readNode_emitMatchNode, toldMatch]
  cases toldNode e.2 <;> rfl

theorem readRule_emitRule (rep : RuleReport) : readRule (emitRule rep).json = toldRule rep := by
  rw [emitRule, readRule, bind_get?_json (d := emitRuleMeta rep.info) rfl,
    readRuleMeta_emitRuleMeta, readString_json rfl, readItems_json rfl]
  show (((rep.matchTrees.map _).map Doc.json).mapM readMatch).bind (fun matchTrees =>
    some (ToldRule.mk (toldRuleMeta rep.info) rep.sourceYaml matchTrees)) = _
  rw [mapM_json_map readMatch_json, toldRule]
  cases rep.matchTrees.mapM toldMatch <;> rfl

theorem readAddressMember_json {m : List (Str × Doc)} {a : Address}
    (h : AssocList.get? (str "address") m = some (emitAddress a)) :
    readAddressMember (Doc.object m).json = some a := by
  rw [readAddressMember, bind_get?_json h, readAddress_emitAddress]

theorem readLayout_emitLayout (fn : FunctionMatchLayout) :
    readLayout (emitLayout fn).json = some fn := by
  rw [emitLayout, readLayout, readAddressMember_json rfl,
    readItems_mapM (h := id) rfl fun a => readAddressMember_json rfl, List.map_id]
  rfl

theorem readFeatureCount_emitFeatureCount (fc : Address × UInt64) :
    readFeatureCount (emitFeatureCount fc).json = some fc := by
  rw [emitFeatureCount, readFeatureCount, readAddressMember_json rfl,
    bind_get?_json (d := docUint fc.2) rfl, readUint_docUint]
  rfl

theorem readLibraryFunction_emitLibraryFunction (lf : LibraryFunction) :
    readLibraryFunction (emitLibraryFunction lf).json = some lf := by
  rw [emitLibraryFunction, readLibraryFunction, readAddressMember_json rfl, readString_json rfl]
  rfl

theorem readAnalysis_emitAnalysis (a : StaticAnalysisMeta) :
    readAnalysis (emitAnalysis a).json = some a := by
  have hlayout : ((emitAnalysis a).json.get? (str "layout")).bind (readItems (str "functions")) =
      some ((a.layout.map emitLayout).map Doc.json) := by
    rw [emitAnalysis, bind_get?_json (d := .object [(str "functions",
      .array (a.layout.map emitLayout))]) rfl, readItems_json rfl]
  have hcounts : (emitAnalysis a).json.get? (str "feature_counts") = some (Doc.object [
      (str "file", docUint a.featureCountFile),
      (str "functions", .array (a.featureCountsFunctions.map emitFeatureCount))]).json := by
    rw [emitAnalysis, get?_json_object]
    rfl
  have hfile : ((Doc.object [(str "file", docUint a.featureCountFile),
      (str "functions", .array (a.featureCountsFunctions.map emitFeatureCount))]).json.get?
        (str "file")).bind readUint = some a.featureCountFile := by
    rw [bind_get?_json (d := docUint a.featureCountFile) rfl, readUint_docUint]
  have hbase : ((emitAnalysis a).json.get? (str "base_address")).bind readAddress =
      some (.absoluteVirtual a.baseAddress) := by
    rw [emitAnalysis, bind_get?_json (d := emitAddress (.absoluteVirtual a.baseAddress)) rfl,
      readAddress_emitAddress]
  have hlibrary : (readItems (str "library_functions") (emitAnalysis a).json).bind
      (·.mapM readLibraryFunction) = some (a.libraryFunctions.map id) :=
    readItems_mapM rfl readLibraryFunction_emitLibraryFunction
  have hrules : readStrings (str "rules") (emitAnalysis a).json = some a.rulesPaths :=
    readStrings_json rfl
  have hformat : readString (str "format") (emitAnalysis a).json = some a.format :=
    readString_json rfl
  have harch : readString (str "arch") (emitAnalysis a).json = some a.arch := readString_json rfl
  have hos : readString (str "os") (emitAnalysis a).json = some a.os := readString_json rfl
  have hextractor : readString (str "extractor") (emitAnalysis a).json = some a.extractor :=
    readString_json rfl
  rw [readAnalysis, hformat, harch, hos, hextractor, hrules, hbase, hlayout, hcounts, hlibrary]
  simp only [Option.bind_eq_bind, Option.bind_some, hfile, List.map_id,
    readItems_json (k := str "functions") (m := [(str "file", docUint a.featureCountFile),
      (str "functions", .array (a.featureCountsFunctions.map emitFeatureCount))]) rfl,
    mapM_read (h := id) readLayout_emitLayout,
        mapM_read (h := id) readFeatureCount_emitFeatureCount]
  rfl

theorem readMeta_emitMeta (m : Metadata) : readMeta (emitMeta m).json = some m := by
  have hsample : ((emitMeta m).json.get? (str "sample")).bind readSample =
      some (m.hashes, m.samplePath) := by
    rw [emitMeta, bind_get?_json (d := .object [
      (str "md5", docString m.hashes.md5),
      (str "sha1", docString m.hashes.sha1),
      (str "sha256", docString m.hashes.sha256),
      (str "path", docString m.samplePath)]) rfl, readSample, readString_json rfl,
      readString_json rfl, readString_json rfl, readString_json rfl]
    rfl
  have hanalysis : ((emitMeta m).json.get? (str "analysis")).bind readAnalysis =
      some m.analysis := by
    rw [emitMeta, bind_get?_json (d := emitAnalysis m.analysis) rfl, readAnalysis_emitAnalysis]
  have hargv : readStrings (str "argv") (emitMeta m).json = some m.argv := readStrings_json rfl
  have htimestamp : readString (str "timestamp") (emitMeta m).json = some m.timestamp :=
    readString_json rfl
  have hversion : readString (str "version") (emitMeta m).json = some m.version :=
    readString_json rfl
  rw [readMeta, htimestamp, hversion, hargv, hsample, hanalysis]
  rfl

/-- **A document is read back** from the value that is written. -/
theorem readDocument_emitDocument (doc : ResultDocument) :
    readDocument (emitDocument doc).json = doc.told := by
  have hrules : ((emitDocument doc).json.get? (str "rules")).bind readRules =
      doc.rules.entries.mapM fun e => (toldRule e.2).map (e.1, ·) := by
    rw [emitDocument, bind_get?_json (d := emitRules doc) rfl, emitRules, Doc.json_object,
      List.map_map, readRules, List.mapM_map]
    congr 1
    funext e
    exact congrArg (Option.map (e.1, ·)) (readRule_emitRule e.2)
  rw [readDocument, emitDocument, bind_get?_json (d := emitMeta doc.metadata) rfl,
    readMeta_emitMeta, ← emitDocument, hrules, ResultDocument.told]
  cases doc.rules.entries.mapM fun e => (toldRule e.2).map (e.1, ·) <;> rfl

end Papa.Render
