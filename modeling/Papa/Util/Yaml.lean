import Mathlib.Data.List.SplitOn
import Papa.Util.YamlScalar

/-!
# The YAML subset

The block parser. A cursor into the lines is the list of lines from it on, and every routine that
moves the cursor returns the lines it left. The nesting bound of the parser is the recursion
measure of `parseValue`; a loop over lines has their number as fuel, since each turn takes one.

## Main definitions

* `Papa.Util.Yaml.Node`: the document tree.
* `Papa.Util.Yaml.tokenizeLines`: the lines of a text.
* `Papa.Util.Yaml.parseValue`, `Papa.Util.Yaml.parseSequence`, `Papa.Util.Yaml.parseMapping`.
* `Papa.Util.Yaml.parse`: the parser.

## Main results

* `Papa.Util.Yaml.parseValue_suffix`: a value leaves the end of the lines it was given.
* `Papa.Util.Yaml.sequenceLoop_succ`, `Papa.Util.Yaml.mappingLoop_succ`,
  `Papa.Util.Yaml.compactLoop_succ`: the fuel of the loops suffices.
-/

namespace Papa.Util.Yaml

/-! ### Nodes -/

/-- A node of the document tree with its position. Entries of a mapping keep their order. -/
inductive Node
  | scalar (text : Str) (line column : ℕ)
  | sequence (items : List Node) (line column : ℕ)
  | mapping (entries : List (Str × Node)) (line column : ℕ)

namespace Node

/-- The node of a missing value. -/
def empty : Node := scalar [] 0 0

/-- The line of a node. -/
def line : Node → ℕ
  | scalar _ line _ => line
  | sequence _ line _ => line
  | mapping _ line _ => line

/-- The column of a node. -/
def column : Node → ℕ
  | scalar _ _ column => column
  | sequence _ _ column => column
  | mapping _ _ column => column

/-- The value of the first entry with a key, or `none` on a node that is no mapping. -/
def find (key : Str) : Node → Option Node
  | mapping entries _ _ => (entries.find? fun entry => entry.1 == key).map Prod.snd
  | _ => none

end Node

/-! ### Lines -/

/-- One physical line: its leading spaces, and the rest of it. -/
structure Line where
  lineNo : ℕ
  indent : ℕ
  payload : Str

namespace Line

/-- A line of spaces only. -/
def isBlank (ln : Line) : Bool := ln.payload.isEmpty

/-- A line whose first byte after the spaces starts a comment. -/
def isComment (ln : Line) : Bool := ln.payload.head? == some (ch '#')

/-- A line that starts with a dash standing alone or before a space. -/
def isDash (ln : Line) : Bool :=
  match ln.payload with
  | [] => false
  | [c] => c == ch '-'
  | c :: d :: _ => c == ch '-' && d == ch ' '

end Line

/-- One line from its bytes. A tab after the leading spaces is an error. -/
def tokenizeLine (raw : Str) (lineNo : ℕ) : Expected Line :=
  let raw := if raw.getLast? == some 13 then raw.dropLast else raw
  let payload := raw.dropWhile (· == ch ' ')
  if payload.head? == some (ch '\t') then
    .error (yamlErr lineNo 1 (str "tab in indentation is not allowed"))
  else .ok { lineNo := lineNo, indent := (raw.takeWhile (· == ch ' ')).length, payload := payload }

/-- The lines of a text, numbered from one. -/
def tokenizeLines (text : Str) : Expected (List Line) :=
  ((text.splitOn 10).zipIdx 1).mapM fun (raw, lineNo) => tokenizeLine raw lineNo

/-- The lines from the first one with content on. -/
def skipBlankAndComment (lines : List Line) : List Line :=
  lines.dropWhile fun ln => ln.isBlank || ln.isComment

/-- The lines from the first one with content on that is no document separator. -/
def skipSeparators (lines : List Line) : List Line :=
  lines.dropWhile fun ln => ln.isBlank || ln.isComment || ln.payload == str "---"

/-! ### Values of entries -/

/-- The lines of a block scalar under a key at column `indent`, and the lines after it. The first
line with content fixes the indentation of the block. -/
def blockLines (indent : ℕ) (blockIndent : Option ℕ) : List Line → List Str × List Line
  | [] => ([], [])
  | ln :: rest =>
    if ln.isBlank then
      let (raws, after) := blockLines indent blockIndent rest
      ([] :: raws, after)
    else if ln.indent ≤ indent || ln.indent < blockIndent.getD ln.indent then ([], ln :: rest)
    else
      let (raws, after) := blockLines indent (some (blockIndent.getD ln.indent)) rest
      (ln.payload :: raws, after)

/-- The value parser, from the column a value starts at. -/
abbrev ValueParser := ℕ → List Line → Expected (Node × List Line)

/-- The value of the key on a line: on the lines below it, a block scalar or on the line itself. -/
def entryValue (value : ValueParser) (indent : ℕ) (ln : Line) (keySize : ℕ) (v : Str)
    (rest : List Line) : Expected (Node × List Line) :=
  let column := ln.indent + 1
  if v.isEmpty || isCommentOnly v then value (indent + 1) rest
  else if isBlockHeader v then
    let (raws, after) := blockLines indent none rest
    .ok (.scalar (blockText ln.payload (v.headD 0) raws) ln.lineNo column, after)
  else do
    let text ← inlineScalar v ln.lineNo (column + keySize + 2)
    pure (.scalar text ln.lineNo (column + keySize + 2), rest)

/-! ### Sequences -/

/-- The loop over the further keys of a mapping that starts on the line of a dash. -/
def compactLoop (value : ValueParser) (mapIndent : ℕ) :
    (fuel : ℕ) → List Line → Expected (List (Str × Node) × List Line)
  | 0, lines => .ok ([], lines)
  | fuel + 1, lines =>
    match skipBlankAndComment lines with
    | [] => .ok ([], [])
    | nx :: rest =>
      if nx.indent != mapIndent || nx.payload.isEmpty || nx.payload.head? == some (ch '-') then
        .ok ([], nx :: rest)
      else
        match splitKey nx.payload with
        | none => .ok ([], nx :: rest)
        | some (k, v) => do
          let (node, rest) ← entryValue value mapIndent nx k.length v rest
          let (entries, rest) ← compactLoop value mapIndent fuel rest
          pure ((k, node) :: entries, rest)

/-- The first entry of a mapping that starts on the line of a dash. -/
def firstEntry (value : ValueParser) (mapIndent : ℕ) (ln : Line) (k v : Str)
    (rest : List Line) : Expected (Node × List Line) :=
  let column := mapIndent + 1 + k.length + 2
  if !v.isEmpty && !isCommentOnly v then do
    let text ← inlineScalar v ln.lineNo column
    pure (.scalar text ln.lineNo column, rest)
  else value (mapIndent + 1) rest

/-- The item of a sequence that starts on a dash line. -/
def sequenceItem (value : ValueParser) (ln : Line) (rest : List Line) :
    Expected (Node × List Line) :=
  let content := ln.payload.drop 2
  let column := ln.indent + 1
  if content.isEmpty then value (ln.indent + 1) rest
  else
    match splitKey content with
    | some (k, v) => do
      let (node, rest) ← firstEntry value (ln.indent + 2) ln k v rest
      let (entries, rest) ← compactLoop value (ln.indent + 2) rest.length rest
      pure (.mapping ((k, node) :: entries) ln.lineNo column, rest)
    | none => do
      let text ← inlineScalar content ln.lineNo (column + 2)
      pure (.scalar text ln.lineNo (column + 2), rest)

/-- The loop over the dash lines of a sequence. -/
def sequenceLoop (value : ValueParser) (indent : ℕ) :
    (fuel : ℕ) → List Line → Expected (List Node × List Line)
  | 0, lines => .ok ([], lines)
  | fuel + 1, lines =>
    match skipBlankAndComment lines with
    | [] => .ok ([], [])
    | ln :: rest =>
      if ln.indent < indent then .ok ([], ln :: rest)
      else if indent < ln.indent then
        .error (yamlErr ln.lineNo (ln.indent + 1) (str "unexpected indent inside sequence"))
      else if !ln.isDash then .ok ([], ln :: rest)
      else do
        let (item, rest) ← sequenceItem value ln rest
        let (items, rest) ← sequenceLoop value indent fuel rest
        pure (item :: items, rest)

/-- A block sequence at a column, whose first line is `first`. -/
def parseSequence (value : ValueParser) (indent : ℕ) (first : Line) (lines : List Line) :
    Expected (Node × List Line) := do
  let (items, rest) ← sequenceLoop value indent lines.length lines
  pure (.sequence items first.lineNo (indent + 1), rest)

/-! ### Mappings -/

/-- The loop over the keys of a mapping. -/
def mappingLoop (value : ValueParser) (indent : ℕ) :
    (fuel : ℕ) → List Line → Expected (List (Str × Node) × List Line)
  | 0, lines => .ok ([], lines)
  | fuel + 1, lines =>
    match skipBlankAndComment lines with
    | [] => .ok ([], [])
    | ln :: rest =>
      if ln.indent < indent then .ok ([], ln :: rest)
      else if indent < ln.indent then
        .error (yamlErr ln.lineNo (ln.indent + 1) (str "unexpected indent inside mapping"))
      else if ln.payload.isEmpty || ln.payload.head? == some (ch '-') then .ok ([], ln :: rest)
      else
        match splitKey ln.payload with
        | none => .ok ([], ln :: rest)
        | some (k, v) => do
          let key ← mappingKey k ln.lineNo (ln.indent + 1)
          let (node, rest) ← entryValue value indent ln key.length v rest
          let (entries, rest) ← mappingLoop value indent fuel rest
          pure ((key, node) :: entries, rest)

/-- A block mapping at a column, whose first line is `first`. -/
def parseMapping (value : ValueParser) (indent : ℕ) (first : Line) (lines : List Line) :
    Expected (Node × List Line) := do
  let (entries, rest) ← mappingLoop value indent lines.length lines
  pure (.mapping entries first.lineNo (indent + 1), rest)

/-! ### Documents -/

/-- The deepest nesting the parser descends to. -/
def kMaxNestingDepth : ℕ := 64

/-- The value that starts at column `indent`, with `depth` levels of nesting left. A sequence may
stand one column to the left of other values. -/
def parseValue : (depth : ℕ) → ValueParser
  | 0, _, lines =>
    let lineNo := (lines.head?.map Line.lineNo).getD 0
    .error (yamlErr lineNo 1 (str "nesting is too deep"))
  | depth + 1, indent, lines =>
    match skipBlankAndComment lines with
    | [] => .ok (.empty, [])
    | ln :: rest =>
      if ln.isDash && indent ≤ ln.indent + 1 then
        parseSequence (parseValue depth) ln.indent ln (ln :: rest)
      else if ln.indent < indent then .ok (.empty, ln :: rest)
      else if ln.payload.isEmpty then .ok (.empty, rest)
      else if (splitKey ln.payload).isSome then
        parseMapping (parseValue depth) ln.indent ln (ln :: rest)
      else
        .error (yamlErr ln.lineNo (ln.indent + 1)
          (str "expected a sequence, mapping, or scalar value"))

/-- The document on the given lines. -/
def parseDocument (lines : List Line) : Expected Node :=
  match skipSeparators lines with
  | [] => .ok .empty
  | ln :: rest => do
    let (root, rest) ← parseValue kMaxNestingDepth ln.indent (ln :: rest)
    match skipSeparators rest with
    | [] => pure root
    | ln :: _ =>
      .error (yamlErr ln.lineNo (ln.indent + 1) (str "extra content after document end"))

/-- Parse a document. -/
def parse (text : Str) : Expected Node := do
  let lines ← tokenizeLines text
  parseDocument lines

/-! ### Lines with content -/

section Content

variable {ln : Line} {a : UInt8} {s : Str} (hln : ln.payload = a :: s) (hhash : a ≠ ch '#')

include hln hhash

/-- A line with content is not skipped. -/
theorem skipBlankAndComment_cons (rest : List Line) :
    skipBlankAndComment (ln :: rest) = ln :: rest :=
  List.dropWhile_cons_of_neg (by simp [Line.isBlank, Line.isComment, hln, hhash])

/-- A turn of the loop over the keys of a mapping, on a line at its column. -/
theorem mappingLoop_cons (hdash : a ≠ ch '-') (value : ValueParser) (fuel : ℕ) (rest : List Line) :
    mappingLoop value ln.indent (fuel + 1) (ln :: rest) =
      match splitKey ln.payload with
      | none => .ok ([], ln :: rest)
      | some (k, v) => (do
        let key ← mappingKey k ln.lineNo (ln.indent + 1)
        let (node, rest) ← entryValue value ln.indent ln key.length v rest
        let (entries, rest) ← mappingLoop value ln.indent fuel rest
        pure ((key, node) :: entries, rest)) := by
  have hstop : ¬(ln.payload.isEmpty || ln.payload.head? == some (ch '-')) := by simp [hln, hdash]
  rw [mappingLoop, skipBlankAndComment_cons hln hhash]
  dsimp only
  rw [if_neg (Nat.lt_irrefl _), if_neg (Nat.lt_irrefl _), if_neg hstop]

/-- A turn of the loop over the further keys of a mapping, on a line at its column. -/
theorem compactLoop_cons (hdash : a ≠ ch '-') (value : ValueParser) (fuel : ℕ) (rest : List Line) :
    compactLoop value ln.indent (fuel + 1) (ln :: rest) =
      match splitKey ln.payload with
      | none => .ok ([], ln :: rest)
      | some (k, v) => (do
        let (node, rest) ← entryValue value ln.indent ln k.length v rest
        let (entries, rest) ← compactLoop value ln.indent fuel rest
        pure ((k, node) :: entries, rest)) := by
  have hstop : ¬(ln.indent != ln.indent || ln.payload.isEmpty ||
      ln.payload.head? == some (ch '-')) := by simp [hln, hdash]
  rw [compactLoop, skipBlankAndComment_cons hln hhash]
  dsimp only
  rw [if_neg hstop]

end Content

/-- A turn of the loop over the dash lines of a sequence, on a line at its column. -/
theorem sequenceLoop_cons {ln : Line} {s : Str} (hln : ln.payload = ch '-' :: ch ' ' :: s)
    (value : ValueParser) (fuel : ℕ) (rest : List Line) :
    sequenceLoop value ln.indent (fuel + 1) (ln :: rest) = (do
      let (item, rest) ← sequenceItem value ln rest
      let (items, rest) ← sequenceLoop value ln.indent fuel rest
      pure (item :: items, rest)) := by
  have hdash : ¬(!ln.isDash) = true := by simp [Line.isDash, hln]
  rw [sequenceLoop, skipBlankAndComment_cons hln (by decide)]
  dsimp only
  rw [if_neg (Nat.lt_irrefl _), if_neg (Nat.lt_irrefl _), if_neg hdash]

/-! ### Turns of the loops -/

section Turns

variable {value : ValueParser} {indent fuel : ℕ} {lines after : List Line}

/-- What a turn of the loop over the further keys of a mapping does: it stops, or it reads the entry
on the first line with content. -/
theorem compactLoop_cases {entries : List (Str × Node)}
    (h : compactLoop value indent (fuel + 1) lines = .ok (entries, after)) :
    (entries = [] ∧ after = skipBlankAndComment lines) ∨
    ∃ ln rest k v node rest' entries', skipBlankAndComment lines = ln :: rest ∧
      entryValue value indent ln k.length v rest = .ok (node, rest') ∧
      compactLoop value indent fuel rest' = .ok (entries', after) ∧
      entries = (k, node) :: entries' := by
  unfold compactLoop at h
  cases hrest : skipBlankAndComment lines with
  | nil =>
    rw [hrest] at h
    obtain ⟨rfl, rfl⟩ := Prod.mk.inj (Except.ok.inj h)
    exact Or.inl ⟨rfl, rfl⟩
  | cons ln rest =>
    rw [hrest] at h
    dsimp only at h
    split_ifs at h with hstop
    · obtain ⟨rfl, rfl⟩ := Prod.mk.inj (Except.ok.inj h)
      exact Or.inl ⟨rfl, rfl⟩
    · cases hkey : splitKey ln.payload with
      | none =>
        rw [hkey] at h
        obtain ⟨rfl, rfl⟩ := Prod.mk.inj (Except.ok.inj h)
        exact Or.inl ⟨rfl, rfl⟩
      | some entry =>
        rw [hkey] at h
        obtain ⟨⟨node, rest'⟩, hentry, h⟩ := bind_eq_ok.mp h
        obtain ⟨⟨entries', rest''⟩, hloop, h⟩ := bind_eq_ok.mp h
        obtain ⟨rfl, rfl⟩ := Prod.mk.inj (Except.ok.inj h)
        exact Or.inr ⟨ln, rest, _, _, node, rest', entries', rfl, hentry, hloop, rfl⟩

/-- What a turn of the loop over dash lines does. -/
theorem sequenceLoop_cases {items : List Node}
    (h : sequenceLoop value indent (fuel + 1) lines = .ok (items, after)) :
    (items = [] ∧ after = skipBlankAndComment lines) ∨
    ∃ ln rest item rest' items', skipBlankAndComment lines = ln :: rest ∧
      sequenceItem value ln rest = .ok (item, rest') ∧
      sequenceLoop value indent fuel rest' = .ok (items', after) ∧ items = item :: items' := by
  unfold sequenceLoop at h
  cases hrest : skipBlankAndComment lines with
  | nil =>
    rw [hrest] at h
    obtain ⟨rfl, rfl⟩ := Prod.mk.inj (Except.ok.inj h)
    exact Or.inl ⟨rfl, rfl⟩
  | cons ln rest =>
    rw [hrest] at h
    dsimp only at h
    split_ifs at h with hleft hright hdash
    · obtain ⟨rfl, rfl⟩ := Prod.mk.inj (Except.ok.inj h)
      exact Or.inl ⟨rfl, rfl⟩
    · obtain ⟨rfl, rfl⟩ := Prod.mk.inj (Except.ok.inj h)
      exact Or.inl ⟨rfl, rfl⟩
    · obtain ⟨⟨item, rest'⟩, hitem, h⟩ := bind_eq_ok.mp h
      obtain ⟨⟨items', rest''⟩, hloop, h⟩ := bind_eq_ok.mp h
      obtain ⟨rfl, rfl⟩ := Prod.mk.inj (Except.ok.inj h)
      exact Or.inr ⟨ln, rest, item, rest', items', rfl, hitem, hloop, rfl⟩

/-- What a turn of the loop over the keys of a mapping does. -/
theorem mappingLoop_cases {entries : List (Str × Node)}
    (h : mappingLoop value indent (fuel + 1) lines = .ok (entries, after)) :
    (entries = [] ∧ after = skipBlankAndComment lines) ∨
    ∃ ln rest key v node rest' entries', skipBlankAndComment lines = ln :: rest ∧
      entryValue value indent ln key.length v rest = .ok (node, rest') ∧
      mappingLoop value indent fuel rest' = .ok (entries', after) ∧
      entries = (key, node) :: entries' := by
  unfold mappingLoop at h
  cases hrest : skipBlankAndComment lines with
  | nil =>
    rw [hrest] at h
    obtain ⟨rfl, rfl⟩ := Prod.mk.inj (Except.ok.inj h)
    exact Or.inl ⟨rfl, rfl⟩
  | cons ln rest =>
    rw [hrest] at h
    dsimp only at h
    split_ifs at h with hleft hright hstop
    · obtain ⟨rfl, rfl⟩ := Prod.mk.inj (Except.ok.inj h)
      exact Or.inl ⟨rfl, rfl⟩
    · obtain ⟨rfl, rfl⟩ := Prod.mk.inj (Except.ok.inj h)
      exact Or.inl ⟨rfl, rfl⟩
    · cases hkey : splitKey ln.payload with
      | none =>
        rw [hkey] at h
        obtain ⟨rfl, rfl⟩ := Prod.mk.inj (Except.ok.inj h)
        exact Or.inl ⟨rfl, rfl⟩
      | some entry =>
        rw [hkey] at h
        obtain ⟨key, -, h⟩ := bind_eq_ok.mp h
        obtain ⟨⟨node, rest'⟩, hentry, h⟩ := bind_eq_ok.mp h
        obtain ⟨⟨entries', rest''⟩, hloop, h⟩ := bind_eq_ok.mp h
        obtain ⟨rfl, rfl⟩ := Prod.mk.inj (Except.ok.inj h)
        exact Or.inr ⟨ln, rest, key, _, node, rest', entries', rfl, hentry, hloop, rfl⟩

end Turns

/-! ### Progress -/

/-- A parser that leaves the end of the lines it is given. -/
def ValueParser.Consumes (value : ValueParser) : Prop :=
  ∀ indent lines node after, value indent lines = .ok (node, after) → after <:+ lines

theorem skipBlankAndComment_suffix (lines : List Line) : skipBlankAndComment lines <:+ lines :=
  List.dropWhile_suffix _

theorem blockLines_suffix (indent : ℕ) (blockIndent : Option ℕ) (lines : List Line) :
    (blockLines indent blockIndent lines).2 <:+ lines := by
  fun_induction blockLines indent blockIndent lines with
  | case1 => exact List.suffix_rfl
  | case2 _ ln rest _ _ _ heq ih => exact (heq ▸ ih).trans (List.suffix_cons ln rest)
  | case3 => exact List.suffix_rfl
  | case4 _ ln rest _ _ _ _ heq ih => exact (heq ▸ ih).trans (List.suffix_cons ln rest)

namespace ValueParser.Consumes

variable {value : ValueParser} (hvalue : value.Consumes) {lines after : List Line} {ln : Line}

include hvalue

theorem entryValue {indent keySize : ℕ} {v : Str} {node : Node}
    (h : entryValue value indent ln keySize v lines = .ok (node, after)) : after <:+ lines := by
  unfold Yaml.entryValue at h
  split_ifs at h with hempty hblock
  · exact hvalue _ _ _ _ h
  · obtain ⟨-, rfl⟩ := Prod.mk.inj (Except.ok.inj h)
    exact blockLines_suffix indent none lines
  · obtain ⟨text, -, h⟩ := bind_eq_ok.mp h
    obtain ⟨-, rfl⟩ := Prod.mk.inj (Except.ok.inj h)
    exact List.suffix_rfl

theorem firstEntry {indent : ℕ} {k v : Str} {node : Node}
    (h : firstEntry value indent ln k v lines = .ok (node, after)) : after <:+ lines := by
  unfold Yaml.firstEntry at h
  split_ifs at h with hinline
  · obtain ⟨text, -, h⟩ := bind_eq_ok.mp h
    obtain ⟨-, rfl⟩ := Prod.mk.inj (Except.ok.inj h)
    exact List.suffix_rfl
  · exact hvalue _ _ _ _ h

theorem compactLoop {mapIndent fuel : ℕ} {entries : List (Str × Node)}
    (h : compactLoop value mapIndent fuel lines = .ok (entries, after)) : after <:+ lines := by
  induction fuel generalizing lines entries with
  | zero =>
    obtain ⟨-, rfl⟩ := Prod.mk.inj (Except.ok.inj h)
    exact List.suffix_rfl
  | succ fuel ih =>
    have hskip := skipBlankAndComment_suffix lines
    obtain ⟨-, rfl⟩ | ⟨ln, rest, k, v, node, rest', entries', hrest, hentry, hloop, -⟩ :=
      compactLoop_cases h
    · exact hskip
    · exact ((ih hloop).trans (hvalue.entryValue hentry)).trans
        ((List.suffix_cons ln rest).trans (hrest ▸ hskip))

theorem sequenceItem {node : Node}
    (h : sequenceItem value ln lines = .ok (node, after)) : after <:+ lines := by
  unfold Yaml.sequenceItem at h
  extract_lets content column at h
  split_ifs at h with hempty
  · exact hvalue _ _ _ _ h
  · split at h
    · obtain ⟨⟨first, rest⟩, hfirst, h⟩ := bind_eq_ok.mp h
      obtain ⟨⟨entries, rest'⟩, hloop, h⟩ := bind_eq_ok.mp h
      obtain ⟨-, rfl⟩ := Prod.mk.inj (Except.ok.inj h)
      exact (hvalue.compactLoop hloop).trans (hvalue.firstEntry hfirst)
    · obtain ⟨text, -, h⟩ := bind_eq_ok.mp h
      obtain ⟨-, rfl⟩ := Prod.mk.inj (Except.ok.inj h)
      exact List.suffix_rfl

theorem sequenceLoop {indent fuel : ℕ} {items : List Node}
    (h : sequenceLoop value indent fuel lines = .ok (items, after)) : after <:+ lines := by
  induction fuel generalizing lines items with
  | zero =>
    obtain ⟨-, rfl⟩ := Prod.mk.inj (Except.ok.inj h)
    exact List.suffix_rfl
  | succ fuel ih =>
    have hskip := skipBlankAndComment_suffix lines
    obtain ⟨-, rfl⟩ | ⟨ln, rest, item, rest', items', hrest, hitem, hloop, -⟩ :=
      sequenceLoop_cases h
    · exact hskip
    · exact ((ih hloop).trans (hvalue.sequenceItem hitem)).trans
        ((List.suffix_cons ln rest).trans (hrest ▸ hskip))

theorem mappingLoop {indent fuel : ℕ} {entries : List (Str × Node)}
    (h : mappingLoop value indent fuel lines = .ok (entries, after)) : after <:+ lines := by
  induction fuel generalizing lines entries with
  | zero =>
    obtain ⟨-, rfl⟩ := Prod.mk.inj (Except.ok.inj h)
    exact List.suffix_rfl
  | succ fuel ih =>
    have hskip := skipBlankAndComment_suffix lines
    obtain ⟨-, rfl⟩ | ⟨ln, rest, key, v, node, rest', entries', hrest, hentry, hloop, -⟩ :=
      mappingLoop_cases h
    · exact hskip
    · exact ((ih hloop).trans (hvalue.entryValue hentry)).trans
        ((List.suffix_cons ln rest).trans (hrest ▸ hskip))

end ValueParser.Consumes

/-- **A value leaves the end of the lines it was given.** -/
theorem parseValue_suffix (depth : ℕ) : (parseValue depth).Consumes := by
  induction depth with
  | zero => exact fun _ _ _ _ h => nomatch h
  | succ depth ih =>
    intro indent lines node after h
    have hskip := skipBlankAndComment_suffix lines
    unfold parseValue at h
    split at h
    · obtain ⟨-, rfl⟩ := Prod.mk.inj (Except.ok.inj h)
      exact List.nil_suffix
    · next ln rest hrest =>
      rw [hrest] at hskip
      refine List.IsSuffix.trans ?_ hskip
      split_ifs at h with hdash hleft hempty hkey
      · obtain ⟨⟨items, rest'⟩, hloop, h⟩ := bind_eq_ok.mp h
        obtain ⟨-, rfl⟩ := Prod.mk.inj (Except.ok.inj h)
        exact ih.sequenceLoop hloop
      · obtain ⟨-, rfl⟩ := Prod.mk.inj (Except.ok.inj h)
        exact List.suffix_rfl
      · obtain ⟨-, rfl⟩ := Prod.mk.inj (Except.ok.inj h)
        exact List.suffix_cons ln rest
      · obtain ⟨⟨entries, rest'⟩, hloop, h⟩ := bind_eq_ok.mp h
        obtain ⟨-, rfl⟩ := Prod.mk.inj (Except.ok.inj h)
        exact ih.mappingLoop hloop

/-! ### Fuel -/

section

variable {value : ValueParser} (hvalue : value.Consumes)

include hvalue

/-- The loop ends before its fuel does, because each turn takes a line. -/
theorem sequenceLoop_succ {indent fuel : ℕ} {lines : List Line} (h : lines.length ≤ fuel) :
    sequenceLoop value indent (fuel + 1) lines = sequenceLoop value indent fuel lines := by
  induction fuel generalizing lines with
  | zero =>
    have hnil : lines = [] := List.eq_nil_of_length_eq_zero (Nat.le_zero.mp h)
    subst hnil
    rfl
  | succ fuel ih =>
    rw [sequenceLoop, sequenceLoop]
    have hskip := (skipBlankAndComment_suffix lines).length_le
    cases hrest : skipBlankAndComment lines with
    | nil => rfl
    | cons ln rest =>
      rw [hrest, List.length_cons] at hskip
      refine if_congr Iff.rfl rfl (if_congr Iff.rfl rfl (if_congr Iff.rfl rfl ?_))
      refine bind_congr_ok fun ⟨item, rest'⟩ hitem => ?_
      have hle := (hvalue.sequenceItem hitem).length_le
      simp only [ih (hle.trans (by omega))]

/-- The loop ends before its fuel does, because each turn takes a line. -/
theorem mappingLoop_succ {indent fuel : ℕ} {lines : List Line} (h : lines.length ≤ fuel) :
    mappingLoop value indent (fuel + 1) lines = mappingLoop value indent fuel lines := by
  induction fuel generalizing lines with
  | zero =>
    have hnil : lines = [] := List.eq_nil_of_length_eq_zero (Nat.le_zero.mp h)
    subst hnil
    rfl
  | succ fuel ih =>
    rw [mappingLoop, mappingLoop]
    have hskip := (skipBlankAndComment_suffix lines).length_le
    cases hrest : skipBlankAndComment lines with
    | nil => rfl
    | cons ln rest =>
      rw [hrest, List.length_cons] at hskip
      refine if_congr Iff.rfl rfl (if_congr Iff.rfl rfl (if_congr Iff.rfl rfl ?_))
      cases hkey : splitKey ln.payload with
      | none => rfl
      | some kv =>
        refine bind_congr_ok fun key _ => bind_congr_ok fun ⟨node, rest'⟩ hentry => ?_
        have hle := (hvalue.entryValue hentry).length_le
        simp only [ih (hle.trans (by omega))]

/-- The loop ends before its fuel does, because each turn takes a line. -/
theorem compactLoop_succ {mapIndent fuel : ℕ} {lines : List Line} (h : lines.length ≤ fuel) :
    compactLoop value mapIndent (fuel + 1) lines = compactLoop value mapIndent fuel lines := by
  induction fuel generalizing lines with
  | zero =>
    have hnil : lines = [] := List.eq_nil_of_length_eq_zero (Nat.le_zero.mp h)
    subst hnil
    rfl
  | succ fuel ih =>
    rw [compactLoop, compactLoop]
    have hskip := (skipBlankAndComment_suffix lines).length_le
    cases hrest : skipBlankAndComment lines with
    | nil => rfl
    | cons nx rest =>
      rw [hrest, List.length_cons] at hskip
      refine if_congr Iff.rfl rfl ?_
      cases hkey : splitKey nx.payload with
      | none => rfl
      | some kv =>
        refine bind_congr_ok fun ⟨node, rest'⟩ hentry => ?_
        have hle := (hvalue.entryValue hentry).length_le
        simp only [ih (hle.trans (by omega))]

end

end Papa.Util.Yaml
