import Papa.Util.YamlNesting
import Papa.Util.YamlTrailing

/-!
# Writing documents

A tree of texts, sequences and mappings is written in block style: each item and each entry starts a
line, a text stands on that line between double quotes, and the lines of a sequence or a mapping
below it are one column further to the right. The parser reads the tree back, with its texts and its
keys as they were, as long as the tree has no empty sequence or mapping and is not nested deeper
than the parser goes.

## Main definitions

* `Papa.Util.Yaml.doubleQuoted`: the quoted scalar of a text.
* `Papa.Util.Yaml.Node.drafts`: the lines of a tree, with their columns.
* `Papa.Util.Yaml.writeDocument`: the document of a tree.
* `Papa.Util.Yaml.Node.Proper`: no sequence and no mapping of the tree is empty.

## Main results

* `Papa.Util.Yaml.parseValue_reads`: the lines of a tree are read as the tree.
* `Papa.Util.Yaml.parseValue_refuses`: a tree that is nested too deep is an error.
* `Papa.Util.Yaml.parse_writeDocument`: a document is read as the tree it was written for.
-/

namespace Papa.Util.Yaml

open QuoteState

/-! ### Quoted texts -/

/-- One byte of a double-quoted scalar. -/
def escapeByte (c : UInt8) : Str :=
  if c = ch '\\' ∨ c = kDoubleQuote then [ch '\\', c]
  else if c = 10 then [ch '\\', ch 'n']
  else if c = 13 then [ch '\\', ch 'r']
  else [c]

/-- A text as a double-quoted scalar. -/
def doubleQuoted (v : Str) : Str := kDoubleQuote :: (v.flatMap escapeByte ++ [kDoubleQuote])

/-- An escaped byte stands for itself. -/
theorem escapedBody_escapeByte (c : UInt8) {body v : Str} (h : EscapedBody body v) :
    EscapedBody (escapeByte c ++ body) (c :: v) := by
  unfold escapeByte
  split_ifs with hspecial hfeed hreturn
  · rcases hspecial with rfl | rfl
    · exact .simple (by decide) h
    · exact .simple (by decide) h
  · rw [hfeed]
    exact .simple (by decide) h
  · rw [hreturn]
    exact .simple (by decide) h
  · obtain ⟨hslash, hquote⟩ := not_or.mp hspecial
    exact .plain c hslash hquote h

/-- **The quoted form of a text** stands for it. -/
theorem quotedScalar_doubleQuoted (v : Str) : QuotedScalar (doubleQuoted v) v := by
  refine .double ?_
  induction v with
  | nil => exact .nil
  | cons c v ih => exact escapedBody_escapeByte c ih

/-- A text that a line can hold. -/
def OnLine (s : Str) : Prop := ∀ c ∈ s, c ≠ 10 ∧ c ≠ 13

instance (s : Str) : Decidable (OnLine s) :=
  inferInstanceAs (Decidable (∀ c ∈ s, c ≠ 10 ∧ c ≠ 13))

theorem OnLine.append {s t : Str} (hs : OnLine s) (ht : OnLine t) : OnLine (s ++ t) := fun c hc =>
  (List.mem_append.mp hc).elim (hs c) (ht c)

theorem onLine_escapeByte (c : UInt8) : OnLine (escapeByte c) := by
  unfold escapeByte
  split_ifs with hspecial hfeed hreturn
  · rcases hspecial with rfl | rfl <;> decide
  · decide
  · decide
  · intro b hb
    obtain rfl := List.mem_singleton.mp hb
    exact ⟨hfeed, hreturn⟩

theorem onLine_doubleQuoted (v : Str) : OnLine (doubleQuoted v) := by
  have hbody : OnLine (v.flatMap escapeByte) := fun c hc => by
    obtain ⟨b, -, hb⟩ := List.mem_flatMap.mp hc
    exact onLine_escapeByte b c hb
  exact OnLine.append (s := [kDoubleQuote]) (by decide) (hbody.append (by decide))

/-! ### Lines of a document -/

/-- A line to be written: its column and its text. -/
abbrev Draft := ℕ × Str

/-- The line of an item of a sequence, with the item if that is a text. -/
def itemText : Node → Str
  | .scalar text _ _ => ch '-' :: ch ' ' :: doubleQuoted text
  | _ => [ch '-']

/-- The line of an entry of a mapping, with the value if that is a text. -/
def entryText (key : Str) : Node → Str
  | .scalar text _ _ => doubleQuoted key ++ ch ':' :: ch ' ' :: doubleQuoted text
  | _ => doubleQuoted key ++ [ch ':']

mutual

/-- The lines of a sequence or a mapping at a column. -/
def Node.drafts (column : ℕ) : Node → List Draft
  | .scalar _ _ _ => []
  | .sequence items _ _ => itemDrafts column items
  | .mapping entries _ _ => entryDrafts column entries

/-- The lines of the items of a sequence. -/
def itemDrafts (column : ℕ) : List Node → List Draft
  | [] => []
  | item :: items =>
    (column, itemText item) :: (item.drafts (column + 1) ++ itemDrafts column items)

/-- The lines of the entries of a mapping. -/
def entryDrafts (column : ℕ) : List (Str × Node) → List Draft
  | [] => []
  | (key, node) :: entries =>
    (column, entryText key node) :: (node.drafts (column + 1) ++ entryDrafts column entries)

end

/-- The bytes of a line. -/
def Draft.physical (d : Draft) : Str := List.replicate d.1 (ch ' ') ++ d.2

/-- The document of a tree. -/
def writeDocument (n : Node) : Str := List.intercalate [10] ((n.drafts 0).map Draft.physical)

/-- What a line of a text holds. -/
def Line.draft (ln : Line) : Draft := (ln.indent, ln.payload)

/-! ### Lines in a text -/

/-- A text of a line of an item or an entry. -/
structure IsLineText (s : Str) : Prop where
  lead : ∃ a t, s = a :: t ∧ (a = ch '-' ∨ a = kDoubleQuote)
  onLine : OnLine s
  separator : s ≠ str "---"

theorem isLineText_itemText (item : Node) : IsLineText (itemText item) := by
  cases item with
  | scalar text =>
    refine ⟨⟨_, _, rfl, .inl rfl⟩, ?_, fun h => ?_⟩
    · exact OnLine.append (s := [ch '-', ch ' ']) (by decide) (onLine_doubleQuoted text)
    · exact absurd (List.cons.inj (List.cons.inj h).2).1 (by decide)
  | sequence | mapping =>
    have hdash : IsLineText [ch '-'] := ⟨⟨_, _, rfl, .inl rfl⟩, by decide, by decide⟩
    exact hdash

theorem isLineText_entryText (key : Str) (node : Node) : IsLineText (entryText key node) := by
  cases node with
  | scalar text =>
    refine ⟨⟨_, _, rfl, .inr rfl⟩, ?_, fun h => ?_⟩
    · exact (onLine_doubleQuoted key).append
        (OnLine.append (s := [ch ':', ch ' ']) (by decide) (onLine_doubleQuoted text))
    · exact absurd (List.cons.inj h).1 (by decide)
  | sequence | mapping =>
    refine ⟨⟨_, _, rfl, .inr rfl⟩, ?_, fun h => ?_⟩
    · exact (onLine_doubleQuoted key).append (by decide)
    · exact absurd (List.cons.inj h).1 (by decide)

mutual

theorem isLineText_drafts (column : ℕ) (n : Node) : ∀ d ∈ n.drafts column, IsLineText d.2 := by
  cases n with
  | scalar => exact fun d hd => absurd hd (by rw [Node.drafts]; exact List.not_mem_nil)
  | sequence items =>
    rw [Node.drafts]
    exact isLineText_itemDrafts column items
  | mapping entries =>
    rw [Node.drafts]
    exact isLineText_entryDrafts column entries

theorem isLineText_itemDrafts (column : ℕ) (items : List Node) :
    ∀ d ∈ itemDrafts column items, IsLineText d.2 := by
  cases items with
  | nil => exact fun d hd => absurd hd (by rw [itemDrafts]; exact List.not_mem_nil)
  | cons item items =>
    rw [itemDrafts]
    refine List.forall_mem_cons.mpr ⟨isLineText_itemText item, fun d hd => ?_⟩
    rcases List.mem_append.mp hd with hd | hd
    · exact isLineText_drafts (column + 1) item d hd
    · exact isLineText_itemDrafts column items d hd

theorem isLineText_entryDrafts (column : ℕ) (entries : List (Str × Node)) :
    ∀ d ∈ entryDrafts column entries, IsLineText d.2 := by
  match entries with
  | [] => exact fun d hd => absurd hd (by rw [entryDrafts]; exact List.not_mem_nil)
  | (key, node) :: entries =>
    rw [entryDrafts]
    refine List.forall_mem_cons.mpr ⟨isLineText_entryText key node, fun d hd => ?_⟩
    rcases List.mem_append.mp hd with hd | hd
    · exact isLineText_drafts (column + 1) node d hd
    · exact isLineText_entryDrafts column entries d hd

end

/-- A line is read with its column. -/
theorem tokenizeLine_physical {d : Draft} (h : IsLineText d.2) (lineNo : ℕ) :
    tokenizeLine d.physical lineNo = .ok ⟨lineNo, d.1, d.2⟩ := by
  obtain ⟨column, s⟩ := d
  obtain ⟨⟨a, t, rfl, ha⟩, hon, -⟩ := h
  have hspace : (a == ch ' ') = false := by rcases ha with rfl | rfl <;> decide
  have htab : (some a == some (ch '\t')) = false := by rcases ha with rfl | rfl <;> decide
  have hlast : ((List.replicate column (ch ' ') ++ a :: t).getLast? == some 13) = false := by
    rw [beq_eq_false_iff_ne, List.getLast?_append_of_ne_nil _ (List.cons_ne_nil a t)]
    exact fun h => (hon 13 (List.mem_of_getLast? h)).2 rfl
  have hdrop : (List.replicate column (ch ' ') ++ a :: t).dropWhile (· == ch ' ') = a :: t := by
    rw [List.dropWhile_append_of_pos (by simp), List.dropWhile_cons_of_neg (by simp [hspace])]
  have htake : (List.replicate column (ch ' ') ++ a :: t).takeWhile (· == ch ' ') =
      List.replicate column (ch ' ') := by
    rw [List.takeWhile_append_of_pos (by simp), List.takeWhile_cons_of_neg (by simp [hspace]),
      List.append_nil]
  rw [tokenizeLine, Draft.physical]
  dsimp only
  rw [hlast, if_neg Bool.false_ne_true, hdrop, htake, List.head?_cons, htab,
    if_neg Bool.false_ne_true, List.length_replicate]

/-- The lines are read one by one. -/
theorem exists_mapM_tokenizeLine {drafts : List Draft} (h : ∀ d ∈ drafts, IsLineText d.2) (k : ℕ) :
    ∃ lines, ((drafts.map Draft.physical).zipIdx k).mapM (fun (raw, lineNo) =>
      tokenizeLine raw lineNo) = .ok lines ∧ lines.map Line.draft = drafts := by
  induction drafts generalizing k with
  | nil => exact ⟨[], rfl, rfl⟩
  | cons d drafts ih =>
    obtain ⟨lines, hlines, hdrafts⟩ := ih (fun d hd => h d (List.mem_cons_of_mem _ hd)) (k + 1)
    refine ⟨⟨k, d.1, d.2⟩ :: lines, ?_, congrArg (d :: ·) hdrafts⟩
    rw [List.map_cons, List.zipIdx_cons, List.mapM_cons, hlines]
    dsimp only
    rw [tokenizeLine_physical (h d List.mem_cons_self)]
    rfl

/-- **The lines of a document** are those it was written from. -/
theorem exists_tokenizeLines {drafts : List Draft} (hne : drafts ≠ [])
    (h : ∀ d ∈ drafts, IsLineText d.2) :
    ∃ lines, tokenizeLines (List.intercalate [10] (drafts.map Draft.physical)) = .ok lines ∧
      lines.map Line.draft = drafts := by
  have hbreak : ∀ s ∈ drafts.map Draft.physical, (10 : UInt8) ∉ s := by
    intro s hs hmem
    obtain ⟨d, hd, rfl⟩ := List.mem_map.mp hs
    rcases List.mem_append.mp hmem with hmem | hmem
    · exact absurd (List.eq_of_mem_replicate hmem) (by decide)
    · exact ((h d hd).onLine 10 hmem).1 rfl
  have hsplit : (List.intercalate [10] (drafts.map Draft.physical)).splitOn 10 =
      drafts.map Draft.physical :=
    List.splitOn_intercalate _ hbreak (by simpa using hne)
  rw [tokenizeLines, hsplit]
  exact exists_mapM_tokenizeLine h 1

/-! ### Reading the lines -/

mutual

/-- No sequence and no mapping of a tree is empty. -/
def Node.Proper : Node → Prop
  | .scalar _ _ _ => True
  | .sequence items _ _ => items ≠ [] ∧ ItemsProper items
  | .mapping entries _ _ => entries ≠ [] ∧ EntriesProper entries

/-- No sequence and no mapping of the items is empty. -/
def ItemsProper : List Node → Prop
  | [] => True
  | item :: items => item.Proper ∧ ItemsProper items

/-- No sequence and no mapping of the values is empty. -/
def EntriesProper : List (Str × Node) → Prop
  | [] => True
  | (_, node) :: entries => node.Proper ∧ EntriesProper entries

end

/-- A text. -/
def Node.isScalar : Node → Bool
  | .scalar _ _ _ => true
  | _ => false

/-- A node that is deeper than a text is none. -/
theorem isScalar_of_depth {n : Node} (h : 1 < n.depth) : n.isScalar = false := by
  cases n with
  | scalar =>
    rw [Node.depth] at h
    exact absurd h (Nat.lt_irrefl 1)
  | sequence | mapping => rfl

theorem itemText_of_below {item : Node} (h : item.isScalar = false) : itemText item = [ch '-'] := by
  cases item with
  | scalar => exact absurd h Bool.false_ne_true.symm
  | sequence | mapping => rfl

theorem entryText_of_below (key : Str) {node : Node} (h : node.isScalar = false) :
    entryText key node = doubleQuoted key ++ [ch ':'] := by
  cases node with
  | scalar => exact absurd h Bool.false_ne_true.symm
  | sequence | mapping => rfl

/-- What may follow the lines at a column: a line with content further to the left. -/
def Below (column : ℕ) (after : List Line) : Prop :=
  ∀ ln ∈ after.head?, ln.indent < column ∧ ∃ a s, ln.payload = a :: s ∧ a ≠ ch '#'

theorem Below.nil (column : ℕ) : Below column [] := fun _ h => absurd h (Option.not_mem_none _)

theorem Below.mono {column column' : ℕ} {after : List Line} (h : Below column after)
    (hle : column ≤ column') : Below column' after := fun ln hln =>
  ⟨Nat.lt_of_lt_of_le (h ln hln).1 hle, (h ln hln).2⟩

/-- Lines of items or entries stand to the left of those below them. -/
theorem Below.append {column : ℕ} {lines after : List Line} {drafts : List Draft}
    (hdrafts : lines.map Line.draft = drafts) (hcolumn : ∀ d ∈ drafts.head?, d.1 = column)
    (htext : ∀ d ∈ drafts, IsLineText d.2) (h : Below column after) :
    Below (column + 1) (lines ++ after) := by
  cases lines with
  | nil => exact h.mono (Nat.le_succ column)
  | cons ln lines =>
    subst hdrafts
    intro ln' hln'
    obtain rfl := Option.some.inj hln'
    obtain ⟨⟨a, s, hs, ha⟩, -, -⟩ := htext ln.draft List.mem_cons_self
    have hindent : ln.indent = column := hcolumn ln.draft rfl
    refine ⟨hindent ▸ Nat.lt_succ_self _, a, s, hs, ?_⟩
    rcases ha with rfl | rfl <;> decide

/-- The loops end where the lines do. -/
theorem sequenceLoop_below {value : ValueParser} {column fuel : ℕ} {after : List Line}
    (h : Below column after) : sequenceLoop value column fuel after = .ok ([], after) := by
  cases fuel with
  | zero => rfl
  | succ fuel =>
    cases after with
    | nil => rfl
    | cons ln after =>
      obtain ⟨hlt, a, s, hpayload, hhash⟩ := h ln rfl
      rw [sequenceLoop, skipBlankAndComment_cons hpayload hhash]
      exact if_pos hlt

theorem mappingLoop_below {value : ValueParser} {column fuel : ℕ} {after : List Line}
    (h : Below column after) : mappingLoop value column fuel after = .ok ([], after) := by
  cases fuel with
  | zero => rfl
  | succ fuel =>
    cases after with
    | nil => rfl
    | cons ln after =>
      obtain ⟨hlt, a, s, hpayload, hhash⟩ := h ln rfl
      rw [mappingLoop, skipBlankAndComment_cons hpayload hhash]
      exact if_pos hlt

/-- A parser of values reads the trees of some nesting from their lines. -/
def ValueParser.Reads (value : ValueParser) (k : ℕ) : Prop :=
  ∀ n : Node, n.Proper → n.isScalar = false → n.depth ≤ k → ∀ column lines after,
    lines.map Line.draft = n.drafts column → Below column after →
      ∃ n', value column (lines ++ after) = .ok (n', after) ∧ n'.tree = n.tree

section Quoted

variable {s v : Str} (hs : QuotedScalar s v)

include hs

/-- No key is split off a quoted scalar. -/
theorem QuotedScalar.splitKey_eq_none : splitKey s = none := by
  have h := splitKey_dashed hs 0 []
  rwa [List.replicate_zero, List.nil_append, List.append_nil] at h

/-- A quoted key is split off at the end of a line. -/
theorem QuotedScalar.splitKey_bare : splitKey (s ++ [ch ':']) = some (s, []) := by
  have hrun : outside.run s = outside := hs.passes.2
  rw [Yaml.splitKey_eq, hs.passes.1.scanKey, hrun, scanKey, if_pos ⟨rfl, rfl, Or.inl rfl⟩]
  exact congrArg (fun k => some (k, _)) (List.append_nil s)

end Quoted

/-- The lines of a sequence, and those of a mapping, begin at the column. -/
theorem head_itemDrafts (column : ℕ) (items : List Node) :
    ∀ d ∈ (itemDrafts column items).head?, d.1 = column := by
  cases items with
  | nil => exact fun d hd => absurd hd (by rw [itemDrafts]; exact Option.not_mem_none d)
  | cons item items =>
    rw [itemDrafts]
    exact fun d hd => Option.some.inj hd ▸ rfl

theorem head_entryDrafts (column : ℕ) (entries : List (Str × Node)) :
    ∀ d ∈ (entryDrafts column entries).head?, d.1 = column := by
  cases entries with
  | nil => exact fun d hd => absurd hd (by rw [entryDrafts]; exact Option.not_mem_none d)
  | cons entry entries =>
    rw [entryDrafts]
    exact fun d hd => Option.some.inj hd ▸ rfl

theorem exists_dash_of_itemText {item : Node} {ln : Line} (h : ln.payload = itemText item) :
    ∃ s, ln.payload = ch '-' :: s ∧ ln.isDash = true := by
  unfold Line.isDash
  rw [h]
  cases item <;> exact ⟨_, rfl, rfl⟩

/-- A turn of the loops, on the line of an item and on that of an entry. -/
theorem sequenceLoop_itemText {item : Node} {ln : Line} {column : ℕ}
    (hln : ln.draft = (column, itemText item)) {value : ValueParser} {fuel : ℕ} {rest : List Line} :
    sequenceLoop value column (fuel + 1) (ln :: rest) = (do
      let (item, rest) ← sequenceItem value ln rest
      let (items, rest) ← sequenceLoop value column fuel rest
      pure (item :: items, rest)) := by
  obtain ⟨rfl, hpayload⟩ := Prod.mk.inj hln
  obtain ⟨s, hs, hdash⟩ := exists_dash_of_itemText hpayload
  rw [sequenceLoop, skipBlankAndComment_cons hs (by decide)]
  dsimp only
  rw [if_neg (Nat.lt_irrefl _), if_neg (Nat.lt_irrefl _), hdash, if_neg (by decide)]

theorem mappingLoop_entryText {key : Str} {node : Node} {ln : Line} {column : ℕ}
    (hln : ln.draft = (column, entryText key node)) {value : ValueParser} {fuel : ℕ}
    {rest : List Line} :
    mappingLoop value column (fuel + 1) (ln :: rest) =
      match splitKey ln.payload with
      | none => .ok ([], ln :: rest)
      | some (k, v) => (do
        let key ← mappingKey k ln.lineNo (ln.indent + 1)
        let (node, rest) ← entryValue value column ln key.length v rest
        let (entries, rest) ← mappingLoop value column fuel rest
        pure ((key, node) :: entries, rest)) := by
  obtain ⟨rfl, hpayload⟩ := Prod.mk.inj hln
  obtain ⟨s, hs⟩ : ∃ s, ln.payload = kDoubleQuote :: s := by
    rw [hpayload]
    cases node <;> exact ⟨_, rfl⟩
  exact mappingLoop_cons hs (by decide) (by decide) value fuel rest

/-- A value starts on the line of its first item, or of its first entry. -/
theorem parseValue_itemText {item : Node} {ln : Line} {column : ℕ}
    (hln : ln.draft = (column, itemText item)) (levels : ℕ) (rest : List Line) :
    parseValue (levels + 1) column (ln :: rest) =
      parseSequence (parseValue levels) column ln (ln :: rest) := by
  obtain ⟨rfl, hpayload⟩ := Prod.mk.inj hln
  obtain ⟨s, hs, hdash⟩ := exists_dash_of_itemText hpayload
  rw [parseValue, skipBlankAndComment_cons hs (by decide)]
  dsimp only
  rw [hdash, Bool.true_and, if_pos (decide_eq_true (Nat.le_succ _))]

theorem parseValue_entryText {key : Str} {node : Node} {ln : Line} {column : ℕ}
    (hln : ln.draft = (column, entryText key node)) (levels : ℕ) (rest : List Line) :
    parseValue (levels + 1) column (ln :: rest) =
      parseMapping (parseValue levels) column ln (ln :: rest) := by
  obtain ⟨rfl, hpayload⟩ := Prod.mk.inj hln
  have hkey := quotedScalar_doubleQuoted key
  obtain ⟨s, hs⟩ : ∃ s, ln.payload = kDoubleQuote :: s := by
    rw [hpayload]
    cases node <;> exact ⟨_, rfl⟩
  have hdash : ln.isDash = false := by
    rw [Line.isDash, hs]
    cases s <;> rfl
  have hsplit : (splitKey ln.payload).isSome = true := by
    rw [hpayload]
    cases node with
    | scalar text => rw [entryText, hkey.splitKey_eq]; rfl
    | sequence | mapping => exact Option.isSome_of_eq_some hkey.splitKey_bare
  rw [parseValue, skipBlankAndComment_cons hs (by decide)]
  dsimp only
  rw [hdash, Bool.false_and, if_neg Bool.false_ne_true, if_neg (Nat.lt_irrefl _), hs,
    List.isEmpty_cons,
    if_neg Bool.false_ne_true, ← hs, if_pos hsplit]

/-- A node is a node of its tree. -/
theorem Node.depth_pos (n : Node) : 1 ≤ n.depth := by
  cases n <;> rw [Node.depth] <;> omega

section Loops

variable {value : ValueParser} {k column : ℕ} (hvalue : value.Reads k)

include hvalue

/-- An item is read from its line and the lines below it. -/
theorem exists_sequenceItem {item : Node} (hproper : item.Proper) (hdepth : item.depth ≤ k)
    {ln : Line} (hln : ln.draft = (column, itemText item)) {lines rest : List Line}
    (hlines : lines.map Line.draft = item.drafts (column + 1)) (hrest : Below (column + 1) rest) :
    ∃ item', sequenceItem value ln (lines ++ rest) = .ok (item', rest) ∧
      item'.tree = item.tree := by
  obtain ⟨hindent, hpayload⟩ := Prod.mk.inj hln
  cases hscalar : item.isScalar with
  | true =>
    cases item with
    | scalar text line col =>
      have hs := quotedScalar_doubleQuoted text
      rw [Node.drafts, List.map_eq_nil_iff] at hlines
      subst hlines
      refine ⟨.scalar text ln.lineNo (ln.indent + 1 + 2), ?_, rfl⟩
      have hcontent : ln.payload.drop 2 = doubleQuoted text := by
        rw [hpayload]
        rfl
      rw [sequenceItem, hcontent, hs.isEmpty_eq_false, if_neg Bool.false_ne_true,
        hs.splitKey_eq_none]
      dsimp only
      rw [hs.inlineScalar_eq]
      rfl
    | sequence | mapping => exact absurd hscalar Bool.false_ne_true
  | false =>
    obtain ⟨item', hitem, htree⟩ :=
      hvalue item hproper hscalar hdepth (column + 1) lines rest hlines
      hrest
    have hcontent : ln.payload.drop 2 = [] := by
      rw [hpayload, itemText_of_below hscalar]
      rfl
    refine ⟨item', ?_, htree⟩
    rw [sequenceItem, hcontent, hindent]
    exact hitem

/-- The items of a sequence are read from their lines. -/
theorem exists_sequenceLoop {items : List Node} (hproper : ItemsProper items)
    (hdepth : itemsDepth items ≤ k) {lines after : List Line} {fuel : ℕ}
    (hlines : lines.map Line.draft = itemDrafts column items) (hafter : Below column after)
    (hfuel : lines.length ≤ fuel) :
    ∃ items', sequenceLoop value column fuel (lines ++ after) = .ok (items', after) ∧
      treeItems items' = treeItems items := by
  induction items generalizing lines fuel with
  | nil =>
    rw [itemDrafts, List.map_eq_nil_iff] at hlines
    subst hlines
    exact ⟨[], sequenceLoop_below hafter, rfl⟩
  | cons item items ih =>
    rw [itemDrafts] at hlines
    obtain ⟨ln, below, rfl, hln, hbelow⟩ := List.map_eq_cons_iff.mp hlines
    obtain ⟨inner, further, rfl, hinner, hfurther⟩ := List.map_eq_append_iff.mp hbelow
    rw [ItemsProper] at hproper
    rw [itemsDepth] at hdepth
    have hrest : Below (column + 1) (further ++ after) :=
      hafter.append hfurther (head_itemDrafts column items) (isLineText_itemDrafts column items)
    obtain ⟨item', hitem, htree⟩ := exists_sequenceItem hvalue hproper.1
      (le_trans (le_max_left _ _) hdepth) hln hinner hrest
    cases fuel with
    | zero => exact absurd hfuel (Nat.not_succ_le_zero _)
    | succ fuel =>
      have hle : further.length ≤ fuel := by
        rw [List.length_cons, List.length_append] at hfuel
        omega
      obtain ⟨items', hloop, htrees⟩ :=
        ih hproper.2 (le_trans (le_max_right _ _) hdepth) hfurther hle
      refine ⟨item' :: items', ?_, by rw [treeItems, treeItems, htree, htrees]⟩
      rw [List.cons_append, List.append_assoc, sequenceLoop_itemText hln, hitem, ok_bind]
      dsimp only
      rw [hloop]
      rfl

/-- The value of an entry is read from its line and the lines below it. -/
theorem exists_entryValue {key : Str} {node : Node} (hproper : node.Proper)
    (hdepth : node.depth ≤ k) {ln : Line} (hln : ln.draft = (column, entryText key node))
    {lines rest : List Line} (hlines : lines.map Line.draft = node.drafts (column + 1))
    (hrest : Below (column + 1) rest) :
    ∃ v node', splitKey ln.payload = some (doubleQuoted key, v) ∧
      entryValue value column ln key.length v (lines ++ rest) = .ok (node', rest) ∧
      node'.tree = node.tree := by
  obtain ⟨hindent, hpayload⟩ := Prod.mk.inj hln
  have hkey := quotedScalar_doubleQuoted key
  cases hscalar : node.isScalar with
  | true =>
    cases node with
    | scalar text line col =>
      have hs := quotedScalar_doubleQuoted text
      rw [Node.drafts, List.map_eq_nil_iff] at hlines
      subst hlines
      have hentry := entryValue_quoted hs (closes_nil _) value column ln key.length rest
      rw [List.append_nil] at hentry
      refine ⟨doubleQuoted text, _, ?_, hentry, rfl⟩
      rw [hpayload, entryText, hkey.splitKey_eq]
      rfl
    | sequence | mapping => exact absurd hscalar Bool.false_ne_true
  | false =>
    obtain ⟨node', hnode, htree⟩ :=
      hvalue node hproper hscalar hdepth (column + 1) lines rest hlines
      hrest
    have hbare : ln.payload = doubleQuoted key ++ [ch ':'] :=
      hpayload.trans (entryText_of_below key hscalar)
    exact ⟨[], node', hbare ▸ hkey.splitKey_bare, hnode, htree⟩

/-- The entries of a mapping are read from their lines. -/
theorem exists_mappingLoop {entries : List (Str × Node)} (hproper : EntriesProper entries)
    (hdepth : entriesDepth entries ≤ k) {lines after : List Line} {fuel : ℕ}
    (hlines : lines.map Line.draft = entryDrafts column entries) (hafter : Below column after)
    (hfuel : lines.length ≤ fuel) :
    ∃ entries', mappingLoop value column fuel (lines ++ after) = .ok (entries', after) ∧
      treeEntries entries' = treeEntries entries := by
  induction entries generalizing lines fuel with
  | nil =>
    rw [entryDrafts, List.map_eq_nil_iff] at hlines
    subst hlines
    exact ⟨[], mappingLoop_below hafter, rfl⟩
  | cons entry entries ih =>
    obtain ⟨key, node⟩ := entry
    rw [entryDrafts] at hlines
    obtain ⟨ln, below, rfl, hln, hbelow⟩ := List.map_eq_cons_iff.mp hlines
    obtain ⟨inner, further, rfl, hinner, hfurther⟩ := List.map_eq_append_iff.mp hbelow
    rw [EntriesProper] at hproper
    rw [entriesDepth] at hdepth
    have hrest : Below (column + 1) (further ++ after) :=
      hafter.append hfurther (head_entryDrafts column entries)
          (isLineText_entryDrafts column entries)
    obtain ⟨v, node', hsplit, hentry, htree⟩ := exists_entryValue hvalue hproper.1
      (le_trans (le_max_left _ _) hdepth) hln hinner hrest
    cases fuel with
    | zero => exact absurd hfuel (Nat.not_succ_le_zero _)
    | succ fuel =>
      have hle : further.length ≤ fuel := by
        rw [List.length_cons, List.length_append] at hfuel
        omega
      obtain ⟨entries', hloop, htrees⟩ :=
        ih hproper.2 (le_trans (le_max_right _ _) hdepth) hfurther hle
      refine ⟨(key, node') :: entries', ?_, by rw [treeEntries, treeEntries, htree, htrees]⟩
      rw [List.cons_append, List.append_assoc, mappingLoop_entryText hln, hsplit]
      dsimp only
      rw [(quotedScalar_doubleQuoted key).mappingKey_eq, ok_bind, hentry, ok_bind]
      dsimp only
      rw [hloop]
      rfl

end Loops

/-- A parser of values fails on the trees that are nested deeper. -/
def ValueParser.Refuses (value : ValueParser) (k : ℕ) : Prop :=
  ∀ n : Node, n.Proper → n.isScalar = false → k < n.depth → ∀ column lines after,
    lines.map Line.draft = n.drafts column → Below column after →
      ∃ e, value column (lines ++ after) = .error e

section Refusing

variable {value : ValueParser} {k column : ℕ} (hvalue : value.Reads k) (hrefuses : value.Refuses k)

include hrefuses

/-- The value below a line is nested too deep. -/
theorem exists_error_of_item {item : Node} (hproper : item.Proper) (hpos : 1 ≤ k)
    (hdepth : k < item.depth) {ln : Line} (hln : ln.draft = (column, itemText item))
    {lines rest : List Line} (hlines : lines.map Line.draft = item.drafts (column + 1))
    (hrest : Below (column + 1) rest) : ∃ e, sequenceItem value ln (lines ++ rest) = .error e := by
  obtain ⟨hindent, hpayload⟩ := Prod.mk.inj hln
  have hscalar := isScalar_of_depth (Nat.lt_of_le_of_lt hpos hdepth)
  obtain ⟨e, he⟩ := hrefuses item hproper hscalar hdepth (column + 1) lines rest hlines hrest
  refine ⟨e, ?_⟩
  rw [sequenceItem, hpayload, itemText_of_below hscalar, hindent]
  exact he

theorem exists_error_of_entry {key : Str} {node : Node} (hproper : node.Proper) (hpos : 1 ≤ k)
    (hdepth : k < node.depth) {ln : Line} (hln : ln.draft = (column, entryText key node))
    {lines rest : List Line} (hlines : lines.map Line.draft = node.drafts (column + 1))
    (hrest : Below (column + 1) rest) :
    splitKey ln.payload = some (doubleQuoted key, []) ∧
      ∃ e, entryValue value column ln key.length [] (lines ++ rest) = .error e := by
  obtain ⟨-, hpayload⟩ := Prod.mk.inj hln
  have hscalar := isScalar_of_depth (Nat.lt_of_le_of_lt hpos hdepth)
  refine ⟨?_, hrefuses node hproper hscalar hdepth (column + 1) lines rest hlines hrest⟩
  rw [hpayload, entryText_of_below key hscalar]
  exact (quotedScalar_doubleQuoted key).splitKey_bare

include hvalue

/-- One item that is nested too deep is enough, and the items before it are read. -/
theorem exists_error_of_items {items : List Node} (hproper : ItemsProper items) (hpos : 1 ≤ k)
    (hdepth : k < itemsDepth items) {lines after : List Line} {fuel : ℕ}
    (hlines : lines.map Line.draft = itemDrafts column items) (hafter : Below column after)
    (hfuel : lines.length ≤ fuel) :
    ∃ e, sequenceLoop value column fuel (lines ++ after) = .error e := by
  induction items generalizing lines fuel with
  | nil =>
    rw [itemsDepth] at hdepth
    omega
  | cons item items ih =>
    rw [itemDrafts] at hlines
    obtain ⟨ln, below, rfl, hln, hbelow⟩ := List.map_eq_cons_iff.mp hlines
    obtain ⟨inner, further, rfl, hinner, hfurther⟩ := List.map_eq_append_iff.mp hbelow
    rw [ItemsProper] at hproper
    rw [itemsDepth] at hdepth
    have hrest : Below (column + 1) (further ++ after) :=
      hafter.append hfurther (head_itemDrafts column items) (isLineText_itemDrafts column items)
    cases fuel with
    | zero => exact absurd hfuel (Nat.not_succ_le_zero _)
    | succ fuel =>
      rw [List.cons_append, List.append_assoc, sequenceLoop_itemText hln]
      rcases Nat.lt_or_ge k item.depth with hdeep | hfits
      · obtain ⟨e, he⟩ := exists_error_of_item hrefuses hproper.1 hpos hdeep hln hinner hrest
        exact ⟨e, by rw [he]; rfl⟩
      · obtain ⟨item', hitem, -⟩ := exists_sequenceItem hvalue hproper.1 hfits hln hinner hrest
        have hle : further.length ≤ fuel := by
          rw [List.length_cons, List.length_append] at hfuel
          omega
        have hdeep : k < itemsDepth items := by omega
        obtain ⟨e, he⟩ := ih hproper.2 hdeep hfurther hle
        refine ⟨e, ?_⟩
        rw [hitem, ok_bind]
        dsimp only
        rw [he]
        rfl

theorem exists_error_of_entries {entries : List (Str × Node)} (hproper : EntriesProper entries)
    (hpos : 1 ≤ k) (hdepth : k < entriesDepth entries) {lines after : List Line} {fuel : ℕ}
    (hlines : lines.map Line.draft = entryDrafts column entries) (hafter : Below column after)
    (hfuel : lines.length ≤ fuel) :
    ∃ e, mappingLoop value column fuel (lines ++ after) = .error e := by
  induction entries generalizing lines fuel with
  | nil =>
    rw [entriesDepth] at hdepth
    omega
  | cons entry entries ih =>
    obtain ⟨key, node⟩ := entry
    rw [entryDrafts] at hlines
    obtain ⟨ln, below, rfl, hln, hbelow⟩ := List.map_eq_cons_iff.mp hlines
    obtain ⟨inner, further, rfl, hinner, hfurther⟩ := List.map_eq_append_iff.mp hbelow
    rw [EntriesProper] at hproper
    rw [entriesDepth] at hdepth
    have hrest : Below (column + 1) (further ++ after) :=
      hafter.append hfurther (head_entryDrafts column entries)
          (isLineText_entryDrafts column entries)
    have hkey := (quotedScalar_doubleQuoted key).mappingKey_eq
    cases fuel with
    | zero => exact absurd hfuel (Nat.not_succ_le_zero _)
    | succ fuel =>
      rw [List.cons_append, List.append_assoc, mappingLoop_entryText hln]
      rcases Nat.lt_or_ge k node.depth with hdeep | hfits
      · obtain ⟨hsplit, e, he⟩ :=
          exists_error_of_entry hrefuses hproper.1 hpos hdeep hln hinner hrest
        refine ⟨e, ?_⟩
        rw [hsplit]
        dsimp only
        rw [hkey, ok_bind, he]
        rfl
      · obtain ⟨v, node', hsplit, hentry, -⟩ :=
          exists_entryValue hvalue hproper.1 hfits hln hinner hrest
        have hle : further.length ≤ fuel := by
          rw [List.length_cons, List.length_append] at hfuel
          omega
        have hdeep : k < entriesDepth entries := by omega
        obtain ⟨e, he⟩ := ih hproper.2 hdeep hfurther hle
        refine ⟨e, ?_⟩
        rw [hsplit]
        dsimp only
        rw [hkey, ok_bind, hentry, ok_bind]
        dsimp only
        rw [he]
        rfl

end Refusing

/-! ### Values -/

/-- A sequence or a mapping that is not empty is nested deeper than a text. -/
theorem Node.Proper.one_lt_depth {n : Node} (h : n.Proper) (hscalar : n.isScalar = false) :
    1 < n.depth := by
  cases n with
  | scalar => exact absurd hscalar Bool.false_ne_true.symm
  | sequence items =>
    rw [Node.Proper] at h
    obtain ⟨item, items, rfl⟩ := List.exists_cons_of_ne_nil h.1
    have hpos := item.depth_pos
    rw [Node.depth, itemsDepth]
    omega
  | mapping entries =>
    rw [Node.Proper] at h
    obtain ⟨⟨key, node⟩, entries, rfl⟩ := List.exists_cons_of_ne_nil h.1
    have hpos := node.depth_pos
    rw [Node.depth, entriesDepth]
    omega

section Values

variable {levels column : ℕ} {lines : List Line}

/-- The lines of items are parsed as a sequence. -/
theorem exists_parseValue_items {items : List Node} (hne : items ≠ [])
    (hlines : lines.map Line.draft = itemDrafts column items) (after : List Line) :
    ∃ first, parseValue (levels + 1) column (lines ++ after) =
      parseSequence (parseValue levels) column first (lines ++ after) := by
  obtain ⟨item, items, rfl⟩ := List.exists_cons_of_ne_nil hne
  rw [itemDrafts] at hlines
  obtain ⟨ln, below, rfl, hln, -⟩ := List.map_eq_cons_iff.mp hlines
  exact ⟨ln, parseValue_itemText hln levels (below ++ after)⟩

/-- The lines of entries are parsed as a mapping. -/
theorem exists_parseValue_entries {entries : List (Str × Node)} (hne : entries ≠ [])
    (hlines : lines.map Line.draft = entryDrafts column entries) (after : List Line) :
    ∃ first, parseValue (levels + 1) column (lines ++ after) =
      parseMapping (parseValue levels) column first (lines ++ after) := by
  obtain ⟨⟨key, node⟩, entries, rfl⟩ := List.exists_cons_of_ne_nil hne
  rw [entryDrafts] at hlines
  obtain ⟨ln, below, rfl, hln, -⟩ := List.map_eq_cons_iff.mp hlines
  exact ⟨ln, parseValue_entryText hln levels (below ++ after)⟩

end Values

/-- **The lines of a tree are read as the tree**, by a parser that goes as deep as the tree. -/
theorem parseValue_reads (levels : ℕ) : (parseValue levels).Reads (levels + 1) := by
  induction levels with
  | zero =>
    intro n hproper hscalar hdepth
    exact absurd hdepth (Nat.not_le.mpr (hproper.one_lt_depth hscalar))
  | succ levels ih =>
    intro n hproper hscalar hdepth column lines after hlines hafter
    have hfuel := (List.sublist_append_left lines after).length_le
    cases n with
    | scalar => exact absurd hscalar Bool.false_ne_true.symm
    | sequence items line col =>
      rw [Node.Proper] at hproper
      rw [Node.depth] at hdepth
      rw [Node.drafts] at hlines
      obtain ⟨items', hloop, htrees⟩ :=
        exists_sequenceLoop ih hproper.2 (Nat.le_of_succ_le_succ hdepth) hlines hafter hfuel
      obtain ⟨first, hvalue⟩ := exists_parseValue_items hproper.1 hlines after
      refine ⟨.sequence items' first.lineNo (column + 1), ?_, by rw [Node.tree, Node.tree, htrees]⟩
      rw [hvalue, parseSequence, hloop]
      rfl
    | mapping entries line col =>
      rw [Node.Proper] at hproper
      rw [Node.depth] at hdepth
      rw [Node.drafts] at hlines
      obtain ⟨entries', hloop, htrees⟩ :=
        exists_mappingLoop ih hproper.2 (Nat.le_of_succ_le_succ hdepth) hlines hafter hfuel
      obtain ⟨first, hvalue⟩ := exists_parseValue_entries hproper.1 hlines after
      refine ⟨.mapping entries' first.lineNo (column + 1), ?_, by rw [Node.tree, Node.tree, htrees]⟩
      rw [hvalue, parseMapping, hloop]
      rfl

/-- **A tree that is nested deeper is an error.** -/
theorem parseValue_refuses (levels : ℕ) : (parseValue levels).Refuses (levels + 1) := by
  induction levels with
  | zero => exact fun _ _ _ _ _ _ _ _ _ => ⟨_, rfl⟩
  | succ levels ih =>
    intro n hproper hscalar hdepth column lines after hlines hafter
    have hreads := parseValue_reads levels
    have hpos : 1 ≤ levels + 1 := Nat.le_add_left 1 levels
    have hfuel := (List.sublist_append_left lines after).length_le
    cases n with
    | scalar => exact absurd hscalar Bool.false_ne_true.symm
    | sequence items line col =>
      rw [Node.Proper] at hproper
      rw [Node.depth] at hdepth
      rw [Node.drafts] at hlines
      obtain ⟨e, he⟩ := exists_error_of_items hreads ih hproper.2 hpos
        (Nat.lt_of_succ_lt_succ hdepth) hlines hafter hfuel
      obtain ⟨first, hvalue⟩ := exists_parseValue_items hproper.1 hlines after
      refine ⟨e, ?_⟩
      rw [hvalue, parseSequence, he]
      rfl
    | mapping entries line col =>
      rw [Node.Proper] at hproper
      rw [Node.depth] at hdepth
      rw [Node.drafts] at hlines
      obtain ⟨e, he⟩ := exists_error_of_entries hreads ih hproper.2 hpos
        (Nat.lt_of_succ_lt_succ hdepth) hlines hafter hfuel
      obtain ⟨first, hvalue⟩ := exists_parseValue_entries hproper.1 hlines after
      refine ⟨e, ?_⟩
      rw [hvalue, parseMapping, he]
      rfl

/-! ### Documents -/

/-- What a whole document can hold: a text only if it is empty. -/
def Node.IsRoot : Node → Prop
  | .scalar text _ _ => text = []
  | _ => True

/-- What is made of a document is made of its lines. -/
theorem exists_parse_writeDocument {n : Node} (hproper : n.Proper) (hscalar : n.isScalar = false) :
    ∃ lines, lines.map Line.draft = n.drafts 0 ∧
      parse (writeDocument n) = (do
        let (root, rest) ← parseValue kMaxNestingDepth 0 lines
        match skipSeparators rest with
        | [] => pure root
        | ln :: _ => .error (yamlErr ln.lineNo (ln.indent + 1)
            (str "extra content after document end"))) := by
  have htext := isLineText_drafts 0 n
  obtain ⟨d, drafts, hdrafts, hcolumn⟩ : ∃ d drafts, n.drafts 0 = d :: drafts ∧ d.1 = 0 := by
    cases n with
    | scalar => exact absurd hscalar Bool.false_ne_true.symm
    | sequence items =>
      rw [Node.Proper] at hproper
      obtain ⟨item, items, rfl⟩ := List.exists_cons_of_ne_nil hproper.1
      rw [Node.drafts, itemDrafts]
      exact ⟨_, _, rfl, rfl⟩
    | mapping entries =>
      rw [Node.Proper] at hproper
      obtain ⟨entry, entries, rfl⟩ := List.exists_cons_of_ne_nil hproper.1
      rw [Node.drafts, entryDrafts]
      exact ⟨_, _, rfl, rfl⟩
  have hne : n.drafts 0 ≠ [] := hdrafts ▸ List.cons_ne_nil d drafts
  obtain ⟨lines, hlines, hmap⟩ := exists_tokenizeLines hne htext
  refine ⟨lines, hmap, ?_⟩
  rw [hdrafts] at hmap
  obtain ⟨ln, rest, rfl, hln, -⟩ := List.map_eq_cons_iff.mp hmap
  have hindent : ln.indent = 0 := (congrArg Prod.fst hln).trans hcolumn
  obtain ⟨⟨a, s, hs, ha⟩, -, hseparator⟩ : IsLineText ln.payload := by
    have hd := htext d (hdrafts ▸ List.mem_cons_self)
    rwa [← hln] at hd
  have hhash : a ≠ ch '#' := by rcases ha with rfl | rfl <;> decide
  rw [parse, writeDocument, hlines, ok_bind, parseDocument, skipSeparators_cons hs hhash hseparator]
  dsimp only
  exact hindent ▸ rfl

/-- **A document is read as the tree it was written for**, if that is not nested deeper than the
parser goes. -/
theorem parse_writeDocument {n : Node} (hproper : n.Proper) (hroot : n.IsRoot)
    (hdepth : n.depth ≤ kMaxNestingDepth + 1) :
    ∃ n', parse (writeDocument n) = .ok n' ∧ n'.tree = n.tree := by
  cases hscalar : n.isScalar with
  | true =>
    cases n with
    | scalar text line col =>
      obtain rfl : text = [] := hroot
      exact ⟨.empty, rfl, rfl⟩
    | sequence | mapping => exact absurd hscalar Bool.false_ne_true
  | false =>
    obtain ⟨lines, hlines, hparse⟩ := exists_parse_writeDocument hproper hscalar
    obtain ⟨n', hvalue, htree⟩ :=
      parseValue_reads kMaxNestingDepth n hproper hscalar hdepth 0 lines []
      hlines (.nil 0)
    rw [List.append_nil] at hvalue
    refine ⟨n', ?_, htree⟩
    rw [hparse, hvalue]
    rfl

/-- A document of a tree that is nested deeper is an error. -/
theorem exists_error_writeDocument {n : Node} (hproper : n.Proper)
    (hdepth : kMaxNestingDepth + 1 < n.depth) : ∃ e, parse (writeDocument n) = .error e := by
  have hscalar := isScalar_of_depth (Nat.lt_of_le_of_lt (by decide) hdepth)
  obtain ⟨lines, hlines, hparse⟩ := exists_parse_writeDocument hproper hscalar
  obtain ⟨e, he⟩ := parseValue_refuses kMaxNestingDepth n hproper hscalar hdepth 0 lines [] hlines
    (.nil 0)
  rw [List.append_nil] at he
  refine ⟨e, ?_⟩
  rw [hparse, he]
  rfl

end Papa.Util.Yaml
