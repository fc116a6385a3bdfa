import Papa.Util.YamlWriter

/-!
# The trees of documents

No sequence and no mapping that the parser returns is empty. The parser does build an empty mapping,
at a line whose key begins with a dash, but then it stands before that line for good: whatever is
around the mapping finds the line too far to the right, and the document is an error. So the trees
that can be read are those that can be written, as far as the parser goes.

## Main definitions

* `Papa.Util.Yaml.Blocks`: a line that the parser does not get past.

## Main results

* `Papa.Util.Yaml.parse_proper`: the tree of a document has no empty sequence or mapping.
* `Papa.Util.Yaml.parse_writeDocument_iff`: which trees are read from a document, and that each is
  read from the document written for it.
-/

namespace Papa.Util.Yaml

/-! ### Lines in the way -/

/-- A line with content at a column or further to the right stands next. -/
def Blocks (column : ℕ) (after : List Line) : Prop :=
  ∃ ln rest a s, after = ln :: rest ∧ column ≤ ln.indent ∧ ln.payload = a :: s ∧ a ≠ ch '#' ∧
    ln.payload ≠ str "---"

theorem Blocks.mono {column column' : ℕ} {after : List Line} (h : Blocks column' after)
    (hle : column ≤ column') : Blocks column after := by
  obtain ⟨ln, rest, a, s, hafter, hcolumn, hrest⟩ := h
  exact ⟨ln, rest, a, s, hafter, hle.trans hcolumn, hrest⟩

theorem skipBlankAndComment_skipped {lines rest : List Line} {ln : Line}
    (h : skipBlankAndComment lines = ln :: rest) :
    skipBlankAndComment (ln :: rest) = ln :: rest := by
  rw [← h]
  exact List.dropWhile_idempotent _ _

theorem content_of_skipped {lines rest : List Line} {ln : Line}
    (h : skipBlankAndComment lines = ln :: rest) : ∃ a s, ln.payload = a :: s ∧ a ≠ ch '#' := by
  have hnot := List.head?_dropWhile_not (fun ln : Line => ln.isBlank || ln.isComment) lines
  rw [show lines.dropWhile _ = ln :: rest from h] at hnot
  obtain ⟨hblank, hcomment⟩ := Bool.or_eq_false_iff.mp hnot
  cases hpayload : ln.payload with
  | nil =>
    rw [Line.isBlank, hpayload] at hblank
    cases hblank
  | cons a s =>
    rw [Line.isComment, hpayload] at hcomment
    refine ⟨a, s, rfl, fun ha => ?_⟩
    rw [List.head?_cons, ha, beq_self_eq_true] at hcomment
    exact Bool.false_ne_true hcomment.symm

/-- A turn of the loop over dash lines, which are at its column. -/
theorem sequenceLoop_turn {value : ValueParser} {column fuel : ℕ} {lines after : List Line}
    {items : List Node} (h : sequenceLoop value column (fuel + 1) lines = .ok (items, after)) :
    items = [] ∧ (∀ ln rest, skipBlankAndComment lines = ln :: rest → ln.indent = column →
      ln.isDash = false) ∨
    ∃ ln rest item rest' items', skipBlankAndComment lines = ln :: rest ∧ ln.indent = column ∧
      sequenceItem value ln rest = .ok (item, rest') ∧
      sequenceLoop value column fuel rest' = .ok (items', after) ∧ items = item :: items' := by
  unfold sequenceLoop at h
  cases hrest : skipBlankAndComment lines with
  | nil =>
    rw [hrest] at h
    obtain ⟨rfl, -⟩ := Prod.mk.inj (Except.ok.inj h)
    exact .inl ⟨rfl, fun ln rest h => absurd h.symm (List.cons_ne_nil _ _)⟩
  | cons ln rest =>
    rw [hrest] at h
    dsimp only at h
    split_ifs at h with hleft hright hdash
    · obtain ⟨rfl, -⟩ := Prod.mk.inj (Except.ok.inj h)
      refine .inl ⟨rfl, fun ln' rest' heq hcolumn => ?_⟩
      obtain ⟨rfl, -⟩ := List.cons.inj heq
      omega
    · obtain ⟨rfl, -⟩ := Prod.mk.inj (Except.ok.inj h)
      refine .inl ⟨rfl, fun ln' rest' heq _ => ?_⟩
      obtain ⟨rfl, -⟩ := List.cons.inj heq
      exact Bool.not_eq_true' _ ▸ hdash
    · obtain ⟨⟨item, rest'⟩, hitem, h⟩ := bind_eq_ok.mp h
      obtain ⟨⟨items', rest''⟩, hloop, h⟩ := bind_eq_ok.mp h
      obtain ⟨rfl, rfl⟩ := Prod.mk.inj (Except.ok.inj h)
      exact .inr ⟨ln, rest, item, rest', items', rfl, by omega, hitem, hloop, rfl⟩

/-- The loops over items and over entries fail at a line to the right of their column. -/
theorem sequenceLoop_blocks {value : ValueParser} {column fuel : ℕ} {lines after : List Line}
    {items : List Node} (h : Blocks (column + 1) lines) (hfuel : lines.length ≤ fuel) :
    sequenceLoop value column fuel lines ≠ .ok (items, after) := by
  obtain ⟨ln, rest, a, s, rfl, hcolumn, hpayload, hhash, -⟩ := h
  cases fuel with
  | zero => exact absurd hfuel (Nat.not_succ_le_zero _)
  | succ fuel =>
    rw [sequenceLoop, skipBlankAndComment_cons hpayload hhash]
    dsimp only
    rw [if_neg (by omega), if_pos (Nat.lt_of_succ_le hcolumn)]
    exact fun h => by cases h

theorem mappingLoop_blocks {value : ValueParser} {column fuel : ℕ} {lines after : List Line}
    {entries : List (Str × Node)} (h : Blocks (column + 1) lines) (hfuel : lines.length ≤ fuel) :
    mappingLoop value column fuel lines ≠ .ok (entries, after) := by
  obtain ⟨ln, rest, a, s, rfl, hcolumn, hpayload, hhash, -⟩ := h
  cases fuel with
  | zero => exact absurd hfuel (Nat.not_succ_le_zero _)
  | succ fuel =>
    rw [mappingLoop, skipBlankAndComment_cons hpayload hhash]
    dsimp only
    rw [if_neg (by omega), if_pos (Nat.lt_of_succ_le hcolumn)]
    exact fun h => by cases h

/-- The loop over the further keys behind a dash stops there. -/
theorem compactLoop_blocks {value : ValueParser} {mapIndent fuel : ℕ} {lines : List Line}
    (h : Blocks (mapIndent + 1) lines) :
    compactLoop value mapIndent fuel lines = .ok ([], lines) := by
  obtain ⟨ln, rest, a, s, rfl, hcolumn, hpayload, hhash, -⟩ := h
  cases fuel with
  | zero => rfl
  | succ fuel =>
    have hne : (ln.indent != mapIndent) = true := bne_iff_ne.mpr (by omega)
    rw [compactLoop, skipBlankAndComment_cons hpayload hhash]
    dsimp only
    rw [hne, Bool.true_or, Bool.true_or, if_pos rfl]

/-! ### No empty sequences and mappings -/

/-- A parser whose trees have no empty sequence or mapping, unless a line is in the way. -/
def ValueParser.YieldsProper (value : ValueParser) : Prop :=
  ∀ column lines n after, value column lines = .ok (n, after) → n.Proper ∨ Blocks column after

theorem Node.proper_scalar (text : Str) (line column : ℕ) : (scalar text line column).Proper := by
  rw [Node.Proper]
  trivial

namespace ValueParser.YieldsProper

variable {value : ValueParser} (hvalue : value.YieldsProper) {lines after : List Line} {ln : Line}

include hvalue

theorem entryValue {indent keySize : ℕ} {v : Str} {node : Node}
    (h : entryValue value indent ln keySize v lines = .ok (node, after)) :
    node.Proper ∨ Blocks (indent + 1) after := by
  unfold Yaml.entryValue at h
  split_ifs at h with hempty hblock
  · exact hvalue _ _ _ _ h
  · obtain ⟨rfl, -⟩ := Prod.mk.inj (Except.ok.inj h)
    exact .inl (Node.proper_scalar _ _ _)
  · obtain ⟨text, -, h⟩ := bind_eq_ok.mp h
    obtain ⟨rfl, -⟩ := Prod.mk.inj (Except.ok.inj h)
    exact .inl (Node.proper_scalar _ _ _)

theorem firstEntry {mapIndent : ℕ} {k v : Str} {node : Node}
    (h : firstEntry value mapIndent ln k v lines = .ok (node, after)) :
    node.Proper ∨ Blocks (mapIndent + 1) after := by
  unfold Yaml.firstEntry at h
  split_ifs at h with hinline
  · obtain ⟨text, -, h⟩ := bind_eq_ok.mp h
    obtain ⟨rfl, -⟩ := Prod.mk.inj (Except.ok.inj h)
    exact .inl (Node.proper_scalar _ _ _)
  · exact hvalue _ _ _ _ h

theorem compactLoop {mapIndent fuel : ℕ} {entries : List (Str × Node)}
    (h : compactLoop value mapIndent fuel lines = .ok (entries, after)) :
    EntriesProper entries ∨ Blocks (mapIndent + 1) after := by
  induction fuel generalizing lines entries with
  | zero =>
    obtain ⟨rfl, -⟩ := Prod.mk.inj (Except.ok.inj h)
    exact .inl trivial
  | succ fuel ih =>
    obtain ⟨rfl, -⟩ | ⟨ln, rest, k, v, node, rest', entries', -, hentry, hloop, rfl⟩ :=
      compactLoop_cases h
    · exact .inl trivial
    · rcases hvalue.entryValue hentry with hproper | hblocks
      · exact (ih hloop).imp_left fun hentries => ⟨hproper, hentries⟩
      · rw [compactLoop_blocks hblocks] at hloop
        obtain ⟨-, rfl⟩ := Prod.mk.inj (Except.ok.inj hloop)
        exact .inr hblocks

theorem sequenceItem {node : Node}
    (h : sequenceItem value ln lines = .ok (node, after)) :
    node.Proper ∨ Blocks (ln.indent + 1) after := by
  unfold Yaml.sequenceItem at h
  extract_lets content column at h
  split_ifs at h with hempty
  · exact hvalue _ _ _ _ h
  · split at h
    · obtain ⟨⟨first, rest⟩, hfirst, h⟩ := bind_eq_ok.mp h
      obtain ⟨⟨entries, rest'⟩, hloop, h⟩ := bind_eq_ok.mp h
      obtain ⟨rfl, rfl⟩ := Prod.mk.inj (Except.ok.inj h)
      rcases hvalue.firstEntry hfirst with hproper | hblocks
      · refine (hvalue.compactLoop hloop).imp (fun hentries => ?_) (Blocks.mono · (by omega))
        rw [Node.Proper]
        exact ⟨List.cons_ne_nil _ _, hproper, hentries⟩
      · rw [compactLoop_blocks hblocks] at hloop
        obtain ⟨-, rfl⟩ := Prod.mk.inj (Except.ok.inj hloop)
        exact .inr (hblocks.mono (by omega))
    · obtain ⟨text, -, h⟩ := bind_eq_ok.mp h
      obtain ⟨rfl, -⟩ := Prod.mk.inj (Except.ok.inj h)
      exact .inl (Node.proper_scalar _ _ _)

variable (hconsumes : value.Consumes)

include hconsumes

theorem sequenceLoop {column fuel : ℕ} {items : List Node} (hfuel : lines.length ≤ fuel)
    (h : sequenceLoop value column fuel lines = .ok (items, after)) : ItemsProper items := by
  induction fuel generalizing lines items with
  | zero =>
    obtain ⟨rfl, -⟩ := Prod.mk.inj (Except.ok.inj h)
    trivial
  | succ fuel ih =>
    obtain ⟨rfl, -⟩ | ⟨ln, rest, item, rest', items', hskip, rfl, hitem, hloop, rfl⟩ :=
      sequenceLoop_turn h
    · trivial
    · have hle : rest'.length ≤ fuel := by
        have hsuffix := (skipBlankAndComment_suffix lines).length_le
        have hrest := (hconsumes.sequenceItem hitem).length_le
        rw [hskip, List.length_cons] at hsuffix
        omega
      rcases hvalue.sequenceItem hitem with hproper | hblocks
      · exact ⟨hproper, ih hle hloop⟩
      · exact absurd hloop (sequenceLoop_blocks hblocks hle)

theorem mappingLoop {column fuel : ℕ} {entries : List (Str × Node)} (hfuel : lines.length ≤ fuel)
    (h : mappingLoop value column fuel lines = .ok (entries, after)) : EntriesProper entries := by
  induction fuel generalizing lines entries with
  | zero =>
    obtain ⟨rfl, -⟩ := Prod.mk.inj (Except.ok.inj h)
    trivial
  | succ fuel ih =>
    obtain ⟨rfl, -⟩ | ⟨ln, rest, key, v, node, rest', entries', hskip, hentry, hloop, rfl⟩ :=
      mappingLoop_cases h
    · trivial
    · have hle : rest'.length ≤ fuel := by
        have hsuffix := (skipBlankAndComment_suffix lines).length_le
        have hrest := (hconsumes.entryValue hentry).length_le
        rw [hskip, List.length_cons] at hsuffix
        omega
      rcases hvalue.entryValue hentry with hproper | hblocks
      · exact ⟨hproper, ih hle hloop⟩
      · exact absurd hloop (mappingLoop_blocks hblocks hle)

end ValueParser.YieldsProper

/-- **The values of a parser** have no empty sequence or mapping, unless a line is in the way. -/
theorem parseValue_yieldsProper (levels : ℕ) : (parseValue levels).YieldsProper := by
  induction levels with
  | zero => exact fun _ _ _ _ h => by cases h
  | succ levels ih =>
    intro column lines n after h
    have hconsumes := parseValue_suffix levels
    unfold parseValue at h
    split at h
    · obtain ⟨rfl, -⟩ := Prod.mk.inj (Except.ok.inj h)
      exact .inl (Node.proper_scalar _ _ _)
    · next ln rest hrest =>
      split_ifs at h with hdash hleft hempty hkey
      · obtain ⟨⟨items, rest'⟩, hloop, h⟩ := bind_eq_ok.mp h
        obtain ⟨rfl, -⟩ := Prod.mk.inj (Except.ok.inj h)
        rw [Node.Proper]
        refine .inl ⟨?_, ih.sequenceLoop hconsumes (Nat.le_refl _) hloop⟩
        rintro rfl
        obtain ⟨-, hnone⟩ | ⟨_, _, _, _, _, _, _, _, _, hcons⟩ := sequenceLoop_turn hloop
        · have hfirst := hnone ln rest (skipBlankAndComment_skipped hrest) rfl
          rw [hfirst, Bool.false_and] at hdash
          exact Bool.false_ne_true hdash
        · exact absurd hcons.symm (List.cons_ne_nil _ _)
      · obtain ⟨rfl, -⟩ := Prod.mk.inj (Except.ok.inj h)
        exact .inl (Node.proper_scalar _ _ _)
      · obtain ⟨rfl, -⟩ := Prod.mk.inj (Except.ok.inj h)
        exact .inl (Node.proper_scalar _ _ _)
      · obtain ⟨⟨entries, rest'⟩, hloop, h⟩ := bind_eq_ok.mp h
        obtain ⟨rfl, rfl⟩ := Prod.mk.inj (Except.ok.inj h)
        rw [Node.Proper]
        have hentries := ih.mappingLoop hconsumes (Nat.le_refl _) hloop
        by_cases hnil : entries = []
        · subst hnil
          obtain ⟨-, rfl⟩ | ⟨_, _, _, _, _, _, _, _, _, _, hcons⟩ := mappingLoop_cases hloop
          · obtain ⟨a, s, hpayload, hhash⟩ := content_of_skipped hrest
            refine .inr ⟨ln, rest, a, s, skipBlankAndComment_skipped hrest, Nat.not_lt.mp hleft,
              hpayload, hhash, fun hline => ?_⟩
            rw [hline] at hkey
            exact absurd hkey (by decide)
          · exact absurd hcons.symm (List.cons_ne_nil _ _)
        · exact .inl ⟨hnil, hentries⟩

/-! ### Documents -/

/-- A value on its own lines is a text only if it is missing. -/
theorem isRoot_of_parseValue {levels column : ℕ} {lines after : List Line} {n : Node}
    (h : parseValue levels column lines = .ok (n, after)) : n.IsRoot := by
  cases levels with
  | zero => cases h
  | succ levels =>
    unfold parseValue at h
    split at h
    · obtain ⟨rfl, -⟩ := Prod.mk.inj (Except.ok.inj h)
      rfl
    · split_ifs at h
      · obtain ⟨⟨items, rest⟩, -, h⟩ := bind_eq_ok.mp h
        obtain ⟨rfl, -⟩ := Prod.mk.inj (Except.ok.inj h)
        trivial
      · obtain ⟨rfl, -⟩ := Prod.mk.inj (Except.ok.inj h)
        rfl
      · obtain ⟨rfl, -⟩ := Prod.mk.inj (Except.ok.inj h)
        rfl
      · obtain ⟨⟨entries, rest⟩, -, h⟩ := bind_eq_ok.mp h
        obtain ⟨rfl, -⟩ := Prod.mk.inj (Except.ok.inj h)
        trivial

/-- **The tree of a document** has no empty sequence or mapping, and is a text only if it is
empty. -/
theorem parse_proper {text : Str} {n : Node} (h : parse text = .ok n) : n.Proper ∧ n.IsRoot := by
  obtain ⟨lines, -, h⟩ := bind_eq_ok.mp h
  unfold parseDocument at h
  split at h
  · obtain rfl := Except.ok.inj h
    exact ⟨Node.proper_scalar _ _ _, rfl⟩
  · obtain ⟨⟨root, rest⟩, hroot, h⟩ := bind_eq_ok.mp h
    dsimp only at h
    split at h
    · next hend =>
      obtain rfl := Except.ok.inj h
      refine ⟨?_, isRoot_of_parseValue hroot⟩
      refine (parseValue_yieldsProper _ _ _ _ _ hroot).resolve_right fun hblocks => ?_
      -- The document would not have ended at the line.
      obtain ⟨ln, rest', a, s, rfl, -, hpayload, hhash, hline⟩ := hblocks
      rw [skipSeparators_cons hpayload hhash hline] at hend
      cases hend
    · cases h

mutual

/-- Positions are no part of what is proper. -/
theorem Node.proper_tree (n : Node) : n.tree.Proper ↔ n.Proper := by
  cases n with
  | scalar => rw [Node.tree, Node.Proper, Node.Proper]
  | sequence items =>
    rw [Node.tree, Node.Proper, Node.Proper, itemsProper_treeItems items]
    cases items <;> simp [treeItems]
  | mapping entries =>
    rw [Node.tree, Node.Proper, Node.Proper, entriesProper_treeEntries entries]
    cases entries <;> simp [treeEntries]

theorem itemsProper_treeItems (items : List Node) :
    ItemsProper (treeItems items) ↔ ItemsProper items := by
  cases items with
  | nil => rw [treeItems]
  | cons item items =>
    rw [treeItems, ItemsProper, ItemsProper, item.proper_tree, itemsProper_treeItems items]

theorem entriesProper_treeEntries (entries : List (Str × Node)) :
    EntriesProper (treeEntries entries) ↔ EntriesProper entries := by
  match entries with
  | [] => rw [treeEntries]
  | (key, node) :: entries =>
    rw [treeEntries, EntriesProper, EntriesProper, node.proper_tree,
      entriesProper_treeEntries entries]

end

theorem Node.isRoot_tree (n : Node) : n.tree.IsRoot ↔ n.IsRoot := by
  cases n <;> rfl

/-- **Which trees documents hold**: those where no sequence and no mapping is empty and that are no
text alone. As deep as the parser goes, each of them is read from the document written for it; the
document written for a deeper one is an error, and the one for another tree is read as something
else or is an error. -/
theorem parse_writeDocument_iff (n : Node) :
    ((∃ text n', parse text = .ok n' ∧ n'.tree = n.tree) → n.Proper ∧ n.IsRoot) ∧
    ((∃ n', parse (writeDocument n) = .ok n' ∧ n'.tree = n.tree) ↔
      n.Proper ∧ n.IsRoot ∧ n.depth ≤ kMaxNestingDepth + 1) ∧
    (n.Proper → kMaxNestingDepth + 1 < n.depth → ∃ e, parse (writeDocument n) = .error e) := by
  have hread {text : Str} {n' : Node} (hparse : parse text = .ok n') (htree : n'.tree = n.tree) :
      n.Proper ∧ n.IsRoot := by
    obtain ⟨hproper, hroot⟩ := parse_proper hparse
    rw [← n.proper_tree, ← n.isRoot_tree, ← htree]
    exact ⟨n'.proper_tree.mpr hproper, n'.isRoot_tree.mpr hroot⟩
  refine ⟨?_, ⟨?_, fun h => parse_writeDocument h.1 h.2.1 h.2.2⟩,
    fun hproper hdeep => exists_error_writeDocument hproper hdeep⟩
  · rintro ⟨text, n', hparse, htree⟩
    exact hread hparse htree
  · rintro ⟨n', hparse, htree⟩
    obtain ⟨hproper, hroot⟩ := hread hparse htree
    refine ⟨hproper, hroot, Nat.not_lt.mp fun hdeep => ?_⟩
    obtain ⟨e, he⟩ := exists_error_writeDocument hproper hdeep
    cases he.symm.trans hparse

end Papa.Util.Yaml
