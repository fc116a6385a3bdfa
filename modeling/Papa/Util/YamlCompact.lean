import Papa.Util.YamlBlock

/-!
# Mappings that start on a dash line

A block mapping may start on the line of the dash of its sequence item. The parser has a routine of
its own for this form, which takes the entries from the same lines as the one for block mappings,
but neither removes the quotes of keys nor the blanks behind them, and knows no block scalar in the
first entry.

## Main definitions

* `Papa.Util.Yaml.Node.tree`: a node without its positions.
* `Papa.Util.Yaml.BlockEntries`: the block mappings on the given lines, as they are written.
* `Papa.Util.Yaml.PlainWritten`: a key that is read as it is written.

## Main results

* `Papa.Util.Yaml.mappingLoop_iff`: the block mappings are those the parser reads.
* `Papa.Util.Yaml.compactItem_iff`: which mappings are the same in both forms.
-/

namespace Papa.Util.Yaml

/-! ### Trees -/

mutual

/-- A node without the positions in it. -/
def Node.tree : Node → Node
  | .scalar text _ _ => .scalar text 0 0
  | .sequence items _ _ => .sequence (treeItems items) 0 0
  | .mapping entries _ _ => .mapping (treeEntries entries) 0 0

/-- The items of a sequence without their positions. -/
def treeItems : List Node → List Node
  | [] => []
  | item :: items => item.tree :: treeItems items

/-- The entries of a mapping without their positions. -/
def treeEntries : List (Str × Node) → List (Str × Node)
  | [] => []
  | (key, node) :: entries => (key, node.tree) :: treeEntries entries

end

/-! ### Block mappings -/

/-- The key and the value written on a line, if it is one of an entry. -/
def Line.entry (ln : Line) : Option (Str × Str) :=
  if ln.payload.head? == some (ch '-') then none else splitKey ln.payload

/-- An entry of a mapping: the texts of its key and of its value as they are written on the line,
the key they stand for and the node of the value. -/
structure WrittenEntry where
  rawKey : Str
  rawValue : Str
  key : Str
  node : Node

/-- The entry as it is read. -/
def WrittenEntry.parsed (e : WrittenEntry) : Str × Node := (e.key, e.node)

/-- The block mapping at a column on the given lines, with the lines after it. -/
inductive BlockEntries (value : ValueParser) (indent : ℕ) :
    List Line → List WrittenEntry → List Line → Prop
  | nil {lines : List Line}
      (hstop : ∀ ln ∈ (skipBlankAndComment lines).head?,
        ln.indent < indent ∨ ln.indent = indent ∧ ln.entry = none) :
      BlockEntries value indent lines [] (skipBlankAndComment lines)
  | cons {lines rest rest' after : List Line} {ln : Line} {k v key : Str} {node : Node}
      {entries : List WrittenEntry} (hskip : skipBlankAndComment lines = ln :: rest)
      (hindent : ln.indent = indent) (hentry : ln.entry = some (k, v))
      (hkey : mappingKey k ln.lineNo (ln.indent + 1) = .ok key)
      (hnode : entryValue value indent ln key.length v rest = .ok (node, rest'))
      (h : BlockEntries value indent rest' entries after) :
      BlockEntries value indent lines (⟨k, v, key, node⟩ :: entries) after

/-- A turn of the loop over the keys of a mapping, on the first line with content. -/
theorem mappingLoop_eq (value : ValueParser) (indent fuel : ℕ) (lines : List Line) :
    mappingLoop value indent (fuel + 1) lines =
      match skipBlankAndComment lines with
      | [] => .ok ([], [])
      | ln :: rest =>
        if ln.indent < indent then .ok ([], ln :: rest)
        else if indent < ln.indent then
          .error (yamlErr ln.lineNo (ln.indent + 1) (str "unexpected indent inside mapping"))
        else match ln.entry with
          | none => .ok ([], ln :: rest)
          | some (k, v) => (do
            let key ← mappingKey k ln.lineNo (ln.indent + 1)
            let (node, rest) ← entryValue value indent ln key.length v rest
            let (entries, rest) ← mappingLoop value indent fuel rest
            pure ((key, node) :: entries, rest)) := by
  rw [mappingLoop]
  cases skipBlankAndComment lines with
  | nil => rfl
  | cons ln rest =>
    dsimp only
    refine if_congr Iff.rfl rfl (if_congr Iff.rfl rfl ?_)
    rw [Line.entry]
    cases hpayload : ln.payload with
    | nil => rfl
    | cons c payload =>
      by_cases hc : c = ch '-'
      · subst hc
        rfl
      · cases hkey : splitKey (c :: payload) <;> simp [hc]

/-- A turn of the loop over the further keys of a mapping, on the first line with content. -/
theorem compactLoop_eq (value : ValueParser) (mapIndent fuel : ℕ) (lines : List Line) :
    compactLoop value mapIndent (fuel + 1) lines =
      match skipBlankAndComment lines with
      | [] => .ok ([], [])
      | ln :: rest =>
        if ln.indent ≠ mapIndent then .ok ([], ln :: rest)
        else match ln.entry with
          | none => .ok ([], ln :: rest)
          | some (k, v) => (do
            let (node, rest) ← entryValue value mapIndent ln k.length v rest
            let (entries, rest) ← compactLoop value mapIndent fuel rest
            pure ((k, node) :: entries, rest)) := by
  rw [compactLoop]
  cases skipBlankAndComment lines with
  | nil => rfl
  | cons ln rest =>
    dsimp only
    rw [Line.entry]
    by_cases hindent : ln.indent = mapIndent
    · cases hpayload : ln.payload with
      | nil => simp [hindent, splitKey, splitKeyFrom]
      | cons c payload =>
        by_cases hc : c = ch '-'
        · subst hc
          simp [hindent]
        · cases hkey : splitKey (c :: payload) <;> simp [hindent, hc]
    · rw [if_pos (by simp [hindent]), if_pos hindent]

/-- **The block mappings are those the parser reads.** -/
theorem mappingLoop_iff {value : ValueParser} (hvalue : value.Consumes) {indent fuel : ℕ}
    {lines after : List Line} (hfuel : lines.length ≤ fuel) {entries : List (Str × Node)} :
    mappingLoop value indent fuel lines = .ok (entries, after) ↔
      ∃ written, BlockEntries value indent lines written after ∧
        entries = written.map WrittenEntry.parsed := by
  constructor
  · intro h
    induction fuel generalizing lines entries with
    | zero =>
      obtain rfl : lines = [] := List.eq_nil_of_length_eq_zero (Nat.le_zero.mp hfuel)
      obtain ⟨rfl, rfl⟩ := Prod.mk.inj (Except.ok.inj h)
      exact ⟨[], .nil nofun, rfl⟩
    | succ fuel ih =>
      have hskip := (skipBlankAndComment_suffix lines).length_le
      rw [mappingLoop_eq] at h
      cases hlines : skipBlankAndComment lines with
      | nil =>
        rw [hlines] at h
        obtain ⟨rfl, rfl⟩ := Prod.mk.inj (Except.ok.inj h)
        exact ⟨[], hlines ▸ .nil (hlines ▸ nofun), rfl⟩
      | cons ln rest =>
        rw [hlines, List.length_cons] at hskip
        rw [hlines] at h
        have hnil (hstop : ln.indent < indent ∨ ln.indent = indent ∧ ln.entry = none) :
            BlockEntries value indent lines [] (ln :: rest) := by
          rw [← hlines]
          refine .nil ?_
          rw [hlines]
          rintro ln' ⟨⟩
          exact hstop
        dsimp only at h
        split_ifs at h with hleft hright
        · obtain ⟨rfl, rfl⟩ := Prod.mk.inj (Except.ok.inj h)
          exact ⟨[], hnil (Or.inl hleft), rfl⟩
        · have hindent : ln.indent = indent := Nat.le_antisymm (not_lt.mp hright) (not_lt.mp hleft)
          cases hentry : ln.entry with
          | none =>
            rw [hentry] at h
            obtain ⟨rfl, rfl⟩ := Prod.mk.inj (Except.ok.inj h)
            exact ⟨[], hnil (Or.inr ⟨hindent, hentry⟩), rfl⟩
          | some kv =>
            rw [hentry] at h
            obtain ⟨key, hkey, h⟩ := bind_eq_ok.mp h
            obtain ⟨⟨node, rest'⟩, hnode, h⟩ := bind_eq_ok.mp h
            obtain ⟨⟨entries', rest₂⟩, hloop, h⟩ := bind_eq_ok.mp h
            obtain ⟨rfl, rfl⟩ := Prod.mk.inj (Except.ok.inj h)
            have hle := (hvalue.entryValue hnode).length_le
            obtain ⟨written, hwritten, rfl⟩ := ih (hle.trans (by omega)) hloop
            exact ⟨_, .cons hlines hindent hentry hkey hnode hwritten, rfl⟩
  · rintro ⟨written, h, rfl⟩
    induction h generalizing fuel with
    | @nil lines hstop =>
      cases fuel with
      | zero =>
        obtain rfl : lines = [] := List.eq_nil_of_length_eq_zero (Nat.le_zero.mp hfuel)
        rfl
      | succ fuel =>
        rw [mappingLoop_eq]
        cases hlines : skipBlankAndComment lines with
        | nil => rfl
        | cons ln rest =>
          dsimp only
          rcases hstop ln (by rw [hlines]; rfl) with hleft | ⟨hindent, hentry⟩
          · rw [if_pos hleft]
            rfl
          · rw [if_neg (by omega), if_neg (by omega), hentry]
            rfl
    | @cons lines rest rest' after ln k v key node written hlines hindent hentry hkey hnode _ ih =>
      have hskip := (skipBlankAndComment_suffix lines).length_le
      rw [hlines, List.length_cons] at hskip
      have hle := (hvalue.entryValue hnode).length_le
      obtain ⟨fuel, rfl⟩ : ∃ n, fuel = n + 1 := ⟨fuel - 1, by omega⟩
      rw [mappingLoop_eq, hlines]
      dsimp only
      rw [if_neg (by omega), if_neg (by omega), hentry]
      dsimp only
      rw [hkey, ok_bind, hnode, ok_bind, ih (hle.trans (by omega))]
      rfl

/-! ### Positions -/

theorem length_utf8_le (code : ℕ) : (utf8 code).length ≤ 3 := by
  rw [utf8]
  split_ifs <;> simp

/-- Decoding never makes a text longer, and looks at the position only for errors. -/
theorem decodeDoubleQuoted_ok {line column : ℕ} {s out : Str}
    (h : decodeDoubleQuoted line column s = .ok out) :
    out.length ≤ s.length ∧ ∀ line' column', decodeDoubleQuoted line' column' s = .ok out := by
  fun_induction decodeDoubleQuoted line column s generalizing out with
  | case1 =>
    obtain rfl := Except.ok.inj h
    exact ⟨Nat.le_refl _, fun _ _ => rfl⟩
  | case2 c rest hc ih =>
    obtain ⟨out', hout, h⟩ := bind_eq_ok.mp h
    obtain rfl := Except.ok.inj h
    obtain ⟨hle, hpos⟩ := ih hout
    refine ⟨Nat.succ_le_succ hle, fun line' column' => ?_⟩
    rw [decodeDoubleQuoted.eq_def]
    dsimp only
    rw [if_pos hc, hpos]
    rfl
  | case4 c hc n rest byte hbyte ih =>
    obtain ⟨out', hout, h⟩ := bind_eq_ok.mp h
    obtain rfl := Except.ok.inj h
    obtain ⟨hle, hpos⟩ := ih hout
    refine ⟨by simp only [List.length_cons]; omega, fun line' column' => ?_⟩
    rw [decodeDoubleQuoted.eq_def]
    dsimp only
    rw [if_neg hc, hbyte]
    dsimp only
    rw [hpos]
    rfl
  | case6 c hc n hn hx a b rest code hcode ih =>
    obtain ⟨out', hout, h⟩ := bind_eq_ok.mp h
    obtain rfl := Except.ok.inj h
    obtain ⟨hle, hpos⟩ := ih hout
    refine ⟨by simp only [List.length_cons]; omega, fun line' column' => ?_⟩
    rw [decodeDoubleQuoted.eq_def]
    dsimp only
    rw [if_neg hc, hn]
    dsimp only
    rw [if_pos hx, hcode, hpos]
    rfl
  | case10 c hc n hn hx hu a b c' d rest code hcode hscalar ih =>
    obtain ⟨out', hout, h⟩ := bind_eq_ok.mp h
    obtain rfl := Except.ok.inj h
    obtain ⟨hle, hpos⟩ := ih hout
    have hutf8 := length_utf8_le code
    refine ⟨by simp only [List.length_cons, List.length_append]; omega, fun line' column' => ?_⟩
    rw [decodeDoubleQuoted.eq_def]
    dsimp only
    rw [if_neg hc, hn]
    dsimp only
    rw [if_neg hx, if_pos hu, hcode]
    dsimp only
    rw [if_neg hscalar, hpos]
    rfl
  | case3 | case5 | case7 | case8 | case9 | case11 | case12 => exact nomatch h

theorem inlineScalar_ok {body text : Str} {line column : ℕ}
    (h : inlineScalar body line column = .ok text) (line' column' : ℕ) :
    inlineScalar body line' column' = .ok text := by
  rw [inlineScalar] at h ⊢
  cases hbody : body.rtrim with
  | nil =>
    rw [hbody] at h
    exact h
  | cons c rest =>
    rw [hbody] at h
    dsimp only at h ⊢
    split_ifs at h ⊢ with hdouble hsingle hforbidden
    · cases hclosing : closingDouble rest with
      | none =>
        rw [hclosing] at h
        cases h
      | some quoted =>
        rw [hclosing] at h
        exact (decodeDoubleQuoted_ok h).2 line' column'
    · cases hclosing : closingSingle rest with
      | none =>
        rw [hclosing] at h
        cases h
      | some quoted =>
        rw [hclosing] at h
        exact h
    · exact h

/-! ### Keys as they are written -/

/-- A key without quotes around it and without blanks behind it. -/
def PlainWritten (k : Str) : Prop :=
  k.head? ≠ some kDoubleQuote ∧ k.head? ≠ some kSingleQuote ∧ k.rtrim = k

theorem length_decodeSingleQuoted_le (s : Str) : (decodeSingleQuoted s).length ≤ s.length := by
  fun_induction decodeSingleQuoted s with
  | case1 => exact Nat.le_refl _
  | case2 => exact Nat.le_refl _
  | case3 => simp; omega
  | case4 => simp; omega

/-- A key is read as it is written exactly when it is written plainly. -/
theorem mappingKey_eq_self_iff {k key : Str} {line column : ℕ}
    (h : mappingKey k line column = .ok key) : key = k ↔ PlainWritten k := by
  have hshort {q : UInt8} (hlen : ¬(k.length < 2 || k.getLast? != some q)) :
      ((k.drop 1).dropLast).length < k.length := by
    simp only [Bool.or_eq_true, decide_eq_true_eq, not_or, not_lt] at hlen
    rw [List.length_dropLast, List.length_drop]
    omega
  rw [mappingKey] at h
  split_ifs at h with hdouble hbad hsingle hbad
  · have hle := (decodeDoubleQuoted_ok h).1
    refine iff_of_false (fun heq => ?_) fun hplain => hplain.1 (eq_of_beq hdouble)
    exact absurd (hshort hbad) (by rw [← heq] at hle ⊢; omega)
  · refine iff_of_false (fun heq => ?_) fun hplain => hplain.2.1 (eq_of_beq hsingle)
    have hle := length_decodeSingleQuoted_le (k.drop 1).dropLast
    rw [Except.ok.inj h, heq] at hle
    exact absurd (hshort hbad) (by omega)
  · obtain rfl := Except.ok.inj h
    exact ⟨fun heq => ⟨by simpa using hdouble, by simpa using hsingle, heq⟩,
      fun hplain => hplain.2.2⟩

/-! ### The compact form -/

/-- Where a value stands on its line only changes positions. -/
theorem entryValue_keySize {value : ValueParser} {indent n : ℕ} {ln : Line} {v : Str}
    {rest rest' : List Line} {node : Node}
    (h : entryValue value indent ln n v rest = .ok (node, rest')) (m : ℕ) :
    ∃ node', entryValue value indent ln m v rest = .ok (node', rest') ∧ node'.tree = node.tree := by
  rw [entryValue] at h ⊢
  dsimp only at h ⊢
  split_ifs at h ⊢ with hempty hblock
  · exact ⟨node, h, rfl⟩
  · exact ⟨node, h, rfl⟩
  · obtain ⟨text, htext, h⟩ := bind_eq_ok.mp h
    obtain ⟨rfl, rfl⟩ := Prod.mk.inj (Except.ok.inj h)
    rw [inlineScalar_ok htext, ok_bind]
    exact ⟨_, rfl, rfl⟩

/-- The entries of a mapping with their keys as they are written, without their positions. -/
def rawEntries (written : List WrittenEntry) : List (Str × Node) :=
  written.map fun e => (e.rawKey, e.node.tree)

/-- The loop over the further keys takes the entries of a block mapping and leaves their keys as
they are written. -/
theorem compactLoop_of_blockEntries {value : ValueParser} (hvalue : value.Consumes) {indent : ℕ}
    {lines after : List Line} {written : List WrittenEntry}
    (h : BlockEntries value indent lines written after) :
    ∀ {fuel : ℕ}, lines.length ≤ fuel →
      ∃ entries, compactLoop value indent fuel lines = .ok (entries, after) ∧
        treeEntries entries = rawEntries written := by
  induction h with
  | @nil lines hstop =>
    intro fuel hfuel
    refine ⟨[], ?_, rfl⟩
    cases fuel with
    | zero =>
      obtain rfl : lines = [] := List.eq_nil_of_length_eq_zero (Nat.le_zero.mp hfuel)
      rfl
    | succ fuel =>
      rw [compactLoop_eq]
      cases hlines : skipBlankAndComment lines with
      | nil => rfl
      | cons ln rest =>
        dsimp only
        rcases hstop ln (by rw [hlines]; rfl) with hleft | ⟨hindent, hentry⟩
        · rw [if_pos (by omega)]
        · rw [if_neg (by omega), hentry]
  | @cons lines rest rest' after ln k v key node written hlines hindent hentry hkey hnode _ ih =>
    intro fuel hfuel
    have hskip := (skipBlankAndComment_suffix lines).length_le
    rw [hlines, List.length_cons] at hskip
    have hle := (hvalue.entryValue hnode).length_le
    obtain ⟨fuel, rfl⟩ : ∃ n, fuel = n + 1 := ⟨fuel - 1, by omega⟩
    obtain ⟨node', hnode', htree⟩ := entryValue_keySize hnode k.length
    obtain ⟨entries, hloop, hentries⟩ := ih (hle.trans (by omega : rest.length ≤ fuel))
    refine ⟨(k, node') :: entries, ?_, ?_⟩
    · rw [compactLoop_eq, hlines]
      dsimp only
      rw [if_neg (by omega), hentry]
      dsimp only
      rw [hnode', ok_bind, hloop]
      rfl
    · rw [treeEntries, hentries, htree]
      rfl

/-! ### A block scalar in the first entry -/

theorem breakLastSpace_head {s : Str} {a : UInt8} (ha : a ≠ 10)
    (h : ((breakLastSpace s).getD s).head? = some a) : s.head? = some a := by
  rw [breakLastSpace] at h
  split_ifs at h
  · cases hs : s.dropLast with
    | nil =>
      rw [hs] at h
      exact absurd (Option.some.inj h).symm ha
    | cons b t =>
      rw [hs] at h
      obtain ⟨u, hu⟩ := List.dropLast_prefix s
      rw [← hu, hs]
      exact h
  · exact h

theorem joinLines_head {style : UInt8} {raws : List Str} {a : UInt8} (ha : a ≠ 10)
    (h : (joinLines style raws).head? = some a) :
    ∃ raw raws', raws = raw :: raws' ∧ raw.head? = some a := by
  have hhead {raw rest : Str} (hne : raw ≠ []) (h : (raw ++ rest).head? = some a) :
      raw.head? = some a := by
    obtain ⟨b, t, rfl⟩ := List.exists_cons_of_ne_nil hne
    exact h
  rw [joinLines] at h
  cases raws with
  | nil =>
    split_ifs at h
    · exact nomatch h
    · exact nomatch h
  | cons raw raws =>
    refine ⟨raw, raws, rfl, ?_⟩
    by_cases hraw : raw = []
    · subst hraw
      split_ifs at h
      · exact absurd (Option.some.inj h).symm ha
      · have h := breakLastSpace_head ha h
        rw [(foldl_foldLine ([] :: raws) []).2 nofun] at h
        exact absurd (Option.some.inj h).symm ha
    · split_ifs at h
      · rw [List.flatMap_cons, List.append_assoc] at h
        exact hhead hraw h
      · have h := breakLastSpace_head ha h
        rw [(foldl_foldLine (raw :: raws) []).2 nofun, foldRest, if_neg (by simpa using hraw)] at h
        exact hhead hraw h

theorem chompLines_head {chomp : Option UInt8} {out : Str} {a : UInt8} (ha : a ≠ 10)
    (h : (chompLines chomp out).head? = some a) : out.head? = some a := by
  have hbody {rest : Str} (h : (out.rdropWhile (· == 10) ++ rest).head? = some a)
      (hrest : rest.head? ≠ some a) : out.head? = some a := by
    obtain ⟨u, hu⟩ := List.rdropWhile_prefix (· == 10) out
    cases hs : out.rdropWhile (· == 10) with
    | nil =>
      rw [hs] at h
      exact absurd h hrest
    | cons b t =>
      rw [hs] at h
      rw [← hu, hs]
      exact h
  rw [chompLines] at h
  split_ifs at h
  · exact @hbody [] (by rwa [List.append_nil]) (Option.some_ne_none a).symm
  · exact h
  · exact hbody h fun heq => ha (Option.some.inj heq).symm
  · exact h

/-- A block scalar that does not start with a line break starts with its first line. -/
theorem blockText_head {header : Str} {style a : UInt8} {raws : List Str} {t : Str} (ha : a ≠ 10)
    (h : blockText header style raws = a :: t) :
    ∃ raw raws', raws = raw :: raws' ∧ raw.head? = some a :=
  joinLines_head ha (chompLines_head ha (congrArg List.head? h))

theorem isBlockHeader_cases {v : Str} (h : isBlockHeader v) :
    (∃ a t, v = a :: t ∧ (a = ch '|' ∨ a = ch '>')) ∧ isCommentOnly v = false ∧
      ∀ line column, inlineScalar v line column = .ok v := by
  rw [isBlockHeader, List.contains_iff_mem] at h
  simp only [List.mem_cons, List.not_mem_nil, or_false] at h
  rcases h with rfl | rfl | rfl | rfl | rfl | rfl
  · exact ⟨⟨_, _, rfl, Or.inl rfl⟩, by decide, fun _ _ => rfl⟩
  · exact ⟨⟨_, _, rfl, Or.inr rfl⟩, by decide, fun _ _ => rfl⟩
  · exact ⟨⟨_, _, rfl, Or.inl rfl⟩, by decide, fun _ _ => rfl⟩
  · exact ⟨⟨_, _, rfl, Or.inl rfl⟩, by decide, fun _ _ => rfl⟩
  · exact ⟨⟨_, _, rfl, Or.inr rfl⟩, by decide, fun _ _ => rfl⟩
  · exact ⟨⟨_, _, rfl, Or.inr rfl⟩, by decide, fun _ _ => rfl⟩

theorem BlockEntries.suffix {value : ValueParser} (hvalue : value.Consumes) {indent : ℕ}
    {lines after : List Line} {written : List WrittenEntry}
    (h : BlockEntries value indent lines written after) : after <:+ lines :=
  hvalue.mappingLoop ((mappingLoop_iff hvalue (Nat.le_refl _)).mpr ⟨written, h, rfl⟩)

/-- The first entry of a compact form is read as that of a block mapping, unless it is a block
scalar. -/
theorem firstEntry_eq {v : Str} (hblock : ¬isBlockHeader v) {ln first : Line}
    (hline : first.lineNo = ln.lineNo) (value : ValueParser) (k : Str) (rest : List Line) :
    firstEntry value first.indent ln k v rest =
      entryValue value first.indent first k.length v rest := by
  rw [firstEntry, entryValue]
  dsimp only
  rw [if_neg hblock, hline]
  cases v.isEmpty <;> cases isCommentOnly v <;> rfl

/-- A block scalar in the first entry leaves its lines behind, or is another text. -/
theorem firstEntry_block_ne {value : ValueParser} {indent n : ℕ} {first : Line} {v : Str}
    {rest rest' after : List Line} {node : Node} {written : List WrittenEntry}
    (hvalue : value.Consumes) (hblock : isBlockHeader v)
    (hnode : entryValue value indent first n v rest = .ok (node, rest'))
    (hwritten : BlockEntries value indent rest' written after)
    {entries : List (Str × Node)}
    (hloop : compactLoop value indent rest.length rest = .ok (entries, after)) :
    node.tree ≠ .scalar v 0 0 := by
  obtain ⟨⟨a, t, rfl, ha⟩, hcomment, -⟩ := isBlockHeader_cases hblock
  have hbreak : a ≠ 10 ∧ a ≠ ch '#' := by rcases ha with rfl | rfl <;> decide
  intro htree
  rw [entryValue] at hnode
  dsimp only at hnode
  rw [hcomment, if_neg (by simp), if_pos hblock] at hnode
  obtain ⟨rfl, rfl⟩ := Prod.mk.inj (Except.ok.inj hnode)
  have htext := (Node.scalar.inj htree).1
  obtain ⟨raw, raws, hraws, hhead⟩ := blockText_head hbreak.1 htext
  -- so the block has a first line, which stands right below the dash line
  cases rest with
  | nil => cases hraws
  | cons l rest₀ =>
    rw [blockLines] at hraws hwritten
    split_ifs at hraws hwritten with hblank hstop
    · obtain rfl := (List.cons.inj hraws).1
      cases hhead
    · obtain rfl : l.payload = raw := (List.cons.inj hraws).1
      obtain ⟨payload, hpayload⟩ := List.head?_eq_some_iff.mp hhead
      have hindent : l.indent ≠ indent := by
        simp only [Bool.or_eq_true, decide_eq_true_eq, not_or, not_le] at hstop
        omega
      -- the loop over the further keys stops at that line
      rw [List.length_cons, compactLoop_eq, skipBlankAndComment_cons hpayload hbreak.2] at hloop
      dsimp only at hloop
      rw [if_pos hindent] at hloop
      obtain ⟨-, rfl⟩ := Prod.mk.inj (Except.ok.inj hloop)
      have hsuffix := ((hwritten.suffix hvalue).trans (blockLines_suffix _ _ rest₀)).length_le
      exact absurd hsuffix (by simp)

theorem BlockEntries.mappingKey {value : ValueParser} {indent : ℕ} {lines after : List Line}
    {written : List WrittenEntry} (h : BlockEntries value indent lines written after) :
    ∀ e ∈ written, (e.rawKey, e.node.tree) = (e.key, e.node.tree) ↔ PlainWritten e.rawKey := by
  induction h with
  | nil => exact nofun
  | cons hskip hindent hentry hkey hnode _ ih =>
    refine List.forall_mem_cons.mpr ⟨?_, ih⟩
    rw [← mappingKey_eq_self_iff hkey, Prod.mk.injEq, and_iff_left rfl]
    exact eq_comm

theorem treeEntries_parsed (written : List WrittenEntry) :
    treeEntries (written.map WrittenEntry.parsed) = written.map fun e => (e.key, e.node.tree) := by
  induction written with
  | nil => rfl
  | cons e written ih => exact congrArg ((e.key, e.node.tree) :: ·) ih

/-- The entries with their keys as they are written are those read exactly when every key is written
plainly. -/
theorem rawEntries_eq_iff {value : ValueParser} {indent : ℕ} {lines after : List Line}
    {written : List WrittenEntry} (h : BlockEntries value indent lines written after) :
    rawEntries written = treeEntries (written.map WrittenEntry.parsed) ↔
      ∀ e ∈ written, PlainWritten e.rawKey := by
  rw [treeEntries_parsed, rawEntries, List.map_inj_left]
  exact forall₂_congr h.mappingKey

theorem sequenceItem_of_blockEntries {value : ValueParser} (hvalue : value.Consumes) {ln : Line}
    {f : Str} (hln : ln.payload = ch '-' :: ch ' ' :: f) {first : Line}
    (hfirst : first = ⟨ln.lineNo, ln.indent + 2, f⟩) {rest after : List Line} {e : WrittenEntry}
    {written : List WrittenEntry} (hcontent : ¬(first.isBlank || first.isComment))
    (h : BlockEntries value (ln.indent + 2) (first :: rest) (e :: written) after) :
    (∃ item, sequenceItem value ln rest = .ok (item, after) ∧
      item.tree = .mapping (treeEntries ((e :: written).map WrittenEntry.parsed)) 0 0) ↔
    ¬isBlockHeader e.rawValue ∧ ∀ e' ∈ e :: written, PlainWritten e'.rawKey := by
  rw [← rawEntries_eq_iff h]
  cases h with
  | @cons _ rest₁ rest' _ ln₁ k v key node _ hskip hindent hentry hkey hnode hwritten =>
    have hsame : skipBlankAndComment (first :: rest) = first :: rest :=
      List.dropWhile_cons_of_neg hcontent
    obtain ⟨hfirst', rfl⟩ := List.cons.inj (hskip.symm.trans hsame)
    subst hfirst' hfirst
    have hsplit : splitKey f = some (k, v) := by
      rw [Line.entry] at hentry
      split_ifs at hentry
      exact hentry
    have hfull : ¬f.isEmpty := fun hnil => by
      rw [List.isEmpty_iff.mp hnil] at hsplit
      exact nomatch hsplit
    have hitem : sequenceItem value ln rest₁ = (do
        let (node, rest) ← firstEntry value (ln.indent + 2) ln k v rest₁
        let (entries, rest) ← compactLoop value (ln.indent + 2) rest.length rest
        pure (.mapping ((k, node) :: entries) ln.lineNo (ln.indent + 1), rest)) := by
      have hdrop : ln.payload.drop 2 = f := by rw [hln]; rfl
      rw [sequenceItem]
      dsimp only
      rw [hdrop, if_neg hfull, hsplit]
    by_cases hblock : isBlockHeader v
    · refine iff_of_false ?_ fun h => h.1 hblock
      rintro ⟨item, hread, htree⟩
      obtain ⟨⟨a, t, rfl, -⟩, hcomment, hinline⟩ := isBlockHeader_cases hblock
      have hentry : firstEntry value (ln.indent + 2) ln k (a :: t) rest₁ =
          .ok (.scalar (a :: t) ln.lineNo (ln.indent + 2 + 1 + k.length + 2), rest₁) := by
        rw [firstEntry, hcomment, if_pos (by rfl), hinline]
        rfl
      rw [hitem, hentry, ok_bind] at hread
      obtain ⟨⟨entries, rest₂⟩, hloop, hread⟩ := bind_eq_ok.mp hread
      obtain ⟨rfl, rfl⟩ := Prod.mk.inj (Except.ok.inj hread)
      have hnodes := (Node.mapping.inj htree).1
      have htext := (Prod.mk.inj (List.cons.inj hnodes).1).2
      exact firstEntry_block_ne hvalue hblock hnode hwritten hloop htext.symm
    · rw [and_iff_right hblock]
      obtain ⟨node', hnode', htree⟩ := entryValue_keySize hnode k.length
      obtain ⟨entries, hloop, hentries⟩ :=
        compactLoop_of_blockEntries hvalue hwritten (Nat.le_refl _)
      have hentry : firstEntry value (ln.indent + 2) ln k v rest₁ = .ok (node', rest') :=
        (@firstEntry_eq v hblock ln ⟨ln.lineNo, ln.indent + 2, f⟩ rfl value k rest₁).trans hnode'
      have hread : sequenceItem value ln rest₁ =
          .ok (.mapping ((k, node') :: entries) ln.lineNo (ln.indent + 1), after) := by
        rw [hitem, hentry, ok_bind]
        dsimp only
        rw [hloop]
        rfl
      have hraw : treeEntries ((k, node') :: entries) =
          rawEntries (⟨k, v, key, node⟩ :: written) := by
        rw [treeEntries, hentries, htree]
        rfl
      rw [← hraw]
      constructor
      · rintro ⟨item, hitem', hsame⟩
        obtain rfl := (Prod.mk.inj (Except.ok.inj (hread.symm.trans hitem'))).1
        exact (Node.mapping.inj hsame).1
      · exact fun hsame => ⟨_, hread, congrArg (Node.mapping · 0 0) hsame⟩

/-- **Which mappings are the same in both forms.** Where a line is an entry of a block mapping that
the parser reads, the item that starts with the same text behind a dash, two columns to the left, is
read as the same tree from the same lines exactly when the first entry is no block scalar and no key
is quoted or has blanks before its colon. -/
theorem compactItem_iff {depth : ℕ} {ln first : Line} {f : Str} {rest after : List Line}
    {standalone : Node} (hln : ln.payload = ch '-' :: ch ' ' :: f)
    (hfirst : first = ⟨ln.lineNo, ln.indent + 2, f⟩)
    (hentry : first.entry.isSome ∧ ¬first.isComment)
    (hstandalone : parseMapping (parseValue depth) (ln.indent + 2) first (first :: rest) =
      .ok (standalone, after)) :
    ∃ e written,
      BlockEntries (parseValue depth) (ln.indent + 2) (first :: rest) (e :: written) after ∧
      ((∃ item, sequenceItem (parseValue depth) ln rest = .ok (item, after) ∧
          item.tree = standalone.tree) ↔
        ¬isBlockHeader e.rawValue ∧ ∀ e' ∈ e :: written, PlainWritten e'.rawKey) := by
  have hvalue := parseValue_suffix depth
  have hcontent : ¬(first.isBlank || first.isComment) := by
    have hblank : ¬first.isBlank := by
      intro h
      have hnone : first.entry = none := by
        rw [Line.entry, List.isEmpty_iff.mp h]
        rfl
      exact absurd hentry.1 (by rw [hnone]; decide)
    simp [hblank, hentry.2]
  obtain ⟨⟨entries, after'⟩, hloop, h⟩ := bind_eq_ok.mp hstandalone
  obtain ⟨rfl, rfl⟩ := Prod.mk.inj (Except.ok.inj h)
  obtain ⟨written, hwritten, rfl⟩ := (mappingLoop_iff hvalue (Nat.le_refl _)).mp hloop
  cases written with
  | nil =>
    -- the first line is an entry
    cases hwritten with
    | nil hstop =>
      have hsame : skipBlankAndComment (first :: rest) = first :: rest :=
        List.dropWhile_cons_of_neg hcontent
      rcases hstop first (by rw [hsame]; rfl) with hleft | ⟨-, hnone⟩
      · subst hfirst
        exact absurd hleft (Nat.lt_irrefl _)
      · exact absurd hentry.1 (by rw [hnone]; decide)
  | cons e written =>
    exact ⟨e, written, hwritten,
      sequenceItem_of_blockEntries hvalue hln hfirst hcontent hwritten⟩

/-- A mapping of two entries below a dash. -/
theorem compactItem_name :
    ∃ e written, BlockEntries (parseValue 1) 2 [⟨1, 2, str "name: foo"⟩, ⟨2, 2, str "scope: file"⟩]
      (e :: written) [] ∧
      ((∃ item, sequenceItem (parseValue 1) ⟨1, 0, str "- name: foo"⟩ [⟨2, 2, str "scope: file"⟩] =
          .ok (item, []) ∧
          item.tree = (Node.mapping [(str "name", .scalar (str "foo") 1 9),
            (str "scope", .scalar (str "file") 2 10)] 1 3).tree) ↔
        ¬isBlockHeader e.rawValue ∧ ∀ e' ∈ e :: written, PlainWritten e'.rawKey) :=
  @compactItem_iff 1 ⟨1, 0, str "- name: foo"⟩ ⟨1, 2, str "name: foo"⟩ (str "name: foo")
    [⟨2, 2, str "scope: file"⟩] [] _ rfl rfl (by decide) rfl

/-- A quoted key keeps its quotes behind a dash and a block scalar is cut off there. -/
theorem compact_form_changed :
    parse (str "  'a b': x\n") = .ok (.mapping [(str "a b", .scalar (str "x") 1 8)] 1 3) ∧
    parse (str "- 'a b': x\n") =
      .ok (.sequence [.mapping [(str "'a b'", .scalar (str "x") 1 10)] 1 1] 1 1) ∧
    parse (str "  a: |\n    x\n") = .ok (.mapping [(str "a", .scalar (str "x\n") 1 3)] 1 3) ∧
    parse (str "- a: |\n    x\n") =
      .error (yamlErr 2 5 (str "unexpected indent inside sequence")) ∧
    (Node.mapping [(str "'a b'", .scalar (str "x") 1 10)] 1 1).tree ≠
      (Node.mapping [(str "a b", .scalar (str "x") 1 8)] 1 3).tree := by
  refine ⟨rfl, rfl, rfl, rfl, fun h => ?_⟩
  have hkeys := congrArg Prod.fst (List.cons.inj (Node.mapping.inj h).1).1
  exact absurd hkeys (by decide)

end Papa.Util.Yaml
