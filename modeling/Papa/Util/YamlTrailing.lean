import Papa.Util.YamlCompact
import Papa.Util.YamlKey

/-!
# What follows a closing quote

A quoted scalar is read as its text wherever a value stands, and nothing looks at what follows its
closing quote: a comment and any other text are dropped alike. Only an item of a sequence is
different. There the scanner for keys runs over the whole text first, so that a key separator behind
the scalar makes the item a mapping, and blanks in front of the scalar make it plain.

## Main definitions

* `Papa.Util.Yaml.Ignorable`: what may follow a closing quote.
* `Papa.Util.Yaml.Unreadable`: the texts that are no scalar on a line.
* `Papa.Util.Yaml.ReadsValue`, `Papa.Util.Yaml.RejectsValue`: the value of an entry is read as a
  text, or is an error.
* `Papa.Util.Yaml.ReadsDashed`, `Papa.Util.Yaml.RejectsDashed`: the same for an item of a sequence.

## Main results

* `Papa.Util.Yaml.exists_inlineScalar_iff`: which texts are read on a line.
* `Papa.Util.Yaml.quotedTail_iff`: where text after a closing quote is told from a comment.
-/

namespace Papa.Util.Yaml

open QuoteState

/-! ### Texts after a closing quote -/

/-- Blanks, or a comment after at least one blank. -/
def Ignorable (t : Str) : Prop :=
  t.ltrim = [] ∨ t.ltrim ≠ t ∧ t.ltrim.head? = some (ch '#')

instance (t : Str) : Decidable (Ignorable t) :=
  inferInstanceAs (Decidable (_ ∨ _))

/-- A text that is no scalar on a line: it opens a construct that is not supported, or a quote but
no quoted scalar. -/
def Unreadable (w : Str) : Prop :=
  isForbiddenLead w.rtrim ∨
    (w.rtrim.head? = some kSingleQuote ∨ w.rtrim.head? = some kDoubleQuote) ∧
      ∀ s v t, QuotedScalar s v → Closes s t → w.rtrim ≠ s ++ t

/-! ### Which scalars are read -/

theorem rtrim_rtrim (w : Str) : w.rtrim.rtrim = w.rtrim :=
  List.rdropWhile_idempotent _ _

theorem inlineScalar_rtrim (w : Str) (line column : ℕ) :
    inlineScalar w.rtrim line column = inlineScalar w line column := by
  rw [inlineScalar, inlineScalar, rtrim_rtrim]

theorem closingDouble_eq_some {s body : Str} (h : closingDouble s = some body) :
    ∃ t, s = body ++ kDoubleQuote :: t := by
  fun_induction closingDouble s generalizing body with
  | case1 => exact nomatch h
  | case2 c hc =>
    obtain rfl := Option.some.inj h
    exact ⟨[], by rw [eq_of_beq hc]; rfl⟩
  | case3 => exact nomatch h
  | case4 c d rest hc ih =>
    obtain ⟨body', hbody', rfl⟩ := Option.map_eq_some_iff.mp h
    obtain ⟨t, rfl⟩ := ih hbody'
    exact ⟨t, rfl⟩
  | case5 c d rest _ hc =>
    obtain rfl := Option.some.inj h
    exact ⟨d :: rest, by rw [eq_of_beq hc]; rfl⟩
  | case6 c d rest _ _ ih =>
    obtain ⟨body', hbody', rfl⟩ := Option.map_eq_some_iff.mp h
    obtain ⟨t, ht⟩ := ih hbody'
    exact ⟨t, by rw [ht]; rfl⟩

theorem closingSingle_eq_some {s body : Str} (h : closingSingle s = some body) :
    ∃ v t, body = encodeSingleQuoted v ∧ s = body ++ kSingleQuote :: t ∧
      t.head? ≠ some kSingleQuote := by
  fun_induction closingSingle s generalizing body with
  | case1 => exact nomatch h
  | case2 c hc =>
    obtain rfl := Option.some.inj h
    exact ⟨[], [], rfl, by rw [eq_of_beq hc]; rfl, nofun⟩
  | case3 => exact nomatch h
  | case4 c d rest hc ih =>
    obtain ⟨body', hbody', rfl⟩ := Option.map_eq_some_iff.mp h
    obtain ⟨v, t, rfl, hrest, ht⟩ := ih hbody'
    have hencode : encodeSingleQuoted (c :: v) = c :: encodeSingleQuoted v := by
      rw [encodeSingleQuoted, List.flatMap_cons, if_neg (by simpa using hc)]
      rfl
    exact ⟨c :: v, t, hencode.symm, by rw [hrest]; rfl, ht⟩
  | case5 c d rest hc hd ih =>
    obtain ⟨body', hbody', rfl⟩ := Option.map_eq_some_iff.mp h
    obtain ⟨v, t, rfl, rfl, ht⟩ := ih hbody'
    obtain rfl : c = kSingleQuote := by simpa using hc
    obtain rfl := eq_of_beq hd
    exact ⟨kSingleQuote :: v, t, rfl, rfl, ht⟩
  | case6 c d rest hc hd =>
    obtain rfl := Option.some.inj h
    obtain rfl : c = kSingleQuote := by simpa using hc
    exact ⟨[], d :: rest, rfl, rfl, fun hhead => hd (by rw [Option.some.inj hhead]; rfl)⟩

/-- A body that decodes and holds no closing quote is a body of the grammar. -/
theorem escapedBody_of_decode {line column : ℕ} {body v t : Str}
    (h : decodeDoubleQuoted line column body = .ok v)
    (hclosing : closingDouble (body ++ kDoubleQuote :: t) = some body) : EscapedBody body v := by
  have hne (s : Str) : s ++ kDoubleQuote :: t ≠ [] :=
    List.append_ne_nil_of_right_ne_nil s (List.cons_ne_nil _ _)
  -- a byte of the body that closes nothing is passed over
  have hplain {c : UInt8} {rest : Str} (hslash : c ≠ ch '\\') (hquote : c ≠ kDoubleQuote)
      (hc : closingDouble (c :: (rest ++ kDoubleQuote :: t)) = some (c :: rest)) :
      closingDouble (rest ++ kDoubleQuote :: t) = some rest := by
    rw [closingDouble_plain hslash hquote (hne rest)] at hc
    obtain ⟨body', hbody', heq⟩ := Option.map_eq_some_iff.mp hc
    rw [hbody', (List.cons.inj heq).2]
  have hescape {n : UInt8} {rest : Str}
      (hc : closingDouble (ch '\\' :: n :: (rest ++ kDoubleQuote :: t)) =
        some (ch '\\' :: n :: rest)) :
      closingDouble (rest ++ kDoubleQuote :: t) = some rest := by
    rw [closingDouble_escape] at hc
    obtain ⟨body', hbody', heq⟩ := Option.map_eq_some_iff.mp hc
    rw [hbody', (List.cons.inj (List.cons.inj heq).2).2]
  fun_induction decodeDoubleQuoted line column body generalizing v with
  | case1 =>
    obtain rfl := Except.ok.inj h
    exact .nil
  | case2 c rest hc ih =>
    obtain ⟨out, hout, h⟩ := bind_eq_ok.mp h
    obtain rfl := Except.ok.inj h
    have hslash : c ≠ ch '\\' := by simpa using hc
    have hquote : c ≠ kDoubleQuote := by
      rintro rfl
      obtain ⟨d, s, hs⟩ := List.exists_cons_of_ne_nil (hne rest)
      rw [List.cons_append, hs, closingDouble, if_neg (by decide), if_pos (by decide)] at hclosing
      exact absurd (Option.some.inj hclosing) (List.cons_ne_nil _ _).symm
    exact .plain c hslash hquote (ih hout (hplain hslash hquote hclosing))
  | case4 c hc n rest byte hbyte ih =>
    obtain ⟨out, hout, h⟩ := bind_eq_ok.mp h
    obtain rfl := Except.ok.inj h
    obtain rfl : c = ch '\\' := by simpa using hc
    exact .simple hbyte (ih hout (hescape hclosing))
  | case6 c hc n hn hx a b rest code hcode ih =>
    obtain ⟨out, hout, h⟩ := bind_eq_ok.mp h
    obtain rfl := Except.ok.inj h
    obtain rfl : c = ch '\\' := by simpa using hc
    obtain rfl := eq_of_beq hx
    have hdigits := ne_of_hexValue hcode
    simp only [List.forall_mem_cons] at hdigits
    obtain ⟨⟨ha, ha'⟩, ⟨hb, hb'⟩, -⟩ := hdigits
    exact .byte hcode (ih hout
      (hplain hb hb' (hplain ha ha' (@hescape (ch 'x') (a :: b :: rest) hclosing))))
  | case10 c hc n hn hx hu a b c' d rest code hcode hscalar ih =>
    obtain ⟨out, hout, h⟩ := bind_eq_ok.mp h
    obtain rfl := Except.ok.inj h
    obtain rfl : c = ch '\\' := by simpa using hc
    obtain rfl := eq_of_beq hu
    have hdigits := ne_of_hexValue hcode
    simp only [List.forall_mem_cons] at hdigits
    obtain ⟨⟨ha, ha'⟩, ⟨hb, hb'⟩, ⟨hc, hc'⟩, ⟨hd, hd'⟩, -⟩ := hdigits
    exact .codePoint hcode hscalar (ih hout (hplain hd hd' (hplain hc hc' (hplain hb hb'
      (hplain ha ha' (@hescape (ch 'u') (a :: b :: c' :: d :: rest) hclosing))))))
  | case3 | case5 | case7 | case8 | case9 | case11 | case12 => cases h

theorem not_isForbiddenLead_quote {q : UInt8} (hq : q = kSingleQuote ∨ q = kDoubleQuote) (t : Str) :
    ¬isForbiddenLead (q :: t) := by
  have hleads : ¬(str "&*![\x7b").contains kSingleQuote ∧
      ¬(str "&*![\x7b").contains kDoubleQuote := by
    decide
  rcases hq with rfl | rfl
  · exact hleads.1
  · exact hleads.2

/-- **Which texts are read on a line.** -/
theorem exists_inlineScalar_iff (w : Str) (line column : ℕ) :
    (∃ text, inlineScalar w line column = .ok text) ↔ ¬Unreadable w := by
  constructor
  · rintro ⟨text, htext⟩ hbad
    rw [inlineScalar] at htext
    cases hw : w.rtrim with
    | nil => simp [Unreadable, hw, isForbiddenLead] at hbad
    | cons c rest =>
      rw [hw] at htext
      dsimp only at htext
      split_ifs at htext with hdouble hsingle hforbidden
      · -- the closing quote is found and the body decodes
        obtain rfl := eq_of_beq hdouble
        obtain hlead | ⟨-, hno⟩ := hbad
        · exact not_isForbiddenLead_quote (by decide) rest (hw ▸ hlead)
        · cases hclosing : closingDouble rest with
          | none =>
            rw [hclosing] at htext
            cases htext
          | some body =>
            rw [hclosing] at htext
            obtain ⟨t, rfl⟩ := closingDouble_eq_some hclosing
            refine hno _ text t (.double (escapedBody_of_decode htext hclosing)) ?_ ?_
            · exact fun hhead => absurd (Option.some.inj hhead) (by decide)
            · rw [hw, List.cons_append, List.append_assoc]
              rfl
      · obtain rfl := eq_of_beq hsingle
        obtain hlead | ⟨-, hno⟩ := hbad
        · exact not_isForbiddenLead_quote (by decide) rest (hw ▸ hlead)
        · cases hclosing : closingSingle rest with
          | none =>
            rw [hclosing] at htext
            cases htext
          | some body =>
            obtain ⟨v, t, rfl, rfl, ht⟩ := closingSingle_eq_some hclosing
            refine hno _ v t (.single v) (fun _ => ht) ?_
            rw [hw, List.cons_append, List.append_assoc]
            rfl
      · obtain hlead | ⟨hquote, -⟩ := hbad
        · exact hforbidden (hw ▸ hlead)
        · rw [hw] at hquote
          exact hquote.elim (fun h => hsingle (by simpa using h)) fun h =>
            hdouble (by simpa using h)
  · intro hgood
    simp only [Unreadable, not_or, not_and, not_forall, not_not] at hgood
    obtain ⟨hlead, hquoted⟩ := hgood
    by_cases hquote : w.rtrim.head? = some kSingleQuote ∨ w.rtrim.head? = some kDoubleQuote
    · obtain ⟨s, v, t, hs, ht, hw⟩ := hquoted hquote
      refine ⟨v, ?_⟩
      rw [← inlineScalar_rtrim, hw]
      exact hs.inlineScalar_append ht line column
    · rw [inlineScalar]
      cases hw : w.rtrim with
      | nil => exact ⟨[], rfl⟩
      | cons c rest =>
        rw [hw, not_or] at hquote
        rw [hw] at hlead
        dsimp only
        rw [if_neg (by simpa using hquote.2), if_neg (by simpa using hquote.1), if_neg hlead]
        exact ⟨_, rfl⟩

/-- An unreadable text is neither empty nor a comment. -/
theorem Unreadable.isCommentOnly_eq_false {w : Str} (hw : Unreadable w) :
    w.isEmpty = false ∧ isCommentOnly w = false := by
  obtain ⟨c, hhead, hc⟩ : ∃ c, w.rtrim.head? = some c ∧ c ≠ ch '#' ∧ ¬Str.isWs c := by
    have hleads : ∀ c ∈ str "&*![\x7b", c ≠ ch '#' ∧ ¬Str.isWs c := by decide
    obtain hlead | ⟨hhead | hhead, -⟩ := hw
    · cases hr : w.rtrim with
      | nil =>
        rw [hr] at hlead
        exact absurd hlead nofun
      | cons c rest =>
        rw [hr] at hlead
        exact ⟨c, rfl, hleads c (List.contains_iff_mem.mp hlead)⟩
    · exact ⟨_, hhead, by decide⟩
    · exact ⟨_, hhead, by decide⟩
  obtain ⟨t, ht⟩ := List.rdropWhile_prefix Str.isWs w
  obtain ⟨rest, hrest⟩ := List.head?_eq_some_iff.mp hhead
  rw [← ht, ← Str.rtrim, hrest]
  exact ⟨rfl, isCommentOnly_cons hc.1 hc.2 _⟩

/-! ### Values of entries -/

/-- A line with an entry of a mapping: its key `k`, which stands for `name`, and the text `w` of its
value. -/
structure EntryLine (ln : Line) (k name w : Str) : Prop where
  lead : ∃ a s, ln.payload = a :: s ∧ a ≠ ch '#' ∧ a ≠ ch '-'
  split : splitKey ln.payload = some (k, w)
  key : mappingKey k ln.lineNo (ln.indent + 1) = .ok name

/-- The value `w` of an entry is read as the text `v`: on a line of a block mapping, on a line of a
mapping that starts behind a dash, behind the dash itself, and on the line of a document. -/
structure ReadsValue (w v : Str) : Prop where
  entry : ∀ (value : ValueParser) (ln : Line) (rest after : List Line) (fuel : ℕ)
    (entries : List (Str × Node)) (k name : Str), EntryLine ln k name w →
    mappingLoop value ln.indent fuel rest = .ok (entries, after) →
    ∃ line column, mappingLoop value ln.indent (fuel + 1) (ln :: rest) =
      .ok ((name, .scalar v line column) :: entries, after)
  further : ∀ (value : ValueParser) (ln : Line) (rest after : List Line) (fuel : ℕ)
    (entries : List (Str × Node)) (k name : Str), EntryLine ln k name w →
    compactLoop value ln.indent fuel rest = .ok (entries, after) →
    ∃ line column, compactLoop value ln.indent (fuel + 1) (ln :: rest) =
      .ok ((k, .scalar v line column) :: entries, after)
  first : ∀ (value : ValueParser) (ln : Line) (rest after : List Line)
    (entries : List (Str × Node)) (k : Str), splitKey (ln.payload.drop 2) = some (k, w) →
    compactLoop value (ln.indent + 2) rest.length rest = .ok (entries, after) →
    ∃ line column line' column', sequenceItem value ln rest =
      .ok (.mapping ((k, .scalar v line column) :: entries) line' column', after)
  document : ∀ (text : Str) (ln : Line) (k name : Str), tokenizeLines text = .ok [ln] →
    EntryLine ln k name w → ∃ line column line' column',
      parse text = .ok (.mapping [(name, .scalar v line column)] line' column')

/-- The value `w` of an entry is an error in all these places. -/
structure RejectsValue (w : Str) : Prop where
  entry : ∀ (value : ValueParser) (ln : Line) (rest : List Line) (fuel : ℕ) (k name : Str),
    EntryLine ln k name w → ∃ e, mappingLoop value ln.indent (fuel + 1) (ln :: rest) = .error e
  further : ∀ (value : ValueParser) (ln : Line) (rest : List Line) (fuel : ℕ) (k name : Str),
    EntryLine ln k name w → ∃ e, compactLoop value ln.indent (fuel + 1) (ln :: rest) = .error e
  first : ∀ (value : ValueParser) (ln : Line) (rest : List Line) (k : Str),
    splitKey (ln.payload.drop 2) = some (k, w) → ∃ e, sequenceItem value ln rest = .error e
  document : ∀ (text : Str) (ln : Line) (k name : Str), tokenizeLines text = .ok [ln] →
    EntryLine ln k name w → ∃ e, parse text = .error e

theorem skipSeparators_cons {ln : Line} {a : UInt8} {s : Str} (hln : ln.payload = a :: s)
    (hhash : a ≠ ch '#') (hline : ln.payload ≠ str "---") (rest : List Line) :
    skipSeparators (ln :: rest) = ln :: rest :=
  List.dropWhile_cons_of_neg (by
    have hpayload : a :: s ≠ str "---" := hln ▸ hline
    simp [Line.isBlank, Line.isComment, hln, hhash, hpayload])

/-- A document of one entry. -/
theorem parse_entryLine {text k name w : Str} {ln : Line} {entries : List (Str × Node)}
    (htext : tokenizeLines text = .ok [ln]) (hln : EntryLine ln k name w)
    (hloop : mappingLoop (parseValue 63) ln.indent 1 [ln] = .ok (entries, [])) :
    parse text = .ok (.mapping entries ln.lineNo (ln.indent + 1)) := by
  obtain ⟨a, s, hpayload, hhash, hdash⟩ := hln.lead
  have hseparator : ln.payload ≠ str "---" := by
    rw [hpayload]
    exact fun h => hdash (List.cons.inj h).1
  have hisDash : ln.isDash = false := by
    rw [Line.isDash, hpayload]
    cases s <;> simp [hdash]
  have hvalue : parseValue (63 + 1) ln.indent [ln] =
      .ok (.mapping entries ln.lineNo (ln.indent + 1), []) := by
    rw [parseValue, skipBlankAndComment_cons hpayload hhash]
    dsimp only
    rw [hisDash, Bool.false_and, if_neg (by decide), if_neg (Nat.lt_irrefl _),
      if_neg (by rw [hpayload]; exact Bool.false_ne_true), if_pos (by rw [hln.split]; rfl),
          parseMapping]
    exact congrArg (· >>= _) hloop
  rw [parse, htext, ok_bind, parseDocument, skipSeparators_cons hpayload hhash hseparator]
  change (parseValue (63 + 1) ln.indent [ln] >>= _) = _
  rw [hvalue]
  rfl

/-- The first entry of a mapping behind a dash fails on an unreadable value. -/
theorem firstEntry_unreadable {w : Str} (hw : Unreadable w) (value : ValueParser) (mapIndent : ℕ)
    (ln : Line) (k : Str) (rest : List Line) :
    ∃ e, firstEntry value mapIndent ln k w rest = .error e := by
  obtain ⟨hne, hcomment⟩ := hw.isCommentOnly_eq_false
  cases htext : inlineScalar w ln.lineNo (mapIndent + 1 + k.length + 2) with
  | ok text => exact absurd hw ((exists_inlineScalar_iff w _ _).mp ⟨text, htext⟩)
  | error e =>
    refine ⟨e, ?_⟩
    rw [firstEntry, hne, hcomment, htext]
    rfl

/-- It does not fail on any other, if no lines follow. -/
theorem exists_firstEntry {w : Str} (hw : ¬Unreadable w) (mapIndent : ℕ) (ln : Line) (k : Str) :
    ∃ node, firstEntry (fun _ _ => .ok (.empty, [])) mapIndent ln k w [] = .ok (node, []) := by
  obtain ⟨text, htext⟩ :=
    (exists_inlineScalar_iff w ln.lineNo (mapIndent + 1 + k.length + 2)).mpr hw
  rw [firstEntry]
  split_ifs with hinline
  · rw [htext]
    exact ⟨_, rfl⟩
  · exact ⟨.empty, rfl⟩

section Value

variable {s v t : Str} (hs : QuotedScalar s v) (ht : Closes s t)

include hs ht

theorem entryValue_quoted (value : ValueParser) (indent : ℕ) (ln : Line) (keySize : ℕ)
    (rest : List Line) : entryValue value indent ln keySize (s ++ t) rest =
      .ok (.scalar v ln.lineNo (ln.indent + 1 + keySize + 2), rest) := by
  rw [entryValue, hs.append_isEmpty_eq_false, hs.isCommentOnly_append_eq_false,
    hs.isBlockHeader_append_eq_false, hs.inlineScalar_append ht]
  rfl

theorem firstEntry_quoted (value : ValueParser) (mapIndent : ℕ) (ln : Line) (k : Str)
    (rest : List Line) : firstEntry value mapIndent ln k (s ++ t) rest =
      .ok (.scalar v ln.lineNo (mapIndent + 1 + k.length + 2), rest) := by
  rw [firstEntry, hs.append_isEmpty_eq_false, hs.isCommentOnly_append_eq_false,
    hs.inlineScalar_append ht]
  rfl

/-- The value of an entry is the text of the scalar, whatever follows the closing quote. -/
theorem readsValue_quoted : ReadsValue (s ++ t) v := by
  have hentry (value : ValueParser) (ln : Line) (rest after : List Line) (fuel : ℕ)
      (entries : List (Str × Node)) (k name : Str) (hln : EntryLine ln k name (s ++ t))
      (hrest : mappingLoop value ln.indent fuel rest = .ok (entries, after)) :
      mappingLoop value ln.indent (fuel + 1) (ln :: rest) =
        .ok ((name, .scalar v ln.lineNo (ln.indent + 1 + name.length + 2)) :: entries, after) := by
    obtain ⟨a, p, hpayload, hhash, hdash⟩ := hln.lead
    rw [mappingLoop_cons hpayload hhash hdash, hln.split]
    dsimp only
    rw [hln.key, ok_bind, entryValue_quoted hs ht, ok_bind, hrest]
    rfl
  constructor
  case entry => exact fun value ln rest after fuel entries k name hln hrest =>
    ⟨_, _, hentry value ln rest after fuel entries k name hln hrest⟩
  case further =>
    intro value ln rest after fuel entries k name hln hrest
    obtain ⟨a, p, hpayload, hhash, hdash⟩ := hln.lead
    refine ⟨ln.lineNo, ln.indent + 1 + k.length + 2, ?_⟩
    rw [compactLoop_cons hpayload hhash hdash, hln.split]
    dsimp only
    rw [entryValue_quoted hs ht, ok_bind, hrest]
    rfl
  case first =>
    intro value ln rest after entries k hkey hrest
    refine ⟨ln.lineNo, ln.indent + 2 + 1 + k.length + 2, ln.lineNo, ln.indent + 1, ?_⟩
    have hne : ¬(ln.payload.drop 2).isEmpty := by
      intro hnil
      rw [List.isEmpty_iff.mp hnil] at hkey
      exact nomatch hkey
    rw [sequenceItem]
    dsimp only
    rw [if_neg hne, hkey]
    dsimp only
    rw [firstEntry_quoted hs ht, ok_bind, hrest]
    rfl
  case document =>
    intro text ln k name htext hln
    exact ⟨_, _, _, _, parse_entryLine htext hln
      (hentry (parseValue 63) ln [] [] 0 [] k name hln rfl)⟩

/-- No text after a closing quote makes the value of an entry an error. -/
theorem not_rejectsValue_quoted : ¬RejectsValue (s ++ t) := by
  intro h
  let value : ValueParser := fun _ _ => .ok (.empty, [])
  let ln : Line := ⟨1, 0, str "- a: " ++ (s ++ t)⟩
  have hkey : splitKey (ln.payload.drop 2) = some (str "a", s ++ t) := by
    have hplain : ∀ c ∈ str "a", c ≠ kSingleQuote ∧ c ≠ kDoubleQuote ∧ c ≠ ch ':' := by decide
    refine (splitKey_append hplain _).trans ?_
    obtain ⟨q, body, hq, rfl⟩ := hs.exists_eq
    have hspace : ¬(q == ch ' ') := by rcases hq with rfl | rfl <;> decide
    exact congrArg (fun w => some (str "a", w)) (List.dropWhile_cons_of_neg hspace)
  obtain ⟨e, he⟩ := h.first value ln [] (str "a") hkey
  obtain ⟨_, _, _, _, hread⟩ := (readsValue_quoted hs ht).first value ln [] [] [] (str "a") hkey rfl
  exact nomatch he.symm.trans hread

end Value

/-! ### Items of sequences -/

/-- A dash, a space and further spaces before the text of an item. -/
def dashed (gap : ℕ) (w : Str) : Str :=
  ch '-' :: ch ' ' :: (List.replicate gap (ch ' ') ++ w)

/-- The item `w` of a sequence is read as the text `v`: on a line of a block sequence, and on the
line of a document. -/
structure ReadsDashed (gap : ℕ) (w v : Str) : Prop where
  item : ∀ (value : ValueParser) (ln : Line) (rest after : List Line) (fuel : ℕ)
    (items : List Node), ln.payload = dashed gap w →
    sequenceLoop value ln.indent fuel rest = .ok (items, after) →
    ∃ line column, sequenceLoop value ln.indent (fuel + 1) (ln :: rest) =
      .ok (.scalar v line column :: items, after)
  document : ∀ (text : Str) (ln : Line), tokenizeLines text = .ok [ln] →
    ln.payload = dashed gap w → ∃ line column line' column',
      parse text = .ok (.sequence [.scalar v line column] line' column')

/-- The item `w` of a sequence is an error in both places. -/
structure RejectsDashed (gap : ℕ) (w : Str) : Prop where
  item : ∀ (value : ValueParser) (ln : Line) (rest : List Line) (fuel : ℕ),
    ln.payload = dashed gap w →
    ∃ e, sequenceLoop value ln.indent (fuel + 1) (ln :: rest) = .error e
  document : ∀ (text : Str) (ln : Line), tokenizeLines text = .ok [ln] →
    ln.payload = dashed gap w → ∃ e, parse text = .error e

/-- A document of one item. -/
theorem parse_dashLine {text s : Str} {ln : Line} (htext : tokenizeLines text = .ok [ln])
    (hln : ln.payload = ch '-' :: ch ' ' :: s) :
    parse text = (do
      let (items, rest) ← sequenceLoop (parseValue 63) ln.indent 1 [ln]
      match skipSeparators rest with
      | [] => pure (.sequence items ln.lineNo (ln.indent + 1))
      | nx :: _ => .error (yamlErr nx.lineNo (nx.indent + 1)
          (str "extra content after document end"))) := by
  have hseparator : ln.payload ≠ str "---" := by
    rw [hln]
    exact fun h => absurd (List.cons.inj (List.cons.inj h).2).1 (by decide)
  have hvalue : parseValue (63 + 1) ln.indent [ln] =
      parseSequence (parseValue 63) ln.indent ln [ln] := by
    have hdash : (ln.isDash && ln.indent ≤ ln.indent + 1) = true := by
      simp [Line.isDash, hln]
    rw [parseValue, skipBlankAndComment_cons hln (by decide)]
    dsimp only
    rw [if_pos hdash]
  rw [parse, htext, ok_bind, parseDocument, skipSeparators_cons hln (by decide) hseparator]
  change (parseValue (63 + 1) ln.indent [ln] >>= _) = _
  rw [hvalue, parseSequence, bind_assoc]
  rfl

section Item

variable {s v : Str} (hs : QuotedScalar s v) (gap : ℕ)

include hs

/-- The scanner for keys passes over the blanks and the scalar. -/
theorem splitKey_dashed (t : Str) :
    splitKey (List.replicate gap (ch ' ') ++ (s ++ t)) =
      (splitKey t).map fun (k, w) => (List.replicate gap (ch ' ') ++ s ++ k, w) := by
  have hrun : outside.run s = outside := hs.passes.2
  rw [splitKey_eq, splitKey_eq]
  induction gap with
  | zero =>
    rw [List.replicate_zero, List.nil_append, hs.passes.1.scanKey, hrun]
    rfl
  | succ gap ih =>
    rw [List.replicate_succ, List.cons_append, scanKey_skip (Or.inr (by decide)),
      show outside.step (ch ' ') = outside from rfl, ih, Option.map_map]
    rfl

theorem sequenceItem_dashed {t : Str} {ln : Line} (hln : ln.payload = dashed gap (s ++ t))
    (value : ValueParser) (rest : List Line) :
    sequenceItem value ln rest =
      match splitKey t with
      | some (k, w) => (do
        let (node, rest) ← firstEntry value (ln.indent + 2) ln
          (List.replicate gap (ch ' ') ++ s ++ k) w rest
        let (entries, rest) ← compactLoop value (ln.indent + 2) rest.length rest
        pure (.mapping ((List.replicate gap (ch ' ') ++ s ++ k, node) :: entries) ln.lineNo
          (ln.indent + 1), rest))
      | none => (do
        let text ← inlineScalar (List.replicate gap (ch ' ') ++ (s ++ t)) ln.lineNo
          (ln.indent + 1 + 2)
        pure (.scalar text ln.lineNo (ln.indent + 1 + 2), rest)) := by
  have hcontent : ln.payload.drop 2 = List.replicate gap (ch ' ') ++ (s ++ t) := by
    rw [hln]
    rfl
  have hne : ¬(List.replicate gap (ch ' ') ++ (s ++ t)).isEmpty := by
    have hst := hs.append_isEmpty_eq_false t
    rw [List.isEmpty_eq_false_iff] at hst
    rw [List.isEmpty_iff]
    exact List.append_ne_nil_of_right_ne_nil _ hst
  rw [sequenceItem]
  dsimp only
  rw [hcontent, if_neg hne, splitKey_dashed hs gap t]
  cases splitKey t <;> rfl

/-- The text of a quoted scalar is not longer than what stands between its quotes. -/
theorem length_le : v.length ≤ s.length := by
  cases hs with
  | single =>
    have hle := length_decodeSingleQuoted_le (encodeSingleQuoted v)
    rw [decodeSingleQuoted_encode] at hle
    simp only [List.length_cons, List.length_append]
    omega
  | double h =>
    have hle := (decodeDoubleQuoted_ok (decodeDoubleQuoted_of_escapedBody h 0 0)).1
    simp only [List.length_cons, List.length_append]
    omega

/-- Blanks in front of a quoted scalar make it a plain one, which holds more than its text. -/
theorem inlineScalar_dashed (t : Str) (line column : ℕ) :
    ∃ text, inlineScalar (List.replicate (gap + 1) (ch ' ') ++ (s ++ t)) line column = .ok text ∧
      v.length < text.length := by
  obtain ⟨before, hscan⟩ := hs.enclosed.1.exists_scanComment (ch ' ') t.rtrim
  obtain ⟨q, body, hq, hbody⟩ := hs.exists_eq
  have hstop (f : UInt8 → Bool) (hf : ¬f q) (w w' : Str) :
      (w ++ (s ++ w')).rdropWhile f = w ++ (s ++ w'.rdropWhile f) := by
    have hsplit (w' : Str) : w ++ (s ++ w') = (w ++ q :: body) ++ q :: w' := by simp [hbody]
    rw [hsplit, rdropWhile_append_cons hf, hsplit]
  have hblanks (n : ℕ) (w : Str) : scanComment outside (ch ' ') (List.replicate n (ch ' ') ++ w) =
      List.replicate n (ch ' ') ++ scanComment outside (ch ' ') w := by
    induction n with
    | zero => rfl
    | succ n ih =>
      rw [List.replicate_succ, List.cons_append, scanComment_cons (by decide), List.cons_append]
      exact congrArg (ch ' ' :: ·) ih
  have hrtrim : Str.rtrim (List.replicate (gap + 1) (ch ' ') ++ (s ++ t)) =
      ch ' ' :: (List.replicate gap (ch ' ') ++ (s ++ t.rtrim)) :=
    hstop Str.isWs (by rcases hq with rfl | rfl <;> decide) _ t
  have hforbidden : ¬isForbiddenLead
      (ch ' ' :: (List.replicate gap (ch ' ') ++ (s ++ t.rtrim))) := by
    have hlead : ¬(str "&*![\x7b").contains (ch ' ') := by decide
    exact hlead
  let rest := (scanComment (outside.run s) before t.rtrim).rdropWhile (· == ch ' ')
  refine ⟨List.replicate (gap + 1) (ch ' ') ++ (s ++ rest), ?_, ?_⟩
  · rw [inlineScalar, hrtrim]
    dsimp only
    rw [if_neg (by decide), if_neg (by decide), if_neg hforbidden, stripInlineComment_eq]
    change Except.ok (rstripSpaces (scanComment outside (ch ' ')
      (List.replicate (gap + 1) (ch ' ') ++ (s ++ t.rtrim)))) = _
    rw [hblanks, hscan, rstripSpaces, hstop _ (by rcases hq with rfl | rfl <;> decide)]
  · have hle := length_le hs
    simp only [List.length_append, List.length_replicate]
    omega

/-- An item is read as the text of the scalar when one space stands before it and no key separator
behind it, and only then. -/
theorem readsDashed_iff {t : Str} (ht : Closes s t) :
    ReadsDashed gap (s ++ t) v ↔ gap = 0 ∧ splitKey t = none := by
  constructor
  · intro h
    let value : ValueParser := fun _ _ => .ok (.empty, [])
    let ln : Line := ⟨1, 0, dashed gap (s ++ t)⟩
    obtain ⟨line, column, hread⟩ := h.item value ln [] [] 0 [] rfl rfl
    rw [sequenceLoop_cons (rfl : ln.payload = _), sequenceItem_dashed hs gap rfl] at hread
    obtain ⟨⟨item, rest⟩, hitem, hread⟩ := bind_eq_ok.mp hread
    obtain ⟨⟨items, rest'⟩, -, hread⟩ := bind_eq_ok.mp hread
    obtain ⟨rfl, -⟩ := List.cons.inj (Prod.mk.inj (Except.ok.inj hread)).1
    cases hkey : splitKey t with
    | some found =>
      -- with a key the item is a mapping
      rw [hkey] at hitem
      obtain ⟨⟨node, rest₂⟩, -, hitem⟩ := bind_eq_ok.mp hitem
      obtain ⟨⟨entries, rest₃⟩, -, hitem⟩ := bind_eq_ok.mp hitem
      exact absurd (Prod.mk.inj (Except.ok.inj hitem)).1 nofun
    | none =>
      rw [hkey] at hitem
      obtain ⟨text, htext, hitem⟩ := bind_eq_ok.mp hitem
      obtain ⟨rfl, -⟩ := Node.scalar.inj (Prod.mk.inj (Except.ok.inj hitem)).1
      refine ⟨?_, rfl⟩
      cases gap with
      | zero => rfl
      | succ gap =>
        obtain ⟨text', htext', hlt⟩ := inlineScalar_dashed hs gap t ln.lineNo (ln.indent + 1 + 2)
        obtain rfl := Except.ok.inj (htext.symm.trans htext')
        exact absurd hlt (Nat.lt_irrefl _)
  · rintro ⟨rfl, hkey⟩
    have hitem (value : ValueParser) (ln : Line) (rest after : List Line) (fuel : ℕ)
        (items : List Node) (hln : ln.payload = dashed 0 (s ++ t))
        (hrest : sequenceLoop value ln.indent fuel rest = .ok (items, after)) :
        sequenceLoop value ln.indent (fuel + 1) (ln :: rest) =
          .ok (.scalar v ln.lineNo (ln.indent + 1 + 2) :: items, after) := by
      rw [sequenceLoop_cons hln, sequenceItem_dashed hs 0 hln, hkey]
      dsimp only
      rw [List.replicate_zero, List.nil_append, hs.inlineScalar_append ht, ok_bind]
      dsimp only [pure, Except.pure]
      rw [ok_bind, hrest]
      rfl
    constructor
    case item => exact fun value ln rest after fuel items hln hrest =>
      ⟨_, _, hitem value ln rest after fuel items hln hrest⟩
    case document =>
      intro text ln htext hln
      refine ⟨ln.lineNo, ln.indent + 1 + 2, ln.lineNo, ln.indent + 1, ?_⟩
      rw [parse_dashLine htext hln, hitem (parseValue 63) ln [] [] 0 [] hln rfl]
      rfl

/-- An item is an error when a key separator stands behind the scalar and an unreadable text behind
that, and only then. -/
theorem rejectsDashed_iff {t : Str} (ht : Closes s t) :
    RejectsDashed gap (s ++ t) ↔ ∃ k w, splitKey t = some (k, w) ∧ Unreadable w := by
  constructor
  · intro h
    let value : ValueParser := fun _ _ => .ok (.empty, [])
    let ln : Line := ⟨1, 0, dashed gap (s ++ t)⟩
    obtain ⟨e, he⟩ := h.item value ln [] 0 rfl
    -- an item that is read leaves no line, so the loop ends well
    have hbad (node : Node) (after : List Line) :
        sequenceItem value ln [] ≠ .ok (node, after) := by
      intro hread
      rw [sequenceLoop_cons (rfl : ln.payload = _), hread] at he
      exact nomatch he
    cases hkey : splitKey t with
    | none =>
      obtain ⟨text, htext⟩ :
          ∃ text, inlineScalar (List.replicate gap (ch ' ') ++ (s ++ t)) ln.lineNo
          (ln.indent + 1 + 2) = .ok text := by
        cases gap with
        | zero => exact ⟨v, hs.inlineScalar_append ht _ _⟩
        | succ gap =>
          obtain ⟨text, htext, -⟩ := inlineScalar_dashed hs gap t ln.lineNo (ln.indent + 1 + 2)
          exact ⟨text, htext⟩
      refine absurd ?_ (hbad (.scalar text ln.lineNo (ln.indent + 1 + 2)) [])
      rw [sequenceItem_dashed hs gap rfl, hkey]
      dsimp only
      rw [htext]
      rfl
    | some found =>
      obtain ⟨k, w⟩ := found
      refine ⟨k, w, rfl, ?_⟩
      by_contra hgood
      obtain ⟨node, hnode⟩ := exists_firstEntry hgood (ln.indent + 2) ln
        (List.replicate gap (ch ' ') ++ s ++ k)
      refine absurd ?_ (hbad (.mapping [(List.replicate gap (ch ' ') ++ s ++ k, node)] ln.lineNo
        (ln.indent + 1)) [])
      rw [sequenceItem_dashed hs gap rfl, hkey]
      dsimp only
      rw [hnode]
      rfl
  · rintro ⟨k, w, hkey, hw⟩
    have hitem (value : ValueParser) (ln : Line) (rest : List Line) (fuel : ℕ)
        (hln : ln.payload = dashed gap (s ++ t)) :
        ∃ e, sequenceLoop value ln.indent (fuel + 1) (ln :: rest) = .error e := by
      obtain ⟨e, he⟩ := firstEntry_unreadable hw value (ln.indent + 2) ln
        (List.replicate gap (ch ' ') ++ s ++ k) rest
      refine ⟨e, ?_⟩
      rw [sequenceLoop_cons hln, sequenceItem_dashed hs gap hln, hkey]
      dsimp only
      rw [he]
      rfl
    constructor
    case item => exact hitem
    case document =>
      intro text ln htext hln
      obtain ⟨e, he⟩ := hitem (parseValue 63) ln [] 0 hln
      refine ⟨e, ?_⟩
      rw [parse_dashLine htext hln, he]
      rfl

end Item

/-! ### Text after a closing quote -/

/-- The value of an entry that is the quoted scalar `s` of the text `v` in front of `t`: it is read
as `v` if `t` may follow a scalar, and is an error if not. -/
def MeetsValue (s t v : Str) : Prop :=
  (Ignorable t → ReadsValue (s ++ t) v) ∧ (¬Ignorable t → RejectsValue (s ++ t))

/-- The same for an item of a sequence. -/
def MeetsDashed (gap : ℕ) (s t v : Str) : Prop :=
  (Ignorable t → ReadsDashed gap (s ++ t) v) ∧ (¬Ignorable t → RejectsDashed gap (s ++ t))

/-- **Where the text after a closing quote is told from a comment.** For the value of an entry only
what may follow is read as it should be: any other text is dropped. An item of a sequence is read as
its text when one space stands before it and no key separator in its comment, and a text that may
not follow is an error when it makes a key of the scalar and the value of that key is unreadable. -/
theorem quotedTail_iff {s v t : Str} (hs : QuotedScalar s v) (ht : Closes s t) :
    (MeetsValue s t v ↔ Ignorable t) ∧
    ∀ gap, MeetsDashed gap s t v ↔
      (Ignorable t ∧ gap = 0 ∧ NoKeyMark t) ∨
      (¬Ignorable t ∧ ∃ k w, splitKey t = some (k, w) ∧ Unreadable w) := by
  constructor
  · constructor
    · intro h
      by_contra hother
      exact not_rejectsValue_quoted hs ht (h.2 hother)
    · exact fun h => ⟨fun _ => readsValue_quoted hs ht, fun hother => absurd h hother⟩
  · intro gap
    have hnone : splitKey t = none ↔ NoKeyMark t := by
      rw [splitKey_eq]
      exact scanKey_eq_none_iff outside t
    rw [← hnone, ← rejectsDashed_iff hs gap ht, ← readsDashed_iff hs gap ht]
    by_cases h : Ignorable t
    · simp [MeetsDashed, h]
    · simp [MeetsDashed, h]

/-- A comment after a quoted scalar. -/
theorem quotedTail_comment :
    MeetsValue (str "\"a: #\"") (str " # b") (str "a: #") ∧
    MeetsDashed 0 (str "\"a: #\"") (str " # b") (str "a: #") := by
  have hplain (c : UInt8) (hc : c ≠ ch '\\' ∧ c ≠ kDoubleQuote) {body v : Str}
      (h : EscapedBody body v) : EscapedBody (c :: body) (c :: v) := .plain c hc.1 hc.2 h
  have hbody : EscapedBody (str "a: #") (str "a: #") :=
    hplain _ (by decide) (hplain _ (by decide) (hplain _ (by decide) (hplain _ (by decide) .nil)))
  have hs : QuotedScalar (str "\"a: #\"") (str "a: #") := .double hbody
  have hline := quotedTail_iff hs (t := str " # b") (by decide)
  exact ⟨hline.1.mpr (by decide), (hline.2 0).mpr (Or.inl ⟨by decide, rfl,
    (scanKey_eq_none_iff outside (str " # b")).mp (by decide)⟩)⟩

/-- Text after a closing quote is dropped, a key separator in the comment of an item makes it a
mapping, and a second space after the dash keeps the quotes. -/
theorem quoted_tail_dropped :
    QuotedScalar (str "'a'") (str "a") ∧
    parse (str "k: 'a' b") = .ok (.mapping [(str "k", .scalar (str "a") 1 4)] 1 1) ∧
    parse (str "- 'a' b") = .ok (.sequence [.scalar (str "a") 1 3] 1 1) ∧
    parse (str "- 'a' # see: b") =
      .ok (.sequence [.mapping [(str "'a' # see", .scalar (str "b") 1 14)] 1 1] 1 1) ∧
    parse (str "-  'a'") = .ok (.sequence [.scalar (str " 'a'") 1 3] 1 1) ∧
    ¬MeetsValue (str "'a'") (str " b") (str "a") ∧ ¬MeetsDashed 0 (str "'a'") (str " b") (str "a") ∧
    ¬MeetsDashed 0 (str "'a'") (str " # see: b") (str "a") ∧
    ¬MeetsDashed 1 (str "'a'") [] (str "a") := by
  have hs : QuotedScalar (str "'a'") (str "a") := .single (str "a")
  refine ⟨hs, rfl, rfl, rfl, rfl, fun h => ?_, fun h => ?_, fun h => ?_, fun h => ?_⟩
  · exact not_rejectsValue_quoted hs (by decide) (h.2 (by decide))
  · obtain ⟨k, w, hkey, -⟩ := (rejectsDashed_iff hs 0 (by decide)).mp (h.2 (by decide))
    have hnone : splitKey (str " b") = none := by decide
    exact nomatch hnone.symm.trans hkey
  · have hkey := ((readsDashed_iff hs 0 (by decide)).mp (h.1 (by decide))).2
    exact absurd hkey (by decide)
  · have hgap := ((readsDashed_iff hs 1 (by decide)).mp (h.1 (by decide))).1
    exact absurd hgap (by decide)

end Papa.Util.Yaml
