import Papa.Util.Yaml
import Papa.Util.YamlQuotes

/-!
# Plain scalars with comments

A plain scalar ends at the hash sign of its comment, and quotes inside it mean nothing. The scanners
track quotes before they know what a line holds, so they read a line as its text says exactly when
the quotes in it are closed; and a dash line is taken for an entry of a mapping when a key separator
stands in its comment.

## Main definitions

* `Papa.Util.Yaml.PlainScalar`: the plain scalars.
* `Papa.Util.Yaml.ReadsEntry`, `Papa.Util.Yaml.ReadsItem`: a line with a comment is read as its key
  and its plain scalar.

## Main results

* `Papa.Util.Yaml.plainLine_iff`: which lines are read so.
-/

namespace Papa.Util.Yaml

open QuoteState

/-! ### Plain scalars -/

/-- The bytes that start something else than a plain scalar. -/
def isIndicator (c : UInt8) : Bool :=
  (kSingleQuote :: kDoubleQuote :: str "-?:,[]\x7b\x7d#&*!|>%@`").contains c

/-- A plain scalar: it starts with no indicator or quote, holds no key separator and no start of a
comment, and has no blanks around it. -/
structure PlainScalar (p : Str) : Prop where
  ne_nil : p ≠ []
  lead : ∀ c ∈ p.head?, ¬isIndicator c ∧ ¬Str.isWs c
  last : ∀ c ∈ p.getLast?, ¬Str.isWs c
  noKey : ¬str ": " <:+: p
  noComment : ¬str " #" <:+: p

instance (p : Str) : Decidable (PlainScalar p) :=
  decidable_of_iff (p ≠ [] ∧ (∀ c ∈ p.head?, ¬isIndicator c ∧ ¬Str.isWs c) ∧
      (∀ c ∈ p.getLast?, ¬Str.isWs c) ∧ ¬str ": " <:+: p ∧ ¬str " #" <:+: p)
    ⟨fun ⟨ne_nil, lead, last, noKey, noComment⟩ => ⟨ne_nil, lead, last, noKey, noComment⟩,
      fun ⟨ne_nil, lead, last, noKey, noComment⟩ => ⟨ne_nil, lead, last, noKey, noComment⟩⟩

/-- A scalar followed by a comment. -/
def commented (p c : Str) : Str := p ++ ch ' ' :: ch '#' :: ch ' ' :: c

theorem rstripSpaces_append_cons {c : UInt8} (hc : c ≠ ch ' ') (s t : Str) :
    rstripSpaces (s ++ c :: t) = s ++ c :: rstripSpaces t :=
  @rdropWhile_append_cons _ (· == ch ' ') c (by simpa using hc) s t

theorem rstripSpaces_concat (s : Str) : rstripSpaces (s ++ [ch ' ']) = rstripSpaces s :=
  List.rdropWhile_concat_pos _ _ _ (beq_self_eq_true _)

namespace PlainScalar

variable {p : Str} (hp : PlainScalar p)

include hp

/-- A plain scalar starts with a byte that is no indicator. -/
theorem exists_cons : ∃ a p', p = a :: p' ∧ ¬isIndicator a ∧ ¬Str.isWs a := by
  obtain ⟨a, p', rfl⟩ := List.exists_cons_of_ne_nil hp.ne_nil
  exact ⟨a, p', rfl, hp.lead a rfl⟩

/-- A plain scalar ends with a byte that is no blank. -/
theorem exists_concat : ∃ p' z, p = p' ++ [z] ∧ z ≠ ch ' ' := by
  obtain ⟨p', z, hz⟩ := (List.eq_nil_or_concat' p).resolve_left hp.ne_nil
  have hblank : ¬Str.isWs z := hp.last z (by simp [hz])
  exact ⟨p', z, hz, fun h => hblank (by rw [h]; rfl)⟩

/-- No comment starts in a plain scalar, nor in front of it. -/
theorem noComment_cons : ¬str " #" <:+: ch ' ' :: p := by
  intro h
  rcases List.infix_cons_iff.mp h with hprefix | hinfix
  · obtain ⟨a, p', rfl, ha, -⟩ := hp.exists_cons
    obtain ⟨t, ht⟩ := hprefix
    obtain rfl : ch '#' = a := (List.cons.inj (List.cons.inj ht).2).1
    exact ha (by decide)
  · exact hp.noComment hinfix

end PlainScalar

/-! ### The value on a line -/

theorem rtrim_commented (p c : Str) :
    ∃ t, (commented p c).rtrim = p ++ ch ' ' :: ch '#' :: t := by
  refine ⟨(ch ' ' :: c).rdropWhile Str.isWs, ?_⟩
  have hsplit : commented p c = (p ++ [ch ' ']) ++ ch '#' :: ch ' ' :: c := by
    rw [List.append_assoc]
    rfl
  rw [Str.rtrim, hsplit, rdropWhile_append_cons (by decide), List.append_assoc]
  rfl

section Value

variable {p : Str} (hp : PlainScalar p) (c : Str)

include hp

/-- The comment after a plain scalar is found exactly when the quotes of the scalar are closed. -/
theorem stripInlineComment_plain (t : Str) :
    stripInlineComment (p ++ ch ' ' :: ch '#' :: t) = p ↔ BalancedQuotes p := by
  have hstep : ∀ q : QuoteState, q.step (ch ' ') = outside ↔ q = outside :=
    step_eq_outside_iff (by decide) (by decide)
  obtain ⟨p', z, hz, hspace⟩ := hp.exists_concat
  rw [stripInlineComment_eq, scanComment_append hp.noComment_cons,
    scanComment_cons (by rintro ⟨-, h, -⟩; exact absurd h (by decide))]
  by_cases hq : BalancedQuotes p
  · -- outside quotes the hash sign ends the scan
    refine iff_of_true ?_ hq
    rw [scanComment, if_pos ⟨(hstep _).mpr hq, rfl, rfl⟩, rstripSpaces_concat, hz]
    exact rstripSpaces_append_cons hspace p' []
  · -- inside quotes it stays
    refine iff_of_false (fun h => ?_) hq
    rw [scanComment_cons (fun h => hq ((hstep _).mp h.1)), List.append_cons,
      rstripSpaces_append_cons (by decide), List.append_assoc] at h
    exact absurd (List.append_right_eq_self.mp h) (List.cons_ne_nil _ _)

theorem inlineScalar_plain (line column : ℕ) :
    inlineScalar (commented p c) line column = .ok p ↔ BalancedQuotes p := by
  obtain ⟨t, ht⟩ := rtrim_commented p c
  rw [← stripInlineComment_plain hp t, inlineScalar, ht]
  obtain ⟨a, p', rfl, ha, -⟩ := hp.exists_cons
  have hdouble : ¬(a == kDoubleQuote) := fun h => ha (by rw [eq_of_beq h]; decide)
  have hsingle : ¬(a == kSingleQuote) := fun h => ha (by rw [eq_of_beq h]; decide)
  have hforbidden (s : Str) : ¬isForbiddenLead (a :: s) := by
    have hsub : ∀ b ∈ str "&*![\x7b", isIndicator b := by decide
    exact fun h => ha (hsub a (by simpa [isForbiddenLead] using h))
  rw [List.cons_append]
  dsimp only
  rw [if_neg hdouble, if_neg hsingle, if_neg (hforbidden _), Except.ok.injEq]

theorem isCommentOnly_plain : isCommentOnly (commented p c) = false := by
  obtain ⟨t, ht⟩ := rtrim_commented p c
  obtain ⟨p', z, hz, hspace⟩ := hp.exists_concat
  -- the scalar stays in front of whatever the scanner keeps
  have hstrip : stripInlineComment (p ++ ch ' ' :: ch '#' :: t) ≠ [] := by
    rw [stripInlineComment_eq, scanComment_append hp.noComment_cons, hz, List.append_assoc,
      List.singleton_append, rstripSpaces_append_cons hspace]
    exact List.append_ne_nil_of_right_ne_nil _ (List.cons_ne_nil _ _)
  obtain ⟨a, p'', rfl, ha, -⟩ := hp.exists_cons
  have hhash : a ≠ ch '#' := by
    rintro rfl
    exact ha (by decide)
  rw [isCommentOnly, ht, Bool.and_eq_false_iff, Bool.or_eq_false_iff]
  exact Or.inr ⟨by simpa [commented] using hhash, by simpa using hstrip⟩

theorem isBlockHeader_plain : isBlockHeader (commented p c) = false := by
  obtain ⟨a, p', rfl, ha, -⟩ := hp.exists_cons
  refine isBlockHeader_eq_false ?_ ?_ _
  · rintro rfl
    exact ha (by decide)
  · rintro rfl
    exact ha (by decide)

theorem commented_isEmpty : (commented p c).isEmpty = false := by
  obtain ⟨a, p', rfl, -⟩ := hp.exists_cons
  rfl

/-- The value of an entry is the scalar exactly when the quotes of the scalar are closed. -/
theorem entryValue_plain (value : ValueParser) (indent : ℕ) (ln : Line) (keySize : ℕ)
    (rest : List Line) (node : Node) (after : List Line) :
    entryValue value indent ln keySize (commented p c) rest = .ok (node, after) ↔
      ∃ text, inlineScalar (commented p c) ln.lineNo (ln.indent + 1 + keySize + 2) = .ok text ∧
        node = .scalar text ln.lineNo (ln.indent + 1 + keySize + 2) ∧ after = rest := by
  rw [entryValue]
  dsimp only
  rw [commented_isEmpty hp, isCommentOnly_plain hp, isBlockHeader_plain hp, if_neg (by decide),
    if_neg (by decide), bind_eq_ok]
  refine exists_congr fun text => and_congr_right fun _ => ?_
  constructor
  · intro h
    obtain ⟨rfl, rfl⟩ := Prod.mk.inj (Except.ok.inj h)
    exact ⟨rfl, rfl⟩
  · rintro ⟨rfl, rfl⟩
    rfl

end Value

/-! ### The key on a line -/

/-- The key before a separator is split off exactly when its quotes are closed; otherwise what is
split off goes on behind the separator. -/
theorem splitKey_plain {k p : Str} (hk : PlainScalar k) (hp : PlainScalar p) (c : Str) :
    splitKey (k ++ ch ':' :: ch ' ' :: commented p c) =
      if BalancedQuotes k then some (k, commented p c)
      else (scanKey (outside.run (k ++ [ch ':'])) (ch ' ' :: commented p c)).map
        fun (k', v) => (k ++ ch ':' :: k', v) := by
  have hspaces : (commented p c).dropWhile (· == ch ' ') = commented p c := by
    obtain ⟨a, p', rfl, -, ha⟩ := hp.exists_cons
    exact List.dropWhile_cons_of_neg fun h => ha (by rw [eq_of_beq h]; rfl)
  rw [splitKey_entry hk.noKey, hspaces]

/-- A key that starts with no quote only loses its trailing blanks. -/
theorem mappingKey_plain {k : Str} (hk : PlainScalar k) (k' : Str) (line column : ℕ) :
    mappingKey (k ++ k') line column = .ok (Str.rtrim (k ++ k')) := by
  obtain ⟨a, s, rfl, ha, -⟩ := hk.exists_cons
  have hdouble : a ≠ kDoubleQuote := fun h => ha (by rw [h]; decide)
  have hsingle : a ≠ kSingleQuote := fun h => ha (by rw [h]; decide)
  rw [mappingKey, if_neg (by simpa using hdouble), if_neg (by simpa using hsingle)]

theorem rtrim_plain {k : Str} (hk : PlainScalar k) : k.rtrim = k :=
  List.rdropWhile_eq_self_iff.mpr fun hne => hk.last _ (List.getLast_mem_getLast? hne)

/-! ### The lines -/

/-- The line `k: p # c` is read as the key and the scalar, in a block mapping and in one that starts
on a dash line, whatever lines follow. -/
def ReadsEntry (k p c : Str) : Prop :=
  ∀ (value : ValueParser) (ln : Line) (rest after : List Line) (fuel : ℕ)
    (entries : List (Str × Node)), ln.payload = k ++ ch ':' :: ch ' ' :: commented p c →
    (mappingLoop value ln.indent fuel rest = .ok (entries, after) →
      ∃ line column, mappingLoop value ln.indent (fuel + 1) (ln :: rest) =
        .ok ((k, .scalar p line column) :: entries, after)) ∧
    (compactLoop value ln.indent fuel rest = .ok (entries, after) →
      ∃ line column, compactLoop value ln.indent (fuel + 1) (ln :: rest) =
        .ok ((k, .scalar p line column) :: entries, after))

/-- The line `- p # c` is read as the scalar, whatever lines follow. -/
def ReadsItem (p c : Str) : Prop :=
  ∀ (value : ValueParser) (ln : Line) (rest after : List Line) (fuel : ℕ) (items : List Node),
    ln.payload = ch '-' :: ch ' ' :: commented p c →
    sequenceLoop value ln.indent fuel rest = .ok (items, after) →
    ∃ line column, sequenceLoop value ln.indent (fuel + 1) (ln :: rest) =
      .ok (.scalar p line column :: items, after)

theorem readsEntry_iff {k p : Str} (hk : PlainScalar k) (hp : PlainScalar p) (c : Str) :
    ReadsEntry k p c ↔ BalancedQuotes k ∧ BalancedQuotes p := by
  have hsplit := splitKey_plain hk hp c
  have hlead {s : Str} (hs : s = k ++ ch ':' :: ch ' ' :: commented p c) :
      ∃ a t, s = a :: t ∧ a ≠ ch '#' ∧ a ≠ ch '-' := by
    obtain ⟨a, k', rfl, ha, -⟩ := hk.exists_cons
    exact ⟨a, _, hs, fun h => ha (by rw [h]; decide), fun h => ha (by rw [h]; decide)⟩
  constructor
  · intro h
    let ln : Line := ⟨1, 0, k ++ ch ':' :: ch ' ' :: commented p c⟩
    obtain ⟨line, column, hread⟩ :=
      (h (fun _ _ => .ok (.empty, [])) ln [] [] 0 [] rfl).1 rfl
    obtain ⟨a, s, hs, hhash, hdash⟩ := hlead (rfl : ln.payload = _)
    rw [mappingLoop_cons hs hhash hdash, hsplit] at hread
    split_ifs at hread with hquotes
    · -- the key is split off, so the value is the scalar
      obtain ⟨key, -, hread⟩ := bind_eq_ok.mp hread
      obtain ⟨⟨node, rest⟩, hentry, hread⟩ := bind_eq_ok.mp hread
      obtain ⟨⟨entries, rest'⟩, -, hread⟩ := bind_eq_ok.mp hread
      obtain ⟨text, htext, rfl, -⟩ := (entryValue_plain hp c _ _ _ _ _ _ _).mp hentry
      obtain ⟨hentry, -⟩ := List.cons.inj (Prod.mk.inj (Except.ok.inj hread)).1
      obtain ⟨rfl, -⟩ := Node.scalar.inj (Prod.mk.inj hentry).2
      exact ⟨hquotes, (inlineScalar_plain hp c _ _).mp htext⟩
    · -- the key that is split off, if any, is longer
      cases hscan : scanKey (outside.run (k ++ [ch ':'])) (ch ' ' :: commented p c) with
      | none =>
        rw [hscan] at hread
        exact absurd (Prod.mk.inj (Except.ok.inj hread)).1 nofun
      | some found =>
        rw [hscan] at hread
        obtain ⟨key, hkey, hread⟩ := bind_eq_ok.mp hread
        obtain ⟨⟨node, rest⟩, hentry, hread⟩ := bind_eq_ok.mp hread
        obtain ⟨⟨entries, rest'⟩, -, hread⟩ := bind_eq_ok.mp hread
        obtain ⟨hentry, -⟩ := List.cons.inj (Prod.mk.inj (Except.ok.inj hread)).1
        obtain rfl : key = k := (Prod.mk.inj hentry).1
        rw [mappingKey_plain hk, Str.rtrim, rdropWhile_append_cons (by decide)] at hkey
        exact absurd (List.append_right_eq_self.mp (Except.ok.inj hkey)) (List.cons_ne_nil _ _)
  · rintro ⟨hquotes, hvalue⟩ value ln rest after fuel entries hln
    obtain ⟨a, s, hs, hhash, hdash⟩ := hlead hln
    have hkey : mappingKey k ln.lineNo (ln.indent + 1) = .ok k := by
      have hkey := mappingKey_plain hk [] ln.lineNo (ln.indent + 1)
      rwa [List.append_nil, rtrim_plain hk] at hkey
    have hentry := (entryValue_plain hp c value ln.indent ln k.length rest _ rest).mpr
      ⟨p, (inlineScalar_plain hp c _ _).mpr hvalue, rfl, rfl⟩
    refine ⟨fun hrest => ⟨ln.lineNo, ln.indent + 1 + k.length + 2, ?_⟩,
      fun hrest => ⟨ln.lineNo, ln.indent + 1 + k.length + 2, ?_⟩⟩
    · rw [mappingLoop_cons hs hhash hdash, hln, hsplit, if_pos hquotes]
      dsimp only
      rw [hkey, ok_bind, hentry, ok_bind, hrest]
      rfl
    · rw [compactLoop_cons hs hhash hdash, hln, hsplit, if_pos hquotes]
      dsimp only
      rw [hentry, ok_bind, hrest]
      rfl

/-- A plain scalar with closed quotes and its comment hold no key separator exactly when the scalar
does not end with a colon and the comment holds none. -/
theorem splitKey_commented {p : Str} (hp : PlainScalar p) (hq : BalancedQuotes p) (c : Str) :
    splitKey (commented p c) = none ↔ p.getLast? ≠ some (ch ':') ∧ NoKeyMark c := by
  rw [splitKey_eq]
  by_cases hlast : p.getLast? = some (ch ':')
  · refine iff_of_false (fun h => ?_) fun h => h.1 hlast
    obtain ⟨a, rfl⟩ := List.getLast?_eq_some_iff.mp hlast
    have hrun : outside.run a = outside := by
      rw [BalancedQuotes, run_append] at hq
      exact (step_eq_outside_iff (by decide) (by decide) _).mp hq
    refine ((scanKey_eq_none_iff _ _).mp h a (ch ' ' :: ch '#' :: ch ' ' :: c) ?_ hrun).2 rfl
    rw [commented, List.append_assoc]
    rfl
  · have hscan := @scanKey_append p (ch ' ') (noKey_concat hp.noKey fun _ => hlast) outside
      (ch '#' :: ch ' ' :: c)
    -- the bytes before the comment leave the scanner outside quotes
    have hrun : outside.run p = outside := hq
    have hspace (s : Str) : scanKey outside (ch ' ' :: s) = (scanKey outside s).map
        fun (k, v) => (ch ' ' :: k, v) := scanKey_skip (Or.inr (by decide)) s
    have hhash (s : Str) : scanKey outside (ch '#' :: s) = (scanKey outside s).map
        fun (k, v) => (ch '#' :: k, v) := scanKey_skip (Or.inr (by decide)) s
    rw [hrun, hspace, hhash, hspace] at hscan
    rw [commented, hscan, NoKeyMark]
    simp only [Option.map_eq_none_iff, scanKey_eq_none_iff]
    exact (and_iff_right hlast).symm

theorem readsItem_iff {p : Str} (hp : PlainScalar p) (c : Str) :
    ReadsItem p c ↔ BalancedQuotes p ∧ p.getLast? ≠ some (ch ':') ∧ NoKeyMark c := by
  have hitem {value : ValueParser} {ln : Line} {rest : List Line}
      (hln : ln.payload = ch '-' :: ch ' ' :: commented p c)
        (hkey : splitKey (commented p c) = none) :
      sequenceItem value ln rest = (do
        let text ← inlineScalar (commented p c) ln.lineNo (ln.indent + 1 + 2)
        pure (.scalar text ln.lineNo (ln.indent + 1 + 2), rest)) := by
    have hcontent : ln.payload.drop 2 = commented p c := by rw [hln]; rfl
    rw [sequenceItem]
    dsimp only
    rw [hcontent, commented_isEmpty hp, if_neg (by decide), hkey]
  constructor
  · intro h
    let ln : Line := ⟨1, 0, ch '-' :: ch ' ' :: commented p c⟩
    obtain ⟨line, column, hread⟩ := h (fun _ _ => .ok (.empty, [])) ln [] [] 0 [] rfl rfl
    have hln : ln.payload = ch '-' :: ch ' ' :: commented p c := rfl
    rw [sequenceLoop_cons hln] at hread
    obtain ⟨⟨item, rest⟩, hread', hread⟩ := bind_eq_ok.mp hread
    obtain ⟨⟨items, rest'⟩, -, hread⟩ := bind_eq_ok.mp hread
    obtain ⟨rfl, -⟩ := List.cons.inj (Prod.mk.inj (Except.ok.inj hread)).1
    cases hkey : splitKey (commented p c) with
    | none =>
      rw [hitem hln hkey] at hread'
      obtain ⟨text, htext, hread'⟩ := bind_eq_ok.mp hread'
      obtain ⟨rfl, -⟩ := Node.scalar.inj (Prod.mk.inj (Except.ok.inj hread')).1
      have hquotes := (inlineScalar_plain hp c _ _).mp htext
      exact ⟨hquotes, (splitKey_commented hp hquotes c).mp hkey⟩
    | some found =>
      -- with a key the item is a mapping
      have hcontent : ln.payload.drop 2 = commented p c := rfl
      rw [sequenceItem] at hread'
      dsimp only at hread'
      rw [hcontent, commented_isEmpty hp, if_neg (by decide), hkey] at hread'
      obtain ⟨⟨node, rest₂⟩, -, hread'⟩ := bind_eq_ok.mp hread'
      obtain ⟨⟨entries, rest₃⟩, -, hread'⟩ := bind_eq_ok.mp hread'
      exact absurd (Prod.mk.inj (Except.ok.inj hread')).1 nofun
  · rintro ⟨hquotes, hkey⟩ value ln rest after fuel items hln hrest
    have htext := (inlineScalar_plain hp c ln.lineNo (ln.indent + 1 + 2)).mpr hquotes
    refine ⟨ln.lineNo, ln.indent + 1 + 2, ?_⟩
    rw [sequenceLoop_cons hln, hitem hln ((splitKey_commented hp hquotes c).mpr hkey), htext,
      ok_bind]
    dsimp only [pure, Except.pure]
    rw [ok_bind, hrest]
    rfl

/-- **Which lines with comments are read as their plain scalars.** An entry of a mapping is read as
its key and its scalar when the quotes in the key and in the scalar are closed, and only then. An
item of a sequence is read as its scalar when the quotes in it are closed, it does not end with a
colon and its comment has no key separator outside quotes, and only then. -/
theorem plainLine_iff {k p : Str} (hk : PlainScalar k) (hp : PlainScalar p) (c : Str) :
    (ReadsEntry k p c ↔ BalancedQuotes k ∧ BalancedQuotes p) ∧
    (ReadsItem p c ↔ BalancedQuotes p ∧ p.getLast? ≠ some (ch ':') ∧ NoKeyMark c) :=
  ⟨readsEntry_iff hk hp c, readsItem_iff hp c⟩

/-- An apostrophe in the comment does no harm. -/
theorem plainLine_createFile :
    ReadsEntry (str "api") (str "CreateFile") (str "it's here") ∧
    ReadsItem (str "CreateFile") (str "it's here") := by
  have hk : PlainScalar (str "api") := by decide
  have hp : PlainScalar (str "CreateFile") := by decide
  have hline := plainLine_iff hk hp (str "it's here")
  exact ⟨hline.1.mpr (by decide), hline.2.mpr
    ⟨by decide, by decide, (scanKey_eq_none_iff outside (str "it's here")).mp (by decide)⟩⟩

/-- An apostrophe in the scalar hides its comment, one in the key hides the separator, and a
separator in the comment of an item makes it a mapping. -/
theorem plain_text_changed :
    (PlainScalar (str "don't") ∧ PlainScalar (str "foo")) ∧
    parse (str "k: don't # note") =
      .ok (.mapping [(str "k", .scalar (str "don't # note") 1 4)] 1 1) ∧
    parse (str "- foo # see: bar") =
      .ok (.sequence [.mapping [(str "foo # see", .scalar (str "bar") 1 14)] 1 1] 1 1) ∧
    ¬ReadsEntry (str "foo") (str "don't") (str "note") ∧
    ¬ReadsEntry (str "don't") (str "foo") (str "note") ∧
    ¬ReadsItem (str "don't") (str "note") ∧ ¬ReadsItem (str "foo") (str "see: bar") := by
  have hapostrophe : PlainScalar (str "don't") := by decide
  have hfoo : PlainScalar (str "foo") := by decide
  have hopen : ¬BalancedQuotes (str "don't") := by decide
  refine ⟨⟨hapostrophe, hfoo⟩, rfl, rfl, fun h => ?_, fun h => ?_, fun h => ?_, fun h => ?_⟩
  · exact hopen ((readsEntry_iff hfoo hapostrophe _).mp h).2
  · exact hopen ((readsEntry_iff hapostrophe hfoo _).mp h).1
  · exact hopen ((readsItem_iff hapostrophe _).mp h).1
  · have hmark := ((readsItem_iff hfoo _).mp h).2.2
    exact absurd ((scanKey_eq_none_iff _ _).mpr hmark) (by decide)

end Papa.Util.Yaml
