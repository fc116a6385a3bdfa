import Papa.Util.YamlScalar

/-!
# Quoted scalars

The quoted scalars of the YAML subset as a grammar: a text between apostrophes with every apostrophe
doubled, or between quotation marks with escapes. Every such scalar is read as the text it encodes.

## Main definitions

* `Papa.Util.Yaml.EscapedBody`: bodies of double-quoted scalars and the texts they encode.
* `Papa.Util.Yaml.QuotedScalar`: quoted scalars and the texts they encode.
* `Papa.Util.Yaml.Closes`: what may follow the closing quote.

## Main results

* `Papa.Util.Yaml.QuotedScalar.inlineScalar_append`: a quoted scalar is read as its text.
-/

namespace Papa.Util.Yaml

/-! ### The grammar -/

/-- The body of a double-quoted scalar and the text it encodes. -/
inductive EscapedBody : Str → Str → Prop
  | nil : EscapedBody [] []
  | plain {body v : Str} (c : UInt8) (hslash : c ≠ ch '\\') (hquote : c ≠ kDoubleQuote)
      (h : EscapedBody body v) : EscapedBody (c :: body) (c :: v)
  | simple {body v : Str} {n byte : UInt8} (hn : simpleEscape n = some byte)
      (h : EscapedBody body v) : EscapedBody (ch '\\' :: n :: body) (byte :: v)
  | byte {body v : Str} {a b : UInt8} {code : ℕ} (hcode : hexValue [a, b] = some code)
      (h : EscapedBody body v) :
      EscapedBody (ch '\\' :: ch 'x' :: a :: b :: body) (UInt8.ofNat code :: v)
  | codePoint {body v : Str} {a b c d : UInt8} {code : ℕ}
      (hcode : hexValue [a, b, c, d] = some code) (hscalar : ¬(0xD800 ≤ code ∧ code ≤ 0xDFFF))
      (h : EscapedBody body v) :
      EscapedBody (ch '\\' :: ch 'u' :: a :: b :: c :: d :: body) (utf8 code ++ v)

/-- A quoted scalar and the text it encodes. -/
inductive QuotedScalar : Str → Str → Prop
  | single (v : Str) : QuotedScalar (kSingleQuote :: (encodeSingleQuoted v ++ [kSingleQuote])) v
  | double {body v : Str} (h : EscapedBody body v) :
      QuotedScalar (kDoubleQuote :: (body ++ [kDoubleQuote])) v

/-- Every text has a double-quoted form, which is on one line. -/
theorem exists_escapedBody (v : Str) :
    ∃ body, EscapedBody body v ∧ ∀ c ∈ body, c ≠ 10 ∧ c ≠ 13 := by
  induction v with
  | nil => exact ⟨[], .nil, by simp⟩
  | cons c v ih =>
    obtain ⟨body, hbody, hline⟩ := ih
    have hescape (n : UInt8) (hn : simpleEscape n = some c) (hbreak : n ≠ 10 ∧ n ≠ 13) :
        ∃ body, EscapedBody body (c :: v) ∧ ∀ c ∈ body, c ≠ 10 ∧ c ≠ 13 :=
      ⟨ch '\\' :: n :: body, .simple hn hbody, List.forall_mem_cons.mpr
        ⟨by decide, List.forall_mem_cons.mpr ⟨hbreak, hline⟩⟩⟩
    by_cases hslash : c = ch '\\'
    · exact hescape (ch '\\') (by rw [hslash]; decide) (by decide)
    by_cases hquote : c = kDoubleQuote
    · exact hescape kDoubleQuote (by rw [hquote]; decide) (by decide)
    by_cases hfeed : c = 10
    · exact hescape (ch 'n') (by rw [hfeed]; decide) (by decide)
    by_cases hreturn : c = 13
    · exact hescape (ch 'r') (by rw [hreturn]; decide) (by decide)
    · exact ⟨c :: body, .plain c hslash hquote hbody,
        List.forall_mem_cons.mpr ⟨⟨hfeed, hreturn⟩, hline⟩⟩

/-! ### Decoding -/

theorem decodeDoubleQuoted_of_escapedBody {body v : Str} (h : EscapedBody body v)
    (line column : ℕ) : decodeDoubleQuoted line column body = .ok v := by
  induction h with
  | nil => rfl
  | plain c hslash _ _ ih =>
    rw [decodeDoubleQuoted.eq_def]
    dsimp only
    rw [if_pos (by simpa using hslash), ih]
    rfl
  | simple hn _ ih =>
    rw [decodeDoubleQuoted.eq_def]
    dsimp only
    rw [if_neg (by simp), hn]
    dsimp only
    rw [ih]
    rfl
  | byte hcode _ ih =>
    rw [decodeDoubleQuoted, if_neg (by simp), show simpleEscape (ch 'x') = none by decide]
    dsimp only
    rw [if_pos (by decide), hcode, ih]
    rfl
  | codePoint hcode hscalar _ ih =>
    rw [decodeDoubleQuoted, if_neg (by simp), show simpleEscape (ch 'u') = none by decide]
    dsimp only
    rw [if_neg (by decide), if_pos (by decide), hcode, ih]
    dsimp only
    rw [if_neg hscalar]
    rfl

/-! ### Closing quotes -/

theorem closingDouble_plain {c : UInt8} (hslash : c ≠ ch '\\') (hquote : c ≠ kDoubleQuote) {s : Str}
    (hs : s ≠ []) : closingDouble (c :: s) = (closingDouble s).map (c :: ·) := by
  obtain ⟨d, rest, rfl⟩ := List.exists_cons_of_ne_nil hs
  rw [closingDouble, if_neg (by simpa using hslash), if_neg (by simpa using hquote)]

theorem closingDouble_escape (n : UInt8) (s : Str) :
    closingDouble (ch '\\' :: n :: s) = (closingDouble s).map fun body => ch '\\' :: n :: body := by
  rw [closingDouble, if_pos (by simp)]

/-- A hexadecimal digit closes no scalar and starts no escape. -/
theorem ne_of_hexValue {digits : Str} {code : ℕ} (h : hexValue digits = some code) :
    ∀ c ∈ digits, c ≠ ch '\\' ∧ c ≠ kDoubleQuote := by
  intro c hc
  have hsome := isSome_digit_of_digitsFrom h c hc
  constructor
  · rintro rfl
    exact absurd hsome (by decide)
  · rintro rfl
    exact absurd hsome (by decide)

/-- The quotation mark after a body closes the scalar. -/
theorem closingDouble_of_escapedBody {body v : Str} (h : EscapedBody body v) (t : Str) :
    closingDouble (body ++ kDoubleQuote :: t) = some body := by
  have hne (s : Str) : s ++ kDoubleQuote :: t ≠ [] := List.append_ne_nil_of_right_ne_nil s nofun
  induction h with
  | nil => cases t <;> rfl
  | plain c hslash hquote _ ih =>
    rw [List.cons_append, closingDouble_plain hslash hquote (hne _), ih]
    rfl
  | simple _ _ ih =>
    rw [List.cons_append, List.cons_append, closingDouble_escape, ih]
    rfl
  | byte hcode _ ih =>
    have hplain := ne_of_hexValue hcode
    simp only [List.forall_mem_cons] at hplain
    obtain ⟨⟨ha, ha'⟩, ⟨hb, hb'⟩, -⟩ := hplain
    simp only [List.cons_append]
    rw [closingDouble_escape, closingDouble_plain ha ha' (List.cons_ne_nil _ _),
      closingDouble_plain hb hb' (hne _), ih]
    rfl
  | codePoint hcode _ _ ih =>
    have hplain := ne_of_hexValue hcode
    simp only [List.forall_mem_cons] at hplain
    obtain ⟨⟨ha, ha'⟩, ⟨hb, hb'⟩, ⟨hc, hc'⟩, ⟨hd, hd'⟩, -⟩ := hplain
    simp only [List.cons_append]
    rw [closingDouble_escape, closingDouble_plain ha ha' (List.cons_ne_nil _ _),
      closingDouble_plain hb hb' (List.cons_ne_nil _ _),
      closingDouble_plain hc hc' (List.cons_ne_nil _ _), closingDouble_plain hd hd' (hne _), ih]
    rfl

/-- The apostrophe after a body closes the scalar, if no other one follows it. -/
theorem closingSingle_encode (v : Str) {t : Str} (ht : t.head? ≠ some kSingleQuote) :
    closingSingle (encodeSingleQuoted v ++ kSingleQuote :: t) = some (encodeSingleQuoted v) := by
  induction v with
  | nil =>
    cases t with
    | nil => rfl
    | cons d t =>
      have hd : ¬(d == kSingleQuote) := fun h => ht (congrArg some (eq_of_beq h))
      change closingSingle (kSingleQuote :: d :: t) = some []
      rw [closingSingle, if_neg (by decide), if_neg hd]
  | cons c v ih =>
    rw [encodeSingleQuoted, List.flatMap_cons]
    change closingSingle ((_ ++ encodeSingleQuoted v) ++ _) = some (_ ++ encodeSingleQuoted v)
    by_cases hc : c = kSingleQuote
    · subst hc
      rw [if_pos (beq_self_eq_true _)]
      change closingSingle (kSingleQuote :: kSingleQuote :: (encodeSingleQuoted v ++ _)) = _
      rw [closingSingle, if_neg (by simp), if_pos (by simp), ih]
      rfl
    · rw [if_neg (by simpa using hc), List.singleton_append, List.cons_append]
      obtain ⟨d, rest, hrest⟩ := List.exists_cons_of_ne_nil
        (List.append_ne_nil_of_right_ne_nil (encodeSingleQuoted v)
          (List.cons_ne_nil kSingleQuote t))
      rw [hrest] at ih ⊢
      rw [closingSingle, if_pos (by simpa using hc), ih]
      rfl

/-! ### The scalar on a line -/

/-- The last quote of a quoted scalar closes it in front of a text: an apostrophe after it would
double it. -/
def Closes (s t : Str) : Prop := s.head? = some kSingleQuote → t.head? ≠ some kSingleQuote

instance (s t : Str) : Decidable (Closes s t) :=
  inferInstanceAs (Decidable (_ → _))

theorem closes_nil (s : Str) : Closes s [] := fun _ => nofun

/-- A text that opens with no hash sign and no blank is no comment. -/
theorem isCommentOnly_cons {c : UInt8} (hhash : c ≠ ch '#') (hblank : ¬Str.isWs c) (t : Str) :
    isCommentOnly (c :: t) = false := by
  have hspace : c ≠ ch ' ' := fun h => hblank (by rw [h]; rfl)
  have hrtrim : Str.rtrim (c :: t) = c :: t.rtrim := Str.rtrim_append_cons hblank [] t
  -- the first byte stays in front of whatever the scanner keeps
  have hmem : c ∈ beforeComment false false (ch ' ') (c :: t.rtrim) := by
    cases t.rtrim with
    | nil => simp [beforeComment, hhash]
    | cons d rest =>
      rw [beforeComment]
      split_ifs with _ _ _ hcomment
      · exact List.mem_cons_self
      · exact List.mem_cons_self
      · exact List.mem_cons_self
      · exact absurd hcomment (by simp [hhash])
      · exact List.mem_cons_self
  have hstrip : stripInlineComment (c :: t.rtrim) ≠ [] := fun hnil =>
    hspace (eq_of_beq (List.rdropWhile_eq_nil_iff.mp hnil c hmem))
  simp [isCommentOnly, hrtrim, hhash, hstrip]

namespace QuotedScalar

variable {s v : Str}

/-- A quoted scalar starts and ends with its quote. -/
theorem exists_eq (h : QuotedScalar s v) :
    ∃ q body, (q = kSingleQuote ∨ q = kDoubleQuote) ∧ s = q :: (body ++ [q]) := by
  cases h with
  | single => exact ⟨_, _, Or.inl rfl, rfl⟩
  | double => exact ⟨_, _, Or.inr rfl, rfl⟩

theorem append_isEmpty_eq_false (h : QuotedScalar s v) (t : Str) : (s ++ t).isEmpty = false := by
  obtain ⟨q, body, -, rfl⟩ := h.exists_eq
  rfl

/-- Trimming stops at the closing quote. -/
theorem rtrim_append (h : QuotedScalar s v) (t : Str) : Str.rtrim (s ++ t) = s ++ t.rtrim := by
  obtain ⟨q, body, hq, rfl⟩ := h.exists_eq
  have hblank : ¬Str.isWs q := by rcases hq with rfl | rfl <;> decide
  rw [← List.cons_append, List.append_assoc, List.append_assoc, List.singleton_append,
    List.singleton_append, Str.rtrim_append_cons hblank]

/-- **A quoted scalar is read as the text it encodes**, whatever follows its closing quote. -/
theorem inlineScalar_append (h : QuotedScalar s v) {t : Str} (ht : Closes s t) (line column : ℕ) :
    inlineScalar (s ++ t) line column = .ok v := by
  rw [inlineScalar, h.rtrim_append]
  cases h with
  | single =>
    have hhead : t.rtrim.head? ≠ some kSingleQuote := by
      intro hhead
      obtain ⟨tail, htail⟩ := List.rdropWhile_prefix Str.isWs t
      refine ht rfl ?_
      rw [← htail]
      exact List.head?_append.trans (by rw [Str.rtrim] at hhead; rw [hhead]; rfl)
    rw [List.cons_append, List.append_assoc, List.singleton_append]
    dsimp only
    rw [if_neg (by decide), if_pos (by decide), closingSingle_encode v hhead]
    exact congrArg Except.ok (decodeSingleQuoted_encode v)
  | double h =>
    rw [List.cons_append, List.append_assoc, List.singleton_append]
    dsimp only
    rw [if_pos (by decide), closingDouble_of_escapedBody h]
    exact decodeDoubleQuoted_of_escapedBody h line column

/-- A line that opens with a quoted scalar is no comment. -/
theorem isCommentOnly_append_eq_false (h : QuotedScalar s v) (t : Str) :
    isCommentOnly (s ++ t) = false := by
  obtain ⟨q, body, hq, rfl⟩ := h.exists_eq
  refine isCommentOnly_cons ?_ ?_ _
  · rcases hq with rfl | rfl <;> decide
  · rcases hq with rfl | rfl <;> decide

/-- A text that opens with a quoted scalar is no header of a block scalar. -/
theorem isBlockHeader_append_eq_false (h : QuotedScalar s v) (t : Str) :
    isBlockHeader (s ++ t) = false := by
  obtain ⟨q, body, hq, rfl⟩ := h.exists_eq
  have hheads : q ≠ ch '|' ∧ q ≠ ch '>' := by rcases hq with rfl | rfl <;> decide
  exact Yaml.isBlockHeader_eq_false hheads.1 hheads.2 _

theorem isEmpty_eq_false (h : QuotedScalar s v) : s.isEmpty = false :=
  (List.append_nil s).symm ▸ h.append_isEmpty_eq_false []

/-- A quoted scalar alone is read as the text it encodes. -/
theorem inlineScalar_eq (h : QuotedScalar s v) (line column : ℕ) :
    inlineScalar s line column = .ok v := by
  have halone := h.inlineScalar_append (closes_nil s) line column
  rwa [List.append_nil] at halone

/-- A quoted scalar is no comment. -/
theorem isCommentOnly_eq_false (h : QuotedScalar s v) : isCommentOnly s = false := by
  have halone := h.isCommentOnly_append_eq_false []
  rwa [List.append_nil] at halone

/-- A quoted scalar is no header of a block scalar. -/
theorem isBlockHeader_eq_false (h : QuotedScalar s v) : isBlockHeader s = false := by
  have halone := h.isBlockHeader_append_eq_false []
  rwa [List.append_nil] at halone

end QuotedScalar

end Papa.Util.Yaml
