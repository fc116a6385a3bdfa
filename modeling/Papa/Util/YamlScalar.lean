import Papa.Exceptions
import Papa.Util.FromChars

/-!
# Scalars of the YAML subset

The scanners that run inside one line: comments, quoted scalars and the separator of a key. Each is
a recursion on the rest of the line that carries the quotes it is inside of.

## Main definitions

* `Papa.Util.Yaml.stripInlineComment`: a plain scalar without its comment.
* `Papa.Util.Yaml.decodeDoubleQuoted`, `Papa.Util.Yaml.decodeSingleQuoted`: the bodies of quoted
  scalars.
* `Papa.Util.Yaml.splitKey`: the parts of a line before and after its key separator.
* `Papa.Util.Yaml.inlineScalar`: the scalar on the line of its dash or key.
* `Papa.Util.Yaml.blockText`: the text of a block scalar from its lines.

## Main results

* `Papa.Util.Yaml.decodeSingleQuoted_encode`: doubling the quotes of a text and decoding gives it
  back.
* `Papa.Util.Yaml.eq_of_splitKey`: a key and its value are parts of the line.
-/

namespace Papa.Util.Yaml

/-- An error of the YAML parser, at a position of the text. -/
def yamlErr (line column : ℕ) (what : Str) : PapaError where
  kind := .yamlParseError
  detail := str "line " ++ toStr line ++ str ":" ++ toStr column ++ str ": " ++ what

/-- The apostrophe. -/
def kSingleQuote : UInt8 := 39

/-- The quotation mark. -/
def kDoubleQuote : UInt8 := ch '"'

/-- A text without its trailing spaces, which are not all its trailing blanks. -/
def rstripSpaces (s : Str) : Str := s.rdropWhile (· == ch ' ')

/-! ### Comments -/

/-- What comes before the comment of a plain scalar. `before` is the byte before the rest; the
start of the line counts as a space. -/
def beforeComment (inSingle inDouble : Bool) (before : UInt8) : Str → Str
  | [] => []
  | [c] =>
    if !inSingle && !inDouble && c == ch '#' && before == ch ' ' then [] else [c]
  | c :: d :: rest =>
    if c == ch '\\' && inDouble then c :: d :: beforeComment inSingle inDouble d rest
    else if c == kSingleQuote && !inDouble then
      c :: beforeComment (!inSingle) inDouble c (d :: rest)
    else if c == kDoubleQuote && !inSingle then
      c :: beforeComment inSingle (!inDouble) c (d :: rest)
    else if !inSingle && !inDouble && c == ch '#' && before == ch ' ' then []
    else c :: beforeComment inSingle inDouble c (d :: rest)

/-- A plain scalar without its trailing comment and the spaces before that. -/
def stripInlineComment (s : Str) : Str := rstripSpaces (beforeComment false false (ch ' ') s)

/-! ### Quoted scalars -/

/-- The byte a one-letter escape stands for. -/
def simpleEscape (c : UInt8) : Option UInt8 :=
  if c == ch 'n' then some 10
  else if c == ch 't' then some 9
  else if c == ch 'r' then some 13
  else if c == ch '\\' then some (ch '\\')
  else if c == kDoubleQuote then some kDoubleQuote
  else if c == ch '/' then some (ch '/')
  else if c == ch '0' then some 0
  else if c == ch 'a' then some 7
  else if c == ch 'b' then some 8
  else if c == ch 'f' then some 12
  else if c == ch 'v' then some 11
  else none

/-- A code point below `0x10000` in UTF-8. -/
def utf8 (code : ℕ) : Str :=
  if code < 0x80 then [UInt8.ofNat code]
  else if code < 0x800 then [UInt8.ofNat (0xC0 + code / 64), UInt8.ofNat (0x80 + code % 64)]
  else [UInt8.ofNat (0xE0 + code / 4096), UInt8.ofNat (0x80 + code / 64 % 64),
    UInt8.ofNat (0x80 + code % 64)]

/-- The value of a run of hexadecimal digits. -/
def hexValue (s : Str) : Option ℕ := digitsFrom 16 0 s

/-- Decode the body of a double-quoted scalar. -/
def decodeDoubleQuoted (line column : ℕ) : Str → Expected Str
  | [] => .ok []
  | c :: rest =>
    if c != ch '\\' then do
      let out ← decodeDoubleQuoted line column rest
      pure (c :: out)
    else match rest with
      | [] => .error (yamlErr line column (str "trailing backslash in double-quoted string"))
      | n :: rest =>
        match simpleEscape n with
        | some byte => do
          let out ← decodeDoubleQuoted line column rest
          pure (byte :: out)
        | none =>
          if n == ch 'x' then
            match rest with
            | a :: b :: rest =>
              match hexValue [a, b] with
              | none => .error (yamlErr line column (str "invalid hex digit in \\xNN escape"))
              | some code => do
                let out ← decodeDoubleQuoted line column rest
                pure (UInt8.ofNat code :: out)
            | _ => .error (yamlErr line column
                (str "truncated \\xNN escape in double-quoted string"))
          else if n == ch 'u' then
            match rest with
            | a :: b :: c :: d :: rest =>
              match hexValue [a, b, c, d] with
              | none => .error (yamlErr line column (str "invalid hex digit in \\uNNNN escape"))
              | some code =>
                if 0xD800 ≤ code ∧ code ≤ 0xDFFF then
                  .error (yamlErr line column (str "surrogate code point in \\uNNNN escape"))
                else do
                  let out ← decodeDoubleQuoted line column rest
                  pure (utf8 code ++ out)
            | _ => .error (yamlErr line column
                (str "truncated \\uNNNN escape in double-quoted string"))
          else .error (yamlErr line column (str "unknown escape in double-quoted string"))

/-- Decode the body of a single-quoted scalar: two apostrophes stand for one. -/
def decodeSingleQuoted : Str → Str
  | [] => []
  | [c] => [c]
  | c :: d :: rest =>
    if c == kSingleQuote && d == kSingleQuote then kSingleQuote :: decodeSingleQuoted rest
    else c :: decodeSingleQuoted (d :: rest)

/-- Write a text as the body of a single-quoted scalar. -/
def encodeSingleQuoted (v : Str) : Str :=
  v.flatMap fun c => if c == kSingleQuote then [c, c] else [c]

theorem decodeSingleQuoted_cons {c : UInt8} (hc : c ≠ kSingleQuote) (s : Str) :
    decodeSingleQuoted (c :: s) = c :: decodeSingleQuoted s := by
  cases s with
  | nil => rfl
  | cons d s => simp [decodeSingleQuoted, hc]

/-- **Doubling the apostrophes of a text and decoding gives it back.** -/
theorem decodeSingleQuoted_encode (v : Str) : decodeSingleQuoted (encodeSingleQuoted v) = v := by
  induction v with
  | nil => rfl
  | cons c v ih =>
    rw [encodeSingleQuoted, List.flatMap_cons]
    change decodeSingleQuoted (_ ++ encodeSingleQuoted v) = _
    by_cases hc : c = kSingleQuote
    · subst hc
      rw [if_pos (beq_self_eq_true _)]
      exact congrArg (kSingleQuote :: ·) ih
    · rw [if_neg (by simpa using hc), List.singleton_append, decodeSingleQuoted_cons hc, ih]

/-- What comes before the closing quotation mark, if there is one. -/
def closingDouble : Str → Option Str
  | [] => none
  | [c] => if c == kDoubleQuote then some [] else none
  | c :: d :: rest =>
    if c == ch '\\' then (closingDouble rest).map fun body => c :: d :: body
    else if c == kDoubleQuote then some []
    else (closingDouble (d :: rest)).map (c :: ·)

/-- What comes before the closing apostrophe, if there is one: two in a row do not close. -/
def closingSingle : Str → Option Str
  | [] => none
  | [c] => if c == kSingleQuote then some [] else none
  | c :: d :: rest =>
    if c != kSingleQuote then (closingSingle (d :: rest)).map (c :: ·)
    else if d == kSingleQuote then (closingSingle rest).map fun body => c :: d :: body
    else some []

/-- The constructs of the full language that are rejected at their first byte. -/
def isForbiddenLead (s : Str) : Bool := s.head?.any fun c => (str "&*![\x7b").contains c

/-- The scalar on the line of its dash or key. -/
def inlineScalar (body : Str) (line column : ℕ) : Expected Str :=
  match body.rtrim with
  | [] => .ok []
  | c :: rest =>
    if c == kDoubleQuote then
      match closingDouble rest with
      | none => .error (yamlErr line column (str "unterminated double-quoted string"))
      | some quoted => decodeDoubleQuoted line column quoted
    else if c == kSingleQuote then
      match closingSingle rest with
      | none => .error (yamlErr line column (str "unterminated single-quoted string"))
      | some quoted => .ok (decodeSingleQuoted quoted)
    else if isForbiddenLead (c :: rest) then
      .error (yamlErr line column
        (str "anchors, aliases, tags, and flow collections are not supported"))
    else .ok (stripInlineComment (c :: rest))

/-! ### Keys -/

/-- The loop of `splitKey`, on the rest of the line. -/
def splitKeyFrom (inSingle inDouble : Bool) : Str → Option (Str × Str)
  | [] => none
  | [c] => if !inSingle && !inDouble && c == ch ':' then some ([], []) else none
  | c :: d :: rest =>
    if c == ch '\\' && inDouble then
      (splitKeyFrom inSingle inDouble rest).map fun (k, v) => (c :: d :: k, v)
    else if c == kSingleQuote && !inDouble then
      (splitKeyFrom (!inSingle) inDouble (d :: rest)).map fun (k, v) => (c :: k, v)
    else if c == kDoubleQuote && !inSingle then
      (splitKeyFrom inSingle (!inDouble) (d :: rest)).map fun (k, v) => (c :: k, v)
    else if !inSingle && !inDouble && c == ch ':' && d == ch ' ' then
      some ([], (d :: rest).dropWhile (· == ch ' '))
    else (splitKeyFrom inSingle inDouble (d :: rest)).map fun (k, v) => (c :: k, v)

/-- Split a line at the first colon outside quotes that ends it or has a space after it. -/
def splitKey (payload : Str) : Option (Str × Str) := splitKeyFrom false false payload

theorem eq_of_splitKeyFrom {inSingle inDouble : Bool} {s k v : Str}
    (h : splitKeyFrom inSingle inDouble s = some (k, v)) :
    ∃ n, s = k ++ ch ':' :: (List.replicate n (ch ' ') ++ v) := by
  fun_induction splitKeyFrom inSingle inDouble s generalizing k v with
  | case1 => exact nomatch h
  | case2 _ _ c hc =>
    obtain ⟨rfl, rfl⟩ := Prod.mk.inj (Option.some.inj h)
    simp only [Bool.and_eq_true, beq_iff_eq] at hc
    exact ⟨0, by rw [hc.2]; rfl⟩
  | case3 => exact nomatch h
  | case4 _ _ c d rest _ ih =>
    obtain ⟨⟨k', v'⟩, hk, heq⟩ := Option.map_eq_some_iff.mp h
    obtain ⟨rfl, rfl⟩ := Prod.mk.inj heq
    obtain ⟨n, hn⟩ := ih hk
    exact ⟨n, by rw [hn]; rfl⟩
  | case7 _ _ c d rest _ _ _ hc =>
    obtain ⟨rfl, rfl⟩ := Prod.mk.inj (Option.some.inj h)
    simp only [Bool.and_eq_true, beq_iff_eq] at hc
    refine ⟨((d :: rest).takeWhile (· == ch ' ')).length, ?_⟩
    have hspaces : (d :: rest).takeWhile (· == ch ' ') =
        List.replicate ((d :: rest).takeWhile (· == ch ' ')).length (ch ' ') :=
      List.eq_replicate_iff.mpr ⟨rfl, fun b hb =>
        eq_of_beq (List.mem_takeWhile_imp (p := (· == ch ' ')) hb)⟩
    rw [← hspaces, List.takeWhile_append_dropWhile, hc.1.2]
    rfl
  | case5 _ _ c d rest _ _ ih | case6 _ _ c d rest _ _ _ ih | case8 _ _ c d rest _ _ _ _ ih =>
    obtain ⟨⟨k', v'⟩, hk, heq⟩ := Option.map_eq_some_iff.mp h
    obtain ⟨rfl, rfl⟩ := Prod.mk.inj heq
    obtain ⟨n, hn⟩ := ih hk
    exact ⟨n, by rw [hn]; rfl⟩

/-- **A key and its value are parts of the line**: a colon and spaces stand between them. -/
theorem eq_of_splitKey {payload k v : Str} (h : splitKey payload = some (k, v)) :
    ∃ n, payload = k ++ ch ':' :: (List.replicate n (ch ' ') ++ v) :=
  eq_of_splitKeyFrom h

/-- A key of bytes that are no quotes and no colons ends at the first colon before a space. -/
theorem splitKey_append {k : Str}
    (hk : ∀ c ∈ k, c ≠ kSingleQuote ∧ c ≠ kDoubleQuote ∧ c ≠ ch ':') (v : Str) :
    splitKey (k ++ ch ':' :: ch ' ' :: v) = some (k, v.dropWhile (· == ch ' ')) := by
  rw [splitKey]
  induction k with
  | nil => rfl
  | cons c k ih =>
    obtain ⟨⟨hsingle, hdouble, hcolon⟩, hk⟩ := List.forall_mem_cons.mp hk
    obtain ⟨d, rest, hrest⟩ := List.exists_cons_of_ne_nil
      (List.append_ne_nil_of_right_ne_nil k (List.cons_ne_nil (ch ':') (ch ' ' :: v)))
    have htail := ih hk
    rw [hrest] at htail
    rw [List.cons_append, hrest, splitKeyFrom]
    simp [hsingle, hdouble, hcolon, htail]

/-- A value that is only a comment counts as an empty one. -/
def isCommentOnly (v : Str) : Bool :=
  !v.isEmpty && (v.head? == some (ch '#') || (stripInlineComment v.rtrim).isEmpty)

/-- The key of a block mapping, whose quotes are removed. -/
def mappingKey (raw : Str) (line column : ℕ) : Expected Str :=
  if raw.head? == some kDoubleQuote then
    if raw.length < 2 || raw.getLast? != some kDoubleQuote then
      .error (yamlErr line column (str "unterminated double-quoted key"))
    else decodeDoubleQuoted line column (raw.drop 1).dropLast
  else if raw.head? == some kSingleQuote then
    if raw.length < 2 || raw.getLast? != some kSingleQuote then
      .error (yamlErr line column (str "unterminated single-quoted key"))
    else .ok (decodeSingleQuoted (raw.drop 1).dropLast)
  else .ok raw.rtrim

/-! ### Block scalars -/

/-- The headers of a block scalar. -/
def isBlockHeader (v : Str) : Bool :=
  [str "|", str ">", str "|-", str "|+", str ">-", str ">+"].contains v

theorem isBlockHeader_eq_false {c : UInt8} (hliteral : c ≠ ch '|') (hfolded : c ≠ ch '>')
    (s : Str) : isBlockHeader (c :: s) = false := by
  have hheads : ∀ header ∈ [str "|", str ">", str "|-", str "|+", str ">-", str ">+"],
      header.head? = some (ch '|') ∨ header.head? = some (ch '>') := by decide
  rw [isBlockHeader, Bool.eq_false_iff, Ne, List.contains_iff_mem]
  intro hmem
  rcases hheads _ hmem with hhead | hhead
  · exact hliteral (Option.some.inj hhead)
  · exact hfolded (Option.some.inj hhead)

/-- Replace a space at the end of a text with a line break, or give `none`. -/
def breakLastSpace (s : Str) : Option Str :=
  if s.getLast? == some (ch ' ') then some (s.dropLast ++ [10]) else none

/-- One line of a folded block: an empty line turns the pending space into a line break, or adds
one; any other line is followed by a pending space. -/
def foldLine (out raw : Str) : Str :=
  if raw.isEmpty then (breakLastSpace out).getD (out ++ [10]) else out ++ raw ++ [ch ' ']

/-- The text of a block scalar of the given style before chomping. -/
def joinLines (style : UInt8) (raws : List Str) : Str :=
  if style == ch '|' then raws.flatMap (· ++ [10])
  else
    let out := raws.foldl foldLine []
    (breakLastSpace out).getD out

/-- The line breaks at the end of a block scalar: none, all, or one at most. -/
def chompLines (chomp : Option UInt8) (out : Str) : Str :=
  let body := out.rdropWhile (· == 10)
  if chomp == some (ch '-') then body
  else if chomp == some (ch '+') then out
  else if out.getLast? == some 10 then body ++ [10] else out

/-- The text of a block scalar. The chomping mark is the first one on the line of the header,
where the key stands too. -/
def blockText (header : Str) (style : UInt8) (raws : List Str) : Str :=
  chompLines (header.find? fun c => c == ch '-' || c == ch '+') (joinLines style raws)

end Papa.Util.Yaml
