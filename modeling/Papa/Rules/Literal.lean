import Papa.Exceptions
import Papa.Features.Feature
import Papa.Util.FromChars

/-!
# Literals of rules

The texts inside the scalars of a rule: numbers, byte patterns, count ranges, scope names and
inline descriptions.

## Main definitions

* `Papa.Rules.parseNumber`, `Papa.Rules.parseSizeT`: numbers.
* `Papa.Rules.parseBytesLiteral`: byte patterns with wildcards.
* `Papa.Rules.parseCountRange`: the bounds of a count.
* `Papa.Rules.splitInlineDescription`: a value and the description after it.

## Main results

* `Papa.Rules.parseSizeT_le`, `Papa.Rules.parseCountRange_ok`: bounds that are read are in order
  and fit their type.
-/

namespace Papa.Rules

open Features Util

/-! ### Errors -/

/-- An error of the rule parser. -/
def ruleError (detail : Str) : PapaError where
  kind := .invalidRule
  detail := detail

/-- An error of the rule parser at a position of the document. -/
def ruleErrorAt (detail : Str) (line column : ℕ) : PapaError :=
  ruleError (toStr line ++ str ":" ++ toStr column ++ str ": " ++ detail)

/-! ### Numbers -/

/-- The largest `size_t`. -/
def kSizeMax : ℕ := 2 ^ 64 - 1

/-- A text that starts with the mark of a hexadecimal number. -/
def hasHexMark (s : Str) : Bool := (str "0x").isPrefixOf s || (str "0X").isPrefixOf s

/-- A number literal. A hexadecimal mark always means an integer; any other literal with a point or
an exponent is a `double`. -/
def parseNumber (s : Str) : Expected NumberValue :=
  let signed := s.head? == some (ch '+') || s.head? == some (ch '-')
  let isHexPrefix := hasHexMark s || (signed && hasHexMark (s.drop 1))
  if s.isEmpty then .error (ruleError (str "empty number literal"))
  else if !isHexPrefix && (s.contains (ch '.') || s.contains (ch 'e') || s.contains (ch 'E')) then
    match fromCharsDouble s with
    | none => .error (ruleError (str "invalid float: " ++ s))
    | some bits => .ok (.double bits)
  else
    let negative := s.head? == some (ch '-')
    let body := if signed then s.drop 1 else s
    let base := if hasHexMark body then 16 else 10
    let body := if hasHexMark body then body.drop 2 else body
    match fromChars base body with
    | none => .error (ruleError (str "invalid integer: " ++ s))
    | some mag =>
      if negative then
        if 2 ^ 63 < mag then
          .error (ruleError (str "negative magnitude overflows int64: " ++ s))
        else .ok (.int64 (-(UInt64.ofNat mag).toInt64))
      else .ok (.uint64 (UInt64.ofNat mag))

/-- `RuleParser::parse_number_literal`. -/
def parseNumberLiteral (text : Str) : Expected NumberValue := parseNumber text.trim

/-- A decimal or hexadecimal `size_t`. -/
def parseSizeT (s : Str) : Option ℕ :=
  let s := s.trim
  if hasHexMark s then fromChars 16 (s.drop 2) else fromChars 10 s

theorem parseSizeT_le {s : Str} {n : ℕ} (h : parseSizeT s = some n) : n ≤ kSizeMax := by
  unfold parseSizeT at h
  extract_lets s at h
  have hlt : n < 2 ^ 64 := by
    split_ifs at h
    · exact fromChars_lt h
    · exact fromChars_lt h
  exact Nat.le_sub_one_of_lt hlt

/-! ### Byte patterns -/

/-- A byte pattern, where an absent byte is a wildcard. -/
structure BytesLiteral where
  pattern : List (Option UInt8) := []
  hasWildcards : Bool := false

/-- The loop of `parseBytesLiteral`, on the rest of the text. -/
def parseBytesFrom : Str → Expected (List (Option UInt8))
  | [] => .ok []
  | [a] =>
    if Str.isWs a then .ok [] else .error (ruleError (str "bytes literal has odd nibble count"))
  | a :: b :: rest =>
    if Str.isWs a then parseBytesFrom (b :: rest)
    else if a == ch '?' && b == ch '?' then do
      let out ← parseBytesFrom rest
      pure (none :: out)
    else
      match hexNibble a, hexNibble b with
      | some hi, some lo => do
        let out ← parseBytesFrom rest
        pure (some (UInt8.ofNat (hi * 16 + lo)) :: out)
      | _, _ => .error (ruleError (str "bytes literal has invalid hex pair: " ++ [a, b]))

/-- `RuleParser::parse_bytes_literal`. -/
def parseBytesLiteral (text : Str) : Expected BytesLiteral := do
  let pattern ← parseBytesFrom text
  if pattern.isEmpty then .error (ruleError (str "bytes literal is empty"))
  else pure { pattern := pattern, hasWildcards := pattern.any Option.isNone }

/-! ### Count ranges -/

/-- The inclusive bounds of a count. -/
structure CountRange where
  min : ℕ := 0
  max : ℕ := 0
  deriving DecidableEq

/-- `RuleParser::parse_count_range`. -/
def parseCountRange (text : Str) : Expected CountRange :=
  let t := text.trim
  let error (what : String) : Expected CountRange := .error (ruleError (str what ++ t))
  if t.head? == some (ch '(') && t.getLast? == some (ch ')') then
    let body := (t.drop 1).dropLast
    match Str.find body (ch ',') with
    | none => error "count range tuple missing comma: "
    | some comma =>
      match parseSizeT (Str.trim (body.take comma)),
          parseSizeT (Str.trim (body.drop (comma + 1))) with
      | some lo, some hi =>
        if hi < lo then error "count range min > max: " else .ok { min := lo, max := hi }
      | _, _ => error "count range tuple parts not integral: "
  else if (str " or more").isSuffixOf t then
    match parseSizeT (t.take (t.length - (str " or more").length)) with
    | none => error "count range 'N or more' lacks integer: "
    | some n => .ok { min := n, max := kSizeMax }
  else if (str " or fewer").isSuffixOf t then
    match parseSizeT (t.take (t.length - (str " or fewer").length)) with
    | none => error "count range 'N or fewer' lacks integer: "
    | some n => .ok { min := 0, max := n }
  else
    match parseSizeT t with
    | none => error "count range value not integral: "
    | some n => .ok { min := n, max := n }

/-- **The bounds of a count are in order and fit their type.** -/
theorem parseCountRange_ok {text : Str} {r : CountRange} (h : parseCountRange text = .ok r) :
    r.min ≤ r.max ∧ r.max ≤ kSizeMax := by
  unfold parseCountRange at h
  extract_lets t error body at h
  split_ifs at h with htuple hmore hfewer
  · split at h
    · exact nomatch h
    · split at h
      · next lo hi hlo hhi =>
        split_ifs at h with hlt
        cases h
        exact ⟨Nat.not_lt.mp hlt, parseSizeT_le hhi⟩
      · exact nomatch h
  · split at h
    · exact nomatch h
    · next n hn =>
      cases h
      exact ⟨parseSizeT_le hn, Nat.le_refl _⟩
  · split at h
    · exact nomatch h
    · next n hn =>
      cases h
      exact ⟨Nat.zero_le _, parseSizeT_le hn⟩
  · split at h
    · exact nomatch h
    · next n hn =>
      cases h
      exact ⟨Nat.le_refl _, parseSizeT_le hn⟩

/-! ### Inline descriptions -/

/-- The loop of `findInlineDescSep`, on the rest of the text. -/
def findInlineDescSepFrom (inDq inSq : Bool) : Str → Option ℕ
  | [] => none
  | c :: rest =>
    if c == ch '"' && !inSq then (findInlineDescSepFrom (!inDq) inSq rest).map (· + 1)
    else if c == 39 && !inDq then (findInlineDescSepFrom inDq (!inSq) rest).map (· + 1)
    else if !inDq && !inSq && c == ch ' ' && (str "= ").isPrefixOf rest then some 0
    else (findInlineDescSepFrom inDq inSq rest).map (· + 1)

/-- The index of the first equals sign between spaces outside quotes. -/
def findInlineDescSep (s : Str) : Option ℕ := findInlineDescSepFrom false false s

/-- `RuleParser::split_inline_description`: a value and the description after it. -/
def splitInlineDescription (text : Str) : Str × Option Str :=
  match findInlineDescSep text with
  | none => (text.trim, none)
  | some pos =>
    (Str.trim (text.take pos), some (Str.trim (text.drop (pos + (str " = ").length))))

/-- The separator of descriptions is part of the text. -/
theorem findInlineDescSep_lt {s : Str} {pos : ℕ} (h : findInlineDescSep s = some pos) :
    pos < s.length := by
  rw [findInlineDescSep] at h
  have hloop (inDq inSq : Bool) (pos : ℕ) (h : findInlineDescSepFrom inDq inSq s = some pos) :
      pos < s.length := by
    clear * - h
    fun_induction findInlineDescSepFrom inDq inSq s generalizing pos with
    | case1 => exact nomatch h
    | case2 _ _ _ _ _ ih | case3 _ _ _ _ _ _ ih | case5 _ _ _ _ _ _ _ ih =>
      obtain ⟨i, hi, rfl⟩ := Option.map_eq_some_iff.mp h
      exact Nat.succ_lt_succ (ih i hi)
    | case4 =>
      cases h
      exact Nat.succ_pos _
  exact hloop false false pos h

/-- A text without spaces has no description in it. -/
theorem findInlineDescSep_eq_none {s : Str} (h : ch ' ' ∉ s) : findInlineDescSep s = none := by
  have hloop (inDq inSq : Bool) : findInlineDescSepFrom inDq inSq s = none := by
    fun_induction findInlineDescSepFrom inDq inSq s with
    | case1 => rfl
    | case2 _ _ _ _ _ ih => rw [ih fun hmem => h (List.mem_cons_of_mem _ hmem)]; rfl
    | case3 _ _ _ _ _ _ ih => rw [ih fun hmem => h (List.mem_cons_of_mem _ hmem)]; rfl
    | case4 _ _ c _ _ _ hsep =>
      simp only [Bool.and_eq_true, beq_iff_eq] at hsep
      exact absurd (hsep.1.2 ▸ List.mem_cons_self) h
    | case5 _ _ _ _ _ _ _ ih => rw [ih fun hmem => h (List.mem_cons_of_mem _ hmem)]; rfl
  exact hloop false false

end Papa.Rules
