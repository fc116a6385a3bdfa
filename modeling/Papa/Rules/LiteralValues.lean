import Mathlib.Algebra.Group.Int.Defs
import Papa.Rules.Leaf

/-!
# The values of integer literals

An integer literal is a sign, a mark for hexadecimal and digits, and stands for an integer. A
literal without a minus sign is read as that integer or rejected; so is one with a minus sign,
except that the literal of `-2 ^ 63` makes the parser negate the least signed number, which is
undefined, and that a zero with a minus sign is a signed number although it is not negative. An
offset that is not negative wraps around when it does not fit its signed type.

## Main definitions

* `Papa.Rules.IntLiteral`: integer literals with their text and their value.
* `Papa.Rules.negatedOperand`: the number the parser negates.
* `Papa.Rules.ReadsNumber`, `Papa.Rules.ReadsOffset`: what exact literals are read as.

## Main results

* `Papa.Rules.parseNumber_text`: what the number parser does with an integer literal.
* `Papa.Rules.literal_exact_iff`: which literals are exact.
-/

namespace Papa.Rules

open Features Util

/-! ### Literals -/

/-- The sign of a literal. -/
inductive LiteralSign
  | none | plus | minus
  deriving DecidableEq

/-- The text of a sign. -/
def LiteralSign.text : LiteralSign → Str
  | none => []
  | plus => str "+"
  | minus => str "-"

/-- The mark of a hexadecimal literal, of either case, or none for a decimal one. -/
inductive LiteralMark
  | decimal | lower | upper
  deriving DecidableEq

namespace LiteralMark

/-- The text of a mark. -/
def text : LiteralMark → Str
  | decimal => []
  | lower => str "0x"
  | upper => str "0X"

/-- The base a mark announces. -/
def base : LiteralMark → ℕ
  | decimal => 10
  | _ => 16

end LiteralMark

/-- An integer literal: one digit or more of the base its mark announces. -/
structure IntLiteral where
  sign : LiteralSign
  mark : LiteralMark
  digits : Str
  digits_ne_nil : digits ≠ []
  digits_valid : ∀ c ∈ digits, (digit mark.base c).isSome

namespace IntLiteral

variable (lit : IntLiteral)

/-- The text after the sign. -/
def body : Str := lit.mark.text ++ lit.digits

/-- The text of a literal. -/
def text : Str := lit.sign.text ++ lit.body

/-- The number its digits stand for. -/
def magnitude : ℕ :=
  lit.digits.foldl (fun n c => n * lit.mark.base + (digit lit.mark.base c).getD 0) 0

/-- The integer a literal stands for. -/
def value : ℤ := if lit.sign = .minus then -lit.magnitude else lit.magnitude

end IntLiteral

/-! ### Undefined arithmetic -/

/-- The sign and the magnitude `parseNumber` reads from a text that is no `double`. -/
def readMagnitude (s : Str) : Bool × Option ℕ :=
  let signed := s.head? == some (ch '+') || s.head? == some (ch '-')
  let body := if signed then s.drop 1 else s
  (s.head? == some (ch '-'),
    if hasHexMark body then fromChars 16 (body.drop 2) else fromChars 10 body)

/-- The signed number `parseNumber` negates, if it comes to that. -/
def negatedOperand (s : Str) : Option Int64 :=
  match readMagnitude s with
  | (true, some mag) => if 2 ^ 63 < mag then none else some (UInt64.ofNat mag).toInt64
  | _ => none

/-- The arithmetic of `parseNumber` on an integer literal is defined: it does not negate the least
signed number. -/
def ArithmeticDefined (s : Str) : Prop := negatedOperand s ≠ some Int64.minValue

/-! ### Digits -/

theorem digitsFrom_eq {base : ℕ} {s : Str} (h : ∀ c ∈ s, (digit base c).isSome) (acc : ℕ) :
    digitsFrom base acc s = some (s.foldl (fun n c => n * base + (digit base c).getD 0) acc) := by
  induction s generalizing acc with
  | nil => rfl
  | cons c s ih =>
    obtain ⟨d, hd⟩ := Option.isSome_iff_exists.mp (h c List.mem_cons_self)
    rw [digitsFrom, hd, Option.bind_some, ih fun c' hc' => h c' (List.mem_cons_of_mem _ hc'),
      List.foldl_cons, hd, Option.getD_some]

namespace IntLiteral

variable (lit : IntLiteral)

theorem fromChars_digits : fromChars lit.mark.base lit.digits =
    if lit.magnitude < 2 ^ 64 then some lit.magnitude else none := by
  have hempty : ¬lit.digits.isEmpty := fun h => lit.digits_ne_nil (List.isEmpty_iff.mp h)
  rw [fromChars, Util.digits, if_neg hempty, digitsFrom_eq lit.digits_valid, Option.filter_some]
  simp only [decide_eq_true_eq]
  rfl

/-- A byte that is no digit is not among the digits. -/
theorem ne_of_mem_digits {lit : IntLiteral} {c x : UInt8} (hc : c ∈ lit.digits)
    (hx : digit lit.mark.base x = none) : c ≠ x := by
  rintro rfl
  exact Option.not_isSome_iff_eq_none.mpr hx (lit.digits_valid c hc)

theorem hasHexMark_body : hasHexMark lit.body = decide (lit.mark ≠ .decimal) := by
  obtain ⟨sign, mark, digits, hne, hvalid⟩ := lit
  cases mark with
  | lower => rfl
  | upper => rfl
  | decimal =>
    cases digits with
    | nil => exact absurd rfl hne
    | cons c cs =>
      cases cs with
      | nil => simp [hasHexMark, body, LiteralMark.text, str, List.isPrefixOf]
      | cons d ds =>
        have hd := hvalid d (List.mem_cons_of_mem _ List.mem_cons_self)
        have hx : ch 'x' ≠ d := by rintro rfl; exact absurd hd (by decide)
        have hX : ch 'X' ≠ d := by rintro rfl; exact absurd hd (by decide)
        simp [hasHexMark, body, LiteralMark.text, str, List.isPrefixOf, hx, hX]

/-- What follows the sign is no sign. -/
theorem exists_body : ∃ c cs, lit.body = c :: cs ∧ c ≠ ch '+' ∧ c ≠ ch '-' := by
  obtain ⟨sign, mark, digits, hne, hvalid⟩ := lit
  obtain ⟨c, cs, rfl⟩ := List.exists_cons_of_ne_nil hne
  cases mark with
  | lower => exact ⟨ch '0', ch 'x' :: c :: cs, rfl, by decide, by decide⟩
  | upper => exact ⟨ch '0', ch 'X' :: c :: cs, rfl, by decide, by decide⟩
  | decimal =>
    have hc := hvalid c List.mem_cons_self
    refine ⟨c, cs, rfl, ?_, ?_⟩
    · rintro rfl
      exact absurd hc (by decide)
    · rintro rfl
      exact absurd hc (by decide)

theorem drop_body (h : lit.mark ≠ .decimal) : lit.body.drop 2 = lit.digits := by
  rw [body]
  cases hmark : lit.mark with
  | decimal => exact absurd hmark h
  | lower => rfl
  | upper => rfl

theorem hasHexMark_cons {c : UInt8} (h : c ≠ ch '0') (cs : Str) : hasHexMark (c :: cs) = false := by
  simp [hasHexMark, str, List.isPrefixOf, h.symm]

/-- The parts the parser looks at. -/
theorem text_parts :
    lit.text ≠ [] ∧ (lit.text.head? == some (ch '-')) = decide (lit.sign = .minus) ∧
      (if lit.text.head? == some (ch '+') || lit.text.head? == some (ch '-') then lit.text.drop 1
        else lit.text) = lit.body ∧
      (hasHexMark lit.text || ((lit.text.head? == some (ch '+') ||
        lit.text.head? == some (ch '-')) && hasHexMark (lit.text.drop 1))) =
          decide (lit.mark ≠ .decimal) := by
  obtain ⟨c, cs, hbody, hplus, hminus⟩ := lit.exists_body
  have hhex := lit.hasHexMark_body
  rw [text, hbody] at *
  cases lit.sign with
  | none => simp [LiteralSign.text, hplus, hminus, hhex]
  | plus =>
    have hno : hasHexMark (ch '+' :: c :: cs) = false := hasHexMark_cons (by decide) _
    have hne : ch '+' ≠ ch '-' := by decide
    simp [LiteralSign.text, str, hhex, hno, hne]
  | minus =>
    have hno : hasHexMark (ch '-' :: c :: cs) = false := hasHexMark_cons (by decide) _
    simp [LiteralSign.text, str, hhex, hno]

/-- A decimal literal has neither a point nor an exponent. -/
theorem not_mem_text {x : UInt8} (h : lit.mark = .decimal) (hx : digit 10 x = none)
    (hsign : x ∉ lit.sign.text) : x ∉ lit.text := by
  intro hmem
  rcases List.mem_append.mp hmem with hmem | hmem
  · exact hsign hmem
  · rw [body, h] at hmem
    exact ne_of_mem_digits hmem (by rw [h]; exact hx) rfl

/-- The digits are converted in the base their mark announces. -/
theorem fromChars_body :
    fromChars (if hasHexMark lit.body then 16 else 10)
      (if hasHexMark lit.body then lit.body.drop 2 else lit.body) =
        if lit.magnitude < 2 ^ 64 then some lit.magnitude else none := by
  rw [lit.hasHexMark_body, ← lit.fromChars_digits]
  cases hmark : lit.mark with
  | decimal => rw [if_neg (by decide), if_neg (by decide), body, hmark]; rfl
  | lower => rw [if_pos (by decide), if_pos (by decide), lit.drop_body (by simp [hmark])]; rfl
  | upper => rw [if_pos (by decide), if_pos (by decide), lit.drop_body (by simp [hmark])]; rfl

/-- The sign and the magnitude that are read from a literal. -/
theorem readMagnitude_text : readMagnitude lit.text =
    (decide (lit.sign = .minus), if lit.magnitude < 2 ^ 64 then some lit.magnitude else none) := by
  obtain ⟨-, hneg, hbody, -⟩ := lit.text_parts
  simp only [readMagnitude]
  rw [hbody, hneg, ← lit.fromChars_body]
  cases hasHexMark lit.body <;> rfl

/-- **What the number parser does with an integer literal.** -/
theorem parseNumber_text : parseNumber lit.text =
    if 2 ^ 64 ≤ lit.magnitude then .error (ruleError (str "invalid integer: " ++ lit.text))
    else if lit.sign = .minus then
      if 2 ^ 63 < lit.magnitude then
        .error (ruleError (str "negative magnitude overflows int64: " ++ lit.text))
      else .ok (.int64 (-(UInt64.ofNat lit.magnitude).toInt64))
    else .ok (.uint64 (UInt64.ofNat lit.magnitude)) := by
  obtain ⟨hne, hneg, hbody, hhex⟩ := lit.text_parts
  have hfloat : (!decide (lit.mark ≠ .decimal) && (lit.text.contains (ch '.') ||
      lit.text.contains (ch 'e') || lit.text.contains (ch 'E'))) = false := by
    by_cases hmark : lit.mark = .decimal
    · have hno {x : UInt8} (hx : digit 10 x = none) (hsign : ∀ sign : LiteralSign, x ∉ sign.text) :
          lit.text.contains x = false := by
        simpa using lit.not_mem_text hmark hx (hsign lit.sign)
      rw [hno (by decide) (by rintro (_ | _ | _) <;> decide),
        hno (by decide) (by rintro (_ | _ | _) <;> decide),
        hno (by decide) (by rintro (_ | _ | _) <;> decide)]
      simp
    · simp [hmark]
  have hempty : ¬lit.text.isEmpty := fun h => hne (List.isEmpty_iff.mp h)
  rw [parseNumber]
  dsimp only
  rw [if_neg hempty, hhex, hfloat, if_neg Bool.false_ne_true, hbody, hneg, lit.fromChars_body]
  by_cases hlt : lit.magnitude < 2 ^ 64
  · rw [if_pos hlt, if_neg (Nat.not_le.mpr hlt)]
    simp only [decide_eq_true_eq]
  · rw [if_neg hlt, if_pos (Nat.not_lt.mp hlt)]

/-- A literal holds no blank. -/
theorem not_isWs_of_mem_text {c : UInt8} (hc : c ∈ lit.text) : ¬Str.isWs c := by
  have hsign : ∀ sign : LiteralSign, ∀ c ∈ sign.text, ¬Str.isWs c := by
    rintro (_ | _ | _) <;> decide
  have hmark : ∀ mark : LiteralMark, ∀ c ∈ mark.text, ¬Str.isWs c := by
    rintro (_ | _ | _) <;> decide
  rcases List.mem_append.mp hc with hc | hc
  · exact hsign lit.sign c hc
  · rcases List.mem_append.mp hc with hc | hc
    · exact hmark lit.mark c hc
    · intro hws
      have hcases : c = ch ' ' ∨ c = ch '\t' := by simpa [Str.isWs] using hws
      rcases hcases with rfl | rfl
      · exact ne_of_mem_digits hc (by cases lit.mark <;> decide) rfl
      · exact ne_of_mem_digits hc (by cases lit.mark <;> decide) rfl

theorem trim_text : lit.text.trim = lit.text := Str.trim_eq_self fun _ => lit.not_isWs_of_mem_text

/-- A literal has no inline description. -/
theorem splitLeafDescription_text (description : Str) :
    splitLeafDescription lit.text description = (lit.text, description) := by
  have hspace : ch ' ' ∉ lit.text := fun h => lit.not_isWs_of_mem_text h (by decide)
  rw [splitLeafDescription, splitInlineDescription, findInlineDescSep_eq_none hspace, lit.trim_text]
  simp

end IntLiteral

/-! ### Exactness -/

/-- The integer a signed number is, from the unsigned number with its bits. -/
theorem toInt_toInt64_ofNat (n : ℕ) : (UInt64.ofNat n).toInt64.toInt = (n : ℤ).bmod (2 ^ 64) :=
  BitVec.toInt_ofNat n

/-- A number literal is read exactly: without undefined arithmetic, as a signed number if it is
negative and as an unsigned one if it is not, and it is rejected when it does not fit. -/
def ReadsNumber (lit : IntLiteral) : Prop :=
  ArithmeticDefined lit.text ∧
    if lit.value < 0 then
      if -2 ^ 63 ≤ lit.value then
        ∃ v : Int64, parseNumberLiteral lit.text = .ok (.int64 v) ∧ v.toInt = lit.value
      else ∃ e, parseNumberLiteral lit.text = .error e
    else if lit.value < 2 ^ 64 then
      ∃ v : UInt64, parseNumberLiteral lit.text = .ok (.uint64 v) ∧ (v.toNat : ℤ) = lit.value
    else ∃ e, parseNumberLiteral lit.text = .error e

/-- The leaf of an offset is read exactly: without undefined arithmetic, with the value of its
literal, and it is rejected when the value is outside the signed numbers. -/
def ReadsOffset (lit : IntLiteral) (key : Str) (offset : Int64 → FeatureValue) : Prop :=
  ArithmeticDefined lit.text ∧ ∀ (description : Str) (line column : ℕ),
    if -2 ^ 63 ≤ lit.value ∧ lit.value < 2 ^ 63 then
      ∃ v : Int64, buildFeatureLeaf key lit.text description line column =
        .ok { value := offset v, description := description } ∧ v.toInt = lit.value
    else ∃ e, buildFeatureLeaf key lit.text description line column = .error e

/-- The keys of operand offsets. -/
structure IsOperandOffsetKey (key : Str) (index : ℕ) : Prop where
  isPrefix : (str "operand[").isPrefixOf key
  index_eq : ∃ close, key.find (ch ']') = some close ∧
    parseSizeT ((key.take close).drop 8) = some index ∧ key.drop (close + 1) = str ".offset"
  index_le : index ≤ 4

section Exact

variable (lit : IntLiteral)

/-- **The arithmetic is defined** for every literal but that of the least signed number. -/
theorem arithmeticDefined_iff : ArithmeticDefined lit.text ↔ lit.value ≠ -2 ^ 63 := by
  have hvalue : lit.value = -2 ^ 63 ↔ lit.sign = .minus ∧ lit.magnitude = 2 ^ 63 := by
    rw [IntLiteral.value]
    split_ifs with hsign
    · simp only [hsign, true_and]
      omega
    · simp only [hsign, false_and, iff_false]
      omega
  rw [ArithmeticDefined, not_iff_not, hvalue, negatedOperand, lit.readMagnitude_text]
  by_cases hsign : lit.sign = .minus
  · rw [decide_eq_true hsign]
    simp only [hsign, true_and]
    by_cases hlt : lit.magnitude < 2 ^ 64
    · rw [if_pos hlt]
      dsimp only
      split_ifs with hbig
      · exact iff_of_false nofun (by omega)
      · rw [Option.some_inj, ← Int64.toInt_inj, toInt_toInt64_ofNat]
        change _ = (-2 ^ 63 : ℤ) ↔ _
        rw [Int.bmod_def]
        split_ifs <;> omega
    · rw [if_neg hlt]
      exact iff_of_false nofun (by omega)
  · rw [decide_eq_false hsign]
    simp [hsign]

/-- What a literal is read as, in terms of its value: the sign and the bounds decide. -/
theorem parseNumber_cases :
    (lit.sign = .minus ∧ -2 ^ 63 ≤ lit.value ∧ lit.value ≤ 0 ∧
      ∃ v : Int64, parseNumber lit.text = .ok (.int64 v) ∧ v.toInt = lit.value) ∨
    (lit.sign ≠ .minus ∧ 0 ≤ lit.value ∧ lit.value < 2 ^ 64 ∧
      ∃ v : UInt64, parseNumber lit.text = .ok (.uint64 v) ∧ (v.toNat : ℤ) = lit.value) ∨
    ((lit.value < -2 ^ 63 ∨ lit.sign ≠ .minus ∧ 2 ^ 64 ≤ lit.value) ∧
      ∃ e, parseNumber lit.text = .error e) := by
  rw [lit.parseNumber_text, IntLiteral.value]
  by_cases hsign : lit.sign = .minus
  · rw [if_pos hsign, if_pos hsign]
    by_cases hbig : 2 ^ 64 ≤ lit.magnitude
    · exact Or.inr (Or.inr ⟨Or.inl (by omega), _, if_pos hbig⟩)
    rw [if_neg hbig]
    by_cases hmag : 2 ^ 63 < lit.magnitude
    · exact Or.inr (Or.inr ⟨Or.inl (by omega), _, if_pos hmag⟩)
    refine Or.inl ⟨hsign, by omega, by omega, _, if_neg hmag, ?_⟩
    rw [Int64.toInt_neg, toInt_toInt64_ofNat, Int.bmod_def, Int.bmod_def]
    split_ifs <;> omega
  · rw [if_neg hsign, if_neg hsign]
    by_cases hbig : 2 ^ 64 ≤ lit.magnitude
    · exact Or.inr (Or.inr ⟨Or.inr ⟨hsign, by omega⟩, _, if_pos hbig⟩)
    refine Or.inr (Or.inl ⟨hsign, by omega, by omega, _, if_neg hbig, ?_⟩)
    rw [UInt64.toNat_ofNat_of_lt' (by simpa using hbig)]

/-- A leaf whose payload is the number read from its value, as an offset. -/
def IsOffsetLeaf (key : Str) (offset : Int64 → FeatureValue) : Prop :=
  ∀ value line column, ∃ fault, leafValue key value line column =
    (parseNumber value).bind fun num => ((asOffset num).map offset).elim fault .ok

theorem isOffsetLeaf_offset : IsOffsetLeaf (str "offset") .offset := by
  intro value line column
  refine ⟨leafError (str "offset cannot be floating point") line column, ?_⟩
  change numberLeaf (str "offset") value line column = _
  rw [numberLeaf]
  refine bind_congr fun num => ?_
  rw [if_neg (by decide)]
  cases asOffset num <;> rfl

theorem isOffsetLeaf_operandOffset {key : Str} {index : ℕ} (h : IsOperandOffsetKey key index) :
    IsOffsetLeaf key (.operandOffset index) := by
  intro value line column
  obtain ⟨close, hclose, hindex, hkind⟩ := h.index_eq
  refine ⟨leafError (str "operand offset cannot be floating point") line column, ?_⟩
  rw [leafValue, if_pos h.isPrefix, operandLeaf, hclose]
  dsimp only
  rw [hindex, Option.filter_some, if_pos (decide_eq_true h.index_le), hkind]
  dsimp only
  rw [if_neg (by decide)]
  refine bind_congr fun num => ?_
  rw [if_neg (by decide)]
  cases asOffset num <;> rfl

/-- **Which offset literals are read exactly**: not that of the least signed number, and none that
only fits the unsigned numbers. -/
theorem readsOffset_iff {key : Str} {offset : Int64 → FeatureValue} (h : IsOffsetLeaf key offset) :
    ReadsOffset lit key offset ↔
      lit.value ≠ -2 ^ 63 ∧ ¬(2 ^ 63 ≤ lit.value ∧ lit.value < 2 ^ 64) := by
  rw [ReadsOffset, arithmeticDefined_iff]
  refine and_congr_right fun _ => ?_
  have hbuild (description : Str) (line column : ℕ) :
      buildFeatureLeaf key lit.text description line column =
        (leafValue key lit.text line column).map fun v =>
          { value := v, description := description } := by
    rw [buildFeatureLeaf, lit.splitLeafDescription_text]
    rfl
  simp only [hbuild]
  rcases parseNumber_cases lit with ⟨-, hlo, hhi, v, hparse, hv⟩ | ⟨-, hlo, hhi, v, hparse, hv⟩ |
    ⟨hout, e, hparse⟩
  · refine iff_of_true (fun description line column => ?_) (by omega)
    obtain ⟨fault, hleaf⟩ := h lit.text line column
    rw [if_pos (by omega), hleaf, hparse]
    exact ⟨v, rfl, hv⟩
  · by_cases hfits : lit.value < 2 ^ 63
    · refine iff_of_true (fun description line column => ?_) (by omega)
      obtain ⟨fault, hleaf⟩ := h lit.text line column
      rw [if_pos (by omega), hleaf, hparse]
      refine ⟨v.toInt64, rfl, ?_⟩
      have hnat : v.toInt64.toInt = (v.toNat : ℤ).bmod (2 ^ 64) := by
        conv_lhs => rw [← UInt64.ofNat_toNat (x := v)]
        exact toInt_toInt64_ofNat _
      rw [hnat, Int.bmod_def]
      split_ifs <;> omega
    · refine iff_of_false (fun hall => ?_) (by omega)
      obtain ⟨fault, hleaf⟩ := h lit.text 0 0
      have herror := hall [] 0 0
      rw [if_neg (by omega), hleaf, hparse] at herror
      obtain ⟨e, herror⟩ := herror
      exact nomatch herror
  · refine iff_of_true (fun description line column => ?_) (by omega)
    obtain ⟨fault, hleaf⟩ := h lit.text line column
    rw [if_neg (by omega), hleaf, hparse]
    exact ⟨e, rfl⟩

/-- **Which number literals are read exactly**: all but that of the least signed number and a zero
with a minus sign. -/
theorem readsNumber_iff :
    ReadsNumber lit ↔ lit.value ≠ -2 ^ 63 ∧ ¬(lit.sign = .minus ∧ lit.value = 0) := by
  rw [ReadsNumber, arithmeticDefined_iff, parseNumberLiteral, lit.trim_text]
  refine and_congr_right fun _ => ?_
  rcases parseNumber_cases lit with ⟨hsign, hlo, hhi, v, hparse, hv⟩ |
    ⟨hsign, hlo, hhi, v, hparse, hv⟩ | ⟨hout, e, hparse⟩
  · rw [and_iff_right hsign, hparse]
    by_cases hneg : lit.value < 0
    · rw [if_pos hneg, if_pos hlo]
      exact iff_of_true ⟨v, rfl, hv⟩ (by omega)
    · -- a zero with a minus sign is a signed number
      rw [if_neg hneg, if_pos (by omega)]
      refine iff_of_false ?_ (not_not.mpr (by omega))
      rintro ⟨u, hu, -⟩
      exact absurd (Except.ok.inj hu) (by simp)
  · rw [if_neg (by omega), if_pos hhi, hparse]
    exact iff_of_true ⟨v, rfl, hv⟩ fun h => hsign h.1
  · rw [hparse]
    have hnonneg (hsign : lit.sign ≠ .minus) : 0 ≤ lit.value := by
      rw [IntLiteral.value, if_neg hsign]
      omega
    rcases hout with hlow | ⟨hsign, hhigh⟩
    · rw [if_pos (by omega), if_neg (by omega)]
      exact iff_of_true ⟨e, rfl⟩ (by omega)
    · rw [if_neg (by omega), if_neg (by omega)]
      exact iff_of_true ⟨e, rfl⟩ fun h => hsign h.1

/-- **Exact literals.** A number literal is read as the integer it stands for, or rejected, exactly
when it is neither the literal of the least signed number nor a zero with a minus sign; the leaf of
an offset or of an operand offset has the integer its literal stands for, or is rejected, exactly
when the literal is not that of the least signed number and does not stand for a number that only
fits the unsigned numbers. -/
theorem literal_exact_iff :
    (ReadsNumber lit ↔ lit.value ≠ -2 ^ 63 ∧ ¬(lit.sign = .minus ∧ lit.value = 0)) ∧
    (ReadsOffset lit (str "offset") .offset ↔
      lit.value ≠ -2 ^ 63 ∧ ¬(2 ^ 63 ≤ lit.value ∧ lit.value < 2 ^ 64)) ∧
    ∀ key index, IsOperandOffsetKey key index →
      (ReadsOffset lit key (.operandOffset index) ↔
        lit.value ≠ -2 ^ 63 ∧ ¬(2 ^ 63 ≤ lit.value ∧ lit.value < 2 ^ 64)) :=
  ⟨readsNumber_iff lit, readsOffset_iff lit isOffsetLeaf_offset,
    fun _ _ h => readsOffset_iff lit (isOffsetLeaf_operandOffset h)⟩

end Exact

/-- The literal of minus sixteen. -/
def minusSixteen : IntLiteral where
  sign := .minus
  mark := .lower
  digits := str "10"
  digits_ne_nil := by decide
  digits_valid := by decide

/-- As the offset of the third operand it is read exactly. -/
theorem literal_exact_iff_operand :
    minusSixteen.text = str "-0x10" ∧
      ReadsOffset minusSixteen (str "operand[2].offset") (.operandOffset 2) := by
  have hkey : IsOperandOffsetKey (str "operand[2].offset") 2 :=
    ⟨by decide +kernel, ⟨9, by decide +kernel, by decide +kernel, by decide +kernel⟩, by decide⟩
  exact ⟨by decide +kernel,
    ((literal_exact_iff minusSixteen).2.2 _ _ hkey).mpr (by decide +kernel)⟩

/-- The least signed number is negated, a zero with a minus sign is a signed number, and the largest
unsigned number is read as the offset minus one. -/
theorem literal_wraps :
    negatedOperand (str "-9223372036854775808") = some Int64.minValue ∧
    parseNumberLiteral (str "-0") = .ok (.int64 0) ∧
    buildFeatureLeaf (str "offset") (str "0xFFFFFFFFFFFFFFFF") [] 1 1 =
      .ok { value := .offset (-1) } ∧
    buildFeatureLeaf (str "operand[1].offset") (str "9223372036854775808") [] 1 1 =
      .ok { value := .operandOffset 1 Int64.minValue } := by
  decide +kernel

end Papa.Rules
