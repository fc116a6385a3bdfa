import Mathlib.Algebra.Group.Nat.Defs
import Papa.Util.RegexPrefilter

/-!
# Numbers from text

`std::from_chars` where the caller also asks that the pattern reach the end of the text: the
conversion succeeds when all of the text is a number of the given kind and its value fits.

## Main definitions

* `Papa.Util.hexNibble`: the value of a hexadecimal digit.
* `Papa.Util.fromChars`: an unsigned number of 64 bits.
* `Papa.Util.fromCharsDouble`: a `double`, rounded to the nearest with ties to even.

## Main results

* `Papa.Util.fromChars_lt`: what is read fits 64 bits.
-/

namespace Papa.Util

/-! ### Unsigned numbers -/

/-- The value of a hexadecimal digit of either case. -/
def hexNibble (c : UInt8) : Option ℕ :=
  if isDigit c then some (c - ch '0').toNat
  else if ch 'a' ≤ c && c ≤ ch 'f' then some (10 + (c - ch 'a').toNat)
  else if ch 'A' ≤ c && c ≤ ch 'F' then some (10 + (c - ch 'A').toNat)
  else none

/-- The value of a digit in a base up to sixteen. -/
def digit (base : ℕ) (c : UInt8) : Option ℕ := (hexNibble c).filter (· < base)

/-- The value of a text of digits after what was read so far. -/
def digitsFrom (base : ℕ) (acc : ℕ) : Str → Option ℕ
  | [] => some acc
  | c :: rest => (digit base c).bind fun d => digitsFrom base (acc * base + d) rest

/-- A text with a value is a text of digits. -/
theorem isSome_digit_of_digitsFrom {base acc n : ℕ} {s : Str} (h : digitsFrom base acc s = some n) :
    ∀ c ∈ s, (digit base c).isSome := by
  induction s generalizing acc with
  | nil => exact fun c hc => absurd hc List.not_mem_nil
  | cons c s ih =>
    obtain ⟨d, hd, hrest⟩ := Option.bind_eq_some_iff.mp h
    exact List.forall_mem_cons.mpr ⟨Option.isSome_of_mem hd, ih hrest⟩

/-- The value of a text that is one digit or more. -/
def digits (base : ℕ) (s : Str) : Option ℕ := if s.isEmpty then none else digitsFrom base 0 s

/-- `std::from_chars` for an unsigned number of 64 bits: no sign, no base prefix, no rest. -/
def fromChars (base : ℕ) (s : Str) : Option ℕ := (digits base s).filter (· < 2 ^ 64)

/-- **What is read fits 64 bits.** -/
theorem fromChars_lt {base n : ℕ} {s : Str} (h : fromChars base s = some n) : n < 2 ^ 64 := by
  have hlt := (Option.filter_eq_some_iff.mp h).2
  exact of_decide_eq_true hlt

/-! ### Doubles -/

/-- The nearest natural number to a ratio, the even one of two equally near. -/
def roundHalfEven (p q : ℕ) : ℕ :=
  let n := p / q
  let r := p % q
  if 2 * r < q then n else if q < 2 * r then n + 1 else n + n % 2

/-- The exponent of the last bit of the significand of a positive ratio: it has 53 bits, fewer in
the subnormal range. -/
def lastBit (p q : ℕ) : ℤ :=
  let e : ℤ := p.log2 - q.log2
  let atLeast := if 0 ≤ e then q * 2 ^ e.toNat ≤ p else q ≤ p * 2 ^ (-e).toNat
  max ((if atLeast then e else e - 1) - 52) (-1074)

/-- The bits of the `double` nearest to a ratio, or `none` when that is infinite, or zero for a
ratio that is not. -/
def doubleOfRatio (p q : ℕ) : Option UInt64 :=
  if p = 0 then some 0
  else
    let k := lastBit p q
    let n := roundHalfEven (p * 2 ^ (-k).toNat) (q * 2 ^ k.toNat)
    -- a carry out of the significand goes into the exponent field
    let bits := (k + 1074).toNat * 2 ^ 52 + n
    if bits = 0 ∨ 0x7FF * 2 ^ 52 ≤ bits then none else some (UInt64.ofNat bits)

/-- A signed exponent. -/
def exponent (s : Str) : Option ℤ :=
  match s with
  | [] => none
  | c :: rest =>
    if c == ch '-' then (digits 10 rest).map fun n => -(n : ℤ)
    else if c == ch '+' then (digits 10 rest).map fun n => (n : ℤ)
    else (digits 10 s).map fun n => (n : ℤ)

/-- The digits of a decimal number and the power of ten they are multiplied by. -/
def decimal (s : Str) : Option (ℕ × ℤ) := do
  let mark := s.findIdx fun c => c == ch 'e' || c == ch 'E'
  let mantissa := s.take mark
  let dot := mantissa.findIdx (· == ch '.')
  let fraction := mantissa.drop (dot + 1)
  let n ← digits 10 (mantissa.take dot ++ fraction)
  let e ← if mark < s.length then exponent (s.drop (mark + 1)) else some 0
  pure (n, e - fraction.length)

/-- The bits of an infinity or a quiet NaN, from its name. -/
def nonFinite (s : Str) : Option UInt64 :=
  let name := s.map fold
  let payload := (name.drop 4).dropLast
  if name = str "inf" ∨ name = str "infinity" then some 0x7FF0000000000000
  else if name = str "nan" then some 0x7FF8000000000000
  else if (str "nan(").isPrefixOf name && name.getLast? == some (ch ')') &&
      payload.all (fun c => isAlnum c || c == ch '_') then some 0x7FF8000000000000
  else none

/-- `std::from_chars` for a `double`: an optional minus sign, then a decimal number with an
optional exponent or the name of a value that is not finite. -/
def fromCharsDouble (s : Str) : Option UInt64 :=
  let negative := s.head? == some (ch '-')
  let body := if negative then s.drop 1 else s
  let magnitude := (nonFinite body).or <| (decimal body).bind fun (n, e) =>
    doubleOfRatio (n * 10 ^ e.toNat) (10 ^ (-e).toNat)
  magnitude.map fun bits => if negative then bits ||| 0x8000000000000000 else bits

example : fromCharsDouble (str "-1.5e1") = some 0xC02E000000000000 := by decide +kernel

end Papa.Util
