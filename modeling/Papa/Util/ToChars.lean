import Papa.Library.Json
import Papa.Util.FromChars
import Mathlib.Data.Nat.Log
import Mathlib.Algebra.Order.Field.Power
import Mathlib.Data.Rat.Cast.Order
import Mathlib.Tactic.FieldSimp
import Mathlib.Tactic.GCongr
import Mathlib.Tactic.Positivity
import Mathlib.Tactic.Ring
import Mathlib.Tactic.Linarith

/-!
# Text from numbers

`std::to_chars` for integers and, without a format or a precision, for a finite `double`: the
shortest decimal text that `std::from_chars` reads back as the number, in fixed notation unless
scientific notation is shorter.

## Main definitions

* `toCharsInt`: a signed number.
* `toCharsDouble`: a finite `double`.

## Main results

* `digits_toStr`: an unsigned number is read back.
* `fromCharsDouble_toCharsDouble`: a finite `double` is read back.
-/

namespace Papa.Util

/-- `std::to_chars` for a signed number. -/
def toCharsInt (n : ℤ) : Str := if n < 0 then ch '-' :: toStr n.natAbs else toStr n.natAbs

/-! ### The value of a double -/

/-- The bits of a finite `double`: neither an infinity nor a NaN. -/
def isFinite (bits : UInt64) : Bool := bits.toNat / 2 ^ 52 % 2 ^ 11 != 0x7FF

/-- The exponent field. -/
def exponentField (bits : UInt64) : ℕ := bits.toNat / 2 ^ 52 % 2 ^ 11

/-- The significand of a finite `double` as a natural number. -/
def significand (bits : UInt64) : ℕ :=
  bits.toNat % 2 ^ 52 + if exponentField bits = 0 then 0 else 2 ^ 52

/-- The power of two that the significand is multiplied by. -/
def binaryExponent (bits : UInt64) : ℤ := max 1 (exponentField bits : ℤ) - 1075

/-- The magnitude of a finite `double` as a ratio. -/
def magnitudeRatio (bits : UInt64) : ℕ × ℕ :=
  (significand bits * 2 ^ (binaryExponent bits).toNat, 2 ^ (-binaryExponent bits).toNat)

/-! ### Notations -/

/-- The power of ten of the first digit of a positive ratio. -/
def decimalExponent (p q : ℕ) : ℤ :=
  if q ≤ p then Nat.log 10 (p / q) else -(Nat.clog 10 ((q + p - 1) / p) : ℤ)

/-- The two numbers of units of `10 ^ -scale` around a ratio, the nearer one first, or the one that
is equal to it. -/
def roundings (p q : ℕ) (scale : ℤ) : List ℕ :=
  let a := p * 10 ^ scale.toNat
  let b := q * 10 ^ (-scale).toNat
  let n := a / b
  if a % b = 0 then [n]
  else if 2 * (a % b) < b ∨ 2 * (a % b) = b ∧ n % 2 = 0 then [n, n + 1]
  else [n + 1, n]

/-- The digits of a number without the zeros at the end. -/
def stripZeros (n : ℕ) : Str :=
  let ds := (toStr n).rdropWhile (· == ch '0')
  if ds.isEmpty then str "0" else ds

/-- The exponent of scientific notation: a sign and two digits at least. -/
def exponentText (e : ℤ) : Str :=
  (if e < 0 then ch '-' else ch '+') ::
    (if e.natAbs < 10 then ch '0' :: toStr e.natAbs else toStr e.natAbs)

/-- Scientific notation, as `%e` writes it. -/
def scientific (ds : Str) (e : ℤ) : Str :=
  ds.take 1 ++ (if ds.length ≤ 1 then [] else ch '.' :: ds.drop 1) ++ ch 'e' :: exponentText e

/-- Fixed notation, as `%f` writes it. Where no digit stands after the point, all digits of the
number before it are written. -/
def fixed (ds : Str) (e : ℤ) (whole : ℕ) : Str :=
  if e < 0 then str "0." ++ List.replicate (-e - 1).toNat (ch '0') ++ ds
  else if ds.length ≤ e.toNat + 1 then toStr whole
  else ds.take (e.toNat + 1) ++ ch '.' :: ds.drop (e.toNat + 1)

/-- The texts for a positive ratio with up to 17 digits: fewer digits first, then the nearer ones,
then fixed notation. -/
def decimalTexts (p q : ℕ) : List Str :=
  (List.range 17).flatMap fun i =>
    (roundings p q (i - decimalExponent p q)).flatMap fun n =>
      let ds := stripZeros n
      -- rounding up may have added a digit
      let carry := (toStr n).length - (i + 1)
      let e := decimalExponent p q + carry
      [fixed ds e (p / q), scientific ds e]

/-- The digits of a ratio in full, times a power of ten. -/
def exactText (significand : ℕ) (e : ℤ) : Str :=
  if 0 ≤ e then toStr (significand * 2 ^ e.toNat)
  else toStr (significand * 5 ^ (-e).toNat) ++ str "e-" ++ toStr (-e).toNat

/-- The first text of least length. -/
def shortest : List Str → Option Str
  | [] => none
  | t :: ts =>
    match shortest ts with
    | none => some t
    | some u => if t.length ≤ u.length then some t else some u

/-- `std::to_chars` for a finite `double`. Seventeen digits always read back, so that the text in
full is never needed. -/
def toCharsDouble (bits : UInt64) : Str :=
  let magnitude := bits &&& 0x7FFFFFFFFFFFFFFF
  let r := magnitudeRatio magnitude
  let text :=
    if magnitude = 0 then str "0"
    else (shortest ((decimalTexts r.1 r.2).filter fun t =>
      fromCharsDouble t == some magnitude)).getD
        (exactText (significand magnitude) (binaryExponent magnitude))
  if magnitude = bits then text else ch '-' :: text

/-! ### Exact ratios -/

/-- The power of two below a ratio. -/
theorem zpow_le_ratio_iff {p q : ℕ} (hq : 0 < q) (e : ℤ) :
    (2 : ℚ) ^ e ≤ (p : ℚ) / q ↔ if 0 ≤ e then q * 2 ^ e.toNat ≤ p else q ≤ p * 2 ^ (-e).toNat := by
  have hq' : (0 : ℚ) < q := by exact_mod_cast hq
  rw [le_div_iff₀ hq']
  by_cases he : 0 ≤ e
  · obtain ⟨n, rfl⟩ := Int.eq_ofNat_of_zero_le he
    rw [if_pos he, Int.toNat_natCast, zpow_natCast, mul_comm]
    exact_mod_cast Iff.rfl
  · obtain ⟨n, hn⟩ := Int.eq_ofNat_of_zero_le (show 0 ≤ -e by omega)
    obtain rfl : e = -(n : ℤ) := by omega
    rw [if_neg he, neg_neg, Int.toNat_natCast, zpow_neg, zpow_natCast,
      inv_mul_le_iff₀ (by positivity),
      mul_comm]
    exact_mod_cast Iff.rfl

theorem log2_bounds {n : ℕ} (hn : 0 < n) :
    (2 : ℚ) ^ (n.log2 : ℤ) ≤ n ∧ (n : ℚ) < 2 ^ ((n.log2 : ℤ) + 1) := by
  have h₁ := Nat.log2_self_le (Nat.pos_iff_ne_zero.mp hn)
  have h₂ := Nat.lt_log2_self (n := n)
  constructor
  · rw [zpow_natCast]
    exact_mod_cast h₁
  · have : ((n.log2 : ℤ) + 1) = ((n.log2 + 1 : ℕ) : ℤ) := by norm_cast
    rw [this, zpow_natCast]
    exact_mod_cast h₂

/-- The exponent that `lastBit` starts from is the one of the power of two below the ratio. -/
theorem lastBit_eq {p q : ℕ} (hp : 0 < p) (hq : 0 < q) {g : ℤ} (hle : (2 : ℚ) ^ g ≤ (p : ℚ) / q)
    (hlt : (p : ℚ) / q < 2 ^ (g + 1)) : lastBit p q = max (g - 52) (-1074) := by
  have hq' : (0 : ℚ) < q := by exact_mod_cast hq
  obtain ⟨hp₁, hp₂⟩ := log2_bounds hp
  obtain ⟨hq₁, hq₂⟩ := log2_bounds hq
  have hmono : ∀ {a b : ℤ}, (2 : ℚ) ^ a < 2 ^ b → a < b := fun h =>
    (zpow_lt_zpow_iff_right₀ (by norm_num)).mp h
  -- the ratio lies between the powers of two next to the difference of the logarithms
  have hupper : (p : ℚ) / q < 2 ^ ((p.log2 : ℤ) - q.log2 + 1) := by
    rw [div_lt_iff₀ hq']
    calc (p : ℚ) < 2 ^ ((p.log2 : ℤ) + 1) := hp₂
      _ = 2 ^ ((p.log2 : ℤ) - q.log2 + 1) * 2 ^ (q.log2 : ℤ) := by
        rw [← zpow_add₀ (by norm_num)]
        congr 1
        ring
      _ ≤ 2 ^ ((p.log2 : ℤ) - q.log2 + 1) * q := by gcongr
  have hlower : (2 : ℚ) ^ ((p.log2 : ℤ) - q.log2 - 1) < (p : ℚ) / q := by
    rw [lt_div_iff₀ hq']
    calc (2 : ℚ) ^ ((p.log2 : ℤ) - q.log2 - 1) * q
        < 2 ^ ((p.log2 : ℤ) - q.log2 - 1) * 2 ^ ((q.log2 : ℤ) + 1) := by gcongr
      _ = 2 ^ (p.log2 : ℤ) := by
        rw [← zpow_add₀ (by norm_num)]
        congr 1
        ring
      _ ≤ p := hp₁
  have h₁ := hmono (hle.trans_lt hupper)
  have h₂ := hmono (hlower.trans hlt)
  have hiff := zpow_le_ratio_iff (p := p) hq ((p.log2 : ℤ) - q.log2)
  rw [lastBit]
  by_cases hat : (2 : ℚ) ^ ((p.log2 : ℤ) - q.log2) ≤ (p : ℚ) / q
  · have h₃ := hmono (hat.trans_lt hlt)
    rw [if_pos (hiff.mp hat)]
    omega
  · have h₃ := hmono (hle.trans_lt (not_le.mp hat))
    rw [if_neg (mt hiff.mpr hat)]
    omega

theorem roundHalfEven_mul (n : ℕ) {d : ℕ} (hd : 0 < d) : roundHalfEven (n * d) d = n := by
  simp only [roundHalfEven, Nat.mul_mod_left, Nat.mul_div_cancel n hd, Nat.mul_zero, hd, if_true]

/-- A ratio that is a `double` is rounded to it. -/
theorem doubleOfRatio_eq {p q s : ℕ} {k : ℤ} (hq : 0 < q) (hs : 0 < s)
    (hval : p * 2 ^ (-k).toNat = s * (q * 2 ^ k.toNat)) (hs53 : s < 2 ^ 53) (hk : -1074 ≤ k)
    (hnormal : 2 ^ 52 ≤ s ∨ k = -1074) (hfin : (k + 1074).toNat * 2 ^ 52 + s < 0x7FF * 2 ^ 52) :
    doubleOfRatio p q = some (UInt64.ofNat ((k + 1074).toNat * 2 ^ 52 + s)) := by
  have hq' : (0 : ℚ) < q := by exact_mod_cast hq
  have hp : 0 < p := by
    rcases Nat.eq_zero_or_pos p with rfl | hp
    · rw [Nat.zero_mul] at hval
      have : 0 < s * (q * 2 ^ k.toNat) := by positivity
      omega
    · exact hp
  have hratio : (p : ℚ) / q = s * 2 ^ k := by
    have hcast : (p : ℚ) * 2 ^ (-k).toNat = s * (q * 2 ^ k.toNat) := by exact_mod_cast hval
    have hpow : (2 : ℚ) ^ k = 2 ^ k.toNat / 2 ^ (-k).toNat := by
      rw [← zpow_natCast, ← zpow_natCast, ← zpow_sub₀ (by norm_num)]
      congr 1
      omega
    rw [hpow, div_eq_iff hq'.ne', mul_div_assoc', div_mul_eq_mul_div,
      eq_div_iff (by positivity), hcast]
    ring
  have hlog := log2_bounds hs
  have hlast : lastBit p q = k := by
    have hspow : (2 : ℚ) ^ ((s.log2 : ℤ) + k) ≤ (p : ℚ) / q ∧
        (p : ℚ) / q < 2 ^ ((s.log2 : ℤ) + k + 1) := by
      rw [hratio, zpow_add₀ (by norm_num), add_right_comm, zpow_add₀ (by norm_num) _ k]
      constructor
      · exact mul_le_mul_of_nonneg_right hlog.1 (by positivity)
      · exact mul_lt_mul_of_pos_right hlog.2 (by positivity)
    rw [lastBit_eq hp hq hspow.1 hspow.2]
    have hs52 : s.log2 < 53 := (Nat.log2_lt hs.ne').mpr hs53
    rcases hnormal with hn | hn
    · have : 52 ≤ s.log2 := (Nat.le_log2 hs.ne').mpr hn
      omega
    · omega
  rw [doubleOfRatio, if_neg hp.ne', hlast]
  dsimp only
  rw [hval, roundHalfEven_mul s (by positivity), if_neg (by omega)]

/-! ### Digits -/

theorem hexNibble_digitChar : ∀ d < 10, hexNibble (ch d.digitChar) = some d := by decide

theorem isDigit_of_mem_toStr {n : ℕ} {c : UInt8} (hc : c ∈ toStr n) : isDigit c := by
  obtain ⟨d, hd, rfl⟩ := List.mem_map.mp hc
  have h := Nat.isDigit_of_mem_toDigits (by decide) (by decide) hd
  simp only [Char.isDigit, ge_iff_le, Bool.and_eq_true, decide_eq_true_eq,
    UInt32.le_iff_toNat_le] at h
  have hnat : (ch d).toNat = d.val.toNat := by
    have : d.val.toNat ≤ 57 := h.2
    rw [ch, Char.toUInt8, UInt32.toNat_toUInt8]
    omega
  have h₁ : 48 ≤ d.val.toNat := h.1
  have h₂ : d.val.toNat ≤ 57 := h.2
  simp only [isDigit, Bool.and_eq_true, decide_eq_true_eq, UInt8.le_iff_toNat_le, hnat]
  exact ⟨h₁, h₂⟩

theorem toStr_ne_nil (n : ℕ) : toStr n ≠ [] := by
  rw [toStr, ne_eq, List.map_eq_nil_iff]
  exact Nat.toDigits_ne_nil

theorem digitsFrom_append (base acc : ℕ) (s t : Str) :
    digitsFrom base acc (s ++ t) = (digitsFrom base acc s).bind fun n => digitsFrom base n t := by
  induction s generalizing acc with
  | nil => rfl
  | cons c s ih =>
    simp only [List.cons_append, digitsFrom, Option.bind_assoc, ih]

theorem digitsFrom_toStr (n : ℕ) : digitsFrom 10 0 (toStr n) = some n := by
  induction n using Nat.strongRecOn with
  | ind n ih =>
    by_cases hn : n < 10
    · rw [toStr, Nat.toDigits_of_lt_base hn, List.map_singleton]
      simp only [digitsFrom, digit, hexNibble_digitChar n hn, Option.filter_some, hn, decide_true,
        if_true, Option.bind_some, Nat.zero_mul, Nat.zero_add]
    · have hmod : n % 10 < 10 := Nat.mod_lt _ (by decide)
      rw [toStr, Nat.toDigits_of_base_le (by decide) (by omega), List.map_append, digitsFrom_append]
      have := ih (n / 10) (by omega)
      rw [toStr] at this
      rw [this, Option.bind_some, List.map_singleton]
      simp only [digitsFrom, digit, hexNibble_digitChar _ hmod, Option.filter_some, hmod,
        decide_true, if_true, Option.bind_some]
      congr 1
      omega

/-- An unsigned number is read back. -/
theorem digits_toStr (n : ℕ) : digits 10 (toStr n) = some n := by
  rw [digits, if_neg (by simpa using toStr_ne_nil n), digitsFrom_toStr]

/-- No zero stands before the other digits. -/
theorem head?_toStr {n : ℕ} (hn : 0 < n) : (toStr n).head? ≠ some (ch '0') := by
  induction n using Nat.strongRecOn with
  | ind n ih =>
    by_cases h : n < 10
    · have hdigit : ∀ d < 10, 0 < d → ch d.digitChar ≠ ch '0' := by decide
      rw [toStr, Nat.toDigits_of_lt_base h, List.map_singleton, List.head?_cons]
      exact fun heq => hdigit n h hn (Option.some.inj heq)
    · rw [toStr, Nat.toDigits_of_base_le (by decide) (by omega), List.map_append,
        List.head?_append_of_ne_nil]
      · exact ih (n / 10) (by omega) (by omega)
      · exact toStr_ne_nil (n/10)

theorem isDigits_toStr (n : ℕ) : Json.Reader.IsDigits (toStr n) :=
  ⟨toStr_ne_nil n, fun _ hc => isDigit_of_mem_toStr hc⟩

theorem isInt_toStr (n : ℕ) : Json.Reader.IsInt (toStr n) := by
  refine ⟨isDigits_toStr n, fun hhead => ?_⟩
  rcases Nat.eq_zero_or_pos n with rfl | hn
  · rfl
  · exact absurd hhead (head?_toStr hn)

theorem isUnsigned_toStr (n : ℕ) : Json.Reader.IsUnsigned (toStr n) :=
  ⟨toStr n, [], [], by simp, isInt_toStr n, Or.inl rfl, Or.inl rfl⟩

/-- A signed number is a number literal. -/
theorem isNumber_toCharsInt (n : ℤ) : Json.Reader.IsNumber (toCharsInt n) := by
  rw [toCharsInt]
  split
  · exact Or.inr ⟨_, rfl, isUnsigned_toStr _⟩
  · exact Or.inl (isUnsigned_toStr _)

/-! ### The texts of a double -/

/-- The digits without the zeros at the end are the first digits of a number. -/
theorem isInt_stripZeros (n : ℕ) : Json.Reader.IsInt (stripZeros n) := by
  rw [stripZeros]
  by_cases hempty : ((toStr n).rdropWhile (· == ch '0')).isEmpty
  · simp only [hempty, if_true]
    exact isInt_toStr 0
  · simp only [hempty, Bool.false_eq_true, if_false]
    have hpre := List.rdropWhile_prefix (fun c => c == ch '0') (l := toStr n)
    obtain ⟨⟨-, hds⟩, hzero⟩ := isInt_toStr n
    have hne : (toStr n).rdropWhile (· == ch '0') ≠ [] := by simpa using hempty
    refine ⟨⟨hne, fun c hc => hds c (hpre.subset hc)⟩, fun hhead => ?_⟩
    obtain ⟨t, ht⟩ := hpre
    have hn : toStr n = [0x30] := hzero (by rw [← ht, List.head?_append_of_ne_nil _ hne, hhead])
    exact absurd (by rw [hn]; rfl) hne

theorem IsInt.drop {ds : Str} (h : Json.Reader.IsInt ds) {k : ℕ} (hk : k < ds.length) :
    Json.Reader.IsDigits (ds.drop k) :=
  ⟨by rw [ne_eq, List.drop_eq_nil_iff]; omega, fun c hc => h.1.2 c (List.mem_of_mem_drop hc)⟩

theorem isUnsigned_fixed {ds : Str} (hds : Json.Reader.IsInt ds) (e : ℤ) (whole : ℕ) :
    Json.Reader.IsUnsigned (fixed ds e whole) := by
  rw [fixed]
  split_ifs with he hlen
  · refine ⟨str "0", ch '.' :: (List.replicate (-e - 1).toNat (ch '0') ++ ds), [], ?_,
      isInt_toStr 0, Or.inr ⟨_, rfl, ?_, ?_⟩, Or.inl rfl⟩
    · rw [List.append_nil]
      exact List.append_assoc ..
    · exact fun h => hds.1.1 (List.append_eq_nil_iff.mp h).2
    · intro c hc
      rcases List.mem_append.mp hc with hc | hc
      · rw [List.eq_of_mem_replicate hc]
        rfl
      · exact hds.1.2 c hc
  · exact isUnsigned_toStr whole
  · refine ⟨ds.take (e.toNat + 1), ch '.' :: ds.drop (e.toNat + 1), [], ?_, ⟨⟨?_, ?_⟩, ?_⟩,
      Or.inr ⟨_, rfl, IsInt.drop hds (by omega)⟩, Or.inl rfl⟩
    · rw [List.append_nil]
    · exact fun h => hds.1.1 ((List.take_eq_nil_iff.mp h).resolve_left (Nat.succ_ne_zero _))
    · exact fun c hc => hds.1.2 c (List.mem_of_mem_take hc)
    · intro hhead
      obtain ⟨c, rest, rfl⟩ := List.exists_cons_of_ne_nil hds.1.1
      rw [hds.2 hhead] at hlen
      exact absurd (Nat.le_add_left _ _) hlen

theorem isUnsigned_scientific {ds : Str} (hds : Json.Reader.IsInt ds) (e : ℤ) :
    Json.Reader.IsUnsigned (scientific ds e) := by
  obtain ⟨c, rest, rfl⟩ := List.exists_cons_of_ne_nil hds.1.1
  refine ⟨[c], if (c :: rest).length ≤ 1 then [] else ch '.' :: rest, ch 'e' :: exponentText e,
    by simp [scientific], ⟨⟨by simp, ?_⟩, ?_⟩, ?_, ?_⟩
  · intro d hd
    rw [List.mem_singleton.mp hd]
    exact hds.1.2 c List.mem_cons_self
  · intro hhead
    rw [Option.some.inj hhead]
  · split_ifs with hlen
    · exact Or.inl rfl
    · exact Or.inr ⟨rest, rfl, IsInt.drop (k := 1) hds (Nat.lt_of_not_le hlen)⟩
  · refine Or.inr ⟨_, _, rfl, ?_, ?_⟩
    · split_ifs
      · exact Or.inr rfl
      · exact Or.inl rfl
    · split_ifs
      · refine ⟨by simp, fun d hd => ?_⟩
        rcases List.mem_cons.mp hd with rfl | hd
        · rfl
        · exact isDigit_of_mem_toStr hd
      · exact isDigits_toStr _

theorem isUnsigned_exactText (s : ℕ) (e : ℤ) : Json.Reader.IsUnsigned (exactText s e) := by
  rw [exactText]
  split_ifs
  · exact isUnsigned_toStr _
  · exact ⟨toStr (s * 5 ^ (-e).toNat), [], str "e-" ++ toStr (-e).toNat, by simp, isInt_toStr _,
      Or.inl rfl, Or.inr ⟨ch '-', _, rfl, Or.inr rfl, isDigits_toStr _⟩⟩

theorem shortest_mem {ts : List Str} {t : Str} (h : shortest ts = some t) : t ∈ ts := by
  induction ts with
  | nil => exact nomatch h
  | cons u ts ih =>
    rw [shortest] at h
    split at h
    · exact Option.some.inj h ▸ List.mem_cons_self
    · next u' hu' =>
      split_ifs at h
      · exact Option.some.inj h ▸ List.mem_cons_self
      · exact List.mem_cons_of_mem _ (ih (hu'.trans h))

theorem isUnsigned_of_mem_decimalTexts {p q : ℕ} {t : Str} (h : t ∈ decimalTexts p q) :
    Json.Reader.IsUnsigned t := by
  obtain ⟨i, -, h⟩ := List.mem_flatMap.mp h
  obtain ⟨n, -, h⟩ := List.mem_flatMap.mp h
  simp only [List.mem_cons, List.not_mem_nil, or_false] at h
  rcases h with rfl | rfl
  · exact isUnsigned_fixed (isInt_stripZeros n) _ _
  · exact isUnsigned_scientific (isInt_stripZeros n) _

/-! ### Reading back -/

theorem digit_ne {c d : UInt8} (hc : isDigit c) (hd : isDigit d = false) : (c == d) = false := by
  rw [beq_eq_false_iff_ne]
  rintro rfl
  exact Bool.noConfusion (hc.symm.trans hd)

theorem IsUnsigned.head {t : Str} (ht : Json.Reader.IsUnsigned t) :
    ∃ c rest, t = c :: rest ∧ isDigit c := by
  obtain ⟨i, f, x, rfl, ⟨⟨hne, hi⟩, -⟩, -, -⟩ := ht
  obtain ⟨c, rest, rfl⟩ := List.exists_cons_of_ne_nil hne
  exact ⟨c, rest ++ f ++ x, rfl, hi c List.mem_cons_self⟩

/-- A literal without a sign is read as a decimal number. -/
theorem fromCharsDouble_of_isUnsigned {t : Str} (ht : Json.Reader.IsUnsigned t) :
    fromCharsDouble t = (decimal t).bind fun p =>
      doubleOfRatio (p.1 * 10 ^ p.2.toNat) (10 ^ (-p.2).toNat) := by
  obtain ⟨c, rest, rfl, hc⟩ := IsUnsigned.head ht
  have hfold : fold c = c := if_neg fun h => by
    simp only [isDigit, Bool.and_eq_true, decide_eq_true_eq] at hc h
    exact absurd (h.1.trans hc.2) (by decide)
  have hi : fold c ≠ ch 'i' := by
    rw [hfold]
    exact beq_eq_false_iff_ne.mp (digit_ne hc rfl)
  have hn : fold c ≠ ch 'n' := by
    rw [hfold]
    exact beq_eq_false_iff_ne.mp (digit_ne hc rfl)
  have hsign : ((c :: rest).head? == some (ch '-')) = false := by
    rw [List.head?_cons, beq_eq_false_iff_ne]
    exact fun h => beq_eq_false_iff_ne.mp (digit_ne hc (d := ch '-') rfl) (Option.some.inj h)
  have hname : ∀ (d : UInt8) (s : Str), fold c ≠ d → (c :: rest).map fold ≠ d :: s :=
    fun d s h heq => h (List.cons.inj heq).1
  have hpre : (str "nan(").isPrefixOf ((c :: rest).map fold) = false := by
    have : (ch 'n' == fold c) = false := beq_eq_false_iff_ne.mpr hn.symm
    simp [str, List.isPrefixOf, this]
  have hnone : nonFinite (c :: rest) = none := by
    rw [nonFinite]
    simp only [hpre, Bool.false_and, Bool.false_eq_true, if_false]
    rw [if_neg, if_neg]
    · exact hname _ _ hn
    · exact fun h => h.elim (hname _ _ hi) (hname _ _ hi)
  rw [fromCharsDouble]
  simp only [hsign, Bool.false_eq_true, if_false, hnone, Option.none_or, Option.map_id']

/-- The sign. -/
theorem fromCharsDouble_minus {t : Str} (ht : Json.Reader.IsUnsigned t) :
    fromCharsDouble (ch '-' :: t) = (fromCharsDouble t).map (· ||| 0x8000000000000000) := by
  obtain ⟨c, rest, rfl, hc⟩ := IsUnsigned.head ht
  have hsign : ((c :: rest).head? == some (ch '-')) = false := by
    rw [List.head?_cons, beq_eq_false_iff_ne]
    exact fun h => beq_eq_false_iff_ne.mp (digit_ne hc (d := ch '-') rfl) (Option.some.inj h)
  have hminus : ((ch '-' :: c :: rest).head? == some (ch '-')) = true := rfl
  rw [fromCharsDouble, fromCharsDouble]
  simp only [hsign, hminus, Bool.false_eq_true, if_false, if_true, List.drop_succ_cons,
    List.drop_zero, Option.map_id']

theorem findIdx_toStr {f : UInt8 → Bool} (hf : ∀ c, isDigit c → f c = false) (n : ℕ) (s : Str) :
    (toStr n ++ s).findIdx f = (toStr n).length + s.findIdx f := by
  have hall : (toStr n).findIdx f = (toStr n).length :=
    List.findIdx_eq_length.mpr fun c hc => hf c (isDigit_of_mem_toStr hc)
  rw [List.findIdx_append, hall, if_neg (lt_irrefl _), Nat.add_comm]

theorem decimal_toStr (n : ℕ) : decimal (toStr n) = some (n, 0) := by
  have hmark : (toStr n).findIdx (fun c => c == ch 'e' || c == ch 'E') = (toStr n).length := by
    have h := findIdx_toStr (f := fun c => c == ch 'e' || c == ch 'E')
      (fun c hc => by simp [digit_ne hc (d := ch 'e') rfl, digit_ne hc (d := ch 'E') rfl]) n []
    rwa [List.append_nil] at h
  have hdot : (toStr n).findIdx (fun c => c == ch '.') = (toStr n).length := by
    have h := findIdx_toStr (f := fun c => c == ch '.')
      (fun c hc => digit_ne hc (d := ch '.') rfl) n []
    rwa [List.append_nil] at h
  simp only [decimal, hmark, List.take_length, hdot, List.drop_eq_nil_of_le (Nat.le_succ _),
    List.append_nil, digits_toStr, lt_irrefl, if_false]
  rfl

theorem decimal_exponent (n k : ℕ) :
    decimal (toStr n ++ str "e-" ++ toStr k) = some (n, -(k : ℤ)) := by
  have hmark : (toStr n ++ (str "e-" ++ toStr k)).findIdx (fun c => c == ch 'e' || c == ch 'E') =
      (toStr n).length :=
    findIdx_toStr (f := fun c => c == ch 'e' || c == ch 'E')
      (fun c hc => by simp [digit_ne hc (d := ch 'e') rfl, digit_ne hc (d := ch 'E') rfl]) n _
  have hdot : (toStr n).findIdx (fun c => c == ch '.') = (toStr n).length := by
    have h := findIdx_toStr (f := fun c => c == ch '.')
      (fun c hc => digit_ne hc (d := ch '.') rfl) n []
    rwa [List.append_nil] at h
  have hlt : (toStr n).length < (toStr n ++ (str "e-" ++ toStr k)).length := by
    simp only [List.length_append, str, List.length_map]
    exact Nat.lt_add_of_pos_right (Nat.lt_of_lt_of_le (by decide : 0 < 2) (Nat.le_add_right 2 _))
  have hdrop : (toStr n ++ (str "e-" ++ toStr k)).drop ((toStr n).length + 1) =
      ch '-' :: toStr k := by
    rw [List.drop_append, List.drop_eq_nil_of_le (Nat.le_succ _), Nat.add_sub_cancel_left]
    rfl
  have hexp : exponent (ch '-' :: toStr k) = some (-(k : ℤ)) := by
    simp only [exponent, beq_self_eq_true, if_true, digits_toStr]
    rfl
  rw [List.append_assoc]
  simp only [decimal, hmark, List.take_left, hdot, List.take_length,
    List.drop_eq_nil_of_le (Nat.le_succ _), List.append_nil, digits_toStr, hlt, if_true,
        hdrop, hexp]
  simp

theorem exponentField_lt {m : UInt64} (hm : m.toNat < 2 ^ 63) :
    exponentField m = m.toNat / 2 ^ 52 := by
  rw [exponentField]
  omega

/-- The bits of a finite `double` without a sign, from its significand and exponent. -/
theorem bits_eq {m : UInt64} (hm : m.toNat < 2 ^ 63) :
    (binaryExponent m + 1074).toNat * 2 ^ 52 + significand m = m.toNat := by
  have h := exponentField_lt hm
  simp only [binaryExponent, significand, h]
  by_cases h0 : m.toNat / 2 ^ 52 = 0
  · rw [if_pos h0]
    omega
  · rw [if_neg h0]
    omega

/-- A text in full is read back. -/
theorem fromCharsDouble_exactText {m : UInt64} (hm : m.toNat < 2 ^ 63) (hpos : m ≠ 0)
    (hfin : isFinite m) :
    fromCharsDouble (exactText (significand m) (binaryExponent m)) = some m := by
  have hexp := exponentField_lt hm
  have hbits := bits_eq hm
  have hmpos : 0 < m.toNat := Nat.pos_of_ne_zero fun h => hpos (UInt64.toNat_inj.mp h)
  have hE : m.toNat / 2 ^ 52 ≠ 0x7FF := by
    have h : exponentField m ≠ 0x7FF := by simpa [isFinite, exponentField] using hfin
    rwa [hexp] at h
  have hsig : significand m = m.toNat % 2 ^ 52 + if m.toNat / 2 ^ 52 = 0 then 0 else 2 ^ 52 := by
    rw [significand, hexp]
  have hk : binaryExponent m = max 1 ((m.toNat / 2 ^ 52 : ℕ) : ℤ) - 1075 := by
    rw [binaryExponent, hexp]
  have hs : 0 < significand m ∧ significand m < 2 ^ 53 ∧
      (2 ^ 52 ≤ significand m ∨ binaryExponent m = -1074) := by
    rw [hsig, hk]
    split_ifs with h0 <;> omega
  obtain ⟨hs₀, hs₁, hs₂⟩ := hs
  have hk₀ : -1074 ≤ binaryExponent m := by omega
  have hfin' : (binaryExponent m + 1074).toNat * 2 ^ 52 + significand m < 0x7FF * 2 ^ 52 := by
    rw [hbits]
    omega
  have hback : UInt64.ofNat ((binaryExponent m + 1074).toNat * 2 ^ 52 + significand m) = m := by
    rw [hbits, UInt64.ofNat_toNat]
  rw [fromCharsDouble_of_isUnsigned (isUnsigned_exactText _ _), exactText]
  split_ifs with hsign
  · rw [decimal_toStr, Option.bind_some, doubleOfRatio_eq (by simp) hs₀ ?_ hs₁ hk₀ hs₂ hfin', hback]
    have h0 : (-binaryExponent m).toNat = 0 := by omega
    simp only [h0, Int.toNat_zero, neg_zero, pow_zero, Nat.mul_one, Nat.one_mul]
  · rw [decimal_exponent, Option.bind_some,
      doubleOfRatio_eq (by positivity) hs₀ ?_ hs₁ hk₀ hs₂ hfin', hback]
    obtain ⟨j, hj⟩ := Int.eq_ofNat_of_zero_le (show 0 ≤ -binaryExponent m by omega)
    have h0 : (binaryExponent m).toNat = 0 := by omega
    have h1 : (-(j : ℤ)).toNat = 0 := by omega
    simp only [hj, Int.toNat_natCast, h0, h1, neg_neg, pow_zero, Nat.mul_one]
    rw [Nat.mul_assoc, ← Nat.mul_pow]

/-- The text of a `double` without a sign. -/
theorem toCharsDouble_magnitude (bits : UInt64) (hfin : isFinite bits) :
    ∃ t, Json.Reader.IsUnsigned t ∧ fromCharsDouble t = some (bits &&& 0x7FFFFFFFFFFFFFFF) ∧
      toCharsDouble bits = if bits &&& 0x7FFFFFFFFFFFFFFF = bits then t else ch '-' :: t := by
  have hm : (bits &&& 0x7FFFFFFFFFFFFFFF).toNat = bits.toNat % 2 ^ 63 :=
    Nat.and_two_pow_sub_one_eq_mod bits.toNat 63
  have hlt : (bits &&& 0x7FFFFFFFFFFFFFFF).toNat < 2 ^ 63 := by omega
  have hfin' : isFinite (bits &&& 0x7FFFFFFFFFFFFFFF) := by
    have h : bits.toNat % 2 ^ 63 / 2 ^ 52 % 2 ^ 11 = bits.toNat / 2 ^ 52 % 2 ^ 11 := by omega
    rwa [isFinite, hm, h]
  rw [toCharsDouble]
  generalize bits &&& 0x7FFFFFFFFFFFFFFF = m at *
  by_cases hzero : m = 0
  · exact ⟨str "0", isUnsigned_toStr 0, by rw [hzero]; decide, by simp only [hzero, if_true]⟩
  · simp only [if_neg hzero]
    cases h : shortest ((decimalTexts (magnitudeRatio m).1 (magnitudeRatio m).2).filter fun t =>
        fromCharsDouble t == some m) with
    | none => exact ⟨_, isUnsigned_exactText _ _, fromCharsDouble_exactText hlt hzero hfin', rfl⟩
    | some t =>
      obtain ⟨hmem, hback⟩ := List.mem_filter.mp (shortest_mem h)
      exact ⟨t, isUnsigned_of_mem_decimalTexts hmem, eq_of_beq hback, rfl⟩

/-- A finite `double` is a number literal. -/
theorem isNumber_toCharsDouble {bits : UInt64} (hfin : isFinite bits) :
    Json.Reader.IsNumber (toCharsDouble bits) := by
  obtain ⟨t, ht, -, heq⟩ := toCharsDouble_magnitude bits hfin
  rw [heq]
  split_ifs
  · exact Or.inl ht
  · exact Or.inr ⟨t, rfl, ht⟩

/-- **A finite `double` is read back.** -/
theorem fromCharsDouble_toCharsDouble {bits : UInt64} (hfin : isFinite bits) :
    fromCharsDouble (toCharsDouble bits) = some bits := by
  obtain ⟨t, ht, hback, heq⟩ := toCharsDouble_magnitude bits hfin
  rw [heq]
  split_ifs with hsign
  · rw [hback, hsign]
  · have hm : (bits &&& 0x7FFFFFFFFFFFFFFF).toNat = bits.toNat % 2 ^ 63 :=
      Nat.and_two_pow_sub_one_eq_mod bits.toNat 63
    have hne : bits.toNat % 2 ^ 63 ≠ bits.toNat := fun h =>
      hsign (UInt64.toNat_inj.mp (hm.trans h))
    have hlt := bits.toNat_lt
    rw [fromCharsDouble_minus ht, hback, Option.map_some]
    congr 1
    apply UInt64.toNat_inj.mp
    have hor : 1 <<< 63 ||| bits.toNat % 2 ^ 63 = 1 <<< 63 + bits.toNat % 2 ^ 63 :=
      (Nat.shiftLeft_add_eq_or_of_lt (Nat.mod_lt _ (by decide)) 1).symm
    rw [UInt64.toNat_or, hm, Nat.or_comm]
    calc (0x8000000000000000 : UInt64).toNat ||| bits.toNat % 2 ^ 63
        = 1 <<< 63 + bits.toNat % 2 ^ 63 := hor
      _ = bits.toNat := by
        rw [Nat.shiftLeft_eq]
        omega

end Papa.Util
