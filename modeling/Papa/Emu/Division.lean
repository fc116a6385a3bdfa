import Mathlib.Tactic.Ring
import Papa.Emu.Frames
import Papa.Emu.UndefinedArithmetic

/-!
# Division

The quotient of a dividend in two registers goes to the lower register and the remainder to the
higher one. A dividend of 128 bits is divided bit by bit. A signed division divides magnitudes and
then sets the signs; up to 32 bits it gives the remainder the sign of the quotient, which is wrong
when the divisor is negative.

## Main definitions

* `Emulator.unsignedDividend`, `Emulator.signedDividend`: the dividend.
* `Emulator.Divides`: what the two registers are after a division.

## Main results

* `udiv128_spec`: the division bit by bit.
* `division_iff`: when the registers are right.
-/

namespace Papa.Emu

open Bits Defined

/-! ### Division bit by bit -/

/-- What the quotient and the remainder are when the bits from `i` on have been taken in. -/
structure Prefix (n d i : ℕ) (r : UInt64 × UInt64) : Prop where
  quot : r.1.toNat = n / 2 ^ i / d % 2 ^ 64
  rem : r.2.toNat = n / 2 ^ i % d

theorem div_two_pow_succ (n i : ℕ) : n / 2 ^ i = 2 * (n / 2 ^ (i + 1)) + n / 2 ^ i % 2 := by
  rw [Nat.pow_succ, ← Nat.div_div_eq_div_mul]
  exact (Nat.div_add_mod _ 2).symm

/-- A dividend and a bit more, divided. -/
theorem double_add_div_mod (a b : ℕ) {d : ℕ} (hd : 0 < d) :
    (2 * a + b) / d = 2 * (a / d) + (2 * (a % d) + b) / d ∧
      (2 * a + b) % d = (2 * (a % d) + b) % d := by
  have hsplit : 2 * a + b = 2 * (a % d) + b + d * (2 * (a / d)) := by
    have := Nat.mod_add_div a d
    calc 2 * a + b = 2 * (a % d + d * (a / d)) + b := by rw [this]
      _ = 2 * (a % d) + b + d * (2 * (a / d)) := by ring
  rw [hsplit, Nat.add_mul_div_left _ _ hd, Nat.add_mul_mod_self_left]
  exact ⟨Nat.add_comm _ _, rfl⟩

/-- A bit comes in from the right. -/
theorem toNat_shiftLeft_or (x bit : UInt64) (hb : bit.toNat < 2) :
    (x <<< 1 ||| bit).toNat = (2 * x.toNat + bit.toNat) % 2 ^ 64 := by
  have hshift : (x <<< 1).toNat = 2 ^ 1 * (x.toNat % 2 ^ 63) := by
    rw [UInt64.toNat_shiftLeft]
    show x.toNat <<< 1 % 2 ^ 64 = _
    rw [Nat.shiftLeft_eq]
    omega
  rw [UInt64.toNat_or, hshift, ← Nat.two_pow_add_eq_or_of_lt hb]
  omega

/-- A turn of the division takes in a bit. -/
theorem Prefix.step {n i : ℕ} {d bit : UInt64} {r : UInt64 × UInt64} (hd : d ≠ 0)
    (hbit : bit.toNat = n / 2 ^ i % 2) (h : Prefix n d.toNat (i + 1) r) :
    Prefix n d.toNat i (udiv128Step d r bit) := by
  have hpos : 0 < d.toNat := Nat.pos_of_ne_zero fun h0 => hd (UInt64.toNat_inj.mp h0)
  have hlt : r.2.toNat < d.toNat := h.rem ▸ Nat.mod_lt _ hpos
  have hb : bit.toNat < 2 := hbit ▸ Nat.mod_lt _ (by decide)
  have hdlt := d.toNat_lt
  obtain ⟨hdiv, hmod⟩ := double_add_div_mod (n / 2 ^ (i + 1)) bit.toNat hpos
  rw [← h.rem] at hdiv hmod
  have hprefix : n / 2 ^ i = 2 * (n / 2 ^ (i + 1)) + bit.toNat := by
    rw [hbit]
    exact div_two_pow_succ n i
  have hrem := toNat_shiftLeft_or r.2 bit hb
  have htop : r.2 >>> 63 ≠ 0 ↔ 2 ^ 64 ≤ 2 * r.2.toNat := by
    rw [ne_eq, ← UInt64.toNat_inj, UInt64.toNat_shiftRight, UInt64.toNat_zero]
    show ¬ r.2.toNat >>> 63 = 0 ↔ _
    rw [Nat.shiftRight_eq_div_pow]
    omega
  have hcond : (r.2 >>> 63 ≠ 0 ∨ r.2 <<< 1 ||| bit ≥ d) ↔ d.toNat ≤ 2 * r.2.toNat + bit.toNat := by
    rw [htop, ge_iff_le, UInt64.le_iff_toNat_le, hrem]
    omega
  unfold udiv128Step
  dsimp only
  by_cases hge : d.toNat ≤ 2 * r.2.toNat + bit.toNat
  · have hdiv' : (2 * r.2.toNat + bit.toNat) / d.toNat = 1 :=
      Nat.div_eq_of_lt_le (by omega) (by omega)
    have hmod' : (2 * r.2.toNat + bit.toNat) % d.toNat = 2 * r.2.toNat + bit.toNat - d.toNat := by
      rw [Nat.mod_eq_sub_mod hge, Nat.mod_eq_of_lt (by omega)]
    rw [if_pos (hcond.mpr hge)]
    refine ⟨?_, ?_⟩
    · rw [toNat_shiftLeft_or r.1 1 (by decide), hprefix, hdiv, hdiv', h.quot, UInt64.toNat_one]
      omega
    · rw [UInt64.toNat_sub, hrem, hprefix, hmod, hmod']
      omega
  · have hlt' : 2 * r.2.toNat + bit.toNat < d.toNat := not_le.mp hge
    rw [if_neg (mt hcond.mp hge)]
    refine ⟨?_, ?_⟩
    · rw [show r.1 <<< 1 = r.1 <<< 1 ||| 0 from UInt64.or_zero.symm,
        toNat_shiftLeft_or r.1 0 (by decide), hprefix, hdiv, Nat.div_eq_of_lt hlt', h.quot,
        UInt64.toNat_zero]
      omega
    · rw [hrem, hprefix, hmod, Nat.mod_eq_of_lt hlt']
      omega

/-- The bits of a dividend in two halves. -/
theorem toNat_dividendBit (hi lo : UInt64) {i : ℕ} (hlt : i < 128) :
    (dividendBit hi lo i).toNat = (hi.toNat * 2 ^ 64 + lo.toNat) / 2 ^ i % 2 := by
  have hlolt := lo.toNat_lt
  have hand (x : UInt64) {j : ℕ} (hj : j < 64) :
      ((x >>> UInt64.ofNat j) &&& 1).toNat = x.toNat / 2 ^ j % 2 := by
    rw [UInt64.toNat_and, UInt64.toNat_shiftRight, UInt64.toNat_ofNat',
      Nat.mod_eq_of_lt (a := j) (by omega), Nat.mod_eq_of_lt hj, Nat.shiftRight_eq_div_pow,
      UInt64.toNat_one, Nat.and_one_is_mod]
  unfold dividendBit
  split_ifs with h
  · obtain ⟨j, rfl⟩ := Nat.exists_eq_add_of_le h
    rw [hand hi (by omega), Nat.add_sub_cancel_left, Nat.pow_add, ← Nat.div_div_eq_div_mul,
      show (hi.toNat * 2 ^ 64 + lo.toNat) / 2 ^ 64 = hi.toNat by omega]
  · have hsplit : (2 : ℕ) ^ 64 = 2 ^ i * (2 * 2 ^ (63 - i)) := by
      rw [← Nat.pow_succ', ← Nat.pow_add, show i + (63 - i + 1) = 64 by omega]
    rw [hand lo (by omega), hsplit, Nat.mul_left_comm, Nat.mul_add_div (Nat.two_pow_pos i),
      Nat.mul_left_comm, Nat.mul_add_mod]

/-- The turns from bit `i` down. -/
theorem Prefix.run {hi lo d : UInt64} (hd : d ≠ 0) {i : ℕ} (hle : i ≤ 128) {r : UInt64 × UInt64}
    (h : Prefix (hi.toNat * 2 ^ 64 + lo.toNat) d.toNat i r) :
    Prefix (hi.toNat * 2 ^ 64 + lo.toNat) d.toNat 0
      ((List.range i).foldr (fun i r => udiv128Step d r (dividendBit hi lo i)) r) := by
  induction i generalizing r with
  | zero => exact h
  | succ i ih =>
    rw [List.range_succ, List.foldr_append, List.foldr_cons, List.foldr_nil]
    exact ih (by omega) (h.step hd (toNat_dividendBit hi lo (by omega)))

/-- **Division bit by bit**: the remainder is exact, and so is the quotient as far as it fits. -/
theorem udiv128_spec (hi lo : UInt64) {d : UInt64} (hd : d ≠ 0) :
    (udiv128 hi lo d).1.toNat = (hi.toNat * 2 ^ 64 + lo.toNat) / d.toNat % 2 ^ 64 ∧
      (udiv128 hi lo d).2.toNat = (hi.toNat * 2 ^ 64 + lo.toNat) % d.toNat := by
  have hhi := hi.toNat_lt
  have hlo := lo.toNat_lt
  have hinit : Prefix (hi.toNat * 2 ^ 64 + lo.toNat) d.toNat 128 (0, 0) := by
    have hzero : (hi.toNat * 2 ^ 64 + lo.toNat) / 2 ^ 128 = 0 := Nat.div_eq_of_lt (by omega)
    constructor
    · rw [hzero, Nat.zero_div]
      rfl
    · rw [hzero, Nat.zero_mod]
      rfl
  have hrun := hinit.run hd (Nat.le_refl 128)
  unfold udiv128
  rw [List.foldl_reverse]
  have hquot := hrun.quot
  have hrem := hrun.rem
  rw [Nat.pow_zero, Nat.div_one] at hquot hrem
  exact ⟨hquot, hrem⟩

/-- The division equation holds of every dividend whose quotient fits. -/
theorem udiv128_exact_iff (hi lo : UInt64) {d : UInt64} (hd : d ≠ 0) :
    hi.toNat * 2 ^ 64 + lo.toNat =
        d.toNat * (udiv128 hi lo d).1.toNat + (udiv128 hi lo d).2.toNat ↔
      (hi.toNat * 2 ^ 64 + lo.toNat) / d.toNat < 2 ^ 64 := by
  obtain ⟨hquot, hrem⟩ := udiv128_spec hi lo hd
  have hpos : 0 < d.toNat := Nat.pos_of_ne_zero fun h0 => hd (UInt64.toNat_inj.mp h0)
  have hsplit := Nat.div_add_mod (hi.toNat * 2 ^ 64 + lo.toNat) d.toNat
  rw [hquot, hrem]
  constructor
  · intro heq
    have hmul := Nat.eq_of_mul_eq_mul_left hpos (Nat.add_right_cancel (hsplit.trans heq))
    rw [hmul]
    exact Nat.mod_lt _ (by decide)
  · intro hlt
    rw [Nat.mod_eq_of_lt hlt, hsplit]

/-! ### Signed division by magnitudes -/

/-- The sign of a quotient is that of the magnitudes unless the signs differ. -/
theorem tdiv_eq (n d : ℤ) : n.tdiv d =
    if n < 0 ↔ d < 0 then ((n.natAbs / d.natAbs : ℕ) : ℤ)
      else -((n.natAbs / d.natAbs : ℕ) : ℤ) := by
  obtain ⟨a, ha⟩ := Int.eq_nat_or_neg n
  obtain ⟨b, hb⟩ := Int.eq_nat_or_neg d
  have hzero : a = 0 ∨ b = 0 → ((a / b : ℕ) : ℤ) = 0 := by
    rintro (rfl | rfl)
    · rw [Nat.zero_div, Nat.cast_zero]
    · rw [Nat.div_zero, Nat.cast_zero]
  have hq := (Int.ofNat_tdiv a b).symm
  rcases ha with rfl | rfl <;> rcases hb with rfl | rfl <;>
    simp only [Int.neg_tdiv, Int.tdiv_neg, Int.natAbs_neg, Int.natAbs_natCast, hq, neg_neg] <;>
    generalize ((a / b : ℕ) : ℤ) = q at hzero <;> split_ifs <;> omega

/-- The sign of a remainder is that of the dividend. -/
theorem tmod_eq (n d : ℤ) : n.tmod d =
    if n < 0 then -((n.natAbs % d.natAbs : ℕ) : ℤ) else (n.natAbs % d.natAbs : ℕ) := by
  obtain ⟨a, ha⟩ := Int.eq_nat_or_neg n
  obtain ⟨b, hb⟩ := Int.eq_nat_or_neg d
  have hzero : a = 0 → ((a % b : ℕ) : ℤ) = 0 := by
    rintro rfl
    rw [Nat.zero_mod, Nat.cast_zero]
  have hr := (Int.ofNat_tmod a b).symm
  rcases ha with rfl | rfl <;> rcases hb with rfl | rfl <;>
    simp only [Int.neg_tmod, Int.tmod_neg, Int.natAbs_neg, Int.natAbs_natCast, hr] <;>
    generalize ((a % b : ℕ) : ℤ) = r at hzero <;> split_ifs <;> omega

/-- The remainder that belongs to a truncated quotient. -/
theorem isRemainder_iff {n d r : ℤ} (hd : d ≠ 0) :
    (n = d * n.tdiv d + r ∧ |r| < |d| ∧ (r = 0 ∨ (r < 0 ↔ n < 0))) ↔ r = n.tmod d := by
  have hsplit := Int.mul_tdiv_add_tmod n d
  constructor
  · rintro ⟨heq, -⟩
    omega
  · rintro rfl
    have hlt : n.natAbs % d.natAbs < d.natAbs := Nat.mod_lt _ (Int.natAbs_pos.mpr hd)
    refine ⟨hsplit.symm, ?_, ?_⟩
    · rw [Int.abs_eq_natAbs, Int.abs_eq_natAbs, Int.natAbs_tmod]
      exact_mod_cast hlt
    · rw [tmod_eq]
      generalize n.natAbs % d.natAbs = r
      split_ifs <;> omega

/-- The remainder with the sign of the quotient is right when the divisor is positive or divides the
dividend. -/
theorem remainder_eq_tmod_iff {n d : ℤ} (hd : d ≠ 0) :
    (if n < 0 ↔ d < 0 then ((n.natAbs % d.natAbs : ℕ) : ℤ) else -((n.natAbs % d.natAbs : ℕ) : ℤ)) =
      n.tmod d ↔ 0 < d ∨ d ∣ n := by
  have hdvd : d ∣ n ↔ n.natAbs % d.natAbs = 0 := by
    rw [← Int.natAbs_dvd_natAbs, Nat.dvd_iff_mod_eq_zero]
  rw [tmod_eq, hdvd]
  generalize n.natAbs % d.natAbs = r
  split_ifs <;> omega

/-- The remainder that the handler of `idiv` computes. -/
def idivRemainder (size : ℕ) (n d : ℤ) : ℤ :=
  if size = 8 then n.tmod d
  else if n < 0 ↔ d < 0 then ((n.natAbs % d.natAbs : ℕ) : ℤ) else -((n.natAbs % d.natAbs : ℕ) : ℤ)

/-- The magnitudes of a signed division, with their signs. -/
theorem signedQuotRem_eq_tdiv {size : ℕ} (h8 : size ≠ 8) {n d : ℤ} (hn : -2 ^ 63 < n ∧ n < 2 ^ 63)
    (hd : -2 ^ 63 < d ∧ d < 2 ^ 63) (hne : d ≠ 0) :
    Emulator.signedQuotRem n d = .ok (n.tdiv d, idivRemainder size n d) := by
  rw [Emulator.signedQuotRem_eq hn hd hne, tdiv_eq, idivRemainder, if_neg h8]
  split_ifs <;> rfl

/-- A quotient of 32 bits has a dividend with a magnitude. -/
theorem ne_min_of_quotient_fits {n d : ℤ} (hd : -2 ^ 31 ≤ d ∧ d < 2 ^ 31) (hne : d ≠ 0)
    (hfits : -2 ^ 31 ≤ n.tdiv d ∧ n.tdiv d < 2 ^ 31) : n ≠ -2 ^ 63 := by
  rintro rfl
  have hq := tdiv_eq (-2 ^ 63) d
  have hge : 2 ^ 32 ≤ (-2 ^ 63 : ℤ).natAbs / d.natAbs := by
    rw [Nat.le_div_iff_mul_le (Int.natAbs_pos.mpr hne)]
    have : d.natAbs ≤ 2 ^ 31 := by omega
    calc 2 ^ 32 * d.natAbs ≤ 2 ^ 32 * 2 ^ 31 := Nat.mul_le_mul_left _ this
      _ = (-2 ^ 63 : ℤ).natAbs := by decide
  split_ifs at hq <;> omega

/-! ### Signed division of 128 bits -/

theorem asU64_toNat (x : UInt64) : asU64 x.toNat = x := by
  refine UInt64.toNat_inj.mp ?_
  zify
  rw [toNat_asU64]
  exact Int.emod_eq_of_lt (Int.natCast_nonneg _) (by exact_mod_cast x.toNat_lt)

/-- A number is negated by a complement and one more. -/
theorem not_add_one (x : UInt64) : ~~~x + 1 = asU64 (-(x.toNat : ℤ)) := by
  have hlt := x.toNat_lt
  have hsize : UInt64.size = 2 ^ 64 := rfl
  refine UInt64.toNat_inj.mp ?_
  rw [UInt64.toNat_add, UInt64.toNat_not, UInt64.toNat_one, hsize]
  zify
  rw [toNat_asU64]
  omega

/-- A signed number of 128 bits in two halves. -/
def signed128 (hi lo : UInt64) : ℤ :=
  if hi.toNat * 2 ^ 64 + lo.toNat < 2 ^ 127 then hi.toNat * 2 ^ 64 + lo.toNat
  else hi.toNat * 2 ^ 64 + lo.toNat - 2 ^ 128

theorem shiftRight_ne_zero_iff (x : UInt64) : x >>> 63 ≠ 0 ↔ 2 ^ 63 ≤ x.toNat := by
  have hlt := x.toNat_lt
  rw [ne_eq, ← UInt64.toNat_inj, UInt64.toNat_shiftRight, UInt64.toNat_zero]
  show ¬ x.toNat >>> 63 = 0 ↔ _
  rw [Nat.shiftRight_eq_div_pow]
  omega

theorem signed128_neg_iff (hi lo : UInt64) : hi >>> 63 ≠ 0 ↔ signed128 hi lo < 0 := by
  have hlo := lo.toNat_lt
  have hhi := hi.toNat_lt
  rw [shiftRight_ne_zero_iff, signed128]
  split_ifs <;> omega

theorem signed_eight_neg_iff (x : UInt64) : x >>> 63 ≠ 0 ↔ signed x 8 < 0 := by
  have hlt := x.toNat_lt
  rw [shiftRight_ne_zero_iff, ← asI64_eq_signed, asI64]
  split_ifs <;> omega

/-- The magnitude of a dividend. -/
theorem natAbs_signed128 (hi lo : UInt64) :
    let lo' := if hi >>> 63 ≠ 0 then ~~~lo + 1 else lo
    let hi' := if hi >>> 63 ≠ 0 then ~~~hi + (if lo' = 0 then 1 else 0) else hi
    hi'.toNat * 2 ^ 64 + lo'.toNat = (signed128 hi lo).natAbs := by
  have hlo := lo.toNat_lt
  have hhi := hi.toNat_lt
  have hsize : UInt64.size = 2 ^ 64 := rfl
  dsimp only
  by_cases hneg : hi >>> 63 ≠ 0
  · have hle := (shiftRight_ne_zero_iff hi).mp hneg
    have hlo' : (~~~lo + 1).toNat = (2 ^ 64 - lo.toNat) % 2 ^ 64 := by
      rw [UInt64.toNat_add, UInt64.toNat_not, UInt64.toNat_one, hsize]
      omega
    have hzero : ~~~lo + 1 = 0 ↔ lo.toNat = 0 := by
      rw [← UInt64.toNat_inj, hlo', UInt64.toNat_zero]
      omega
    have hbig : ¬ hi.toNat * 2 ^ 64 + lo.toNat < 2 ^ 127 := by omega
    rw [if_pos hneg, if_pos hneg, signed128, if_neg hbig, hlo']
    by_cases h0 : lo.toNat = 0
    · rw [if_pos (hzero.mpr h0), UInt64.toNat_add, UInt64.toNat_not, UInt64.toNat_one, hsize]
      omega
    · rw [if_neg (mt hzero.mp h0), UInt64.toNat_add, UInt64.toNat_not, UInt64.toNat_zero, hsize]
      omega
  · have hlt := mt (shiftRight_ne_zero_iff hi).mpr hneg
    rw [if_neg hneg, if_neg hneg, signed128, if_pos (by omega)]
    omega

theorem natAbs_signed_eight (x : UInt64) :
    (if x >>> 63 ≠ 0 then ~~~x + 1 else x).toNat = (signed x 8).natAbs := by
  have hlt := x.toNat_lt
  have hsize : UInt64.size = 2 ^ 64 := rfl
  have hneg := shiftRight_ne_zero_iff x
  rw [← asI64_eq_signed, asI64]
  by_cases h : x >>> 63 ≠ 0
  · have hle := hneg.mp h
    rw [if_pos h, if_neg (by omega), UInt64.toNat_add, UInt64.toNat_not, UInt64.toNat_one, hsize]
    omega
  · have hgt := mt hneg.mpr h
    rw [if_neg h, if_pos (by omega)]
    omega

/-- **Signed division of 128 bits** is exact when the quotient fits. -/
theorem idiv128_spec (hi lo uval : UInt64) (hne : signed uval 8 ≠ 0)
    (hfits : -2 ^ 63 ≤ (signed128 hi lo).tdiv (signed uval 8) ∧
      (signed128 hi lo).tdiv (signed uval 8) < 2 ^ 63) :
    Emulator.idiv128 hi lo uval = (asU64 ((signed128 hi lo).tdiv (signed uval 8)),
      asU64 ((signed128 hi lo).tmod (signed uval 8))) := by
  have hdividend := natAbs_signed128 hi lo
  have hdivisor := natAbs_signed_eight uval
  have hnneg := signed128_neg_iff hi lo
  have hdneg := signed_eight_neg_iff uval
  have hq := tdiv_eq (signed128 hi lo) (signed uval 8)
  have hr := tmod_eq (signed128 hi lo) (signed uval 8)
  unfold Emulator.idiv128
  dsimp only at hdividend ⊢
  generalize (if hi >>> 63 ≠ 0 then ~~~lo + 1 else lo) = lo' at hdividend ⊢
  generalize (if hi >>> 63 ≠ 0 then ~~~hi + (if lo' = 0 then 1 else 0) else hi) = hi'
    at hdividend ⊢
  generalize (if uval >>> 63 ≠ 0 then ~~~uval + 1 else uval) = ud at hdivisor ⊢
  have hud : ud ≠ 0 := by
    rintro rfl
    exact hne (Int.natAbs_eq_zero.mp hdivisor.symm)
  obtain ⟨hquot, hrem⟩ := udiv128_spec hi' lo' hud
  rw [hdividend, hdivisor] at hquot hrem
  have hlt : (signed128 hi lo).natAbs / (signed uval 8).natAbs < 2 ^ 64 := by
    split_ifs at hq <;> omega
  rw [Nat.mod_eq_of_lt hlt] at hquot
  refine Prod.ext ?_ ?_
  · dsimp only
    rw [hq, ← hquot]
    by_cases hsign : signed128 hi lo < 0 ↔ signed uval 8 < 0
    · rw [if_neg (not_not.mpr (propext (hnneg.trans (hsign.trans hdneg.symm)))), if_pos hsign,
        asU64_toNat]
    · rw [if_pos fun heq => hsign (hnneg.symm.trans ((iff_of_eq heq).trans hdneg)), if_neg hsign,
        not_add_one]
  · dsimp only
    rw [hr, ← hrem]
    by_cases hsign : signed128 hi lo < 0
    · rw [if_pos (hnneg.mpr hsign), if_pos hsign, not_add_one]
    · rw [if_neg (mt hnneg.mp hsign), if_neg hsign, asU64_toNat]

/-! ### The registers of a division -/

/-- The register of the quotient, and of the low part of the dividend. -/
def quotientRegister (size : ℕ) (is64bit : Bool) : RegIndex := gpLane 0 size is64bit

/-- The register of the remainder, and of the high part of the dividend. -/
def remainderRegister (size : ℕ) (is64bit : Bool) : RegIndex :=
  if size = 1 then .lane 8 8 0 else gpLane 2 size is64bit

/-- The operand of a division: a register of its size or in memory, of eight bytes in the mode of 64
bits only. -/
structure DivisorOperand (is64bit : Bool) (insn : DecodedInsn) : Prop where
  one : insn.operands.length = 1
  decoded : ∃ z hasSib, z.Sized ∧ insn.operand 0 = translateOperand z hasSib
  notImmediate : (insn.operand 0).kind ≠ .imm ∧ (insn.operand 0).kind ≠ .pcRel
  width : IsWidth (insn.operand 0).widthBytes
  mode : (insn.operand 0).widthBytes = 8 → is64bit = true

/-- The lane of a general register is in its slot and has the size. -/
theorem gpLane_spec {size : ℕ} {is64bit : Bool} (slot : Slot) (hs : IsWidth size)
    (hmode : size = 8 → is64bit = true) : (gpLane slot size is64bit).Valid is64bit ∧
      (gpLane slot size is64bit).width is64bit = 8 * size ∧
      (gpLane slot size is64bit).slot = slot := by
  rcases hs with rfl | rfl | rfl | rfl
  · exact ⟨RegIndex.valid_lane _ _ (by decide) (by decide), rfl, rfl⟩
  · exact ⟨RegIndex.valid_lane _ _ (by decide) (by decide), rfl, rfl⟩
  · cases is64bit with
    | true => exact ⟨RegIndex.valid_lane _ _ (by decide) (by decide), rfl, rfl⟩
    | false => exact ⟨RegIndex.valid_real _ _, rfl, rfl⟩
  · rw [hmode rfl]
    exact ⟨RegIndex.valid_real _ _, rfl, rfl⟩

/-- Two halves of a number of up to 64 bits. -/
theorem toNat_shiftLeft_add {n : ℕ} (hn : n ≤ 32) {hi lo : UInt64} (hhi : hi.toNat < 2 ^ n)
    (hlo : lo.toNat < 2 ^ n) :
    ((hi <<< UInt64.ofNat n) + lo).toNat = hi.toNat * 2 ^ n + lo.toNat ∧
      (hi <<< UInt64.ofNat n ||| lo).toNat = hi.toNat * 2 ^ n + lo.toNat := by
  have hpow : 2 ^ n * 2 ^ n ≤ 2 ^ 64 := by
    rw [← Nat.pow_add]
    exact Nat.pow_le_pow_right (by decide) (by omega)
  have hsum : hi.toNat * 2 ^ n + lo.toNat < 2 ^ 64 := by
    refine Nat.lt_of_lt_of_le ?_ hpow
    calc hi.toNat * 2 ^ n + lo.toNat < hi.toNat * 2 ^ n + 2 ^ n := Nat.add_lt_add_left hlo _
      _ = (hi.toNat + 1) * 2 ^ n := by ring
      _ ≤ 2 ^ n * 2 ^ n := Nat.mul_le_mul_right _ hhi
  have hshift : (hi <<< UInt64.ofNat n).toNat = hi.toNat * 2 ^ n := by
    rw [UInt64.toNat_shiftLeft, UInt64.toNat_ofNat', Nat.mod_eq_of_lt (a := n) (by omega),
      Nat.mod_eq_of_lt (a := n) (by omega), Nat.shiftLeft_eq, Nat.mod_eq_of_lt (by omega)]
  constructor
  · rw [UInt64.toNat_add, hshift, Nat.mod_eq_of_lt hsum]
  · rw [UInt64.toNat_or, hshift, Nat.mul_comm, ← Nat.two_pow_add_eq_or_of_lt hlo]

namespace Emulator

variable (e : Emulator) (insn : DecodedInsn)

/-- The dividend as an unsigned number. -/
def unsignedDividend (size : ℕ) : ℕ :=
  (e.regs.get (remainderRegister size e.is64bit)).toNat * 2 ^ (8 * size) +
    (e.regs.get (quotientRegister size e.is64bit)).toNat

/-- The dividend as a signed number. -/
def signedDividend (size : ℕ) : ℤ :=
  if e.unsignedDividend size < 2 ^ (16 * size - 1) then e.unsignedDividend size
  else e.unsignedDividend size - 2 ^ (16 * size)

/-- The quotient has the size of the divisor. -/
def QuotientFits : Prop :=
  let size := (insn.operand 0).widthBytes
  let divisor := e.getOperValue insn 0
  match insn.mnem with
  | .div => e.unsignedDividend size / divisor.toNat < 2 ^ (8 * size)
  | _ => -2 ^ (8 * size - 1) ≤ (e.signedDividend size).tdiv (signed divisor size) ∧
      (e.signedDividend size).tdiv (signed divisor size) < 2 ^ (8 * size - 1)

/-- The registers of `e'` are the quotient and the remainder of a division in `e`: the division
equation holds, the remainder is less than the divisor and has the sign of the dividend. -/
def Divides (e' : Emulator) : Prop :=
  let size := (insn.operand 0).widthBytes
  let divisor := e.getOperValue insn 0
  let quot := e'.regs.get (quotientRegister size e'.is64bit)
  let rem := e'.regs.get (remainderRegister size e'.is64bit)
  match insn.mnem with
  | .div => e.unsignedDividend size = divisor.toNat * quot.toNat + rem.toNat ∧
      rem.toNat < divisor.toNat
  | _ => e.signedDividend size = signed divisor size * signed quot size + signed rem size ∧
      |signed rem size| < |signed divisor size| ∧
      (signed rem size = 0 ∨ (signed rem size < 0 ↔ e.signedDividend size < 0))

variable {e insn}

/-- The registers of `e'` are two numbers, cut to a size. -/
structure HasQuotRem (e' : Emulator) (is64bit : Bool) (size : ℕ) (q r : UInt64) : Prop where
  mode : e'.is64bit = is64bit
  quot : (e'.regs.get (quotientRegister size is64bit)).toNat = q.toNat % 2 ^ (8 * size)
  rem : (e'.regs.get (remainderRegister size is64bit)).toNat = r.toNat % 2 ^ (8 * size)

/-- Two registers that are written. -/
theorem hasQuotRem_setQuotRem {size : ℕ} (hs : IsWidth size) (h1 : size ≠ 1)
    (hmode : size = 8 → e.is64bit = true) (q r : UInt64) :
    HasQuotRem (e.setQuotRem (gpLane 0 size e.is64bit) (gpLane 2 size e.is64bit) q r) e.is64bit
      size q r := by
  obtain ⟨hqvalid, hqwidth, hqslot⟩ := gpLane_spec 0 hs hmode
  obtain ⟨hrvalid, hrwidth, hrslot⟩ := gpLane_spec 2 hs hmode
  have hrem : remainderRegister size e.is64bit = gpLane 2 size e.is64bit := if_neg h1
  refine ⟨?_, ?_, ?_⟩
  · unfold setQuotRem
    rw [setRegister_is64bit, setRegister_is64bit]
  · unfold setQuotRem quotientRegister
    rw [setRegister_regs, RegisterFile.get_set_of_ne (by rw [hqslot, hrslot]; decide),
      setRegister_regs, RegisterFile.toNat_get_set_self hqvalid]
    exact congrArg (q.toNat % 2 ^ ·) hqwidth
  · rw [hrem]
    unfold setQuotRem
    rw [setRegister_regs, RegisterFile.toNat_get_set_self
      (by rw [setRegister_regs, RegisterFile.set_is64bit]; exact hrvalid), setRegister_regs,
      RegisterFile.set_is64bit]
    exact congrArg (r.toNat % 2 ^ ·) hrwidth

/-- Two bytes that are written together. -/
theorem hasQuotRem_packed (q r : UInt64) :
    HasQuotRem (e.setRegister kRegAx ((r &&& 0xFF) <<< 8 ||| q &&& 0xFF)) e.is64bit 1 q r := by
  have hvalid (offset width : ℕ) (hpos : 0 < width) (hle : offset + width ≤ 32) :
      (RegIndex.lane offset width 0).Valid e.is64bit := RegIndex.valid_lane _ _ hpos hle
  have hax : ((e.regs.set (.lane 0 16 0) ((r &&& 0xFF) <<< 8 ||| q &&& 0xFF)).get
      (.lane 0 16 0)).toNat = ((r &&& 0xFF) <<< 8 ||| q &&& 0xFF).toNat % 2 ^ 16 :=
    RegisterFile.toNat_get_set_self (hvalid 0 16 (by decide) (by decide))
  have hand (x : UInt64) : (x &&& 0xFF).toNat = x.toNat % 2 ^ 8 := by
    rw [UInt64.toNat_and]
    exact Nat.and_two_pow_sub_one_eq_mod x.toNat 8
  have hvalue : ((r &&& 0xFF) <<< 8 ||| q &&& 0xFF).toNat =
      2 ^ 8 * (r.toNat % 2 ^ 8) + q.toNat % 2 ^ 8 := by
    have hshift : ((r &&& 0xFF) <<< 8).toNat = 2 ^ 8 * (r.toNat % 2 ^ 8) := by
      rw [UInt64.toNat_shiftLeft, hand]
      show (r.toNat % 2 ^ 8) <<< 8 % 2 ^ 64 = _
      rw [Nat.shiftLeft_eq]
      omega
    rw [UInt64.toNat_or, hshift, hand, ← Nat.two_pow_add_eq_or_of_lt (Nat.mod_lt _ (by decide))]
  have hget (offset : ℕ) (hle : offset + 8 ≤ 32) :
      ((e.setRegister kRegAx ((r &&& 0xFF) <<< 8 ||| q &&& 0xFF)).regs.get
        (.lane offset 8 0)).toNat = ((e.setRegister kRegAx
          ((r &&& 0xFF) <<< 8 ||| q &&& 0xFF)).regs.vals 0).toNat / 2 ^ offset % 2 ^ 8 := by
    refine RegisterFile.toNat_get ?_
    rw [setRegister_regs, RegisterFile.set_is64bit]
    exact hvalid offset 8 (by decide) hle
  have hvalid' : (RegIndex.lane 0 16 0).Valid (e.regs.set (.lane 0 16 0)
      ((r &&& 0xFF) <<< 8 ||| q &&& 0xFF)).is64bit := by
    rw [RegisterFile.set_is64bit]
    exact hvalid 0 16 (by decide) (by decide)
  rw [RegisterFile.toNat_get hvalid', RegisterFile.set_is64bit, hvalue] at hax
  have hax' : ((e.setRegister kRegAx ((r &&& 0xFF) <<< 8 ||| q &&& 0xFF)).regs.vals 0).toNat /
      2 ^ 0 % 2 ^ 16 = (2 ^ 8 * (r.toNat % 2 ^ 8) + q.toNat % 2 ^ 8) % 2 ^ 16 := hax
  refine ⟨setRegister_is64bit _, ?_, ?_⟩
  · refine (hget 0 (by decide)).trans ?_
    omega
  · refine (hget 8 (by decide)).trans ?_
    omega

section DivisorOperand

variable (h : DivisorOperand e.is64bit insn)

include h

theorem dsize_eq_width : insn.dsize = (insn.operand 0).widthBytes := by
  unfold DecodedInsn.dsize
  cases hops : insn.operands with
  | nil =>
    have hone := h.one
    rw [hops] at hone
    exact absurd hone (by decide)
  | cons op ops => rfl

theorem toNat_divisor_lt :
    (e.getOperValue insn 0).toNat < 2 ^ (8 * (insn.operand 0).widthBytes) := by
  refine toNat_getOperValue_lt (fun hreg => ?_) h.notImmediate
  obtain ⟨z, hasSib, hsized, hop⟩ := h.decoded
  exact widthBytes_of_kind_reg hsized hop hreg

theorem toNat_quotientRegister_lt :
    (e.regs.get (quotientRegister (insn.operand 0).widthBytes e.is64bit)).toNat <
      2 ^ (8 * (insn.operand 0).widthBytes) := by
  obtain ⟨hvalid, hwidth, -⟩ := gpLane_spec 0 h.width h.mode
  rw [← hwidth]
  exact RegisterFile.toNat_get_lt hvalid

theorem toNat_remainderRegister_lt :
    (e.regs.get (remainderRegister (insn.operand 0).widthBytes e.is64bit)).toNat <
      2 ^ (8 * (insn.operand 0).widthBytes) := by
  unfold remainderRegister
  split_ifs with h1
  · rw [h1]
    exact RegisterFile.toNat_get_lt (RegIndex.valid_lane _ _ (by decide) (by decide))
  · obtain ⟨hvalid, hwidth, -⟩ := gpLane_spec 2 h.width h.mode
    rw [← hwidth]
    exact RegisterFile.toNat_get_lt hvalid

theorem opDiv_spec (h1 : (insn.operand 0).widthBytes ≠ 1) (hne : e.getOperValue insn 0 ≠ 0) :
    ∃ e' q r, e.opDiv insn = .ok e' ∧
      HasQuotRem e' e.is64bit (insn.operand 0).widthBytes q r ∧
      q.toNat = e.unsignedDividend (insn.operand 0).widthBytes / (e.getOperValue insn 0).toNat %
        2 ^ 64 ∧
      r.toNat = e.unsignedDividend (insn.operand 0).widthBytes % (e.getOperValue insn 0).toNat := by
  have hlo := toNat_quotientRegister_lt h
  have hhi := toNat_remainderRegister_lt h
  have hquot := hasQuotRem_setQuotRem (e := e) h.width h1 h.mode
  have hmode := h.mode
  have hwidth := h.width
  have hdivmod (tot : UInt64) (f : UInt64 → UInt64 → Emulator) : (do
      let q ← U64.div tot (e.getOperValue insn 0)
      let r ← U64.mod tot (e.getOperValue insn 0)
      pure (f q r) : Defined Emulator) =
        .ok (f (tot / e.getOperValue insn 0) (tot % e.getOperValue insn 0)) := by
    rw [U64.div, if_neg hne, U64.mod, if_neg hne]
    rfl
  have hquotient {n : ℕ} (tot : UInt64) (htot : tot.toNat = n) :
      (tot / e.getOperValue insn 0).toNat = n / (e.getOperValue insn 0).toNat % 2 ^ 64 := by
    rw [UInt64.toNat_div, htot]
    exact (Nat.mod_eq_of_lt (Nat.lt_of_le_of_lt (Nat.div_le_self _ _) (htot ▸ tot.toNat_lt))).symm
  have hremainder {n : ℕ} (tot : UInt64) (htot : tot.toNat = n) :
      (tot % e.getOperValue insn 0).toNat = n % (e.getOperValue insn 0).toNat := by
    rw [UInt64.toNat_mod, htot]
  unfold opDiv unsignedDividend
  dsimp only
  rw [dsize_eq_width h]
  generalize (insn.operand 0).widthBytes = size at hlo hhi hquot hmode hwidth h1 ⊢
  rcases hwidth with rfl | rfl | rfl | rfl
  · exact absurd rfl h1
  · have htot := (toNat_shiftLeft_add (n := 16) (by decide) hhi hlo).1
    rw [if_neg (by decide), if_pos rfl]
    exact ⟨_, _, _, hdivmod _ _, hquot _ _, hquotient _ htot, hremainder _ htot⟩
  · have htot := (toNat_shiftLeft_add (n := 32) (by decide) hhi hlo).1
    rw [if_neg (by decide), if_neg (by decide), if_pos rfl]
    exact ⟨_, _, _, hdivmod _ _, hquot _ _, hquotient _ htot, hremainder _ htot⟩
  · rw [if_neg (by decide), if_neg (by decide), if_neg (by decide)]
    obtain ⟨hdiv, hmod⟩ := udiv128_spec (e.regs.get kRegRdx) (e.regs.get kRegRax) hne
    exact ⟨_, _, _, rfl, hquot _ _, hdiv, hmod⟩

/-- The dividend of up to 64 bits, read as a signed number. -/
theorem signed_eq_signedDividend (h8 : (insn.operand 0).widthBytes ≠ 8) {tot : UInt64}
    (htot : tot.toNat = e.unsignedDividend (insn.operand 0).widthBytes) :
    signed tot (2 * (insn.operand 0).widthBytes) =
      e.signedDividend (insn.operand 0).widthBytes := by
  have hlo := toNat_quotientRegister_lt h
  have hhi := toNat_remainderRegister_lt h
  have hwidth := h.width
  unfold signedDividend
  rw [← htot]
  unfold unsignedDividend at htot
  generalize (insn.operand 0).widthBytes = size at hlo hhi htot hwidth h8 ⊢
  rcases hwidth with rfl | rfl | rfl | rfl
  · rw [signed_eq (.inr (.inl rfl)), Nat.mod_eq_of_lt (by omega)]
  · rw [signed_eq (.inr (.inr (.inl rfl))), Nat.mod_eq_of_lt (by omega)]
  · rw [signed_eq (.inr (.inr (.inr rfl))), Nat.mod_eq_of_lt (by omega)]
  · exact absurd rfl h8

omit h in
/-- Two bytes that are read together. -/
theorem toNat_ax : (e.regs.get kRegAx).toNat = e.unsignedDividend 1 := by
  have hget (offset width : ℕ) (hpos : 0 < width) (hle : offset + width ≤ 32) :
      (e.regs.get (.lane offset width 0)).toNat =
        (e.regs.vals 0).toNat / 2 ^ offset % 2 ^ width :=
    RegisterFile.toNat_get (RegIndex.valid_lane _ _ hpos hle)
  have hax := hget 0 16 (by decide) (by decide)
  have hal := hget 0 8 (by decide) (by decide)
  have hah := hget 8 8 (by decide) (by decide)
  show (e.regs.get (.lane 0 16 0)).toNat = (e.regs.get (.lane 8 8 0)).toNat * 2 ^ (8 * 1) +
    (e.regs.get (.lane 0 8 0)).toNat
  rw [hax, hal, hah]
  omega

theorem opIdiv_spec (hne : signed (e.getOperValue insn 0) (insn.operand 0).widthBytes ≠ 0)
    (hfits : -2 ^ (8 * (insn.operand 0).widthBytes - 1) ≤
        (e.signedDividend (insn.operand 0).widthBytes).tdiv
          (signed (e.getOperValue insn 0) (insn.operand 0).widthBytes) ∧
      (e.signedDividend (insn.operand 0).widthBytes).tdiv
          (signed (e.getOperValue insn 0) (insn.operand 0).widthBytes) <
        2 ^ (8 * (insn.operand 0).widthBytes - 1)) :
    ∃ e', e.opIdiv insn = .ok e' ∧ HasQuotRem e' e.is64bit (insn.operand 0).widthBytes
      (asU64 ((e.signedDividend (insn.operand 0).widthBytes).tdiv
        (signed (e.getOperValue insn 0) (insn.operand 0).widthBytes)))
      (asU64 (idivRemainder (insn.operand 0).widthBytes
        (e.signedDividend (insn.operand 0).widthBytes)
        (signed (e.getOperValue insn 0) (insn.operand 0).widthBytes))) := by
  have hlo := toNat_quotientRegister_lt h
  have hhi := toNat_remainderRegister_lt h
  have hdividend (h8 : (insn.operand 0).widthBytes ≠ 8) {tot : UInt64}
      (htot : tot.toNat = e.unsignedDividend (insn.operand 0).widthBytes) :=
    signed_eq_signedDividend h h8 htot
  have hquot (h1 : (insn.operand 0).widthBytes ≠ 1) :=
    hasQuotRem_setQuotRem (e := e) h.width h1 h.mode
  have hdbounds := signed_bounds h.width (e.getOperValue insn 0)
  have hwidth := h.width
  unfold opIdiv
  dsimp only
  rw [dsize_eq_width h]
  generalize (insn.operand 0).widthBytes = size
    at hlo hhi hdividend hquot hdbounds hwidth hne hfits ⊢
  have hd63 : -2 ^ 63 ≤ signed (e.getOperValue insn 0) size ∧
      signed (e.getOperValue insn 0) size < 2 ^ 63 := signed_fits (.inr hwidth) _
  rcases hwidth with rfl | rfl | rfl | rfl
  · have hn := signed_bounds (show 2 = 1 ∨ _ from .inr (.inl rfl)) (e.regs.get kRegAx)
    have heq := hdividend (by decide) (toNat_ax (e := e))
    have heq' : signed (e.regs.get kRegAx) 2 = e.signedDividend 1 := heq
    rw [heq'] at hn
    norm_num at hn hdbounds
    rw [if_pos rfl, heq', signedQuotRem_eq_tdiv (show 1 ≠ 8 by decide) (by omega) (by omega) hne]
    exact ⟨_, rfl, hasQuotRem_packed _ _⟩
  · have htot := (toNat_shiftLeft_add (n := 16) (by decide) hhi hlo).2
    have hn := signed_bounds (show 4 = 1 ∨ _ from .inr (.inr (.inl rfl)))
      (e.regs.get kRegDx <<< 16 ||| e.regs.get kRegAx)
    have heq := hdividend (by decide) htot
    have heq' : signed (e.regs.get kRegDx <<< 16 ||| e.regs.get kRegAx) 4 =
        e.signedDividend 2 := heq
    rw [heq'] at hn
    norm_num at hn hdbounds
    rw [if_neg (by decide), if_pos rfl, heq',
      signedQuotRem_eq_tdiv (show 2 ≠ 8 by decide) (by omega) (by omega) hne]
    exact ⟨_, rfl, hquot (by decide) _ _⟩
  · have htot := (toNat_shiftLeft_add (n := 32) (by decide) hhi hlo).2
    have hn := signed_bounds (show 8 = 1 ∨ _ from .inr (.inr (.inr rfl)))
      (e.regs.get (gpLane 2 4 e.is64bit) <<< 32 ||| e.regs.get (gpLane 0 4 e.is64bit))
    have heq := hdividend (by decide) htot
    have heq' : signed (e.regs.get (gpLane 2 4 e.is64bit) <<< 32 |||
      e.regs.get (gpLane 0 4 e.is64bit)) 8 = e.signedDividend 4 := heq
    rw [heq'] at hn
    have hmin := ne_min_of_quotient_fits hdbounds hne hfits
    norm_num at hn hdbounds hmin
    rw [if_neg (by decide), if_neg (by decide), if_pos rfl, heq',
      signedQuotRem_eq_tdiv (show 4 ≠ 8 by decide) (by omega) (by omega) hne]
    exact ⟨_, rfl, hquot (by decide) _ _⟩
  · have heq : e.signedDividend 8 = signed128 (e.regs.get kRegRdx) (e.regs.get kRegRax) := by
      unfold signedDividend unsignedDividend signed128
      simp only [show 16 * 8 - 1 = 127 from rfl, show 16 * 8 = 128 from rfl,
        show 8 * 8 = 64 from rfl]
      push_cast
      rfl
    rw [heq, show 8 * 8 - 1 = 63 from rfl] at hfits
    rw [heq, if_neg (by decide), if_neg (by decide), if_neg (by decide),
      idiv128_spec _ _ _ hne hfits, idivRemainder, if_pos rfl]
    exact ⟨_, rfl, hquot (by decide) _ _⟩

omit h in
/-- The program counter is not a register of a division. -/
theorem HasQuotRem.setProgramCounter {e' : Emulator} {is64bit : Bool} {size : ℕ} {q r : UInt64}
    (hr : HasQuotRem e' is64bit size q r) (hs : IsWidth size) (hmode : size = 8 → is64bit = true)
    (va : UInt64) : HasQuotRem (e'.setProgramCounter va) is64bit size q r := by
  have hpc : e'.regs.pcIndex.val ≥ 8 := by
    unfold RegisterFile.pcIndex
    cases e'.regs.is64bit <;> decide
  have hget (i : RegIndex) (hslot : i.slot.val < 8) :
      (e'.setProgramCounter va).regs.get i = e'.regs.get i := by
    refine RegisterFile.get_congr (setProgramCounter_vals_of_ne fun heq => ?_)
    have hval : i.slot.val = e'.regs.pcIndex.val := congrArg Fin.val heq
    omega
  refine ⟨hr.mode, ?_, ?_⟩
  · rw [← hr.quot, hget]
    rw [quotientRegister, (gpLane_spec 0 hs hmode).2.2]
    decide
  · rw [← hr.rem, hget]
    unfold remainderRegister
    split_ifs
    · decide
    · rw [(gpLane_spec 2 hs hmode).2.2]
      decide

theorem divides_of_div (hmnem : insn.mnem = .div) (hne : e.getOperValue insn 0 ≠ 0)
    (hfits : e.QuotientFits insn) {e' : Emulator} {q r : UInt64}
    (hr : HasQuotRem e' e.is64bit (insn.operand 0).widthBytes q r)
    (hq : q.toNat = e.unsignedDividend (insn.operand 0).widthBytes / (e.getOperValue insn 0).toNat %
      2 ^ 64)
    (hrem : r.toNat = e.unsignedDividend (insn.operand 0).widthBytes %
      (e.getOperValue insn 0).toNat) : e.Divides insn e' := by
  have hpos : 0 < (e.getOperValue insn 0).toNat :=
    Nat.pos_of_ne_zero fun h0 => hne (UInt64.toNat_inj.mp h0)
  have hlt := toNat_divisor_lt h
  have hle : 2 ^ (8 * (insn.operand 0).widthBytes) ≤ 2 ^ 64 := by
    refine Nat.pow_le_pow_right (by decide) ?_
    rcases h.width with hw | hw | hw | hw <;> omega
  unfold QuotientFits at hfits
  unfold Divides
  rw [hmnem] at hfits ⊢
  dsimp only at hfits ⊢
  rw [hr.mode, hr.quot, hr.rem, hq, hrem, Nat.mod_eq_of_lt (Nat.lt_of_lt_of_le hfits hle),
    Nat.mod_eq_of_lt hfits, Nat.mod_eq_of_lt (Nat.lt_trans (Nat.mod_lt _ hpos) hlt)]
  exact ⟨(Nat.div_add_mod _ _).symm, Nat.mod_lt _ hpos⟩

omit h in
theorem natAbs_idivRemainder (size : ℕ) (n d : ℤ) :
    (idivRemainder size n d).natAbs = n.natAbs % d.natAbs := by
  unfold idivRemainder
  split_ifs
  · exact Int.natAbs_tmod n d
  · exact Int.natAbs_natCast _
  · rw [Int.natAbs_neg, Int.natAbs_natCast]

/-- **The registers after `idiv`** are right when the remainder is. -/
theorem divides_iff_of_idiv (hmnem : insn.mnem = .idiv)
    (hne : signed (e.getOperValue insn 0) (insn.operand 0).widthBytes ≠ 0)
    (hfits : e.QuotientFits insn) {e' : Emulator}
    (hr : HasQuotRem e' e.is64bit (insn.operand 0).widthBytes
      (asU64 ((e.signedDividend (insn.operand 0).widthBytes).tdiv
        (signed (e.getOperValue insn 0) (insn.operand 0).widthBytes)))
      (asU64 (idivRemainder (insn.operand 0).widthBytes
        (e.signedDividend (insn.operand 0).widthBytes)
        (signed (e.getOperValue insn 0) (insn.operand 0).widthBytes)))) :
    e.Divides insn e' ↔ (insn.operand 0).widthBytes = 8 ∨
      0 < signed (e.getOperValue insn 0) (insn.operand 0).widthBytes ∨
      signed (e.getOperValue insn 0) (insn.operand 0).widthBytes ∣
        e.signedDividend (insn.operand 0).widthBytes := by
  have hwidth := h.width
  have hdbounds := signed_bounds hwidth (e.getOperValue insn 0)
  have hquot := hr.quot
  have hrem := hr.rem
  unfold QuotientFits at hfits
  unfold Divides
  rw [hmnem] at hfits ⊢
  dsimp only at hfits ⊢
  rw [hr.mode]
  generalize e.regs.get (quotientRegister (insn.operand 0).widthBytes e.is64bit) = quot at *
  generalize (insn.operand 0).widthBytes = size at *
  generalize signed (e.getOperValue insn 0) size = d at *
  generalize e.signedDividend size = n at *
  have hnat := natAbs_idivRemainder size n d
  have hlt : n.natAbs % d.natAbs < d.natAbs := Nat.mod_lt _ (Int.natAbs_pos.mpr hne)
  have hrfits : -2 ^ (8 * size - 1) ≤ idivRemainder size n d ∧
      idivRemainder size n d < 2 ^ (8 * size - 1) := by
    rcases hwidth with rfl | rfl | rfl | rfl <;> norm_num at hdbounds ⊢ <;> omega
  have hsq : signed (e'.regs.get (quotientRegister size e.is64bit)) size = n.tdiv d := by
    rw [← signed_asU64 hwidth hfits]
    exact signed_congr hwidth (by rw [hquot, Nat.mod_mod])
  have hsr : signed (e'.regs.get (remainderRegister size e.is64bit)) size =
      idivRemainder size n d := by
    refine Eq.trans ?_ (signed_asU64 hwidth hrfits)
    exact signed_congr hwidth (by rw [hrem, Nat.mod_mod])
  rw [hsq, hsr, isRemainder_iff hne]
  unfold idivRemainder
  by_cases h8 : size = 8
  · rw [if_pos h8]
    exact iff_of_true rfl (.inl h8)
  · rw [if_neg h8, remainder_eq_tmod_iff hne, or_iff_right h8]

end DivisorOperand

end Emulator

open Emulator

/-- The registers after an instruction that divides. -/
theorem exists_divides_iff (e : Emulator) (insn : DecodedInsn) (h : DivisorOperand e.is64bit insn)
    (hmnem : insn.mnem = .div ∧ (insn.operand 0).widthBytes ≠ 1 ∨ insn.mnem = .idiv)
    (hne : (e.setProgramCounter insn.va).getOperValue insn 0 ≠ 0)
    (hfits : (e.setProgramCounter insn.va).QuotientFits insn) :
    (∃ e', e.executeOpcode insn = .ok (.continue, e') ∧
        (e.setProgramCounter insn.va).Divides insn e') ↔
      insn.mnem = .div ∨ (insn.operand 0).widthBytes = 8 ∨
        0 < signed ((e.setProgramCounter insn.va).getOperValue insn 0)
          (insn.operand 0).widthBytes ∨
        signed ((e.setProgramCounter insn.va).getOperValue insn 0) (insn.operand 0).widthBytes ∣
          (e.setProgramCounter insn.va).signedDividend (insn.operand 0).widthBytes := by
  have hmode := h.mode
  replace h : DivisorOperand (e.setProgramCounter insn.va).is64bit insn := h
  generalize he : e.setProgramCounter insn.va = e₀ at h hne hfits ⊢
  unfold executeOpcode
  rw [he]
  rcases hmnem with ⟨hm, h1⟩ | hm
  · obtain ⟨e', q, r, hok, hr, hq, hrem⟩ := opDiv_spec h h1 hne
    have hhandle : e₀.handle insn = .ok { after := e' } := by
      simp only [handle, hm, if_neg hne, hok]
      rfl
    rw [hhandle]
    exact iff_of_true ⟨_, rfl, divides_of_div h hm hne hfits
      (hr.setProgramCounter h.width h.mode _) hq hrem⟩ (.inl hm)
  · have hsigned : signed (e₀.getOperValue insn 0) (insn.operand 0).widthBytes ≠ 0 := by
      intro h0
      have hmod := signed_emod h.width (e₀.getOperValue insn 0)
      rw [h0, Int.zero_emod, Nat.mod_eq_of_lt (toNat_divisor_lt h)] at hmod
      exact hne (UInt64.toNat_inj.mp (Int.natCast_eq_zero.mp hmod.symm))
    have hfits' := hfits
    unfold QuotientFits at hfits'
    rw [hm] at hfits'
    obtain ⟨e', hok, hr⟩ := opIdiv_spec h hsigned hfits'
    have hhandle : e₀.handle insn = .ok { after := e' } := by
      simp only [handle, hm, if_neg hne, hok]
      rfl
    have hdivides := divides_iff_of_idiv h hm hsigned hfits
      (hr.setProgramCounter h.width h.mode (insn.va + insn.length))
    rw [hhandle, hm, ← hdivides]
    constructor
    · rintro ⟨e'', heq, hdiv⟩
      obtain ⟨-, rfl⟩ := Prod.mk.inj (Except.ok.inj heq)
      exact .inr hdiv
    · rintro (hdiv | hdiv)
      · exact absurd hdiv nofun
      · exact ⟨_, rfl, hdiv⟩

/-- **Division.** The division bit by bit gives the remainder, the quotient as far as it fits, and
both satisfy the division equation exactly when the quotient fits. The registers after a division
whose quotient fits are right exactly when the division is unsigned, of eight bytes, by a positive
number, or without a remainder. -/
theorem division_iff (hi lo d : UInt64) (e : Emulator) (insn : DecodedInsn) :
    (d ≠ 0 →
      (udiv128 hi lo d).1.toNat = (hi.toNat * 2 ^ 64 + lo.toNat) / d.toNat % 2 ^ 64 ∧
      (udiv128 hi lo d).2.toNat = (hi.toNat * 2 ^ 64 + lo.toNat) % d.toNat ∧
      (hi.toNat * 2 ^ 64 + lo.toNat = d.toNat * (udiv128 hi lo d).1.toNat +
        (udiv128 hi lo d).2.toNat ↔ (hi.toNat * 2 ^ 64 + lo.toNat) / d.toNat < 2 ^ 64)) ∧
    (DivisorOperand e.is64bit insn →
      insn.mnem = .div ∧ (insn.operand 0).widthBytes ≠ 1 ∨ insn.mnem = .idiv →
      (e.setProgramCounter insn.va).getOperValue insn 0 ≠ 0 →
      (e.setProgramCounter insn.va).QuotientFits insn →
      ((∃ e', e.executeOpcode insn = .ok (.continue, e') ∧
          (e.setProgramCounter insn.va).Divides insn e') ↔
        insn.mnem = .div ∨ (insn.operand 0).widthBytes = 8 ∨
          0 < signed ((e.setProgramCounter insn.va).getOperValue insn 0)
            (insn.operand 0).widthBytes ∨
          signed ((e.setProgramCounter insn.va).getOperValue insn 0) (insn.operand 0).widthBytes ∣
            (e.setProgramCounter insn.va).signedDividend (insn.operand 0).widthBytes)) := by
  refine ⟨fun hd => ?_, exists_divides_iff e insn⟩
  obtain ⟨hquot, hrem⟩ := udiv128_spec hi lo hd
  exact ⟨hquot, hrem, udiv128_exact_iff hi lo hd⟩

/-- `idiv ecx`. -/
def idivInsn : DecodedInsn :=
  { va := 0x1000, length := 2, mnem := .idiv
    operands := [translateOperand (.register 32 (.gpr32 1)) false] }

theorem divisorOperand_idivInsn : DivisorOperand false idivInsn where
  one := rfl
  decoded := ⟨.register 32 (.gpr32 1), false, rfl, rfl⟩
  notImmediate := by decide
  width := .inr (.inr (.inl rfl))
  mode := by decide

/-- 7 in `eax` and a number in `ecx`. -/
def sevenBy (divisor : UInt32) : Emulator where
  regs :=
    { is64bit := false
      vals := fun i => if i = 0 then 7 else if i = 1 then divisor.toUInt64 else 0
      masked := by
        intro i
        split_ifs
        · rfl
        · refine UInt64.toNat_inj.mp ?_
          rw [UInt64.toNat_and, UInt32.toNat_toUInt64]
          exact (Nat.and_two_pow_sub_one_eq_mod divisor.toNat 32).trans
            (Nat.mod_eq_of_lt divisor.toNat_lt)
        · rfl }

theorem quotientFits_sevenBy_two :
    ((sevenBy 2).setProgramCounter 0x1000).QuotientFits idivInsn := by
  have hquot : (((sevenBy 2).setProgramCounter 0x1000).signedDividend
      (idivInsn.operand 0).widthBytes).tdiv
      (signed (((sevenBy 2).setProgramCounter 0x1000).getOperValue idivInsn 0)
        (idivInsn.operand 0).widthBytes) = 3 := by decide
  show -2 ^ (8 * 4 - 1) ≤ _ ∧ _ < 2 ^ (8 * 4 - 1)
  rw [hquot]
  norm_num

theorem quotientFits_sevenBy_negative :
    ((sevenBy 0xFFFFFFFE).setProgramCounter 0x1000).QuotientFits idivInsn := by
  have hquot : (((sevenBy 0xFFFFFFFE).setProgramCounter 0x1000).signedDividend
      (idivInsn.operand 0).widthBytes).tdiv
      (signed (((sevenBy 0xFFFFFFFE).setProgramCounter 0x1000).getOperValue idivInsn 0)
        (idivInsn.operand 0).widthBytes) =
        -3 := by decide
  show -2 ^ (8 * 4 - 1) ≤ _ ∧ _ < 2 ^ (8 * 4 - 1)
  rw [hquot]
  norm_num

theorem division_iff_seven : ∃ e', executeOpcode (sevenBy 2) idivInsn = .ok (.continue, e') ∧
    ((sevenBy 2).setProgramCounter 0x1000).Divides idivInsn e' :=
  ((division_iff 0 0 1 (sevenBy 2) idivInsn).2 divisorOperand_idivInsn (.inr rfl) (by decide)
    quotientFits_sevenBy_two).mpr (.inr (.inr (.inl (by decide))))

/-- 7 divided by -2 has the remainder -1, and -2 * -3 + -1 is 5. -/
theorem executeOpcode_idiv_negative :
    ((sevenBy 0xFFFFFFFE).setProgramCounter 0x1000).QuotientFits idivInsn ∧
      ¬ ∃ e', executeOpcode (sevenBy 0xFFFFFFFE) idivInsn = .ok (.continue, e') ∧
        ((sevenBy 0xFFFFFFFE).setProgramCounter 0x1000).Divides idivInsn e' := by
  refine ⟨quotientFits_sevenBy_negative, ?_⟩
  refine fun hex => absurd ((exists_divides_iff (sevenBy 0xFFFFFFFE) idivInsn
    divisorOperand_idivInsn (.inr rfl) (by decide) quotientFits_sevenBy_negative).mp hex) ?_
  show ¬ (Mnemonic.idiv = .div ∨ 4 = 8 ∨ 0 < signed
    (((sevenBy 0xFFFFFFFE).setProgramCounter 0x1000).getOperValue idivInsn 0) 4 ∨
    signed (((sevenBy 0xFFFFFFFE).setProgramCounter 0x1000).getOperValue idivInsn 0) 4 ∣
      ((sevenBy 0xFFFFFFFE).setProgramCounter 0x1000).signedDividend 4)
  decide

end Papa.Emu
