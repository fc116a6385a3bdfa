import Mathlib.Algebra.Order.Ring.Abs
import Papa.Emu.Division

/-!
# Multiplication

The product of the accumulator and an operand has twice their width. It goes to two registers, the
high half to the data register, or to the one register `ax` when the operands are bytes. The high
half of a product of 64 bits is put together from four products of halves, and that of a signed
product is corrected by the factors.

## Main definitions

* `Emulator.pairValue`: the number in the two registers.
* `twosComplement`: the signed reading of a number.
* `Emulator.HasProduct`: what the two registers are after a multiplication.

## Main results

* `toNat_umulHi`, `asI64_smulHi`: the high halves.
* `multiplication_exact`: the product is exact.
-/

namespace Papa.Emu

open Bits Defined

/-! ### The high half of a product -/

theorem toNat_low (x : UInt64) : (x &&& 0xFFFFFFFF).toNat = x.toNat % 2 ^ 32 := by
  rw [UInt64.toNat_and]
  exact Nat.and_two_pow_sub_one_eq_mod x.toNat 32

theorem toNat_high (x : UInt64) : (x >>> 32).toNat = x.toNat / 2 ^ 32 := by
  rw [UInt64.toNat_shiftRight]
  exact Nat.shiftRight_eq_div_pow x.toNat 32

/-- A product of halves does not wrap. -/
theorem toNat_mul_half {x y : UInt64} (hx : x.toNat < 2 ^ 32) (hy : y.toNat < 2 ^ 32) :
    (x * y).toNat = x.toNat * y.toNat ∧ x.toNat * y.toNat ≤ (2 ^ 32 - 1) * (2 ^ 32 - 1) := by
  have hle : x.toNat * y.toNat ≤ (2 ^ 32 - 1) * (2 ^ 32 - 1) :=
    Nat.mul_le_mul (Nat.le_sub_one_of_lt hx) (Nat.le_sub_one_of_lt hy)
  rw [UInt64.toNat_mul]
  exact ⟨Nat.mod_eq_of_lt (Nat.lt_of_le_of_lt hle (by decide)), hle⟩

/-- **The high half of a product** of unsigned numbers. -/
theorem toNat_umulHi (a b : UInt64) : (umulHi a b).toNat = a.toNat * b.toNat / 2 ^ 64 := by
  have ha := a.toNat_lt
  have hb := b.toNat_lt
  have hlow (x : UInt64) : (x &&& 0xFFFFFFFF).toNat < 2 ^ 32 := by
    rw [toNat_low]
    omega
  have hhigh (x : UInt64) : (x >>> 32).toNat < 2 ^ 32 := by
    have hx := x.toNat_lt
    rw [toNat_high]
    omega
  obtain ⟨hll, hllle⟩ := toNat_mul_half (hlow a) (hlow b)
  obtain ⟨hlh, hlhle⟩ := toNat_mul_half (hlow a) (hhigh b)
  obtain ⟨hhl, hhlle⟩ := toNat_mul_half (hhigh a) (hlow b)
  obtain ⟨hhh, hhhle⟩ := toNat_mul_half (hhigh a) (hhigh b)
  -- the product of the numbers is that of their halves, with the columns shifted
  have hsplit (x : UInt64) : x.toNat = (x >>> 32).toNat * 2 ^ 32 + (x &&& 0xFFFFFFFF).toNat := by
    rw [toNat_low, toNat_high]
    omega
  have hproduct : a.toNat * b.toNat = (a >>> 32).toNat * (b >>> 32).toNat * 2 ^ 64 +
      ((a &&& 0xFFFFFFFF).toNat * (b >>> 32).toNat +
        (a >>> 32).toNat * (b &&& 0xFFFFFFFF).toNat) * 2 ^ 32 +
      (a &&& 0xFFFFFFFF).toNat * (b &&& 0xFFFFFFFF).toNat := by
    conv_lhs => rw [hsplit a, hsplit b]
    ring
  rw [← hll, ← hlh, ← hhl, ← hhh] at hproduct
  rw [← hll] at hllle
  rw [← hlh] at hlhle
  rw [← hhl] at hhlle
  rw [← hhh] at hhhle
  unfold umulHi
  dsimp only
  generalize (a &&& (0xFFFFFFFF : UInt64)) * (b &&& 0xFFFFFFFF) = ll at hllle hproduct ⊢
  generalize (a &&& (0xFFFFFFFF : UInt64)) * (b >>> 32) = lh at hlhle hproduct ⊢
  generalize (a >>> 32) * (b &&& (0xFFFFFFFF : UInt64)) = hl at hhlle hproduct ⊢
  generalize (a >>> 32) * (b >>> 32) = hh at hhhle hproduct ⊢
  have hlt : a.toNat * b.toNat < 2 ^ 64 * 2 ^ 64 := Nat.mul_lt_mul'' ha hb
  simp only [UInt64.toNat_add, toNat_high, toNat_low]
  omega

theorem asI64_eq (x : UInt64) : asI64 x = x.toNat - 2 ^ 64 * (if x >>> 63 ≠ 0 then 1 else 0) := by
  have hneg := shiftRight_ne_zero_iff x
  unfold asI64
  split_ifs with hlt h h
  · exact absurd (hneg.mp h) (not_le.mpr hlt)
  · ring
  · ring
  · exact absurd (hneg.mpr (not_lt.mp hlt)) h

theorem asI64_mul_bounds (a b : UInt64) :
    -2 ^ 126 ≤ asI64 a * asI64 b ∧ asI64 a * asI64 b ≤ 2 ^ 126 := by
  have habs (x : UInt64) : |asI64 x| ≤ 2 ^ 63 := by
    have := asI64_bounds x
    exact abs_le.mpr ⟨this.1, by omega⟩
  have hmul : |asI64 a * asI64 b| ≤ 2 ^ 126 := by
    rw [abs_mul]
    calc |asI64 a| * |asI64 b| ≤ 2 ^ 63 * 2 ^ 63 :=
          mul_le_mul (habs a) (habs b) (abs_nonneg _) (by norm_num)
      _ = 2 ^ 126 := by norm_num
  exact abs_le.mp hmul

/-- The high half of a signed product, as an unsigned number: each negative factor takes the other
factor away. -/
theorem toNat_smulHi (a b : UInt64) :
    ((smulHi a b).toNat : ℤ) = asI64 a * asI64 b / 2 ^ 64 % 2 ^ 64 := by
  have hhi := toNat_umulHi a b
  have ha := a.toNat_lt
  have hb := b.toNat_lt
  have hlt : a.toNat * b.toNat < 2 ^ 64 * 2 ^ 64 := Nat.mul_lt_mul'' ha hb
  have hcast : ((a.toNat * b.toNat : ℕ) : ℤ) = (a.toNat : ℤ) * b.toNat := Nat.cast_mul _ _
  unfold smulHi
  dsimp only
  rw [asI64_eq a, asI64_eq b]
  split_ifs
  · have hexpand : ((a.toNat : ℤ) - 2 ^ 64 * 1) * (b.toNat - 2 ^ 64 * 1) =
        (a.toNat * b.toNat : ℕ) - 2 ^ 64 * a.toNat - 2 ^ 64 * b.toNat + 2 ^ 128 := by
      rw [hcast]
      ring
    rw [hexpand, UInt64.toNat_sub, UInt64.toNat_sub, hhi]
    generalize a.toNat * b.toNat = n at hlt ⊢
    omega
  · have hexpand : ((a.toNat : ℤ) - 2 ^ 64 * 0) * (b.toNat - 2 ^ 64 * 1) =
        (a.toNat * b.toNat : ℕ) - 2 ^ 64 * a.toNat := by
      rw [hcast]
      ring
    rw [hexpand, UInt64.toNat_sub, hhi]
    generalize a.toNat * b.toNat = n at hlt ⊢
    omega
  · have hexpand : ((a.toNat : ℤ) - 2 ^ 64 * 1) * (b.toNat - 2 ^ 64 * 0) =
        (a.toNat * b.toNat : ℕ) - 2 ^ 64 * b.toNat := by
      rw [hcast]
      ring
    rw [hexpand, UInt64.toNat_sub, hhi]
    generalize a.toNat * b.toNat = n at hlt ⊢
    omega
  · have hexpand : ((a.toNat : ℤ) - 2 ^ 64 * 0) * (b.toNat - 2 ^ 64 * 0) =
        (a.toNat * b.toNat : ℕ) := by
      rw [hcast]
      ring
    rw [hexpand, hhi]
    generalize a.toNat * b.toNat = n at hlt ⊢
    omega

/-- **The high half of a product** of signed numbers. -/
theorem asI64_smulHi (a b : UInt64) : asI64 (smulHi a b) = asI64 a * asI64 b / 2 ^ 64 := by
  have hval := toNat_smulHi a b
  have hbounds := asI64_mul_bounds a b
  generalize asI64 a * asI64 b = p at hval hbounds ⊢
  unfold asI64
  split_ifs <;> omega

/-- The low half of a product is that of the signed product. -/
theorem toNat_mul_emod (a b : UInt64) : ((a * b).toNat : ℤ) = asI64 a * asI64 b % 2 ^ 64 := by
  rw [UInt64.toNat_mul, Int.mul_emod, asI64_emod, asI64_emod, ← Int.natCast_mul, Int.natCast_mod]
  rfl

/-! ### The registers of a product -/

/-- The signed reading of a number of `bits` bits. -/
def twosComplement (bits n : ℕ) : ℤ := if n < 2 ^ (bits - 1) then n else n - 2 ^ bits

namespace Emulator

variable (e : Emulator) (insn : DecodedInsn)

/-- The number in the registers of a product of two numbers of a size: `ax` for bytes, otherwise the
data register and the accumulator. -/
def pairValue (size : ℕ) : ℕ :=
  if size = 1 then (e.regs.get kRegAx).toNat
  else (e.regs.get (gpLane 2 size e.is64bit)).toNat * 2 ^ (8 * size) +
    (e.regs.get (gpLane 0 size e.is64bit)).toNat

/-- The registers of `e'` hold the product of the accumulator and the operand in `e`. After an
unsigned product the carry and the overflow flag tell whether the high half is zero. -/
def HasProduct (e' : Emulator) : Prop :=
  let size := (insn.operand 0).widthBytes
  let accumulator := e.regs.get (gpLane 0 size e.is64bit)
  let factor := e.getOperValue insn 0
  match insn.mnem with
  | .mul => e'.pairValue size = accumulator.toNat * factor.toNat ∧
      (e'.regs.getFlag kEflagsCf = true ↔ e'.pairValue size / 2 ^ (8 * size) ≠ 0) ∧
      (e'.regs.getFlag kEflagsOf = true ↔ e'.pairValue size / 2 ^ (8 * size) ≠ 0)
  | _ => twosComplement (16 * size) (e'.pairValue size) =
      signed accumulator size * signed factor size

variable {e insn}

/-- The registers of a product depend on two slots. -/
theorem pairValue_congr {e' : Emulator} (hmode : e'.is64bit = e.is64bit)
    (h : ∀ slot : Slot, slot.val < 8 → e'.regs.vals slot = e.regs.vals slot) {size : ℕ}
    (hs : IsWidth size) (hsize : size = 8 → e.is64bit = true) :
    e'.pairValue size = e.pairValue size := by
  unfold pairValue
  split_ifs
  · exact congrArg _ (RegisterFile.get_congr (h 0 (by decide)))
  · rw [hmode, RegisterFile.get_congr (h _ (by rw [(gpLane_spec 2 hs hsize).2.2]; decide)),
      RegisterFile.get_congr (h _ (by rw [(gpLane_spec 0 hs hsize).2.2]; decide))]

theorem pairValue_setFlags (flags : List (UInt64 × Bool)) {size : ℕ} (hs : IsWidth size)
    (hsize : size = 8 → e.is64bit = true) :
    (e.setFlags flags).pairValue size = e.pairValue size := by
  refine pairValue_congr (setFlags_is64bit flags) (fun slot hslot => ?_) hs hsize
  refine setFlags_vals_of_ne (fun heq => ?_) flags
  have hval : slot.val = e.regs.eflagsIndex.val := congrArg Fin.val heq
  unfold RegisterFile.eflagsIndex at hval
  split_ifs at hval <;> omega

theorem pairValue_setProgramCounter (va : UInt64) {size : ℕ} (hs : IsWidth size)
    (hsize : size = 8 → e.is64bit = true) :
    (e.setProgramCounter va).pairValue size = e.pairValue size := by
  refine pairValue_congr setProgramCounter_is64bit (fun slot hslot => ?_) hs hsize
  refine setProgramCounter_vals_of_ne fun heq => ?_
  have hval : slot.val = e.regs.pcIndex.val := congrArg Fin.val heq
  unfold RegisterFile.pcIndex at hval
  split_ifs at hval <;> omega

/-- The halves of a product in two registers. -/
theorem pairValue_setQuotRem {size : ℕ} (hs : IsWidth size) (h1 : size ≠ 1)
    (hmode : size = 8 → e.is64bit = true) (low high : UInt64) :
    (e.setQuotRem (gpLane 0 size e.is64bit) (gpLane 2 size e.is64bit) low high).pairValue size =
      high.toNat % 2 ^ (8 * size) * 2 ^ (8 * size) + low.toNat % 2 ^ (8 * size) := by
  obtain ⟨hmode', hlow, hhigh⟩ := hasQuotRem_setQuotRem hs h1 hmode low high
  rw [remainderRegister, if_neg h1] at hhigh
  rw [pairValue, if_neg h1, hmode', hhigh, ← hlow]
  rfl

theorem toNat_shiftRight_bits {size : ℕ} (hs : IsWidth size) (h8 : size ≠ 8) (res : UInt64) :
    (res >>> UInt64.ofNat (8 * size)).toNat = res.toNat / 2 ^ (8 * size) := by
  have hbits : 8 * size < 64 := toNat_bits hs ▸ UInt64.lt_iff_toNat_lt.mp (bits_lt hs h8)
  rw [UInt64.toNat_shiftRight, toNat_bits hs, Nat.mod_eq_of_lt hbits, Nat.shiftRight_eq_div_pow]

/-- Write a product of up to 64 bits to the registers of its halves. -/
def setProduct (e : Emulator) (size : ℕ) (res : UInt64) : Emulator :=
  if size = 1 then e.setRegister kRegAx res
  else (e.setRegister (gpLane 0 size e.is64bit) (res &&& uMax size)).setRegister
    (gpLane 2 size e.is64bit) (res >>> UInt64.ofNat (8 * size) &&& uMax size)

theorem setProduct_is64bit (size : ℕ) (res : UInt64) :
    (e.setProduct size res).is64bit = e.is64bit := by
  unfold setProduct
  split_ifs
  · exact setRegister_is64bit _
  · rw [setRegister_is64bit, setRegister_is64bit]

theorem pairValue_setProduct {size : ℕ} (hs : IsWidth size) (h8 : size ≠ 8) (res : UInt64) :
    (e.setProduct size res).pairValue size = res.toNat % 2 ^ (16 * size) := by
  unfold setProduct
  by_cases h1 : size = 1
  · subst h1
    rw [if_pos rfl]
    exact RegisterFile.toNat_get_set_self (RegIndex.valid_lane _ _ (by decide) (by decide))
  · have hpair := pairValue_setQuotRem (e := e) hs h1 (fun h => absurd h h8) (res &&& uMax size)
      (res >>> UInt64.ofNat (8 * size) &&& uMax size)
    rw [if_neg h1]
    refine hpair.trans ?_
    have hlow : (res &&& uMax size).toNat = res.toNat % 2 ^ (8 * size) := toNat_unsigned hs res
    have hhigh : (res >>> UInt64.ofNat (8 * size) &&& uMax size).toNat =
        res.toNat / 2 ^ (8 * size) % 2 ^ (8 * size) := by
      rw [← toNat_shiftRight_bits hs h8]
      exact toNat_unsigned hs _
    rw [hlow, hhigh, Nat.mod_mod, Nat.mod_mod, show 16 * size = 8 * size + 8 * size by ring,
      Nat.pow_add, Nat.mod_mul, Nat.add_comm, Nat.mul_comm (2 ^ (8 * size))]

/-- The halves of a product of 64-bit numbers. -/
theorem pairValue_wide (hmode : e.is64bit = true) (low high : UInt64) :
    ((e.setRegister kRegRax low).setRegister kRegRdx high).pairValue 8 =
      high.toNat * 2 ^ 64 + low.toNat := by
  have hs : IsWidth 8 := .inr (.inr (.inr rfl))
  have hpair := pairValue_setQuotRem hs (by decide) (fun _ => hmode) low high
  rw [Nat.mod_eq_of_lt high.toNat_lt, Nat.mod_eq_of_lt low.toNat_lt] at hpair
  exact hpair

section Operand

variable (h : DivisorOperand e.is64bit insn)

include h

theorem toNat_accumulator_lt :
    (e.regs.get (gpLane 0 (insn.operand 0).widthBytes e.is64bit)).toNat <
      2 ^ (8 * (insn.operand 0).widthBytes) := toNat_quotientRegister_lt h

/-- Up to four bytes, the product of the accumulator and the operand does not wrap. -/
theorem toNat_product (h8 : (insn.operand 0).widthBytes ≠ 8) :
    (e.regs.get (gpLane 0 (insn.operand 0).widthBytes e.is64bit) * e.getOperValue insn 0).toNat =
        (e.regs.get (gpLane 0 (insn.operand 0).widthBytes e.is64bit)).toNat *
          (e.getOperValue insn 0).toNat ∧
      (e.regs.get (gpLane 0 (insn.operand 0).widthBytes e.is64bit)).toNat *
          (e.getOperValue insn 0).toNat < 2 ^ (16 * (insn.operand 0).widthBytes) := by
  have hlt := Nat.mul_lt_mul'' (toNat_accumulator_lt h) (toNat_divisor_lt h)
  rw [← Nat.pow_add, show 8 * (insn.operand 0).widthBytes + 8 * (insn.operand 0).widthBytes =
    16 * (insn.operand 0).widthBytes by ring] at hlt
  have hle : 2 ^ (16 * (insn.operand 0).widthBytes) ≤ 2 ^ 64 := by
    refine Nat.pow_le_pow_right (by decide) ?_
    rcases h.width with hw | hw | hw | hw <;> omega
  rw [UInt64.toNat_mul]
  exact ⟨Nat.mod_eq_of_lt (Nat.lt_of_lt_of_le hlt hle), hlt⟩

/-- The flags of an unsigned product. -/
theorem product_flags {e₁ : Emulator} (carry : Bool) (hmode : e₁.is64bit = e.is64bit)
    (hcarry : carry = true ↔
      e₁.pairValue (insn.operand 0).widthBytes / 2 ^ (8 * (insn.operand 0).widthBytes) ≠ 0) :
    let e' := e₁.setFlags [(kEflagsCf, carry), (kEflagsOf, carry)]
    e'.pairValue (insn.operand 0).widthBytes = e₁.pairValue (insn.operand 0).widthBytes ∧
    (e'.regs.getFlag kEflagsCf = true ↔
      e'.pairValue (insn.operand 0).widthBytes / 2 ^ (8 * (insn.operand 0).widthBytes) ≠ 0) ∧
    (e'.regs.getFlag kEflagsOf = true ↔
      e'.pairValue (insn.operand 0).widthBytes / 2 ^ (8 * (insn.operand 0).widthBytes) ≠ 0) := by
  have hpair := pairValue_setFlags (e := e₁) [(kEflagsCf, carry), (kEflagsOf, carry)] h.width
    (hmode ▸ h.mode)
  dsimp only
  rw [hpair]
  refine ⟨rfl, ?_, ?_⟩
  · simp (disch := decide) only [setFlags_cons, setFlags_nil, getFlag_setFlag_of_and_eq_zero,
      getFlag_setFlag_self]
    exact hcarry
  · simp (disch := decide) only [setFlags_cons, setFlags_nil, getFlag_setFlag_self]
    exact hcarry

/-- **The unsigned product** and its flags. -/
theorem opMul_spec : ∃ e', e.opMul insn = .ok e' ∧ e'.is64bit = e.is64bit ∧
    e'.pairValue (insn.operand 0).widthBytes =
      (e.regs.get (gpLane 0 (insn.operand 0).widthBytes e.is64bit)).toNat *
        (e.getOperValue insn 0).toNat ∧
    (e'.regs.getFlag kEflagsCf = true ↔
      e'.pairValue (insn.operand 0).widthBytes / 2 ^ (8 * (insn.operand 0).widthBytes) ≠ 0) ∧
    (e'.regs.getFlag kEflagsOf = true ↔
      e'.pairValue (insn.operand 0).widthBytes / 2 ^ (8 * (insn.operand 0).widthBytes) ≠ 0) := by
  unfold opMul
  dsimp only
  rw [dsize_eq_width h]
  by_cases h8 : (insn.operand 0).widthBytes = 8
  · rw [if_pos h8]
    generalize e.regs.get (gpLane 0 (insn.operand 0).widthBytes e.is64bit) = a
    generalize e.getOperValue insn 0 = val
    have hhigh := toNat_umulHi a val
    generalize umulHi a val = high at hhigh ⊢
    have hpair := pairValue_wide (h.mode h8) (a * val) high
    rw [UInt64.toNat_mul, hhigh, Nat.mul_comm (_ / _), Nat.div_add_mod, ← h8] at hpair
    refine ⟨_, rfl, ?_, ?_⟩
    · rw [setFlags_is64bit, setRegister_is64bit, setRegister_is64bit]
    · obtain ⟨hsame, hflags⟩ := product_flags h (high != 0)
        ((setRegister_is64bit _).trans (setRegister_is64bit _)) (by
          rw [hpair, h8, bne_iff_ne, ne_eq, ← UInt64.toNat_inj, hhigh]
          rfl)
      exact ⟨hsame.trans hpair, hflags⟩
  · rw [if_neg h8]
    obtain ⟨hproduct, hlt⟩ := toNat_product h h8
    generalize e.regs.get (gpLane 0 (insn.operand 0).widthBytes e.is64bit) *
      e.getOperValue insn 0 = res at hproduct ⊢
    have hpair := pairValue_setProduct (e := e) h.width h8 res
    rw [Nat.mod_eq_of_lt (hproduct ▸ hlt)] at hpair
    rw [U64.shr, if_pos (bits_lt h.width h8), ok_bind]
    refine ⟨_, rfl, (setFlags_is64bit _).trans (setProduct_is64bit _ res), ?_⟩
    obtain ⟨hsame, hflags⟩ := product_flags h
      (res >>> UInt64.ofNat (8 * (insn.operand 0).widthBytes) != 0)
      (setProduct_is64bit _ res) (by
        rw [bne_iff_ne, ne_eq, ← UInt64.toNat_inj, toNat_shiftRight_bits h.width h8, hpair]
        rfl)
    exact ⟨hsame.trans (hpair.trans hproduct), hflags⟩

omit h in
/-- The product of signed numbers of a width fits twice the width. -/
theorem signed_product_bounds {size : ℕ} (hs : IsWidth size) (x y : UInt64) :
    -2 ^ (16 * size - 1) ≤ signed x size * signed y size ∧
      signed x size * signed y size < 2 ^ (16 * size - 1) := by
  have habs (z : UInt64) : |signed z size| ≤ 2 ^ (8 * size - 1) := by
    have hz := signed_bounds hs z
    exact abs_le.mpr ⟨hz.1, hz.2.le⟩
  have hmul : |signed x size * signed y size| ≤ 2 ^ (16 * size - 2) := by
    rw [abs_mul]
    calc |signed x size| * |signed y size| ≤ 2 ^ (8 * size - 1) * 2 ^ (8 * size - 1) :=
          mul_le_mul (habs x) (habs y) (abs_nonneg _) (pow_nonneg (by norm_num) _)
      _ = 2 ^ (16 * size - 2) := by
        rw [← pow_add]
        congr 1
        rcases hs with rfl | rfl | rfl | rfl <;> rfl
  have hlt : (2 : ℤ) ^ (16 * size - 2) < 2 ^ (16 * size - 1) :=
    pow_lt_pow_right₀ (by norm_num) (by rcases hs with rfl | rfl | rfl | rfl <;> decide)
  obtain ⟨hlow, hhigh⟩ := abs_le.mp hmul
  exact ⟨by omega, by omega⟩

omit h in
/-- The signed reading of a product of up to 64 bits. -/
theorem twosComplement_mod {size : ℕ} (hs : IsWidth size) (h8 : size ≠ 8) {i : ℤ}
    (hi : -2 ^ (16 * size - 1) ≤ i ∧ i < 2 ^ (16 * size - 1)) :
    twosComplement (16 * size) ((asU64 i).toNat % 2 ^ (16 * size)) = i := by
  have hdouble : IsWidth (2 * size) := by
    rcases hs with rfl | rfl | rfl | rfl
    · exact .inr (.inl rfl)
    · exact .inr (.inr (.inl rfl))
    · exact .inr (.inr (.inr rfl))
    · exact absurd rfl h8
  have hbits : 8 * (2 * size) = 16 * size := by ring
  have hsigned := signed_asU64 hdouble (hbits ▸ hi)
  rw [signed_eq hdouble, hbits] at hsigned
  exact hsigned

omit h in
/-- The signed reading of a product of 64-bit numbers. -/
theorem twosComplement_wide (a b : UInt64) :
    twosComplement (16 * 8) ((smulHi a b).toNat * 2 ^ 64 + (a * b).toNat) =
      signed a 8 * signed b 8 := by
  have hhigh := toNat_smulHi a b
  have hlow := toNat_mul_emod a b
  have hbounds := asI64_mul_bounds a b
  rw [← asI64_eq_signed, ← asI64_eq_signed]
  generalize asI64 a * asI64 b = p at hhigh hlow hbounds ⊢
  unfold twosComplement
  split_ifs <;> omega

/-- **The signed product.** -/
theorem opImul_spec : ∃ e', e.opImul insn = .ok e' ∧ e'.is64bit = e.is64bit ∧
    twosComplement (16 * (insn.operand 0).widthBytes)
        (e'.pairValue (insn.operand 0).widthBytes) =
      signed (e.regs.get (gpLane 0 (insn.operand 0).widthBytes e.is64bit))
          (insn.operand 0).widthBytes *
        signed (e.getOperValue insn 0) (insn.operand 0).widthBytes := by
  -- the flags that are set last leave the registers of the product alone
  have hflags {e₁ : Emulator} (hmode : e₁.is64bit = e.is64bit)
      (flags flags' : List (UInt64 × Bool)) :
      ((e₁.setFlags flags).setFlags flags').is64bit = e.is64bit ∧
        ((e₁.setFlags flags).setFlags flags').pairValue (insn.operand 0).widthBytes =
          e₁.pairValue (insn.operand 0).widthBytes := by
    have hsize : (insn.operand 0).widthBytes = 8 → e₁.is64bit = true := hmode ▸ h.mode
    refine ⟨by rw [setFlags_is64bit, setFlags_is64bit, hmode], ?_⟩
    rw [pairValue_setFlags _ h.width (by rw [setFlags_is64bit]; exact hsize),
      pairValue_setFlags _ h.width hsize]
  unfold opImul imulProduct
  rw [if_neg (not_not.mpr h.one), dsize_eq_width h]
  by_cases h8 : (insn.operand 0).widthBytes = 8
  · rw [if_pos h8]
    obtain ⟨hmode, hpair⟩ := hflags
      ((setRegister_is64bit kRegRdx).trans (setRegister_is64bit kRegRax)) _ _
    refine ⟨_, rfl, hmode, (congrArg _ hpair).trans ?_⟩
    rw [h8, pairValue_wide (h.mode h8), twosComplement_wide]
    rfl
  · rw [if_neg h8]
    have hbounds := signed_product_bounds h.width
      (e.regs.get (gpLane 0 (insn.operand 0).widthBytes e.is64bit)) (e.getOperValue insn 0)
    unfold imulOne I64.mul
    dsimp only
    rw [dsize_eq_width h]
    generalize signed (e.regs.get (gpLane 0 (insn.operand 0).widthBytes e.is64bit))
      (insn.operand 0).widthBytes * signed (e.getOperValue insn 0) (insn.operand 0).widthBytes = p
      at hbounds ⊢
    have hfits : -2 ^ 63 ≤ p ∧ p < 2 ^ 63 := by
      have hle : (2 : ℤ) ^ (16 * (insn.operand 0).widthBytes - 1) ≤ 2 ^ 63 := by
        refine pow_le_pow_right₀ (by norm_num) ?_
        rcases h.width with hw | hw | hw | hw <;> omega
      omega
    rw [I64.checked_of_fits hfits, ok_bind, U64.shr, if_pos (bits_lt h.width h8), ok_bind]
    obtain ⟨hmode, hpair⟩ := hflags
      (setProduct_is64bit (insn.operand 0).widthBytes (asU64 p)) _ _
    refine ⟨_, rfl, hmode, (congrArg _ hpair).trans ?_⟩
    rw [pairValue_setProduct h.width h8]
    exact twosComplement_mod h.width h8 hbounds

/-- A multiplication has a result, and its registers are right. -/
theorem handle_product (hmnem : insn.mnem = .mul ∨ insn.mnem = .imul) :
    ∃ e', e.handle insn = .ok { after := e' } ∧ e'.is64bit = e.is64bit ∧ e.HasProduct insn e' := by
  rcases hmnem with hm | hm
  · obtain ⟨e', hok, hmode, hproduct⟩ := opMul_spec h
    refine ⟨e', ?_, hmode, ?_⟩
    · simp only [handle, hm, hok]
      rfl
    · unfold HasProduct
      rw [hm]
      exact hproduct
  · obtain ⟨e', hok, hmode, hproduct⟩ := opImul_spec h
    refine ⟨e', ?_, hmode, ?_⟩
    · simp only [handle, hm, hok]
      rfl
    · unfold HasProduct
      rw [hm]
      exact hproduct

/-- The program counter is not a register of a product. -/
theorem HasProduct.setProgramCounter {e' : Emulator} (hproduct : e.HasProduct insn e')
    (hmode : e'.is64bit = e.is64bit) (va : UInt64) :
    e.HasProduct insn (e'.setProgramCounter va) := by
  unfold HasProduct at hproduct ⊢
  dsimp only at hproduct ⊢
  rw [pairValue_setProgramCounter va h.width (hmode ▸ h.mode)]
  simp only [getFlag_setProgramCounter]
  exact hproduct

end Operand

end Emulator

/-- **Multiplication.** The high halves are those of the exact products, and a multiplication with
one operand leaves the exact product in the registers of its width, with the carry and the overflow
flag of an unsigned one. -/
theorem multiplication_exact (a b : UInt64) (e : Emulator) (insn : DecodedInsn) :
    (umulHi a b).toNat = a.toNat * b.toNat / 2 ^ 64 ∧
    asI64 (smulHi a b) = asI64 a * asI64 b / 2 ^ 64 ∧
    (DivisorOperand e.is64bit insn → insn.mnem = .mul ∨ insn.mnem = .imul →
      ∃ e', e.executeOpcode insn = .ok (.continue, e') ∧
        (e.setProgramCounter insn.va).HasProduct insn e') := by
  refine ⟨toNat_umulHi a b, asI64_smulHi a b, fun h hmnem => ?_⟩
  replace h : DivisorOperand (e.setProgramCounter insn.va).is64bit insn := h
  obtain ⟨e', hok, hmode, hproduct⟩ := Emulator.handle_product h hmnem
  unfold Emulator.executeOpcode
  rw [hok]
  exact ⟨_, rfl, hproduct.setProgramCounter h hmode _⟩

/-- `imul ecx`. -/
def imulInsn : DecodedInsn := { idivInsn with mnem := .imul }

/-- 7 times -2. -/
theorem multiplication_exact_imul :
    ∃ e', (sevenBy 0xFFFFFFFE).executeOpcode imulInsn = .ok (.continue, e') ∧
    ((sevenBy 0xFFFFFFFE).setProgramCounter 0x1000).HasProduct imulInsn e' :=
  (multiplication_exact 0 0 (sevenBy 0xFFFFFFFE) imulInsn).2.2
    { divisorOperand_idivInsn with } (.inr rfl)

end Papa.Emu
