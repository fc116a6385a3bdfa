import Mathlib.Algebra.Group.Nat.Defs
import Mathlib.Data.Int.Basic
import Mathlib.Data.Nat.Bitwise
import Mathlib.Tactic.NormNum
import Mathlib.Tactic.Zify
import Papa.Exceptions

/-!
# Arithmetic of the emulator

Values are of 64 bits whatever the width of an operand, and signed ones are 64-bit numbers as well.
A signed sum that does not fit, a shift by 64 or more and a division by zero have no result.

A signed number is modelled by its value; an unsigned one is read as a signed one by `asI64` and a
signed one as an unsigned one by `asU64`. Sizes are in bytes.

## Main definitions

* `Undefined`, `Defined`: computations that may have no result.
* `I64.add`, `I64.neg`, `U64.shl`, `U64.shr`: checked arithmetic.
* `Bits.unsigned`, `Bits.signed`, `Bits.signExtend`, `Bits.isUnsignedCarry`: the helpers.

## Main results

* `Bits.toNat_unsigned`, `Bits.signed_eq`: the helpers as arithmetic.
-/

namespace Papa.Emu

/-! ### Computations that may have no result -/

/-- What has no result. -/
inductive Undefined
  | overflow
  | shift
  | division
  deriving DecidableEq

/-- A computation that may have no result. -/
abbrev Defined (α : Type) := Except Undefined α

namespace Defined

/-- A computation has a result. -/
def HasResult {α : Type} (x : Defined α) : Prop := ∃ a, x = .ok a

variable {α β : Type}

@[simp] theorem hasResult_pure (a : α) : HasResult (pure a : Defined α) := ⟨a, rfl⟩

@[simp] theorem hasResult_ok (a : α) : HasResult (.ok a : Defined α) := ⟨a, rfl⟩

@[simp] theorem not_hasResult_error (u : Undefined) : ¬ HasResult (.error u : Defined α) := nofun

theorem bind_eq_ok {x : Defined α} {f : α → Defined β} {b : β} :
    (x >>= f) = .ok b ↔ ∃ a, x = .ok a ∧ f a = .ok b := by
  cases x with
  | error u => exact iff_of_false nofun nofun
  | ok a => exact ⟨fun h => ⟨a, rfl, h⟩, fun ⟨_, ha, h⟩ => Except.ok.inj ha ▸ h⟩

theorem hasResult_bind {x : Defined α} {f : α → Defined β} :
    HasResult (x >>= f) ↔ ∃ a, x = .ok a ∧ HasResult (f a) := by
  cases x with
  | error u => exact iff_of_false nofun nofun
  | ok a => exact ⟨fun h => ⟨a, rfl, h⟩, fun ⟨_, ha, h⟩ => Except.ok.inj ha ▸ h⟩

@[simp] theorem hasResult_bind_pure {x : Defined α} {f : α → β} :
    HasResult (do pure (f (← x))) ↔ HasResult x := by
  rw [hasResult_bind]
  exact ⟨fun ⟨a, h, _⟩ => ⟨a, h⟩, fun ⟨a, h⟩ => ⟨a, h, hasResult_pure _⟩⟩

end Defined

/-- `static_cast` to a signed number. -/
def asI64 (x : UInt64) : ℤ := if x.toNat < 2 ^ 63 then x.toNat else x.toNat - 2 ^ 64

/-- `static_cast` to an unsigned number. -/
def asU64 (i : ℤ) : UInt64 := UInt64.ofNat (i % 2 ^ 64).toNat

namespace I64

/-- The signed number that a result is, when it fits. -/
def checked (i : ℤ) : Defined ℤ :=
  if -2 ^ 63 ≤ i ∧ i < 2 ^ 63 then .ok i else .error .overflow

def add (a b : ℤ) : Defined ℤ := checked (a + b)
def sub (a b : ℤ) : Defined ℤ := checked (a - b)
def mul (a b : ℤ) : Defined ℤ := checked (a * b)
def neg (a : ℤ) : Defined ℤ := checked (-a)

/-- Division rounds to zero. -/
def div (a b : ℤ) : Defined ℤ := if b = 0 then .error .division else checked (a.tdiv b)

/-- The remainder has the sign of the dividend. -/
def mod (a b : ℤ) : Defined ℤ :=
  if b = 0 then .error .division else if a = -2 ^ 63 ∧ b = -1 then .error .overflow
  else .ok (a.tmod b)

end I64

namespace U64

/-- A shift to the left. -/
def shl (x n : UInt64) : Defined UInt64 := if n < 64 then .ok (x <<< n) else .error .shift

/-- A shift to the right. -/
def shr (x n : UInt64) : Defined UInt64 := if n < 64 then .ok (x >>> n) else .error .shift

def div (x y : UInt64) : Defined UInt64 := if y = 0 then .error .division else .ok (x / y)
def mod (x y : UInt64) : Defined UInt64 := if y = 0 then .error .division else .ok (x % y)

end U64

/-! ### The helpers of `bits.h` -/

namespace Bits

/-- `u_max`. -/
def uMax (size : ℕ) : UInt64 :=
  if size = 0 then 0 else if size ≥ 8 then 0xFFFFFFFFFFFFFFFF
  else (1 <<< UInt64.ofNat (8 * size)) - 1

/-- `sign_bit`. -/
def signBit (size : ℕ) : UInt64 :=
  if size = 0 then 0 else if size ≥ 8 then 0x8000000000000000
  else 1 <<< UInt64.ofNat (8 * size - 1)

/-- `s_max`. -/
def sMax (size : ℕ) : UInt64 := uMax size ^^^ signBit size

/-- `unsigned_`. -/
def unsigned (value : UInt64) (size : ℕ) : UInt64 := value &&& uMax size

/-- `signed_`. -/
def signed (value : UInt64) (size : ℕ) : ℤ :=
  let x := unsigned value size
  if x &&& signBit size ≠ 0 then asI64 (x - uMax size - 1) else asI64 x

/-- `sign_extend`. -/
def signExtend (value : UInt64) (cursize newsize : ℕ) : Defined UInt64 :=
  let x := unsigned value cursize
  if cursize < newsize ∧ x &&& signBit cursize ≠ 0 then do
    let highbits ← U64.shl (uMax (newsize - cursize)) (UInt64.ofNat (8 * cursize))
    pure (x ||| highbits)
  else pure x

/-- `is_signed`. -/
def isSigned (value : UInt64) (size : ℕ) : Bool := unsigned value size &&& signBit size != 0

/-- `is_unsigned_carry`. -/
def isUnsignedCarry (value : ℤ) (size : ℕ) : Bool := value > asI64 (uMax size) || value < 0

/-- `is_signed_overflow`. -/
def isSignedOverflow (value : ℤ) (size : ℕ) : Bool :=
  let smax := asI64 (sMax size)
  value > smax || value < -smax

/-- `is_aux_carry`. -/
def isAuxCarry (src dst : UInt64) : Bool := (dst &&& 0xF) + (src &&& 0xF) > 15

/-- `is_aux_carry_sub`. -/
def isAuxCarrySub (src dst : UInt64) : Bool := (src &&& 0xF) > (dst &&& 0xF)

/-- `is_parity_byte`: whether the low byte has an even number of bits set. -/
def isParityByte (value : UInt64) : Bool :=
  ((List.range 8).filter fun i => value.toNat.testBit i).length % 2 == 0

/-- `msb`. -/
def msb (value : UInt64) (size : ℕ) : Bool := value &&& signBit size != 0

end Bits

/-! ### The helpers as arithmetic -/

/-- The widths of operands. -/
def IsWidth (size : ℕ) : Prop := size = 1 ∨ size = 2 ∨ size = 4 ∨ size = 8

theorem asI64_bounds (x : UInt64) : -2 ^ 63 ≤ asI64 x ∧ asI64 x < 2 ^ 63 := by
  have := x.toNat_lt
  unfold asI64
  split_ifs <;> omega

theorem asI64_emod (x : UInt64) : asI64 x % 2 ^ 64 = x.toNat := by
  have := x.toNat_lt
  unfold asI64
  split_ifs <;> omega

theorem asI64_of_lt {x : UInt64} (h : x.toNat < 2 ^ 63) : asI64 x = x.toNat := if_pos h

@[simp] theorem asU64_asI64 (x : UInt64) : asU64 (asI64 x) = x := by
  rw [asU64, asI64_emod, Int.toNat_natCast, UInt64.ofNat_toNat]

theorem toNat_asU64 (i : ℤ) : ((asU64 i).toNat : ℤ) = i % 2 ^ 64 := by
  have h0 : 0 ≤ i % 2 ^ 64 := Int.emod_nonneg _ (by decide)
  have h1 : i % 2 ^ 64 < 2 ^ 64 := Int.emod_lt_of_pos _ (by decide)
  rw [asU64, UInt64.toNat_ofNat', Nat.mod_eq_of_lt (by omega), Int.toNat_of_nonneg h0]

theorem asU64_add (i j : ℤ) : asU64 (i + j) = asU64 i + asU64 j := by
  rw [← UInt64.toNat_inj, UInt64.toNat_add]
  zify
  rw [toNat_asU64, toNat_asU64, toNat_asU64]
  exact Int.add_emod i j _

/-! ### Bits of a number -/

theorem testBit_and (x y : UInt64) (k : ℕ) :
    (x &&& y).toNat.testBit k = (x.toNat.testBit k && y.toNat.testBit k) := by
  rw [UInt64.toNat_and, Nat.testBit_and]

theorem testBit_or (x y : UInt64) (k : ℕ) :
    (x ||| y).toNat.testBit k = (x.toNat.testBit k || y.toNat.testBit k) := by
  rw [UInt64.toNat_or, Nat.testBit_or]

theorem testBit_not (x : UInt64) (k : ℕ) :
    (~~~x).toNat.testBit k = (decide (k < 64) && !x.toNat.testBit k) := by
  rw [UInt64.toNat_not, show UInt64.size - 1 - x.toNat = 2 ^ 64 - (x.toNat + 1) from ?_,
    Nat.testBit_two_pow_sub_succ x.toNat_lt]
  have : UInt64.size = 2 ^ 64 := rfl
  omega

theorem testBit_shiftLeft (x : UInt64) {n : ℕ} (hn : n < 64) (k : ℕ) :
    (x <<< UInt64.ofNat n).toNat.testBit k =
      (decide (k < 64) && (decide (n ≤ k) && x.toNat.testBit (k - n))) := by
  rw [UInt64.toNat_shiftLeft, UInt64.toNat_ofNat', Nat.mod_eq_of_lt (a := n) (by omega),
    Nat.mod_eq_of_lt hn, Nat.testBit_mod_two_pow, Nat.testBit_shiftLeft]

theorem testBit_shiftRight (x : UInt64) {n : ℕ} (hn : n < 64) (k : ℕ) :
    (x >>> UInt64.ofNat n).toNat.testBit k = x.toNat.testBit (n + k) := by
  rw [UInt64.toNat_shiftRight, UInt64.toNat_ofNat', Nat.mod_eq_of_lt (a := n) (by omega),
    Nat.mod_eq_of_lt hn, Nat.testBit_shiftRight]

theorem testBit_of_le (x : UInt64) {k : ℕ} (h : 64 ≤ k) : x.toNat.testBit k = false :=
  Nat.testBit_lt_two_pow (Nat.lt_of_lt_of_le x.toNat_lt (Nat.pow_le_pow_right (by decide) h))

theorem eq_of_testBit {x y : UInt64} (h : ∀ k < 64, x.toNat.testBit k = y.toNat.testBit k) :
    x = y := by
  refine UInt64.toNat_inj.mp (Nat.eq_of_testBit_eq fun k => ?_)
  by_cases hk : k < 64
  · exact h k hk
  · rw [testBit_of_le x (not_lt.mp hk), testBit_of_le y (not_lt.mp hk)]

/-! ### Checked arithmetic -/

namespace I64

theorem checked_of_fits {i : ℤ} (h : -2 ^ 63 ≤ i ∧ i < 2 ^ 63) : checked i = .ok i := if_pos h

/-- A number fits 64 bits with a sign. -/
def Fits (i : ℤ) : Prop := -2 ^ 63 ≤ i ∧ i < 2 ^ 63

instance (i : ℤ) : Decidable (Fits i) := inferInstanceAs (Decidable (_ ∧ _))

theorem checked_eq_ok {i j : ℤ} : checked i = .ok j ↔ (-2 ^ 63 ≤ i ∧ i < 2 ^ 63) ∧ i = j := by
  unfold checked
  by_cases h : -2 ^ 63 ≤ i ∧ i < 2 ^ 63
  · rw [if_pos h, Except.ok.injEq, and_iff_right h]
  · rw [if_neg h]
    exact iff_of_false nofun fun hij => h hij.1

end I64

namespace Bits

variable {size : ℕ}

theorem toNat_uMax (h : IsWidth size) : (uMax size).toNat = 2 ^ (8 * size) - 1 := by
  rcases h with rfl | rfl | rfl | rfl <;> rfl

theorem toNat_signBit (h : IsWidth size) : (signBit size).toNat = 2 ^ (8 * size - 1) := by
  rcases h with rfl | rfl | rfl | rfl <;> rfl

/-- `unsigned` keeps the low bits. -/
theorem toNat_unsigned (h : IsWidth size) (value : UInt64) :
    (unsigned value size).toNat = value.toNat % 2 ^ (8 * size) := by
  rw [unsigned, UInt64.toNat_and, toNat_uMax h, Nat.and_two_pow_sub_one_eq_mod]

theorem unsigned_lt (h : IsWidth size) (value : UInt64) :
    (unsigned value size).toNat < 2 ^ (8 * size) := by
  rw [toNat_unsigned h]
  exact Nat.mod_lt _ (Nat.two_pow_pos _)

/-- A number below `2 ^ (k + 1)` has bit `k` when it is not below `2 ^ k`. -/
theorem and_two_pow_ne_zero {n k : ℕ} (h : n < 2 ^ (k + 1)) : n &&& 2 ^ k ≠ 0 ↔ 2 ^ k ≤ n := by
  have hbit : n.testBit k = decide (2 ^ k ≤ n) := by
    rw [Nat.testBit_eq_decide_div_mod_eq]
    have hlt : n / 2 ^ k < 2 := Nat.div_lt_of_lt_mul (by rw [← Nat.pow_succ]; exact h)
    rw [Nat.mod_eq_of_lt hlt]
    refine decide_eq_decide.mpr ?_
    constructor
    · intro h1
      exact (Nat.one_le_div_iff (Nat.two_pow_pos k)).mp h1.ge
    · intro h1
      exact Nat.le_antisymm (Nat.lt_succ_iff.mp hlt)
        ((Nat.one_le_div_iff (Nat.two_pow_pos k)).mpr h1)
  rw [Nat.and_two_pow, hbit]
  by_cases hle : 2 ^ k ≤ n
  · simp [hle]
  · simp [hle]

/-- The sign of a number of a width. -/
theorem unsigned_and_signBit (h : IsWidth size) (value : UInt64) :
    unsigned value size &&& signBit size ≠ 0 ↔
      2 ^ (8 * size - 1) ≤ value.toNat % 2 ^ (8 * size) := by
  have hpos : 8 * size = 8 * size - 1 + 1 := by rcases h with rfl | rfl | rfl | rfl <;> rfl
  have hlt := unsigned_lt h value
  rw [ne_eq, ← UInt64.toNat_inj, UInt64.toNat_and, toNat_signBit h, UInt64.toNat_zero, ← ne_eq,
    and_two_pow_ne_zero (by rw [← hpos]; exact hlt), toNat_unsigned h]

/-- **The signed reading** of a number of a width. -/
theorem signed_eq (h : IsWidth size) (value : UInt64) :
    signed value size = if value.toNat % 2 ^ (8 * size) < 2 ^ (8 * size - 1) then
      ((value.toNat % 2 ^ (8 * size) : ℕ) : ℤ)
      else ((value.toNat % 2 ^ (8 * size) : ℕ) : ℤ) - 2 ^ (8 * size) := by
  have hsign := unsigned_and_signBit h value
  have hval := toNat_unsigned h value
  have hlt := unsigned_lt h value
  have hmax := toNat_uMax h
  rw [signed]
  by_cases hneg : 2 ^ (8 * size - 1) ≤ value.toNat % 2 ^ (8 * size)
  · rw [if_pos (hsign.mpr hneg), if_neg (not_lt.mpr hneg), asI64, UInt64.toNat_sub,
      UInt64.toNat_sub, hval, hmax, UInt64.toNat_one]
    rcases h with rfl | rfl | rfl | rfl <;> norm_num at * <;> split_ifs <;> omega
  · rw [if_neg (mt hsign.mp hneg), if_pos (not_le.mp hneg), asI64, hval]
    rcases h with rfl | rfl | rfl | rfl <;> norm_num at * <;> omega

theorem signed_bounds (h : IsWidth size) (value : UInt64) :
    -2 ^ (8 * size - 1) ≤ signed value size ∧ signed value size < 2 ^ (8 * size - 1) := by
  have hlt := value.toNat_lt
  rw [signed_eq h]
  rcases h with rfl | rfl | rfl | rfl <;> split_ifs <;> norm_num at * <;> omega

theorem signed_emod (h : IsWidth size) (value : UInt64) :
    signed value size % 2 ^ (8 * size) = (value.toNat % 2 ^ (8 * size) : ℕ) := by
  have hlt := value.toNat_lt
  rw [signed_eq h]
  rcases h with rfl | rfl | rfl | rfl <;> split_ifs <;> norm_num at * <;> omega

theorem signed_congr (h : IsWidth size) {x y : UInt64}
    (hxy : x.toNat % 2 ^ (8 * size) = y.toNat % 2 ^ (8 * size)) :
    signed x size = signed y size := by
  rw [signed_eq h, signed_eq h, hxy]

theorem toNat_asU64_mod (h : IsWidth size) (i : ℤ) :
    (((asU64 i).toNat % 2 ^ (8 * size) : ℕ) : ℤ) = i % 2 ^ (8 * size) := by
  have hdvd : (2 ^ (8 * size) : ℤ) ∣ 2 ^ 64 := by
    refine pow_dvd_pow 2 ?_
    rcases h with rfl | rfl | rfl | rfl <;> omega
  rw [Int.natCast_mod, toNat_asU64, Int.natCast_pow, Nat.cast_ofNat, Int.emod_emod_of_dvd _ hdvd]

/-- The signed reading of a signed number that fits the width. -/
theorem signed_asU64 (h : IsWidth size) {i : ℤ}
    (hi : -2 ^ (8 * size - 1) ≤ i ∧ i < 2 ^ (8 * size - 1)) : signed (asU64 i) size = i := by
  have hmod := toNat_asU64_mod h i
  rw [signed_eq h]
  rcases h with rfl | rfl | rfl | rfl <;> norm_num at * <;> split_ifs <;> omega

theorem asI64_eq_signed (x : UInt64) : asI64 x = signed x 8 := by
  have hlt := x.toNat_lt
  rw [signed_eq (.inr (.inr (.inr rfl))), asI64]
  norm_num

theorem signExtend_of_le (value : UInt64) {cursize newsize : ℕ} (h : newsize ≤ cursize) :
    signExtend value cursize newsize = .ok (unsigned value cursize) := by
  rw [signExtend]
  exact if_neg fun hlt => absurd hlt.1 (not_lt.mpr h)

/-- The pairs of a width and a greater one. -/
theorem lt_cases {a b : ℕ} (ha : IsWidth a) (hb : IsWidth b) (hlt : a < b) :
    (a = 1 ∧ b = 2 ∨ a = 1 ∧ b = 4 ∨ a = 1 ∧ b = 8) ∨ (a = 2 ∧ b = 4 ∨ a = 2 ∧ b = 8) ∨
      a = 4 ∧ b = 8 := by
  rcases ha with rfl | rfl | rfl | rfl <;> rcases hb with rfl | rfl | rfl | rfl <;> omega

/-- **Sign extension** to a greater width. -/
theorem signExtend_of_lt (value : UInt64) {cursize newsize : ℕ} (hcur : IsWidth cursize)
    (hnew : IsWidth newsize) (hlt : cursize < newsize) :
    signExtend value cursize newsize = .ok (unsigned (asU64 (signed value cursize)) newsize) := by
  have hsign := unsigned_and_signBit hcur value
  have hval := toNat_unsigned hcur value
  have hmax := unsigned_lt hcur value
  have hext := toNat_asU64_mod hnew (signed value cursize)
  have hsigned := signed_eq hcur value
  by_cases hneg : 2 ^ (8 * cursize - 1) ≤ value.toNat % 2 ^ (8 * cursize)
  · have hshift : U64.shl (uMax (newsize - cursize)) (UInt64.ofNat (8 * cursize)) =
        .ok (uMax (newsize - cursize) <<< UInt64.ofNat (8 * cursize)) := by
      refine if_pos ?_
      rcases lt_cases hcur hnew hlt with (⟨rfl, rfl⟩ | ⟨rfl, rfl⟩ | ⟨rfl, rfl⟩) |
        (⟨rfl, rfl⟩ | ⟨rfl, rfl⟩) | ⟨rfl, rfl⟩ <;> decide
    have hhigh : (uMax (newsize - cursize) <<< UInt64.ofNat (8 * cursize)).toNat =
        2 ^ (8 * cursize) * (2 ^ (8 * (newsize - cursize)) - 1) := by
      rcases lt_cases hcur hnew hlt with (⟨rfl, rfl⟩ | ⟨rfl, rfl⟩ | ⟨rfl, rfl⟩) |
        (⟨rfl, rfl⟩ | ⟨rfl, rfl⟩) | ⟨rfl, rfl⟩ <;> rfl
    rw [signExtend, if_pos ⟨hlt, hsign.mpr hneg⟩, hshift]
    refine congrArg Except.ok (UInt64.toNat_inj.mp ?_)
    rw [if_neg (not_lt.mpr hneg)] at hsigned
    rw [UInt64.toNat_or, hhigh, Nat.lor_comm, ← Nat.two_pow_add_eq_or_of_lt hmax, hval,
      toNat_unsigned hnew]
    rcases lt_cases hcur hnew hlt with (⟨rfl, rfl⟩ | ⟨rfl, rfl⟩ | ⟨rfl, rfl⟩) |
        (⟨rfl, rfl⟩ | ⟨rfl, rfl⟩) | ⟨rfl, rfl⟩ <;>
      norm_num at hext hsigned ⊢ <;> omega
  · rw [signExtend, if_neg fun h => hneg (hsign.mp h.2)]
    refine congrArg Except.ok (UInt64.toNat_inj.mp ?_)
    rw [if_pos (not_le.mp hneg)] at hsigned
    rw [hval, toNat_unsigned hnew]
    rcases lt_cases hcur hnew hlt with (⟨rfl, rfl⟩ | ⟨rfl, rfl⟩ | ⟨rfl, rfl⟩) |
        (⟨rfl, rfl⟩ | ⟨rfl, rfl⟩) | ⟨rfl, rfl⟩ <;>
      norm_num at hext hsigned hneg ⊢ <;> omega

end Bits

end Papa.Emu
