import Papa.Emu.IntelEmulator

/-!
# Arithmetic without a result

An instruction has a result unless a shift of its handler is too far, a signed number does not fit
64 bits or a divisor is zero. This happens to few handlers, and for few operands.

## Main definitions

* `Emulator.Hazard`: what the operands are when a handler has no result.

## Main results

* `executeOpcode_hasResult_iff`: every other instruction has a result.
-/

namespace Papa.Emu

open Bits Defined

/-! ### Peeling computations -/

namespace Defined

variable {α β : Type} {f : α → Defined β}

@[simp] theorem ok_bind (a : α) : ((Except.ok a : Defined α) >>= f) = f a := rfl

@[simp] theorem pure_bind_eq (a : α) : ((pure a : Defined α) >>= f) = f a := rfl

@[simp] theorem hasResult_checked_bind {i : ℤ} {g : ℤ → Defined β} :
    HasResult (I64.checked i >>= g) ↔ I64.Fits i ∧ HasResult (g i) := by
  rw [hasResult_bind]
  constructor
  · rintro ⟨j, hj, hg⟩
    obtain ⟨hfits, rfl⟩ := I64.checked_eq_ok.mp hj
    exact ⟨hfits, hg⟩
  · rintro ⟨hfits, hg⟩
    exact ⟨i, I64.checked_of_fits hfits, hg⟩

@[simp] theorem hasResult_shl_bind {x n : UInt64} {g : UInt64 → Defined β} :
    HasResult (U64.shl x n >>= g) ↔ n < 64 ∧ HasResult (g (x <<< n)) := by
  unfold U64.shl
  split_ifs with h
  · exact (and_iff_right h).symm
  · exact iff_of_false nofun fun hn => h hn.1

@[simp] theorem hasResult_shr_bind {x n : UInt64} {g : UInt64 → Defined β} :
    HasResult (U64.shr x n >>= g) ↔ n < 64 ∧ HasResult (g (x >>> n)) := by
  unfold U64.shr
  split_ifs with h
  · exact (and_iff_right h).symm
  · exact iff_of_false nofun fun hn => h hn.1

@[simp] theorem hasResult_mod_bind {x y : UInt64} {g : UInt64 → Defined β} :
    HasResult (U64.mod x y >>= g) ↔ y ≠ 0 ∧ HasResult (g (x % y)) := by
  unfold U64.mod
  split_ifs with h
  · exact iff_of_false nofun fun hn => hn.1 h
  · exact (and_iff_right h).symm

@[simp] theorem hasResult_div_bind {x y : UInt64} {g : UInt64 → Defined β} :
    HasResult (U64.div x y >>= g) ↔ y ≠ 0 ∧ HasResult (g (x / y)) := by
  unfold U64.div
  split_ifs with h
  · exact iff_of_false nofun fun hn => hn.1 h
  · exact (and_iff_right h).symm

/-- A computation over a list has a result when it has one at every element. -/
theorem hasResult_mapM {g : α → Defined β} (l : List α) :
    HasResult (l.mapM g) ↔ ∀ a ∈ l, HasResult (g a) := by
  induction l with
  | nil => exact iff_of_true (hasResult_pure _) fun a h => absurd h List.not_mem_nil
  | cons a l ih =>
    rw [List.mapM_cons, hasResult_bind, List.forall_mem_cons, ← ih]
    constructor
    · rintro ⟨b, hb, h⟩
      exact ⟨⟨b, hb⟩, hasResult_bind_pure.mp h⟩
    · rintro ⟨⟨b, hb⟩, h⟩
      exact ⟨b, hb, hasResult_bind_pure.mpr h⟩

end Defined

/-! ### Sizes -/

/-- The sizes of operands. That of an operand that is not in use is 0. -/
def IsSize (size : ℕ) : Prop := size = 0 ∨ IsWidth size

theorem isSize_le {size : ℕ} (h : IsSize size) : size ≤ 8 := by
  rcases h with rfl | rfl | rfl | rfl | rfl <;> omega

theorem isSize_min {a b : ℕ} (ha : IsSize a) (hb : IsSize b) : IsSize (min a b) := by
  rcases min_choice a b with h | h
  · rw [h]
    exact ha
  · rw [h]
    exact hb

namespace Bits

variable {size cursize newsize : ℕ}

@[simp] theorem unsigned_size_zero (value : UInt64) : unsigned value 0 = 0 := UInt64.and_zero

@[simp] theorem signed_size_zero (value : UInt64) : signed value 0 = 0 := by
  rw [signed, unsigned_size_zero]
  rfl

theorem signed_fits (h : IsSize size) (value : UInt64) : I64.Fits (signed value size) := by
  unfold I64.Fits
  rcases h with rfl | h
  · rw [signed_size_zero]
    omega
  · have hb := signed_bounds h value
    rcases h with rfl | rfl | rfl | rfl <;> norm_num at hb ⊢ <;> omega

/-- Below eight bytes, a number is far from the bounds. -/
theorem signed_small (h : IsSize size) (h8 : size ≠ 8) (value : UInt64) :
    -2 ^ 31 ≤ signed value size ∧ signed value size < 2 ^ 31 := by
  rcases h with rfl | h
  · rw [signed_size_zero]
    omega
  · have hb := signed_bounds h value
    rcases h with rfl | rfl | rfl | rfl
    · norm_num at hb ⊢
      omega
    · norm_num at hb ⊢
      omega
    · exact hb
    · exact absurd rfl h8

theorem asI64_unsigned_small (h : IsSize size) (h8 : size ≠ 8) (value : UInt64) :
    0 ≤ asI64 (unsigned value size) ∧ asI64 (unsigned value size) < 2 ^ 32 := by
  rcases h with rfl | h
  · rw [unsigned_size_zero]
    decide
  · have hlt := unsigned_lt h value
    rw [asI64]
    rcases h with rfl | rfl | rfl | rfl
    · norm_num at hlt ⊢
      split_ifs <;> omega
    · norm_num at hlt ⊢
      split_ifs <;> omega
    · norm_num at hlt ⊢
      split_ifs <;> omega
    · exact absurd rfl h8

theorem unsigned_eight (value : UInt64) : unsigned value 8 = value := by
  rw [← UInt64.toNat_inj, toNat_unsigned (.inr (.inr (.inr rfl)))]
  exact Nat.mod_eq_of_lt value.toNat_lt

theorem asI64_unsigned_eight (value : UInt64) : asI64 (unsigned value 8) = signed value 8 := by
  rw [unsigned_eight, asI64_eq_signed]

theorem signed_unsigned (h : IsWidth size) (value : UInt64) :
    signed (unsigned value size) size = signed value size := by
  refine signed_congr h ?_
  rw [toNat_unsigned h, Nat.mod_mod]

/-- Sign extension keeps the signed reading, as far as the new size goes. -/
theorem signExtend_spec (hcur : IsSize cursize) (hnew : IsSize newsize) (value : UInt64) :
    ∃ src, signExtend value cursize newsize = .ok src ∧
      signed src newsize = signed value (min newsize cursize) := by
  by_cases hle : newsize ≤ cursize
  · refine ⟨_, signExtend_of_le value hle, ?_⟩
    rw [min_eq_left hle]
    rcases hnew with rfl | hnew
    · rw [signed_size_zero, signed_size_zero]
    rcases hcur with rfl | hcur
    · rcases hnew with rfl | rfl | rfl | rfl <;> omega
    refine signed_congr hnew ?_
    rw [toNat_unsigned hcur]
    refine Nat.mod_mod_of_dvd _ (Nat.pow_dvd_pow 2 ?_)
    omega
  · have hlt : cursize < newsize := not_le.mp hle
    rw [min_eq_right (Nat.le_of_lt hlt)]
    rcases hcur with rfl | hcur
    · refine ⟨0, ?_, ?_⟩
      · rw [signExtend, unsigned_size_zero]
        exact if_neg fun h => h.2 UInt64.zero_and
      · rw [signed_size_zero, signed]
        simp [unsigned, asI64]
    rcases hnew with rfl | hnew
    · exact absurd hlt (Nat.not_lt_zero _)
    refine ⟨_, signExtend_of_lt value hcur hnew hlt, ?_⟩
    rw [signed_unsigned hnew, signed_asU64 hnew]
    have hb := signed_bounds hcur value
    rcases lt_cases hcur hnew hlt with (⟨rfl, rfl⟩ | ⟨rfl, rfl⟩ | ⟨rfl, rfl⟩) |
      (⟨rfl, rfl⟩ | ⟨rfl, rfl⟩) | ⟨rfl, rfl⟩ <;> norm_num at hb ⊢ <;> omega

end Bits

namespace Emulator

variable {e : Emulator} {insn : DecodedInsn}

/-! ### Hazards -/

/-- The carry that goes into a sum or a difference. -/
def carryValue (e : Emulator) : ℤ := if e.regs.getFlag kEflagsCf then 1 else 0

/-- The dividend of `idiv` of 32 bits. -/
def dividend32 (e : Emulator) : ℤ :=
  signed (e.regs.get (gpLane 2 4 e.is64bit) <<< 32 ||| e.regs.get (gpLane 0 4 e.is64bit)) 8

/-- An operand is a register, and not one of the vectors. -/
def IsPlainRegister (insn : DecodedInsn) (idx : ℕ) : Prop :=
  (insn.operand idx).kind = .reg ∧ xmmIndex (insn.operand idx).baseReg = none

/-- The operands for which a handler has no result. -/
def Hazard (e : Emulator) (insn : DecodedInsn) : Prop :=
  let dsize := insn.dsize
  let ssize := (insn.operand 1).widthBytes
  let dst := e.getOperValue insn 0
  let src := e.getOperValue insn 1
  match insn.mnem with
  -- A signed sum or difference of 64 bits does not fit.
  | .add => ¬ I64.Fits (signed dst dsize + signed src ssize)
  | .adc => ¬ I64.Fits (signed dst dsize + signed src ssize) ∨
      ¬ I64.Fits (signed dst dsize + signed src ssize + e.carryValue)
  | .sub | .cmp => dsize = 8 ∧ ¬ I64.Fits (signed dst 8 - signed src (min 8 ssize))
  | .sbb => dsize = 8 ∧
      ¬ I64.Fits (signed dst 8 - signed (asU64 (signed src (min 8 ssize) + e.carryValue)) 8)
  | .inc => ¬ I64.Fits (signed dst dsize + 1)
  | .dec | .neg => asI64 dst = -2 ^ 63
  -- The count is greater than the width.
  | .shl => 8 * dsize < (e.shiftCount insn).toNat
  | .sar => 8 * dsize < (e.shiftCount insn).toNat ∧ msb dst dsize = true
  -- The divisor is zero when it is cut to its width, or the dividend has no magnitude.
  | .idiv => dst ≠ 0 ∧ dsize ≠ 8 ∧
      (signed dst dsize = 0 ∨ dsize = 4 ∧ e.dividend32 = -2 ^ 63)
  -- Sixteen bytes of a register of eight.
  | .movups | .movupd | .movaps | .movapd | .movdqu | .movdqa | .lddqu => IsPlainRegister insn 1
  | .xorps | .xorpd | .pxor => IsPlainRegister insn 0 ∨ IsPlainRegister insn 1
  | .psrldq | .pslldq => IsPlainRegister insn 0
  | _ => False

/-! ### Handlers that always have a result -/

theorem isSize_operand (hw : ∀ op ∈ insn.operands, IsWidth op.widthBytes) (idx : ℕ) :
    IsSize (insn.operand idx).widthBytes := by
  unfold DecodedInsn.operand
  rw [List.getD_eq_getElem?_getD]
  cases hop : insn.operands[idx]? with
  | none => exact .inl rfl
  | some op => exact .inr (hw op (List.mem_of_getElem? hop))

theorem isWidth_dsize (hw : ∀ op ∈ insn.operands, IsWidth op.widthBytes) : IsWidth insn.dsize := by
  unfold DecodedInsn.dsize DecodedInsn.operand
  cases hops : insn.operands with
  | nil => exact .inr (.inr (.inl rfl))
  | cons op ops => exact hw op (hops ▸ List.mem_cons_self)

section Sizes

variable (hw : ∀ op ∈ insn.operands, IsWidth op.widthBytes)

include hw

theorem signExtend_hasResult (value : UInt64) (idx : ℕ) :
    HasResult (signExtend value (insn.operand idx).widthBytes insn.dsize) := by
  obtain ⟨src, hsrc, -⟩ :=
    signExtend_spec (isSize_operand hw idx) (.inr (isWidth_dsize hw)) value
  exact ⟨src, hsrc⟩

/-- The extended source has the size of the destination. -/
theorem extendedSource_spec : ∃ src, e.extendedSource insn =
      .ok (src, (insn.operand 0).widthBytes) ∧
    signed src (insn.operand 0).widthBytes = signed (e.getOperValue insn 1)
      (min (insn.operand 0).widthBytes (insn.operand 1).widthBytes) := by
  unfold extendedSource
  dsimp only
  by_cases h : (insn.operand 0).widthBytes = (insn.operand 1).widthBytes
  · rw [if_neg (not_not.mpr h), ← h, min_self]
    exact ⟨_, rfl, rfl⟩
  · obtain ⟨src, hsrc, hval⟩ := signExtend_spec (isSize_operand hw 1) (isSize_operand hw 0)
      (e.getOperValue insn 1)
    rw [if_pos h, hsrc]
    exact ⟨src, rfl, hval⟩

theorem widenedSource_spec (idx : ℕ) : ∃ src ssize, e.widenedSource insn idx = .ok (src, ssize) ∧
    signed src ssize = signed (e.getOperValue insn idx) (insn.operand idx).widthBytes := by
  unfold widenedSource
  dsimp only
  by_cases h : insn.dsize > (insn.operand idx).widthBytes
  · obtain ⟨src, hsrc, hval⟩ := signExtend_spec (isSize_operand hw idx)
      (.inr (isWidth_dsize hw)) (e.getOperValue insn idx)
    rw [if_pos h, hsrc]
    rw [min_eq_right (Nat.le_of_lt h)] at hval
    exact ⟨src, _, rfl, hval⟩
  · rw [if_neg h]
    exact ⟨_, _, rfl, rfl⟩

theorem logicalAnd_hasResult : HasResult (e.logicalAnd insn) := by
  obtain ⟨src, hsrc, -⟩ := extendedSource_spec (e := e) hw
  unfold logicalAnd
  rw [hsrc]
  exact hasResult_pure _

theorem opOr_hasResult : HasResult (e.opOr insn) := by
  unfold opOr
  dsimp only
  split_ifs with h
  · obtain ⟨src, hsrc⟩ := signExtend_hasResult hw (e.getOperValue insn 1) 1
    rw [hsrc]
    exact hasResult_pure _
  · exact hasResult_pure _

theorem opPush_hasResult : HasResult (e.opPush insn) := by
  have hp : IsSize (e.stackSize insn) := by
    unfold stackSize ptrSize
    split_ifs
    · exact .inr (.inr (.inl rfl))
    · exact .inr (.inr (.inr (.inr rfl)))
    · exact .inr (.inr (.inr (.inl rfl)))
  unfold opPush
  dsimp only
  split_ifs with h
  · obtain ⟨src, hsrc, -⟩ := signExtend_spec (.inr (isWidth_dsize hw)) hp (e.getOperValue insn 0)
    rw [hsrc]
    exact hasResult_pure _
  · exact hasResult_pure _

end Sizes

/-! ### Shifts and bits -/

theorem toNat_shiftCount_lt : (e.shiftCount insn).toNat < 64 := by
  unfold shiftCount
  rw [UInt64.toNat_and]
  split_ifs
  · exact Nat.and_lt_two_pow (n := 6) _ (by decide)
  · exact Nat.lt_trans (Nat.and_lt_two_pow (n := 5) _ (by decide)) (by decide)

theorem shiftCount_lt : e.shiftCount insn < 64 :=
  UInt64.lt_iff_toNat_lt.mpr toNat_shiftCount_lt

theorem toNat_bits {size : ℕ} (h : IsWidth size) : (UInt64.ofNat (8 * size)).toNat = 8 * size := by
  rcases h with rfl | rfl | rfl | rfl <;> rfl

/-- What is left of the bits of a width, after a count. -/
theorem bits_sub_lt {size : ℕ} (h : IsWidth size) {n : UInt64} (hn : n ≠ 0) (hlt : n.toNat < 64) :
    UInt64.ofNat (8 * size) - n < 64 ↔ n.toNat ≤ 8 * size := by
  have hpos : 0 < n.toNat := Nat.pos_of_ne_zero fun h0 => hn (UInt64.toNat_inj.mp h0)
  have hbits : 8 * size ≤ 64 := by rcases h with rfl | rfl | rfl | rfl <;> omega
  have h64 : (64 : UInt64).toNat = 64 := rfl
  rw [UInt64.lt_iff_toNat_lt, UInt64.toNat_sub, toNat_bits h, h64]
  omega

theorem opShl_hasResult_iff (hd : IsWidth insn.dsize) :
    HasResult (e.opShl insn) ↔ (e.shiftCount insn).toNat ≤ 8 * insn.dsize := by
  unfold opShl
  dsimp only
  by_cases h : e.shiftCount insn = 0
  · rw [if_pos h, h]
    exact iff_of_true (hasResult_pure _) (Nat.zero_le _)
  · rw [if_neg h]
    simp only [hasResult_shl_bind, hasResult_shr_bind, hasResult_pure, and_true, shiftCount_lt,
      true_and, bits_sub_lt hd h toNat_shiftCount_lt]

theorem sub_one_lt_of_ne_zero {n : UInt64} (hn : n ≠ 0) (hlt : n < 64) : n - 1 < 64 := by
  have hpos : n.toNat ≠ 0 := fun h0 => hn (UInt64.toNat_inj.mp h0)
  have h64 : (64 : UInt64).toNat = 64 := rfl
  rw [UInt64.lt_iff_toNat_lt, h64] at hlt
  rw [UInt64.lt_iff_toNat_lt, UInt64.toNat_sub, UInt64.toNat_one, h64]
  omega

theorem opShr_hasResult : HasResult (e.opShr insn) := by
  unfold opShr
  dsimp only
  split_ifs with h
  · exact hasResult_pure _
  · simp only [hasResult_shr_bind, hasResult_pure, and_true, shiftCount_lt,
      sub_one_lt_of_ne_zero h shiftCount_lt]

theorem signFill_hasResult_iff {dst src : UInt64} {size : ℕ} (hd : IsWidth size) (hn : src ≠ 0)
    (hlt : src.toNat < 64) :
    HasResult (signFill dst src size) ↔ (msb dst size = true → src.toNat ≤ 8 * size) := by
  unfold signFill
  split_ifs with h
  · rw [hasResult_shr_bind, bits_sub_lt hd hn hlt, U64.shl]
    split_ifs with h64
    · exact ⟨fun hle _ => hle.1, fun hle => ⟨hle h, hasResult_ok _⟩⟩
    · exact iff_of_false (fun hle => h64 ((bits_sub_lt hd hn hlt).mpr hle.1))
        fun hle => h64 ((bits_sub_lt hd hn hlt).mpr (hle h))
  · exact iff_of_true (hasResult_pure _) fun hmsb => absurd hmsb h

theorem opSar_hasResult_iff (hd : IsWidth insn.dsize) :
    HasResult (e.opSar insn) ↔ (msb (e.getOperValue insn 0) insn.dsize = true →
      (e.shiftCount insn).toNat ≤ 8 * insn.dsize) := by
  unfold opSar
  dsimp only
  split_ifs with h
  · rw [h]
    exact iff_of_true (hasResult_pure _) fun _ => Nat.zero_le _
  · rw [hasResult_shr_bind, and_iff_right shiftCount_lt, hasResult_bind,
      ← signFill_hasResult_iff hd h toNat_shiftCount_lt]
    constructor
    · rintro ⟨fill, hfill, -⟩
      exact ⟨fill, hfill⟩
    · rintro ⟨fill, hfill⟩
      refine ⟨fill, hfill, ?_⟩
      simp only [hasResult_shr_bind, hasResult_pure, and_true,
        sub_one_lt_of_ne_zero h shiftCount_lt]

/-- The count of a rotation, cut to a width. -/
theorem toNat_rotateCount {size : ℕ} (h : IsWidth size) (n : UInt64) :
    UInt64.ofNat (8 * size) ≠ 0 ∧ (n % UInt64.ofNat (8 * size)).toNat < 8 * size ∧
      8 * size ≤ 64 := by
  have hbits := toNat_bits h
  have hpos : 0 < 8 * size := by rcases h with rfl | rfl | rfl | rfl <;> omega
  refine ⟨fun h0 => ?_, ?_, ?_⟩
  · rw [h0, UInt64.toNat_zero] at hbits
    omega
  · rw [UInt64.toNat_mod, hbits]
    exact Nat.mod_lt _ hpos
  · rcases h with rfl | rfl | rfl | rfl <;> omega

theorem opRol_hasResult (hd : IsWidth insn.dsize) : HasResult (e.opRol insn) := by
  obtain ⟨hne, hlt, hle⟩ := toNat_rotateCount hd (e.shiftCount insn)
  unfold opRol
  dsimp only
  rw [hasResult_mod_bind]
  refine ⟨hne, ?_⟩
  split_ifs with h
  · exact hasResult_pure _
  · have hlt64 : e.shiftCount insn % UInt64.ofNat (8 * insn.dsize) < 64 :=
      UInt64.lt_iff_toNat_lt.mpr (Nat.lt_of_lt_of_le hlt hle)
    simp only [hasResult_shl_bind, hasResult_shr_bind, hasResult_pure, and_true, hlt64, true_and]
    exact (bits_sub_lt hd h (Nat.lt_of_lt_of_le hlt hle)).mpr (Nat.le_of_lt hlt)

theorem opRor_hasResult (hd : IsWidth insn.dsize) : HasResult (e.opRor insn) := by
  obtain ⟨hne, hlt, hle⟩ := toNat_rotateCount hd (e.shiftCount insn)
  unfold opRor
  dsimp only
  rw [hasResult_mod_bind]
  refine ⟨hne, ?_⟩
  split_ifs with h
  · exact hasResult_pure _
  · have hlt64 : e.shiftCount insn % UInt64.ofNat (8 * insn.dsize) < 64 :=
      UInt64.lt_iff_toNat_lt.mpr (Nat.lt_of_lt_of_le hlt hle)
    simp only [hasResult_shl_bind, hasResult_shr_bind, hasResult_pure, and_true, hlt64, true_and]
    refine ⟨(bits_sub_lt hd h (Nat.lt_of_lt_of_le hlt hle)).mpr (Nat.le_of_lt hlt), ?_⟩
    refine (bits_sub_lt hd (by decide) (by decide)).mpr ?_
    rw [UInt64.toNat_one]
    omega

theorem opBitTest_hasResult (hd : IsWidth insn.dsize) (change : Option (UInt64 → UInt64 → UInt64)) :
    HasResult (e.opBitTest insn change) := by
  have hwidth : 8 * UInt64.ofNat insn.dsize = UInt64.ofNat (8 * insn.dsize) := by
    rcases hd with h | h | h | h <;> rw [h] <;> rfl
  obtain ⟨hne, hlt, hle⟩ := toNat_rotateCount hd (e.getOperValue insn 1)
  unfold opBitTest
  dsimp only
  rw [hwidth, hasResult_mod_bind, hasResult_shl_bind]
  refine ⟨hne, UInt64.lt_iff_toNat_lt.mpr (Nat.lt_of_lt_of_le hlt hle), ?_⟩
  cases change with
  | none => exact hasResult_pure _
  | some f => exact hasResult_pure _

/-! ### Sums and differences -/

/-- The flags of a subtraction have a result when the signed difference fits. -/
theorem intSubBase_hasResult_iff {ssize dsize : ℕ} (hs : IsSize ssize) (hd : IsSize dsize)
    (h8 : dsize = 8 ↔ ssize = 8) (src dst : UInt64) :
    HasResult (e.intSubBase src dst ssize dsize) ↔
      I64.Fits (signed dst dsize - signed src ssize) := by
  unfold intSubBase I64.sub
  dsimp only
  simp only [hasResult_checked_bind, hasResult_pure, and_true]
  by_cases hw : dsize = 8
  · obtain rfl := hw
    obtain rfl := h8.mp rfl
    rw [asI64_unsigned_eight, asI64_unsigned_eight, and_self]
  · refine and_iff_right ?_
    have hdst := asI64_unsigned_small hd hw dst
    have hsrc := asI64_unsigned_small hs (mt h8.mpr hw) src
    unfold I64.Fits
    omega

theorem integerSubtraction_hasResult_iff (hw : ∀ op ∈ insn.operands, IsWidth op.widthBytes) :
    HasResult (e.integerSubtraction insn) ↔ I64.Fits
      (signed (e.getOperValue insn 0) (insn.operand 0).widthBytes -
        signed (e.getOperValue insn 1)
          (min (insn.operand 0).widthBytes (insn.operand 1).widthBytes)) := by
  obtain ⟨src, hsrc, hval⟩ := extendedSource_spec (e := e) hw
  unfold integerSubtraction
  rw [hsrc, ok_bind, intSubBase_hasResult_iff (isSize_operand hw 0) (isSize_operand hw 0) Iff.rfl,
    hval]

theorem opSub_hasResult_iff : HasResult (e.opSub insn) ↔ HasResult (e.integerSubtraction insn) :=
  hasResult_bind_pure

theorem opCmp_hasResult_iff : HasResult (e.opCmp insn) ↔ HasResult (e.integerSubtraction insn) :=
  hasResult_bind_pure

theorem opAdd_hasResult_iff (hw : ∀ op ∈ insn.operands, IsWidth op.widthBytes) (carryIn : Bool) :
    HasResult (e.opAdd insn carryIn) ↔
      I64.Fits (signed (e.getOperValue insn 0) insn.dsize +
        signed (e.getOperValue insn 1) (insn.operand 1).widthBytes) ∧
      I64.Fits (signed (e.getOperValue insn 0) insn.dsize +
        signed (e.getOperValue insn 1) (insn.operand 1).widthBytes +
          if carryIn then e.carryValue else 0) := by
  have hcarry : asI64 (if carryIn && e.regs.getFlag kEflagsCf then 1 else 0) =
      if carryIn then e.carryValue else 0 := by
    unfold carryValue
    cases carryIn <;> cases e.regs.getFlag kEflagsCf <;> rfl
  obtain ⟨src, ssize, hsrc, hval⟩ := widenedSource_spec (e := e) hw 1
  unfold opAdd I64.add
  dsimp only
  rw [hsrc, ok_bind]
  dsimp only
  rw [hasResult_checked_bind, hasResult_checked_bind, hval, hcarry]
  simp only [hasResult_pure, and_true]

theorem dsize_eq_eight_iff (insn : DecodedInsn) :
    insn.dsize = 8 ↔ (insn.operand 0).widthBytes = 8 := by
  unfold DecodedInsn.dsize DecodedInsn.operand
  cases insn.operands with
  | nil => decide
  | cons op ops => exact Iff.rfl

theorem opSbb_hasResult_iff (hw : ∀ op ∈ insn.operands, IsWidth op.widthBytes) :
    HasResult (e.opSbb insn) ↔ insn.dsize = 8 → I64.Fits
      (signed (e.getOperValue insn 0) 8 - signed (asU64 (signed (e.getOperValue insn 1)
        (min 8 (insn.operand 1).widthBytes) + e.carryValue)) 8) := by
  obtain ⟨src, hsrc, hval⟩ := extendedSource_spec (e := e) hw
  have hd := isWidth_dsize hw
  have h8 := dsize_eq_eight_iff insn
  have hcarry : (if e.regs.getFlag kEflagsCf then 1 else 0 : UInt64) = asU64 e.carryValue := by
    unfold carryValue
    cases e.regs.getFlag kEflagsCf <;> rfl
  unfold opSbb
  rw [hsrc, ok_bind]
  refine Iff.trans hasResult_bind_pure ?_
  dsimp only
  rw [intSubBase_hasResult_iff (isSize_operand hw 0) (.inr hd) h8, hcarry]
  by_cases hsize : insn.dsize = 8
  · rw [h8.mp hsize] at hval ⊢
    rw [hsize, asU64_add, ← hval, ← asI64_eq_signed src, asU64_asI64]
    exact ⟨fun h _ => h, fun h => h rfl⟩
  · refine iff_of_true ?_ fun h => absurd h hsize
    have hdst := signed_small (.inr hd) hsize (e.getOperValue insn 0)
    have hsub := signed_small (isSize_operand hw 0) (mt h8.mpr hsize) (src + asU64 e.carryValue)
    unfold I64.Fits
    omega

theorem opInc_hasResult_iff :
    HasResult (e.opInc insn) ↔ I64.Fits (signed (e.getOperValue insn 0) insn.dsize + 1) := by
  unfold opInc I64.add
  dsimp only
  rw [hasResult_checked_bind]
  exact and_iff_left (hasResult_pure _)

/-- The lowest signed number is the only one that cannot be lowered. -/
theorem fits_sub_one_iff (x : UInt64) : I64.Fits (asI64 x - 1) ↔ asI64 x ≠ -2 ^ 63 := by
  have hb := asI64_bounds x
  unfold I64.Fits
  omega

/-- Nor negated. -/
theorem fits_neg_iff (x : UInt64) : I64.Fits (0 - asI64 x) ↔ asI64 x ≠ -2 ^ 63 := by
  have hb := asI64_bounds x
  unfold I64.Fits
  omega

theorem opDec_hasResult_iff :
    HasResult (e.opDec insn) ↔ asI64 (e.getOperValue insn 0) ≠ -2 ^ 63 := by
  unfold opDec I64.sub
  dsimp only
  rw [hasResult_checked_bind, fits_sub_one_iff]
  exact and_iff_left (hasResult_pure _)

theorem opNeg_hasResult_iff :
    HasResult (e.opNeg insn) ↔ asI64 (e.getOperValue insn 0) ≠ -2 ^ 63 := by
  unfold opNeg I64.sub
  dsimp only
  rw [hasResult_checked_bind, fits_neg_iff]
  exact and_iff_left (hasResult_pure _)

/-! ### Products and quotients -/

theorem bits_lt {size : ℕ} (h : IsWidth size) (h8 : size ≠ 8) :
    UInt64.ofNat (8 * size) < 64 := by
  rw [UInt64.lt_iff_toNat_lt, toNat_bits h]
  have h64 : (64 : UInt64).toNat = 64 := rfl
  rcases h with rfl | rfl | rfl | rfl <;> omega

theorem opMul_hasResult (hd : IsWidth insn.dsize) : HasResult (e.opMul insn) := by
  unfold opMul
  dsimp only
  by_cases h8 : insn.dsize = 8
  · rw [if_pos h8]
    exact hasResult_pure _
  · rw [if_neg h8, hasResult_shr_bind]
    exact ⟨bits_lt hd h8, hasResult_pure _⟩

theorem opImul_hasResult (hw : ∀ op ∈ insn.operands, IsWidth op.widthBytes) :
    HasResult (e.opImul insn) := by
  have hd := isWidth_dsize hw
  have hmany : HasResult (e.imulMany insn) := by
    unfold imulMany
    dsimp only
    obtain ⟨b, bsize, hb, -⟩ := widenedSource_spec (e := e) hw
      ((if insn.operands.length = 3 then 1 else 0) + 1)
    rw [hb]
    exact hasResult_pure _
  have hone (h8 : insn.dsize ≠ 8) : HasResult (e.imulOne insn) := by
    have ha := signed_small (.inr hd) h8 (e.regs.get (gpLane 0 insn.dsize e.is64bit))
    have hm := signed_small (.inr hd) h8 (e.getOperValue insn 0)
    unfold imulOne I64.mul
    dsimp only
    rw [hasResult_checked_bind, hasResult_shr_bind]
    refine ⟨?_, bits_lt hd h8, hasResult_pure _⟩
    generalize signed (e.regs.get (gpLane 0 insn.dsize e.is64bit)) insn.dsize = a at ha
    generalize signed (e.getOperValue insn 0) insn.dsize = m at hm
    have habs : (a * m).natAbs ≤ 2 ^ 31 * 2 ^ 31 := by
      rw [Int.natAbs_mul]
      exact Nat.mul_le_mul (by omega) (by omega)
    unfold I64.Fits
    omega
  refine hasResult_bind_pure.mpr ?_
  unfold imulProduct
  split_ifs with hlen h8
  · exact hmany
  · exact hasResult_pure _
  · exact hone h8

theorem opDiv_hasResult (h : e.getOperValue insn 0 ≠ 0) : HasResult (e.opDiv insn) := by
  unfold opDiv
  dsimp only
  split_ifs
  · simp only [hasResult_div_bind, hasResult_mod_bind, hasResult_pure, and_true]
    exact ⟨h, h⟩
  · simp only [hasResult_div_bind, hasResult_mod_bind, hasResult_pure, and_true]
    exact ⟨h, h⟩
  · simp only [hasResult_div_bind, hasResult_mod_bind, hasResult_pure, and_true]
    exact ⟨h, h⟩
  · exact hasResult_pure _

theorem magnitude_eq {val : ℤ} (h : -2 ^ 63 < val ∧ val < 2 ^ 63) :
    magnitude val = .ok (val.natAbs : ℤ) := by
  unfold magnitude I64.neg
  split_ifs with hneg
  · rw [I64.checked_of_fits (by omega), show -val = (val.natAbs : ℤ) by omega]
  · rw [show (val.natAbs : ℤ) = val by omega]
    rfl

/-- **Signed division**: the quotient and the remainder of the magnitudes, both negated when the
signs differ. -/
theorem signedQuotRem_eq {val d : ℤ} (hval : -2 ^ 63 < val ∧ val < 2 ^ 63)
    (hd : -2 ^ 63 < d ∧ d < 2 ^ 63) (hne : d ≠ 0) :
    signedQuotRem val d = .ok (if val < 0 ↔ d < 0 then
      (((val.natAbs / d.natAbs : ℕ) : ℤ), ((val.natAbs % d.natAbs : ℕ) : ℤ))
      else (-((val.natAbs / d.natAbs : ℕ) : ℤ), -((val.natAbs % d.natAbs : ℕ) : ℤ))) := by
  have hq : val.natAbs / d.natAbs ≤ val.natAbs := Nat.div_le_self _ _
  have hr : val.natAbs % d.natAbs ≤ val.natAbs := Nat.mod_le _ _
  have hdiv : I64.div val.natAbs d.natAbs = .ok ((val.natAbs / d.natAbs : ℕ) : ℤ) := by
    have hpos : (0 : ℤ) ≤ (val.natAbs / d.natAbs : ℕ) := Int.natCast_nonneg _
    rw [I64.div, if_neg (by omega), ← Int.ofNat_tdiv]
    exact I64.checked_of_fits (by omega)
  have hmod : I64.mod val.natAbs d.natAbs = .ok ((val.natAbs % d.natAbs : ℕ) : ℤ) := by
    rw [I64.mod, if_neg (by omega), if_neg (by omega), ← Int.ofNat_tmod]
  unfold signedQuotRem
  simp only [magnitude_eq hval, magnitude_eq hd, ok_bind, hdiv, hmod]
  generalize val.natAbs / d.natAbs = q at hq
  generalize val.natAbs % d.natAbs = r at hr
  by_cases hsign : val < 0 ↔ d < 0
  · rw [if_pos hsign, if_neg (not_not.mpr (propext hsign))]
    rfl
  · rw [if_neg hsign, if_pos fun heq => hsign (iff_of_eq heq), I64.neg,
      I64.checked_of_fits (by omega), ok_bind, I64.neg, I64.checked_of_fits (by omega)]
    rfl

theorem signedQuotRem_hasResult_iff {val d : ℤ} (hval : -2 ^ 63 ≤ val ∧ val < 2 ^ 63)
    (hd : -2 ^ 63 < d ∧ d < 2 ^ 63) :
    HasResult (signedQuotRem val d) ↔ val ≠ -2 ^ 63 ∧ d ≠ 0 := by
  by_cases hmin : val = -2 ^ 63
  · subst hmin
    refine iff_of_false ?_ fun h => h.1 rfl
    exact nofun
  by_cases hne : d = 0
  · subst hne
    refine iff_of_false ?_ fun h => h.2 rfl
    unfold signedQuotRem
    rw [magnitude_eq ⟨by omega, hval.2⟩]
    exact nofun
  · rw [signedQuotRem_eq ⟨by omega, hval.2⟩ hd hne]
    exact iff_of_true (hasResult_ok _) ⟨hmin, hne⟩

theorem opIdiv_hasResult_iff (hd : IsWidth insn.dsize) :
    HasResult (e.opIdiv insn) ↔ insn.dsize = 8 ∨ signed (e.getOperValue insn 0) insn.dsize ≠ 0 ∧
      (insn.dsize = 4 → e.dividend32 ≠ -2 ^ 63) := by
  unfold opIdiv dividend32
  dsimp only
  have hbound (size : ℕ) (hs : IsWidth size) (h8 : size ≠ 8) (x : UInt64) :
      -2 ^ 63 < signed x size ∧ signed x size < 2 ^ 63 := by
    have := signed_small (.inr hs) h8 x
    omega
  have htwo : IsWidth 2 := .inr (.inl rfl)
  have hfour : IsWidth 4 := .inr (.inr (.inl rfl))
  have height : IsWidth 8 := .inr (.inr (.inr rfl))
  rcases hd with h | h | h | h
  · have hval := hbound 2 htwo (by decide) (e.regs.get kRegAx)
    rw [h, if_pos rfl, hasResult_bind_pure, signedQuotRem_hasResult_iff ⟨hval.1.le, hval.2⟩
      (hbound 1 (.inl rfl) (by decide) _), and_iff_right (ne_of_gt hval.1)]
    simp
  · have hval := hbound 4 hfour (by decide) (e.regs.get kRegDx <<< 16 ||| e.regs.get kRegAx)
    rw [h, if_neg (by decide), if_pos rfl, hasResult_bind_pure, signedQuotRem_hasResult_iff
      ⟨hval.1.le, hval.2⟩ (hbound 2 htwo (by decide) _), and_iff_right (ne_of_gt hval.1)]
    simp
  · rw [h, if_neg (by decide), if_neg (by decide), if_pos rfl, hasResult_bind_pure,
      signedQuotRem_hasResult_iff (signed_fits (.inr height) _) (hbound 4 hfour (by decide) _)]
    simp [and_comm]
  · rw [h, if_neg (by decide), if_neg (by decide), if_neg (by decide)]
    exact iff_of_true (hasResult_pure _) (.inl rfl)

/-! ### Vectors -/

/-- The bytes of a number, as far as it has any. -/
theorem mapM_byteOfValue_hasResult_iff (v : UInt64) {n : ℕ} (hn : n ≤ 16) :
    HasResult ((List.range n).mapM (byteOfValue v)) ↔ n ≤ 8 := by
  have hbyte (i : ℕ) (hi : i < 16) : HasResult (byteOfValue v i) ↔ i < 8 := by
    have h64 : (64 : UInt64).toNat = 64 := rfl
    unfold byteOfValue
    rw [hasResult_shr_bind, and_iff_left (hasResult_pure _), UInt64.lt_iff_toNat_lt, h64,
      UInt64.toNat_ofNat', Nat.mod_eq_of_lt (by omega)]
    omega
  rw [hasResult_mapM]
  constructor
  · intro h
    by_contra hlt
    exact absurd ((hbyte 8 (by decide)).mp (h 8 (List.mem_range.mpr (not_le.mp hlt)))) (by decide)
  · intro h i hi
    have := List.mem_range.mp hi
    exact (hbyte i (by omega)).mpr (by omega)

/-- An operand that is read as a vector is one, or in memory, or no longer than a number. -/
theorem readSimdOper_hasResult_iff (idx width : ℕ) :
    HasResult (e.readSimdOper insn idx width) ↔
      ((insn.operand idx).kind = .reg → xmmIndex (insn.operand idx).baseReg = none →
        width ≤ 8) := by
  unfold readSimdOper
  dsimp only
  by_cases hreg : (insn.operand idx).kind = .reg
  · rw [if_pos hreg]
    cases hx : xmmIndex (insn.operand idx).baseReg with
    | some xi => exact iff_of_true (hasResult_pure _) nofun
    | none =>
      dsimp only
      rw [hasResult_bind_pure, mapM_byteOfValue_hasResult_iff _ (min_le_right width 16)]
      constructor
      · intro h _ _
        omega
      · intro h
        have := h hreg rfl
        omega
  · rw [if_neg hreg]
    exact iff_of_true (hasResult_pure _) fun h => absurd h hreg

theorem readSimdOper_sixteen_hasResult_iff (idx : ℕ) :
    HasResult (e.readSimdOper insn idx 16) ↔ ¬ IsPlainRegister insn idx := by
  rw [readSimdOper_hasResult_iff, IsPlainRegister]
  constructor
  · rintro h ⟨hreg, hx⟩
    exact absurd (h hreg hx) (by decide)
  · exact fun h hreg hx => absurd ⟨hreg, hx⟩ h

theorem opMovSimd_hasResult_iff (width : ℕ) :
    HasResult (e.opMovSimd insn width) ↔ HasResult (e.readSimdOper insn 1 width) :=
  hasResult_bind_pure

theorem opPxor_hasResult_iff :
    HasResult (e.opPxor insn) ↔ ¬ IsPlainRegister insn 0 ∧ ¬ IsPlainRegister insn 1 := by
  unfold opPxor
  rw [hasResult_bind, ← readSimdOper_sixteen_hasResult_iff (e := e),
    ← readSimdOper_sixteen_hasResult_iff (e := e)]
  constructor
  · rintro ⟨a, ha, h⟩
    exact ⟨⟨a, ha⟩, hasResult_bind_pure.mp h⟩
  · rintro ⟨⟨a, ha⟩, h⟩
    exact ⟨a, ha, hasResult_bind_pure.mpr h⟩

theorem opPsrldq_hasResult_iff : HasResult (e.opPsrldq insn) ↔ ¬ IsPlainRegister insn 0 :=
  hasResult_bind_pure.trans (readSimdOper_sixteen_hasResult_iff 0)

theorem opPslldq_hasResult_iff : HasResult (e.opPslldq insn) ↔ ¬ IsPlainRegister insn 0 :=
  hasResult_bind_pure.trans (readSimdOper_sixteen_hasResult_iff 0)

/-! ### Instructions -/

theorem integerSubtraction_hasResult_iff_hazard (hw : ∀ op ∈ insn.operands, IsWidth op.widthBytes) :
    HasResult (e.integerSubtraction insn) ↔ ¬ (insn.dsize = 8 ∧ ¬ I64.Fits
      (signed (e.getOperValue insn 0) 8 -
        signed (e.getOperValue insn 1) (min 8 (insn.operand 1).widthBytes))) := by
  rw [integerSubtraction_hasResult_iff hw, not_and, not_not]
  have h8 := dsize_eq_eight_iff insn
  by_cases hsize : insn.dsize = 8
  · rw [h8.mp hsize]
    exact ⟨fun h _ => h, fun h => h hsize⟩
  · refine iff_of_true ?_ fun h => absurd h hsize
    have h0 := mt h8.mpr hsize
    have hle := isSize_le (isSize_operand hw 0)
    have hmin := isSize_min (isSize_operand hw 0) (isSize_operand hw 1)
    have hdst := signed_small (isSize_operand hw 0) h0 (e.getOperValue insn 0)
    have hsrc := signed_small hmin (by omega) (e.getOperValue insn 1)
    unfold I64.Fits
    omega

theorem signExtend_hasResult_of_isWidth {cursize newsize : ℕ} (hcur : IsWidth cursize)
    (hnew : IsWidth newsize) (value : UInt64) : HasResult (signExtend value cursize newsize) := by
  obtain ⟨src, hsrc, -⟩ := signExtend_spec (.inr hcur) (.inr hnew) value
  exact ⟨src, hsrc⟩

/-- The moves of up to eight bytes. -/
theorem opMovSimd_hasResult {width : ℕ} (h : width ≤ 8) : HasResult (e.opMovSimd insn width) := by
  rw [opMovSimd_hasResult_iff, readSimdOper_hasResult_iff]
  exact fun _ _ => h

/-- The handler of an instruction has a result when there is no hazard. -/
theorem handle_hasResult_iff (hw : ∀ op ∈ insn.operands, IsWidth op.widthBytes) :
    HasResult (e.handle insn) ↔ ¬ e.Hazard insn := by
  have hd := isWidth_dsize hw
  have hnext (x : Defined Emulator) :
      HasResult (do pure ({ after := ← x } : Outcome) : Defined Outcome) ↔ HasResult x :=
    hasResult_bind_pure
  have htrue {x : Defined Emulator} (h : HasResult x) :
      HasResult (do pure ({ after := ← x } : Outcome) : Defined Outcome) ↔ ¬ False :=
    iff_of_true ((hnext x).mpr h) not_false
  unfold handle Hazard
  dsimp only
  cases insn.mnem with
  | movsx | movsxd =>
    refine htrue ?_
    exact hasResult_bind_pure.mpr (signExtend_hasResult hw _ 1)
  | push => exact htrue (opPush_hasResult hw)
  | add =>
    rw [hnext, opAdd_hasResult_iff hw]
    simp
  | adc =>
    rw [hnext, opAdd_hasResult_iff hw, not_or, not_not, not_not]
    rfl
  | sub =>
    rw [hnext, opSub_hasResult_iff]
    exact integerSubtraction_hasResult_iff_hazard hw
  | cmp =>
    rw [hnext, opCmp_hasResult_iff]
    exact integerSubtraction_hasResult_iff_hazard hw
  | sbb => rw [hnext, opSbb_hasResult_iff hw, not_and, not_not]
  | inc => rw [hnext, opInc_hasResult_iff, not_not]
  | dec => rw [hnext, opDec_hasResult_iff]
  | neg => rw [hnext, opNeg_hasResult_iff]
  | and => exact htrue (hasResult_bind_pure.mpr (logicalAnd_hasResult hw))
  | test => exact htrue (hasResult_bind_pure.mpr (logicalAnd_hasResult hw))
  | or => exact htrue (opOr_hasResult hw)
  | shl => rw [hnext, opShl_hasResult_iff hd, not_lt]
  | shr => exact htrue opShr_hasResult
  | sar =>
    rw [hnext, opSar_hasResult_iff hd, not_and, ← not_lt]
    exact ⟨fun h hlt hmsb => h hmsb hlt, fun h hmsb hlt => h hlt hmsb⟩
  | mul => exact htrue (opMul_hasResult hd)
  | imul => exact htrue (opImul_hasResult hw)
  | div =>
    dsimp only
    by_cases h : e.getOperValue insn 0 = 0
    · rw [if_pos h]
      exact iff_of_true (hasResult_pure _) not_false
    · rw [if_neg h]
      exact htrue (opDiv_hasResult h)
  | idiv =>
    dsimp only
    by_cases h : e.getOperValue insn 0 = 0
    · rw [if_pos h]
      exact iff_of_true (hasResult_pure _) fun hh => hh.1 h
    · rw [if_neg h, hnext, opIdiv_hasResult_iff hd]
      constructor
      · rintro hr ⟨-, h8, hbad⟩
        rcases hr with hr | ⟨hne, hmin⟩
        · exact h8 hr
        · rcases hbad with hbad | ⟨h4, hbad⟩
          · exact hne hbad
          · exact hmin h4 hbad
      · intro hno
        by_cases h8 : insn.dsize = 8
        · exact .inl h8
        · exact .inr ⟨fun hz => hno ⟨h, h8, .inl hz⟩, fun h4 hmin => hno ⟨h, h8, .inr ⟨h4, hmin⟩⟩⟩
  | cbw =>
    refine htrue (hasResult_bind_pure.mpr ?_)
    exact signExtend_hasResult_of_isWidth (.inl rfl) (.inr (.inl rfl)) _
  | cwde =>
    refine htrue (hasResult_bind_pure.mpr ?_)
    exact signExtend_hasResult_of_isWidth (.inr (.inl rfl)) (.inr (.inr (.inl rfl))) _
  | cdqe =>
    refine htrue (hasResult_bind_pure.mpr ?_)
    exact signExtend_hasResult_of_isWidth (.inr (.inr (.inl rfl))) (.inr (.inr (.inr rfl))) _
  | movups | movupd | movaps | movapd | movdqu | movdqa | lddqu =>
    rw [hnext, opMovSimd_hasResult_iff, readSimdOper_sixteen_hasResult_iff]
  | movq => exact htrue (opMovSimd_hasResult (by decide))
  | movd | movss => exact htrue (opMovSimd_hasResult (by decide))
  | movsd =>
    dsimp only
    split_ifs
    · exact htrue (opMovSimd_hasResult (by decide))
    · exact iff_of_true (hasResult_pure _) not_false
  | xorps | xorpd | pxor => rw [hnext, opPxor_hasResult_iff, not_or]
  | psrldq => rw [hnext, opPsrldq_hasResult_iff]
  | pslldq => rw [hnext, opPslldq_hasResult_iff]
  | bt | bts | btr | btc => exact htrue (opBitTest_hasResult hd _)
  | rol => exact htrue (opRol_hasResult hd)
  | ror => exact htrue (opRor_hasResult hd)
  | _ => exact iff_of_true (hasResult_pure _) not_false

end Emulator

open Emulator

/-- **An instruction** whose operands have a width has a result exactly when it is no hazard. -/
theorem executeOpcode_hasResult_iff (e : Emulator) (insn : DecodedInsn)
    (hw : ∀ op ∈ insn.operands, IsWidth op.widthBytes) :
    HasResult (e.executeOpcode insn) ↔ ¬ (e.setProgramCounter insn.va).Hazard insn := by
  rw [← handle_hasResult_iff hw]
  exact hasResult_bind_pure

/-- `shl al, count`. -/
def shlInsn (count : UInt64) : DecodedInsn :=
  { va := 0x1000, length := 3, mnem := .shl
    operands := [translateOperand (.register 8 (.gpr8 0)) false,
      translateOperand (.immediate 8 count false) false] }

theorem executeOpcode_hasResult_iff_shl :
    HasResult (executeOpcode { regs := { is64bit := false } } (shlInsn 3)) :=
  (executeOpcode_hasResult_iff { regs := { is64bit := false } } (shlInsn 3)
    (by simp [shlInsn, translateOperand, IsWidth])).mpr
    (show ¬ 8 * 1 < (shiftCount _ (shlInsn 3)).toNat by decide)

/-- A count of 9 is less than 32, and greater than the width of `al`. -/
theorem executeOpcode_shl_nine :
    (∀ op ∈ (shlInsn 9).operands, IsWidth op.widthBytes) ∧
      ¬ HasResult (executeOpcode { regs := { is64bit := false } } (shlInsn 9)) := by
  have hw : ∀ op ∈ (shlInsn 9).operands, IsWidth op.widthBytes := by
    simp [shlInsn, translateOperand, IsWidth]
  refine ⟨hw, fun h => ?_⟩
  have hhandle := (handle_hasResult_iff hw).mp (hasResult_bind_pure.mp h)
  exact hhandle (show 8 * 1 < (shiftCount _ (shlInsn 9)).toNat by decide)

end Papa.Emu
