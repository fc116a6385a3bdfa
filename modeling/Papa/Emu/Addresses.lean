import Mathlib.Tactic.Ring
import Papa.Emu.Operands

/-!
# The addresses of operands in memory

The address of an operand in memory is the sum of its base, its scaled index and its displacement,
cut to the size of an address. The emulator computes it so from every operand of the decoder but
one: of an operand that is only a displacement, and has no SIB byte, it takes the immediate, which
the decoder leaves at zero. The other readers of such an operand take the displacement.

## Main definitions

* `effectiveAddress`: the sum.
* `operandTargetVa`, `importSlotVa`: the other readers.

## Main results

* `getOperAddr_iff`: when the emulator computes the sum, and agrees with the other readers.
-/

namespace Papa.Emu

/-- `operand_target_va`. -/
def operandTargetVa (ins : DecodedInsn) (op : DecodedOperand) : Option UInt64 :=
  match op.kind with
  | .imm => some op.imm
  | .immMem => some (asU64 op.disp)
  | .ripRel => some (ins.va + ins.length + asU64 op.disp)
  | _ => none

/-- The address that `resolve_direct_call_import` looks up for an operand in memory. -/
def importSlotVa (ins : DecodedInsn) (op : DecodedOperand) : Option UInt64 :=
  match op.kind with
  | .immMem => some (asU64 op.disp)
  | .ripRel => some (ins.va + ins.length + asU64 op.disp)
  | _ => none

namespace Emulator

variable (e : Emulator)

/-- The bits of an address. -/
def addrBits : ℕ := if e.is64bit then 64 else 32

/-- The address of an operand in memory, for the registers of a state. -/
def effectiveAddress (insn : DecodedInsn) (base index : ZydisRegister) (scale : UInt8) (disp : ℤ) :
    ℤ :=
  ((if isIpRegister base then insn.va.toNat + insn.length.toNat
    else (e.registerValue base).toNat + (e.registerValue index).toNat * scale.toNat : ℕ) + disp) %
      2 ^ e.addrBits

variable {e}

theorem toNat_and_addrMask (x : UInt64) : (x &&& e.addrMask).toNat = x.toNat % 2 ^ e.addrBits := by
  unfold addrMask addrBits
  rw [UInt64.toNat_and]
  split_ifs
  · exact Nat.and_two_pow_sub_one_eq_mod x.toNat 64
  · exact Nat.and_two_pow_sub_one_eq_mod x.toNat 32

/-- A sum of 64 bits, cut to the size of an address. -/
theorem add_disp_and_addrMask (x : UInt64) (disp : ℤ) :
    (((x + asU64 disp) &&& e.addrMask).toNat : ℤ) = (x.toNat + disp) % 2 ^ e.addrBits := by
  have hdisp := toNat_asU64 disp
  have hdvd : (2 ^ e.addrBits : ℤ) ∣ 2 ^ 64 := by
    refine pow_dvd_pow 2 ?_
    unfold addrBits
    split_ifs <;> omega
  rw [toNat_and_addrMask, UInt64.toNat_add, Int.natCast_mod, Int.natCast_mod, Int.natCast_add,
    hdisp, Int.natCast_pow, Int.natCast_pow, Nat.cast_ofNat, Int.emod_emod_of_dvd _ hdvd,
    ← Int.emod_emod_of_dvd ((x.toNat : ℤ) + disp % 2 ^ 64) hdvd, Int.add_emod_emod,
    Int.emod_emod_of_dvd _ hdvd]

theorem registerValue_none : e.registerValue .none = 0 := rfl

/-- Cutting a product or a sum first changes nothing. -/
theorem emod_addrBits (x : UInt64) (n : ℕ) (disp : ℤ) (h : x.toNat = n % 2 ^ 64) :
    ((x.toNat : ℤ) + disp) % 2 ^ e.addrBits = ((n : ℤ) + disp) % 2 ^ e.addrBits := by
  have hdvd : (2 ^ e.addrBits : ℤ) ∣ 2 ^ 64 := by
    refine pow_dvd_pow 2 ?_
    unfold addrBits
    split_ifs <;> omega
  have hx : (x.toNat : ℤ) = n % 2 ^ 64 := by rw [h]; rfl
  rw [hx, Int.add_emod, Int.emod_emod_of_dvd _ hdvd, ← Int.add_emod]

/-- The kinds that are read through the registers. -/
theorem getOperAddr_eq (e : Emulator) {insn : DecodedInsn} {idx size : ℕ}
    {base index : ZydisRegister} {scale : UInt8} {disp : Option ℤ} {hasSib : Bool}
    (hop : insn.operand idx = translateOperand (.memory size base index scale disp) hasSib)
    (hsome : base ≠ .none ∨ index ≠ .none ∨ hasSib = true) :
    ((e.getOperAddr insn idx).toNat : ℤ) =
      e.effectiveAddress insn base index scale (disp.getD 0) := by
  unfold getOperAddr effectiveAddress
  simp only [hop, translateOperand, classify]
  by_cases hbase : isIpRegister base = true
  · simp only [if_pos hbase]
    rw [add_disp_and_addrMask, emod_addrBits _ _ _ (UInt64.toNat_add _ _)]
  simp only [if_neg hbase]
  have hsum (x : UInt64) (hx : x = e.registerValue base + e.registerValue index * scale.toUInt64) :
      (((x + asU64 (disp.getD 0)) &&& e.addrMask).toNat : ℤ) =
        (((e.registerValue base).toNat + (e.registerValue index).toNat * scale.toNat : ℕ) +
          disp.getD 0) % 2 ^ e.addrBits := by
    rw [add_disp_and_addrMask, emod_addrBits _ _ _ ?_]
    rw [hx, UInt64.toNat_add, UInt64.toNat_mul, UInt8.toNat_toUInt64, Nat.add_mod_mod]
  have hnone (reg : ZydisRegister) :
      (if reg ≠ .none then e.registerValue reg else 0) = e.registerValue reg := by
    split_ifs with h
    · rfl
    · rw [not_not.mp h, registerValue_none]
  have hscaled : (if index ≠ .none then e.registerValue index * scale.toUInt64 else 0) =
      e.registerValue index * scale.toUInt64 := by
    split_ifs with h
    · rfl
    · rw [not_not.mp h, registerValue_none, UInt64.zero_mul]
  by_cases hno : base = .none ∧ index = .none
  · have hsib : hasSib = true := by
      rcases hsome with h | h | h
      · exact absurd hno.1 h
      · exact absurd hno.2 h
      · exact h
    simp only [if_pos hno, if_pos hsib]
    exact hsum _ (by rw [hnone, hscaled])
  simp only [if_neg hno]
  by_cases hindex : index = .none
  · simp only [if_neg (not_not.mpr hindex)]
    exact hsum _ (by rw [hindex, registerValue_none, UInt64.zero_mul, UInt64.add_zero])
  · simp only [if_pos hindex]
    refine hsum _ ?_
    rw [hnone]

/-- The other readers read the same address of an operand in memory. -/
theorem importSlotVa_eq (insn : DecodedInsn) {size : ℕ} {base index : ZydisRegister}
    {scale : UInt8} {disp : Option ℤ} {hasSib : Bool} {op : DecodedOperand}
    (hop : op = translateOperand (.memory size base index scale disp) hasSib) :
    importSlotVa insn op = operandTargetVa insn op := by
  subst hop
  unfold importSlotVa operandTargetVa translateOperand classify
  dsimp only
  split_ifs <;> rfl

/-- They read an operand with a base, an index or a SIB byte only when it is relative to the
instruction. -/
theorem operandTargetVa_eq (e : Emulator) {insn : DecodedInsn} {idx size : ℕ}
    {base index : ZydisRegister} {scale : UInt8} {disp : Option ℤ} {hasSib : Bool}
    (hop : insn.operand idx = translateOperand (.memory size base index scale disp) hasSib)
    (hsome : base ≠ .none ∨ index ≠ .none ∨ hasSib = true) {va : UInt64}
    (hva : operandTargetVa insn (insn.operand idx) = some va) :
    (e.getOperAddr insn idx).toNat = va.toNat % 2 ^ e.addrBits := by
  unfold operandTargetVa at hva
  unfold getOperAddr
  simp only [hop, translateOperand, classify] at hva ⊢
  by_cases hbase : isIpRegister base = true
  · simp only [if_pos hbase, Option.some.injEq] at hva ⊢
    rw [toNat_and_addrMask, hva]
  · refine absurd hva ?_
    simp only [if_neg hbase]
    by_cases hno : base = .none ∧ index = .none
    · have hsib : hasSib = true := by
        rcases hsome with h | h | h
        · exact absurd hno.1 h
        · exact absurd hno.2 h
        · exact h
      simp only [if_pos hno, if_pos hsib]
      exact (Option.some_ne_none va).symm
    · by_cases hindex : index = .none
      · simp only [if_neg hno, if_neg (not_not.mpr hindex)]
        exact (Option.some_ne_none va).symm
      · simp only [if_neg hno, if_pos hindex]
        exact (Option.some_ne_none va).symm

/-- An operand that is a displacement only is read at address 0. -/
theorem getOperAddr_displacement (e : Emulator) {insn : DecodedInsn} {idx size : ℕ} {scale : UInt8}
    {disp : Option ℤ}
    (hop : insn.operand idx = translateOperand (.memory size .none .none scale disp) false) :
    e.getOperAddr insn idx = 0 := by
  unfold getOperAddr
  simp only [hop, translateOperand]
  exact UInt64.zero_and

end Emulator

open Emulator

/-- **The address of an operand in memory**, as the decoder builds it, is its effective address, and
the one that the other readers derive, exactly when the operand has a base, an index or a SIB byte
or its displacement is a multiple of the size of the address space. -/
theorem getOperAddr_iff (e : Emulator) (insn : DecodedInsn) (idx size : ℕ)
    (base index : ZydisRegister) (scale : UInt8) (disp : Option ℤ) (hasSib : Bool)
    (hop : insn.operand idx = translateOperand (.memory size base index scale disp) hasSib) :
    ((e.getOperAddr insn idx).toNat = e.effectiveAddress insn base index scale (disp.getD 0) ∧
      (∀ va, operandTargetVa insn (insn.operand idx) = some va →
        (e.getOperAddr insn idx).toNat = va.toNat % 2 ^ e.addrBits) ∧
      ∀ va, importSlotVa insn (insn.operand idx) = some va →
        (e.getOperAddr insn idx).toNat = va.toNat % 2 ^ e.addrBits) ↔
      (base ≠ .none ∨ index ≠ .none ∨ hasSib = true ∨ (2 ^ e.addrBits : ℤ) ∣ disp.getD 0) := by
  rw [importSlotVa_eq insn hop, and_self]
  by_cases hsome : base ≠ .none ∨ index ≠ .none ∨ hasSib = true
  · refine iff_of_true ⟨getOperAddr_eq e hop hsome, fun va hva => ?_⟩ (by tauto)
    exact operandTargetVa_eq e hop hsome hva
  · push Not at hsome
    obtain ⟨rfl, rfl, hsib⟩ := hsome
    obtain rfl := Bool.eq_false_iff.mpr hsib
    have haddr := getOperAddr_displacement e hop
    have heff : e.effectiveAddress insn .none .none scale (disp.getD 0) =
        disp.getD 0 % 2 ^ e.addrBits := by
      simp [effectiveAddress, registerValue_none, isIpRegister]
    have htarget : operandTargetVa insn (insn.operand idx) = some (asU64 (disp.getD 0)) := by
      simp [operandTargetVa, hop, translateOperand, classify, isIpRegister]
    have hcut := toNat_and_addrMask (e := e) (asU64 (disp.getD 0))
    rw [haddr, heff, htarget]
    have hdisp := add_disp_and_addrMask (e := e) 0 (disp.getD 0)
    rw [UInt64.zero_add, UInt64.toNat_zero, Nat.cast_zero, zero_add, hcut] at hdisp
    constructor
    · rintro ⟨h, -⟩
      exact .inr (.inr (.inr (Int.dvd_of_emod_eq_zero h.symm)))
    · rintro (h | h | h | h)
      · exact absurd rfl h
      · exact absurd rfl h
      · exact absurd h Bool.false_ne_true
      · have hzero := Int.emod_eq_zero_of_dvd h
        refine ⟨hzero.symm, fun va hva => ?_⟩
        obtain rfl := Option.some.inj hva
        rw [hzero] at hdisp
        exact (Nat.cast_eq_zero.mp hdisp).symm

/-- An operand `[esi + 4 * edi - 8]`. -/
def sibInsn : DecodedInsn :=
  { va := 0x1000, length := 3, mnem := .lea
    operands := [translateOperand (.memory 32 (.gpr32 6) (.gpr32 7) 4 (some (-8))) true] }

theorem getOperAddr_iff_sibInsn :
    (getOperAddr { regs := { is64bit := false, masked := by decide } } sibInsn 0).toNat =
      (0xFFFFFFF8 : ℤ) :=
  ((getOperAddr_iff { regs := { is64bit := false, masked := by decide } } sibInsn 0 32 (.gpr32 6)
    (.gpr32 7) 4 (some (-8)) true rfl).mpr (.inl (by decide))).1.trans (by decide)

/-- The address of `[0x402000]` is 0. -/
theorem getOperAddr_absolute :
    let insn : DecodedInsn :=
      { va := 0x1000, length := 6, mnem := .mov
        operands := [translateOperand (.memory 32 .none .none 0 (some 0x402000)) false] }
    let e : Emulator := { regs := { is64bit := false, masked := by decide } }
    e.getOperAddr insn 0 = 0 ∧ e.effectiveAddress insn .none .none 0 0x402000 = 0x402000 ∧
      operandTargetVa insn (insn.operand 0) = some 0x402000 := by
  decide

end Papa.Emu
