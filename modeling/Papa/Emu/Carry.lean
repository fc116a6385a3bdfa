import Papa.Emu.Frames
import Papa.Emu.UndefinedArithmetic

/-!
# The carry flag

The carry of a sum is a bit that the width of its operands has no room for, and that of a difference
is a borrow. The emulator compares an intermediate result of 64 bits with a sign with the greatest
number of the width. Of eight bytes that number is read as -1, every intermediate result is above it
or negative, and the carry is always set.

## Main definitions

* `Emulator.Carries`: the carry of an instruction.
* `Emulator.TakesBranch`, `unsignedRelation`: the jumps that read it.

## Main results

* `carry_iff`: when the carry, and the jumps after a comparison, are right.
-/

namespace Papa.Emu

open Bits Defined

/-! ### Carries of the helpers -/

namespace Bits

variable {size : ℕ}

/-- Below eight bytes, a carry is a result outside the width. -/
theorem isUnsignedCarry_iff (h : IsWidth size) (h8 : size ≠ 8) (value : ℤ) :
    isUnsignedCarry value size = true ↔ 2 ^ (8 * size) ≤ value ∨ value < 0 := by
  unfold isUnsignedCarry
  rw [Bool.or_eq_true, decide_eq_true_iff, decide_eq_true_iff]
  rcases h with rfl | rfl | rfl | rfl
  · have hmax : asI64 (uMax 1) = 255 := rfl
    rw [hmax]
    omega
  · have hmax : asI64 (uMax 2) = 65535 := rfl
    rw [hmax]
    omega
  · have hmax : asI64 (uMax 4) = 4294967295 := rfl
    rw [hmax]
    omega
  · exact absurd rfl h8

/-- **Of eight bytes** every result is a carry. -/
theorem isUnsignedCarry_eight (value : ℤ) : isUnsignedCarry value 8 = true := by
  have hmax : asI64 (uMax 8) = -1 := rfl
  unfold isUnsignedCarry
  rw [hmax, Bool.or_eq_true, decide_eq_true_iff, decide_eq_true_iff]
  omega

theorem signed_eq_signed_iff (h : IsWidth size) {x y : UInt64} :
    signed x size = signed y size ↔ x.toNat % 2 ^ (8 * size) = y.toNat % 2 ^ (8 * size) := by
  constructor
  · intro heq
    have hx := signed_emod h x
    rw [heq, signed_emod h y] at hx
    exact (Int.ofNat.inj hx).symm
  · exact signed_congr h

end Bits

/-! ### Instructions with two operands -/

/-- The operands of an instruction of arithmetic: a destination, and a source of its width or, as
for an immediate, a lower one. Those of `xadd` are registers or in memory and have one width. -/
structure TwoOperands (insn : DecodedInsn) : Prop where
  two : insn.operands.length = 2
  decoded : ∀ idx < 2, ∃ z hasSib, z.Sized ∧ insn.operand idx = translateOperand z hasSib
  destination : IsWidth (insn.operand 0).widthBytes
  source : IsWidth (insn.operand 1).widthBytes
  le : (insn.operand 1).widthBytes ≤ (insn.operand 0).widthBytes
  exchanged : insn.mnem = .xadd →
    (insn.operand 1).widthBytes = (insn.operand 0).widthBytes ∧
      ∀ idx < 2, (insn.operand idx).kind ≠ .imm ∧ (insn.operand idx).kind ≠ .pcRel

namespace Emulator

variable (e : Emulator) (insn : DecodedInsn)

/-- The destination as an unsigned number. -/
def destinationValue : ℕ :=
  (e.getOperValue insn 0).toNat % 2 ^ (8 * (insn.operand 0).widthBytes)

/-- The source as an unsigned number, extended with its sign to the width of the destination. -/
def sourceValue : ℕ :=
  (signed (e.getOperValue insn 1) (insn.operand 1).widthBytes %
    2 ^ (8 * (insn.operand 0).widthBytes)).toNat

/-- The carry that goes in. -/
def carryIn : ℕ := if e.regs.getFlag kEflagsCf then 1 else 0

/-- The carry or the borrow of an instruction. -/
def Carries : Prop :=
  match insn.mnem with
  | .add | .xadd =>
    2 ^ (8 * (insn.operand 0).widthBytes) ≤ e.destinationValue insn + e.sourceValue insn
  | .adc => 2 ^ (8 * (insn.operand 0).widthBytes) ≤
      e.destinationValue insn + e.sourceValue insn + e.carryIn
  | .sub | .cmp => e.destinationValue insn < e.sourceValue insn
  | _ => False

/-- The conditional jump `jump` goes to its target. -/
def TakesBranch (jump : DecodedInsn) : Prop :=
  ∃ out, (e.setProgramCounter jump.va).handle jump = .ok out ∧
    out.nextPc = some ((e.setProgramCounter jump.va).getOperValue jump 0)

end Emulator

/-- The relation of unsigned numbers that a condition stands for. -/
def unsignedRelation (c : Cond) (dst src : ℕ) : Prop :=
  match c with
  | .b => dst < src
  | .nb => src ≤ dst
  | .be => dst ≤ src
  | .nbe => src < dst
  | _ => False

namespace Emulator

variable {e : Emulator} {insn : DecodedInsn}

section TwoOperands

variable (h : TwoOperands insn)

include h

theorem dsize_eq : insn.dsize = (insn.operand 0).widthBytes := by
  unfold DecodedInsn.dsize
  cases hops : insn.operands with
  | nil =>
    have htwo := h.two
    rw [hops] at htwo
    exact absurd htwo (by decide)
  | cons op ops => rfl

theorem isWidth_operands : ∀ op ∈ insn.operands, IsWidth op.widthBytes := by
  intro op hop
  obtain ⟨idx, hlt, rfl⟩ := List.getElem_of_mem hop
  have heq : insn.operands[idx] = insn.operand idx := by
    rw [DecodedInsn.operand, List.getD_eq_getElem _ _ hlt]
  rw [heq]
  have htwo := h.two
  obtain rfl | rfl : idx = 0 ∨ idx = 1 := by omega
  · exact h.destination
  · exact h.source

theorem toNat_unsigned_destination :
    (unsigned (e.getOperValue insn 0) (insn.operand 0).widthBytes).toNat =
      e.destinationValue insn := toNat_unsigned h.destination _

/-- A source that is extended. -/
theorem toNat_unsigned_extended :
    (unsigned (unsigned (asU64 (signed (e.getOperValue insn 1) (insn.operand 1).widthBytes))
      (insn.operand 0).widthBytes) (insn.operand 0).widthBytes).toNat = e.sourceValue insn := by
  have hmod := toNat_asU64_mod h.destination
    (signed (e.getOperValue insn 1) (insn.operand 1).widthBytes)
  rw [toNat_unsigned h.destination, toNat_unsigned h.destination, Nat.mod_mod, sourceValue, ← hmod]
  exact (Int.toNat_natCast _).symm

/-- A source that has the width of the destination. -/
theorem toNat_unsigned_source (heq : (insn.operand 1).widthBytes = (insn.operand 0).widthBytes) :
    (unsigned (e.getOperValue insn 1) (insn.operand 0).widthBytes).toNat = e.sourceValue insn := by
  rw [toNat_unsigned h.destination, sourceValue, heq, signed_emod h.destination]
  exact (Int.toNat_natCast _).symm

/-- The source of a sum. -/
theorem widenedSource_eq : ∃ src, e.widenedSource insn 1 =
      .ok (src, (insn.operand 0).widthBytes) ∧
    (unsigned src (insn.operand 0).widthBytes).toNat = e.sourceValue insn := by
  unfold widenedSource
  dsimp only
  rw [dsize_eq h]
  by_cases hlt : (insn.operand 0).widthBytes > (insn.operand 1).widthBytes
  · rw [if_pos hlt, signExtend_of_lt _ h.source h.destination hlt]
    exact ⟨_, rfl, toNat_unsigned_extended h⟩
  · have heq : (insn.operand 1).widthBytes = (insn.operand 0).widthBytes :=
      Nat.le_antisymm h.le (not_lt.mp hlt)
    rw [if_neg hlt, heq]
    exact ⟨_, rfl, toNat_unsigned_source h heq⟩

/-- The source of a difference. -/
theorem extendedSource_eq : ∃ src, e.extendedSource insn =
      .ok (src, (insn.operand 0).widthBytes) ∧
    (unsigned src (insn.operand 0).widthBytes).toNat = e.sourceValue insn := by
  unfold extendedSource
  dsimp only
  by_cases hne : (insn.operand 0).widthBytes = (insn.operand 1).widthBytes
  · rw [if_neg (not_not.mpr hne), ← hne]
    exact ⟨_, rfl, toNat_unsigned_source h hne.symm⟩
  · have hlt : (insn.operand 1).widthBytes < (insn.operand 0).widthBytes :=
      Nat.lt_of_le_of_ne h.le (Ne.symm hne)
    rw [if_pos hne, signExtend_of_lt _ h.source h.destination hlt]
    exact ⟨_, rfl, toNat_unsigned_extended h⟩

theorem sourceValue_lt : e.sourceValue insn < 2 ^ (8 * (insn.operand 0).widthBytes) := by
  rw [← toNat_unsigned_extended h]
  exact unsigned_lt h.destination _

theorem destinationValue_lt :
    e.destinationValue insn < 2 ^ (8 * (insn.operand 0).widthBytes) := by
  rw [← toNat_unsigned_destination h]
  exact unsigned_lt h.destination _

/-- A register has its own size. -/
theorem widthBytes_of_reg {idx : ℕ} (hidx : idx < 2) (hreg : (insn.operand idx).kind = .reg) :
    (insn.operand idx).widthBytes = (insn.operand idx).baseReg.widthBytes := by
  obtain ⟨z, hasSib, hsized, hop⟩ := h.decoded idx hidx
  exact widthBytes_of_kind_reg hsized hop hreg

/-! ### Flags of the handlers -/

/-- The carry of a number that is the sum or the difference of two unsigned ones. -/
theorem carry_of_value {v : ℤ} {carries : Prop}
    (hv : (insn.operand 0).widthBytes ≠ 8 →
      (2 ^ (8 * (insn.operand 0).widthBytes) ≤ v ∨ v < 0 ↔ carries)) :
    isUnsignedCarry v (insn.operand 0).widthBytes = true ↔
      (insn.operand 0).widthBytes = 8 ∨ carries := by
  by_cases h8 : (insn.operand 0).widthBytes = 8
  · rw [h8]
    exact iff_of_true (isUnsignedCarry_eight v) (.inl rfl)
  · rw [isUnsignedCarry_iff h.destination h8, hv h8]
    exact ⟨.inr, fun hor => hor.resolve_left h8⟩

/-- Below eight bytes, numbers of the width are far from the bounds. -/
theorem two_pow_width_le (h8 : (insn.operand 0).widthBytes ≠ 8) :
    2 ^ (8 * (insn.operand 0).widthBytes) ≤ 2 ^ 32 := by
  refine Nat.pow_le_pow_right (by decide) ?_
  rcases h.destination with hd | hd | hd | hd <;> omega

/-- A sum of unsigned numbers and a carry does not wrap. -/
theorem asI64_sum (h8 : (insn.operand 0).widthBytes ≠ 8) {x y c : UInt64}
    (hx : x.toNat < 2 ^ (8 * (insn.operand 0).widthBytes))
    (hy : y.toNat < 2 ^ (8 * (insn.operand 0).widthBytes)) (hc : c.toNat ≤ 1) :
    asI64 (x + y + c) = x.toNat + y.toNat + c.toNat := by
  have hle := two_pow_width_le h h8
  have hsum : (x + y + c).toNat = x.toNat + y.toNat + c.toNat := by
    rw [UInt64.toNat_add, UInt64.toNat_add]
    omega
  rw [asI64_of_lt (by omega), hsum]
  push_cast
  rfl

theorem opAdd_carry {carry : Bool} {e' : Emulator} (hok : e.opAdd insn carry = .ok e') :
    e'.regs.getFlag kEflagsCf = true ↔ (insn.operand 0).widthBytes = 8 ∨
      2 ^ (8 * (insn.operand 0).widthBytes) ≤ e.destinationValue insn + e.sourceValue insn +
        if carry then e.carryIn else 0 := by
  obtain ⟨src, hsrc, hval⟩ := widenedSource_eq (e := e) h
  have hdst := toNat_unsigned_destination (e := e) h
  have hcarry : (if carry && e.regs.getFlag kEflagsCf then 1 else 0 : UInt64).toNat =
      if carry then e.carryIn else 0 := by
    unfold carryIn
    cases carry <;> cases e.regs.getFlag kEflagsCf <;> rfl
  have hle : (if carry then e.carryIn else 0) ≤ 1 := by
    unfold carryIn
    split_ifs <;> omega
  unfold opAdd at hok
  dsimp only at hok
  rw [hsrc, ok_bind, dsize_eq h] at hok
  obtain ⟨sres, -, hok⟩ := bind_eq_ok.mp hok
  obtain ⟨sres', -, hok⟩ := bind_eq_ok.mp hok
  obtain rfl := Except.ok.inj hok
  rw [getFlag_setOperValue]
  simp (disch := decide) only [setFlags_cons, setFlags_nil, getFlag_setFlag_of_and_eq_zero,
    getFlag_setFlag_self]
  refine carry_of_value h fun h8 => ?_
  rw [asI64_sum h h8 (hdst ▸ destinationValue_lt h) (hval ▸ sourceValue_lt h) (hcarry ▸ hle),
    hdst, hval, hcarry]
  have hpow : (2 ^ (8 * (insn.operand 0).widthBytes) : ℤ) =
      ((2 ^ (8 * (insn.operand 0).widthBytes) : ℕ) : ℤ) := by push_cast; rfl
  rw [hpow]
  omega

theorem integerSubtraction_carry {res : UInt64} {e' : Emulator}
    (hok : e.integerSubtraction insn = .ok (res, e')) :
    (e'.regs.getFlag kEflagsCf = true ↔ (insn.operand 0).widthBytes = 8 ∨
      e.destinationValue insn < e.sourceValue insn) ∧
    (e'.regs.getFlag kEflagsZf = true ↔ e.destinationValue insn = e.sourceValue insn) := by
  obtain ⟨src, hsrc, hval⟩ := extendedSource_eq (e := e) h
  have hdst := toNat_unsigned_destination (e := e) h
  unfold integerSubtraction intSubBase at hok
  rw [hsrc, ok_bind] at hok
  dsimp only at hok
  obtain ⟨ures, hures, hok⟩ := bind_eq_ok.mp hok
  obtain ⟨sres, hsres, hok⟩ := bind_eq_ok.mp hok
  obtain ⟨-, rfl⟩ := I64.checked_eq_ok.mp hures
  obtain ⟨-, rfl⟩ := I64.checked_eq_ok.mp hsres
  obtain ⟨rfl, rfl⟩ := Prod.mk.inj (Except.ok.inj hok)
  simp (disch := decide) only [setFlags_cons, setFlags_nil, getFlag_setFlag_of_and_eq_zero,
    getFlag_setFlag_self]
  constructor
  · refine carry_of_value h fun h8 => ?_
    have hle := two_pow_width_le h h8
    have hdstlt := destinationValue_lt (e := e) h
    have hsrclt := sourceValue_lt (e := e) h
    rw [asI64_of_lt (by omega), asI64_of_lt (by omega), hdst, hval]
    have hpow : (2 ^ (8 * (insn.operand 0).widthBytes) : ℤ) =
        ((2 ^ (8 * (insn.operand 0).widthBytes) : ℕ) : ℤ) := by push_cast; rfl
    rw [hpow]
    omega
  · rw [beq_iff_eq, sub_eq_zero, signed_eq_signed_iff h.destination,
      ← toNat_unsigned h.destination, ← toNat_unsigned h.destination, hdst, hval]

theorem opXadd_carry (hmnem : insn.mnem = .xadd) :
    (e.opXadd insn).regs.getFlag kEflagsCf = true ↔ (insn.operand 0).widthBytes = 8 ∨
      2 ^ (8 * (insn.operand 0).widthBytes) ≤ e.destinationValue insn + e.sourceValue insn := by
  obtain ⟨heq, hkind⟩ := h.exchanged hmnem
  have hdst : (e.getOperValue insn 0).toNat = e.destinationValue insn := by
    refine (Nat.mod_eq_of_lt (toNat_getOperValue_lt (fun hreg => ?_) (hkind 0 (by decide)))).symm
    exact widthBytes_of_reg h (by decide) hreg
  have hsrc : (e.getOperValue insn 1).toNat = e.sourceValue insn := by
    have hlt := toNat_getOperValue_lt (e := e)
      (fun hreg => widthBytes_of_reg h Nat.one_lt_two hreg) (hkind 1 (by decide))
    rw [← toNat_unsigned_source h heq, toNat_unsigned h.destination, Nat.mod_eq_of_lt]
    rw [heq] at hlt
    exact hlt
  unfold opXadd
  dsimp only
  simp (disch := decide) only [setFlags_cons, setFlags_nil, getFlag_setFlag_of_and_eq_zero,
    getFlag_setFlag_self]
  rw [dsize_eq h]
  refine carry_of_value h fun h8 => ?_
  have hsum := asI64_sum h h8 (hdst ▸ destinationValue_lt (e := e) h)
    (hsrc ▸ sourceValue_lt (e := e) h) (c := 0) (Nat.zero_le 1)
  rw [UInt64.add_zero, hdst, hsrc] at hsum
  have hpow : (2 ^ (8 * (insn.operand 0).widthBytes) : ℤ) =
      ((2 ^ (8 * (insn.operand 0).widthBytes) : ℕ) : ℤ) := by push_cast; rfl
  rw [hsum, hpow, UInt64.toNat_zero]
  omega

/-- **The carry of an instruction** is right below eight bytes, and always set above. -/
theorem carry_of_handle (hmnem : insn.mnem ∈ [.add, .adc, .sub, .cmp, .xadd]) {out : Outcome}
    (hok : e.handle insn = .ok out) : out.result = .continue ∧
      (out.after.regs.getFlag kEflagsCf = true ↔
        (insn.operand 0).widthBytes = 8 ∨ e.Carries insn) := by
  unfold Carries
  unfold handle at hok
  dsimp only at hok
  simp only [List.mem_cons, List.not_mem_nil, or_false] at hmnem
  rcases hmnem with hm | hm | hm | hm | hm
  · rw [hm] at hok ⊢
    obtain ⟨e', hadd, hout⟩ := bind_eq_ok.mp hok
    obtain rfl := Except.ok.inj hout
    exact ⟨rfl, opAdd_carry h hadd⟩
  · rw [hm] at hok ⊢
    obtain ⟨e', hadd, hout⟩ := bind_eq_ok.mp hok
    obtain rfl := Except.ok.inj hout
    exact ⟨rfl, opAdd_carry h hadd⟩
  · rw [hm] at hok ⊢
    obtain ⟨e', hsub, hout⟩ := bind_eq_ok.mp hok
    obtain ⟨⟨res, e₁⟩, hres, he'⟩ := bind_eq_ok.mp hsub
    obtain rfl := Except.ok.inj hout
    obtain rfl := Except.ok.inj he'
    rw [getFlag_setOperValue]
    exact ⟨rfl, (integerSubtraction_carry h hres).1⟩
  · rw [hm] at hok ⊢
    obtain ⟨e', hsub, hout⟩ := bind_eq_ok.mp hok
    obtain ⟨⟨res, e₁⟩, hres, he'⟩ := bind_eq_ok.mp hsub
    obtain rfl := Except.ok.inj hout
    obtain rfl := Except.ok.inj he'
    exact ⟨rfl, (integerSubtraction_carry h hres).1⟩
  · rw [hm] at hok ⊢
    obtain rfl := Except.ok.inj hok
    exact ⟨rfl, opXadd_carry h hm⟩

/-- A comparison sets the zero flag when the numbers are equal. -/
theorem zero_of_handle (hmnem : insn.mnem = .cmp) {out : Outcome} (hok : e.handle insn = .ok out) :
    out.after.regs.getFlag kEflagsZf = true ↔ e.destinationValue insn = e.sourceValue insn := by
  unfold handle at hok
  dsimp only at hok
  rw [hmnem] at hok
  obtain ⟨e', hsub, hout⟩ := bind_eq_ok.mp hok
  obtain ⟨⟨res, e₁⟩, hres, he'⟩ := bind_eq_ok.mp hsub
  obtain rfl := Except.ok.inj hout
  obtain rfl := Except.ok.inj he'
  exact (integerSubtraction_carry h hres).2

end TwoOperands

/-- A jump reads the flags. -/
theorem takesBranch_iff {jump : DecodedInsn} {c : Cond} (hjump : jump.mnem = .j c) :
    e.TakesBranch jump ↔ e.conditionMet c = true := by
  have hcond : (e.setProgramCounter jump.va).conditionMet c = e.conditionMet c := by
    simp only [conditionMet, getFlag_setProgramCounter]
  unfold TakesBranch handle
  dsimp only
  rw [hjump, ← hcond]
  constructor
  · rintro ⟨out, hout, hpc⟩
    obtain rfl := Except.ok.inj hout
    by_contra hnot
    rw [if_neg hnot] at hpc
    exact absurd hpc nofun
  · intro hmet
    exact ⟨_, rfl, if_pos hmet⟩

/-- A jump after a comparison is right when the carry is. -/
theorem conditionMet_iff_unsignedRelation {c : Cond} (hc : c ∈ [.b, .nb, .be, .nbe]) {dst src : ℕ}
    (hcf : e.regs.getFlag kEflagsCf = true ↔ dst < src)
    (hzf : e.regs.getFlag kEflagsZf = true ↔ dst = src) :
    e.conditionMet c = true ↔ unsignedRelation c dst src := by
  simp only [List.mem_cons, List.not_mem_nil, or_false] at hc
  rcases hc with rfl | rfl | rfl | rfl
  · exact hcf
  · show (!e.regs.getFlag kEflagsCf) = true ↔ src ≤ dst
    rw [Bool.not_eq_true', ← Bool.not_eq_true, hcf, not_lt]
  · show (e.regs.getFlag kEflagsCf || e.regs.getFlag kEflagsZf) = true ↔ dst ≤ src
    rw [Bool.or_eq_true, hcf, hzf, Nat.le_iff_lt_or_eq]
  · show (!e.regs.getFlag kEflagsCf && !e.regs.getFlag kEflagsZf) = true ↔ src < dst
    rw [Bool.and_eq_true, Bool.not_eq_true', Bool.not_eq_true', ← Bool.not_eq_true,
      ← Bool.not_eq_true, hcf, hzf]
    omega

end Emulator

open Emulator

/-- **The carry flag** after a sum or a difference, and the jumps that read it after a comparison,
are right exactly when the instruction has a result and, of eight bytes, a carry does occur. -/
theorem carry_iff (e : Emulator) (insn : DecodedInsn) (h : TwoOperands insn)
    (hmnem : insn.mnem ∈ [.add, .adc, .sub, .cmp, .xadd]) :
    (∃ e', e.executeOpcode insn = .ok (.continue, e') ∧
      (e'.regs.getFlag kEflagsCf = true ↔ (e.setProgramCounter insn.va).Carries insn) ∧
      (insn.mnem = .cmp → ∀ jump c, jump.mnem = .j c → c ∈ [.b, .nb, .be, .nbe] →
        (e'.TakesBranch jump ↔ unsignedRelation c
          ((e.setProgramCounter insn.va).destinationValue insn)
          ((e.setProgramCounter insn.va).sourceValue insn)))) ↔
      ¬ (e.setProgramCounter insn.va).Hazard insn ∧
        ((insn.operand 0).widthBytes = 8 → (e.setProgramCounter insn.va).Carries insn) := by
  rw [← handle_hasResult_iff (isWidth_operands h)]
  unfold executeOpcode
  constructor
  · rintro ⟨e', hok, hcf, -⟩
    obtain ⟨out, hout, hok⟩ := bind_eq_ok.mp hok
    obtain ⟨hcontinue, hflag⟩ := carry_of_handle h hmnem hout
    obtain ⟨-, rfl⟩ := Prod.mk.inj (Except.ok.inj hok)
    rw [if_pos hcontinue, getFlag_setProgramCounter] at hcf
    exact ⟨⟨out, hout⟩, fun h8 => hcf.mp (hflag.mpr (.inl h8))⟩
  · rintro ⟨⟨out, hout⟩, h8⟩
    obtain ⟨hcontinue, hflag⟩ := carry_of_handle h hmnem hout
    have hcf : out.after.regs.getFlag kEflagsCf = true ↔
        (e.setProgramCounter insn.va).Carries insn :=
      hflag.trans ⟨fun hor => hor.elim h8 id, .inr⟩
    rw [hout, ok_bind, if_pos hcontinue, hcontinue]
    refine ⟨_, rfl, ?_, fun hcmp jump c hjump hc => ?_⟩
    · rw [getFlag_setProgramCounter]
      exact hcf
    · rw [takesBranch_iff hjump]
      have hcarries : (e.setProgramCounter insn.va).Carries insn ↔
          (e.setProgramCounter insn.va).destinationValue insn <
            (e.setProgramCounter insn.va).sourceValue insn := by
        unfold Carries
        rw [hcmp]
      refine conditionMet_iff_unsignedRelation hc ?_ ?_
      · rw [getFlag_setProgramCounter, hcf, hcarries]
      · rw [getFlag_setProgramCounter]
        exact zero_of_handle h hcmp hout

/-- `cmp` of the 64-bit accumulator and an immediate of one byte. -/
def cmpInsn (imm : UInt64) : DecodedInsn :=
  { va := 0x1000, length := 4, mnem := .cmp
    operands := [translateOperand (.register 64 (.gpr64 0)) false,
      translateOperand (.immediate 8 imm false) false] }

theorem twoOperands_cmpInsn (imm : UInt64) : TwoOperands (cmpInsn imm) where
  two := rfl
  decoded := by
    intro idx hidx
    obtain rfl | rfl : idx = 0 ∨ idx = 1 := by omega
    · exact ⟨.register 64 (.gpr64 0), false, rfl, rfl⟩
    · exact ⟨.immediate 8 imm false, false, trivial, rfl⟩
  destination := .inr (.inr (.inr rfl))
  source := .inl rfl
  le := Nat.le_of_ble_eq_true rfl
  exchanged := nofun

/-- `cmp rax, 1` with 0 in `rax`. -/
theorem carry_iff_cmpInsn : ∃ e', executeOpcode { regs := { is64bit := true } } (cmpInsn 1) =
      .ok (.continue, e') ∧ e'.regs.getFlag kEflagsCf = true := by
  have hcarries : Carries (setProgramCounter { regs := { is64bit := true } } 0x1000)
      (cmpInsn 1) := by
    show destinationValue _ (cmpInsn 1) < sourceValue _ (cmpInsn 1)
    decide
  obtain ⟨e', hok, hcf, -⟩ :=
    (carry_iff { regs := { is64bit := true } } (cmpInsn 1) (twoOperands_cmpInsn 1) (by decide)).mpr
      ⟨by
        show ¬ (_ ∧ ¬ I64.Fits _)
        decide, fun _ => hcarries⟩
  exact ⟨e', hok, hcf.mpr hcarries⟩

/-- `cmp rax, 0` with 0 in `rax` sets the carry, and there is no borrow. -/
theorem executeOpcode_cmp_zero :
    (∃ e', executeOpcode { regs := { is64bit := true } } (cmpInsn 0) = .ok (.continue, e') ∧
      e'.regs.getFlag kEflagsCf = true) ∧
    ¬ Carries (setProgramCounter { regs := { is64bit := true } } 0x1000) (cmpInsn 0) := by
  have hresult : HasResult (handle (setProgramCounter { regs := { is64bit := true } } 0x1000)
      (cmpInsn 0)) := by
    rw [handle_hasResult_iff (isWidth_operands (twoOperands_cmpInsn 0))]
    show ¬ (_ ∧ ¬ I64.Fits _)
    decide
  obtain ⟨out, hout⟩ := hresult
  obtain ⟨hcontinue, hflag⟩ := carry_of_handle (twoOperands_cmpInsn 0) (by decide) hout
  constructor
  · refine ⟨out.after.setProgramCounter (out.nextPc.getD 0x1004), ?_, ?_⟩
    · show (handle (setProgramCounter { regs := { is64bit := true } } 0x1000) (cmpInsn 0) >>= _) = _
      rw [hout, ok_bind, if_pos hcontinue, hcontinue]
      rfl
    · rw [getFlag_setProgramCounter]
      exact hflag.mpr (.inl rfl)
  · show ¬ destinationValue _ (cmpInsn 0) < sourceValue _ (cmpInsn 0)
    decide

end Papa.Emu
