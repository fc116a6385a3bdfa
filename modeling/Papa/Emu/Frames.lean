import Papa.Emu.IntelEmulator

/-!
# What a write of the emulator leaves alone

A write of a flag is a write to the slot of the flags, and one of the program counter to its own
slot. No operand of an instruction is the slot of the flags.

## Main results

* `Emulator.getFlag_setFlag_self`, `Emulator.getFlag_setFlag_of_and_eq_zero`: flags after flags.
* `Emulator.setFlags_vals_of_ne`, `Emulator.getFlag_setOperValue`: the rest.
-/

namespace Papa.Emu

open Bits

/-! ### Numbers in memory -/

/-- The bits of a number are those of its bytes. -/
theorem testBit_foldr_bytes (bytes : List UInt8) {k : ℕ} (hk : k < 64) :
    (bytes.foldr (fun b (value : UInt64) => b.toUInt64 ||| value <<< 8) 0).toNat.testBit k =
      (bytes.getD (k / 8) 0).toNat.testBit (k % 8) := by
  induction bytes generalizing k with
  | nil => simp
  | cons b bytes ih =>
    have hshift (x : UInt64) : (x <<< 8).toNat.testBit k =
        (decide (8 ≤ k) && x.toNat.testBit (k - 8)) := by
      rw [show (8 : UInt64) = UInt64.ofNat 8 from rfl, testBit_shiftLeft x (by decide),
        decide_eq_true hk, Bool.true_and]
    rw [List.foldr_cons, testBit_or, hshift, UInt8.toNat_toUInt64]
    by_cases h8 : 8 ≤ k
    · have hb : b.toNat.testBit k = false := Nat.testBit_lt_two_pow
        (Nat.lt_of_lt_of_le b.toNat_lt (Nat.pow_le_pow_right (by decide) h8))
      obtain ⟨j, rfl⟩ := Nat.exists_eq_add_of_le h8
      rw [hb, Bool.false_or, decide_eq_true h8, Bool.true_and, Nat.add_sub_cancel_left,
        ih (by omega), show (8 + j) / 8 = j / 8 + 1 by omega, List.getD_cons_succ,
        show (8 + j) % 8 = j % 8 by omega]
    · rw [decide_eq_false h8, Bool.false_and, Bool.or_false, Nat.div_eq_of_lt (by omega),
        Nat.mod_eq_of_lt (by omega), List.getD_cons_zero]

theorem testBit_valueOfBytes (bytes : List UInt8) {k : ℕ} (hk : k < 64) :
    (valueOfBytes bytes).toNat.testBit k = (bytes.getD (k / 8) 0).toNat.testBit (k % 8) := by
  unfold valueOfBytes
  rw [testBit_foldr_bytes _ hk, List.getD_eq_getElem?_getD, List.getD_eq_getElem?_getD,
    List.getElem?_take_of_lt (by omega)]

/-- A number has no more bits than its bytes. -/
theorem toNat_valueOfBytes_lt {bytes : List UInt8} {n : ℕ} (h : bytes.length ≤ n) :
    (valueOfBytes bytes).toNat < 2 ^ (8 * n) := by
  refine Nat.lt_pow_two_of_testBit _ fun k hk => ?_
  by_cases h64 : k < 64
  · rw [testBit_valueOfBytes _ h64, List.getD_eq_default _ _ (by omega)]
    exact Nat.zero_testBit _
  · exact testBit_of_le _ (not_lt.mp h64)

theorem length_readBytes_le (mem : SandboxMemory) (va size : UInt64) :
    (mem.readBytes va size).length ≤ size.toNat := by
  unfold SandboxMemory.readBytes
  split_ifs
  · cases mem.findMap va with
    | none => exact Nat.zero_le _
    | some map => rw [List.length_map, List.length_range]
  · rw [List.length_replicate]

namespace Emulator

variable {e : Emulator} {insn : DecodedInsn} {idx : ℕ} {value which other : UInt64} {state : Bool}

/-! ### Registers and memory -/

@[simp] theorem setRegister_mem (i : RegIndex) : (e.setRegister i value).mem = e.mem := rfl

@[simp] theorem setRegister_regs (i : RegIndex) :
    (e.setRegister i value).regs = e.regs.set i value := rfl

@[simp] theorem setRegister_is64bit (i : RegIndex) :
    (e.setRegister i value).is64bit = e.is64bit := RegisterFile.set_is64bit

@[simp] theorem setFlag_mem : (e.setFlag which state).mem = e.mem := rfl

@[simp] theorem setFlag_is64bit : (e.setFlag which state).is64bit = e.is64bit := rfl

@[simp] theorem setProgramCounter_mem : (e.setProgramCounter value).mem = e.mem := rfl

@[simp] theorem setProgramCounter_is64bit : (e.setProgramCounter value).is64bit = e.is64bit := rfl

theorem setFlag_vals_of_ne {j : Slot} (h : j ≠ e.regs.eflagsIndex) :
    (e.setFlag which state).regs.vals j = e.regs.vals j := RegisterFile.update_vals_of_ne h

theorem setProgramCounter_vals_of_ne {j : Slot} (h : j ≠ e.regs.pcIndex) :
    (e.setProgramCounter value).regs.vals j = e.regs.vals j := RegisterFile.update_vals_of_ne h

/-- Flags after flags are one list of flags. -/
theorem setFlags_cons (flag : UInt64 × Bool) (flags : List (UInt64 × Bool)) :
    e.setFlags (flag :: flags) = (e.setFlag flag.1 flag.2).setFlags flags := rfl

@[simp] theorem setFlags_nil : e.setFlags [] = e := rfl

@[simp] theorem setFlags_mem (flags : List (UInt64 × Bool)) : (e.setFlags flags).mem = e.mem := by
  induction flags generalizing e with
  | nil => rfl
  | cons flag flags ih => rw [setFlags_cons, ih, setFlag_mem]

@[simp] theorem setFlags_is64bit (flags : List (UInt64 × Bool)) :
    (e.setFlags flags).is64bit = e.is64bit := by
  induction flags generalizing e with
  | nil => rfl
  | cons flag flags ih => rw [setFlags_cons, ih, setFlag_is64bit]

theorem setFlags_vals_of_ne {j : Slot} (h : j ≠ e.regs.eflagsIndex) (flags : List (UInt64 × Bool)) :
    (e.setFlags flags).regs.vals j = e.regs.vals j := by
  induction flags generalizing e with
  | nil => rfl
  | cons flag flags ih =>
    rw [setFlags_cons, ih (e := e.setFlag flag.1 flag.2) h, setFlag_vals_of_ne h]

variable (e insn idx value) in
/-- A write to an operand in a register is a write to its slot, and no other write to an operand
changes the registers. -/
theorem setOperValue_regs : (e.setOperValue insn idx value).regs = e.regs ∨
    ∃ reg i, regIndexFromZydis e.is64bit reg = some i ∧
      (e.setOperValue insn idx value).regs = e.regs.set i value := by
  unfold setOperValue
  dsimp only
  cases hkind : (insn.operand idx).kind with
  | reg =>
    dsimp only
    cases hi : regIndexFromZydis e.is64bit (insn.operand idx).baseReg with
    | none => exact .inl rfl
    | some i => exact .inr ⟨_, i, hi, rfl⟩
  | regMem | immMem | sib | ripRel | imm | pcRel | unknown => exact .inl rfl

@[simp] theorem setOperValue_is64bit : (e.setOperValue insn idx value).is64bit = e.is64bit := by
  obtain h | ⟨reg, i, -, h⟩ := setOperValue_regs e insn idx value
  · rw [is64bit, h, is64bit]
  · rw [is64bit, h, RegisterFile.set_is64bit, is64bit]

/-! ### Flags -/

theorem getFlag_congr {r r' : RegisterFile} (hmode : r.is64bit = r'.is64bit)
    (h : r.vals r.eflagsIndex = r'.vals r.eflagsIndex) : r.getFlag which = r'.getFlag which := by
  have hindex : r'.eflagsIndex = r.eflagsIndex := by
    unfold RegisterFile.eflagsIndex
    rw [hmode]
  rw [RegisterFile.getFlag, RegisterFile.getFlag, hindex, h]

/-- A flag of the low 32 bits is inside the mask of every write. -/
theorem testBit_realMask_of_fits (hfits : which &&& 0xFFFFFFFF = which) (is64bit : Bool) {k : ℕ}
    (hk : which.toNat.testBit k = true) : (realMask is64bit).toNat.testBit k = true := by
  rw [← hfits, testBit_and, Bool.and_eq_true] at hk
  have hlt : k < 32 := of_decide_eq_true ((testBit_realMask false k).symm.trans hk.2)
  rw [testBit_realMask, decide_eq_true_iff]
  split_ifs <;> omega

/-- A flag that is written. -/
theorem getFlag_setFlag_self (hfits : which &&& 0xFFFFFFFF = which) (hne : which ≠ 0) :
    (e.setFlag which state).regs.getFlag which = state := by
  unfold setFlag RegisterFile.setFlag RegisterFile.getFlag
  show ((e.regs.update e.regs.eflagsIndex _).vals e.regs.eflagsIndex &&& which != 0) = state
  rw [RegisterFile.update_vals_self]
  cases state with
  | true =>
    rw [if_pos rfl, bne_iff_ne]
    suffices h : (e.regs.vals e.regs.eflagsIndex ||| which) &&& realMask e.regs.is64bit &&& which =
        which by rwa [h]
    refine eq_of_testBit fun k _ => ?_
    rw [testBit_and, testBit_and, testBit_or]
    cases hk : which.toNat.testBit k with
    | false => rw [Bool.and_false]
    | true => rw [testBit_realMask_of_fits hfits _ hk, Bool.or_true, Bool.and_self, Bool.and_self]
  | false =>
    rw [if_neg Bool.false_ne_true, bne_eq_false_iff_eq]
    refine eq_of_testBit fun k _ => ?_
    rw [testBit_and, testBit_and, testBit_and, testBit_not, UInt64.toNat_zero, Nat.zero_testBit]
    cases which.toNat.testBit k
    · rw [Bool.and_false]
    · rw [Bool.not_true, Bool.and_false, Bool.and_false, Bool.false_and, Bool.false_and]

/-- A flag keeps its value when another one is written. -/
theorem getFlag_setFlag_of_and_eq_zero (hfits : which &&& 0xFFFFFFFF = which)
    (h : which &&& other = 0) :
    (e.setFlag other state).regs.getFlag which = e.regs.getFlag which := by
  unfold setFlag RegisterFile.setFlag RegisterFile.getFlag
  show ((e.regs.update e.regs.eflagsIndex _).vals e.regs.eflagsIndex &&& which != 0) = _
  rw [RegisterFile.update_vals_self]
  refine congrArg (· != 0) (eq_of_testBit fun k _ => ?_)
  have hother (hk : which.toNat.testBit k = true) : other.toNat.testBit k = false := by
    have hbit := testBit_and which other k
    rw [h, UInt64.toNat_zero, Nat.zero_testBit, hk, Bool.true_and] at hbit
    exact hbit.symm
  rw [testBit_and, testBit_and, testBit_and]
  cases hk : which.toNat.testBit k with
  | false => rw [Bool.and_false, Bool.and_false]
  | true =>
    rw [testBit_realMask_of_fits hfits _ hk, Bool.and_true, Bool.and_true, Bool.and_true]
    cases state with
    | true => rw [if_pos rfl, testBit_or, hother hk, Bool.or_false]
    | false =>
      have hlt : k < 64 := by
        by_contra hle
        rw [testBit_of_le which (not_lt.mp hle)] at hk
        exact absurd hk Bool.false_ne_true
      rw [if_neg Bool.false_ne_true, testBit_and, testBit_not, hother hk, Bool.not_false,
        decide_eq_true hlt, Bool.and_true, Bool.and_true]

theorem getFlag_setProgramCounter :
    (e.setProgramCounter value).regs.getFlag which = e.regs.getFlag which := by
  refine getFlag_congr rfl (setProgramCounter_vals_of_ne ?_)
  show e.regs.eflagsIndex ≠ e.regs.pcIndex
  unfold RegisterFile.eflagsIndex RegisterFile.pcIndex
  cases e.regs.is64bit <;> decide

theorem getFlag_setOperValue :
    (e.setOperValue insn idx value).regs.getFlag which = e.regs.getFlag which := by
  obtain h | ⟨reg, i, hi, h⟩ :=
    setOperValue_regs e insn idx value
  · rw [h]
  · rw [h]
    refine getFlag_congr RegisterFile.set_is64bit (RegisterFile.set_vals_of_ne ?_)
    obtain ⟨-, -, hlt⟩ := regIndexFromZydis_spec hi
    unfold RegisterFile.eflagsIndex
    rw [RegisterFile.set_is64bit]
    unfold is64bit at hlt
    intro heq
    rw [← heq] at hlt
    cases hmode : e.regs.is64bit <;> rw [hmode] at hlt <;> exact absurd hlt (by decide)

/-! ### Values of operands -/

theorem toNat_registerValue_lt (reg : ZydisRegister) :
    (e.registerValue reg).toNat < 2 ^ (8 * reg.widthBytes) := by
  unfold registerValue
  cases hi : regIndexFromZydis e.is64bit reg with
  | none => exact Nat.two_pow_pos _
  | some i =>
    obtain ⟨hvalid, hwidth, -⟩ := regIndexFromZydis_spec hi
    rw [← hwidth]
    exact RegisterFile.toNat_get_lt hvalid

/-- An operand in a register of its size, or in memory, has a value of its width. -/
theorem toNat_getOperValue_lt (hreg : (insn.operand idx).kind = .reg →
      (insn.operand idx).widthBytes = (insn.operand idx).baseReg.widthBytes)
    (himm : (insn.operand idx).kind ≠ .imm ∧ (insn.operand idx).kind ≠ .pcRel) :
    (e.getOperValue insn idx).toNat < 2 ^ (8 * (insn.operand idx).widthBytes) := by
  have hmem : (e.mem.readValue (e.getOperAddr insn idx)
      (UInt64.ofNat (insn.operand idx).widthBytes)).toNat <
        2 ^ (8 * (insn.operand idx).widthBytes) := by
    refine toNat_valueOfBytes_lt (Nat.le_trans (length_readBytes_le _ _ _) ?_)
    rw [UInt64.toNat_ofNat']
    exact Nat.mod_le _ _
  unfold getOperValue
  dsimp only
  cases hkind : (insn.operand idx).kind with
  | reg =>
    rw [hreg hkind]
    exact toNat_registerValue_lt _
  | imm => exact absurd hkind himm.1
  | pcRel => exact absurd hkind himm.2
  | regMem | immMem | sib | ripRel => exact hmem
  | unknown => exact Nat.two_pow_pos _

end Emulator

end Papa.Emu
