import Mathlib.Logic.Function.Basic
import Papa.Emu.Bits

/-!
# Registers of the emulator

A register file has 18 slots of 64 bits. The general registers are the first ones; the program
counter and the flags are at slots 8 and 9 of a 32-bit file, and at 16 and 17 of a 64-bit one. A
part of a slot is a lane: a number of bits from a bit on. In a 64-bit file a write to the low 32
bits of a slot clears the high ones. In a 32-bit file no slot has more than 32 bits.

## Main definitions

* `RegIndex`, `RegisterFile`, `RegisterFile.get`, `RegisterFile.set`, `RegisterFile.setFlag`.
* `ZydisRegister`, `regIndexFromZydis`: the registers of instructions.
-/

namespace Papa.Emu

/-- A slot. -/
abbrev Slot := Fin 18

instance neZeroSlots : NeZero 18 := ⟨by decide⟩

instance neZeroRegisters : NeZero 16 := ⟨by decide⟩

/-- A whole slot, or the `width` bits of one from bit `offset` on. -/
inductive RegIndex
  | real (slot : Slot)
  | lane (offset width : ℕ) (slot : Slot)
  deriving DecidableEq

/-- The bytes of an XMM register. -/
abbrev Xmm := Vector UInt8 16

/-- `width_mask`. -/
def widthMask (width : ℕ) : UInt64 :=
  if width ≥ 64 then 0xFFFFFFFFFFFFFFFF else (1 <<< UInt64.ofNat width) - 1

/-- The mask of every write to a slot. -/
def realMask (is64bit : Bool) : UInt64 := if is64bit then 0xFFFFFFFFFFFFFFFF else 0xFFFFFFFF

/-- A register file. -/
structure RegisterFile where
  is64bit : Bool
  vals : Slot → UInt64 := fun _ => 0
  taint : Slot → Bool := fun _ => false
  xmm : Fin 16 → Xmm := fun _ => Vector.replicate 16 0
  masked : ∀ i, vals i &&& realMask is64bit = vals i := by decide

/-! ### Flags -/

def kEflagsCf : UInt64 := 1
def kEflagsPf : UInt64 := 4
def kEflagsAf : UInt64 := 16
def kEflagsZf : UInt64 := 64
def kEflagsSf : UInt64 := 128
def kEflagsOf : UInt64 := 2048

namespace RegisterFile

variable (r : RegisterFile)

/-- The slot of the flags. -/
def eflagsIndex : Slot := if r.is64bit then 17 else 9

/-- The slot of the program counter. -/
def pcIndex : Slot := if r.is64bit then 16 else 8

/-- Write a slot. -/
def update (i : Slot) (value : UInt64) : RegisterFile :=
  { r with
    vals := Function.update r.vals i (value &&& realMask r.is64bit)
    masked := by
      intro j
      by_cases h : j = i
      · subst h
        rw [Function.update_self, UInt64.and_assoc, UInt64.and_self]
      · rw [Function.update_of_ne h]
        exact r.masked j }

/-- Read a slot or a lane. -/
def get : RegIndex → UInt64
  | .real i => r.vals i
  | .lane offset width i =>
    (if offset ≠ 0 then r.vals i >>> UInt64.ofNat offset else r.vals i) &&& widthMask width

/-- Write a slot or a lane. -/
def set : RegIndex → UInt64 → RegisterFile
  | .real i, value => r.update i value
  | .lane offset width i, value =>
    if r.is64bit ∧ offset = 0 ∧ width = 32 then r.update i value
    else
      let laneMask := widthMask width <<< UInt64.ofNat offset
      let newbits := value <<< UInt64.ofNat offset &&& laneMask
      r.update i (r.vals i &&& ~~~laneMask ||| newbits)

/-- Whether a flag is set. -/
def getFlag (which : UInt64) : Bool := r.vals r.eflagsIndex &&& which != 0

/-- Write a flag. The flags of the source fit the mask of a 32-bit file. -/
def setFlag (which : UInt64) (state : Bool) : RegisterFile :=
  r.update r.eflagsIndex
    (if state then r.vals r.eflagsIndex ||| which else r.vals r.eflagsIndex &&& ~~~which)

/-- Write the taint of a slot. -/
def setTaint (i : Slot) (tainted : Bool) : RegisterFile :=
  { r with taint := Function.update r.taint i tainted }

/-- Write an XMM register. -/
def setXmm (i : Fin 16) (value : Xmm) : RegisterFile :=
  { r with xmm := Function.update r.xmm i value }

end RegisterFile

/-! ### The registers of instructions -/

/-- The registers of instructions: the general ones by their number and width, the program counter,
the XMM registers, and others. The high bytes are those of the first four. -/
inductive ZydisRegister
  | none
  | gpr64 (n : Fin 16)
  | gpr32 (n : Fin 16)
  | gpr16 (n : Fin 16)
  | gpr8 (n : Fin 16)
  | gpr8High (n : Fin 4)
  | rip
  | eip
  | ip
  | xmm (n : Fin 16)
  | other (n : ℕ)
  deriving DecidableEq

/-- The slot of a general register. -/
def gprSlot (n : Fin 16) : Slot := ⟨n, by omega⟩

/-- `reg_index_from_zydis`. -/
def regIndexFromZydis (is64bit : Bool) : ZydisRegister → Option RegIndex
  | .gpr64 n => if is64bit then some (.real (gprSlot n)) else none
  | .gpr32 n =>
    if is64bit then some (.lane 0 32 (gprSlot n))
    else if n < 8 then some (.real (gprSlot n)) else none
  | .gpr16 n => if is64bit ∨ n < 8 then some (.lane 0 16 (gprSlot n)) else none
  | .gpr8 n => if is64bit ∨ n < 4 then some (.lane 0 8 (gprSlot n)) else none
  | .gpr8High n => some (.lane 8 8 ⟨n, by omega⟩)
  | .rip => if is64bit then some (.real 16) else none
  | .eip => if is64bit then some (.lane 0 32 16) else some (.real 8)
  | _ => none

def kRegEax : RegIndex := .real 0
def kRegEcx : RegIndex := .real 1
def kRegEdx : RegIndex := .real 2
def kRegEsp : RegIndex := .real 4
def kRegEbp : RegIndex := .real 5
def kRegRax : RegIndex := .real 0
def kRegRdx : RegIndex := .real 2
def kRegAx : RegIndex := .lane 0 16 0
def kRegCx : RegIndex := .lane 0 16 1
def kRegDx : RegIndex := .lane 0 16 2
def kRegAl : RegIndex := .lane 0 8 0

/-! ### Reading after writing -/

namespace RegIndex

/-- The slot of a register. -/
def slot : RegIndex → Slot
  | .real i => i
  | .lane _ _ i => i

/-- The first bit of a register. -/
def offset : RegIndex → ℕ
  | .real _ => 0
  | .lane offset _ _ => offset

/-- The number of bits of a register. -/
def width (is64bit : Bool) : RegIndex → ℕ
  | .real _ => if is64bit then 64 else 32
  | .lane _ width _ => width

/-- The number of bits that a write changes: the low 32 bits of a slot take the high ones along. -/
def written (is64bit : Bool) (i : RegIndex) : ℕ :=
  if is64bit ∧ i.offset = 0 ∧ i.width is64bit = 32 then 64 else i.width is64bit

/-- A lane is inside its slot. -/
def Valid (is64bit : Bool) (i : RegIndex) : Prop :=
  0 < i.width is64bit ∧ i.offset + i.width is64bit ≤ if is64bit then 64 else 32

instance (is64bit : Bool) (i : RegIndex) : Decidable (i.Valid is64bit) :=
  inferInstanceAs (Decidable (_ ∧ _))

theorem valid_real (is64bit : Bool) (slot : Slot) : (RegIndex.real slot).Valid is64bit := by
  cases is64bit with
  | true => exact ⟨Nat.succ_pos 63, Nat.le_of_eq (Nat.zero_add 64)⟩
  | false => exact ⟨Nat.succ_pos 31, Nat.le_of_eq (Nat.zero_add 32)⟩

theorem valid_lane (is64bit : Bool) (slot : Slot) {offset width : ℕ} (hpos : 0 < width)
    (hle : offset + width ≤ 32) : (RegIndex.lane offset width slot).Valid is64bit := by
  refine ⟨hpos, Nat.le_trans hle ?_⟩
  cases is64bit <;> decide

end RegIndex

open Bits

theorem testBit_realMask (is64bit : Bool) (k : ℕ) :
    (realMask is64bit).toNat.testBit k = decide (k < if is64bit then 64 else 32) := by
  cases is64bit with
  | true => exact Nat.testBit_two_pow_sub_one 64 k
  | false => exact Nat.testBit_two_pow_sub_one 32 k

theorem testBit_widthMask {width : ℕ} (h : width ≤ 64) (k : ℕ) :
    (widthMask width).toNat.testBit k = decide (k < width) := by
  unfold widthMask
  split_ifs with h64
  · obtain rfl : width = 64 := by omega
    exact Nat.testBit_two_pow_sub_one 64 k
  · have hpow : (1 <<< UInt64.ofNat width : UInt64).toNat = 2 ^ width := by
      have hlt : 2 ^ width < 2 ^ 64 := Nat.pow_lt_pow_right (by decide) (by omega)
      rw [UInt64.toNat_shiftLeft, UInt64.toNat_ofNat', Nat.mod_eq_of_lt (a := width) (by omega),
        Nat.mod_eq_of_lt (a := width) (by omega), UInt64.toNat_one, Nat.one_shiftLeft,
        Nat.mod_eq_of_lt hlt]
    have hle : (1 : UInt64) ≤ 1 <<< UInt64.ofNat width := by
      rw [UInt64.le_iff_toNat_le, hpow]
      exact Nat.one_le_two_pow
    rw [UInt64.toNat_sub_of_le _ _ hle, hpow]
    exact Nat.testBit_two_pow_sub_one width k

namespace RegisterFile

variable {r : RegisterFile} {i : RegIndex} {value : UInt64}

@[simp] theorem update_is64bit (i : Slot) : (r.update i value).is64bit = r.is64bit := rfl

@[simp] theorem set_is64bit : (r.set i value).is64bit = r.is64bit := by
  cases i with
  | real i => rfl
  | lane offset width i =>
    simp only [set]
    split_ifs <;> rfl

@[simp] theorem setFlag_is64bit (which : UInt64) (state : Bool) :
    (r.setFlag which state).is64bit = r.is64bit := rfl

theorem update_vals_self (i : Slot) :
    (r.update i value).vals i = value &&& realMask r.is64bit := Function.update_self ..

theorem update_vals_of_ne {i j : Slot} (h : j ≠ i) : (r.update i value).vals j = r.vals j :=
  Function.update_of_ne h ..

/-- A write leaves the other slots alone. -/
theorem set_vals_of_ne {j : Slot} (h : j ≠ i.slot) : (r.set i value).vals j = r.vals j := by
  cases i with
  | real i => exact update_vals_of_ne h
  | lane offset width i =>
    simp only [set]
    split_ifs
    · exact update_vals_of_ne h
    · exact update_vals_of_ne h

theorem testBit_vals_of_le (j : Slot) {k : ℕ} (h : (if r.is64bit then 64 else 32) ≤ k) :
    (r.vals j).toNat.testBit k = false := by
  rw [← r.masked j, testBit_and, testBit_realMask, decide_eq_false (not_lt.mpr h), Bool.and_false]

theorem valid_lane_le {offset width : ℕ} {slot : Slot}
    (h : RegIndex.Valid r.is64bit (.lane offset width slot)) : 0 < width ∧ offset + width ≤ 64 := by
  have hle : offset + width ≤ if r.is64bit then 64 else 32 := h.2
  refine ⟨h.1, ?_⟩
  split_ifs at hle <;> omega

/-- **The bits of a register.** -/
theorem testBit_get (h : i.Valid r.is64bit) (k : ℕ) : (r.get i).toNat.testBit k =
    (decide (k < i.width r.is64bit) && (r.vals i.slot).toNat.testBit (i.offset + k)) := by
  by_cases hk : k < i.width r.is64bit
  · rw [decide_eq_true hk, Bool.true_and]
    cases i with
    | real i => exact congrArg _ (Nat.zero_add k).symm
    | lane offset width i =>
      obtain ⟨hpos, hle⟩ := valid_lane_le h
      simp only [get, RegIndex.slot, RegIndex.offset]
      rw [testBit_and, testBit_widthMask (by omega), decide_eq_true (p := k < width) hk,
        Bool.and_true]
      split_ifs with hoff
      · rw [testBit_shiftRight _ (by omega)]
      · rw [not_not.mp hoff, Nat.zero_add]
  · rw [decide_eq_false hk, Bool.false_and]
    cases i with
    | real i => exact testBit_vals_of_le i (not_lt.mp hk)
    | lane offset width i =>
      obtain ⟨hpos, hle⟩ := valid_lane_le h
      simp only [get]
      rw [testBit_and, testBit_widthMask (by omega), decide_eq_false (p := k < width) hk,
        Bool.and_false]

theorem testBit_update_self (i : Slot) (k : ℕ) : ((r.update i value).vals i).toNat.testBit k =
    (decide (k < if r.is64bit then 64 else 32) && value.toNat.testBit k) := by
  rw [update_vals_self, testBit_and, testBit_realMask, Bool.and_comm]

/-- **The value of a register**: its bits of the slot. -/
theorem toNat_get (h : i.Valid r.is64bit) : (r.get i).toNat =
    (r.vals i.slot).toNat / 2 ^ i.offset % 2 ^ i.width r.is64bit := by
  refine Nat.eq_of_testBit_eq fun k => ?_
  rw [testBit_get h, Nat.testBit_mod_two_pow, Nat.testBit_div_two_pow, Nat.add_comm]

/-- **The bits of a slot** after a write. -/
theorem testBit_set (h : i.Valid r.is64bit) (k : ℕ) :
    ((r.set i value).vals i.slot).toNat.testBit k =
      if i.offset ≤ k ∧ k < i.offset + i.written r.is64bit then value.toNat.testBit (k - i.offset)
      else (r.vals i.slot).toNat.testBit k := by
  cases i with
  | real i =>
    have hwritten : RegIndex.written r.is64bit (.real i) = if r.is64bit then 64 else 32 := by
      unfold RegIndex.written RegIndex.width
      cases r.is64bit <;> rfl
    rw [hwritten]
    show ((r.update i value).vals i).toNat.testBit k =
      if 0 ≤ k ∧ k < 0 + (if r.is64bit then 64 else 32) then value.toNat.testBit (k - 0)
      else (r.vals i).toNat.testBit k
    rw [testBit_update_self, Nat.zero_add, Nat.sub_zero]
    by_cases hk : k < if r.is64bit then 64 else 32
    · have hin : 0 ≤ k ∧ k < if r.is64bit then 64 else 32 := ⟨Nat.zero_le k, hk⟩
      rw [if_pos hin, decide_eq_true hk, Bool.true_and]
    · have hout : ¬ (0 ≤ k ∧ k < if r.is64bit then 64 else 32) := fun h => hk h.2
      rw [if_neg hout, decide_eq_false hk, Bool.false_and, testBit_vals_of_le i (not_lt.mp hk)]
  | lane offset width i =>
    obtain ⟨hpos, hle⟩ := valid_lane_le h
    have hvalid : offset + width ≤ if r.is64bit then 64 else 32 := h.2
    by_cases hlow : r.is64bit = true ∧ offset = 0 ∧ width = 32
    · have hwritten : RegIndex.written r.is64bit (.lane offset width i) = 64 := if_pos hlow
      rw [hwritten]
      show ((r.set (.lane offset width i) value).vals i).toNat.testBit k =
        if offset ≤ k ∧ k < offset + 64 then value.toNat.testBit (k - offset)
        else (r.vals i).toNat.testBit k
      simp only [set, if_pos hlow]
      obtain ⟨h64, rfl, rfl⟩ := hlow
      rw [testBit_update_self, h64]
      by_cases hk : k < 64
      · have hin : 0 ≤ k ∧ k < 0 + 64 := ⟨Nat.zero_le k, by omega⟩
        rw [if_pos hin, decide_eq_true (by exact hk), Bool.true_and, Nat.sub_zero]
      · have hout : ¬ (0 ≤ k ∧ k < 0 + 64) := by omega
        rw [if_neg hout, testBit_of_le _ (not_lt.mp hk), testBit_of_le _ (not_lt.mp hk),
          Bool.and_false]
    · have hwritten : RegIndex.written r.is64bit (.lane offset width i) = width := if_neg hlow
      rw [hwritten]
      show ((r.set (.lane offset width i) value).vals i).toNat.testBit k =
        if offset ≤ k ∧ k < offset + width then value.toNat.testBit (k - offset)
        else (r.vals i).toNat.testBit k
      simp only [set, if_neg hlow]
      rw [testBit_update_self]
      by_cases hk : k < if r.is64bit then 64 else 32
      · have hk64 : k < 64 := by split_ifs at hk <;> omega
        have hmask : (widthMask width <<< UInt64.ofNat offset).toNat.testBit k =
            (decide (offset ≤ k) && decide (k - offset < width)) := by
          rw [testBit_shiftLeft _ (by omega), testBit_widthMask (by omega), decide_eq_true hk64,
            Bool.true_and]
        rw [decide_eq_true hk, Bool.true_and, testBit_or, testBit_and, testBit_and, testBit_not,
          hmask, testBit_shiftLeft _ (by omega), decide_eq_true hk64, Bool.true_and, Bool.true_and]
        by_cases hin : offset ≤ k ∧ k < offset + width
        · rw [if_pos hin, decide_eq_true hin.1, decide_eq_true (by omega)]
          simp
        · rw [if_neg hin]
          by_cases hoff : offset ≤ k
          · rw [decide_eq_true hoff, decide_eq_false (p := k - offset < width) (by omega)]
            simp
          · rw [decide_eq_false hoff]
            simp
      · have hout : ¬ (offset ≤ k ∧ k < offset + width) := by omega
        rw [decide_eq_false hk, Bool.false_and, if_neg hout,
          testBit_vals_of_le i (not_lt.mp hk)]

theorem width_le_written (is64bit : Bool) (i : RegIndex) : i.width is64bit ≤ i.written is64bit := by
  unfold RegIndex.written
  split_ifs with h
  · omega
  · exact le_rfl

/-- A register has a value of its width. -/
theorem toNat_get_lt (h : i.Valid r.is64bit) : (r.get i).toNat < 2 ^ i.width r.is64bit := by
  refine Nat.lt_pow_two_of_testBit _ fun k hk => ?_
  rw [testBit_get h, decide_eq_false (not_lt.mpr hk), Bool.false_and]

/-- **A register that is written** has the value, cut to its width. -/
theorem toNat_get_set_self (h : i.Valid r.is64bit) :
    ((r.set i value).get i).toNat = value.toNat % 2 ^ i.width r.is64bit := by
  refine Nat.eq_of_testBit_eq fun k => ?_
  rw [testBit_get (by rw [set_is64bit]; exact h), set_is64bit, Nat.testBit_mod_two_pow,
    testBit_set h]
  by_cases hk : k < i.width r.is64bit
  · have hwritten := width_le_written r.is64bit i
    rw [if_pos ⟨Nat.le_add_right _ _, by omega⟩, Nat.add_sub_cancel_left]
  · rw [decide_eq_false hk, Bool.false_and, Bool.false_and]

/-- A register depends on its slot only. -/
theorem get_congr {r' : RegisterFile} (h : r.vals i.slot = r'.vals i.slot) :
    r.get i = r'.get i := by
  cases i with
  | real i => exact h
  | lane offset width i =>
    simp only [get]
    rw [show r.vals i = r'.vals i from h]

/-- A register of another slot keeps its value. -/
theorem get_set_of_ne {j : RegIndex} (h : j.slot ≠ i.slot) : (r.set i value).get j = r.get j :=
  get_congr (set_vals_of_ne h)

end RegisterFile

/-! ### The registers of instructions in the file -/

/-- The size of a register, in bytes. -/
def ZydisRegister.widthBytes : ZydisRegister → ℕ
  | .gpr64 _ | .rip => 8
  | .gpr32 _ | .eip => 4
  | .gpr16 _ | .ip => 2
  | .gpr8 _ | .gpr8High _ => 1
  | .xmm _ => 16
  | .none | .other _ => 0

variable {is64bit : Bool} {reg : ZydisRegister} {i : RegIndex}

/-- A register of an instruction is in its slot, has its size and is not the flags. -/
theorem regIndexFromZydis_spec (h : regIndexFromZydis is64bit reg = some i) :
    i.Valid is64bit ∧ i.width is64bit = 8 * reg.widthBytes ∧
      i.slot.val < if is64bit then 17 else 9 := by
  cases is64bit with
  | true =>
    cases reg with
    | gpr64 n =>
      obtain rfl := Option.some.inj h
      exact ⟨RegIndex.valid_real _ _, rfl, show n.val < 17 by omega⟩
    | gpr32 n | gpr16 n | gpr8 n =>
      obtain rfl := Option.some.inj h
      exact ⟨RegIndex.valid_lane _ _ (by decide) (by decide), rfl, show n.val < 17 by omega⟩
    | gpr8High n =>
      obtain rfl := Option.some.inj h
      exact ⟨RegIndex.valid_lane _ _ (by decide) (by decide), rfl, show n.val < 17 by omega⟩
    | rip | eip =>
      obtain rfl := Option.some.inj h
      exact ⟨by decide, rfl, by decide⟩
    | none | ip | xmm n | other n => exact absurd h nofun
  | false =>
    cases reg with
    | gpr32 n =>
      obtain ⟨hn, rfl⟩ : n < 8 ∧ _ = i := by simpa [regIndexFromZydis] using h
      exact ⟨RegIndex.valid_real _ _, rfl, show n.val < 9 by omega⟩
    | gpr16 n =>
      obtain ⟨hn, rfl⟩ : n < 8 ∧ _ = i := by simpa [regIndexFromZydis] using h
      exact ⟨RegIndex.valid_lane _ _ (by decide) (by decide), rfl, show n.val < 9 by omega⟩
    | gpr8 n =>
      obtain ⟨hn, rfl⟩ : n < 4 ∧ _ = i := by simpa [regIndexFromZydis] using h
      exact ⟨RegIndex.valid_lane _ _ (by decide) (by decide), rfl, show n.val < 9 by omega⟩
    | gpr8High n =>
      obtain rfl := Option.some.inj h
      exact ⟨RegIndex.valid_lane _ _ (by decide) (by decide), rfl, show n.val < 9 by omega⟩
    | eip =>
      obtain rfl := Option.some.inj h
      exact ⟨by decide, rfl, by decide⟩
    | gpr64 n | none | rip | ip | xmm n | other n => exact absurd h nofun

end Papa.Emu
