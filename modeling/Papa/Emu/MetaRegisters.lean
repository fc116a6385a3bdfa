import Papa.Emu.Frames
import Papa.Emu.RunFunction

/-!
# Lanes of registers

A register of the file is named by a number: a slot, or a slot with the offset and the width of a
lane in the high half. Calls read and write registers by their numbers, set flags, and save and
restore the file. Every call keeps the laws of lanes, with one exception: in a 64-bit file a write
to the low 32 bits of a slot goes to the whole slot, and the value is not cut to 32 bits first. A
larger value leaves its high half in the slot, where the law has zero.

## Main definitions

* `makeMetaReg`, `RegIndex.encode`: the numbers of registers.
* `RegisterFile.getRegister`, `RegisterFile.setRegister`: reading and writing by number.
* `RegisterRuns.Op`, `RegisterRuns.History`: sequences of calls.
* `RegisterRuns.Obeys`, `RegisterRuns.Narrow`: the laws of one call, and what they need.

## Main results

* `RegisterFile.getRegister_encode`, `RegisterFile.setRegister_encode`: numbers are decoded.
* `RegisterRuns.setLaws_iff`: the laws of a write.
* `RegisterRuns.obeys_iff`: the laws of sequences of calls.
-/

namespace Papa.Emu

/-! ### The numbers of registers -/

/-- `make_meta_reg`. -/
def makeMetaReg (offset widthBits realIndex : UInt32) : UInt32 :=
  (offset <<< 24) ||| (widthBits <<< 16) ||| realIndex

/-- The number of a register. -/
def RegIndex.encode : RegIndex → UInt32
  | .real slot => UInt32.ofNat slot
  | .lane offset width slot =>
    makeMetaReg (UInt32.ofNat offset) (UInt32.ofNat width) (UInt32.ofNat slot)

/-- The high half of the number of a lane of the low 32 bits. -/
def kRMetaLow32 : UInt32 := 0x00200000

namespace RegisterFile

/-- `get_register`. -/
def getRegister (r : RegisterFile) (index : UInt32) : UInt64 :=
  let ridx := index &&& 0xFFFF
  if h : ridx.toNat < 18 then
    let value := r.vals ⟨ridx.toNat, h⟩
    if ridx ≠ index then
      let offset := (index >>> 24) &&& 0xFF
      let width := (index >>> 16) &&& 0xFF
      (if offset ≠ 0 then value >>> offset.toUInt64 else value) &&& widthMask width.toNat
    else value
  else 0

/-- `set_register`. -/
def setRegister (r : RegisterFile) (index : UInt32) (value : UInt64) : RegisterFile :=
  let index := if r.is64bit ∧ index &&& 0xFFFF0000 = kRMetaLow32 then index &&& 0xFFFF else index
  let ridx := index &&& 0xFFFF
  if h : ridx.toNat < 18 then
    if ridx ≠ index then
      let offset := (index >>> 24) &&& 0xFF
      let width := (index >>> 16) &&& 0xFF
      let laneMask := widthMask width.toNat <<< offset.toUInt64
      let newbits := value <<< offset.toUInt64 &&& laneMask
      r.update ⟨ridx.toNat, h⟩ (r.vals ⟨ridx.toNat, h⟩ &&& ~~~laneMask ||| newbits)
    else r.update ⟨ridx.toNat, h⟩ value
  else r

end RegisterFile

/-! ### Decoding -/

theorem toNat_and_ffff (x : UInt32) : (x &&& 0xFFFF).toNat = x.toNat % 2 ^ 16 := by
  rw [UInt32.toNat_and]
  exact Nat.and_two_pow_sub_one_eq_mod x.toNat 16

theorem toNat_and_ff (x : UInt32) : (x &&& 0xFF).toNat = x.toNat % 2 ^ 8 := by
  rw [UInt32.toNat_and]
  exact Nat.and_two_pow_sub_one_eq_mod x.toNat 8

theorem toNat_and_ffff0000 (x : UInt32) :
    (x &&& 0xFFFF0000).toNat = x.toNat / 2 ^ 16 * 2 ^ 16 := by
  rw [UInt32.toNat_and]
  refine Nat.eq_of_testBit_eq fun k => ?_
  have hmask : (0xFFFF0000 : UInt32).toNat = (2 ^ 16 - 1) * 2 ^ 16 := rfl
  rw [hmask, Nat.testBit_and, Nat.testBit_mul_two_pow, Nat.testBit_mul_two_pow,
    Nat.testBit_two_pow_sub_one, Nat.testBit_div_two_pow]
  by_cases hk : 16 ≤ k
  · rw [decide_eq_true hk, Bool.true_and, Bool.true_and, Nat.sub_add_cancel hk]
    by_cases hlt : k - 16 < 16
    · rw [decide_eq_true hlt, Bool.and_true]
    · have hhigh : x.toNat.testBit k = false :=
        Nat.testBit_lt_two_pow (Nat.lt_of_lt_of_le x.toNat_lt
          (Nat.pow_le_pow_right (by decide) (by omega)))
      rw [hhigh, Bool.false_and]
  · rw [decide_eq_false hk, Bool.false_and, Bool.and_false, Bool.false_and]

/-- The three parts of a number. -/
theorem toNat_makeMetaReg {offset width realIndex : ℕ} (hoffset : offset < 2 ^ 8)
    (hwidth : width < 2 ^ 8) (hreal : realIndex < 2 ^ 16) :
    (makeMetaReg (UInt32.ofNat offset) (UInt32.ofNat width) (UInt32.ofNat realIndex)).toNat =
      offset * 2 ^ 24 + width * 2 ^ 16 + realIndex := by
  have hof {n : ℕ} (hn : n < 2 ^ 32) : (UInt32.ofNat n).toNat = n := by
    rw [UInt32.toNat_ofNat', Nat.mod_eq_of_lt hn]
  have hshift {n k : ℕ} (hn : n * 2 ^ k < 2 ^ 32) (hk : k < 32) :
      (UInt32.ofNat n <<< UInt32.ofNat k).toNat = n * 2 ^ k := by
    have hlt : n < 2 ^ 32 :=
      Nat.lt_of_le_of_lt (Nat.le_mul_of_pos_right n (Nat.two_pow_pos k)) hn
    rw [UInt32.toNat_shiftLeft, hof hlt, hof (by omega), Nat.mod_eq_of_lt hk, Nat.shiftLeft_eq,
      Nat.mod_eq_of_lt hn]
  have hhigh : offset * 2 ^ 24 ||| width * 2 ^ 16 = (offset * 2 ^ 8 + width) * 2 ^ 16 := by
    have h := Nat.shiftLeft_add_eq_or_of_lt (b := width * 2 ^ 16) (i := 24) (by omega) offset
    rw [Nat.shiftLeft_eq] at h
    rw [← h]
    omega
  have hlow := Nat.shiftLeft_add_eq_or_of_lt (i := 16) hreal (offset * 2 ^ 8 + width)
  rw [Nat.shiftLeft_eq] at hlow
  unfold makeMetaReg
  rw [UInt32.toNat_or, UInt32.toNat_or, hof (by omega)]
  have hoff : (UInt32.ofNat offset <<< (24 : UInt32)).toNat = offset * 2 ^ 24 :=
    hshift (k := 24) (by omega) (by decide)
  have hwid : (UInt32.ofNat width <<< (16 : UInt32)).toNat = width * 2 ^ 16 :=
    hshift (k := 16) (by omega) (by decide)
  rw [hoff, hwid, hhigh, ← hlow]
  omega

/-- What the parts of a number tell. -/
structure Encodes (index : UInt32) (offset width : ℕ) (slot : Slot) : Prop where
  slot_eq : (index &&& 0xFFFF).toNat = slot
  offset_eq : ((index >>> 24) &&& 0xFF).toNat = offset
  width_eq : ((index >>> 16) &&& 0xFF).toNat = width
  whole_iff : index &&& 0xFFFF = index ↔ offset = 0 ∧ width = 0
  low32_iff : index &&& 0xFFFF0000 = kRMetaLow32 ↔ offset = 0 ∧ width = 32

theorem Encodes.of_toNat {index : UInt32} {offset width : ℕ} {slot : Slot}
    (hoffset : offset < 2 ^ 8) (hwidth : width < 2 ^ 8)
    (h : index.toNat = offset * 2 ^ 24 + width * 2 ^ 16 + slot) :
    Encodes index offset width slot := by
  have hslot := slot.isLt
  have hshift (k : ℕ) (hk : k < 32) : (index >>> UInt32.ofNat k).toNat = index.toNat / 2 ^ k := by
    rw [UInt32.toNat_shiftRight, UInt32.toNat_ofNat', Nat.mod_eq_of_lt (a := k) (by omega),
      Nat.mod_eq_of_lt hk, Nat.shiftRight_eq_div_pow]
  have h24 : (index >>> (24 : UInt32)).toNat = index.toNat / 2 ^ 24 := hshift 24 (by decide)
  have h16 : (index >>> (16 : UInt32)).toNat = index.toNat / 2 ^ 16 := hshift 16 (by decide)
  refine ⟨?_, ?_, ?_, ?_, ?_⟩
  · rw [toNat_and_ffff]
    omega
  · rw [toNat_and_ff, h24]
    omega
  · rw [toNat_and_ff, h16]
    omega
  · rw [← UInt32.toNat_inj, toNat_and_ffff]
    omega
  · rw [← UInt32.toNat_inj, toNat_and_ffff0000]
    show index.toNat / 2 ^ 16 * 2 ^ 16 = 32 * 2 ^ 16 ↔ _
    omega

/-- The offset and the width of a register in its number. -/
def RegIndex.code : RegIndex → ℕ × ℕ
  | .real _ => (0, 0)
  | .lane offset width _ => (offset, width)

/-- **The number of a register** has its parts. -/
theorem encodes_encode {is64bit : Bool} {i : RegIndex} (h : i.Valid is64bit) :
    Encodes i.encode i.code.1 i.code.2 i.slot := by
  cases i with
  | real slot =>
    refine .of_toNat (Nat.two_pow_pos 8) (Nat.two_pow_pos 8) ?_
    have hslot := slot.isLt
    show (UInt32.ofNat slot).toNat = 0 * 2 ^ 24 + 0 * 2 ^ 16 + slot
    rw [UInt32.toNat_ofNat', Nat.mod_eq_of_lt (by omega)]
    omega
  | lane offset width slot =>
    have hslot := slot.isLt
    have hle : offset + width ≤ if is64bit then 64 else 32 := h.2
    have hle' : offset + width ≤ 64 := by split_ifs at hle <;> omega
    exact .of_toNat (show offset < 2 ^ 8 by omega) (show width < 2 ^ 8 by omega)
      (toNat_makeMetaReg (by omega) (by omega) (by omega))

namespace RegisterFile

variable {r : RegisterFile} {i : RegIndex}

/-- **Reading by number** reads the register. -/
theorem getRegister_encode (h : i.Valid r.is64bit) : r.getRegister i.encode = r.get i := by
  have hcode := encodes_encode h
  have hslot : (i.encode &&& 0xFFFF).toNat < 18 := hcode.slot_eq ▸ i.slot.isLt
  have hfin : (⟨_, hslot⟩ : Slot) = i.slot := Fin.ext hcode.slot_eq
  simp only [getRegister, dif_pos hslot, hfin]
  cases i with
  | real slot => exact if_neg (not_not.mpr (hcode.whole_iff.mpr ⟨rfl, rfl⟩))
  | lane offset width slot =>
    have hwidth : 0 < width := h.1
    have hmeta : RegIndex.encode (.lane offset width slot) &&& 0xFFFF ≠
        RegIndex.encode (.lane offset width slot) := fun hw => by
      have := (hcode.whole_iff.mp hw).2
      exact absurd this (by show width ≠ 0; omega)
    have hoff : (RegIndex.encode (.lane offset width slot) >>> 24 &&& 0xFF).toUInt64 =
        UInt64.ofNat offset := by
      refine UInt64.toNat_inj.mp ?_
      rw [UInt32.toNat_toUInt64, hcode.offset_eq, UInt64.toNat_ofNat', Nat.mod_eq_of_lt]
      · rfl
      · have hle : offset + width ≤ if r.is64bit then 64 else 32 := h.2
        split_ifs at hle <;> omega
    have hzero : RegIndex.encode (.lane offset width slot) >>> 24 &&& 0xFF ≠ 0 ↔ offset ≠ 0 := by
      rw [not_iff_not, ← UInt32.toNat_inj, hcode.offset_eq]
      exact Iff.rfl
    rw [if_pos hmeta, hcode.width_eq, hoff]
    simp only [hzero]
    rfl

/-- **Writing by number** writes the register. -/
theorem setRegister_encode (h : i.Valid r.is64bit) (value : UInt64) :
    r.setRegister i.encode value = r.set i value := by
  have hcode := encodes_encode h
  cases i with
  | real slot =>
    have hlow : ¬(r.is64bit = true ∧ RegIndex.encode (.real slot) &&& 0xFFFF0000 = kRMetaLow32) :=
      fun hl => absurd (hcode.low32_iff.mp hl.2).2 (show (0 : ℕ) ≠ 32 by decide)
    have hslot : (RegIndex.encode (.real slot) &&& 0xFFFF).toNat < 18 :=
      hcode.slot_eq ▸ slot.isLt
    have hfin : (⟨_, hslot⟩ : Slot) = slot := Fin.ext hcode.slot_eq
    simp only [setRegister, if_neg hlow, dif_pos hslot, hfin]
    exact if_neg (not_not.mpr (hcode.whole_iff.mpr ⟨rfl, rfl⟩))
  | lane offset width slot =>
    have hwidth : 0 < width := h.1
    have hle : offset + width ≤ if r.is64bit then 64 else 32 := h.2
    have hoff64 : offset < 2 ^ 64 := by split_ifs at hle <;> omega
    have hslot : (RegIndex.encode (.lane offset width slot) &&& 0xFFFF).toNat < 18 :=
      hcode.slot_eq ▸ slot.isLt
    by_cases hlow : r.is64bit = true ∧ offset = 0 ∧ width = 32
    · -- the number of the slot itself is written in place of the number of the lane
      have hlow' : r.is64bit = true ∧
          RegIndex.encode (.lane offset width slot) &&& 0xFFFF0000 = kRMetaLow32 :=
        ⟨hlow.1, hcode.low32_iff.mpr hlow.2⟩
      have hidem : RegIndex.encode (.lane offset width slot) &&& 0xFFFF &&& 0xFFFF =
          RegIndex.encode (.lane offset width slot) &&& 0xFFFF := by
        rw [UInt32.and_assoc, UInt32.and_self]
      have hfin : (⟨_, hslot⟩ : Slot) = slot := Fin.ext hcode.slot_eq
      simp only [setRegister, if_pos hlow', hidem, dif_pos hslot, hfin]
      rw [if_neg (not_not.mpr rfl), set, if_pos hlow]
    · have hlow' : ¬(r.is64bit = true ∧
          RegIndex.encode (.lane offset width slot) &&& 0xFFFF0000 = kRMetaLow32) :=
        fun hl => hlow ⟨hl.1, hcode.low32_iff.mp hl.2⟩
      have hfin : (⟨_, hslot⟩ : Slot) = slot := Fin.ext hcode.slot_eq
      have hmeta : RegIndex.encode (.lane offset width slot) &&& 0xFFFF ≠
          RegIndex.encode (.lane offset width slot) := fun hw => by
        have := (hcode.whole_iff.mp hw).2
        exact absurd this (by show width ≠ 0; omega)
      have hoff : (RegIndex.encode (.lane offset width slot) >>> 24 &&& 0xFF).toUInt64 =
          UInt64.ofNat offset := by
        refine UInt64.toNat_inj.mp ?_
        rw [UInt32.toNat_toUInt64, hcode.offset_eq, UInt64.toNat_ofNat', Nat.mod_eq_of_lt hoff64]
        rfl
      simp only [setRegister, if_neg hlow', dif_pos hslot, hfin]
      rw [if_pos hmeta, hcode.width_eq, hoff, set, if_neg hlow]
      rfl

end RegisterFile

/-! ### Sequences of calls -/

namespace RegisterRuns

open Bits RegisterFile

/-- The calls that change a file. `restore` goes back to one of the snapshots taken, the first being
that of index 0. -/
inductive Op
  | setRegister (index : UInt32) (value : UInt64)
  | setFlag (which : UInt32) (state : Bool)
  | setTaint (slot : Slot) (tainted : Bool)
  | setXmm (i : Fin 16) (value : Xmm)
  | snapshot
  | restore (k : ℕ)

/-- Whether a call takes a snapshot. -/
def Op.isSnapshot : Op → Bool
  | .snapshot => true
  | _ => false

/-- A file and the snapshots taken of it. -/
structure History where
  regs : RegisterFile
  taken : List RegisterFile.Snapshot := []

/-- One call. -/
def History.step (s : History) : Op → History
  | .setRegister index value => { s with regs := s.regs.setRegister index value }
  | .setFlag which state => { s with regs := s.regs.setFlag which.toUInt64 state }
  | .setTaint slot tainted => { s with regs := s.regs.setTaint slot tainted }
  | .setXmm i value => { s with regs := s.regs.setXmm i value }
  | .snapshot => { s with taken := s.taken ++ [s.regs.snapshot] }
  | .restore k => { s with regs := (s.taken[k]?).elim s.regs s.regs.restore }

/-- Calls one after the other. -/
def History.run (s : History) (ops : List Op) : History := ops.foldl History.step s

/-- The file after some calls. -/
def after (r : RegisterFile) (ops : List Op) : RegisterFile := (History.run ⟨r, []⟩ ops).regs

/-! ### The laws -/

/-- A write clears the high half of a slot. -/
def ClearsHigh (is64bit : Bool) (i : RegIndex) : Prop :=
  is64bit = true ∧ i.offset = 0 ∧ i.width is64bit = 32

instance (is64bit : Bool) (i : RegIndex) : Decidable (ClearsHigh is64bit i) :=
  inferInstanceAs (Decidable (_ ∧ _))

/-- The laws of a write to a register: its value is read back, cut to its width, the other bits of
its slot stay, or are cleared by a write of the low 32 bits of 64, and nothing else changes. -/
structure SetLaws (r r' : RegisterFile) (i : RegIndex) (value : UInt64) : Prop where
  read : (r'.getRegister i.encode).toNat = value.toNat % 2 ^ i.width r.is64bit
  outside : ∀ k, ¬(i.offset ≤ k ∧ k < i.offset + i.width r.is64bit) →
    (r'.vals i.slot).toNat.testBit k =
      if ClearsHigh r.is64bit i then false else (r.vals i.slot).toNat.testBit k
  others : ∀ j ≠ i.slot, r'.vals j = r.vals j
  rest : r'.taint = r.taint ∧ r'.xmm = r.xmm

/-- The laws of a flag: it is read back, and the flags that share no bit with it stay. -/
structure FlagLaws (r r' : RegisterFile) (which : UInt32) (state : Bool) : Prop where
  read : which ≠ 0 → r'.getFlag which.toUInt64 = state
  kept : ∀ other : UInt32, other &&& which = 0 →
    r'.getFlag other.toUInt64 = r.getFlag other.toUInt64
  others : ∀ j ≠ r.eflagsIndex, r'.vals j = r.vals j
  rest : r'.taint = r.taint ∧ r'.xmm = r.xmm

/-- In a 32-bit file every slot is below `2 ^ 32`. -/
def Bounded (r : RegisterFile) : Prop := r.is64bit = false → ∀ j, (r.vals j).toNat < 2 ^ 32

/-- A call obeys the laws after some calls. A `restore` brings back the file as it was when the
snapshot was taken. -/
def Obeys (r : RegisterFile) (before : List Op) (op : Op) : Prop :=
  Bounded (after r (before ++ [op])) ∧
    match op with
    | .setRegister index value => ∀ i : RegIndex, i.Valid r.is64bit → index = i.encode →
        SetLaws (after r before) (after r (before ++ [op])) i value
    | .setFlag which state => FlagLaws (after r before) (after r (before ++ [op])) which state
    | .setTaint _ _ => (after r (before ++ [op])).vals = (after r before).vals
    | .setXmm _ _ => (after r (before ++ [op])).vals = (after r before).vals
    | .snapshot => after r (before ++ [op]) = after r before
    | .restore k => ∀ earlier between, before = earlier ++ .snapshot :: between →
        earlier.countP Op.isSnapshot = k → after r (before ++ [op]) = after r earlier

/-- A write to the low 32 bits of a slot of 64 has a value of 32 bits. -/
def Narrow (is64bit : Bool) : Op → Prop
  | .setRegister index value => is64bit = true →
      (∃ slot : Slot, index = RegIndex.encode (.lane 0 32 slot)) → value.toNat < 2 ^ 32
  | _ => True

variable {r : RegisterFile} {s : History}

@[simp] theorem run_nil : s.run [] = s := rfl

theorem run_append (ops ops' : List Op) : s.run (ops ++ ops') = (s.run ops).run ops' :=
  List.foldl_append ..

theorem step_is64bit (op : Op) : (s.step op).regs.is64bit = s.regs.is64bit := by
  cases op with
  | setRegister index value =>
    show (s.regs.setRegister index value).is64bit = s.regs.is64bit
    simp only [setRegister]
    split_ifs <;> rfl
  | setFlag which state => rfl
  | setTaint slot tainted => rfl
  | setXmm i value => rfl
  | snapshot => rfl
  | restore k =>
    show ((s.taken[k]?).elim s.regs s.regs.restore).is64bit = s.regs.is64bit
    cases s.taken[k]? <;> rfl

/-- The calls keep the mode. -/
theorem run_is64bit (ops : List Op) : (s.run ops).regs.is64bit = s.regs.is64bit := by
  induction ops generalizing s with
  | nil => rfl
  | cons op ops ih => exact ih.trans (step_is64bit op)

@[simp] theorem after_is64bit (ops : List Op) : (after r ops).is64bit = r.is64bit := run_is64bit ops

theorem after_concat (ops : List Op) (op : Op) :
    after r (ops ++ [op]) = ((History.run ⟨r, []⟩ ops).step op).regs := by
  rw [after, run_append]
  rfl

theorem step_taken (op : Op) : (s.step op).taken =
    s.taken ++ if op.isSnapshot then [s.regs.snapshot] else [] := by
  cases op with
  | snapshot => rfl
  | setRegister _ _ | setFlag _ _ | setTaint _ _ | setXmm _ _ | restore _ =>
    exact (List.append_nil _).symm

/-- The snapshots taken are kept. -/
theorem exists_run_taken (ops : List Op) : ∃ snaps, (s.run ops).taken = s.taken ++ snaps ∧
    snaps.length = ops.countP Op.isSnapshot := by
  induction ops generalizing s with
  | nil => exact ⟨[], (List.append_nil _).symm, rfl⟩
  | cons op ops ih =>
    obtain ⟨snaps, htaken, hlength⟩ := ih (s := s.step op)
    refine ⟨(if op.isSnapshot then [s.regs.snapshot] else []) ++ snaps, ?_, ?_⟩
    · rw [← List.append_assoc, ← step_taken]
      exact htaken
    · rw [List.length_append, hlength, List.countP_cons, Nat.add_comm]
      cases op.isSnapshot <;> rfl

/-- **A snapshot** holds the file at its time. -/
theorem getElem?_taken (earlier between : List Op) :
    (History.run ⟨r, []⟩ (earlier ++ .snapshot :: between)).taken[earlier.countP Op.isSnapshot]? =
      some (after r earlier).snapshot := by
  obtain ⟨snaps, htaken, hlength⟩ := exists_run_taken (s := ⟨r, []⟩) earlier
  have hstep : ((History.run ⟨r, []⟩ earlier).step .snapshot).taken =
      snaps ++ [(after r earlier).snapshot] := by
    rw [step_taken, htaken]
    rfl
  obtain ⟨snaps', htaken', -⟩ :=
    exists_run_taken (s := (History.run ⟨r, []⟩ earlier).step .snapshot) between
  have hrun : (History.run ⟨r, []⟩ (earlier ++ .snapshot :: between)).taken =
      snaps ++ [(after r earlier).snapshot] ++ snaps' := by
    rw [run_append, ← hstep]
    exact htaken'
  rw [hrun, ← hlength, List.append_assoc, List.getElem?_append_right (Nat.le_refl _), Nat.sub_self]
  rfl

theorem bounded (r : RegisterFile) : Bounded r := by
  intro hmode j
  refine Nat.lt_pow_two_of_testBit _ fun k hk => testBit_vals_of_le j ?_
  rw [hmode]
  exact hk

theorem setRegister_rest (index : UInt32) (value : UInt64) :
    (r.setRegister index value).taint = r.taint ∧ (r.setRegister index value).xmm = r.xmm := by
  simp only [setRegister]
  split_ifs <;> exact ⟨rfl, rfl⟩

/-- **The laws of a write** hold exactly if it is not a write of the low 32 bits of 64 with a value
that has more. -/
theorem setLaws_iff {i : RegIndex} (h : i.Valid r.is64bit) (value : UInt64) :
    SetLaws r (r.setRegister i.encode value) i value ↔
      (ClearsHigh r.is64bit i → value.toNat < 2 ^ 32) := by
  rw [setRegister_encode h]
  have hvalid : i.Valid (r.set i value).is64bit := by
    rw [set_is64bit]
    exact h
  constructor
  · intro hlaws hclears
    refine Nat.lt_pow_two_of_testBit _ fun k hk => ?_
    have hbit := hlaws.outside k (by rw [hclears.2.1, hclears.2.2]; omega)
    rw [testBit_set h, if_pos hclears] at hbit
    have hwritten : i.written r.is64bit = 64 := if_pos hclears
    rw [hwritten, hclears.2.1] at hbit
    by_cases hlt : k < 64
    · rwa [if_pos ⟨Nat.zero_le k, by omega⟩] at hbit
    · exact testBit_of_le value (not_lt.mp hlt)
  · intro hnarrow
    refine ⟨?_, fun k hk => ?_, fun j hj => set_vals_of_ne hj, ?_⟩
    · rw [getRegister_encode hvalid, toNat_get_set_self h]
    · rw [testBit_set h]
      by_cases hclears : ClearsHigh r.is64bit i
      · have hwritten : i.written r.is64bit = 64 := if_pos hclears
        rw [if_pos hclears, hwritten]
        rw [hclears.2.1, hclears.2.2] at hk
        have hhigh : 32 ≤ k := by omega
        split_ifs
        · rw [hclears.2.1]
          exact Nat.testBit_lt_two_pow (Nat.lt_of_lt_of_le (hnarrow hclears)
            (Nat.pow_le_pow_right (by decide) hhigh))
        · refine testBit_of_le _ ?_
          have hoffset := hclears.2.1
          omega
      · have hwritten : i.written r.is64bit = i.width r.is64bit := if_neg hclears
        rw [if_neg hclears, hwritten, if_neg hk]
    · rw [← setRegister_encode h]
      exact setRegister_rest _ _

theorem toUInt64_and (x y : UInt32) : (x &&& y).toUInt64 = x.toUInt64 &&& y.toUInt64 := by
  refine UInt64.toNat_inj.mp ?_
  rw [UInt32.toNat_toUInt64, UInt64.toNat_and, UInt32.toNat_and, UInt32.toNat_toUInt64,
    UInt32.toNat_toUInt64]

/-- A flag of 32 bits. -/
theorem toUInt64_and_low (x : UInt32) : x.toUInt64 &&& 0xFFFFFFFF = x.toUInt64 := by
  refine UInt64.toNat_inj.mp ?_
  rw [UInt64.toNat_and, UInt32.toNat_toUInt64]
  exact (Nat.and_two_pow_sub_one_eq_mod x.toNat 32).trans (Nat.mod_eq_of_lt x.toNat_lt)

/-- **The laws of a flag.** -/
theorem flagLaws (r : RegisterFile) (which : UInt32) (state : Bool) :
    FlagLaws r (r.setFlag which.toUInt64 state) which state := by
  refine ⟨fun hne => ?_, fun other hdisjoint => ?_, fun j hj => update_vals_of_ne hj, rfl, rfl⟩
  · refine Emulator.getFlag_setFlag_self (e := ⟨r, {}⟩) (toUInt64_and_low which) fun hzero => hne ?_
    exact UInt32.toNat_inj.mp ((UInt32.toNat_toUInt64 which).symm.trans
      (congrArg UInt64.toNat hzero))
  · refine Emulator.getFlag_setFlag_of_and_eq_zero (e := ⟨r, {}⟩) (toUInt64_and_low other) ?_
    rw [← toUInt64_and, hdisjoint]
    rfl

/-- **The laws of one call.** -/
theorem obeys_iff_narrow (before : List Op) (op : Op) :
    Obeys r before op ↔ Narrow r.is64bit op := by
  have hbounded := bounded (after r (before ++ [op]))
  have hmode : (after r before).is64bit = r.is64bit := after_is64bit before
  unfold Obeys
  rw [and_iff_right hbounded]
  cases op with
  | setRegister index value =>
    have hstep : after r (before ++ [.setRegister index value]) =
        (after r before).setRegister index value := after_concat before _
    simp only [hstep, Narrow]
    constructor
    · rintro h h64 ⟨slot, rfl⟩
      have hvalid : RegIndex.Valid r.is64bit (.lane 0 32 slot) := by
        rw [h64]
        exact ⟨Nat.succ_pos 31, (show 0 + 32 ≤ 64 by decide)⟩
      have hlaws := (setLaws_iff (hmode.symm ▸ hvalid) value).mp (h _ hvalid rfl)
      exact hlaws ⟨hmode.trans h64, rfl, rfl⟩
    · rintro h i hvalid rfl
      refine (setLaws_iff (hmode.symm ▸ hvalid) value).mpr fun hclears => ?_
      have h64 : r.is64bit = true := hmode.symm.trans hclears.1
      refine h h64 ?_
      cases i with
      | real slot =>
        have hwidth := hclears.2.2
        rw [hclears.1] at hwidth
        exact absurd hwidth (show (64 : ℕ) ≠ 32 by decide)
      | lane offset width slot =>
        obtain ⟨-, hoffset, hwidth⟩ := hclears
        obtain rfl : offset = 0 := hoffset
        obtain rfl : width = 32 := hwidth
        exact ⟨slot, rfl⟩
  | setFlag which state =>
    have hstep : after r (before ++ [.setFlag which state]) =
        (after r before).setFlag which.toUInt64 state := after_concat before _
    simp only [hstep, Narrow, iff_true]
    exact flagLaws _ which state
  | setTaint slot tainted =>
    rw [after_concat]
    exact iff_of_true rfl trivial
  | setXmm i value =>
    rw [after_concat]
    exact iff_of_true rfl trivial
  | snapshot =>
    rw [after_concat]
    exact iff_of_true rfl trivial
  | restore k =>
    refine iff_of_true ?_ trivial
    rintro earlier between rfl rfl
    have hstep : after r (earlier ++ .snapshot :: between ++
        [.restore (earlier.countP Op.isSnapshot)]) =
        ((History.run ⟨r, []⟩ (earlier ++ .snapshot :: between)).regs.restore
          (after r earlier).snapshot) := by
      rw [after_concat]
      simp only [History.step, getElem?_taken, Option.elim_some]
    rw [hstep]
    exact restore_snapshot ((run_is64bit _).trans (after_is64bit earlier).symm)

/-- **Every call of a sequence obeys the laws** exactly if all writes of 32 bits are narrow. -/
theorem obeys_iff (r : RegisterFile) (ops : List Op) :
    (∀ before op rest, ops = before ++ op :: rest → Obeys r before op) ↔
      ∀ op ∈ ops, Narrow r.is64bit op := by
  constructor
  · intro h op hop
    obtain ⟨before, rest, rfl⟩ := List.append_of_mem hop
    exact (obeys_iff_narrow before op).mp (h before op rest rfl)
  · rintro h before op rest rfl
    exact (obeys_iff_narrow before op).mpr
      (h op (List.mem_append_right _ List.mem_cons_self))

/-- A write of `2 ^ 32` to `eax` of a 64-bit file. -/
def wideWrite : Op := .setRegister (RegIndex.encode (.lane 0 32 0)) 0x100000000

/-- The write sets bit 32 of `rax`. -/
theorem not_obeys_wideWrite :
    ¬∀ before op rest, [wideWrite] = before ++ op :: rest →
      Obeys { is64bit := true } before op := by
  intro h
  have hlaws := (h [] wideWrite [] rfl).2 (.lane 0 32 0) (by decide) rfl
  have hbit := hlaws.outside 32 (by decide)
  exact absurd hbit (by decide +kernel)

end RegisterRuns

end Papa.Emu
