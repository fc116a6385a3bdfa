import Mathlib.Data.Int.ModEq
import Mathlib.Tactic.Positivity
import Mathlib.Tactic.Ring
import Papa.Emu.Carry

/-!
# The flags of a result

The zero and the sign flag describe the result of an instruction, cut to the width of its operands.
The emulator computes them from intermediate results of 64 bits. They are those of the result as
long as such a result is zero only when its low bits are. An exclusive disjunction with a negative
immediate of less than eight bytes has high bits that are not stored, and the zero flag reads them.

## Main definitions

* `Emulator.exactResult`, `Emulator.truncatedResult`: the result of an instruction.
* `Emulator.DescribesResult`: what an instruction leaves.
* `Emulator.HighBitsOnly`: an exclusive disjunction whose low bits are zero.

## Main results

* `resultFlags_iff`: when the flags describe the result.
-/

namespace Papa.Emu

open Bits Defined

/-! ### Numbers of a width -/

/-- A number of 64 bits has the low bits of an exact result. -/
def Represents (size : ℕ) (v : UInt64) (i : ℤ) : Prop := (v.toNat : ℤ) ≡ i [ZMOD 2 ^ (8 * size)]

section Represents

variable {size : ℕ} (hs : IsWidth size) {v : UInt64} {i : ℤ}

include hs

theorem represents_asU64 (i : ℤ) : Represents size (asU64 i) i := by
  have hmod := toNat_asU64_mod hs i
  rw [Int.natCast_mod, Int.natCast_pow, Nat.cast_ofNat] at hmod
  exact hmod

theorem asI64_modEq (x : UInt64) : asI64 x ≡ x.toNat [ZMOD 2 ^ (8 * size)] := by
  have hmod := represents_asU64 hs (asI64 x)
  rw [Represents, asU64_asI64] at hmod
  exact hmod.symm

theorem signed_modEq (x : UInt64) : signed x size ≡ x.toNat [ZMOD 2 ^ (8 * size)] := by
  rw [Int.ModEq, signed_emod hs, Int.natCast_mod, Int.natCast_pow, Nat.cast_ofNat]

theorem unsigned_modEq (x : UInt64) :
    ((unsigned x size).toNat : ℤ) ≡ x.toNat [ZMOD 2 ^ (8 * size)] := by
  rw [toNat_unsigned hs, Int.natCast_mod, Int.natCast_pow, Nat.cast_ofNat]
  exact Int.mod_modEq _ _

theorem add_modEq (x y : UInt64) :
    ((x + y).toNat : ℤ) ≡ x.toNat + y.toNat [ZMOD 2 ^ (8 * size)] := by
  have hdvd : (2 ^ (8 * size) : ℤ) ∣ 2 ^ 64 := by
    refine pow_dvd_pow 2 ?_
    rcases hs with rfl | rfl | rfl | rfl <;> omega
  rw [UInt64.toNat_add, Int.natCast_mod, Int.natCast_add]
  exact Int.ModEq.of_dvd hdvd (Int.mod_modEq _ _)

theorem Represents.unsigned (h : Represents size v i) :
    Represents size (Bits.unsigned v size) i := (unsigned_modEq hs v).trans h

omit hs in
/-- The low bits of a number that represents a result. -/
theorem Represents.toNat_mod (h : Represents size v i) :
    v.toNat % 2 ^ (8 * size) = (i % 2 ^ (8 * size)).toNat := by
  have hmod : ((v.toNat % 2 ^ (8 * size) : ℕ) : ℤ) = i % 2 ^ (8 * size) := by
    rw [Int.natCast_mod, Int.natCast_pow, Nat.cast_ofNat]
    exact h
  rw [← hmod]
  exact (Int.toNat_natCast _).symm

/-- The top bit of a number that represents a result. -/
theorem Represents.isSigned_iff (h : Represents size v i) :
    isSigned v size = true ↔ 2 ^ (8 * size - 1) ≤ (i % 2 ^ (8 * size)).toNat := by
  rw [isSigned, bne_iff_ne, unsigned_and_signBit hs, h.toNat_mod]

end Represents

/-! ### Shifts of numbers -/

theorem shiftLeft_modEq {size : ℕ} (hs : IsWidth size) (x : UInt64) {n : UInt64}
    (hn : n.toNat < 64) :
    ((x <<< n).toNat : ℤ) ≡ x.toNat * 2 ^ n.toNat [ZMOD 2 ^ (8 * size)] := by
  have hdvd : (2 ^ (8 * size) : ℤ) ∣ 2 ^ 64 := by
    refine pow_dvd_pow 2 ?_
    rcases hs with rfl | rfl | rfl | rfl <;> omega
  rw [UInt64.toNat_shiftLeft, Nat.mod_eq_of_lt hn, Nat.shiftLeft_eq, Int.natCast_mod,
    Int.natCast_mul, Int.natCast_pow]
  exact Int.ModEq.of_dvd hdvd (Int.mod_modEq _ _)

theorem toNat_shiftRight_of_lt (x : UInt64) {n : UInt64} (hn : n.toNat < 64) :
    (x >>> n).toNat = x.toNat / 2 ^ n.toNat := by
  rw [UInt64.toNat_shiftRight, Nat.mod_eq_of_lt hn, Nat.shiftRight_eq_div_pow]

/-- The sign bits that a shift fills in. -/
theorem toNat_signFill {size : ℕ} (hs : IsWidth size) {dst n fill : UInt64}
    (hdst : dst.toNat < 2 ^ (8 * size)) (hpos : n ≠ 0) (hn : n.toNat < 8 * size)
    (hok : Emulator.signFill dst n size = .ok fill) :
    fill.toNat = 2 ^ (8 * size - n.toNat) *
      (if 2 ^ (8 * size - 1) ≤ dst.toNat then 2 ^ n.toNat - 1 else 0) := by
  have hmsb : msb dst size = true ↔ 2 ^ (8 * size - 1) ≤ dst.toNat := by
    have hsucc : 8 * size = 8 * size - 1 + 1 := by rcases hs with rfl | rfl | rfl | rfl <;> rfl
    rw [msb, bne_iff_ne, ne_eq, ← UInt64.toNat_inj, UInt64.toNat_and, toNat_signBit hs,
      UInt64.toNat_zero, ← ne_eq, and_two_pow_ne_zero (hsucc ▸ hdst)]
  unfold Emulator.signFill at hok
  by_cases hneg : msb dst size = true
  · have hbits : 8 * size ≤ 64 := by rcases hs with rfl | rfl | rfl | rfl <;> omega
    have hcount : 0 < n.toNat := Nat.pos_of_ne_zero fun h0 => hpos (UInt64.toNat_inj.mp h0)
    have hx : (UInt64.ofNat (8 * size) - n).toNat = 8 * size - n.toNat := by
      rw [UInt64.toNat_sub, Emulator.toNat_bits hs]
      omega
    have hlt : UInt64.ofNat (8 * size) - n < 64 := by
      rw [UInt64.lt_iff_toNat_lt, hx]
      show 8 * size - n.toNat < 64
      omega
    rw [if_pos hneg] at hok
    dsimp only at hok
    rw [U64.shr, if_pos hlt, ok_bind, U64.shl, if_pos hlt] at hok
    obtain rfl := Except.ok.inj hok
    have hsplit : 2 ^ (8 * size) = 2 ^ (8 * size - n.toNat) * 2 ^ n.toNat := by
      rw [← Nat.pow_add]
      congr 1
      omega
    have hhigh : (uMax size >>> (UInt64.ofNat (8 * size) - n)).toNat = 2 ^ n.toNat - 1 := by
      rw [toNat_shiftRight_of_lt _ (by omega), hx, toNat_uMax hs, hsplit]
      have hlt' : 0 < 2 ^ (8 * size - n.toNat) * 2 ^ n.toNat := by positivity
      rw [Nat.mul_sub_div 0 _ _ hlt', Nat.zero_div]
    rw [if_pos (hmsb.mp hneg), UInt64.toNat_shiftLeft, hx, hhigh,
      Nat.mod_eq_of_lt (a := _ - _) (by omega),
      Nat.shiftLeft_eq, Nat.mul_comm]
    refine Nat.mod_eq_of_lt ?_
    calc 2 ^ (8 * size - n.toNat) * (2 ^ n.toNat - 1)
        < 2 ^ (8 * size - n.toNat) * 2 ^ n.toNat :=
          Nat.mul_lt_mul_of_pos_left (Nat.sub_one_lt (by positivity)) (by positivity)
      _ = 2 ^ (8 * size) := hsplit.symm
      _ ≤ 2 ^ 64 := Nat.pow_le_pow_right (by decide) hbits
  · rw [if_neg hneg] at hok
    obtain rfl := Except.ok.inj hok
    rw [if_neg (mt hmsb.mpr hneg)]
    rfl

/-- **An arithmetic shift** to the right divides and rounds down. -/
theorem sar_modEq {size : ℕ} (hs : IsWidth size) {dst n fill : UInt64}
    (hdst : dst.toNat < 2 ^ (8 * size)) (hpos : n ≠ 0) (hn : n.toNat < 8 * size)
    (hok : Emulator.signFill dst n size = .ok fill) :
    Represents size (dst >>> n ||| fill) (signed dst size / 2 ^ n.toNat) := by
  have hbits : 8 * size ≤ 64 := by rcases hs with rfl | rfl | rfl | rfl <;> omega
  have hsplit : 2 ^ (8 * size) = 2 ^ (8 * size - n.toNat) * 2 ^ n.toNat := by
    rw [← Nat.pow_add]
    congr 1
    omega
  have hquot : dst.toNat / 2 ^ n.toNat < 2 ^ (8 * size - n.toNat) :=
    Nat.div_lt_of_lt_mul (by rwa [Nat.mul_comm, ← hsplit])
  have hfill := toNat_signFill hs hdst hpos hn hok
  have hor : (dst >>> n ||| fill).toNat = fill.toNat + dst.toNat / 2 ^ n.toNat := by
    rw [UInt64.toNat_or, toNat_shiftRight_of_lt _ (by omega), hfill, Nat.lor_comm,
      ← Nat.two_pow_add_eq_or_of_lt hquot]
  have hsigned := signed_eq hs dst
  rw [Nat.mod_eq_of_lt hdst] at hsigned
  unfold Represents
  rw [hor, hfill, hsigned]
  by_cases hneg : 2 ^ (8 * size - 1) ≤ dst.toNat
  · rw [if_pos hneg, if_neg (not_lt.mpr hneg)]
    have hdiv : ((dst.toNat : ℤ) - 2 ^ (8 * size)) / 2 ^ n.toNat =
        (dst.toNat / 2 ^ n.toNat : ℕ) - 2 ^ (8 * size - n.toNat) := by
      have hsplit' : (2 : ℤ) ^ (8 * size) = 2 ^ (8 * size - n.toNat) * 2 ^ n.toNat := by
        exact_mod_cast hsplit
      rw [hsplit', sub_eq_add_neg, ← neg_mul, Int.add_mul_ediv_right _ _ (by positivity)]
      push_cast
      ring
    rw [hdiv]
    have hcast : ((2 ^ (8 * size - n.toNat) * (2 ^ n.toNat - 1) : ℕ) : ℤ) =
        2 ^ (8 * size) - 2 ^ (8 * size - n.toNat) := by
      rw [Nat.mul_sub_one, ← hsplit, Nat.cast_sub (Nat.pow_le_pow_right (by decide) (by omega))]
      push_cast
      rfl
    refine Int.modEq_iff_dvd.mpr ⟨-1, ?_⟩
    rw [Int.natCast_add, hcast]
    ring
  · rw [if_neg hneg, if_pos (not_le.mp hneg)]
    push_cast
    rw [mul_zero, zero_add]

/-! ### Results of instructions -/

/-- The instructions that set both flags. -/
def setsResultFlags : List Mnemonic :=
  [.sub, .sbb, .cmp, .inc, .dec, .neg, .and, .test, .or, .xor, .xadd, .shl, .shr, .sar]

/-- The shifts. -/
def shifts : List Mnemonic := [.shl, .shr, .sar]

/-- The instructions that store no result. -/
def compares : List Mnemonic := [.cmp, .test]

/-- An immediate is held zero-extended or, when it is signed, sign-extended to 64 bits. -/
def Held (imm : UInt64) (size : ℕ) : Prop :=
  imm.toNat < 2 ^ (8 * size) ∨ imm = asU64 (signed imm size)

/-- The operands of an instruction that sets both flags: a destination that is a register or in
memory, and a source. The source has the width of the destination, is a signed immediate of a lower
one, or is the count of a shift. -/
structure ResultOperands (insn : DecodedInsn) : Prop where
  count : insn.operands.length = if insn.mnem ∈ [.inc, .dec, .neg] then 1 else 2
  decoded : ∀ idx < insn.operands.length,
    ∃ z hasSib, z.Sized ∧ insn.operand idx = translateOperand z hasSib
  destination : IsWidth (insn.operand 0).widthBytes
  stored : (insn.operand 0).kind ≠ .imm ∧ (insn.operand 0).kind ≠ .pcRel ∧
    ((insn.operand 0).kind = .reg → ¬ isIpRegister (insn.operand 0).baseReg = true)
  source : insn.operands.length = 2 → IsWidth (insn.operand 1).widthBytes ∧
    (insn.operand 1).kind ≠ .pcRel ∧
    ((insn.operand 1).kind = .imm → Held (insn.operand 1).imm (insn.operand 1).widthBytes)
  narrow : insn.operands.length = 2 → insn.mnem ∉ shifts →
    (insn.operand 1).widthBytes = (insn.operand 0).widthBytes ∨
      (insn.operand 1).widthBytes < (insn.operand 0).widthBytes ∧ (insn.operand 1).kind = .imm ∧
        (insn.operand 1).imm = asU64 (signed (insn.operand 1).imm (insn.operand 1).widthBytes)
  exchanged : insn.mnem = .xadd → (insn.operand 1).kind = .reg

namespace Emulator

variable (e : Emulator) (insn : DecodedInsn)

/-- The result of an instruction as an exact number. -/
def exactResult : ℤ :=
  let dst := e.destinationValue insn
  let src := e.sourceValue insn
  let count := (e.shiftCount insn).toNat
  match insn.mnem with
  | .sub | .cmp => dst - src
  | .sbb => dst - src - e.carryIn
  | .inc => dst + 1
  | .dec => dst - 1
  | .neg => -dst
  | .and | .test => (dst &&& src : ℕ)
  | .or => (dst ||| src : ℕ)
  | .xor => (dst ^^^ src : ℕ)
  | .xadd => dst + src
  | .shl => dst * 2 ^ count
  | .shr => (dst / 2 ^ count : ℕ)
  | .sar => signed (e.getOperValue insn 0) (insn.operand 0).widthBytes / 2 ^ count
  | _ => 0

/-- The result of an instruction, cut to the width of its destination. -/
def truncatedResult : ℕ := (e.exactResult insn % 2 ^ (8 * (insn.operand 0).widthBytes)).toNat

/-- A conditional jump, set or move with a condition decides by `b` in a state. -/
structure Decides (e' : Emulator) (c : Cond) (b : Bool) : Prop where
  jump : ∀ jump, jump.mnem = .j c → (e'.TakesBranch jump ↔ b = true)
  set : ∀ set, set.mnem = .set c → (e'.setProgramCounter set.va).handle set =
    .ok { after := (e'.setProgramCounter set.va).setOperValue set 0 (if b then 1 else 0) }
  move : ∀ move, move.mnem = .cmov c → (e'.setProgramCounter move.va).handle move =
    .ok { after := if b then (e'.setProgramCounter move.va).opMov move
      else e'.setProgramCounter move.va }

/-- What a condition on the zero or the sign flag says of a number of a width. -/
def resultCondition (c : Cond) (size n : ℕ) : Bool :=
  match c with
  | .z => n == 0
  | .nz => n != 0
  | .s => 2 ^ (8 * size - 1) ≤ n
  | .ns => n < 2 ^ (8 * size - 1)
  | _ => false

/-- The state in which an instruction computes the address of its destination. An exchange has
written its source before. -/
def addressing : Emulator :=
  if insn.mnem = .xadd then e.setOperValue insn 1 (e.getOperValue insn 0) else e

/-- The result of an instruction in `e` is what `e'` has stored, and its flags describe it. -/
structure DescribesResult (e' : Emulator) : Prop where
  zero : e'.regs.getFlag kEflagsZf = true ↔ e.truncatedResult insn = 0
  sign : e'.regs.getFlag kEflagsSf = true ↔
    2 ^ (8 * (insn.operand 0).widthBytes - 1) ≤ e.truncatedResult insn
  register : insn.mnem ∉ compares → (insn.operand 0).kind = .reg →
    ∀ i, regIndexFromZydis e.is64bit (insn.operand 0).baseReg = some i →
      (e'.regs.get i).toNat = e.truncatedResult insn
  memory : insn.mnem ∉ compares → (insn.operand 0).kind ≠ .reg → (insn.operand 0).kind ≠ .unknown →
    e'.mem = e.mem.writeValue ((e.addressing insn).getOperAddr insn 0)
      (UInt64.ofNat (e.truncatedResult insn)) (insn.operand 0).widthBytes
  decides : ∀ c ∈ [.z, .nz, .s, .ns],
    e'.Decides c (resultCondition c (insn.operand 0).widthBytes (e.truncatedResult insn))

/-- An exclusive disjunction has the low bits zero and others not: the immediate is held with more
bits than its width. -/
def HighBitsOnly : Prop :=
  insn.mnem = .xor ∧ 2 ^ (8 * (insn.operand 0).widthBytes) ≤ (e.getOperValue insn 1).toNat ∧
    (e.getOperValue insn 1).toNat % 2 ^ (8 * (insn.operand 0).widthBytes) = e.destinationValue insn

variable {e insn}

/-! ### What is stored -/

theorem addressing_of_ne (h : insn.mnem ≠ .xadd) : e.addressing insn = e := if_neg h

/-- The flags are no register of an operand. -/
theorem slot_ne_eflagsIndex {reg : ZydisRegister} {i : RegIndex}
    (hi : regIndexFromZydis e.is64bit reg = some i) : i.slot ≠ e.regs.eflagsIndex := by
  intro heq
  obtain ⟨-, -, hlt⟩ := regIndexFromZydis_spec hi
  unfold is64bit at hlt
  rw [heq, RegisterFile.eflagsIndex] at hlt
  split_ifs at hlt <;> exact absurd hlt (by decide)

theorem registerValue_setFlags (flags : List (UInt64 × Bool)) (reg : ZydisRegister) :
    (e.setFlags flags).registerValue reg = e.registerValue reg := by
  unfold registerValue
  rw [setFlags_is64bit]
  cases hi : regIndexFromZydis e.is64bit reg with
  | none => rfl
  | some i => exact RegisterFile.get_congr (setFlags_vals_of_ne (slot_ne_eflagsIndex hi) flags)

theorem getOperAddr_setFlags (flags : List (UInt64 × Bool)) (idx : ℕ) :
    (e.setFlags flags).getOperAddr insn idx = e.getOperAddr insn idx := by
  have hmask : (e.setFlags flags).addrMask = e.addrMask := by
    unfold addrMask
    rw [setFlags_is64bit]
  unfold getOperAddr
  simp only [registerValue_setFlags, hmask]

/-- The low bits of a number are what `e'` has in the destination. -/
structure Stores (e : Emulator) (insn : DecodedInsn) (v : UInt64) (e' : Emulator) : Prop where
  mode : e'.is64bit = e.is64bit
  register : (insn.operand 0).kind = .reg →
    ∀ i, regIndexFromZydis e.is64bit (insn.operand 0).baseReg = some i →
      (e'.regs.get i).toNat = v.toNat % 2 ^ (8 * (insn.operand 0).widthBytes)
  memory : (insn.operand 0).kind ≠ .reg → (insn.operand 0).kind ≠ .unknown →
    e'.mem = e.mem.writeValue ((e.addressing insn).getOperAddr insn 0) v (insn.operand 0).widthBytes

theorem Stores.setFlags {v : UInt64} {e' : Emulator} (h : e.Stores insn v e')
    (flags : List (UInt64 × Bool)) : e.Stores insn v (e'.setFlags flags) where
  mode := (setFlags_is64bit flags).trans h.mode
  register hkind i hi := by
    rw [← h.register hkind i hi]
    rw [← h.mode] at hi
    exact congrArg _ (RegisterFile.get_congr (setFlags_vals_of_ne (slot_ne_eflagsIndex hi) flags))
  memory hkind hknown := by
    rw [setFlags_mem]
    exact h.memory hkind hknown

/-- The slot of the program counter is that of the registers with its name. -/
theorem isIpRegister_of_slot {is64bit : Bool} {reg : ZydisRegister} {i : RegIndex}
    (h : regIndexFromZydis is64bit reg = some i) (hslot : i.slot = if is64bit then 16 else 8) :
    isIpRegister reg = true := by
  cases is64bit with
  | true =>
    cases reg with
    | gpr64 n | gpr32 n | gpr16 n | gpr8 n =>
      obtain rfl := Option.some.inj h
      have hval : n.val = 16 := congrArg Fin.val hslot
      omega
    | gpr8High n =>
      obtain rfl := Option.some.inj h
      have hval : n.val = 16 := congrArg Fin.val hslot
      omega
    | rip | eip => rfl
    | none | ip | xmm n | other n => exact absurd h (Option.some_ne_none i).symm
  | false =>
    cases reg with
    | gpr32 n | gpr16 n | gpr8 n =>
      obtain ⟨hn, rfl⟩ := by simpa [regIndexFromZydis] using h
      have hval : n.val = 8 := congrArg Fin.val hslot
      omega
    | gpr8High n =>
      obtain rfl := Option.some.inj h
      have hval : n.val = 8 := congrArg Fin.val hslot
      omega
    | eip => rfl
    | gpr64 n | none | rip | ip | xmm n | other n => exact absurd h (Option.some_ne_none i).symm

theorem Stores.setProgramCounter {v : UInt64} {e' : Emulator} (h : e.Stores insn v e')
    (hip : (insn.operand 0).kind = .reg → ¬ isIpRegister (insn.operand 0).baseReg = true)
    (va : UInt64) : e.Stores insn v (e'.setProgramCounter va) where
  mode := h.mode
  register hkind i hi := by
    rw [← h.register hkind i hi]
    refine congrArg _ (RegisterFile.get_congr (setProgramCounter_vals_of_ne fun heq => ?_))
    refine hip hkind (isIpRegister_of_slot hi (heq.trans ?_))
    unfold RegisterFile.pcIndex
    rw [show e'.regs.is64bit = e.is64bit from h.mode]
  memory := h.memory

/-- What a handler leaves: a number that has the low bits of the result, stored and described by the
flags. -/
structure Leaves (e : Emulator) (insn : DecodedInsn) (v : UInt64) (e' : Emulator) : Prop where
  represents : Represents (insn.operand 0).widthBytes v (e.exactResult insn)
  zero : e'.regs.getFlag kEflagsZf = true ↔ e.truncatedResult insn = 0
  sign : e'.regs.getFlag kEflagsSf = isSigned v (insn.operand 0).widthBytes
  stores : insn.mnem ∉ compares → e.Stores insn v e'

/-- A number that is zero when its low bits are decides whether the result is. -/
theorem truncatedResult_eq_zero_iff {v : UInt64}
    (hrep : Represents (insn.operand 0).widthBytes v (e.exactResult insn)) :
    e.truncatedResult insn = 0 ↔ v.toNat % 2 ^ (8 * (insn.operand 0).widthBytes) = 0 := by
  rw [truncatedResult, hrep.toNat_mod]

section ResultOperands

variable (h : ResultOperands insn)

include h

/-- The destination has the width of the instruction. -/
theorem dsize_eq_destination : insn.dsize = (insn.operand 0).widthBytes := by
  unfold DecodedInsn.dsize
  cases hops : insn.operands with
  | nil =>
    have hcount := h.count
    rw [hops] at hcount
    split_ifs at hcount
  | cons op ops => rfl

/-- An instruction with a source that is no shift. -/
theorem length_eq_two_of_notMem (hmnem : insn.mnem ∉ [.inc, .dec, .neg] ++ shifts) :
    insn.operands.length = 2 ∧ insn.mnem ∉ shifts := by
  rw [List.mem_append, not_or] at hmnem
  exact ⟨h.count.trans (if_neg hmnem.1), hmnem.2⟩

theorem width_of_register (hreg : (insn.operand 0).kind = .reg) :
    (insn.operand 0).widthBytes = (insn.operand 0).baseReg.widthBytes := by
  have hpos : 0 < insn.operands.length := by
    rw [h.count]
    split_ifs <;> decide
  obtain ⟨z, hasSib, hsized, hop⟩ := h.decoded 0 hpos
  exact widthBytes_of_kind_reg hsized hop hreg

theorem toNat_destination_lt :
    (e.getOperValue insn 0).toNat < 2 ^ (8 * (insn.operand 0).widthBytes) :=
  toNat_getOperValue_lt (width_of_register h) ⟨h.stored.1, h.stored.2.1⟩

theorem destinationValue_eq : e.destinationValue insn = (e.getOperValue insn 0).toNat :=
  Nat.mod_eq_of_lt (toNat_destination_lt h)

/-- What is written last to the destination is stored. -/
theorem stores_setOperValue {e₁ : Emulator} (hmode : e₁.is64bit = e.is64bit)
    (hmem : (insn.operand 0).kind ≠ .reg → e₁.mem = e.mem)
    (haddr : e₁.getOperAddr insn 0 = (e.addressing insn).getOperAddr insn 0) (v : UInt64) :
    e.Stores insn v (e₁.setOperValue insn 0 v) where
  mode := setOperValue_is64bit.trans hmode
  register hkind i hi := by
    obtain ⟨hvalid, hwidth, -⟩ := regIndexFromZydis_spec hi
    have hset : e₁.setOperValue insn 0 v = e₁.setRegister i v := by
      unfold setOperValue
      simp only [hkind, hmode, hi]
    rw [← hmode] at hvalid hwidth
    rw [hset, width_of_register h hkind, ← hwidth]
    exact RegisterFile.toNat_get_set_self hvalid
  memory hkind hknown := by
    have himm := h.stored
    rw [← haddr]
    unfold setOperValue
    cases hk : (insn.operand 0).kind with
    | reg => exact absurd hk hkind
    | imm => exact absurd hk himm.1
    | pcRel => exact absurd hk himm.2.1
    | unknown => exact absurd hk hknown
    | regMem | immMem | sib | ripRel => simp only [hk, hmem hkind]

/-- What is written to the destination after the flags is stored. -/
theorem stores_setOperValue_setFlags (hne : insn.mnem ≠ .xadd) (flags : List (UInt64 × Bool))
    (v : UInt64) : e.Stores insn v ((e.setFlags flags).setOperValue insn 0 v) :=
  stores_setOperValue h (setFlags_is64bit _) (fun _ => setFlags_mem _)
    (by rw [getOperAddr_setFlags, addressing_of_ne hne]) v

/-- An instruction with a source that is no shift. -/
theorem twoOperands (htwo : insn.operands.length = 2) (hshift : insn.mnem ∉ shifts) :
    TwoOperands insn where
  two := htwo
  decoded idx hidx := h.decoded idx (htwo ▸ hidx)
  destination := h.destination
  source := (h.source htwo).1
  le := (h.narrow htwo hshift).elim Nat.le_of_eq fun hor => Nat.le_of_lt hor.1
  exchanged hmnem := by
    have hreg := h.exchanged hmnem
    refine ⟨(h.narrow htwo hshift).resolve_right fun hor => ?_, fun idx hidx => ?_⟩
    · exact absurd (hreg.symm.trans hor.2.1) (by decide)
    · obtain rfl | rfl : idx = 0 ∨ idx = 1 := by omega
      · exact ⟨h.stored.1, h.stored.2.1⟩
      · rw [hreg]
        exact ⟨by decide, by decide⟩

omit h in
theorem sourceValue_modEq : (e.sourceValue insn : ℤ) ≡
    signed (e.getOperValue insn 1) (insn.operand 1).widthBytes
      [ZMOD 2 ^ (8 * (insn.operand 0).widthBytes)] := by
  rw [sourceValue, Int.toNat_of_nonneg (Int.emod_nonneg _ (by positivity))]
  exact Int.mod_modEq _ _

/-- The source, as it is held, has the low bits of the source value. -/
theorem source_modEq (htwo : insn.operands.length = 2) (hshift : insn.mnem ∉ shifts) :
    Represents (insn.operand 0).widthBytes (e.getOperValue insn 1) (e.sourceValue insn) := by
  refine Int.ModEq.trans ?_ sourceValue_modEq.symm
  obtain heq | ⟨-, himm, hheld⟩ := h.narrow htwo hshift
  · rw [heq]
    exact (signed_modEq h.destination _).symm
  · have hval : e.getOperValue insn 1 = (insn.operand 1).imm := by
      unfold getOperValue
      simp only [himm]
    rw [hval]
    conv_lhs => rw [hheld]
    exact represents_asU64 h.destination _

/-! ### Handlers -/

omit h in
theorem toNat_sub_emod_eq_zero_iff (a b k : ℕ) :
    (((a : ℤ) - b) % 2 ^ k).toNat = 0 ↔ a % 2 ^ k = b % 2 ^ k := by
  have hnonneg : 0 ≤ ((a : ℤ) - b) % 2 ^ k := Int.emod_nonneg _ (by positivity)
  have hcast : (a : ℤ) % 2 ^ k = b % 2 ^ k ↔ a % 2 ^ k = b % 2 ^ k := by
    rw [← Int.natCast_inj]
    push_cast
    rfl
  rw [← hcast, Int.emod_eq_emod_iff_emod_sub_eq_zero]
  omega

omit h in
/-- A difference, with or without a borrow. -/
theorem intSubBase_leaves {src res : UInt64} {e' : Emulator} {size : ℕ} (hs : IsWidth size)
    {dst : UInt64} (hok : e.intSubBase src dst size size = .ok (res, e')) :
    Represents size res (dst.toNat - src.toNat) ∧
      (e'.regs.getFlag kEflagsZf = true ↔ res.toNat % 2 ^ (8 * size) = 0) ∧
      e'.regs.getFlag kEflagsSf = isSigned res size ∧ ∃ flags, e' = e.setFlags flags := by
  unfold intSubBase at hok
  dsimp only at hok
  obtain ⟨ures, hures, hok⟩ := bind_eq_ok.mp hok
  obtain ⟨sres, hsres, hok⟩ := bind_eq_ok.mp hok
  obtain ⟨-, rfl⟩ := I64.checked_eq_ok.mp hures
  obtain ⟨-, rfl⟩ := I64.checked_eq_ok.mp hsres
  obtain ⟨rfl, rfl⟩ := Prod.mk.inj (Except.ok.inj hok)
  have hrep : Represents size (asU64 (asI64 (unsigned dst size) - asI64 (unsigned src size)))
      (dst.toNat - src.toNat) :=
    (represents_asU64 hs _).trans (((asI64_modEq hs _).trans (unsigned_modEq hs dst)).sub
      ((asI64_modEq hs _).trans (unsigned_modEq hs src)))
  refine ⟨hrep, ?_, ?_, _, rfl⟩
  · simp (disch := decide) only [setFlags_cons, setFlags_nil, getFlag_setFlag_of_and_eq_zero,
      getFlag_setFlag_self]
    rw [beq_iff_eq, sub_eq_zero, signed_eq_signed_iff hs, hrep.toNat_mod,
      toNat_sub_emod_eq_zero_iff]
  · simp (disch := decide) only [setFlags_cons, setFlags_nil, getFlag_setFlag_of_and_eq_zero,
      getFlag_setFlag_self]

omit h in
theorem isSigned_unsigned {size : ℕ} (v : UInt64) :
    isSigned (unsigned v size) size = isSigned v size := by
  have hidem : unsigned (unsigned v size) size = unsigned v size := by
    rw [unsigned, unsigned, UInt64.and_assoc, UInt64.and_self]
  unfold isSigned
  rw [hidem]

/-- `sub` and `cmp`. -/
theorem integerSubtraction_leaves (hmnem : insn.mnem = .sub ∨ insn.mnem = .cmp) {res : UInt64}
    {e' : Emulator} (hok : e.integerSubtraction insn = .ok (res, e')) :
    Represents (insn.operand 0).widthBytes res (e.exactResult insn) ∧
      (e'.regs.getFlag kEflagsZf = true ↔ e.truncatedResult insn = 0) ∧
      e'.regs.getFlag kEflagsSf = isSigned res (insn.operand 0).widthBytes ∧
      ∃ flags, e' = e.setFlags flags := by
  obtain ⟨htwo, hshift⟩ := length_eq_two_of_notMem h (by
    rcases hmnem with hm | hm <;> rw [hm] <;> decide)
  have hexact : e.exactResult insn = e.destinationValue insn - e.sourceValue insn := by
    unfold exactResult
    rcases hmnem with hm | hm <;> rw [hm]
  obtain ⟨src, hsrc, hval⟩ := extendedSource_eq (e := e) (twoOperands h htwo hshift)
  unfold integerSubtraction at hok
  rw [hsrc, ok_bind] at hok
  obtain ⟨hrep, hzero, hsign, hflags⟩ := intSubBase_leaves h.destination hok
  have hrep' : Represents (insn.operand 0).widthBytes res (e.exactResult insn) := by
    refine hrep.trans ?_
    rw [hexact, destinationValue_eq h, ← hval]
    exact (Int.ModEq.refl _).sub (unsigned_modEq h.destination src).symm
  exact ⟨hrep', hzero.trans (truncatedResult_eq_zero_iff hrep').symm, hsign, hflags⟩

theorem opSub_leaves (hmnem : insn.mnem = .sub) {e' : Emulator} (hok : e.opSub insn = .ok e') :
    ∃ v, e.Leaves insn v e' := by
  obtain ⟨⟨res, e₁⟩, hres, he'⟩ := bind_eq_ok.mp hok
  obtain rfl := Except.ok.inj he'
  obtain ⟨hrep, hzero, hsign, flags, rfl⟩ := integerSubtraction_leaves h (.inl hmnem) hres
  rw [dsize_eq_destination h]
  refine ⟨_, hrep.unsigned h.destination, ?_, ?_, fun _ =>
    stores_setOperValue_setFlags h (by rw [hmnem]; decide) flags _⟩
  · rw [getFlag_setOperValue]
    exact hzero
  · rw [getFlag_setOperValue, isSigned_unsigned]
    exact hsign

theorem opCmp_leaves (hmnem : insn.mnem = .cmp) {e' : Emulator} (hok : e.opCmp insn = .ok e') :
    ∃ v, e.Leaves insn v e' := by
  obtain ⟨⟨res, e₁⟩, hres, he'⟩ := bind_eq_ok.mp hok
  obtain rfl := Except.ok.inj he'
  obtain ⟨hrep, hzero, hsign, -, -⟩ := integerSubtraction_leaves h (.inr hmnem) hres
  exact ⟨res, hrep, hzero, hsign, fun hno => absurd (hmnem ▸ (by decide)) hno⟩

theorem opSbb_leaves (hmnem : insn.mnem = .sbb) {e' : Emulator} (hok : e.opSbb insn = .ok e') :
    ∃ v, e.Leaves insn v e' := by
  obtain ⟨htwo, hshift⟩ := length_eq_two_of_notMem h (by rw [hmnem]; decide)
  obtain ⟨src, hsrc, hval⟩ := extendedSource_eq (e := e) (twoOperands h htwo hshift)
  unfold opSbb at hok
  rw [hsrc, ok_bind, dsize_eq_destination h] at hok
  obtain ⟨⟨res, e₁⟩, hres, he'⟩ := bind_eq_ok.mp hok
  obtain rfl := Except.ok.inj he'
  obtain ⟨hrep, hzero, hsign, flags, rfl⟩ := intSubBase_leaves h.destination hres
  have hcarry : (((src + if e.regs.getFlag kEflagsCf then 1 else 0 : UInt64).toNat : ℕ) : ℤ) ≡
      e.sourceValue insn + e.carryIn [ZMOD 2 ^ (8 * (insn.operand 0).widthBytes)] := by
    refine (add_modEq h.destination _ _).trans (Int.ModEq.add ?_ ?_)
    · rw [← hval]
      exact (unsigned_modEq h.destination src).symm
    · unfold carryIn
      cases e.regs.getFlag kEflagsCf <;> rfl
  have hrep' : Represents (insn.operand 0).widthBytes res (e.exactResult insn) := by
    refine hrep.trans ?_
    unfold exactResult
    rw [hmnem, destinationValue_eq h]
    dsimp only
    rw [sub_sub]
    exact (Int.ModEq.refl _).sub hcarry
  refine ⟨res, hrep', ?_, ?_, fun _ =>
    stores_setOperValue_setFlags h (by rw [hmnem]; decide) flags _⟩
  · rw [getFlag_setOperValue]
    exact hzero.trans (truncatedResult_eq_zero_iff hrep').symm
  · rw [getFlag_setOperValue]
    exact hsign

omit h in
/-- A number less than the width's is zero when its low bits are. -/
theorem emod_eq_zero_iff {i : ℤ} {k : ℕ} (hi : -2 ^ k < i ∧ i < 2 ^ k) :
    (i % 2 ^ k).toNat = 0 ↔ i = 0 := by
  have hnonneg : 0 ≤ i % 2 ^ k := Int.emod_nonneg _ (by positivity)
  constructor
  · intro h0
    exact Int.eq_zero_of_abs_lt_dvd (Int.dvd_of_emod_eq_zero (by omega)) (abs_lt.mpr hi)
  · rintro rfl
    rw [Int.zero_emod]
    rfl

theorem opInc_leaves (hmnem : insn.mnem = .inc) {e' : Emulator} (hok : e.opInc insn = .ok e') :
    ∃ v, e.Leaves insn v e' := by
  unfold opInc at hok
  dsimp only at hok
  rw [dsize_eq_destination h] at hok
  obtain ⟨sval, hsval, hok⟩ := bind_eq_ok.mp hok
  obtain ⟨-, rfl⟩ := I64.checked_eq_ok.mp hsval
  obtain rfl := Except.ok.inj hok
  have hexact : e.exactResult insn = e.destinationValue insn + 1 := by
    unfold exactResult
    rw [hmnem]
  have hcongr : signed (e.getOperValue insn 0) (insn.operand 0).widthBytes + 1 ≡
      e.exactResult insn [ZMOD 2 ^ (8 * (insn.operand 0).widthBytes)] := by
    rw [hexact, destinationValue_eq h]
    exact (signed_modEq h.destination _).add_right 1
  refine ⟨_, (represents_asU64 h.destination _).trans hcongr, ?_, ?_, fun _ =>
    (stores_setOperValue_setFlags h (by rw [hmnem]; decide) [] _).setFlags _⟩
  · simp (disch := decide) only [setFlags_cons, setFlags_nil, getFlag_setFlag_of_and_eq_zero,
      getFlag_setFlag_self]
    have hb := signed_bounds h.destination (e.getOperValue insn 0)
    rw [beq_iff_eq, truncatedResult, ← hcongr, emod_eq_zero_iff]
    rcases h.destination with hw | hw | hw | hw <;> rw [hw] at hb ⊢ <;> norm_num at hb ⊢ <;> omega
  · simp (disch := decide) only [setFlags_cons, setFlags_nil, getFlag_setFlag_of_and_eq_zero,
      getFlag_setFlag_self]

/-- `dec` and `neg` -/
theorem opDec_leaves (hmnem : insn.mnem = .dec) {e' : Emulator} (hok : e.opDec insn = .ok e') :
    ∃ v, e.Leaves insn v e' := by
  unfold opDec at hok
  dsimp only at hok
  rw [dsize_eq_destination h] at hok
  obtain ⟨res, hres, hok⟩ := bind_eq_ok.mp hok
  obtain ⟨-, rfl⟩ := I64.checked_eq_ok.mp hres
  obtain rfl := Except.ok.inj hok
  have hexact : e.exactResult insn = e.destinationValue insn - 1 := by
    unfold exactResult
    rw [hmnem]
  have hcongr : asI64 (e.getOperValue insn 0) - 1 ≡
      e.exactResult insn [ZMOD 2 ^ (8 * (insn.operand 0).widthBytes)] := by
    rw [hexact, destinationValue_eq h]
    exact (asI64_modEq h.destination _).sub_right 1
  refine ⟨_, (represents_asU64 h.destination _).trans hcongr, ?_, ?_, fun _ =>
    (stores_setOperValue_setFlags h (by rw [hmnem]; decide) [] _).setFlags _⟩
  · simp (disch := decide) only [setFlags_cons, setFlags_nil, getFlag_setFlag_of_and_eq_zero,
      getFlag_setFlag_self]
    have hlt := toNat_destination_lt (e := e) h
    have hlt64 := (e.getOperValue insn 0).toNat_lt
    rw [beq_iff_eq, truncatedResult, hexact, destinationValue_eq h, emod_eq_zero_iff]
    · unfold asI64
      split_ifs <;> omega
    · rcases h.destination with hw | hw | hw | hw <;> rw [hw] at hlt ⊢ <;>
        norm_num at hlt ⊢ <;> omega
  · simp (disch := decide) only [setFlags_cons, setFlags_nil, getFlag_setFlag_of_and_eq_zero,
      getFlag_setFlag_self]

theorem opNeg_leaves (hmnem : insn.mnem = .neg) {e' : Emulator} (hok : e.opNeg insn = .ok e') :
    ∃ v, e.Leaves insn v e' := by
  unfold opNeg at hok
  dsimp only at hok
  rw [dsize_eq_destination h] at hok
  obtain ⟨res, hres, hok⟩ := bind_eq_ok.mp hok
  obtain ⟨-, rfl⟩ := I64.checked_eq_ok.mp hres
  obtain rfl := Except.ok.inj hok
  have hexact : e.exactResult insn = -e.destinationValue insn := by
    unfold exactResult
    rw [hmnem]
  have hcongr : 0 - asI64 (e.getOperValue insn 0) ≡
      e.exactResult insn [ZMOD 2 ^ (8 * (insn.operand 0).widthBytes)] := by
    rw [hexact, destinationValue_eq h, zero_sub]
    exact (asI64_modEq h.destination _).neg
  refine ⟨_, (represents_asU64 h.destination _).trans hcongr, ?_, ?_, fun _ =>
    (stores_setOperValue_setFlags h (by rw [hmnem]; decide) [] _).setFlags _⟩
  · simp (disch := decide) only [setFlags_cons, setFlags_nil, getFlag_setFlag_of_and_eq_zero,
      getFlag_setFlag_self]
    have hlt := toNat_destination_lt (e := e) h
    have hlt64 := (e.getOperValue insn 0).toNat_lt
    rw [beq_iff_eq, truncatedResult, hexact, destinationValue_eq h, emod_eq_zero_iff]
    · unfold asI64
      split_ifs <;> omega
    · rcases h.destination with hw | hw | hw | hw <;> rw [hw] at hlt ⊢ <;>
        norm_num at hlt ⊢ <;> omega
  · simp (disch := decide) only [setFlags_cons, setFlags_nil, getFlag_setFlag_of_and_eq_zero,
      getFlag_setFlag_self]

omit h in
/-- A number of the width is zero when its low bits are. -/
theorem beq_zero_iff {v : UInt64} {k : ℕ} (hlt : v.toNat < 2 ^ k) :
    (v == 0) = true ↔ v.toNat % 2 ^ k = 0 := by
  rw [beq_iff_eq, Nat.mod_eq_of_lt hlt, ← UInt64.toNat_inj]
  rfl

omit h in
theorem represents_of_mod {size n : ℕ} {v : UInt64}
    (hmod : v.toNat % 2 ^ (8 * size) = n % 2 ^ (8 * size)) : Represents size v n := by
  unfold Represents Int.ModEq
  exact_mod_cast congrArg (Nat.cast : ℕ → ℤ) hmod

/-- `and` and `test`. -/
theorem logicalAnd_leaves (hmnem : insn.mnem = .and ∨ insn.mnem = .test) {res : UInt64}
    {e' : Emulator} (hok : e.logicalAnd insn = .ok (res, e')) :
    Represents (insn.operand 0).widthBytes res (e.exactResult insn) ∧
      (e'.regs.getFlag kEflagsZf = true ↔ e.truncatedResult insn = 0) ∧
      e'.regs.getFlag kEflagsSf = isSigned res (insn.operand 0).widthBytes ∧
      ∃ flags, e' = e.setFlags flags := by
  obtain ⟨htwo, hshift⟩ := length_eq_two_of_notMem h (by
    rcases hmnem with hm | hm <;> rw [hm] <;> decide)
  have hexact : e.exactResult insn = (e.destinationValue insn &&& e.sourceValue insn : ℕ) := by
    unfold exactResult
    rcases hmnem with hm | hm <;> rw [hm]
  have ht := twoOperands h htwo hshift
  obtain ⟨src, hsrc, hval⟩ := extendedSource_eq (e := e) ht
  unfold logicalAnd at hok
  dsimp only at hok
  rw [hsrc, ok_bind] at hok
  obtain ⟨rfl, rfl⟩ := Prod.mk.inj (Except.ok.inj hok)
  have hres : (unsigned src (insn.operand 0).widthBytes &&&
      unsigned (e.getOperValue insn 0) (insn.operand 0).widthBytes).toNat =
        e.destinationValue insn &&& e.sourceValue insn := by
    rw [UInt64.toNat_and, hval, toNat_unsigned_destination ht, Nat.land_comm]
  have hlt := Nat.lt_of_le_of_lt (Nat.and_le_left (n := e.destinationValue insn)
    (m := e.sourceValue insn)) (destinationValue_lt ht)
  have hrep : Represents (insn.operand 0).widthBytes (unsigned src (insn.operand 0).widthBytes &&&
      unsigned (e.getOperValue insn 0) (insn.operand 0).widthBytes) (e.exactResult insn) := by
    unfold Represents
    rw [hexact, hres]
  refine ⟨hrep, ?_, ?_, _, rfl⟩
  · simp (disch := decide) only [setFlags_cons, setFlags_nil, getFlag_setFlag_of_and_eq_zero,
      getFlag_setFlag_self]
    rw [truncatedResult_eq_zero_iff hrep]
    exact beq_zero_iff (hres ▸ hlt)
  · simp (disch := decide) only [setFlags_cons, setFlags_nil, getFlag_setFlag_of_and_eq_zero,
      getFlag_setFlag_self]

theorem opAnd_leaves (hmnem : insn.mnem = .and) {e' : Emulator} (hok : e.opAnd insn = .ok e') :
    ∃ v, e.Leaves insn v e' := by
  obtain ⟨⟨res, e₁⟩, hres, he'⟩ := bind_eq_ok.mp hok
  obtain rfl := Except.ok.inj he'
  obtain ⟨hrep, hzero, hsign, flags, rfl⟩ := logicalAnd_leaves h (.inl hmnem) hres
  refine ⟨res, hrep, ?_, ?_, fun _ =>
    stores_setOperValue_setFlags h (by rw [hmnem]; decide) flags _⟩
  · rw [getFlag_setOperValue]
    exact hzero
  · rw [getFlag_setOperValue]
    exact hsign

theorem opTest_leaves (hmnem : insn.mnem = .test) {e' : Emulator} (hok : e.opTest insn = .ok e') :
    ∃ v, e.Leaves insn v e' := by
  obtain ⟨⟨res, e₁⟩, hres, he'⟩ := bind_eq_ok.mp hok
  obtain rfl := Except.ok.inj he'
  obtain ⟨hrep, hzero, hsign, -, -⟩ := logicalAnd_leaves h (.inr hmnem) hres
  exact ⟨res, hrep, hzero, hsign, fun hno => absurd (hmnem ▸ (by decide)) hno⟩

omit h in
/-- A value with no bits above a width, or with those of a negative number, is zero when its low
bits are. -/
theorem eq_zero_of_held {imm : UInt64} {size : ℕ} (hs : IsWidth size) (hheld : Held imm size)
    (hzero : imm.toNat % 2 ^ (8 * size) = 0) : imm = 0 := by
  rcases hheld with hlt | hsigned
  · rw [Nat.mod_eq_of_lt hlt] at hzero
    exact UInt64.toNat_inj.mp hzero
  · have h0 : signed imm size = 0 := by
      rw [signed_eq hs, hzero, if_pos (Nat.two_pow_pos _)]
      rfl
    rw [hsigned, h0]
    rfl

/-- The source of `or`, when it has the width of the destination, is held as an immediate is. -/
theorem held_source (htwo : insn.operands.length = 2) :
    Held (e.getOperValue insn 1) (insn.operand 1).widthBytes := by
  obtain ⟨-, hrel, himm⟩ := h.source htwo
  by_cases hk : (insn.operand 1).kind = .imm
  · have hval : e.getOperValue insn 1 = (insn.operand 1).imm := by
      unfold getOperValue
      simp only [hk]
    rw [hval]
    exact himm hk
  · obtain ⟨z, hasSib, hsized, hop⟩ := h.decoded 1 (htwo ▸ by decide)
    exact .inl (toNat_getOperValue_lt (fun hreg => widthBytes_of_kind_reg hsized hop hreg)
      ⟨hk, hrel⟩)

/-- The source of `or`, in what comes after it. -/
theorem orSource_eq (htwo : insn.operands.length = 2) (hshift : insn.mnem ∉ shifts) :
    ∃ src, (∀ f : UInt64 → Defined Emulator,
        (if (insn.operand 0).widthBytes ≠ (insn.operand 1).widthBytes then
          signExtend (e.getOperValue insn 1) (insn.operand 1).widthBytes
            (insn.operand 0).widthBytes >>= f
          else pure (e.getOperValue insn 1) >>= f) = f src) ∧
      src.toNat % 2 ^ (8 * (insn.operand 0).widthBytes) = e.sourceValue insn ∧
      Held src (insn.operand 0).widthBytes := by
  have ht := twoOperands h htwo hshift
  by_cases heq : (insn.operand 0).widthBytes = (insn.operand 1).widthBytes
  · refine ⟨e.getOperValue insn 1, fun f => if_neg (not_not.mpr heq), ?_, ?_⟩
    · rw [← toNat_unsigned h.destination]
      exact toNat_unsigned_source ht heq.symm
    · rw [heq]
      exact held_source h htwo
  · refine ⟨unsigned (asU64 (signed (e.getOperValue insn 1) (insn.operand 1).widthBytes))
      (insn.operand 0).widthBytes, fun f => ?_, ?_, .inl (unsigned_lt h.destination _)⟩
    · rw [if_pos heq, signExtend_of_lt _ ht.source ht.destination
        (Nat.lt_of_le_of_ne ht.le (Ne.symm heq))]
      rfl
    · rw [← toNat_unsigned h.destination]
      exact toNat_unsigned_extended ht

theorem opOr_leaves (hmnem : insn.mnem = .or) {e' : Emulator} (hok : e.opOr insn = .ok e') :
    ∃ v, e.Leaves insn v e' := by
  obtain ⟨htwo, hshift⟩ := length_eq_two_of_notMem h (by rw [hmnem]; decide)
  have hexact : e.exactResult insn = (e.destinationValue insn ||| e.sourceValue insn : ℕ) := by
    unfold exactResult
    rw [hmnem]
  obtain ⟨src, hsrc, hval, hheld⟩ := orSource_eq (e := e) h htwo hshift
  unfold opOr at hok
  dsimp only at hok
  rw [dsize_eq_destination h, hsrc] at hok
  obtain rfl := Except.ok.inj hok
  have hmod : (e.getOperValue insn 0 ||| src).toNat % 2 ^ (8 * (insn.operand 0).widthBytes) =
      e.destinationValue insn ||| e.sourceValue insn := by
    rw [UInt64.toNat_or, Nat.or_mod_two_pow, hval]
    rfl
  have hrep : Represents (insn.operand 0).widthBytes (e.getOperValue insn 0 ||| src)
      (e.exactResult insn) := by
    rw [hexact, ← hmod]
    exact represents_of_mod (Nat.mod_mod _ _).symm
  refine ⟨_, hrep, ?_, ?_,
    fun _ => (stores_setOperValue_setFlags h (by rw [hmnem]; decide) [] _).setFlags _⟩
  · simp (disch := decide) only [setFlags_cons, setFlags_nil, getFlag_setFlag_of_and_eq_zero,
      getFlag_setFlag_self]
    rw [truncatedResult_eq_zero_iff hrep, hmod, Nat.or_eq_zero_iff, beq_iff_eq]
    constructor
    · intro h0
      rw [← Nat.or_eq_zero_iff, ← hmod, h0]
      exact Nat.zero_mod _
    · rintro ⟨hdst, hsrc0⟩
      have hdst0 : e.getOperValue insn 0 = 0 :=
        UInt64.toNat_inj.mp ((destinationValue_eq h).symm.trans hdst)
      rw [hdst0, eq_zero_of_held h.destination hheld (hval.trans hsrc0), UInt64.or_self]
  · simp (disch := decide) only [setFlags_cons, setFlags_nil, getFlag_setFlag_of_and_eq_zero,
      getFlag_setFlag_self]

theorem toNat_source_mod (htwo : insn.operands.length = 2) (hshift : insn.mnem ∉ shifts) :
    (e.getOperValue insn 1).toNat % 2 ^ (8 * (insn.operand 0).widthBytes) =
      e.sourceValue insn := by
  have hlt := sourceValue_lt (e := e) (twoOperands h htwo hshift)
  rw [(source_modEq h htwo hshift).toNat_mod, ← Nat.cast_ofNat, ← Int.natCast_pow,
    ← Int.natCast_mod, Int.toNat_natCast, Nat.mod_eq_of_lt hlt]

/-- The exclusive disjunction. Its zero flag reads all the bits. -/
theorem opXor_spec (hmnem : insn.mnem = .xor) :
    ∃ v, Represents (insn.operand 0).widthBytes v (e.exactResult insn) ∧
      ((e.opXor insn).regs.getFlag kEflagsZf = true ↔
        e.truncatedResult insn = 0 ∧ ¬ e.HighBitsOnly insn) ∧
      (e.opXor insn).regs.getFlag kEflagsSf = isSigned v (insn.operand 0).widthBytes ∧
      e.Stores insn v (e.opXor insn) := by
  obtain ⟨htwo, hshift⟩ := length_eq_two_of_notMem h (by rw [hmnem]; decide)
  have hexact : e.exactResult insn = (e.destinationValue insn ^^^ e.sourceValue insn : ℕ) := by
    unfold exactResult
    rw [hmnem]
  have hsrc := toNat_source_mod (e := e) h htwo hshift
  have hmod : (e.getOperValue insn 1 ^^^ e.getOperValue insn 0).toNat %
      2 ^ (8 * (insn.operand 0).widthBytes) = e.destinationValue insn ^^^ e.sourceValue insn := by
    rw [UInt64.toNat_xor, Nat.xor_mod_two_pow, hsrc, Nat.xor_comm]
    rfl
  have hrep : Represents (insn.operand 0).widthBytes
      (e.getOperValue insn 1 ^^^ e.getOperValue insn 0) (e.exactResult insn) := by
    rw [hexact, ← hmod]
    exact represents_of_mod (Nat.mod_mod _ _).symm
  unfold opXor
  dsimp only
  rw [dsize_eq_destination h]
  refine ⟨_, hrep, ?_, ?_, (stores_setOperValue_setFlags h (by rw [hmnem]; decide) [] _).setFlags _⟩
  · simp (disch := decide) only [setFlags_cons, setFlags_nil, getFlag_setFlag_of_and_eq_zero,
      getFlag_setFlag_self]
    have hlt := toNat_destination_lt (e := e) h
    rw [truncatedResult_eq_zero_iff hrep, hmod, Nat.xor_eq_zero_iff, beq_iff_eq, HighBitsOnly, hsrc,
      ← UInt64.toNat_inj, UInt64.toNat_xor, UInt64.toNat_zero, Nat.xor_eq_zero_iff,
      destinationValue_eq h]
    constructor
    · intro heq
      rw [← hsrc, heq, Nat.mod_eq_of_lt hlt]
      exact ⟨rfl, fun hhigh => absurd hhigh.2.1 (not_le.mpr hlt)⟩
    · rintro ⟨heq, hno⟩
      have hsmall : (e.getOperValue insn 1).toNat < 2 ^ (8 * (insn.operand 0).widthBytes) :=
        not_le.mp fun hle => hno ⟨hmnem, hle, heq.symm⟩
      rw [heq, ← hsrc, Nat.mod_eq_of_lt hsmall]
  · simp (disch := decide) only [setFlags_cons, setFlags_nil, getFlag_setFlag_of_and_eq_zero,
      getFlag_setFlag_self]

theorem opXadd_leaves (hmnem : insn.mnem = .xadd) : ∃ v, e.Leaves insn v (e.opXadd insn) := by
  obtain ⟨htwo, hshift⟩ := length_eq_two_of_notMem h (by rw [hmnem]; decide)
  have hexact : e.exactResult insn = e.destinationValue insn + e.sourceValue insn := by
    unfold exactResult
    rw [hmnem]
  have hrep : Represents (insn.operand 0).widthBytes
      (unsigned (e.getOperValue insn 0 + e.getOperValue insn 1) (insn.operand 0).widthBytes)
      (e.exactResult insn) := by
    refine Represents.unsigned h.destination ?_
    rw [hexact, destinationValue_eq h]
    exact (add_modEq h.destination _ _).trans ((source_modEq h htwo hshift).add_left _)
  -- the source is a register, so the memory is written once
  have hmem : (e.setOperValue insn 1 (e.getOperValue insn 0)).mem = e.mem := by
    have hreg := h.exchanged hmnem
    unfold setOperValue
    simp only [hreg]
    split <;> rfl
  unfold opXadd
  dsimp only
  rw [dsize_eq_destination h]
  refine ⟨_, hrep, ?_, ?_, fun _ =>
    (stores_setOperValue h setOperValue_is64bit (fun _ => hmem)
      (by rw [addressing, if_pos hmnem]) _).setFlags _⟩
  · simp (disch := decide) only [setFlags_cons, setFlags_nil, getFlag_setFlag_of_and_eq_zero,
      getFlag_setFlag_self]
    rw [truncatedResult_eq_zero_iff hrep]
    exact beq_zero_iff (unsigned_lt h.destination _)
  · simp (disch := decide) only [setFlags_cons, setFlags_nil, getFlag_setFlag_of_and_eq_zero,
      getFlag_setFlag_self]

/-- A shifted number that is written after the flags. -/
theorem shift_leaves (hshift : insn.mnem ∈ shifts) {res : UInt64} {flags : List (UInt64 × Bool)}
    (hrep : Represents (insn.operand 0).widthBytes (unsigned res (insn.operand 0).widthBytes)
      (e.exactResult insn))
    (hzero : (e.setFlags flags).regs.getFlag kEflagsZf =
      (unsigned res (insn.operand 0).widthBytes == 0))
    (hsign : (e.setFlags flags).regs.getFlag kEflagsSf =
      isSigned (unsigned res (insn.operand 0).widthBytes) (insn.operand 0).widthBytes) :
    ∃ v, e.Leaves insn v
      ((e.setFlags flags).setOperValue insn 0 (unsigned res (insn.operand 0).widthBytes)) := by
  refine ⟨_, hrep, ?_, ?_, fun _ =>
    stores_setOperValue_setFlags h (fun heq => absurd (heq ▸ hshift) (by decide)) flags _⟩
  · rw [getFlag_setOperValue, hzero, truncatedResult_eq_zero_iff hrep]
    exact beq_zero_iff (unsigned_lt h.destination _)
  · rw [getFlag_setOperValue, hsign]

theorem opShl_leaves (hmnem : insn.mnem = .shl) (hne : e.shiftCount insn ≠ 0) {e' : Emulator}
    (hok : e.opShl insn = .ok e') : ∃ v, e.Leaves insn v e' := by
  unfold opShl at hok
  dsimp only at hok
  rw [dsize_eq_destination h, if_neg hne, U64.shl, if_pos shiftCount_lt, ok_bind] at hok
  obtain ⟨last, -, hok⟩ := bind_eq_ok.mp hok
  obtain rfl := Except.ok.inj hok
  refine shift_leaves h (by rw [hmnem]; decide) (Represents.unsigned h.destination ?_) ?_ ?_
  · unfold exactResult
    rw [hmnem, destinationValue_eq h]
    exact shiftLeft_modEq h.destination _ toNat_shiftCount_lt
  · simp (disch := decide) only [setFlags_cons, setFlags_nil, getFlag_setFlag_of_and_eq_zero,
      getFlag_setFlag_self]
  · simp (disch := decide) only [setFlags_cons, setFlags_nil, getFlag_setFlag_of_and_eq_zero,
      getFlag_setFlag_self]

theorem opShr_leaves (hmnem : insn.mnem = .shr) (hne : e.shiftCount insn ≠ 0) {e' : Emulator}
    (hok : e.opShr insn = .ok e') : ∃ v, e.Leaves insn v e' := by
  unfold opShr at hok
  dsimp only at hok
  rw [dsize_eq_destination h, if_neg hne, U64.shr, if_pos shiftCount_lt, ok_bind] at hok
  obtain ⟨last, -, hok⟩ := bind_eq_ok.mp hok
  obtain rfl := Except.ok.inj hok
  refine shift_leaves h (by rw [hmnem]; decide) (Represents.unsigned h.destination ?_) ?_ ?_
  · unfold exactResult
    rw [hmnem, destinationValue_eq h, Represents, toNat_shiftRight_of_lt _ toNat_shiftCount_lt]
  · simp (disch := decide) only [setFlags_cons, setFlags_nil, getFlag_setFlag_of_and_eq_zero,
      getFlag_setFlag_self]
  · simp (disch := decide) only [setFlags_cons, setFlags_nil, getFlag_setFlag_of_and_eq_zero,
      getFlag_setFlag_self]

theorem opSar_leaves (hmnem : insn.mnem = .sar) (hne : e.shiftCount insn ≠ 0)
    (hlt : (e.shiftCount insn).toNat < 8 * (insn.operand 0).widthBytes) {e' : Emulator}
    (hok : e.opSar insn = .ok e') : ∃ v, e.Leaves insn v e' := by
  unfold opSar at hok
  dsimp only at hok
  rw [dsize_eq_destination h, if_neg hne, U64.shr, if_pos shiftCount_lt, ok_bind] at hok
  obtain ⟨fill, hfill, hok⟩ := bind_eq_ok.mp hok
  obtain ⟨last, -, hok⟩ := bind_eq_ok.mp hok
  obtain rfl := Except.ok.inj hok
  refine shift_leaves h (by rw [hmnem]; decide) (Represents.unsigned h.destination ?_) ?_ ?_
  · unfold exactResult
    rw [hmnem]
    exact sar_modEq h.destination (toNat_destination_lt h) hne hlt hfill
  · simp (disch := decide) only [setFlags_cons, setFlags_nil, getFlag_setFlag_of_and_eq_zero,
      getFlag_setFlag_self]
  · simp (disch := decide) only [setFlags_cons, setFlags_nil, getFlag_setFlag_of_and_eq_zero,
      getFlag_setFlag_self]

/-- **The flags of an instruction** that has a result describe it, except those of an exclusive
disjunction that has high bits only. -/
theorem handle_leaves (hmnem : insn.mnem ∈ setsResultFlags)
    (hcount : insn.mnem ∈ shifts → e.shiftCount insn ≠ 0 ∧
      (e.shiftCount insn).toNat < 8 * (insn.operand 0).widthBytes)
    {out : Outcome} (hok : e.handle insn = .ok out) :
    out.result = .continue ∧ out.nextPc = none ∧ ∃ v,
      Represents (insn.operand 0).widthBytes v (e.exactResult insn) ∧
      (out.after.regs.getFlag kEflagsZf = true ↔
        e.truncatedResult insn = 0 ∧ ¬ e.HighBitsOnly insn) ∧
      out.after.regs.getFlag kEflagsSf = isSigned v (insn.operand 0).widthBytes ∧
      (insn.mnem ∉ compares → e.Stores insn v out.after) := by
  have hlift {x : Defined Emulator} (hne : insn.mnem ≠ .xor)
      (hx : (do pure ({ after := ← x } : Outcome) : Defined Outcome) = .ok out)
      (hleaves : ∀ e', x = .ok e' → ∃ v, e.Leaves insn v e') :
      out.result = .continue ∧ out.nextPc = none ∧ ∃ v,
        Represents (insn.operand 0).widthBytes v (e.exactResult insn) ∧
        (out.after.regs.getFlag kEflagsZf = true ↔
          e.truncatedResult insn = 0 ∧ ¬ e.HighBitsOnly insn) ∧
        out.after.regs.getFlag kEflagsSf = isSigned v (insn.operand 0).widthBytes ∧
        (insn.mnem ∉ compares → e.Stores insn v out.after) := by
    obtain ⟨e', he', hout⟩ := bind_eq_ok.mp hx
    obtain rfl := Except.ok.inj hout
    obtain ⟨v, hv⟩ := hleaves e' he'
    have hzero : e.truncatedResult insn = 0 ↔
        e.truncatedResult insn = 0 ∧ ¬ e.HighBitsOnly insn :=
      (and_iff_left fun hhigh => hne hhigh.1).symm
    exact ⟨rfl, rfl, v, hv.represents, hv.zero.trans hzero, hv.sign, hv.stores⟩
  unfold handle at hok
  dsimp only at hok
  simp only [setsResultFlags, List.mem_cons, List.not_mem_nil, or_false] at hmnem
  rcases hmnem with hm | hm | hm | hm | hm | hm | hm | hm | hm | hm | hm | hm | hm | hm
  · rw [hm] at hok
    exact hlift (by rw [hm]; decide) hok fun e' => opSub_leaves h hm
  · rw [hm] at hok
    exact hlift (by rw [hm]; decide) hok fun e' => opSbb_leaves h hm
  · rw [hm] at hok
    exact hlift (by rw [hm]; decide) hok fun e' => opCmp_leaves h hm
  · rw [hm] at hok
    exact hlift (by rw [hm]; decide) hok fun e' => opInc_leaves h hm
  · rw [hm] at hok
    exact hlift (by rw [hm]; decide) hok fun e' => opDec_leaves h hm
  · rw [hm] at hok
    exact hlift (by rw [hm]; decide) hok fun e' => opNeg_leaves h hm
  · rw [hm] at hok
    exact hlift (by rw [hm]; decide) hok fun e' => opAnd_leaves h hm
  · rw [hm] at hok
    exact hlift (by rw [hm]; decide) hok fun e' => opTest_leaves h hm
  · rw [hm] at hok
    exact hlift (by rw [hm]; decide) hok fun e' => opOr_leaves h hm
  · rw [hm] at hok
    obtain rfl := Except.ok.inj hok
    obtain ⟨v, hrep, hzero, hsign, hstores⟩ := opXor_spec (e := e) h hm
    exact ⟨rfl, rfl, v, hrep, hzero, hsign, fun _ => hstores⟩
  · rw [hm] at hok
    refine hlift (by rw [hm]; decide) hok fun e' he' => ?_
    obtain rfl := Except.ok.inj he'
    exact opXadd_leaves h hm
  · rw [hm] at hok
    exact hlift (by rw [hm]; decide) hok fun e' => opShl_leaves h hm (hcount (hm ▸ by decide)).1
  · rw [hm] at hok
    exact hlift (by rw [hm]; decide) hok fun e' => opShr_leaves h hm (hcount (hm ▸ by decide)).1
  · rw [hm] at hok
    obtain ⟨hne, hlt⟩ := hcount (hm ▸ by decide)
    exact hlift (by rw [hm]; decide) hok fun e' => opSar_leaves h hm hne hlt

end ResultOperands

/-! ### Decisions -/

/-- The instructions with a condition read the flags. -/
theorem decides_of_conditionMet {e' : Emulator} {c : Cond} {b : Bool}
    (hmet : e'.conditionMet c = b) : e'.Decides c b := by
  have hcond (va : UInt64) : (e'.setProgramCounter va).conditionMet c = b := by
    rw [← hmet]
    simp only [conditionMet, getFlag_setProgramCounter]
  refine ⟨fun jump hjump => ?_, fun set hset => ?_, fun move hmove => ?_⟩
  · rw [takesBranch_iff hjump, hmet]
  · unfold handle
    dsimp only
    rw [hset, ← hcond set.va]
    rfl
  · unfold handle
    dsimp only
    rw [hmove, ← hcond move.va]
    rfl

/-- The conditions on the zero and the sign flag are those on the result that they describe. -/
theorem conditionMet_eq {e' : Emulator} {size n : ℕ}
    (hzero : e'.regs.getFlag kEflagsZf = true ↔ n = 0)
    (hsign : e'.regs.getFlag kEflagsSf = true ↔ 2 ^ (8 * size - 1) ≤ n) :
    ∀ c ∈ [Cond.z, .nz, .s, .ns], e'.conditionMet c = resultCondition c size n := by
  have hz : e'.regs.getFlag kEflagsZf = (n == 0) := by
    rw [Bool.eq_iff_iff, hzero, beq_iff_eq]
  have hs : e'.regs.getFlag kEflagsSf = decide (2 ^ (8 * size - 1) ≤ n) := by
    rw [Bool.eq_iff_iff, hsign, decide_eq_true_iff]
  intro c hc
  simp only [List.mem_cons, List.not_mem_nil, or_false] at hc
  rcases hc with rfl | rfl | rfl | rfl
  · exact hz
  · exact congrArg not hz
  · exact hs
  · refine (congrArg not hs).trans ?_
    rw [← decide_not]
    exact decide_eq_decide.mpr not_le

/-- The bytes of a number that are written depend on its low bits. -/
theorem bytesOfValue_congr {size : ℕ} (hs : IsWidth size) {v w : UInt64}
    (h : v.toNat % 2 ^ (8 * size) = w.toNat % 2 ^ (8 * size)) :
    bytesOfValue v size = bytesOfValue w size := by
  refine List.map_congr_left fun i hi => UInt8.toNat_inj.mp ?_
  have hlt : i < size := List.mem_range.mp hi
  have hbits : 8 * size ≤ 64 := by rcases hs with rfl | rfl | rfl | rfl <;> omega
  have hcount : (8 * UInt64.ofNat i).toNat = 8 * i := by
    rw [UInt64.toNat_mul, UInt64.toNat_ofNat']
    show 8 * (i % 2 ^ 64) % 2 ^ 64 = 8 * i
    omega
  have hbyte (x : UInt64) : (x >>> (8 * UInt64.ofNat i)).toUInt8.toNat =
      x.toNat % 2 ^ (8 * size) / 2 ^ (8 * i) % 2 ^ 8 := by
    rw [UInt64.toNat_toUInt8, toNat_shiftRight_of_lt _ (by omega), hcount]
    refine Nat.eq_of_testBit_eq fun j => ?_
    simp only [Nat.testBit_mod_two_pow, Nat.testBit_div_two_pow]
    by_cases hj : j < 8
    · rw [decide_eq_true (p := j + 8 * i < 8 * size) (by omega), Bool.true_and]
    · rw [decide_eq_false hj, Bool.false_and, Bool.false_and]
  rw [hbyte, hbyte, h]

theorem writeValue_congr (mem : SandboxMemory) (va : UInt64) {size : ℕ} (hs : IsWidth size)
    {v w : UInt64} (h : v.toNat % 2 ^ (8 * size) = w.toNat % 2 ^ (8 * size)) :
    mem.writeValue va v size = mem.writeValue va w size := by
  unfold SandboxMemory.writeValue
  rw [bytesOfValue_congr hs h]

section ResultOperands

variable (h : ResultOperands insn)

include h

theorem isWidth_of_resultOperands : ∀ op ∈ insn.operands, IsWidth op.widthBytes := by
  intro op hop
  obtain ⟨idx, hlt, rfl⟩ := List.getElem_of_mem hop
  have heq : insn.operands[idx] = insn.operand idx := by
    rw [DecodedInsn.operand, List.getD_eq_getElem _ _ hlt]
  rw [heq]
  have hcount := h.count
  obtain rfl | ⟨rfl, htwo⟩ : idx = 0 ∨ idx = 1 ∧ insn.operands.length = 2 := by
    split_ifs at hcount <;> omega
  · exact h.destination
  · exact (h.source htwo).1

/-- The low bits of an exclusive disjunction with high bits only are zero. -/
theorem truncatedResult_of_highBitsOnly (hhigh : e.HighBitsOnly insn) :
    e.truncatedResult insn = 0 := by
  obtain ⟨hmnem, -, heq⟩ := hhigh
  obtain ⟨htwo, hshift⟩ := length_eq_two_of_notMem h (by rw [hmnem]; decide)
  rw [toNat_source_mod h htwo hshift] at heq
  unfold truncatedResult exactResult
  rw [hmnem, heq]
  dsimp only
  rw [Nat.xor_self, Nat.cast_zero, Int.zero_emod]
  rfl

/-- What a handler leaves describes the result, also after the program counter is written. -/
theorem describesResult {v : UInt64} {e' : Emulator} (va : UInt64)
    (hrep : Represents (insn.operand 0).widthBytes v (e.exactResult insn))
    (hzero : e'.regs.getFlag kEflagsZf = true ↔ e.truncatedResult insn = 0)
    (hsign : e'.regs.getFlag kEflagsSf = isSigned v (insn.operand 0).widthBytes)
    (hstores : insn.mnem ∉ compares → e.Stores insn v e') :
    e.DescribesResult insn (e'.setProgramCounter va) := by
  have hmod : v.toNat % 2 ^ (8 * (insn.operand 0).widthBytes) = e.truncatedResult insn :=
    hrep.toNat_mod
  have hzero' : (e'.setProgramCounter va).regs.getFlag kEflagsZf = true ↔
      e.truncatedResult insn = 0 := by
    rw [getFlag_setProgramCounter]
    exact hzero
  have hsign' : (e'.setProgramCounter va).regs.getFlag kEflagsSf = true ↔
      2 ^ (8 * (insn.operand 0).widthBytes - 1) ≤ e.truncatedResult insn := by
    rw [getFlag_setProgramCounter, hsign]
    exact hrep.isSigned_iff h.destination
  refine ⟨hzero', hsign', fun hno hkind i hi => ?_, fun hno hkind hknown => ?_, fun c hc =>
    decides_of_conditionMet (conditionMet_eq hzero' hsign' c hc)⟩
  · rw [((hstores hno).setProgramCounter h.stored.2.2 va).register hkind i hi, hmod]
  · have hmem := (hstores hno).memory hkind hknown
    have hlt : e.truncatedResult insn < 2 ^ (8 * (insn.operand 0).widthBytes) :=
      hmod ▸ Nat.mod_lt _ (Nat.two_pow_pos _)
    have hle : 2 ^ (8 * (insn.operand 0).widthBytes) ≤ 2 ^ 64 := by
      refine Nat.pow_le_pow_right (by decide) ?_
      rcases h.destination with hw | hw | hw | hw <;> omega
    refine hmem.trans (writeValue_congr _ _ h.destination ?_)
    rw [UInt64.toNat_ofNat', Nat.mod_eq_of_lt (Nat.lt_of_lt_of_le hlt hle), hmod,
      Nat.mod_eq_of_lt hlt]

end ResultOperands

end Emulator

open Emulator

/-- **The zero and the sign flag** of an instruction whose operands are as the decoder gives them
describe its result, and the conditions on them decide by what is stored, exactly when the
instruction has a result and is no exclusive disjunction with high bits only. -/
theorem resultFlags_iff (e : Emulator) (insn : DecodedInsn) (h : ResultOperands insn)
    (hmnem : insn.mnem ∈ setsResultFlags)
    (hcount : insn.mnem ∈ shifts → (e.setProgramCounter insn.va).shiftCount insn ≠ 0 ∧
      ((e.setProgramCounter insn.va).shiftCount insn).toNat < 8 * (insn.operand 0).widthBytes) :
    (∃ e', e.executeOpcode insn = .ok (.continue, e') ∧
      (e.setProgramCounter insn.va).DescribesResult insn e') ↔
      ¬ (e.setProgramCounter insn.va).Hazard insn ∧
        ¬ (e.setProgramCounter insn.va).HighBitsOnly insn := by
  rw [← handle_hasResult_iff (isWidth_of_resultOperands h)]
  unfold executeOpcode
  constructor
  · rintro ⟨e', hok, hdescribes⟩
    obtain ⟨out, hout, hok⟩ := bind_eq_ok.mp hok
    obtain ⟨hcontinue, -, v, -, hzero, -⟩ := handle_leaves h hmnem hcount hout
    obtain ⟨-, rfl⟩ := Prod.mk.inj (Except.ok.inj hok)
    refine ⟨⟨out, hout⟩, fun hhigh => ?_⟩
    have hflag := hdescribes.zero.mpr (truncatedResult_of_highBitsOnly h hhigh)
    rw [if_pos hcontinue, getFlag_setProgramCounter] at hflag
    exact (hzero.mp hflag).2 hhigh
  · rintro ⟨⟨out, hout⟩, hno⟩
    obtain ⟨hcontinue, -, v, hrep, hzero, hsign, hstores⟩ := handle_leaves h hmnem hcount hout
    rw [hout, ok_bind, if_pos hcontinue, hcontinue]
    exact ⟨_, rfl, describesResult h _ hrep (hzero.trans (and_iff_left hno)) hsign hstores⟩

/-- `xor` of the 32-bit accumulator and a signed immediate of one byte. -/
def xorInsn (imm : UInt64) : DecodedInsn :=
  { va := 0x1000, length := 3, mnem := .xor
    operands := [translateOperand (.register 32 (.gpr32 0)) false,
      translateOperand (.immediate 8 imm false) false] }

theorem resultOperands_xorInsn {imm : UInt64} (himm : imm = asU64 (signed imm 1)) :
    ResultOperands (xorInsn imm) where
  count := rfl
  decoded idx hidx := by
    have hlt : idx < 2 := hidx
    obtain rfl | rfl : idx = 0 ∨ idx = 1 := by omega
    · exact ⟨.register 32 (.gpr32 0), false, rfl, rfl⟩
    · exact ⟨.immediate 8 imm false, false, trivial, rfl⟩
  destination := .inr (.inr (.inl rfl))
  stored := ⟨by show OperandKind.reg ≠ .imm; decide, by show OperandKind.reg ≠ .pcRel; decide,
    fun _ => by show ¬ isIpRegister (.gpr32 0) = true; decide⟩
  source _ := ⟨.inl rfl, by show OperandKind.imm ≠ .pcRel; decide, fun _ => .inr himm⟩
  narrow _ _ := .inr ⟨by show 1 < 4; decide, rfl, himm⟩
  exchanged := nofun

/-- The accumulator of 32 bits. -/
def accumulator (value : UInt32) : Emulator where
  regs :=
    { is64bit := false
      vals := fun i => if i = 0 then value.toUInt64 else 0
      masked := by
        intro i
        split_ifs
        · refine UInt64.toNat_inj.mp ?_
          rw [UInt64.toNat_and, UInt32.toNat_toUInt64]
          exact (Nat.and_two_pow_sub_one_eq_mod value.toNat 32).trans
            (Nat.mod_eq_of_lt value.toNat_lt)
        · rfl }

/-- `xor eax, 1` with 3 in `eax`. -/
theorem resultFlags_iff_xorInsn : ∃ e', (accumulator 3).executeOpcode (xorInsn 1) =
      .ok (.continue, e') ∧
    ((accumulator 3).setProgramCounter 0x1000).DescribesResult (xorInsn 1) e' :=
  (resultFlags_iff (accumulator 3) (xorInsn 1) (resultOperands_xorInsn (by decide)) (by decide)
    (fun hshift => absurd hshift (by decide))).mpr ⟨not_false, fun hhigh => absurd hhigh.2.1
      (by decide)⟩

/-- `xor eax, -1` with all bits of `eax` set stores zero and clears the zero flag. -/
theorem executeOpcode_xor_negative :
    ResultOperands (xorInsn 0xFFFFFFFFFFFFFFFF) ∧
      ((accumulator 0xFFFFFFFF).setProgramCounter 0x1000).truncatedResult
        (xorInsn 0xFFFFFFFFFFFFFFFF) = 0 ∧
      ∃ e', (accumulator 0xFFFFFFFF).executeOpcode (xorInsn 0xFFFFFFFFFFFFFFFF) =
          .ok (.continue, e') ∧
        e'.regs.getFlag kEflagsZf = false := by
  have h : ResultOperands (xorInsn 0xFFFFFFFFFFFFFFFF) := resultOperands_xorInsn (by decide)
  have hhigh : ((accumulator 0xFFFFFFFF).setProgramCounter 0x1000).HighBitsOnly
      (xorInsn 0xFFFFFFFFFFFFFFFF) := ⟨rfl, by decide, by decide⟩
  obtain ⟨-, -, hzero, -⟩ :=
    opXor_spec (e := (accumulator 0xFFFFFFFF).setProgramCounter 0x1000) h rfl
  refine ⟨h, truncatedResult_of_highBitsOnly h hhigh, _, rfl, ?_⟩
  rw [Bool.eq_false_iff]
  exact fun hflag => (hzero.mp (getFlag_setProgramCounter.symm.trans hflag)).2 hhigh

end Papa.Emu
