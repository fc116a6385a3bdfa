import Mathlib.Tactic.IntervalCases
import Papa.Viv.JumpTables

/-!
# What a dispatch does

The resolver of jump tables redoes the arithmetic of a dispatch with 64-bit numbers. This file runs
the dispatch itself: a machine executes the window with the index `k` in its register and jumps. The
base is a register, the entry is extended as the load extends it, and addresses have the width of
the machine. The instructions of the window that are no part of the dispatch do what they like,
except that they write none of its registers.

The table that is found is the one the machine uses if the arithmetic happens not to differ: no
address leaves the machine's width, an entry that is loaded with its sign is not negative, and all
entries of the size that is reported are there. One entry that is missing, out of range or negative
is enough for the report to be wrong.

## Main definitions

* `Machine`, `Effects`: registers and flags, and which instructions write them.
* `Dispatch`, `Dispatch.run`: a window that holds the dispatch, and how it runs.
* `Dispatch.Jumps`: what the run reads and where it goes.
* `Dispatch.Exact`, `Dispatch.Agrees`: a report that is right, and when it is.

## Main results

* `Dispatch.jumps_iff`: where the machine jumps.
* `Dispatch.resolve_eq_some`, `Dispatch.resolve_eq_none`: what the resolver reports.
* `Dispatch.resolve_exact_iff`: the reports that are right.
-/

namespace Papa.JumpTables

open Emu

/-! ### Values of the machine -/

/-- The bytes of an address. -/
def addressBytes (is64bit : Bool) : ℕ := if is64bit then 8 else 4

/-- The low bytes of a value. -/
def lowBytes (width : ℕ) (v : UInt64) : UInt64 := UInt64.ofNat (v.toNat % 2 ^ (8 * width))

/-- A value as an address. -/
def wrap (is64bit : Bool) (v : UInt64) : UInt64 := lowBytes (addressBytes is64bit) v

/-- A 32-bit number with its sign. -/
def signExtend32 (e : UInt32) : UInt64 :=
  if e < 0x80000000 then e.toUInt64 else e.toUInt64 + 0xFFFFFFFF00000000

@[simp] theorem toNat_lowBytes (width : ℕ) (v : UInt64) :
    (lowBytes width v).toNat = v.toNat % 2 ^ (8 * width) := by
  rw [lowBytes, UInt64.toNat_ofNat']
  exact Nat.mod_eq_of_lt (Nat.lt_of_le_of_lt (Nat.mod_le _ _) v.toNat_lt)

/-- Eight bytes are all. -/
@[simp] theorem lowBytes_eight (v : UInt64) : lowBytes 8 v = v := by
  refine UInt64.toNat_inj.mp ?_
  rw [toNat_lowBytes]
  exact Nat.mod_eq_of_lt v.toNat_lt

@[simp] theorem lowBytes_lowBytes (width : ℕ) (v : UInt64) :
    lowBytes width (lowBytes width v) = lowBytes width v := by
  refine UInt64.toNat_inj.mp ?_
  simp only [toNat_lowBytes, Nat.mod_mod]

/-- The low bytes of a sum are those of the sum of the low bytes. -/
theorem wrap_add_wrap (is64bit : Bool) (a b : UInt64) :
    wrap is64bit (wrap is64bit a + wrap is64bit b) = wrap is64bit (a + b) := by
  cases is64bit with
  | true => simp [wrap, addressBytes]
  | false =>
    refine UInt64.toNat_inj.mp ?_
    simp only [wrap, addressBytes, toNat_lowBytes, UInt64.toNat_add, Bool.false_eq_true, if_false]
    omega

/-! ### The machine -/

/-- The largest registers, and the two flags that the branches of a dispatch test. -/
structure Machine where
  regs : ZydisRegister → UInt64
  cf : Bool
  zf : Bool

/-- Which registers and flags an instruction writes. Of moves, `lea` and `add` it is known that they
write the register that is their first operand. -/
structure Effects (is64bit : Bool) where
  writes : DecodedInsn → ZydisRegister → Prop
  writesFlags : DecodedInsn → Prop
  writes_first : ∀ ins r, isMovish ins ∨ ins.mnem = .lea ∨ ins.mnem = .add →
    firstIs is64bit r ins → writes ins r

/-- What the instructions do that are no part of a dispatch: they leave alone what they do not
write. -/
structure Effects.Respects {is64bit : Bool} (E : Effects is64bit)
    (other : DecodedInsn → Machine → Machine) : Prop where
  regs : ∀ ins s r, ¬E.writes ins r → (other ins s).regs r = s.regs r
  flags : ∀ ins s, ¬E.writesFlags ins → (other ins s).cf = s.cf ∧ (other ins s).zf = s.zf

/-- An instruction that changes nothing leaves alone what it does not write. -/
theorem Effects.respects_id {is64bit : Bool} (E : Effects is64bit) : E.Respects fun _ s => s :=
  ⟨fun _ _ _ _ => rfl, fun _ _ _ => ⟨rfl, rfl⟩⟩

namespace Machine

variable (is64bit : Bool) (s : Machine)

/-- The value of a register operand. -/
def value (op : DecodedOperand) : UInt64 :=
  lowBytes op.baseReg.widthBytes (s.regs (enclosing op.baseReg is64bit))

/-- Write a register operand of at least 32 bits. One of 32 bits clears the high half. -/
def write (op : DecodedOperand) (v : UInt64) : Machine :=
  { s with
    regs := Function.update s.regs (enclosing op.baseReg is64bit)
      (lowBytes op.baseReg.widthBytes v) }

/-- The address of a memory operand with a base and an index. -/
def address (op : DecodedOperand) : UInt64 :=
  wrap is64bit (s.regs (enclosing op.baseReg is64bit) +
    s.regs (enclosing op.indexReg is64bit) * op.scale.toUInt64 + asU64 op.disp)

/-- `cmp` of a register and an immediate. -/
def compare (ins : DecodedInsn) : Machine :=
  let a := s.value is64bit (ins.operand 0)
  let n := lowBytes (ins.operand 0).baseReg.widthBytes (ins.operand 1).imm
  { s with cf := decide (a < n), zf := decide (a = n) }

/-- Whether `ja` or `jae` jumps. -/
def jumps (ins : DecodedInsn) : Bool :=
  match ins.mnem with
  | .j .nbe => !s.cf && !s.zf
  | .j .nb => !s.cf
  | _ => false

end Machine

/-- What `lea base, [rip+disp]` or `mov base, imm` writes. -/
def sourceValue (ins : DecodedInsn) : UInt64 :=
  if ins.mnem = .lea then ins.va + ins.length + asU64 (ins.operand 1).disp
  else (ins.operand 1).imm

/-- An entry as `mov` or `movsxd` extends it. -/
def extended (ins : DecodedInsn) (e : UInt32) : UInt64 :=
  if ins.mnem = .movsxd then signExtend32 e else e.toUInt64

/-! ### The dispatch -/

section Parts

variable (is64bit : Bool)

/-- A register that is part of no larger one and has the width of an address. -/
def IsFull (r : ZydisRegister) : Prop :=
  r ≠ .none ∧ enclosing r is64bit = r ∧ r.widthBytes = addressBytes is64bit

/-- `lea base, [rip+t]` or `mov base, imm`. -/
def SetsBase (base : ZydisRegister) (ins : DecodedInsn) : Prop :=
  2 ≤ ins.operands.length ∧ firstIs is64bit base ins ∧
    ((ins.operand 0).baseReg.widthBytes = 4 ∨ (ins.operand 0).baseReg.widthBytes = 8) ∧
    (ins.mnem = .lea ∧ (ins.operand 1).kind = .ripRel ∧ (ins.operand 1).baseReg = .rip ∨
      ins.mnem = .mov ∧ (ins.operand 1).kind = .imm)

/-- `cmp idx, N`, of the index or a low part of it. -/
def ComparesIndex (index : ZydisRegister) (ins : DecodedInsn) : Prop :=
  2 ≤ ins.operands.length ∧ ins.mnem = .cmp ∧ firstIs is64bit index ins ∧
    (∀ n, (ins.operand 0).baseReg ≠ .gpr8High n) ∧ (ins.operand 1).kind = .imm

/-- `ja` or `jae`. -/
def Guards (ins : DecodedInsn) : Prop :=
  (ins.mnem = .j .nbe ∨ ins.mnem = .j .nb) ∧ ins.isJump ∧ ins.isConditional

/-- `mov tgt, [base+idx*4+disp]` or `movsxd`, of 32 bits in memory. -/
def LoadsEntry (tgt base index : ZydisRegister) (ins : DecodedInsn) : Prop :=
  2 ≤ ins.operands.length ∧ (ins.mnem = .mov ∨ ins.mnem = .movsxd) ∧ firstIs is64bit tgt ins ∧
    ((ins.operand 0).baseReg.widthBytes = 4 ∨ (ins.operand 0).baseReg.widthBytes = 8) ∧
    (ins.operand 1).kind = .sib ∧ (ins.operand 1).baseReg = base ∧
    (ins.operand 1).indexReg = index ∧ (ins.operand 1).scale = 4 ∧ (ins.operand 1).widthBytes = 4

end Parts

/-- `add tgt, base`. -/
def AddsBase (tgt base : ZydisRegister) (ins : DecodedInsn) : Prop :=
  2 ≤ ins.operands.length ∧ ins.mnem = .add ∧ (ins.operand 0).kind = .reg ∧
    (ins.operand 0).baseReg = tgt ∧ (ins.operand 1).kind = .reg ∧ (ins.operand 1).baseReg = base

/-- `jmp tgt`. -/
def JumpsTo (tgt : ZydisRegister) (ins : DecodedInsn) : Prop :=
  ins.operands.length ≠ 0 ∧ ins.isJump ∧ ins.isConditional = false ∧ ins.branchTarget = none ∧
    (ins.operand 0).kind = .reg ∧ (ins.operand 0).baseReg = tgt

/-- A window that holds the dispatch, with no other writes to its registers. The base is set before
or after the index is compared. -/
structure Dispatch (is64bit : Bool) (E : Effects is64bit) (window : List DecodedInsn) where
  (base index tgt : ZydisRegister)
  (basePos cmpPos guardPos loadPos addPos : ℕ)
  (baseIns cmpIns guardIns loadIns addIns jmpIns : DecodedInsn)
  full_base : IsFull is64bit base
  full_index : IsFull is64bit index
  full_tgt : IsFull is64bit tgt
  base_ne_index : base ≠ index
  base_ne_tgt : base ≠ tgt
  base_lt : basePos < loadPos
  cmp_lt : cmpPos < guardPos
  guard_lt : guardPos < loadPos
  load_lt : loadPos < addPos
  add_lt : addPos < window.length - 1
  get_base : window[basePos]? = some baseIns
  get_cmp : window[cmpPos]? = some cmpIns
  get_guard : window[guardPos]? = some guardIns
  get_load : window[loadPos]? = some loadIns
  get_add : window[addPos]? = some addIns
  get_jmp : window[window.length - 1]? = some jmpIns
  sets : SetsBase is64bit base baseIns
  compares : ComparesIndex is64bit index cmpIns
  guards : Guards guardIns
  loads : LoadsEntry is64bit tgt base index loadIns
  adds : AddsBase tgt base addIns
  jumpsTo : JumpsTo tgt jmpIns
  /-- The other instructions write none of the registers. -/
  quiet : ∀ i < window.length, i ≠ basePos → i ≠ loadPos → i ≠ addPos → ∀ ins ∈ window[i]?,
    ¬E.writes ins base ∧ ¬E.writes ins index ∧ ¬E.writes ins tgt
  /-- The flags of the comparison reach the branch. -/
  quietFlags : ∀ i < guardPos, cmpPos < i → i ≠ basePos → ∀ ins ∈ window[i]?, ¬E.writesFlags ins

namespace Dispatch

variable {is64bit : Bool} {E : Effects is64bit} {window : List DecodedInsn}

section Run

variable (d : Dispatch is64bit E window) (readU32 : TableReader)
  (other : DecodedInsn → Machine → Machine)

/-- Execute the instruction at a place. It fails if the entry cannot be read, and if the branch
leaves the window. -/
def exec (i : ℕ) (s : Machine) : Option Machine :=
  if i = d.basePos then some (s.write is64bit (d.baseIns.operand 0) (sourceValue d.baseIns))
  else if i = d.cmpPos then some (s.compare is64bit d.cmpIns)
  else if i = d.guardPos then if s.jumps d.guardIns then none else some s
  else if i = d.loadPos then
    (readU32 (s.address is64bit (d.loadIns.operand 1))).map fun e =>
      s.write is64bit (d.loadIns.operand 0) (extended d.loadIns e)
  -- the flags of the addition reach no branch of the dispatch
  else if i = d.addPos then
    some (s.write is64bit (d.addIns.operand 0)
      (s.value is64bit (d.addIns.operand 0) + s.value is64bit (d.addIns.operand 1)))
  else
    match window[i]? with
    | none => some s
    | some ins => some (other ins s)

/-- Execute the first instructions of the window. -/
def run : ℕ → Machine → Option Machine
  | 0, s => some s
  | n + 1, s => (run n s).bind (d.exec readU32 other n)

/-- With the index `k` the table is read at the address `cell` and the jump goes to `target`,
whatever the other instructions do. -/
def Jumps (k : ℕ) (cell target : UInt64) : Prop :=
  ∀ other, E.Respects other → ∀ s : Machine, s.regs d.index = UInt64.ofNat k →
    ∃ s₁ s₂, d.run readU32 other d.loadPos s = some s₁ ∧
      s₁.address is64bit (d.loadIns.operand 1) = cell ∧
      d.run readU32 other (window.length - 1) s = some s₂ ∧
      s₂.value is64bit (d.jmpIns.operand 0) = target

/-- The number of cases: the branch is not taken for the smaller indices. -/
def count : ℕ :=
  let n := (lowBytes (d.cmpIns.operand 0).baseReg.widthBytes (d.cmpIns.operand 1).imm).toNat
  if d.guardIns.mnem = .j .nb then n else n + 1

/-- With the index `k` the machine jumps into the range. -/
def Reaches (rangeLo rangeHi : UInt64) (k : ℕ) : Prop :=
  ∃ cell target, d.Jumps readU32 k cell target ∧ rangeLo ≤ target ∧ target < rangeHi

/-- A report is right: the targets are where the machine jumps for the first indices, cut at the
first one it does not jump into the range for, and the table extends over the entries they were read
from. Nothing is reported if there is no case, or too many of them, or if the first one is cut. -/
def Exact (rangeLo rangeHi : UInt64) : Option JumpTableTargets → Prop
  | none =>
    d.count = 0 ∨ kMaxJumpTableEntries.toNat < d.count ∨ ¬d.Reaches readU32 rangeLo rangeHi 0
  | some out =>
    (∀ k t, out.targets[k]? = some t → k < d.count ∧
      d.Jumps readU32 k (out.tableVa + UInt64.ofNat k * 4) t ∧ rangeLo ≤ t ∧ t < rangeHi) ∧
    (out.targets.length < d.count → ¬d.Reaches readU32 rangeLo rangeHi out.targets.length) ∧
    out.tableSize.toNat = 4 * out.targets.length

end Run

/-! ### The run -/

section Facts

variable (d : Dispatch is64bit E window)

/-- What the base is set to, as a 64-bit number. -/
def baseVa : UInt64 := sourceValue d.baseIns

/-- What the base is set to in its register. -/
def baseReg : UInt64 := lowBytes (d.baseIns.operand 0).baseReg.widthBytes d.baseVa

/-- The displacement of the load. -/
def disp : UInt64 := asU64 (d.loadIns.operand 1).disp

/-- Where the machine reads the entry of an index. -/
def cell (k : ℕ) : UInt64 := wrap is64bit (d.baseReg + UInt64.ofNat k * 4 + d.disp)

/-- An entry in the register of the target. -/
def loaded (e : UInt32) : UInt64 :=
  lowBytes (d.loadIns.operand 0).baseReg.widthBytes (extended d.loadIns e)

/-- Where the machine jumps with an entry. -/
def target (e : UInt32) : UInt64 := wrap is64bit (d.loaded e + d.baseReg)

/-- What the index is compared with, at the width of the comparison. -/
def limit : UInt64 :=
  lowBytes (d.cmpIns.operand 0).baseReg.widthBytes (d.cmpIns.operand 1).imm

theorem count_eq :
    d.count = if d.guardIns.mnem = .j .nb then d.limit.toNat else d.limit.toNat + 1 := rfl

theorem enclosing_of_firstIs {r : ZydisRegister} {ins : DecodedInsn} (h : firstIs is64bit r ins) :
    enclosing (ins.operand 0).baseReg is64bit = r := by
  simp only [firstIs, Bool.and_eq_true, beq_iff_eq] at h
  exact h.2

theorem enclosing_base : enclosing (d.baseIns.operand 0).baseReg is64bit = d.base :=
  enclosing_of_firstIs d.sets.2.1

theorem enclosing_cmp : enclosing (d.cmpIns.operand 0).baseReg is64bit = d.index :=
  enclosing_of_firstIs d.compares.2.2.1

theorem enclosing_load : enclosing (d.loadIns.operand 0).baseReg is64bit = d.tgt :=
  enclosing_of_firstIs d.loads.2.2.1

theorem base_ne_cmp : d.basePos ≠ d.cmpPos := by
  intro heq
  have hins : d.baseIns = d.cmpIns := by
    have hget := d.get_base
    rw [heq, d.get_cmp] at hget
    exact (Option.some.inj hget).symm
  have hmnem := d.compares.2.1
  rw [← hins] at hmnem
  rcases d.sets.2.2.2 with ⟨hlea, -⟩ | ⟨hmov, -⟩
  · exact absurd (hlea.symm.trans hmnem) nofun
  · exact absurd (hmov.symm.trans hmnem) nofun

theorem base_ne_guard : d.basePos ≠ d.guardPos := by
  intro heq
  have hins : d.baseIns = d.guardIns := by
    have hget := d.get_base
    rw [heq, d.get_guard] at hget
    exact (Option.some.inj hget).symm
  have hmnem := d.guards.1
  rw [← hins] at hmnem
  rcases d.sets.2.2.2 with ⟨hlea, -⟩ | ⟨hmov, -⟩ <;> rcases hmnem with hj | hj
  · exact absurd (hlea.symm.trans hj) nofun
  · exact absurd (hlea.symm.trans hj) nofun
  · exact absurd (hmov.symm.trans hj) nofun
  · exact absurd (hmov.symm.trans hj) nofun

/-- **The branch is not taken** for the indices of the cases. -/
theorem not_jumps_iff {s : Machine} {k : ℕ}
    (hk : k < 2 ^ (8 * (d.cmpIns.operand 0).baseReg.widthBytes)) (hk64 : k < 2 ^ 64)
    (hindex : s.regs d.index = UInt64.ofNat k) :
    (s.compare is64bit d.cmpIns).jumps d.guardIns = false ↔ k < d.count := by
  have hvalue : (s.value is64bit (d.cmpIns.operand 0)).toNat = k := by
    rw [Machine.value, d.enclosing_cmp, hindex, toNat_lowBytes, UInt64.toNat_ofNat',
      Nat.mod_eq_of_lt hk64, Nat.mod_eq_of_lt hk]
  have hlt : s.value is64bit (d.cmpIns.operand 0) < d.limit ↔ k < d.limit.toNat := by
    rw [UInt64.lt_iff_toNat_lt, hvalue]
  have heq : s.value is64bit (d.cmpIns.operand 0) = d.limit ↔ k = d.limit.toNat := by
    rw [← UInt64.toNat_inj, hvalue]
  rw [count_eq]
  rcases d.guards.1 with hj | hj
  · rw [hj, if_neg (by simp)]
    simp only [Machine.jumps, Machine.compare, hj, Bool.and_eq_false_iff, Bool.not_eq_false',
      decide_eq_true_eq]
    exact (or_congr hlt heq).trans Nat.lt_succ_iff_lt_or_eq.symm
  · rw [hj, if_pos rfl]
    simp only [Machine.jumps, Machine.compare, hj, Bool.not_eq_false', decide_eq_true_eq]
    exact hlt

theorem count_le : d.count ≤ 2 ^ (8 * (d.cmpIns.operand 0).baseReg.widthBytes) ∧
    d.count ≤ 2 ^ 64 := by
  have hlimit := d.limit.toNat_lt
  have hwidth : d.limit.toNat < 2 ^ (8 * (d.cmpIns.operand 0).baseReg.widthBytes) := by
    rw [limit, toNat_lowBytes]
    exact Nat.mod_lt _ (Nat.two_pow_pos _)
  rw [count_eq]
  split_ifs <;> omega

end Facts

/-! ### The run, instruction by instruction -/

section Steps

variable (d : Dispatch is64bit E window) {readU32 : TableReader}
  {other : DecodedInsn → Machine → Machine} {s : Machine} {k n : ℕ} {e : UInt32}

/-- What holds up to the load, after some instructions. -/
structure Before (k n : ℕ) (s : Machine) : Prop where
  base : d.basePos < n → s.regs d.base = d.baseReg
  index : s.regs d.index = UInt64.ofNat k
  flags : d.cmpPos < n → n ≤ d.guardPos → s.jumps d.guardIns = false

/-- What holds after the load of an entry. -/
structure After (e : UInt32) (n : ℕ) (s : Machine) : Prop where
  base : s.regs d.base = d.baseReg
  loaded : n ≤ d.addPos → s.regs d.tgt = d.loaded e
  target : d.addPos < n → s.regs d.tgt = d.target e

theorem write_regs_self {op : DecodedOperand} {v : UInt64} {r : ZydisRegister}
    (hr : enclosing op.baseReg is64bit = r) :
    (s.write is64bit op v).regs r = lowBytes op.baseReg.widthBytes v := by
  subst hr
  exact Function.update_self ..

theorem write_regs_of_ne {op : DecodedOperand} {v : UInt64} {r r' : ZydisRegister}
    (hr : enclosing op.baseReg is64bit = r) (hne : r' ≠ r) :
    (s.write is64bit op v).regs r' = s.regs r' := by
  subst hr
  exact Function.update_of_ne hne ..

theorem exec_base : d.exec readU32 other d.basePos s =
    some (s.write is64bit (d.baseIns.operand 0) (sourceValue d.baseIns)) := if_pos rfl

theorem exec_cmp : d.exec readU32 other d.cmpPos s = some (s.compare is64bit d.cmpIns) := by
  rw [exec, if_neg d.base_ne_cmp.symm, if_pos rfl]

theorem exec_guard (h : s.jumps d.guardIns = false) :
    d.exec readU32 other d.guardPos s = some s := by
  have hcmp := d.cmp_lt
  rw [exec, if_neg d.base_ne_guard.symm, if_neg (by omega), if_pos rfl, h, if_neg nofun]

theorem exec_load : d.exec readU32 other d.loadPos s =
    (readU32 (s.address is64bit (d.loadIns.operand 1))).map fun e =>
      s.write is64bit (d.loadIns.operand 0) (extended d.loadIns e) := by
  have hbase := d.base_lt
  have hcmp := d.cmp_lt
  have hguard := d.guard_lt
  rw [exec, if_neg (by omega), if_neg (by omega), if_neg (by omega), if_pos rfl]

theorem exec_add : d.exec readU32 other d.addPos s =
    some (s.write is64bit (d.addIns.operand 0)
      (s.value is64bit (d.addIns.operand 0) + s.value is64bit (d.addIns.operand 1))) := by
  have hbase := d.base_lt
  have hcmp := d.cmp_lt
  have hguard := d.guard_lt
  have hload := d.load_lt
  rw [exec, if_neg (by omega), if_neg (by omega), if_neg (by omega), if_neg (by omega), if_pos rfl]

variable (readU32) in
/-- An instruction that is no part of the dispatch leaves its registers alone, and its flags between
the comparison and the branch. -/
theorem exec_other (hother : E.Respects other) (hn : n < window.length) (hbase : n ≠ d.basePos)
    (hcmp : n ≠ d.cmpPos) (hguard : n ≠ d.guardPos) (hload : n ≠ d.loadPos) (hadd : n ≠ d.addPos) :
    ∃ s', d.exec readU32 other n s = some s' ∧ s'.regs d.base = s.regs d.base ∧
      s'.regs d.index = s.regs d.index ∧ s'.regs d.tgt = s.regs d.tgt ∧
      (d.cmpPos < n → n < d.guardPos → s'.jumps d.guardIns = s.jumps d.guardIns) := by
  have hget : window[n]? = some window[n] := List.getElem?_eq_getElem hn
  have hexec : d.exec readU32 other n s = some (other window[n] s) := by
    rw [exec, if_neg hbase, if_neg hcmp, if_neg hguard, if_neg hload, if_neg hadd, hget]
  obtain ⟨hqbase, hqindex, hqtgt⟩ := d.quiet n hn hbase hload hadd _ hget
  refine ⟨_, hexec, hother.regs _ _ _ hqbase, hother.regs _ _ _ hqindex,
    hother.regs _ _ _ hqtgt, fun hlt hlt' => ?_⟩
  obtain ⟨hcf, hzf⟩ := hother.flags _ s (d.quietFlags n hlt' hlt hbase _ hget)
  unfold Machine.jumps
  rw [hcf, hzf]

variable (readU32) in
/-- **One instruction before the load.** -/
theorem exec_before (hother : E.Respects other) (hk : k < d.count) (hn : n < d.loadPos)
    (h : d.Before k n s) :
    ∃ s', d.exec readU32 other n s = some s' ∧ d.Before k (n + 1) s' := by
  have hload := d.load_lt
  have hadd := d.add_lt
  by_cases hbase : n = d.basePos
  · subst hbase
    have hne := d.base_ne_cmp
    refine ⟨_, d.exec_base, fun _ => write_regs_self d.enclosing_base, ?_, fun hlt hle => ?_⟩
    · exact (write_regs_of_ne d.enclosing_base d.base_ne_index.symm).trans h.index
    · exact h.flags (by omega) (by omega)
  by_cases hcmp : n = d.cmpPos
  · subst hcmp
    have hle := d.count_le
    refine ⟨_, d.exec_cmp, fun hlt => h.base (by omega), h.index, fun _ _ => ?_⟩
    exact (d.not_jumps_iff (by omega) (by omega) h.index).mpr hk
  by_cases hguard : n = d.guardPos
  · subst hguard
    have hlt := d.cmp_lt
    refine ⟨_, d.exec_guard (h.flags hlt (Nat.le_refl _)), fun hlt => h.base (by omega), h.index,
      fun _ hle => by omega⟩
  obtain ⟨s', hexec, hsbase, hsindex, -, hsflags⟩ :=
    d.exec_other readU32 hother (s := s) (by omega) hbase hcmp hguard (by omega) (by omega)
  refine ⟨s', hexec, fun hlt => hsbase.trans (h.base (by omega)), hsindex.trans h.index,
    fun hlt hle => ?_⟩
  exact (hsflags (by omega) (by omega)).trans (h.flags (by omega) (by omega))

variable (readU32) in
/-- The run up to the load. -/
theorem run_before (hother : E.Respects other) (hk : k < d.count)
    (hindex : s.regs d.index = UInt64.ofNat k) (hn : n ≤ d.loadPos) :
    ∃ s', d.run readU32 other n s = some s' ∧ d.Before k n s' := by
  induction n with
  | zero => exact ⟨s, rfl, fun h => absurd h (Nat.not_lt_zero _), hindex,
      fun h => absurd h (Nat.not_lt_zero _)⟩
  | succ n ih =>
    obtain ⟨s₁, hrun, hbefore⟩ := ih (by omega)
    obtain ⟨s₂, hexec, hnext⟩ := d.exec_before readU32 hother hk hn hbefore
    exact ⟨s₂, by rw [run, hrun, Option.bind_some, hexec], hnext⟩

/-- **The load reads the table** at the address of the index. -/
theorem address_eq (h : d.Before k d.loadPos s) :
    s.address is64bit (d.loadIns.operand 1) = d.cell k := by
  obtain ⟨-, -, -, -, -, hbase, hindex, hscale, -⟩ := d.loads
  rw [Machine.address, hbase, hindex, hscale, d.full_base.2.1, d.full_index.2.1,
    h.base d.base_lt, h.index]
  rfl

theorem value_of_full {op : DecodedOperand} {r : ZydisRegister} (hr : IsFull is64bit r)
    (hop : op.baseReg = r) : s.value is64bit op = wrap is64bit (s.regs r) := by
  rw [Machine.value, hop, hr.2.1, hr.2.2]
  rfl

variable (readU32) in
/-- **One instruction after the load.** -/
theorem exec_after (hother : E.Respects other) (hload : d.loadPos < n)
    (hn : n < window.length - 1) (h : d.After e n s) :
    ∃ s', d.exec readU32 other n s = some s' ∧ d.After e (n + 1) s' := by
  have hbase := d.base_lt
  have hcmp := d.cmp_lt
  have hguard := d.guard_lt
  by_cases hadd : n = d.addPos
  · subst hadd
    obtain ⟨-, -, -, htgt, -, hbase'⟩ := d.adds
    have hdest : enclosing (d.addIns.operand 0).baseReg is64bit = d.tgt := by
      rw [htgt]
      exact d.full_tgt.2.1
    refine ⟨_, d.exec_add, ?_, fun hle => by omega, fun _ => ?_⟩
    · exact (write_regs_of_ne hdest d.base_ne_tgt).trans h.base
    · rw [write_regs_self hdest, value_of_full d.full_tgt htgt, value_of_full d.full_base hbase',
        h.loaded (Nat.le_refl _), h.base, htgt, d.full_tgt.2.2]
      exact wrap_add_wrap is64bit _ _
  · obtain ⟨s', hexec, hsbase, -, hstgt, -⟩ := d.exec_other readU32 hother (s := s)
      (n := n) (by omega) (by omega) (by omega) (by omega) (by omega) hadd
    exact ⟨s', hexec, hsbase.trans h.base, fun hle => hstgt.trans (h.loaded (by omega)),
      fun hlt => hstgt.trans (h.target (by omega))⟩

/-- The run after the load, when the entry can be read. -/
theorem run_after (hother : E.Respects other) (hk : k < d.count)
    (hindex : s.regs d.index = UInt64.ofNat k) (he : readU32 (d.cell k) = some e)
    (hload : d.loadPos < n) (hn : n ≤ window.length - 1) :
    ∃ s', d.run readU32 other n s = some s' ∧ d.After e n s' := by
  induction n, hload using Nat.le_induction with
  | base =>
    obtain ⟨s₁, hrun, hbefore⟩ := d.run_before readU32 hother hk hindex (Nat.le_refl _)
    refine ⟨s₁.write is64bit (d.loadIns.operand 0) (extended d.loadIns e), ?_, ?_, fun _ => ?_,
      fun hlt => ?_⟩
    · rw [Nat.succ_eq_add_one, run, hrun, Option.bind_some, d.exec_load, d.address_eq hbefore, he]
      rfl
    · exact (write_regs_of_ne d.enclosing_load d.base_ne_tgt).trans (hbefore.base d.base_lt)
    · exact write_regs_self d.enclosing_load
    · have := d.load_lt
      omega
  | succ n hload ih =>
    obtain ⟨s₁, hrun, hafter⟩ := ih (by omega)
    obtain ⟨s₂, hexec, hnext⟩ := d.exec_after readU32 hother hload hn hafter
    exact ⟨s₂, by rw [run, hrun, Option.bind_some, hexec], hnext⟩

/-- The run fails at the load when the entry cannot be read. -/
theorem run_eq_none (hother : E.Respects other) (hk : k < d.count)
    (hindex : s.regs d.index = UInt64.ofNat k) (he : readU32 (d.cell k) = none)
    (hload : d.loadPos < n) : d.run readU32 other n s = none := by
  induction n, hload using Nat.le_induction with
  | base =>
    obtain ⟨s₁, hrun, hbefore⟩ := d.run_before readU32 hother hk hindex (Nat.le_refl _)
    rw [Nat.succ_eq_add_one, run, hrun, Option.bind_some, d.exec_load, d.address_eq hbefore, he]
    rfl
  | succ n hload ih => rw [run, ih, Option.bind_none]

/-- **Where the machine jumps.** -/
theorem jumps_iff (hk : k < d.count) {cell target : UInt64} : d.Jumps readU32 k cell target ↔
    cell = d.cell k ∧ ∃ e, readU32 (d.cell k) = some e ∧ target = d.target e := by
  have hload : d.loadPos < window.length - 1 := Nat.lt_trans d.load_lt d.add_lt
  constructor
  · intro h
    obtain ⟨s₁, s₂, hrun₁, hcell, hrun₂, htarget⟩ :=
      h _ E.respects_id ⟨fun _ => UInt64.ofNat k, false, false⟩ rfl
    obtain ⟨s₁', hrun₁', hbefore⟩ := d.run_before readU32 E.respects_id hk
      (s := ⟨fun _ => UInt64.ofNat k, false, false⟩) rfl (Nat.le_refl _)
    obtain rfl := Option.some.inj (hrun₁.symm.trans hrun₁')
    refine ⟨hcell.symm.trans (d.address_eq hbefore), ?_⟩
    cases he : readU32 (d.cell k) with
    | none =>
      have hnone := d.run_eq_none E.respects_id hk
        (s := ⟨fun _ => UInt64.ofNat k, false, false⟩) rfl he hload
      exact absurd (hrun₂.symm.trans hnone) nofun
    | some e =>
      obtain ⟨s₂', hrun₂', hafter⟩ := d.run_after E.respects_id hk
        (s := ⟨fun _ => UInt64.ofNat k, false, false⟩) rfl he hload (Nat.le_refl _)
      obtain rfl := Option.some.inj (hrun₂.symm.trans hrun₂')
      refine ⟨e, rfl, htarget.symm.trans ?_⟩
      rw [value_of_full d.full_tgt d.jumpsTo.2.2.2.2.2, hafter.target d.add_lt]
      exact lowBytes_lowBytes _ _
  · rintro ⟨rfl, e, he, rfl⟩ other hother s hindex
    obtain ⟨s₁, hrun₁, hbefore⟩ := d.run_before readU32 hother hk hindex
      (Nat.le_refl _)
    obtain ⟨s₂, hrun₂, hafter⟩ := d.run_after hother hk hindex he hload (Nat.le_refl _)
    refine ⟨s₁, s₂, hrun₁, d.address_eq hbefore, hrun₂, ?_⟩
    rw [value_of_full d.full_tgt d.jumpsTo.2.2.2.2.2, hafter.target d.add_lt]
    exact lowBytes_lowBytes _ _

/-- The machine jumps into the range. -/
theorem reaches_iff (hk : k < d.count) {lo hi : UInt64} : d.Reaches readU32 lo hi k ↔
    ∃ e, readU32 (d.cell k) = some e ∧ lo ≤ d.target e ∧ d.target e < hi := by
  constructor
  · rintro ⟨cell, target, hjumps, hrange⟩
    obtain ⟨-, e, he, rfl⟩ := (d.jumps_iff hk).mp hjumps
    exact ⟨e, he, hrange⟩
  · rintro ⟨e, he, hrange⟩
    exact ⟨_, _, (d.jumps_iff hk).mpr ⟨rfl, e, he, rfl⟩, hrange⟩

end Steps

/-! ### What the resolver finds -/

section Scans

variable (d : Dispatch is64bit E window)

/-- An instruction that is no part of the dispatch moves nothing to its registers. -/
theorem not_moves {i : ℕ} {ins : DecodedInsn} (hget : window[i]? = some ins) (hbase : i ≠ d.basePos)
    (hload : i ≠ d.loadPos) (hadd : i ≠ d.addPos)
    (hmove : isMovish ins ∨ ins.mnem = .lea ∨ ins.mnem = .add) :
    ¬firstIs is64bit d.base ins ∧ ¬firstIs is64bit d.index ins ∧ ¬firstIs is64bit d.tgt ins := by
  obtain ⟨hlt, -⟩ := List.getElem?_eq_some_iff.mp hget
  obtain ⟨hqbase, hqindex, hqtgt⟩ := d.quiet i hlt hbase hload hadd ins hget
  exact ⟨fun h => hqbase (E.writes_first ins _ hmove h),
    fun h => hqindex (E.writes_first ins _ hmove h), fun h => hqtgt (E.writes_first ins _ hmove h)⟩

theorem enclosing_add : enclosing (d.addIns.operand 0).baseReg is64bit = d.tgt := by
  rw [d.adds.2.2.2.1]
  exact d.full_tgt.2.1

/-- The addition that is found is that of the dispatch. -/
theorem lastBefore_add : Search.lastBefore window (isBiasAdd is64bit d.tgt) (window.length - 1) =
    some (d.addPos, d.addIns) := by
  obtain ⟨hlength, hmnem, hkind, -, hkind', -⟩ := d.adds
  refine Search.lastBefore_eq_some_iff.mpr ⟨d.add_lt, d.get_add, ?_, fun j y hlt _ hy hadd => ?_⟩
  · simp [isBiasAdd, firstIs, isReg, hmnem, hlength, hkind, hkind', d.enclosing_add]
  · have hbase := d.base_lt
    have hload := d.load_lt
    simp only [isBiasAdd, Bool.and_eq_true, beq_iff_eq] at hadd
    exact (d.not_moves hy (by omega) (by omega) (by omega) (Or.inr (Or.inr hadd.1.1.1))).2.2
      hadd.1.2

/-- The load that is found is that of the dispatch. -/
theorem lastBefore_load : Search.lastBefore window (isTableLoad is64bit d.tgt d.base) d.addPos =
    some (d.loadPos, d.loadIns) := by
  obtain ⟨hlength, hmnem, hfirst, -, hkind, hbase, hindex, hscale, -⟩ := d.loads
  refine Search.lastBefore_eq_some_iff.mpr ⟨d.load_lt, d.get_load, ?_,
    fun j y hlt hlt' hy hload => ?_⟩
  · have hmovish : isMovish d.loadIns = true := by
      rcases hmnem with hmov | hmov <;> simp [isMovish, hmov]
    simp [isTableLoad, hmovish, hlength, hfirst, hkind, hbase, hindex, hscale, d.full_base.2.1,
      d.full_index.1]
  · have hbase := d.base_lt
    simp only [isTableLoad, Bool.and_eq_true] at hload
    exact (d.not_moves hy (by omega) (by omega) (by omega)
      (Or.inl hload.1.1.1.1.1.1)).2.2 hload.1.1.1.1.2

/-- Nothing is copied to the index. -/
theorem boundRegisters_eq : boundRegisters window is64bit d.index d.loadPos = [d.index] := by
  have hnone : Search.lastBefore window (isIndexCopy is64bit d.index) d.loadPos = none := by
    refine Search.lastBefore_eq_none_iff.mpr fun i ins hlt hget hcopy => ?_
    have hload := d.load_lt
    simp only [isIndexCopy, Bool.and_eq_true] at hcopy
    by_cases hbase : i = d.basePos
    · subst hbase
      obtain rfl := Option.some.inj (d.get_base.symm.trans hget)
      exact d.base_ne_index (d.enclosing_base.symm.trans (enclosing_of_firstIs hcopy.1.2))
    · exact (d.not_moves hget hbase (by omega) (by omega) (Or.inl hcopy.1.1.1)).2.1 hcopy.1.2
  rw [boundRegisters, hnone]

/-- Some comparison of the index is found. -/
theorem exists_caseCount :
    ∃ count, caseCount window is64bit [d.index] d.loadPos = some count := by
  have hsome : Search.lastBefore window (isBoundCheck is64bit [d.index]) d.loadPos ≠ none := by
    intro hnone
    have hcheck := Search.lastBefore_eq_none_iff.mp hnone d.cmpPos d.cmpIns
      (Nat.lt_trans d.cmp_lt d.guard_lt) d.get_cmp
    obtain ⟨hlength, hmnem, hfirst, -, hkind⟩ := d.compares
    simp only [firstIs, Bool.and_eq_true, beq_iff_eq] at hfirst
    refine hcheck ?_
    simp [isBoundCheck, hlength, hmnem, hkind, hfirst.1, hfirst.2]
  obtain ⟨p, hp⟩ := Option.ne_none_iff_exists'.mp hsome
  exact ⟨_, by rw [caseCount, hp]; rfl⟩

/-- The number of cases that the comparison nearest to the load names. -/
def named : ℕ := ((caseCount window is64bit [d.index] d.loadPos).getD 0).toNat

theorem caseCount_eq : caseCount window is64bit [d.index] d.loadPos =
    some (UInt64.ofNat d.named) := by
  obtain ⟨count, hcount⟩ := d.exists_caseCount
  rw [named, hcount, Option.getD_some, UInt64.ofNat_toNat]

/-- An instruction between the definition of the base and the load has the base as its first
operand. It does not write it. -/
def Shadowed : Prop :=
  ∃ i ins, d.basePos < i ∧ i < d.loadPos ∧ window[i]? = some ins ∧ isBaseWrite is64bit d.base ins

theorem isBaseWrite_baseIns : isBaseWrite is64bit d.base d.baseIns := by
  have hlength := d.sets.1
  have hpos : d.baseIns.operands ≠ [] := by
    intro hnil
    rw [hnil] at hlength
    exact absurd hlength (by decide)
  simp [isBaseWrite, d.sets.2.1, hpos]

theorem baseOf_baseIns : baseOf d.baseIns = some d.baseVa := by
  obtain ⟨hlength, -, -, ⟨hmnem, hkind, -⟩ | ⟨hmnem, hkind⟩⟩ := d.sets
  · simp [baseOf, baseVa, sourceValue, hlength, hmnem, hkind]
  · simp [baseOf, baseVa, sourceValue, hlength, hmnem, hkind]

/-- **The base that is found** is that of the dispatch, or none if it is shadowed. -/
theorem base_of_not_shadowed (h : ¬d.Shadowed) :
    (Search.lastBefore window (isBaseWrite is64bit d.base) d.loadPos).bind
      (fun (_, ins) => baseOf ins) = some d.baseVa := by
  have hfound : Search.lastBefore window (isBaseWrite is64bit d.base) d.loadPos =
      some (d.basePos, d.baseIns) :=
    Search.lastBefore_eq_some_iff.mpr ⟨d.base_lt, d.get_base, d.isBaseWrite_baseIns,
      fun j y hlt hlt' hy hwrite => h ⟨j, y, hlt, hlt', hy, hwrite⟩⟩
  rw [hfound]
  exact d.baseOf_baseIns

theorem base_of_shadowed (h : d.Shadowed) :
    (Search.lastBefore window (isBaseWrite is64bit d.base) d.loadPos).bind
      (fun (_, ins) => baseOf ins) = none := by
  obtain ⟨i, ins, hlt, hlt', hget, hwrite⟩ := h
  cases hfound : Search.lastBefore window (isBaseWrite is64bit d.base) d.loadPos with
  | none => rfl
  | some p =>
    obtain ⟨j, y⟩ := p
    obtain ⟨hj, hy, hjwrite, hbetween⟩ := Search.lastBefore_eq_some_iff.mp hfound
    -- the instruction that is found is not the one that sets the base
    have hij : i ≤ j := by
      by_contra hji
      exact hbetween i ins (by omega) hlt' hget hwrite
    have hload := d.load_lt
    have hfirst : firstIs is64bit d.base y := by
      simp only [isBaseWrite, Bool.and_eq_true] at hjwrite
      exact hjwrite.2
    have hmove := fun hmove => (d.not_moves hy (by omega) (by omega) (by omega) hmove).1 hfirst
    show baseOf y = none
    rw [baseOf, if_neg fun hlea => hmove (Or.inr (Or.inl hlea.1)),
      if_neg fun hmov => hmove (Or.inl (by simp [isMovish, hmov.1]))]

/-- The address of the table, as a 64-bit number. -/
def tableVa : UInt64 := d.baseVa + d.disp

/-- The entry the resolver takes for an index. -/
def entry (readU32 : TableReader) (rangeLo rangeHi : UInt64) : ℕ → Option UInt64 :=
  entryTarget d.baseVa d.tableVa 4 rangeLo rangeHi readU32

variable {readU32 : TableReader} {lo hi : UInt64}

theorem resolve_eq : resolveIndexedJumpTable window is64bit lo hi readU32 =
    match (Search.lastBefore window (isBaseWrite is64bit d.base) d.loadPos).bind
        fun (_, ins) => baseOf ins with
    | none => none
    | some baseVa =>
      if UInt64.ofNat d.named = 0 ∨ UInt64.ofNat d.named > kMaxJumpTableEntries then none
      else if Search.collect (entryTarget baseVa (baseVa + d.disp) 4 lo hi readU32)
          (UInt64.ofNat d.named).toNat 0 = [] then none
      else some
        { targets := Search.collect (entryTarget baseVa (baseVa + d.disp) 4 lo hi readU32)
            (UInt64.ofNat d.named).toNat 0
          tableVa := baseVa + d.disp
          tableSize := UInt64.ofNat d.named * 4 } := by
  obtain ⟨hlength, hjump, hconditional, hbranch, hkind, hreg⟩ := d.jumpsTo
  obtain ⟨-, -, -, -, -, haddBase⟩ := d.adds
  obtain ⟨-, -, -, -, -, -, hindex, hscale, -⟩ := d.loads
  have hlast : window.getLast? = some d.jmpIns := List.getLast?_eq_getElem?.trans d.get_jmp
  have htgt : enclosing (d.jmpIns.operand 0).baseReg is64bit = d.tgt := by
    rw [hreg]
    exact d.full_tgt.2.1
  have hbase : enclosing (d.addIns.operand 1).baseReg is64bit = d.base := by
    rw [haddBase]
    exact d.full_base.2.1
  have hindex' : enclosing (d.loadIns.operand 1).indexReg is64bit = d.index := by
    rw [hindex]
    exact d.full_index.2.1
  rw [resolveIndexedJumpTable, hlast]
  simp only [hjump, hconditional, hbranch, hlength, hkind, isReg, htgt, d.full_tgt.1,
    d.lastBefore_add, hbase, d.full_base.1, d.lastBefore_load, hindex', hscale,
    d.boundRegisters_eq, d.caseCount_eq, beq_self_eq_true, not_true, Option.isSome_none,
    Bool.false_eq_true, or_self, if_false]
  rfl

end Scans

/-! ### When the report is right -/

section Reports

variable (d : Dispatch is64bit E window) (readU32 : TableReader) (lo hi : UInt64)

/-- Where the resolver reads the entry of an index. -/
def rawCell (k : ℕ) : UInt64 := d.tableVa + UInt64.ofNat k * 4

/-- The 64-bit sum of the base and an entry is inside the range. -/
def InRange (e : UInt32) : Prop := lo ≤ d.baseVa + e.toUInt64 ∧ d.baseVa + e.toUInt64 < hi

/-- Something is reported: the base is found, the number of cases is accepted, and the first entry
is read and accepted. -/
def Reports : Prop :=
  ¬d.Shadowed ∧ 0 < d.named ∧ d.named ≤ kMaxJumpTableEntries.toNat ∧
    ∃ e, readU32 (d.rawCell 0) = some e ∧ d.InRange lo hi e

/-- The machine reads the entry of an index and jumps into the range. -/
def Leads (k : ℕ) : Prop :=
  ∃ e, readU32 (d.cell k) = some e ∧ lo ≤ d.target e ∧ d.target e < hi

/-- The 64-bit arithmetic does not differ from that of the machine: the address of the entry and the
target fit the address width, the register of the base holds all of it, and an entry that is loaded
with its sign into 64 bits is not negative. -/
structure Plain (k : ℕ) (e : UInt32) : Prop where
  cell : wrap is64bit (d.rawCell k) = d.rawCell k
  target : wrap is64bit (d.baseVa + e.toUInt64) = d.baseVa + e.toUInt64
  base : is64bit = true → d.baseReg = d.baseVa
  sign : is64bit = true → d.loadIns.mnem = .movsxd →
    (d.loadIns.operand 0).baseReg.widthBytes = 8 → e.toNat < 2 ^ 31

/-- The condition of a right report. If something is reported, the cases named are those of the
dispatch, or fewer if the table ends there, and each entry is read, in range and plain. If nothing
is reported, there is nothing to report. -/
def Agrees : Prop :=
  (d.Reports readU32 lo hi → d.named ≤ d.count ∧
    (d.named < d.count → ¬d.Leads readU32 lo hi d.named) ∧
    ∀ k < d.named, ∃ e, readU32 (d.rawCell k) = some e ∧ d.InRange lo hi e ∧ d.Plain k e) ∧
  (¬d.Reports readU32 lo hi →
    d.count = 0 ∨ kMaxJumpTableEntries.toNat < d.count ∨ ¬d.Leads readU32 lo hi 0)

variable {readU32 lo hi}

theorem toNat_signExtend32 (e : UInt32) :
    (signExtend32 e).toNat = if e.toNat < 2 ^ 31 then e.toNat else e.toNat + (2 ^ 64 - 2 ^ 32) := by
  have hlt := e.toNat_lt
  unfold signExtend32
  by_cases he : e.toNat < 2 ^ 31
  · have he' : e < 0x80000000 := UInt32.lt_iff_toNat_lt.mpr he
    rw [if_pos he, if_pos he']
    exact UInt32.toNat_toUInt64 e
  · have he' : ¬e < 0x80000000 := fun h => he (UInt32.lt_iff_toNat_lt.mp h)
    rw [if_neg he, if_neg he', UInt64.toNat_add, UInt32.toNat_toUInt64]
    exact Nat.mod_eq_of_lt (by
      show e.toNat + 18446744069414584320 < 18446744073709551616
      omega)

/-- An entry keeps its low 32 bits when it is loaded. -/
theorem toNat_loaded_mod (e : UInt32) : (d.loaded e).toNat % 2 ^ 32 = e.toNat := by
  have hlt := e.toNat_lt
  have hextended : (extended d.loadIns e).toNat % 2 ^ 32 = e.toNat := by
    unfold extended
    split_ifs
    · rw [toNat_signExtend32]
      split_ifs <;> omega
    · rw [UInt32.toNat_toUInt64]
      exact Nat.mod_eq_of_lt hlt
  rw [loaded, toNat_lowBytes]
  rcases d.loads.2.2.2.1 with hw | hw <;> rw [hw] <;> omega

theorem toNat_baseReg_mod : d.baseReg.toNat % 2 ^ 32 = d.baseVa.toNat % 2 ^ 32 := by
  rw [baseReg, toNat_lowBytes]
  rcases d.sets.2.2.1 with hw | hw <;> rw [hw] <;> omega

/-- An entry is loaded as it is unless its sign goes into the high half. -/
theorem loaded_eq_iff (e : UInt32) : d.loaded e = e.toUInt64 ↔
    (d.loadIns.mnem = .movsxd → (d.loadIns.operand 0).baseReg.widthBytes = 8 →
      e.toNat < 2 ^ 31) := by
  have hlt := e.toNat_lt
  rw [← UInt64.toNat_inj, UInt32.toNat_toUInt64, loaded, toNat_lowBytes]
  by_cases hmov : d.loadIns.mnem = .movsxd
  · rw [extended, if_pos hmov, toNat_signExtend32]
    rcases d.loads.2.2.2.1 with hw | hw
    · rw [hw]
      refine iff_of_true ?_ fun _ h => absurd h (by decide)
      split_ifs <;> omega
    · rw [hw]
      simp only [hmov, true_implies]
      split_ifs with he
      · exact iff_of_true (by omega) he
      · exact iff_of_false (by omega) he
  · rw [extended, if_neg hmov, UInt32.toNat_toUInt64]
    refine iff_of_true ?_ fun h => absurd h hmov
    rcases d.loads.2.2.2.1 with hw | hw <;> rw [hw] <;> omega

/-- **The arithmetic is plain** where the resolver and the machine have the same address and the
same target. -/
theorem plain_iff {k : ℕ} {e : UInt32} : d.Plain k e ↔
    d.rawCell k = d.cell k ∧ d.baseVa + e.toUInt64 = d.target e := by
  cases is64bit with
  | true =>
    have hwrap (v : UInt64) : wrap true v = v := lowBytes_eight v
    have hcell : d.rawCell k = d.cell k ↔ d.baseReg = d.baseVa := by
      rw [rawCell, cell, tableVa, hwrap, UInt64.add_assoc, UInt64.add_comm d.disp,
        ← UInt64.add_assoc, UInt64.add_left_inj, UInt64.add_left_inj]
      exact eq_comm
    have htarget (hbase : d.baseReg = d.baseVa) :
        d.baseVa + e.toUInt64 = d.target e ↔ d.loaded e = e.toUInt64 := by
      rw [target, hwrap, hbase, UInt64.add_comm, UInt64.add_left_inj]
      exact eq_comm
    constructor
    · intro h
      have hbase := h.base rfl
      exact ⟨hcell.mpr hbase, (htarget hbase).mpr ((d.loaded_eq_iff e).mpr (h.sign rfl))⟩
    · rintro ⟨hrc, htg⟩
      have hbase := hcell.mp hrc
      exact ⟨hwrap _, hwrap _, fun _ => hbase,
        fun _ => (d.loaded_eq_iff e).mp ((htarget hbase).mp htg)⟩
  | false =>
    have hwrap (v : UInt64) : (wrap false v).toNat = v.toNat % 2 ^ 32 := toNat_lowBytes 4 v
    have hbase := d.toNat_baseReg_mod
    have hloaded := d.toNat_loaded_mod e
    -- the wrapped sums of the resolver are those of the machine
    have hcell : wrap false (d.rawCell k) = d.cell k := by
      refine UInt64.toNat_inj.mp ?_
      rw [rawCell, cell, tableVa, hwrap, hwrap]
      simp only [UInt64.toNat_add]
      omega
    have htarget : wrap false (d.baseVa + e.toUInt64) = d.target e := by
      refine UInt64.toNat_inj.mp ?_
      rw [target, hwrap, hwrap]
      simp only [UInt64.toNat_add, UInt32.toNat_toUInt64]
      omega
    constructor
    · intro h
      exact ⟨h.cell.symm.trans hcell, h.target.symm.trans htarget⟩
    · rintro ⟨hrc, htg⟩
      exact ⟨hcell.trans hrc.symm, htarget.trans htg.symm, nofun, nofun⟩

theorem entry_eq_some_iff {k : ℕ} {t : UInt64} : d.entry readU32 lo hi k = some t ↔
    ∃ e, readU32 (d.rawCell k) = some e ∧ d.InRange lo hi e ∧ t = d.baseVa + e.toUInt64 := by
  have hraw : d.tableVa + UInt64.ofNat k * (4 : UInt8).toUInt64 = d.rawCell k := rfl
  rw [entry, entryTarget, hraw]
  cases readU32 (d.rawCell k) with
  | none => exact iff_of_false nofun nofun
  | some e =>
    have hrange : (d.baseVa + e.toUInt64 < lo ∨ d.baseVa + e.toUInt64 ≥ hi) ↔
        ¬d.InRange lo hi e := by
      rw [InRange, not_and_or, UInt64.not_le, UInt64.not_lt]
    simp only [Option.some.injEq, exists_eq_left']
    by_cases h : d.InRange lo hi e
    · rw [if_neg (mt hrange.mp (not_not.mpr h)), Option.some.injEq]
      exact ⟨fun ht => ⟨h, ht.symm⟩, fun ht => ht.2.symm⟩
    · rw [if_pos (hrange.mpr h)]
      exact iff_of_false nofun fun ht => h ht.1

theorem named_lt : d.named < 2 ^ 64 := UInt64.toNat_lt _

theorem toNat_ofNat_named : (UInt64.ofNat d.named).toNat = d.named := by
  rw [UInt64.toNat_ofNat', Nat.mod_eq_of_lt d.named_lt]

/-- Nothing is collected only if the first entry is missing. -/
theorem collect_entry_eq_nil_iff (hpos : 0 < d.named) :
    Search.collect (d.entry readU32 lo hi) d.named 0 = [] ↔
      ¬∃ e, readU32 (d.rawCell 0) = some e ∧ d.InRange lo hi e := by
  constructor
  · rintro hnil ⟨e, he, hrange⟩
    have hstops := Search.collect_stops (f := d.entry readU32 lo hi) (n := d.named) (k := 0)
      (by rw [hnil]; exact hpos)
    rw [hnil] at hstops
    exact absurd (hstops.symm.trans (d.entry_eq_some_iff.mpr ⟨e, he, hrange, rfl⟩)) nofun
  · intro h
    by_contra hne
    obtain ⟨t, ts, hts⟩ := List.exists_cons_of_ne_nil hne
    have hfirst : (Search.collect (d.entry readU32 lo hi) d.named 0)[0]? = some t := by
      rw [hts]
      rfl
    obtain ⟨e, he, hrange, -⟩ :=
      d.entry_eq_some_iff.mp (Search.eq_some_of_getElem?_collect hfirst)
    exact h ⟨e, he, hrange⟩

theorem named_accepted_iff :
    ¬(UInt64.ofNat d.named = 0 ∨ UInt64.ofNat d.named > kMaxJumpTableEntries) ↔
      0 < d.named ∧ d.named ≤ kMaxJumpTableEntries.toNat := by
  rw [not_or, ← UInt64.toNat_inj, GT.gt, UInt64.lt_iff_toNat_lt, d.toNat_ofNat_named]
  show ¬d.named = 0 ∧ ¬kMaxJumpTableEntries.toNat < d.named ↔ _
  omega

/-- **What is reported.** -/
theorem resolve_eq_some (h : d.Reports readU32 lo hi) :
    resolveIndexedJumpTable window is64bit lo hi readU32 = some
      { targets := Search.collect (d.entry readU32 lo hi) d.named 0
        tableVa := d.tableVa
        tableSize := UInt64.ofNat d.named * 4 } := by
  obtain ⟨hshadow, hpos, hle, hfirst⟩ := h
  have hne := mt (d.collect_entry_eq_nil_iff hpos).mp (not_not.mpr hfirst)
  rw [d.resolve_eq, d.base_of_not_shadowed hshadow, d.toNat_ofNat_named]
  exact (if_neg (d.named_accepted_iff.mpr ⟨hpos, hle⟩)).trans (if_neg hne)

/-- **When nothing is reported.** -/
theorem resolve_eq_none (h : ¬d.Reports readU32 lo hi) :
    resolveIndexedJumpTable window is64bit lo hi readU32 = none := by
  rw [d.resolve_eq]
  by_cases hshadow : d.Shadowed
  · rw [d.base_of_shadowed hshadow]
  · rw [d.base_of_not_shadowed hshadow, d.toNat_ofNat_named]
    by_cases hnamed : UInt64.ofNat d.named = 0 ∨ UInt64.ofNat d.named > kMaxJumpTableEntries
    · exact if_pos hnamed
    · obtain ⟨hpos, hle⟩ := d.named_accepted_iff.mp hnamed
      have hnil := (d.collect_entry_eq_nil_iff hpos).mpr fun hfirst =>
        h ⟨hshadow, hpos, hle, hfirst⟩
      exact (if_neg hnamed).trans (if_pos hnil)

theorem toNat_tableSize (hle : d.named ≤ kMaxJumpTableEntries.toNat) :
    (UInt64.ofNat d.named * 4).toNat = 4 * d.named := by
  have hmax : d.named ≤ 4096 := hle
  rw [UInt64.toNat_mul, d.toNat_ofNat_named]
  show d.named * 4 % 2 ^ 64 = 4 * d.named
  omega

end Reports

/-- **The reports that are right.** -/
theorem resolve_exact_iff (d : Dispatch is64bit E window) (readU32 : TableReader)
    (rangeLo rangeHi : UInt64) :
    d.Exact readU32 rangeLo rangeHi
        (resolveIndexedJumpTable window is64bit rangeLo rangeHi readU32) ↔
      d.Agrees readU32 rangeLo rangeHi := by
  by_cases hreports : d.Reports readU32 rangeLo rangeHi
  · have hle := hreports.2.2.1
    have hpos := hreports.2.1
    rw [d.resolve_eq_some hreports]
    constructor
    · rintro ⟨htargets, hstops, hsize⟩
      refine ⟨fun _ => ?_, fun h => absurd hreports h⟩
      -- the size covers the entries that were read, so all of them were
      have hlength : (Search.collect (d.entry readU32 rangeLo rangeHi) d.named 0).length =
          d.named := by
        have hfour := (d.toNat_tableSize hle).symm.trans hsize
        exact (Nat.eq_of_mul_eq_mul_left (by decide) hfour).symm
      have hget (k : ℕ) (hk : k < d.named) :
          ∃ t, (Search.collect (d.entry readU32 rangeLo rangeHi) d.named 0)[k]? = some t :=
        ⟨_, List.getElem?_eq_getElem (hlength.symm ▸ hk)⟩
      refine ⟨?_, fun hlt hleads => ?_, fun k hk => ?_⟩
      · obtain ⟨t, ht⟩ := hget (d.named - 1) (by omega)
        have := (htargets _ t ht).1
        omega
      · refine hstops (hlength.symm ▸ hlt) ?_
        rw [hlength]
        exact (d.reaches_iff hlt).mpr hleads
      · obtain ⟨t, ht⟩ := hget k hk
        obtain ⟨hcount, hjumps, -⟩ := htargets k t ht
        obtain ⟨hcell, e, he, htarget⟩ := (d.jumps_iff hcount).mp hjumps
        have hentry := Search.eq_some_of_getElem?_collect ht
        rw [Nat.zero_add] at hentry
        obtain ⟨e', he', hrange, hsum⟩ := d.entry_eq_some_iff.mp hentry
        have hraw : d.rawCell k = d.cell k := hcell
        rw [hraw] at he'
        obtain rfl := Option.some.inj (he.symm.trans he')
        exact ⟨e, hraw ▸ he, hrange, d.plain_iff.mpr ⟨hraw, hsum.symm.trans htarget⟩⟩
    · rintro ⟨hagrees, -⟩
      obtain ⟨hcount, hends, hplain⟩ := hagrees hreports
      have hlength : (Search.collect (d.entry readU32 rangeLo rangeHi) d.named 0).length =
          d.named := by
        refine Nat.le_antisymm (Search.length_collect_le _ _) (Nat.le_of_not_lt fun hlt => ?_)
        obtain ⟨e, he, hrange, -⟩ := hplain _ hlt
        have hstops := Search.collect_stops hlt
        rw [Nat.zero_add] at hstops
        exact absurd (hstops.symm.trans (d.entry_eq_some_iff.mpr ⟨e, he, hrange, rfl⟩)) nofun
      refine ⟨fun k t ht => ?_, fun hlt => ?_, ?_⟩
      · obtain ⟨hk, -⟩ := List.getElem?_eq_some_iff.mp ht
        have hk' : k < d.named := hlength ▸ hk
        have hentry := Search.eq_some_of_getElem?_collect ht
        rw [Nat.zero_add] at hentry
        obtain ⟨e, he, hrange, hsum⟩ := d.entry_eq_some_iff.mp hentry
        obtain ⟨e', he', -, hplain'⟩ := hplain k hk'
        obtain rfl := Option.some.inj (he.symm.trans he')
        obtain ⟨hraw, htarget⟩ := d.plain_iff.mp hplain'
        refine ⟨Nat.lt_of_lt_of_le hk' hcount, ?_, hsum ▸ hrange⟩
        exact (d.jumps_iff (Nat.lt_of_lt_of_le hk' hcount)).mpr
          ⟨hraw, e, hraw ▸ he, hsum.trans htarget⟩
      · simp only [hlength] at hlt ⊢
        exact fun hreaches => hends hlt ((d.reaches_iff hlt).mp hreaches)
      · rw [hlength]
        exact d.toNat_tableSize hle
  · rw [d.resolve_eq_none hreports]
    have hiff : d.Exact readU32 rangeLo rangeHi none ↔ (d.count = 0 ∨
        kMaxJumpTableEntries.toNat < d.count ∨ ¬d.Leads readU32 rangeLo rangeHi 0) := by
      rcases Nat.eq_zero_or_pos d.count with hzero | hpos
      · exact iff_of_true (Or.inl hzero) (Or.inl hzero)
      · exact or_congr_right (or_congr_right (not_congr (d.reaches_iff hpos)))
    exact hiff.trans ⟨fun h => ⟨fun hr => absurd hr hreports, fun _ => h⟩, fun h => h.2 hreports⟩

end Dispatch

/-! ### A switch of two cases -/

/-- The least effects: only moves, `lea` and `add` write a register, and only comparisons and
additions write flags. -/
def moveEffects (is64bit : Bool) : Effects is64bit where
  writes ins r := (isMovish ins ∨ ins.mnem = .lea ∨ ins.mnem = .add) ∧ firstIs is64bit r ins
  writesFlags ins := ins.mnem = .cmp ∨ ins.mnem = .add
  writes_first _ _ hmove hfirst := ⟨hmove, hfirst⟩

instance (is64bit : Bool) (ins : DecodedInsn) (r : ZydisRegister) :
    Decidable ((moveEffects is64bit).writes ins r) :=
  inferInstanceAs (Decidable (_ ∧ _))

instance (is64bit : Bool) (ins : DecodedInsn) :
    Decidable ((moveEffects is64bit).writesFlags ins) :=
  inferInstanceAs (Decidable (_ ∨ _))

/-- A register operand of 64 bits. -/
def reg64 (n : Fin 16) : DecodedOperand := { kind := .reg, baseReg := .gpr64 n, widthBytes := 8 }

def switchCmp : DecodedInsn where
  va := 0xFF0
  length := 3
  mnem := .cmp
  operands := [{ kind := .reg, baseReg := .gpr32 1, widthBytes := 4 },
    { kind := .imm, imm := 1, widthBytes := 1 }]

def switchJa : DecodedInsn where
  va := 0xFF3
  length := 6
  mnem := .j .nbe
  operands := [{ kind := .pcRel, widthBytes := 4 }]
  isJump := true
  isConditional := true
  branchTarget := some 0x1100

def switchLea : DecodedInsn where
  va := 0xFF9
  length := 7
  mnem := .lea
  operands := [reg64 2, { kind := .ripRel, baseReg := .rip, disp := 0x1000, widthBytes := 8 }]

def switchLoad : DecodedInsn where
  va := 0x1000
  length := 5
  mnem := .movsxd
  operands := [reg64 0,
    { kind := .sib, baseReg := .gpr64 2, indexReg := .gpr64 1, scale := 4, disp := 0x10
      widthBytes := 4, sibEncoded := true }]

def switchAdd : DecodedInsn where
  va := 0x1005
  length := 3
  mnem := .add
  operands := [reg64 0, reg64 2]

def switchJmp : DecodedInsn where
  va := 0x1008
  length := 2
  mnem := .jmp
  operands := [reg64 0]
  isJump := true
  isFallthrough := false

/-- `cmp ecx, 1`, `ja`, `lea rdx, [rip+0x1000]`, `movsxd rax, [rdx+rcx*4+0x10]`, `add rax, rdx` and
`jmp rax`, with the base `0x2000`. -/
def switchWindow : List DecodedInsn :=
  [switchCmp, switchJa, switchLea, switchLoad, switchAdd, switchJmp]

def switchDispatch : Dispatch true (moveEffects true) switchWindow where
  base := .gpr64 2
  index := .gpr64 1
  tgt := .gpr64 0
  basePos := 2
  cmpPos := 0
  guardPos := 1
  loadPos := 3
  addPos := 4
  baseIns := switchLea
  cmpIns := switchCmp
  guardIns := switchJa
  loadIns := switchLoad
  addIns := switchAdd
  jmpIns := switchJmp
  full_base := ⟨by decide, by decide, by decide⟩
  full_index := ⟨by decide, by decide, by decide⟩
  full_tgt := ⟨by decide, by decide, by decide⟩
  base_ne_index := by decide
  base_ne_tgt := by decide
  base_lt := by decide
  cmp_lt := by decide
  guard_lt := by decide
  load_lt := Nat.lt_add_one 3
  add_lt := by decide
  get_base := rfl
  get_cmp := rfl
  get_guard := rfl
  get_load := rfl
  get_add := rfl
  get_jmp := rfl
  sets := ⟨by decide, by decide, by decide, by decide⟩
  compares := ⟨by decide, by decide, by decide, nofun, by decide⟩
  guards := ⟨by decide, by decide, by decide⟩
  loads := ⟨by decide, by decide, by decide, by decide, by decide, by decide, by decide, by decide,
    by decide⟩
  adds := ⟨by decide, by decide, by decide, by decide, by decide, by decide⟩
  jumpsTo := ⟨by decide, by decide, by decide, by decide, by decide, by decide⟩
  quiet i hi hbase hload hadd := by
    have hi' : i < 6 := hi
    interval_cases i
    · decide
    · decide
    · exact absurd rfl hbase
    · exact absurd rfl hload
    · exact absurd rfl hadd
    · decide
  quietFlags := by decide

/-- The table at `0x2010`, of an entry `0x40` and another one. -/
def switchTable (second : UInt32) : TableReader := fun va =>
  if va = 0x2010 then some 0x40 else if va = 0x2014 then some second else none

/-- Two entries that are positive and in range are reported as they are. -/
theorem resolve_exact_iff_switch : switchDispatch.Exact (switchTable 0x80) 0x1000 0x3000
    (resolveIndexedJumpTable switchWindow true 0x1000 0x3000 (switchTable 0x80)) := by
  refine (Dispatch.resolve_exact_iff switchDispatch (switchTable 0x80) 0x1000
    0x3000).mpr ⟨fun _ => ?_,
    fun h => absurd ⟨?_, by decide, by decide, 0x40, by decide, by decide, by decide⟩ h⟩
  · refine ⟨by decide, fun hlt => absurd hlt (by decide), fun k hk => ?_⟩
    have hk' : k < 2 := hk
    interval_cases k
    · exact ⟨0x40, by decide, ⟨by decide, by decide⟩, by decide, by decide, fun _ => by decide,
        fun _ _ _ => by decide⟩
    · exact ⟨0x80, by decide, ⟨by decide, by decide⟩, by decide, by decide, fun _ => by decide,
        fun _ _ _ => by decide⟩
  · rintro ⟨i, ins, hlt, hlt', -⟩
    have hlow : 2 < i := hlt
    have hhigh : i < 3 := hlt'
    omega

/-- The second entry is `-16`, loaded with its sign. In a small range the resolver takes it for an
entry out of range, and still reports a table of two entries. In a large one it reports a target
that the machine does not jump to. -/
theorem resolve_inexact_switch :
    ¬switchDispatch.Exact (switchTable 0xFFFFFFF0) 0x1000 0x3000
      (resolveIndexedJumpTable switchWindow true 0x1000 0x3000 (switchTable 0xFFFFFFF0)) ∧
    ¬switchDispatch.Exact (switchTable 0xFFFFFFF0) 0x1000 0x200000000
      (resolveIndexedJumpTable switchWindow true 0x1000 0x200000000 (switchTable 0xFFFFFFF0)) := by
  constructor
  · have hout : resolveIndexedJumpTable switchWindow true 0x1000 0x3000 (switchTable 0xFFFFFFF0) =
        some ⟨[0x2040], 0x2010, 8⟩ := by decide +kernel
    rw [hout]
    rintro ⟨-, -, hsize⟩
    exact absurd hsize (by decide)
  · have hout : resolveIndexedJumpTable switchWindow true 0x1000 0x200000000
        (switchTable 0xFFFFFFF0) = some ⟨[0x2040, 0x100001FF0], 0x2010, 8⟩ := by decide +kernel
    rw [hout]
    rintro ⟨htargets, -, -⟩
    obtain ⟨hcount, hjumps, -⟩ := htargets 1 0x100001FF0 rfl
    obtain ⟨-, e, he, htarget⟩ := (switchDispatch.jumps_iff hcount).mp hjumps
    have hentry : switchTable 0xFFFFFFF0 (switchDispatch.cell 1) = some 0xFFFFFFF0 := by
      decide +kernel
    obtain rfl := Option.some.inj (hentry.symm.trans he)
    exact absurd htarget (by decide +kernel)

end Papa.JumpTables
