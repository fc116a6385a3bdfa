import Papa.Emu.Operands
import Papa.Library.Search

/-!
# Jump tables

A switch is dispatched by a jump to a register that was loaded from a table of 32-bit offsets and
biased by the base of the table. The resolver is given the instructions up to the jump. It looks for
the parts of the dispatch from the jump backwards: the addition of the base, the load from the
table, what the base was set to, a copy of the index, and the comparison that bounds it. Then it
reads the table.

Registers are compared by the largest registers they are parts of.

## Main definitions

* `largestEnclosing`, `enclosing`: the largest register.
* `JumpTableTargets`, `resolveIndexedJumpTable`: the resolver.
-/

namespace Papa.JumpTables

open Emu

/-- The most entries of a table. A larger one is taken for a mistake. -/
def kMaxJumpTableEntries : UInt64 := 4096

/-- The largest register that a register is a part of. Those of the other classes are no operands of
the instructions that are looked for. -/
def largestEnclosing (is64bit : Bool) : ZydisRegister → ZydisRegister
  | .gpr64 n => if is64bit then .gpr64 n else .none
  | .gpr32 n | .gpr16 n | .gpr8 n => if is64bit then .gpr64 n else .gpr32 n
  | .gpr8High n => if is64bit then .gpr64 ⟨n, by omega⟩ else .gpr32 ⟨n, by omega⟩
  | .rip | .eip | .ip => if is64bit then .rip else .eip
  | .xmm n => .xmm n
  | .none | .other _ => .none

/-- The register that stands for a register in comparisons. -/
def enclosing (r : ZydisRegister) (is64bit : Bool) : ZydisRegister :=
  if r = .none then r else largestEnclosing is64bit r

/-- Whether an operand is a register. -/
def isReg (op : DecodedOperand) : Bool := op.kind == .reg

/-- The targets of a jump and the extent of its table. -/
structure JumpTableTargets where
  targets : List UInt64
  tableVa : UInt64
  tableSize : UInt64
  deriving DecidableEq

/-- What reads an entry of a table: there is none at an address that is not mapped. -/
abbrev TableReader := UInt64 → Option UInt32

/-! ### The instructions that are looked for -/

/-- Whether the first operand of an instruction is a part of a register. -/
def firstIs (is64bit : Bool) (r : ZydisRegister) (ins : DecodedInsn) : Bool :=
  isReg (ins.operand 0) && enclosing (ins.operand 0).baseReg is64bit == r

/-- `add tgt, base`. -/
def isBiasAdd (is64bit : Bool) (tgt : ZydisRegister) (ins : DecodedInsn) : Bool :=
  ins.mnem == .add && decide (2 ≤ ins.operands.length) && firstIs is64bit tgt ins &&
    isReg (ins.operand 1)

/-- A move, with or without an extension. -/
def isMovish (ins : DecodedInsn) : Bool :=
  ins.mnem == .mov || ins.mnem == .movzx || ins.mnem == .movsxd

/-- `mov tgt, [base + index*4 + disp]`. -/
def isTableLoad (is64bit : Bool) (tgt base : ZydisRegister) (ins : DecodedInsn) : Bool :=
  isMovish ins && decide (2 ≤ ins.operands.length) && firstIs is64bit tgt ins &&
    (ins.operand 1).kind == .sib && enclosing (ins.operand 1).baseReg is64bit == base &&
    (ins.operand 1).indexReg != .none && (ins.operand 1).scale == 4

/-- An instruction with the base as its first operand. -/
def isBaseWrite (is64bit : Bool) (base : ZydisRegister) (ins : DecodedInsn) : Bool :=
  decide (ins.operands.length ≠ 0) && firstIs is64bit base ins

/-- The base that an instruction sets: `lea base, [rip+disp]` or `mov base, imm`. -/
def baseOf (ins : DecodedInsn) : Option UInt64 :=
  if ins.mnem = .lea ∧ 2 ≤ ins.operands.length ∧ (ins.operand 1).kind = .ripRel then
    some (ins.va + ins.length + asU64 (ins.operand 1).disp)
  else if ins.mnem = .mov ∧ 2 ≤ ins.operands.length ∧ (ins.operand 1).kind = .imm then
    some (ins.operand 1).imm
  else none

/-- A copy of a register to the index. -/
def isIndexCopy (is64bit : Bool) (index : ZydisRegister) (ins : DecodedInsn) : Bool :=
  isMovish ins && decide (2 ≤ ins.operands.length) && firstIs is64bit index ins &&
    isReg (ins.operand 1)

/-- `cmp reg, N` for one of the registers. -/
def isBoundCheck (is64bit : Bool) (boundRegs : List ZydisRegister) (ins : DecodedInsn) : Bool :=
  ins.mnem == .cmp && decide (2 ≤ ins.operands.length) && isReg (ins.operand 0) &&
    (ins.operand 1).kind == .imm &&
    boundRegs.contains (enclosing (ins.operand 0).baseReg is64bit)

/-! ### The parts of a dispatch -/

/-- The registers that the bound may be checked on: the index and what was copied to it last. -/
def boundRegisters (window : List DecodedInsn) (is64bit : Bool) (index : ZydisRegister)
    (loadPos : ℕ) : List ZydisRegister :=
  match Search.lastBefore window (isIndexCopy is64bit index) loadPos with
  | none => [index]
  | some (_, ins) => [index, enclosing (ins.operand 1).baseReg is64bit]

/-- The first conditional jump of the three instructions after a comparison, before the load. -/
def guardAfter (window : List DecodedInsn) (cmpPos loadPos : ℕ) : Option DecodedInsn :=
  ((window.take loadPos).drop (cmpPos + 1)).take 3 |>.find? fun ins =>
    ins.isJump && ins.isConditional

/-- The number of cases that a comparison with `n` leaves: `jae` excludes `n` itself. -/
def entriesOf (n : UInt64) (branch : Option DecodedInsn) : UInt64 :=
  match branch with
  | none => n + 1
  | some ins => if ins.mnem = .j .nb ∨ ins.mnem = .j .nl then n else n + 1

/-- The number of cases of the comparison nearest to the load. -/
def caseCount (window : List DecodedInsn) (is64bit : Bool) (boundRegs : List ZydisRegister)
    (loadPos : ℕ) : Option UInt64 :=
  (Search.lastBefore window (isBoundCheck is64bit boundRegs) loadPos).map fun (cmpPos, ins) =>
    entriesOf (ins.operand 1).imm (guardAfter window cmpPos loadPos)

/-! ### The table -/

/-- The target of an entry: it is read, biased by the base and inside the range. -/
def entryTarget (baseVa tableVa : UInt64) (scale : UInt8) (rangeLo rangeHi : UInt64)
    (readU32 : TableReader) (k : ℕ) : Option UInt64 :=
  match readU32 (tableVa + UInt64.ofNat k * scale.toUInt64) with
  | none => none
  | some entry =>
    let target := baseVa + entry.toUInt64
    if target < rangeLo ∨ target ≥ rangeHi then none else some target

/-- `resolve_indexed_jump_table`. -/
def resolveIndexedJumpTable (window : List DecodedInsn) (is64bit : Bool) (rangeLo rangeHi : UInt64)
    (readU32 : TableReader) : Option JumpTableTargets :=
  match window.getLast? with
  | none => none
  | some jmp =>
    if ¬jmp.isJump ∨ jmp.isConditional ∨ jmp.branchTarget.isSome then none
    else if jmp.operands.length = 0 ∨ ¬isReg (jmp.operand 0) then none
    else
      let tgt := enclosing (jmp.operand 0).baseReg is64bit
      if tgt = .none then none
      else
        match Search.lastBefore window (isBiasAdd is64bit tgt) (window.length - 1) with
        | none => none
        | some (addPos, add) =>
          let base := enclosing (add.operand 1).baseReg is64bit
          if base = .none then none
          else
            match Search.lastBefore window (isTableLoad is64bit tgt base) addPos with
            | none => none
            | some (loadPos, load) =>
              let index := enclosing (load.operand 1).indexReg is64bit
              let scale := (load.operand 1).scale
              match (Search.lastBefore window (isBaseWrite is64bit base) loadPos).bind
                  fun (_, ins) => baseOf ins with
              | none => none
              | some baseVa =>
                match caseCount window is64bit (boundRegisters window is64bit index loadPos)
                    loadPos with
                | none => none
                | some count =>
                  if count = 0 ∨ count > kMaxJumpTableEntries then none
                  else
                    let tableVa := baseVa + asU64 (load.operand 1).disp
                    let targets := Search.collect
                      (entryTarget baseVa tableVa scale rangeLo rangeHi readU32) count.toNat 0
                    if targets = [] then none
                    else some
                      { targets, tableVa, tableSize := count * scale.toUInt64 }

end Papa.JumpTables
