import Papa.Emu.Memory
import Papa.Emu.Registers

/-!
# Operands

The decoder gives every operand a kind, and fields that depend on the kind. The emulator reads and
writes an operand through its kind: a register, an immediate, a target, or memory at an address that
is computed from the fields and the registers.

## Main definitions

* `ZydisOperand`, `classify`, `translateOperand`: operands as they are decoded.
* `Mnemonic`, `DecodedInsn`: instructions.
* `Emulator.getOperAddr`, `Emulator.getOperValue`, `Emulator.setOperValue`.
-/

namespace Papa.Emu

/-! ### Decoded operands -/

/-- The kinds of operands. -/
inductive OperandKind
  | imm
  | immMem
  | pcRel
  | ripRel
  | reg
  | regMem
  | sib
  | unknown
  deriving DecidableEq

/-- A decoded operand. The fields that its kind does not use have their defaults. -/
structure DecodedOperand where
  kind : OperandKind := .unknown
  baseReg : ZydisRegister := .none
  indexReg : ZydisRegister := .none
  scale : UInt8 := 0
  disp : ℤ := 0
  imm : UInt64 := 0
  widthBytes : ℕ := 0
  sibEncoded : Bool := false
  deriving DecidableEq

/-- An operand of the decoder library, with its size in bits. -/
inductive ZydisOperand
  | register (size : ℕ) (value : ZydisRegister)
  | memory (size : ℕ) (base index : ZydisRegister) (scale : UInt8) (disp : Option ℤ)
  | immediate (size : ℕ) (value : UInt64) (isRelative : Bool)
  | pointer (size : ℕ)
  | unused (size : ℕ)

/-- `is_ip_register`. -/
def isIpRegister (r : ZydisRegister) : Bool := r == .rip || r == .eip || r == .ip

/-- The kind of an operand of an instruction with or without a SIB byte. -/
def classify (op : ZydisOperand) (hasSib : Bool) : OperandKind :=
  match op with
  | .register .. => .reg
  | .immediate _ _ isRelative => if isRelative then .pcRel else .imm
  | .memory _ base index _ _ =>
    if isIpRegister base then .ripRel
    else if base = .none ∧ index = .none then if hasSib then .sib else .immMem
    else if index ≠ .none then .sib
    else .regMem
  | .pointer _ => .unknown
  | .unused _ => .unknown

/-- An operand as it is decoded. -/
def translateOperand (op : ZydisOperand) (hasSib : Bool) : DecodedOperand :=
  match op with
  | .register size value =>
    { kind := classify op hasSib, widthBytes := size / 8, baseReg := value }
  | .memory size base index scale disp =>
    { kind := classify op hasSib, widthBytes := size / 8, baseReg := base, indexReg := index
      scale, disp := disp.getD 0, sibEncoded := hasSib }
  | .immediate size value _ => { kind := classify op hasSib, widthBytes := size / 8, imm := value }
  | .pointer size => { kind := classify op hasSib, widthBytes := size / 8 }
  | .unused size => { kind := classify op hasSib, widthBytes := size / 8 }

/-- An operand of the decoder library has its size: a register has its own. -/
def ZydisOperand.Sized : ZydisOperand → Prop
  | .register size value => size = 8 * value.widthBytes
  | _ => True

/-- A register of its size is an operand of that size. -/
theorem widthBytes_of_kind_reg {z : ZydisOperand} {hasSib : Bool} {op : DecodedOperand}
    (hsized : z.Sized) (hop : op = translateOperand z hasSib) (hreg : op.kind = .reg) :
    op.widthBytes = op.baseReg.widthBytes := by
  subst hop
  cases z with
  | register size reg =>
    show size / 8 = reg.widthBytes
    rw [show size = 8 * reg.widthBytes from hsized]
    exact Nat.mul_div_cancel_left _ (by decide)
  | memory size base index scale disp =>
    simp only [translateOperand, classify] at hreg
    split_ifs at hreg
  | immediate size value isRelative =>
    simp only [translateOperand, classify] at hreg
    split_ifs at hreg
  | pointer size => exact absurd hreg nofun
  | unused size => exact absurd hreg nofun

/-! ### Instructions -/

/-- The conditions of jumps, moves and sets. -/
inductive Cond
  | b | nb | be | nbe | z | nz | l | nl | le | nle | o | no | s | ns | p | np
  deriving DecidableEq

/-- The mnemonics the emulator tells apart. -/
inductive Mnemonic
  | mov | movzx | movsx | movsxd | lea | push | pop | add | adc | sub | sbb | cmp | inc | dec | neg
  | and | test | or | xor | not | call | jmp | j (c : Cond) | jcxz | jecxz | ret | leave
  | shl | shr | sar | mul | imul | div | idiv | cdq | cwd | cbw | cwde | cdqe | cqo | set (c : Cond)
  | nop | int | int1 | int3 | ud0 | ud1 | ud2 | «in» | out
  | movups | movupd | movaps | movapd | movdqu | movdqa | lddqu | movq | movd | movss | movsd
  | xorps | xorpd | pxor | psrldq | pslldq | cmov (c : Cond) | bt | bts | btr | btc
  | rol | ror | xchg | xadd | cmpxchg | hlt | other (n : ℕ)
  deriving DecidableEq

/-- A decoded instruction, with the operands in use. -/
structure DecodedInsn where
  va : UInt64
  length : UInt64
  mnem : Mnemonic
  operands : List DecodedOperand
  isCall : Bool := false
  isJump : Bool := false
  isConditional : Bool := false
  isReturn : Bool := false
  branchTarget : Option UInt64 := none
  isFallthrough : Bool := true
  deriving DecidableEq

/-- An operand. One that is not in use has every default. -/
def DecodedInsn.operand (insn : DecodedInsn) (idx : ℕ) : DecodedOperand := insn.operands.getD idx {}

/-! ### The operands of an emulator -/

/-- The state of the emulator. -/
structure Emulator where
  regs : RegisterFile
  mem : SandboxMemory := {}

namespace Emulator

variable (e : Emulator)

/-- Whether the machine is the one of 64 bits. -/
def is64bit : Bool := e.regs.is64bit

/-- `addr_mask`. -/
def addrMask : UInt64 := if e.is64bit then 0xFFFFFFFFFFFFFFFF else 0xFFFFFFFF

/-- `ptr_size`. -/
def ptrSize : ℕ := if e.is64bit then 8 else 4

/-- The program counter. -/
def programCounter : UInt64 := e.regs.get (.real e.regs.pcIndex)

/-- Write a register. -/
def setRegister (i : RegIndex) (value : UInt64) : Emulator := { e with regs := e.regs.set i value }

/-- Write the program counter. -/
def setProgramCounter (va : UInt64) : Emulator := e.setRegister (.real e.regs.pcIndex) va

/-- Write a flag. -/
def setFlag (which : UInt64) (state : Bool) : Emulator :=
  { e with regs := e.regs.setFlag which state }

/-- The value of a register of an instruction. -/
def registerValue (reg : ZydisRegister) : UInt64 :=
  match regIndexFromZydis e.is64bit reg with
  | none => 0
  | some i => e.regs.get i

/-- The address of an operand in memory. -/
def getOperAddr (insn : DecodedInsn) (idx : ℕ) : UInt64 :=
  let op := insn.operand idx
  match op.kind with
  | .regMem => (e.registerValue op.baseReg + asU64 op.disp) &&& e.addrMask
  | .immMem => op.imm &&& e.addrMask
  | .sib =>
    let base := if op.baseReg ≠ .none then e.registerValue op.baseReg else 0
    let index :=
      if op.indexReg ≠ .none then e.registerValue op.indexReg * op.scale.toUInt64 else 0
    (base + index + asU64 op.disp) &&& e.addrMask
  | .ripRel => (insn.va + insn.length + asU64 op.disp) &&& e.addrMask
  | _ => 0

/-- The value of an operand. -/
def getOperValue (insn : DecodedInsn) (idx : ℕ) : UInt64 :=
  let op := insn.operand idx
  match op.kind with
  | .reg => e.registerValue op.baseReg
  | .imm => op.imm
  | .pcRel =>
    match insn.branchTarget with
    | some target => target
    | none => (insn.va + insn.length + op.imm) &&& e.addrMask
  | .regMem | .immMem | .sib | .ripRel =>
    e.mem.readValue (e.getOperAddr insn idx) (UInt64.ofNat op.widthBytes)
  | .unknown => 0

/-- Write an operand. One that cannot be written is left alone. -/
def setOperValue (insn : DecodedInsn) (idx : ℕ) (value : UInt64) : Emulator :=
  let op := insn.operand idx
  match op.kind with
  | .reg =>
    match regIndexFromZydis e.is64bit op.baseReg with
    | some i => e.setRegister i value
    | none => e
  | .regMem | .immMem | .sib | .ripRel =>
    { e with mem := e.mem.writeValue (e.getOperAddr insn idx) value op.widthBytes }
  | .imm | .pcRel | .unknown => e

end Emulator

end Papa.Emu
