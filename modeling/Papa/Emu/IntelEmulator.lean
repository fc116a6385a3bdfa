import Papa.Emu.Operands

/-!
# Instructions

The handlers of the emulator, as the source computes them: operands are read, flags are computed
from intermediate results of 64 bits, and the result is written. A handler may have no result, where
the arithmetic of the source has none.

## Main definitions

* `intSubBase`, `opAdd`, `udiv128`: the cores that handlers share.
* `executeOpcode`: one instruction.
-/

namespace Papa.Emu

open Bits

/-- Outcomes of an instruction. -/
inductive ExecResult
  | continue
  | unsupported
  | breakpoint
  | badOpcode
  | divideByZero
  | outInstruction
  deriving DecidableEq

/-- The operand size of an instruction. -/
def DecodedInsn.dsize (insn : DecodedInsn) : ℕ :=
  if insn.operands.isEmpty then 4 else (insn.operand 0).widthBytes

/-! ### Arithmetic cores -/

/-- The high half of a product. -/
def umulHi (a b : UInt64) : UInt64 :=
  let aLo := a &&& 0xFFFFFFFF
  let aHi := a >>> 32
  let bLo := b &&& 0xFFFFFFFF
  let bHi := b >>> 32
  let ll := aLo * bLo
  let lh := aLo * bHi
  let hl := aHi * bLo
  let hh := aHi * bHi
  let cross := (ll >>> 32) + (lh &&& 0xFFFFFFFF) + (hl &&& 0xFFFFFFFF)
  hh + (lh >>> 32) + (hl >>> 32) + (cross >>> 32)

/-- The high half of a signed product. -/
def smulHi (a b : UInt64) : UInt64 :=
  let hi := umulHi a b
  let hi := if a >>> 63 ≠ 0 then hi - b else hi
  if b >>> 63 ≠ 0 then hi - a else hi

/-- One turn of the division of 128 bits: the remainder takes in a bit of the dividend. -/
def udiv128Step (d : UInt64) (r : UInt64 × UInt64) (bit : UInt64) : UInt64 × UInt64 :=
  let remTop := r.2 >>> 63
  let rem := r.2 <<< 1 ||| bit
  let quot := r.1 <<< 1
  -- The top bit of a remainder of 65 bits stands for more than any divisor.
  if remTop ≠ 0 ∨ rem ≥ d then (quot ||| 1, rem - d) else (quot, rem)

/-- Bit `i` of a dividend in two halves. -/
def dividendBit (hi lo : UInt64) (i : ℕ) : UInt64 :=
  if i ≥ 64 then (hi >>> UInt64.ofNat (i - 64)) &&& 1 else (lo >>> UInt64.ofNat i) &&& 1

/-- The quotient and the remainder of a dividend in two halves, from the highest bit down. -/
def udiv128 (hi lo d : UInt64) : UInt64 × UInt64 :=
  (List.range 128).reverse.foldl (fun r i => udiv128Step d r (dividendBit hi lo i)) (0, 0)

/-- The lane of a general register for a size. -/
def gpLane (base : Slot) (size : ℕ) (is64bit : Bool) : RegIndex :=
  if size = 1 then .lane 0 8 base
  else if size = 2 then .lane 0 16 base
  else if size = 4 ∧ is64bit then .lane 0 32 base
  else .real base

namespace Emulator

variable (e : Emulator)

/-- Push a value. -/
def doPush (value : UInt64) (size : ℕ) : Emulator :=
  let esp := e.regs.get kRegEsp - UInt64.ofNat size
  { e with mem := e.mem.writeValue esp value size }.setRegister kRegEsp esp

/-- Pop a value. -/
def doPop (size : ℕ) : UInt64 × Emulator :=
  let esp := e.regs.get kRegEsp
  (e.mem.readValue esp (UInt64.ofNat size), e.setRegister kRegEsp (esp + UInt64.ofNat size))

/-- Write flags, in order. -/
def setFlags (flags : List (UInt64 × Bool)) : Emulator :=
  flags.foldl (fun e flag => e.setFlag flag.1 flag.2) e

/-- The flags of a subtraction, and its result. -/
def intSubBase (src dst : UInt64) (ssize dsize : ℕ) : Defined (UInt64 × Emulator) := do
  let usrc := unsigned src ssize
  let udst := unsigned dst dsize
  let ures ← I64.sub (asI64 udst) (asI64 usrc)
  let sres ← I64.sub (signed dst dsize) (signed src ssize)
  pure (asU64 ures, e.setFlags [
    (kEflagsOf, isSignedOverflow sres dsize),
    (kEflagsAf, isAuxCarrySub usrc udst),
    (kEflagsCf, isUnsignedCarry ures dsize),
    (kEflagsSf, isSigned (asU64 ures) dsize),
    (kEflagsZf, sres == 0),
    (kEflagsPf, isParityByte (asU64 ures))])

/-- The source operand and its size, extended to the size of the destination when they differ. -/
def extendedSource (insn : DecodedInsn) : Defined (UInt64 × ℕ) :=
  let dsize := (insn.operand 0).widthBytes
  let ssize := (insn.operand 1).widthBytes
  let src := e.getOperValue insn 1
  if dsize ≠ ssize then do pure (← signExtend src ssize dsize, dsize) else pure (src, ssize)

/-- The subtraction of `sub` and `cmp`. -/
def integerSubtraction (insn : DecodedInsn) : Defined (UInt64 × Emulator) := do
  let src ← e.extendedSource insn
  e.intSubBase src.1 (e.getOperValue insn 0) src.2 (insn.operand 0).widthBytes

/-- The conjunction of `and` and `test`. -/
def logicalAnd (insn : DecodedInsn) : Defined (UInt64 × Emulator) := do
  let dsize := (insn.operand 0).widthBytes
  let src ← e.extendedSource insn
  let res := unsigned src.1 src.2 &&& unsigned (e.getOperValue insn 0) dsize
  pure (res, e.setFlags [
    (kEflagsAf, false),
    (kEflagsOf, false),
    (kEflagsCf, false),
    (kEflagsSf, isSigned res dsize),
    (kEflagsZf, res == 0),
    (kEflagsPf, isParityByte res)])

/-- Operand `idx` and its size, extended to the size of the destination when that is greater. -/
def widenedSource (insn : DecodedInsn) (idx : ℕ) : Defined (UInt64 × ℕ) :=
  let dsize := insn.dsize
  let ssize := (insn.operand idx).widthBytes
  let src := e.getOperValue insn idx
  if dsize > ssize then do pure (← signExtend src ssize dsize, dsize) else pure (src, ssize)

/-- The addition of `add` and `adc`. -/
def opAdd (insn : DecodedInsn) (carryIn : Bool) : Defined Emulator := do
  let dsize := insn.dsize
  let dst := e.getOperValue insn 0
  let (src, ssize) ← e.widenedSource insn 1
  let cf : UInt64 := if carryIn && e.regs.getFlag kEflagsCf then 1 else 0
  let ures := unsigned dst dsize + unsigned src ssize + cf
  let sres ← I64.add (signed dst dsize) (signed src ssize)
  let sres ← I64.add sres (asI64 cf)
  pure ((e.setFlags [
    (kEflagsCf, isUnsignedCarry (asI64 ures) dsize),
    (kEflagsPf, isParityByte ures),
    (kEflagsAf, isAuxCarry src dst),
    (kEflagsZf, ures == 0),
    (kEflagsSf, isSigned ures dsize),
    (kEflagsOf, isSignedOverflow sres dsize)]).setOperValue insn 0 ures)

/-! ### Moves -/

/-- `mov` and `movzx`. -/
def opMov (insn : DecodedInsn) : Emulator := e.setOperValue insn 0 (e.getOperValue insn 1)

/-- `movsx` and `movsxd`. -/
def opMovsx (insn : DecodedInsn) : Defined Emulator := do
  let v ← signExtend (e.getOperValue insn 1) (insn.operand 1).widthBytes insn.dsize
  pure (e.setOperValue insn 0 v)

/-- `lea`. -/
def opLea (insn : DecodedInsn) : Emulator := e.setOperValue insn 0 (e.getOperAddr insn 1)

/-- `xchg`: both values are read first. -/
def opXchg (insn : DecodedInsn) : Emulator :=
  let a := e.getOperValue insn 0
  let b := e.getOperValue insn 1
  (e.setOperValue insn 0 b).setOperValue insn 1 a

/-- The size of a value on the stack. -/
def stackSize (insn : DecodedInsn) : ℕ := if insn.dsize = 2 then 2 else e.ptrSize

/-- `push`. -/
def opPush (insn : DecodedInsn) : Defined Emulator := do
  let psize := e.stackSize insn
  let v := e.getOperValue insn 0
  let v ← if (insn.operand 0).kind = .imm ∧ insn.dsize < psize then signExtend v insn.dsize psize
    else pure v
  pure (e.doPush v psize)

/-- `pop`. -/
def opPop (insn : DecodedInsn) : Emulator :=
  let (v, e) := e.doPop (e.stackSize insn)
  e.setOperValue insn 0 v

/-- `leave`. -/
def opLeave : Emulator :=
  let e := e.setRegister kRegEsp (e.regs.get kRegEbp)
  let (v, e) := e.doPop e.ptrSize
  e.setRegister kRegEbp v

/-- `ret`: the target, and the state after the pop. -/
def opRet (insn : DecodedInsn) : UInt64 × Emulator :=
  let (ret, e) := e.doPop e.ptrSize
  (ret, if insn.operands.length > 0 then
    e.setRegister kRegEsp (e.regs.get kRegEsp + e.getOperValue insn 0) else e)

/-! ### Sums and differences -/

/-- `sub`. -/
def opSub (insn : DecodedInsn) : Defined Emulator := do
  let (res, e) ← e.integerSubtraction insn
  pure (e.setOperValue insn 0 (unsigned res insn.dsize))

/-- `sbb`: the carry is added to the source. -/
def opSbb (insn : DecodedInsn) : Defined Emulator := do
  let src ← e.extendedSource insn
  let carry : UInt64 := if e.regs.getFlag kEflagsCf then 1 else 0
  let (res, e) ← e.intSubBase (src.1 + carry) (e.getOperValue insn 0) src.2 insn.dsize
  pure (e.setOperValue insn 0 res)

/-- `cmp`. -/
def opCmp (insn : DecodedInsn) : Defined Emulator := do
  let (_, e) ← e.integerSubtraction insn
  pure e

/-- `inc`. -/
def opInc (insn : DecodedInsn) : Defined Emulator := do
  let dsize := insn.dsize
  let sval ← I64.add (signed (e.getOperValue insn 0) dsize) 1
  pure ((e.setOperValue insn 0 (asU64 sval)).setFlags [
    (kEflagsOf, isSignedOverflow sval dsize),
    (kEflagsSf, isSigned (asU64 sval) dsize),
    (kEflagsZf, sval == 0),
    (kEflagsAf, asU64 sval &&& 0xF == 0),
    (kEflagsPf, isParityByte (asU64 sval))])

/-- `dec`. -/
def opDec (insn : DecodedInsn) : Defined Emulator := do
  let dsize := insn.dsize
  let v := e.getOperValue insn 0
  let uval := unsigned v dsize
  let res ← I64.sub (asI64 v) 1
  pure ((e.setOperValue insn 0 (asU64 res)).setFlags [
    (kEflagsOf, false),
    (kEflagsSf, isSigned (asU64 res) dsize),
    (kEflagsZf, res == 0),
    (kEflagsAf, isAuxCarrySub 1 uval),
    (kEflagsPf, isParityByte (asU64 res))])

/-- `neg`. -/
def opNeg (insn : DecodedInsn) : Defined Emulator := do
  let val := e.getOperValue insn 0
  let res ← I64.sub 0 (asI64 val)
  pure ((e.setOperValue insn 0 (asU64 res)).setFlags [
    (kEflagsCf, val != 0),
    (kEflagsZf, res == 0),
    (kEflagsSf, isSigned (asU64 res) insn.dsize),
    (kEflagsAf, isAuxCarry val (asU64 res)),
    (kEflagsPf, isParityByte (asU64 res))])

/-- `xadd`: the source is written first. -/
def opXadd (insn : DecodedInsn) : Emulator :=
  let dst := e.getOperValue insn 0
  let src := e.getOperValue insn 1
  let sum := unsigned (dst + src) insn.dsize
  ((e.setOperValue insn 1 dst).setOperValue insn 0 sum).setFlags [
    (kEflagsZf, sum == 0),
    (kEflagsCf, isUnsignedCarry (asI64 (dst + src)) insn.dsize),
    (kEflagsSf, isSigned sum insn.dsize),
    (kEflagsPf, isParityByte sum)]

/-- `cmpxchg`. -/
def opCmpxchg (insn : DecodedInsn) : Emulator :=
  let dsize := insn.dsize
  let acc := gpLane 0 dsize e.is64bit
  let dst := e.getOperValue insn 0
  if unsigned (e.regs.get acc) dsize = unsigned dst dsize then
    let e := e.setFlag kEflagsZf true
    e.setOperValue insn 0 (e.getOperValue insn 1)
  else (e.setFlag kEflagsZf false).setRegister acc dst

/-! ### Logic -/

/-- `and`. -/
def opAnd (insn : DecodedInsn) : Defined Emulator := do
  let (res, e) ← e.logicalAnd insn
  pure (e.setOperValue insn 0 res)

/-- `test`. -/
def opTest (insn : DecodedInsn) : Defined Emulator := do
  let (_, e) ← e.logicalAnd insn
  pure e

/-- `or`. -/
def opOr (insn : DecodedInsn) : Defined Emulator := do
  let dsize := insn.dsize
  let ssize := (insn.operand 1).widthBytes
  let dst := e.getOperValue insn 0
  let src := e.getOperValue insn 1
  let src ← if dsize ≠ ssize then signExtend src ssize dsize else pure src
  let res := dst ||| src
  pure ((e.setOperValue insn 0 res).setFlags [
    (kEflagsOf, false),
    (kEflagsCf, false),
    (kEflagsSf, isSigned res dsize),
    (kEflagsZf, res == 0),
    (kEflagsPf, isParityByte res)])

/-- `xor`. -/
def opXor (insn : DecodedInsn) : Emulator :=
  let res := e.getOperValue insn 1 ^^^ e.getOperValue insn 0
  (e.setOperValue insn 0 res).setFlags [
    (kEflagsCf, false),
    (kEflagsOf, false),
    (kEflagsSf, isSigned res insn.dsize),
    (kEflagsZf, res == 0),
    (kEflagsPf, isParityByte res),
    (kEflagsAf, false)]

/-- `not`. -/
def opNot (insn : DecodedInsn) : Emulator :=
  e.setOperValue insn 0 (e.getOperValue insn 0 ^^^ uMax insn.dsize)

/-! ### Shifts and bits -/

/-- The count of a shift or a rotation. -/
def shiftCount (insn : DecodedInsn) : UInt64 :=
  e.getOperValue insn 1 &&& (if insn.dsize = 8 then 0x3F else 0x1F)

/-- `shl`. The carry is the last bit shifted out. -/
def opShl (insn : DecodedInsn) : Defined Emulator := do
  let dsize := insn.dsize
  let dst := e.getOperValue insn 0
  let src := e.shiftCount insn
  if src = 0 then pure e
  else
    let shifted ← U64.shl dst src
    let last ← U64.shr dst (UInt64.ofNat (8 * dsize) - src)
    let cf := last &&& 1
    let res := unsigned shifted dsize
    pure ((e.setFlags [
      (kEflagsCf, cf != 0),
      (kEflagsSf, isSigned res dsize),
      (kEflagsZf, res == 0),
      (kEflagsPf, isParityByte res),
      (kEflagsOf, if src = 1 then (if msb res dsize then 1 else 0) != cf else false),
      (kEflagsAf, false)]).setOperValue insn 0 res)

/-- `shr`. -/
def opShr (insn : DecodedInsn) : Defined Emulator := do
  let dsize := insn.dsize
  let dst := e.getOperValue insn 0
  let src := e.shiftCount insn
  if src = 0 then pure e
  else
    let shifted ← U64.shr dst src
    let last ← U64.shr dst (src - 1)
    let res := unsigned shifted dsize
    pure ((e.setFlags [
      (kEflagsCf, last &&& 1 != 0),
      (kEflagsSf, isSigned res dsize),
      (kEflagsZf, res == 0),
      (kEflagsPf, isParityByte res),
      (kEflagsOf, src == 1 && msb dst dsize)]).setOperValue insn 0 res)

/-- The bits that `sar` fills with the sign. -/
def signFill (dst src : UInt64) (dsize : ℕ) : Defined UInt64 :=
  if msb dst dsize then do
    let x := UInt64.ofNat (8 * dsize) - src
    let high ← U64.shr (uMax dsize) x
    U64.shl high x
  else pure 0

/-- `sar`. -/
def opSar (insn : DecodedInsn) : Defined Emulator := do
  let dsize := insn.dsize
  let dst := e.getOperValue insn 0
  let src := e.shiftCount insn
  if src = 0 then pure e
  else
    let shifted ← U64.shr dst src
    let fill ← signFill dst src dsize
    let last ← U64.shr dst (src - 1)
    let res := unsigned (shifted ||| fill) dsize
    pure ((e.setFlags [
      (kEflagsCf, last &&& 1 != 0),
      (kEflagsSf, isSigned res dsize),
      (kEflagsZf, res == 0),
      (kEflagsPf, isParityByte res),
      (kEflagsOf, false),
      (kEflagsAf, false)]).setOperValue insn 0 res)

/-- `rol`. -/
def opRol (insn : DecodedInsn) : Defined Emulator := do
  let dsize := insn.dsize
  let dst := unsigned (e.getOperValue insn 0) dsize
  let bitw := UInt64.ofNat (8 * dsize)
  let cnt ← U64.mod (e.shiftCount insn) bitw
  if cnt = 0 then pure e
  else
    let high ← U64.shl dst cnt
    let low ← U64.shr dst (bitw - cnt)
    let res := unsigned (high ||| low) dsize
    pure ((e.setOperValue insn 0 res).setFlag kEflagsCf (res &&& 1 != 0))

/-- `ror`. -/
def opRor (insn : DecodedInsn) : Defined Emulator := do
  let dsize := insn.dsize
  let dst := unsigned (e.getOperValue insn 0) dsize
  let bitw := UInt64.ofNat (8 * dsize)
  let cnt ← U64.mod (e.shiftCount insn) bitw
  if cnt = 0 then pure e
  else
    let low ← U64.shr dst cnt
    let high ← U64.shl dst (bitw - cnt)
    let res := unsigned (low ||| high) dsize
    let top ← U64.shr res (bitw - 1)
    pure ((e.setOperValue insn 0 res).setFlag kEflagsCf (top != 0))

/-- `bt`, `bts`, `btr` and `btc`: `change` is what becomes of the operand. -/
def opBitTest (insn : DecodedInsn) (change : Option (UInt64 → UInt64 → UInt64)) :
    Defined Emulator := do
  let dst := e.getOperValue insn 0
  let bitidx ← U64.mod (e.getOperValue insn 1) (8 * UInt64.ofNat insn.dsize)
  let mask ← U64.shl 1 bitidx
  let e := e.setFlag kEflagsCf (dst &&& mask != 0)
  match change with
  | none => pure e
  | some f => pure (e.setOperValue insn 0 (f dst mask))

/-! ### Products and quotients -/

/-- `mul`. -/
def opMul (insn : DecodedInsn) : Defined Emulator := do
  let dsize := insn.dsize
  let val := e.getOperValue insn 0
  let eax := gpLane 0 dsize e.is64bit
  let edx := gpLane 2 dsize e.is64bit
  let a := e.regs.get eax
  if dsize = 8 then
    let hi := umulHi a val
    pure (((e.setRegister kRegRax (a * val)).setRegister kRegRdx hi).setFlags [
      (kEflagsCf, hi != 0), (kEflagsOf, hi != 0)])
  else
    let res := a * val
    let high ← U64.shr res (UInt64.ofNat (8 * dsize))
    let e := if dsize = 1 then e.setRegister kRegAx res
      else (e.setRegister eax (res &&& uMax dsize)).setRegister edx (high &&& uMax dsize)
    pure (e.setFlags [(kEflagsCf, high != 0), (kEflagsOf, high != 0)])

/-- `imul` of 64 bits with one operand: the product spans two registers. -/
def imulWide (insn : DecodedInsn) : UInt64 × Emulator :=
  let aval := e.regs.get kRegRax
  let bval := e.getOperValue insn 0
  let lo := aval * bval
  let hi := smulHi aval bval
  let fits := (lo >>> 63 == 0 && hi == 0) || (lo >>> 63 != 0 && hi == 0xFFFFFFFFFFFFFFFF)
  (lo, ((e.setRegister kRegRax lo).setRegister kRegRdx hi).setFlags [
    (kEflagsCf, !fits), (kEflagsOf, !fits)])

/-- `imul` of up to 32 bits with one operand. -/
def imulOne (insn : DecodedInsn) : Defined (UInt64 × Emulator) := do
  let dsize := insn.dsize
  let eax := gpLane 0 dsize e.is64bit
  let edx := gpLane 2 dsize e.is64bit
  let sres ← I64.mul (signed (e.regs.get eax) dsize) (signed (e.getOperValue insn 0) dsize)
  let res := asU64 sres
  let high ← U64.shr res (UInt64.ofNat (8 * dsize))
  let e := if dsize = 1 then e.setRegister kRegAx res
    else (e.setRegister eax (res &&& uMax dsize)).setRegister edx (high &&& uMax dsize)
  let of := isUnsignedCarry sres dsize
  pure (res, e.setFlags [(kEflagsCf, of), (kEflagsOf, of)])

/-- `imul` with two operands or three: the product of the last two. -/
def imulMany (insn : DecodedInsn) : Defined (UInt64 × Emulator) := do
  let lhs := if insn.operands.length = 3 then 1 else 0
  let (b, _) ← e.widenedSource insn (lhs + 1)
  let res := e.getOperValue insn lhs * b
  let of := decide (res > uMax insn.dsize)
  pure (res, (e.setFlags [(kEflagsCf, of), (kEflagsOf, of)]).setOperValue insn 0 res)

/-- The product of `imul`. -/
def imulProduct (insn : DecodedInsn) : Defined (UInt64 × Emulator) :=
  if insn.operands.length ≠ 1 then e.imulMany insn
  else if insn.dsize = 8 then pure (e.imulWide insn)
  else e.imulOne insn

/-- `imul`. -/
def opImul (insn : DecodedInsn) : Defined Emulator := do
  let (res, e) ← e.imulProduct insn
  pure (e.setFlags [(kEflagsPf, isParityByte res), (kEflagsSf, false)])

/-- Write a quotient and a remainder. -/
def setQuotRem (quot rem : RegIndex) (q r : UInt64) : Emulator :=
  (e.setRegister quot q).setRegister rem r

/-- `div` by a value that is not zero. -/
def opDiv (insn : DecodedInsn) : Defined Emulator := do
  let val := e.getOperValue insn 0
  let eax := gpLane 0 4 e.is64bit
  let edx := gpLane 2 4 e.is64bit
  if insn.dsize = 1 then
    let ax := e.regs.get kRegAx
    let q ← U64.div ax val
    let r ← U64.mod ax val
    pure (e.setRegister kRegEax ((q <<< 8) + r))
  else if insn.dsize = 2 then
    let tot := (e.regs.get kRegDx <<< 16) + e.regs.get kRegAx
    let q ← U64.div tot val
    let r ← U64.mod tot val
    pure (e.setQuotRem kRegAx kRegDx q r)
  else if insn.dsize = 4 then
    let tot := (e.regs.get edx <<< 32) + e.regs.get eax
    let q ← U64.div tot val
    let r ← U64.mod tot val
    pure (e.setQuotRem eax edx q r)
  else
    let dr := udiv128 (e.regs.get kRegRdx) (e.regs.get kRegRax) val
    pure (e.setQuotRem kRegRax kRegRdx dr.1 dr.2)

/-- The magnitude of a signed number. -/
def magnitude (val : ℤ) : Defined ℤ := if val < 0 then I64.neg val else pure val

/-- The quotient and the remainder of `idiv` up to 32 bits: those of the magnitudes, negated when
the signs differ. -/
def signedQuotRem (val d : ℤ) : Defined (ℤ × ℤ) := do
  let q ← I64.div (← magnitude val) (← magnitude d)
  let r ← I64.mod (← magnitude val) (← magnitude d)
  if (val < 0) ≠ (d < 0) then pure (← I64.neg q, ← I64.neg r) else pure (q, r)

/-- The quotient and the remainder of `idiv` of 128 bits by 64. -/
def idiv128 (hi lo uval : UInt64) : UInt64 × UInt64 :=
  let dividendNeg := hi >>> 63 ≠ 0
  let divisorNeg := uval >>> 63 ≠ 0
  let lo' := if dividendNeg then ~~~lo + 1 else lo
  let hi' := if dividendNeg then ~~~hi + (if lo' = 0 then 1 else 0) else hi
  let ud := if divisorNeg then ~~~uval + 1 else uval
  let dr := udiv128 hi' lo' ud
  (if dividendNeg ≠ divisorNeg then ~~~dr.1 + 1 else dr.1,
    if dividendNeg then ~~~dr.2 + 1 else dr.2)

/-- `idiv` by a value that is not zero. -/
def opIdiv (insn : DecodedInsn) : Defined Emulator := do
  let uval := e.getOperValue insn 0
  let eax := gpLane 0 4 e.is64bit
  let edx := gpLane 2 4 e.is64bit
  if insn.dsize = 1 then
    let (q, r) ← signedQuotRem (signed (e.regs.get kRegAx) 2) (signed uval 1)
    pure (e.setRegister kRegAx ((asU64 r &&& 0xFF) <<< 8 ||| asU64 q &&& 0xFF))
  else if insn.dsize = 2 then
    let (q, r) ← signedQuotRem (signed (e.regs.get kRegDx <<< 16 ||| e.regs.get kRegAx) 4)
      (signed uval 2)
    pure (e.setQuotRem kRegAx kRegDx (asU64 q) (asU64 r))
  else if insn.dsize = 4 then
    let (q, r) ← signedQuotRem (signed (e.regs.get edx <<< 32 ||| e.regs.get eax) 8)
      (signed uval 4)
    pure (e.setQuotRem eax edx (asU64 q) (asU64 r))
  else
    let dr := idiv128 (e.regs.get kRegRdx) (e.regs.get kRegRax) uval
    pure (e.setQuotRem kRegRax kRegRdx dr.1 dr.2)

/-! ### Widening of the accumulator -/

/-- `cdq`. -/
def opCdq : Emulator :=
  e.setRegister kRegEdx (if isSigned (e.regs.get kRegEax) 4 then 0xFFFFFFFF else 0)

/-- `cwd`. -/
def opCwd : Emulator := e.setRegister kRegDx (if isSigned (e.regs.get kRegAx) 2 then 0xFFFF else 0)

/-- `cbw`. -/
def opCbw : Defined Emulator :=
  do pure (e.setRegister kRegAx (← signExtend (e.regs.get kRegAl) 1 2))

/-- `cwde`. -/
def opCwde : Defined Emulator := do
  pure (e.setRegister (gpLane 0 4 e.is64bit) (← signExtend (e.regs.get kRegAx) 2 4))

/-- `cdqe`. -/
def opCdqe : Defined Emulator := do
  pure (e.setRegister kRegRax (← signExtend (e.regs.get (.lane 0 32 0)) 4 8))

/-- `cqo`. -/
def opCqo : Emulator :=
  e.setRegister kRegRdx (if isSigned (e.regs.get kRegRax) 8 then 0xFFFFFFFFFFFFFFFF else 0)

/-! ### Vectors -/

/-- `xmm_index`. -/
def xmmIndex : ZydisRegister → Option (Fin 16)
  | .xmm n => some n
  | _ => none

/-- A vector of the bytes at hand. -/
def xmmOfBytes (bytes : List UInt8) : Xmm := Vector.ofFn fun i : Fin 16 => bytes.getD i 0

/-- The lowest bytes of a vector. -/
def bytesOfXmm (value : Xmm) (width : ℕ) : List UInt8 :=
  (List.range width).map fun i => value.toList.getD i 0

/-- Byte `i` of a number. -/
def byteOfValue (v : UInt64) (i : ℕ) : Defined UInt8 := do
  let shifted ← U64.shr v (UInt64.ofNat (8 * i))
  pure (shifted &&& 0xFF).toUInt8

/-- `read_simd_oper`. -/
def readSimdOper (insn : DecodedInsn) (idx width : ℕ) : Defined Xmm :=
  let op := insn.operand idx
  if op.kind = .reg then
    match xmmIndex op.baseReg with
    | some xi => pure (e.regs.xmm xi)
    | none => do
      let bytes ← (List.range (min width 16)).mapM (byteOfValue (e.registerValue op.baseReg))
      pure (xmmOfBytes bytes)
  else pure (xmmOfBytes (e.mem.readBytes (e.getOperAddr insn idx) (UInt64.ofNat width)))

/-- `write_simd_oper`. -/
def writeSimdOper (insn : DecodedInsn) (idx : ℕ) (value : Xmm) (width : ℕ) : Emulator :=
  let op := insn.operand idx
  if op.kind = .reg then
    match xmmIndex op.baseReg with
    | some xi => { e with regs := e.regs.setXmm xi (xmmOfBytes (bytesOfXmm value (min width 16))) }
    | none =>
      match regIndexFromZydis e.is64bit op.baseReg with
      | some ri => e.setRegister ri (valueOfBytes (bytesOfXmm value width))
      | none => e
  else { e with mem := e.mem.write (e.getOperAddr insn idx) (bytesOfXmm value width) }

/-- The moves of vectors. -/
def opMovSimd (insn : DecodedInsn) (width : ℕ) : Defined Emulator := do
  pure (e.writeSimdOper insn 0 (← e.readSimdOper insn 1 width) width)

/-- `xorps`, `xorpd` and `pxor`. -/
def opPxor (insn : DecodedInsn) : Defined Emulator := do
  let a ← e.readSimdOper insn 0 16
  let b ← e.readSimdOper insn 1 16
  pure (e.writeSimdOper insn 0 (Vector.zipWith (· ^^^ ·) a b) 16)

/-- The count of `psrldq` and `pslldq`. -/
def byteShift (insn : DecodedInsn) : ℕ := min (e.getOperValue insn 1).toNat 16

/-- `psrldq`. -/
def opPsrldq (insn : DecodedInsn) : Defined Emulator := do
  let v ← e.readSimdOper insn 0 16
  pure (e.writeSimdOper insn 0 (xmmOfBytes (v.toList.drop (e.byteShift insn))) 16)

/-- `pslldq`. -/
def opPslldq (insn : DecodedInsn) : Defined Emulator := do
  let v ← e.readSimdOper insn 0 16
  pure (e.writeSimdOper insn 0
    (xmmOfBytes (List.replicate (e.byteShift insn) 0 ++ v.toList)) 16)

/-! ### Conditions -/

/-- Whether a condition holds of the flags. -/
def conditionMet (c : Cond) : Bool :=
  let cf := e.regs.getFlag kEflagsCf
  let zf := e.regs.getFlag kEflagsZf
  let sf := e.regs.getFlag kEflagsSf
  let of := e.regs.getFlag kEflagsOf
  let pf := e.regs.getFlag kEflagsPf
  match c with
  | .b => cf
  | .nb => !cf
  | .be => cf || zf
  | .nbe => !cf && !zf
  | .z => zf
  | .nz => !zf
  | .l => sf != of
  | .nl => sf == of
  | .le => (sf != of) || zf
  | .nle => !zf && (sf == of)
  | .o => of
  | .no => !of
  | .s => sf
  | .ns => !sf
  | .p => pf
  | .np => !pf

/-- Whether `jcxz` or `jecxz` is taken. -/
def countIsZero (reg : RegIndex) : Bool := e.regs.get reg == 0

/-! ### One instruction -/

/-- What a handler leaves: a result, the next program counter when it is not that of the next
instruction, and the state. -/
structure Outcome where
  result : ExecResult := .continue
  nextPc : Option UInt64 := none
  after : Emulator

/-- The handler of an instruction. -/
def handle (insn : DecodedInsn) : Defined Outcome :=
  let next (x : Defined Emulator) : Defined Outcome := do pure { after := ← x }
  let stop (result : ExecResult) : Defined Outcome := pure { result, after := e }
  let jumpIf (taken : Bool) : Defined Outcome :=
    pure { nextPc := if taken then some (e.getOperValue insn 0) else none, after := e }
  match insn.mnem with
  | .mov | .movzx => next (pure (e.opMov insn))
  | .movsx | .movsxd => next (e.opMovsx insn)
  | .lea => next (pure (e.opLea insn))
  | .push => next (e.opPush insn)
  | .pop => next (pure (e.opPop insn))
  | .add => next (e.opAdd insn false)
  | .adc => next (e.opAdd insn true)
  | .sub => next (e.opSub insn)
  | .sbb => next (e.opSbb insn)
  | .cmp => next (e.opCmp insn)
  | .inc => next (e.opInc insn)
  | .dec => next (e.opDec insn)
  | .neg => next (e.opNeg insn)
  | .and => next (e.opAnd insn)
  | .test => next (e.opTest insn)
  | .or => next (e.opOr insn)
  | .xor => next (pure (e.opXor insn))
  | .not => next (pure (e.opNot insn))
  | .call =>
    let e := e.doPush (insn.va + insn.length) e.ptrSize
    pure { nextPc := some (e.getOperValue insn 0), after := e }
  | .jmp => jumpIf true
  | .j c => jumpIf (e.conditionMet c)
  | .jcxz => jumpIf (e.countIsZero kRegCx)
  | .jecxz => jumpIf (e.countIsZero kRegEcx)
  | .ret =>
    let (ret, e) := e.opRet insn
    pure { nextPc := some ret, after := e }
  | .leave => next (pure e.opLeave)
  | .shl => next (e.opShl insn)
  | .shr => next (e.opShr insn)
  | .sar => next (e.opSar insn)
  | .mul => next (e.opMul insn)
  | .imul => next (e.opImul insn)
  | .div => if e.getOperValue insn 0 = 0 then stop .divideByZero else next (e.opDiv insn)
  | .idiv => if e.getOperValue insn 0 = 0 then stop .divideByZero else next (e.opIdiv insn)
  | .cdq => next (pure e.opCdq)
  | .cwd => next (pure e.opCwd)
  | .cbw => next e.opCbw
  | .cwde => next e.opCwde
  | .cdqe => next e.opCdqe
  | .cqo => next (pure e.opCqo)
  | .set c => next (pure (e.setOperValue insn 0 (if e.conditionMet c then 1 else 0)))
  | .nop => next (pure e)
  | .int | .int1 | .int3 => stop .breakpoint
  | .ud0 | .ud1 | .ud2 => stop .badOpcode
  | .in | .out => stop .outInstruction
  | .movups | .movupd | .movaps | .movapd | .movdqu | .movdqa | .lddqu => next (e.opMovSimd insn 16)
  | .movq => next (e.opMovSimd insn 8)
  | .movd | .movss => next (e.opMovSimd insn 4)
  | .movsd =>
    if (xmmIndex (insn.operand 0).baseReg).isSome ∨ (xmmIndex (insn.operand 1).baseReg).isSome then
      next (e.opMovSimd insn 8)
    else stop .unsupported
  | .xorps | .xorpd | .pxor => next (e.opPxor insn)
  | .psrldq => next (e.opPsrldq insn)
  | .pslldq => next (e.opPslldq insn)
  | .cmov c => next (pure (if e.conditionMet c then e.opMov insn else e))
  | .bt => next (e.opBitTest insn none)
  | .bts => next (e.opBitTest insn (some fun dst mask => dst ||| mask))
  | .btr => next (e.opBitTest insn (some fun dst mask => dst &&& ~~~mask))
  | .btc => next (e.opBitTest insn (some fun dst mask => dst ^^^ mask))
  | .rol => next (e.opRol insn)
  | .ror => next (e.opRor insn)
  | .xchg => next (pure (e.opXchg insn))
  | .xadd => next (pure (e.opXadd insn))
  | .cmpxchg => next (pure (e.opCmpxchg insn))
  | .hlt | .other _ => stop .unsupported

/-- Execute an instruction. -/
def executeOpcode (insn : DecodedInsn) : Defined (ExecResult × Emulator) := do
  let out ← (e.setProgramCounter insn.va).handle insn
  let e := if out.result = .continue then
    out.after.setProgramCounter (out.nextPc.getD (insn.va + insn.length)) else out.after
  pure (out.result, e)

end Emulator

end Papa.Emu
