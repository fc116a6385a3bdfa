import Papa.Extractors.IndirectCalls

/-!
# Functions as they are recovered

What the analysis of an image recovers, with everything the extractors read of it: an instruction
with its name and the prefixes of its operands, blocks of such instructions, and functions with
their callers. The search for definitions and for loops reads less of them.

## Main definitions

* `Native.DecodedInsn`, `Native.BasicBlock`, `Native.Function`.
* `Native.Function.toFunction`: what the searches read.
* `isStackReg`: the registers of a stack frame.
-/

namespace Papa.Extractors

open Emu

namespace Native

/-- A decoded instruction, with its name and the prefixes of its operands. -/
structure DecodedInsn extends Emu.DecodedInsn where
  mnemonicStr : Str := []
  hasPrefixFs : Bool := false
  hasPrefixGs : Bool := false
  deriving DecidableEq

/-- A block of a function. -/
structure BasicBlock where
  va : UInt64
  instructions : List DecodedInsn
  successors : List UInt64
  predecessors : List UInt64
  deriving DecidableEq

/-- A function with its callers. -/
structure Function where
  va : UInt64
  basicBlocks : List BasicBlock
  callers : List UInt64
  deriving DecidableEq

/-- A block as the searches read it. -/
def BasicBlock.toBasicBlock (bb : BasicBlock) : Extractors.BasicBlock :=
  ⟨bb.va, bb.instructions.map (·.toDecodedInsn), bb.successors, bb.predecessors⟩

/-- A function as the searches read it. -/
def Function.toFunction (fn : Function) : Extractors.Function :=
  ⟨fn.va, fn.basicBlocks.map (·.toBasicBlock)⟩

end Native

/-- `is_stack_reg`: whether a register is a part of the stack pointer or the frame pointer. -/
def isStackReg (regs : RegisterTable) (reg : ZydisRegister) (is64bit : Bool) : Bool :=
  if reg = .none then false
  else
    let enclosing := regs.largestEnclosing is64bit reg
    if is64bit then enclosing = .gpr64 4 ∨ enclosing = .gpr64 5
    else enclosing = .gpr32 4 ∨ enclosing = .gpr32 5

end Papa.Extractors
