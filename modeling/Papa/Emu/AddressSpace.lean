import Papa.Emu.Frames

/-!
# What no instruction changes

The mode of the machine, its maps and the room of its overlay are those from before, whatever an
instruction does.

## Main definitions

* `Defined.Yields`: what holds of the result of a computation, if it has one.
* `Emulator.SameSpace`.

## Main results

* `Emulator.yields_executeOpcode`.
-/

namespace Papa.Emu

open Bits Defined

/-! ### Results of computations -/

/-- Every result of a computation meets a condition. -/
def Defined.Yields {α : Type} (x : Defined α) (P : α → Prop) : Prop := ∀ a, x = .ok a → P a

namespace Defined.Yields

variable {α β : Type} {P : α → Prop} {Q : β → Prop}

theorem pure {a : α} (h : P a) : Yields (pure a) P := by
  rintro _ ⟨rfl⟩
  exact h

theorem bind {x : Defined α} {f : α → Defined β} (hx : Yields x P)
    (hf : ∀ a, P a → Yields (f a) Q) :
    Yields (x >>= f) Q := by
  intro b hb
  obtain ⟨a, ha, hb⟩ := bind_eq_ok.mp hb
  exact hf a (hx a ha) b hb

theorem bind_any {x : Defined α} {f : α → Defined β} (hf : ∀ a, Yields (f a) Q) :
    Yields (x >>= f) Q :=
  bind (P := fun _ => True) (fun _ _ => trivial) fun a _ => hf a

theorem ite {c : Prop} [Decidable c] {x y : Defined α} (hx : Yields x P) (hy : Yields y P) :
    Yields (if c then x else y) P := by
  split_ifs
  · exact hx
  · exact hy

end Defined.Yields

namespace Emulator

/-! ### Address spaces -/

/-- Two states of one machine, with the same maps. -/
structure SameSpace (e e' : Emulator) : Prop where
  is64bit : e'.is64bit = e.is64bit
  maps : e'.mem.maps = e.mem.maps
  overlayCap : e'.mem.overlayCap = e.mem.overlayCap

variable {e e' e'' : Emulator} {insn : DecodedInsn}

namespace SameSpace

theorem refl : SameSpace e e := ⟨rfl, rfl, rfl⟩

theorem trans (h : SameSpace e e') (h' : SameSpace e' e'') : SameSpace e e'' :=
  ⟨h'.is64bit.trans h.is64bit, h'.maps.trans h.maps, h'.overlayCap.trans h.overlayCap⟩

theorem symm (h : SameSpace e e') : SameSpace e' e :=
  ⟨h.is64bit.symm, h.maps.symm, h.overlayCap.symm⟩

theorem setRegister (h : SameSpace e e') (i : RegIndex) (value : UInt64) :
    SameSpace e (e'.setRegister i value) :=
  ⟨(setRegister_is64bit i).trans h.is64bit, h.maps, h.overlayCap⟩

theorem setFlag (h : SameSpace e e') (which : UInt64) (state : Bool) :
    SameSpace e (e'.setFlag which state) := ⟨h.is64bit, h.maps, h.overlayCap⟩

theorem setFlags (h : SameSpace e e') (flags : List (UInt64 × Bool)) :
    SameSpace e (e'.setFlags flags) := by
  refine ⟨(setFlags_is64bit flags).trans h.is64bit, ?_, ?_⟩
  · rw [setFlags_mem]
    exact h.maps
  · rw [setFlags_mem]
    exact h.overlayCap

theorem write (h : SameSpace e e') (va : UInt64) (bytes : List UInt8) :
    SameSpace e { e' with mem := e'.mem.write va bytes } := by
  have hkept : (e'.mem.write va bytes).maps = e'.mem.maps ∧
      (e'.mem.write va bytes).overlayCap = e'.mem.overlayCap := by
    unfold SandboxMemory.write
    split_ifs <;> exact ⟨rfl, rfl⟩
  exact ⟨h.is64bit, hkept.1.trans h.maps, hkept.2.trans h.overlayCap⟩

theorem setOperValue (h : SameSpace e e') (idx : ℕ) (value : UInt64) :
    SameSpace e (e'.setOperValue insn idx value) := by
  unfold Emulator.setOperValue
  dsimp only
  cases (insn.operand idx).kind with
  | reg =>
    dsimp only
    cases regIndexFromZydis e'.is64bit (insn.operand idx).baseReg with
    | none => exact h
    | some i => exact h.setRegister i value
  | regMem | immMem | sib | ripRel => exact h.write _ _
  | imm | pcRel | unknown => exact h

theorem doPush (h : SameSpace e e') (value : UInt64) (size : ℕ) :
    SameSpace e (e'.doPush value size) := (h.write _ _).setRegister _ _

theorem doPop (h : SameSpace e e') (size : ℕ) : SameSpace e (e'.doPop size).2 :=
  h.setRegister _ _

theorem writeSimdOper (h : SameSpace e e') (idx : ℕ) (value : Xmm) (width : ℕ) :
    SameSpace e (e'.writeSimdOper insn idx value width) := by
  unfold Emulator.writeSimdOper
  dsimp only
  split_ifs
  · cases xmmIndex (insn.operand idx).baseReg with
    | some xi => exact ⟨h.is64bit, h.maps, h.overlayCap⟩
    | none =>
      dsimp only
      cases regIndexFromZydis e'.is64bit (insn.operand idx).baseReg with
      | none => exact h
      | some i => exact h.setRegister i _
  · exact h.write _ _

end SameSpace

/-! ### Handlers -/

theorem yields_intSubBase (src dst : UInt64) (ssize dsize : ℕ) :
    Yields (e.intSubBase src dst ssize dsize) fun out => SameSpace e out.2 :=
  .bind_any fun _ => .bind_any fun _ => .pure (SameSpace.refl.setFlags _)

theorem yields_integerSubtraction :
    Yields (e.integerSubtraction insn) fun out => SameSpace e out.2 :=
  .bind_any fun _ => yields_intSubBase _ _ _ _

theorem yields_logicalAnd : Yields (e.logicalAnd insn) fun out => SameSpace e out.2 :=
  .bind_any fun _ => .pure (SameSpace.refl.setFlags _)

theorem yields_opAdd (carryIn : Bool) : Yields (e.opAdd insn carryIn) (SameSpace e) :=
  .bind_any fun _ => .bind_any fun _ => .bind_any fun _ =>
    .pure ((SameSpace.refl.setFlags _).setOperValue _ _)

theorem yields_opMovsx : Yields (e.opMovsx insn) (SameSpace e) :=
  .bind_any fun _ => .pure (SameSpace.refl.setOperValue _ _)

theorem yields_opPush : Yields (e.opPush insn) (SameSpace e) :=
  .ite (.bind_any fun _ => .pure (SameSpace.refl.doPush _ _)) (.pure (SameSpace.refl.doPush _ _))

theorem yields_opSub : Yields (e.opSub insn) (SameSpace e) :=
  .bind yields_integerSubtraction fun _ h => .pure (h.setOperValue _ _)

theorem yields_opSbb : Yields (e.opSbb insn) (SameSpace e) :=
  .bind_any fun _ => .bind (yields_intSubBase _ _ _ _) fun _ h => .pure (h.setOperValue _ _)

theorem yields_opCmp : Yields (e.opCmp insn) (SameSpace e) :=
  .bind yields_integerSubtraction fun _ h => .pure h

theorem yields_opInc : Yields (e.opInc insn) (SameSpace e) :=
  .bind_any fun _ => .pure ((SameSpace.refl.setOperValue _ _).setFlags _)

theorem yields_opDec : Yields (e.opDec insn) (SameSpace e) :=
  .bind_any fun _ => .pure ((SameSpace.refl.setOperValue _ _).setFlags _)

theorem yields_opNeg : Yields (e.opNeg insn) (SameSpace e) :=
  .bind_any fun _ => .pure ((SameSpace.refl.setOperValue _ _).setFlags _)

theorem sameSpace_opCmpxchg : SameSpace e (e.opCmpxchg insn) := by
  unfold opCmpxchg
  dsimp only
  split_ifs
  · exact (SameSpace.refl.setFlag _ _).setOperValue _ _
  · exact (SameSpace.refl.setFlag _ _).setRegister _ _

theorem yields_opAnd : Yields (e.opAnd insn) (SameSpace e) :=
  .bind yields_logicalAnd fun _ h => .pure (h.setOperValue _ _)

theorem yields_opTest : Yields (e.opTest insn) (SameSpace e) :=
  .bind yields_logicalAnd fun _ h => .pure h

theorem yields_opOr : Yields (e.opOr insn) (SameSpace e) :=
  .ite (.bind_any fun _ => .pure ((SameSpace.refl.setOperValue _ _).setFlags _))
    (.pure ((SameSpace.refl.setOperValue _ _).setFlags _))

/-- A shift by a count of zero changes nothing. -/
theorem yields_opShl : Yields (e.opShl insn) (SameSpace e) :=
  .ite (.pure .refl) <| .bind_any fun _ => .bind_any fun _ =>
    .pure ((SameSpace.refl.setFlags _).setOperValue _ _)

theorem yields_opShr : Yields (e.opShr insn) (SameSpace e) :=
  .ite (.pure .refl) <| .bind_any fun _ => .bind_any fun _ =>
    .pure ((SameSpace.refl.setFlags _).setOperValue _ _)

theorem yields_opSar : Yields (e.opSar insn) (SameSpace e) :=
  .ite (.pure .refl) <| .bind_any fun _ => .bind_any fun _ => .bind_any fun _ =>
    .pure ((SameSpace.refl.setFlags _).setOperValue _ _)

theorem yields_opRol : Yields (e.opRol insn) (SameSpace e) :=
  .bind_any fun _ => .ite (.pure .refl) <| .bind_any fun _ => .bind_any fun _ =>
    .pure ((SameSpace.refl.setOperValue _ _).setFlag _ _)

theorem yields_opRor : Yields (e.opRor insn) (SameSpace e) :=
  .bind_any fun _ => .ite (.pure .refl) <| .bind_any fun _ => .bind_any fun _ =>
    .bind_any fun _ => .pure ((SameSpace.refl.setOperValue _ _).setFlag _ _)

theorem yields_opBitTest (change : Option (UInt64 → UInt64 → UInt64)) :
    Yields (e.opBitTest insn change) (SameSpace e) := by
  refine .bind_any fun _ => .bind_any fun _ => ?_
  cases change with
  | none => exact .pure (SameSpace.refl.setFlag _ _)
  | some f => exact .pure ((SameSpace.refl.setFlag _ _).setOperValue _ _)

theorem yields_opMul : Yields (e.opMul insn) (SameSpace e) := by
  refine .ite (.pure (((SameSpace.refl.setRegister _ _).setRegister _ _).setFlags _)) ?_
  refine .bind_any fun _ => .pure (SameSpace.setFlags ?_ _)
  split_ifs
  · exact SameSpace.refl.setRegister _ _
  · exact (SameSpace.refl.setRegister _ _).setRegister _ _

theorem yields_imulProduct : Yields (e.imulProduct insn) fun out => SameSpace e out.2 := by
  refine .ite (.bind_any fun _ => ?_) (.ite ?_ ?_)
  · exact .pure ((SameSpace.refl.setFlags _).setOperValue _ _)
  · exact .pure (((SameSpace.refl.setRegister _ _).setRegister _ _).setFlags _)
  · refine .bind_any fun _ => .bind_any fun _ => .pure (SameSpace.setFlags ?_ _)
    split_ifs
    · exact SameSpace.refl.setRegister _ _
    · exact (SameSpace.refl.setRegister _ _).setRegister _ _

theorem yields_opImul : Yields (e.opImul insn) (SameSpace e) :=
  .bind yields_imulProduct fun _ h => .pure (h.setFlags _)

theorem sameSpace_setQuotRem (quot rem : RegIndex) (q r : UInt64) :
    SameSpace e (e.setQuotRem quot rem q r) := (SameSpace.refl.setRegister _ _).setRegister _ _

theorem yields_opDiv : Yields (e.opDiv insn) (SameSpace e) := by
  refine .ite ?_ (.ite ?_ (.ite ?_ ?_))
  · exact .bind_any fun _ => .bind_any fun _ => .pure (SameSpace.refl.setRegister _ _)
  · exact .bind_any fun _ => .bind_any fun _ => .pure (sameSpace_setQuotRem _ _ _ _)
  · exact .bind_any fun _ => .bind_any fun _ => .pure (sameSpace_setQuotRem _ _ _ _)
  · exact .pure (sameSpace_setQuotRem _ _ _ _)

theorem yields_opIdiv : Yields (e.opIdiv insn) (SameSpace e) := by
  refine .ite ?_ (.ite ?_ (.ite ?_ ?_))
  · exact .bind_any fun _ => .pure (SameSpace.refl.setRegister _ _)
  · exact .bind_any fun _ => .pure (sameSpace_setQuotRem _ _ _ _)
  · exact .bind_any fun _ => .pure (sameSpace_setQuotRem _ _ _ _)
  · exact .pure (sameSpace_setQuotRem _ _ _ _)

theorem yields_opMovSimd (width : ℕ) : Yields (e.opMovSimd insn width) (SameSpace e) :=
  .bind_any fun _ => .pure (SameSpace.refl.writeSimdOper _ _ _)

theorem yields_opPxor : Yields (e.opPxor insn) (SameSpace e) :=
  .bind_any fun _ => .bind_any fun _ => .pure (SameSpace.refl.writeSimdOper _ _ _)

theorem yields_opPsrldq : Yields (e.opPsrldq insn) (SameSpace e) :=
  .bind_any fun _ => .pure (SameSpace.refl.writeSimdOper _ _ _)

theorem yields_opPslldq : Yields (e.opPslldq insn) (SameSpace e) :=
  .bind_any fun _ => .pure (SameSpace.refl.writeSimdOper _ _ _)

theorem sameSpace_opRet : SameSpace e (e.opRet insn).2 := by
  unfold opRet
  dsimp only
  split_ifs
  · exact (SameSpace.refl.doPop _).setRegister _ _
  · exact SameSpace.refl.doPop _

/-- The handler of an instruction keeps the space. -/
theorem yields_handle : Yields (e.handle insn) fun out => SameSpace e out.after := by
  have next {x : Defined Emulator} (h : Yields x (SameSpace e)) :
      Yields (do pure ({ after := ← x } : Outcome)) fun out => SameSpace e out.after :=
    .bind h fun _ h => .pure h
  have stop (result : ExecResult) :
      Yields (pure ({ result, after := e } : Outcome)) fun out => SameSpace e out.after :=
    .pure .refl
  have jump (nextPc : Option UInt64) :
      Yields (pure ({ nextPc, after := e } : Outcome)) fun out => SameSpace e out.after :=
    .pure .refl
  have operand (idx : ℕ) (value : UInt64) : SameSpace e (e.setOperValue insn idx value) :=
    SameSpace.refl.setOperValue _ _
  have register (i : RegIndex) (value : UInt64) : SameSpace e (e.setRegister i value) :=
    SameSpace.refl.setRegister _ _
  unfold handle
  dsimp only
  cases insn.mnem with
  | mov | movzx | lea | not | set c => exact next (.pure (operand _ _))
  | xor => exact next (.pure ((operand _ _).setFlags _))
  | movsx | movsxd => exact next yields_opMovsx
  | push => exact next yields_opPush
  | pop => exact next (.pure ((SameSpace.refl.doPop _).setOperValue _ _))
  | add | adc => exact next (yields_opAdd _)
  | sub => exact next yields_opSub
  | sbb => exact next yields_opSbb
  | cmp => exact next yields_opCmp
  | inc => exact next yields_opInc
  | dec => exact next yields_opDec
  | neg => exact next yields_opNeg
  | and => exact next yields_opAnd
  | test => exact next yields_opTest
  | or => exact next yields_opOr
  | call => exact .pure (SameSpace.refl.doPush _ _)
  | jmp | j c | jcxz | jecxz => exact jump _
  | ret => exact .pure sameSpace_opRet
  | leave => exact next (.pure (((register _ _).doPop _).setRegister _ _))
  | shl => exact next yields_opShl
  | shr => exact next yields_opShr
  | sar => exact next yields_opSar
  | mul => exact next yields_opMul
  | imul => exact next yields_opImul
  | div => exact .ite (stop _) (next yields_opDiv)
  | idiv => exact .ite (stop _) (next yields_opIdiv)
  | cdq | cwd | cqo => exact next (.pure (register _ _))
  | cbw | cwde | cdqe => exact next (.bind_any fun _ => .pure (register _ _))
  | nop => exact next (.pure .refl)
  | int | int1 | int3 | ud0 | ud1 | ud2 | «in» | out | hlt | other n => exact stop _
  | movups | movupd | movaps | movapd | movdqu | movdqa | lddqu | movq | movd | movss =>
    exact next (yields_opMovSimd _)
  | movsd => exact .ite (next (yields_opMovSimd _)) (stop _)
  | xorps | xorpd | pxor => exact next yields_opPxor
  | psrldq => exact next yields_opPsrldq
  | pslldq => exact next yields_opPslldq
  | cmov c =>
    refine next (.pure ?_)
    split_ifs
    · exact operand _ _
    · exact .refl
  | bt | bts | btr | btc => exact next (yields_opBitTest _)
  | rol => exact next yields_opRol
  | ror => exact next yields_opRor
  | xchg => exact next (.pure ((operand _ _).setOperValue _ _))
  | xadd => exact next (.pure (((operand _ _).setOperValue _ _).setFlags _))
  | cmpxchg => exact next (.pure sameSpace_opCmpxchg)

/-- **An instruction** keeps the space. -/
theorem yields_executeOpcode :
    Yields (e.executeOpcode insn) fun out => SameSpace e out.2 := by
  refine .bind (yields_handle (e := e.setProgramCounter insn.va)) fun out h => .pure ?_
  have hstart : SameSpace e out.after := ⟨h.is64bit, h.maps, h.overlayCap⟩
  split_ifs
  · exact ⟨hstart.is64bit, hstart.maps, hstart.overlayCap⟩
  · exact hstart

end Emulator

end Papa.Emu
