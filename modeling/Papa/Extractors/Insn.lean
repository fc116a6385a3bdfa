import Mathlib.Tactic.IntervalCases
import Papa.Extractors.ImportThunks
import Papa.Extractors.OperandData
import Papa.Features.ApiSymbols
import Papa.Rules.ScopeConformance

/-!
# What an instruction tells

An instruction has features for its name, for the numbers, offsets, bytes and texts of its operands,
for the function it calls, and for what is unusual about it. They are found one kind after another.

## Main definitions

* `extractNumber`, `extractOffset`: the numbers and offsets of the operands.
* `isSecurityCookie`, `extractNzxor`: an exclusive or that is not for a security cookie.
* `extractApiFeatures`, `extractFlirtCallApi`: the names of the function that is called.
* `extractInsnFeatures`: all features of an instruction.
* `CallsApi`, `CallsLibrary`: the imports and the library functions that an instruction calls.
* `HasNumber`, `HasOffset`: the numbers and the offsets of an operand.

## Main results

* `isUnusual_of_mem_extractUnusual`: what is unusual is a characteristic that instructions have.
* `exists_extractApiFeatures`, `mem_extractFlirtCallApi_iff`: the names of what is called.
* `mem_operandFeatures_iff`: the features of the operands.
-/

namespace Papa.Extractors

open Emu Features Pe

/-! ### What is unusual -/

section Characteristics

variable (ins : Native.DecodedInsn)

/-- `extract_mnemonic`. -/
def extractMnemonic : Option (FeatureValue × Address) :=
  if ins.mnemonicStr = [] then none else some (.mnemonic ins.mnemonicStr, .absoluteVirtual ins.va)

/-- How far behind a call with a zero offset its target is. -/
def kCallPlus5Distance : UInt64 := 5

/-- `extract_call_plus_5`. -/
def extractCallPlus5 : Option (FeatureValue × Address) :=
  if ¬ins.isCall then none
  else
    match ins.branchTarget with
    | none => none
    | some target =>
      if target ≠ ins.va + kCallPlus5Distance then none
      else some (makeCharacteristic "call $+5" ins.va)

/-- `extract_indirect_call`. -/
def extractIndirectCall : Option (FeatureValue × Address) :=
  if ¬ins.isCall then none
  else if ins.operands = [] then none
  else
    match (ins.operand 0).kind with
    | .reg | .regMem | .sib => some (makeCharacteristic "indirect call" ins.va)
    | _ => none

/-- `extract_segment_access`. -/
def extractSegmentAccess : List (FeatureValue × Address) :=
  (if ins.hasPrefixFs then [makeCharacteristic "fs access" ins.va] else []) ++
    if ins.hasPrefixGs then [makeCharacteristic "gs access" ins.va] else []

/-- `operand_disp_equals`. -/
def operandDispEquals (op : DecodedOperand) (want : ℤ) : Bool :=
  match op.kind with
  | .regMem | .sib | .immMem => op.disp = want
  | _ => false

/-- Where the environment block is found in its segment. -/
def kPebOffsetX86 : ℤ := 0x30
/-- Where the environment block is found in its segment by code of 64 bits. -/
def kPebOffsetX64 : ℤ := 0x60

/-- `extract_peb_access`. -/
def extractPebAccess (is64bit : Bool) : Option (FeatureValue × Address) :=
  let wantDisp := if is64bit then kPebOffsetX64 else kPebOffsetX86
  let prefixOk := if is64bit then ins.hasPrefixGs else ins.hasPrefixFs
  if ¬prefixOk then none
  else if ins.operands.any (operandDispEquals · wantDisp) then
    some (makeCharacteristic "peb access" ins.va)
  else none

/-- The address that a branch goes to, or reads its target from. -/
def flowTarget : Option UInt64 :=
  match ins.branchTarget with
  | some target => some target
  | none =>
    match (ins.operand 0).kind with
    | .ripRel => some (ins.va + ins.length + asU64 (ins.operand 0).disp)
    | .immMem => some (asU64 (ins.operand 0).disp)
    | _ => none

/-- `extract_cross_section_flow`. -/
def extractCrossSectionFlow (image : PeImage) (imports : ImportTable) :
    Option (FeatureValue × Address) :=
  if ¬(ins.isCall ∨ ins.isJump) then none
  else if ins.va < image.imageBase then none
  else
    match flowTarget ins with
    | none => none
    | some target =>
      if (AssocList.get? target imports).isSome then none
      else if target < image.imageBase then none
      else
        match image.sectionContainingRva .machine (ins.va - image.imageBase).toNat,
          image.sectionContainingRva .machine (target - image.imageBase).toNat with
        | some srcSection, some dstSection =>
          if srcSection = dstSection then none
          else some (makeCharacteristic "cross section flow" ins.va)
        | _, _ => none

end Characteristics

/-! ### Security cookies -/

/-- How near to the ends of a function a security cookie is. -/
def kSecurityCookieBytesDelta : UInt64 := 0x40

/-- `is_security_cookie`, for an instruction of the block with an index. -/
def isSecurityCookie (regs : RegisterTable) (is64bit : Bool) (fn : Native.Function) (index : ℕ)
    (bb : Native.BasicBlock) (ins : Native.DecodedInsn) : Bool :=
  if ins.operands.length < 2 then false
  else
    let src := ins.operand 1
    if src.kind = .reg ∧ ¬isStackReg regs src.baseReg is64bit then false
    else
      match fn.basicBlocks.head? with
      | none => false
      | some entryBb =>
        if index = 0 ∧ ins.va < entryBb.va + kSecurityCookieBytesDelta then true
        else
          match bb.instructions.getLast? with
          | none => false
          | some last =>
            let bbEnd := last.va + last.length
            last.isReturn && decide (kSecurityCookieBytesDelta ≤ bbEnd) &&
              decide (bbEnd - kSecurityCookieBytesDelta < ins.va)

/-- The mnemonics of an exclusive or. -/
def kXorMnemonics : List Mnemonic := [.xor, .xorps, .xorpd, .pxor]

/-- `extract_nzxor`. -/
def extractNzxor (regs : RegisterTable) (is64bit : Bool) (fn : Native.Function) (index : ℕ)
    (bb : Native.BasicBlock) (ins : Native.DecodedInsn) : Option (FeatureValue × Address) :=
  if ins.mnem ∉ kXorMnemonics then none
  else if ins.operands.length < 2 then none
  else
    let dst := ins.operand 0
    let src := ins.operand 1
    if dst.kind = .reg ∧ src.kind = .reg ∧ dst.baseReg = src.baseReg ∧ dst.baseReg ≠ .none then none
    else if isSecurityCookie regs is64bit fn index bb ins then none
    else some (makeCharacteristic "nzxor" ins.va)

/-! ### Numbers and offsets -/

section Operands

variable (regs : RegisterTable) (image : PeImage) (ins : Native.DecodedInsn)

/-- `is_add_esp`. -/
def isAddEsp : Bool :=
  ins.mnem = .add ∧ (ins.operand 0).kind = .reg ∧ (ins.operand 0).baseReg = .gpr32 4

/-- `is_offset_excluded_reg`. -/
def isOffsetExcludedReg (reg : ZydisRegister) (is64bit : Bool) : Bool :=
  if reg = .none then false
  else
    let enclosing := regs.largestEnclosing is64bit reg
    if is64bit then enclosing = .gpr64 5
    else enclosing = .gpr32 4 ∨ enclosing = .gpr32 5

/-- Whether an operand is a register or a place in memory. -/
def hasWidth (op : DecodedOperand) : Bool :=
  match op.kind with
  | .reg | .regMem | .ripRel | .immMem | .sib => true
  | _ => false

/-- The width that the constants of an instruction have. -/
def constantWidth : ℕ :=
  match ins.operands.find? hasWidth with
  | some op => op.widthBytes
  | none => if image.is64bit then 8 else 4

/-- The number of an operand, if it is one. A constant has the width of the instruction. -/
def operandNumber (op : DecodedOperand) : Option UInt64 :=
  match op.kind with
  | .imm =>
    let opWidth := constantWidth image ins
    some (if 1 ≤ opWidth ∧ opWidth < 8 then op.imm &&& (1 <<< UInt64.ofNat (opWidth * 8)) - 1
      else op.imm)
  | .immMem => some (asU64 op.disp)
  | _ => none

/-- Whether a number is the address of something that can be read. -/
def isPointer (v : UInt64) : Bool :=
  image.imageBase ≤ v && image.probeReadable (v - image.imageBase).toNat 1

/-- The least number that is no offset of a structure. -/
def kMaxStructureSize : UInt64 := 0x10000

/-- Whether an `add` moves a pointer to a field. -/
def isFieldAdd (v : UInt64) : Bool :=
  ins.mnem = .add ∧ 2 ≤ ins.operands.length ∧ (ins.operand 0).kind = .reg ∧
    ¬isStackReg regs (ins.operand 0).baseReg image.is64bit ∧ 0 < v ∧ v < kMaxStructureSize

/-- The features of a number. -/
def numberFeatures (i : ℕ) (v : UInt64) : List (FeatureValue × Address) :=
  [(.number (.uint64 v), .absoluteVirtual ins.va),
    (.operandNumber i (.uint64 v), .absoluteVirtual ins.va)]

/-- The features of an offset. -/
def offsetFeatures (i : ℕ) (off : Int64) : List (FeatureValue × Address) :=
  [(.offset off, .absoluteVirtual ins.va), (.operandOffset i off, .absoluteVirtual ins.va)]

/-- `extract_number`. -/
def extractNumber : List (FeatureValue × Address) :=
  ins.operands.zipIdx.flatMap fun (op, i) =>
    match operandNumber image ins op with
    | none => []
    | some v =>
      if isAddEsp ins then []
      else if isPointer image v then []
      else numberFeatures ins i v ++
        if isFieldAdd regs image ins v then offsetFeatures ins i v.toInt64 else []

/-- The offset of an operand, if it has one. -/
def operandOffset (op : DecodedOperand) : Option Int64 :=
  if op.kind ≠ .regMem ∧ op.kind ≠ .sib then none
  else if ¬op.sibEncoded ∧ isOffsetExcludedReg regs op.baseReg image.is64bit then none
  else some (if op.kind = .sib ∧ op.baseReg = .none then 0 else Int64.ofInt op.disp)

/-- Whether the displacement of a `lea` is a number. -/
def isLeaNumber (op : DecodedOperand) : Bool :=
  ins.mnem = .lea ∧ 0 < op.disp ∧ ¬isStackReg regs op.baseReg image.is64bit ∧ ¬op.sibEncoded ∧
    ¬image.probeReadable (if image.imageBase ≤ asU64 op.disp then
      asU64 op.disp - image.imageBase else asU64 op.disp).toNat 1

/-- `extract_offset`. -/
def extractOffset : List (FeatureValue × Address) :=
  ins.operands.zipIdx.flatMap fun (op, i) =>
    match operandOffset regs image op with
    | none => []
    | some off =>
      offsetFeatures ins i off ++
        if isLeaNumber regs image ins op then numberFeatures ins i (asU64 op.disp) else []

end Operands

/-! ### The function that is called -/

/-- Whether an instruction calls a function, or jumps to it at the end of another one. -/
def isCallOrTailJmp (ins : Native.DecodedInsn) : Bool :=
  ins.isCall || (ins.isJump && !ins.isConditional)

/-- The features of a call to a library function with a name. -/
def libraryVariants (name : Str) (va : UInt64) : List (FeatureValue × Address) :=
  (.api name, .absoluteVirtual va) ::
    if name.head? = some (ch '_') ∧ 1 < name.length then [(.api name.tail, .absoluteVirtual va)]
    else []

/-- `extract_flirt_call_api`. -/
def extractFlirtCallApi (ins : Native.DecodedInsn)
    (flirtName : Option (UInt64 → Option Str)) : List (FeatureValue × Address) :=
  match flirtName with
  | none => []
  | some flirtName =>
    if ¬isCallOrTailJmp ins then []
    else if ins.operands = [] then []
    else if (ins.operand 0).kind ≠ .pcRel then []
    else
      match ins.branchTarget with
      | none => []
      | some target =>
        match flirtName target with
        | none => []
        | some name => if name = [] then [] else libraryVariants name ins.va

/-- The features of a call to an import. -/
def apiVariants (row : ParsedImport) (va : UInt64) : List (FeatureValue × Address) :=
  (emitApiVariants row va).map fun f => (f.1.value, f.2)

/-- The features of a call to an import that may have been found. -/
def foundVariants (row : Option ParsedImport) (va : UInt64) : List (FeatureValue × Address) :=
  match row with
  | none => []
  | some row => apiVariants row va

/-- `extract_api_features`. It has no result if the search for a definition has none. -/
def extractApiFeatures (regs : RegisterTable) (image : PeImage) (imports : ImportTable)
    (decode : List UInt8 → UInt64 → Expected Native.DecodedInsn) (fn : Function)
    (ins : Native.DecodedInsn) : Option (List (FeatureValue × Address)) :=
  if ¬isCallOrTailJmp ins then some []
  else if ins.operands = [] then some []
  else
    let op0 := ins.operand 0
    match op0.kind with
    | .immMem | .ripRel | .pcRel =>
      some (foundVariants (resolveDirectCallImport image imports decode ins) ins.va)
    | .reg =>
      (findDefinition regs op0.baseReg image.is64bit fn ins.va).map fun definition =>
        foundVariants (definition.bind fun d => d.value.bind fun iatVa =>
          AssocList.get? iatVa imports) ins.va
    | _ => some []

/-! ### All features -/

/-- The characteristics of an instruction, in the order in which they are looked for. -/
def extractUnusual (regs : RegisterTable) (image : PeImage) (imports : ImportTable)
    (fn : Native.Function) (index : ℕ) (bb : Native.BasicBlock) (ins : Native.DecodedInsn) :
    List (FeatureValue × Address) :=
  (extractCallPlus5 ins).toList ++ (extractIndirectCall ins).toList ++ extractSegmentAccess ins ++
    (extractPebAccess ins image.is64bit).toList ++
    (extractCrossSectionFlow ins image imports).toList ++
    (extractNzxor regs image.is64bit fn index bb ins).toList

/-- `extract_insn_features`, for an instruction of the block with an index. It has no result if the
search for a definition has none. -/
def extractInsnFeatures (regs : RegisterTable) (image : PeImage) (imports : ImportTable)
    (decode : List UInt8 → UInt64 → Expected Native.DecodedInsn)
    (flirtName : UInt64 → Option Str) (fn : Native.Function) (index : ℕ) (bb : Native.BasicBlock)
    (ins : Native.DecodedInsn) : Option (List (FeatureValue × Address)) :=
  (extractApiFeatures regs image imports decode fn.toFunction ins).map fun api =>
    (extractMnemonic ins).toList ++ extractUnusual regs image imports fn index bb ins ++
      extractBytes image ins ++ extractNumber regs image ins ++ extractOffset regs image ins ++
      extractString image ins ++ api ++ extractFlirtCallApi ins (some flirtName)

/-! ### Which characteristics there are -/

section Unusual

variable {regs : RegisterTable} {image : PeImage} {imports : ImportTable} {fn : Native.Function}
  {index : ℕ} {bb : Native.BasicBlock} {ins : Native.DecodedInsn} {f : FeatureValue × Address}

/-- A characteristic that instructions have. -/
def IsUnusual (ins : Native.DecodedInsn) (f : FeatureValue × Address) : Prop :=
  ∃ name ∈ Rules.kInsnOrigin, f = (.characteristic name, .absoluteVirtual ins.va)

theorem isUnusual_makeCharacteristic {name : String} (h : str name ∈ Rules.kInsnOrigin) :
    IsUnusual ins (makeCharacteristic name ins.va) := ⟨_, h, rfl⟩

theorem isUnusual_of_extractCallPlus5 (h : extractCallPlus5 ins = some f) : IsUnusual ins f := by
  rw [extractCallPlus5] at h
  cases htarget : ins.branchTarget with
  | none =>
    rw [htarget] at h
    split_ifs at h
  | some target =>
    rw [htarget] at h
    dsimp only at h
    split_ifs at h
    obtain rfl := Option.some.inj h
    exact isUnusual_makeCharacteristic (by decide)

theorem isUnusual_of_extractIndirectCall (h : extractIndirectCall ins = some f) :
    IsUnusual ins f := by
  rw [extractIndirectCall] at h
  split_ifs at h
  split at h
  · obtain rfl := Option.some.inj h
    exact isUnusual_makeCharacteristic (by decide)
  · obtain rfl := Option.some.inj h
    exact isUnusual_makeCharacteristic (by decide)
  · obtain rfl := Option.some.inj h
    exact isUnusual_makeCharacteristic (by decide)
  · cases h

theorem isUnusual_of_mem_extractSegmentAccess (h : f ∈ extractSegmentAccess ins) :
    IsUnusual ins f := by
  rw [extractSegmentAccess, List.mem_append] at h
  rcases h with h | h
  · split_ifs at h
    · obtain rfl := List.mem_singleton.mp h
      exact isUnusual_makeCharacteristic (by decide)
    · cases h
  · split_ifs at h
    · obtain rfl := List.mem_singleton.mp h
      exact isUnusual_makeCharacteristic (by decide)
    · cases h

theorem isUnusual_of_extractPebAccess {is64bit : Bool} (h : extractPebAccess ins is64bit = some f) :
    IsUnusual ins f := by
  unfold extractPebAccess at h
  dsimp only at h
  split_ifs at h <;>
    (obtain rfl := Option.some.inj h; exact isUnusual_makeCharacteristic (by decide))

theorem isUnusual_of_extractCrossSectionFlow
    (h : extractCrossSectionFlow ins image imports = some f) : IsUnusual ins f := by
  rw [extractCrossSectionFlow] at h
  split_ifs at h
  split at h
  · cases h
  · split_ifs at h
    split at h
    · split_ifs at h
      obtain rfl := Option.some.inj h
      exact isUnusual_makeCharacteristic (by decide)
    · cases h

theorem isUnusual_of_extractNzxor {is64bit : Bool}
    (h : extractNzxor regs is64bit fn index bb ins = some f) : IsUnusual ins f := by
  unfold extractNzxor at h
  dsimp only at h
  split_ifs at h
  obtain rfl := Option.some.inj h
  exact isUnusual_makeCharacteristic (by decide)

/-- **What is unusual** about an instruction is a characteristic that only instructions have. -/
theorem isUnusual_of_mem_extractUnusual
    (h : f ∈ extractUnusual regs image imports fn index bb ins) : IsUnusual ins f := by
  simp only [extractUnusual, List.mem_append, Option.mem_toList] at h
  rcases h with ((((h | h) | h) | h) | h) | h
  · exact isUnusual_of_extractCallPlus5 h
  · exact isUnusual_of_extractIndirectCall h
  · exact isUnusual_of_mem_extractSegmentAccess h
  · exact isUnusual_of_extractPebAccess h
  · exact isUnusual_of_extractCrossSectionFlow h
  · exact isUnusual_of_extractNzxor h

end Unusual

/-! ### The names of calls -/

section Api

variable (regs : RegisterTable) (image : PeImage) (imports : ImportTable)
  (decode : List UInt8 → UInt64 → Expected Native.DecodedInsn)

/-- An instruction calls an import: directly, or through a register that the first definition met
sets to the slot of the import. -/
def CallsApi (fn : Cfg) (ins : Native.DecodedInsn) (row : ParsedImport) : Prop :=
  isCallOrTailJmp ins ∧ (CallsImport image imports decode ins row ∨
    ((ins.operand 0).kind = .reg ∧ ∃ slot,
      (∃ mov, fn.FirstMet regs (ins.operand 0).baseReg image.is64bit ins.va mov ∧
        sourceValue mov = some slot) ∧ AssocList.get? slot imports = some row))

/-- An instruction calls a function of a library that has a name. A name that begins with an
underscore is also one without it. -/
def CallsLibrary (flirtName : UInt64 → Option Str) (ins : Native.DecodedInsn) (s : Str) : Prop :=
  isCallOrTailJmp ins ∧ (ins.operand 0).kind = .pcRel ∧ ∃ target name,
    ins.branchTarget = some target ∧ flirtName target = some name ∧ name ≠ [] ∧
      (s = name ∨ s ≠ [] ∧ name = ch '_' :: s)

variable {regs image imports decode} {ins : Native.DecodedInsn} {f : FeatureValue × Address}

theorem mem_apiVariants_iff {row : ParsedImport} {va : UInt64} :
    f ∈ apiVariants row va ↔ importSymbol row ≠ [] ∧
      ∃ s ∈ generateSymbols row.dll (importSymbol row) true, f = (.api s, .absoluteVirtual va) := by
  rw [apiVariants, emitApiVariants]
  by_cases hsymbol : importSymbol row = []
  · simp [hsymbol]
  · rw [if_neg (by simpa using hsymbol)]
    simp [hsymbol, eq_comm]

theorem mem_foundVariants_iff {row : Option ParsedImport} {va : UInt64} :
    f ∈ foundVariants row va ↔ ∃ r, row = some r ∧ f ∈ apiVariants r va := by
  cases row <;> simp [foundVariants]

/-- An import is called directly through one of three kinds of operands. -/
theorem kind_of_callsImport {row : ParsedImport} (h : CallsImport image imports decode ins row) :
    (ins.operand 0).kind = .immMem ∨ (ins.operand 0).kind = .ripRel ∨
      (ins.operand 0).kind = .pcRel := by
  rcases h with ⟨slot, hslot, -⟩ | ⟨hpc, -⟩
  · rw [slotVa] at hslot
    split at hslot
    · next hkind => exact Or.inl hkind
    · next hkind => exact Or.inr (Or.inl hkind)
    · cases hslot
  · exact Or.inr (Or.inr hpc)

/-- A call of an import has one of four kinds of operands. -/
theorem kind_of_callsApi {fn : Cfg} {row : ParsedImport}
    (h : CallsApi regs image imports decode fn ins row) :
    (ins.operand 0).kind = .reg ∨ (ins.operand 0).kind = .immMem ∨
      (ins.operand 0).kind = .ripRel ∨ (ins.operand 0).kind = .pcRel := by
  rcases h.2 with himport | ⟨hreg, -⟩
  · exact Or.inr (kind_of_callsImport himport)
  · exact Or.inl hreg

theorem callsApi_iff_of_ne_reg {fn : Cfg} {row : ParsedImport} (hcall : isCallOrTailJmp ins)
    (hkind : (ins.operand 0).kind ≠ .reg) :
    CallsApi regs image imports decode fn ins row ↔
      resolveDirectCallImport image imports decode ins = some row := by
  rw [resolveDirectCallImport_eq_some_iff, CallsApi, and_iff_right hcall]
  exact or_iff_left fun h => hkind h.1

theorem callsApi_iff_of_reg {fn : Cfg} {row : ParsedImport} (hcall : isCallOrTailJmp ins)
    (hkind : (ins.operand 0).kind = .reg) :
    CallsApi regs image imports decode fn ins row ↔ ∃ slot,
      (∃ mov, fn.FirstMet regs (ins.operand 0).baseReg image.is64bit ins.va mov ∧
        sourceValue mov = some slot) ∧ AssocList.get? slot imports = some row := by
  have hnot : ¬CallsImport image imports decode ins row := fun h => by
    have hkinds := kind_of_callsImport h
    rw [hkind] at hkinds
    simp at hkinds
  rw [CallsApi, and_iff_right hcall, or_iff_right hnot, and_iff_right hkind]

variable (regs image imports decode) in
/-- **The names of the imports that an instruction calls.** -/
theorem exists_extractApiFeatures (fn : Cfg) (ins : Native.DecodedInsn) :
    ∃ out, extractApiFeatures regs image imports decode fn.toFunction ins = some out ∧
      ∀ f, f ∈ out ↔ ∃ row, CallsApi regs image imports decode fn ins row ∧
        f ∈ apiVariants row ins.va := by
  rw [extractApiFeatures]
  by_cases hcall : isCallOrTailJmp ins
  · rw [if_neg (not_not.mpr hcall)]
    have hnone (hno : ∀ row, ¬CallsApi regs image imports decode fn ins row) :
        ∃ out, some ([] : List (FeatureValue × Address)) = some out ∧
          ∀ f, f ∈ out ↔ ∃ row, CallsApi regs image imports decode fn ins row ∧
            f ∈ apiVariants row ins.va :=
      ⟨[], rfl, fun f => iff_of_false List.not_mem_nil fun ⟨row, hrow, _⟩ => hno row hrow⟩
    have hdirect (hkind : (ins.operand 0).kind ≠ .reg) :
        ∃ out, some (foundVariants (resolveDirectCallImport image imports decode ins) ins.va) =
          some out ∧ ∀ f, f ∈ out ↔ ∃ row, CallsApi regs image imports decode fn ins row ∧
            f ∈ apiVariants row ins.va := by
      refine ⟨_, rfl, fun f => mem_foundVariants_iff.trans ?_⟩
      exact exists_congr fun row =>
        and_congr_left fun _ => (callsApi_iff_of_ne_reg hcall hkind).symm
    by_cases hoperands : ins.operands = []
    · rw [if_pos hoperands]
      refine hnone fun row hrow => ?_
      have hkind := kind_of_callsApi hrow
      rw [DecodedInsn.operand, hoperands, List.getD_nil] at hkind
      simp at hkind
    · rw [if_neg hoperands]
      dsimp only
      have hkinds (row : ParsedImport) := @kind_of_callsApi regs image imports decode ins fn row
      cases hkind : (ins.operand 0).kind <;> rw [hkind] at hkinds hdirect
      case reg =>
        obtain ⟨result, hresult, hfound, -⟩ :=
          Cfg.findDefinition_spec regs (ins.operand 0).baseReg image.is64bit fn ins.va
        refine ⟨_, congrArg (Option.map _) hresult, fun f => mem_foundVariants_iff.trans ?_⟩
        refine exists_congr fun row => and_congr_left fun _ => ?_
        rw [callsApi_iff_of_reg hcall hkind, Option.bind_eq_some_iff]
        constructor
        · rintro ⟨d, hd, hrow⟩
          obtain ⟨slot, hvalue, hslot⟩ := Option.bind_eq_some_iff.mp hrow
          obtain ⟨mov, hmov, rfl⟩ := (hfound d).mp hd
          exact ⟨slot, ⟨mov, hmov, hvalue⟩, hslot⟩
        · rintro ⟨slot, ⟨mov, hmov, hvalue⟩, hslot⟩
          exact ⟨_, (hfound _).mpr ⟨mov, hmov, rfl⟩,
            Option.bind_eq_some_iff.mpr ⟨slot, hvalue, hslot⟩⟩
      case immMem => exact hdirect (by decide)
      case ripRel => exact hdirect (by decide)
      case pcRel => exact hdirect (by decide)
      all_goals exact hnone fun row hrow => absurd (hkinds row hrow) (by decide)
  · rw [if_pos hcall]
    exact ⟨[], rfl, fun f => iff_of_false List.not_mem_nil fun ⟨row, hrow, _⟩ => hcall hrow.1⟩

theorem mem_libraryVariants_iff {name : Str} {va : UInt64} (hname : name ≠ []) :
    f ∈ libraryVariants name va ↔
      ∃ s, (s = name ∨ s ≠ [] ∧ name = ch '_' :: s) ∧ f = (.api s, .absoluteVirtual va) := by
  cases name with
  | nil => exact absurd rfl hname
  | cons c rest =>
    have hlength : 1 < (c :: rest).length ↔ rest ≠ [] := by
      rw [List.length_cons, Nat.lt_succ_iff, Nat.one_le_iff_ne_zero, Ne, List.length_eq_zero_iff]
    rw [libraryVariants, List.mem_cons]
    constructor
    · rintro (rfl | h)
      · exact ⟨_, Or.inl rfl, rfl⟩
      · split_ifs at h with hlong
        · obtain rfl := Option.some.inj hlong.1
          exact ⟨rest, Or.inr ⟨hlength.mp hlong.2, rfl⟩, List.mem_singleton.mp h⟩
        · cases h
    · rintro ⟨s, rfl | ⟨hs, heq⟩, rfl⟩
      · exact Or.inl rfl
      · obtain ⟨rfl, rfl⟩ := List.cons.inj heq
        rw [if_pos ⟨rfl, hlength.mpr hs⟩]
        exact Or.inr (List.mem_singleton_self _)

/-- **The names of the library functions that an instruction calls.** -/
theorem mem_extractFlirtCallApi_iff {flirtName : UInt64 → Option Str} :
    f ∈ extractFlirtCallApi ins (some flirtName) ↔ ∃ s, CallsLibrary flirtName ins s ∧
      f = (.api s, .absoluteVirtual ins.va) := by
  rw [extractFlirtCallApi]
  simp only [CallsLibrary]
  by_cases hcall : isCallOrTailJmp ins
  · by_cases hkind : (ins.operand 0).kind = .pcRel
    · have hoperands : ins.operands ≠ [] := fun h => (slotVa_of_operands_eq_nil h).2 hkind
      rw [if_neg (not_not.mpr hcall), if_neg hoperands, if_neg (not_not.mpr hkind)]
      cases ins.branchTarget with
      | none => simp
      | some target =>
        dsimp only
        cases hname : flirtName target with
        | none => simp [hname]
        | some name =>
          dsimp only
          by_cases hempty : name = []
          · simp [hempty, hname]
          · rw [if_neg hempty, mem_libraryVariants_iff hempty]
            simp [hcall, hkind, hname, hempty]
    · simp [hkind]
  · simp [hcall]

end Api

/-! ### The numbers and offsets of operands -/

section Numbers

variable (regs : RegisterTable) (image : PeImage) (ins : Native.DecodedInsn)

/-- How many bytes of a constant count. -/
def constantBytes : ℕ :=
  if 1 ≤ constantWidth image ins ∧ constantWidth image ins < 8 then constantWidth image ins else 8

/-- The number that an operand is: a constant, as far as its bytes count, or an address. -/
def IsConstant (op : DecodedOperand) (v : UInt64) : Prop :=
  op.kind = .imm ∧ v.toNat = op.imm.toNat % 2 ^ (8 * constantBytes image ins) ∨
    op.kind = .immMem ∧ v = asU64 op.disp

/-- A register is a part of the general register of the machine with a number. -/
def IsPartOf (is64bit : Bool) (n : Fin 16) (r : ZydisRegister) : Prop :=
  r ≠ .none ∧ regs.largestEnclosing is64bit r = if is64bit then .gpr64 n else .gpr32 n

/-- A register is a part of the stack pointer or of the frame pointer. -/
def IsStackPart (is64bit : Bool) (r : ZydisRegister) : Prop :=
  IsPartOf regs is64bit 4 r ∨ IsPartOf regs is64bit 5 r

/-- The operand is a place relative to the frame, encoded without an index: the frame pointer is its
base, or the stack pointer of a machine of 32 bits. -/
def IsFrameAccess (op : DecodedOperand) : Prop :=
  ¬op.sibEncoded ∧ (IsPartOf regs image.is64bit 5 op.baseReg ∨
    ¬image.is64bit ∧ IsPartOf regs image.is64bit 4 op.baseReg)

/-- The instruction adds to the register `esp`, as after a call. -/
def AddsToEsp : Prop :=
  ins.mnem = .add ∧ ∃ dst srcs, ins.operands = dst :: srcs ∧ dst.kind = .reg ∧
    dst.baseReg = .gpr32 4

/-- A constant that is no address of something that can be read and does not move the stack. -/
structure IsPlainNumber (op : DecodedOperand) (v : UInt64) : Prop where
  constant : IsConstant image ins op v
  notStack : ¬AddsToEsp ins
  notPointer : ¬Readable image v

/-- The number is what a `lea` adds to a register that is no part of the stack pointer or the frame
pointer: a positive one that is neither the address of something that can be read nor its place in
the image. -/
structure IsLeaNumber (op : DecodedOperand) (v : UInt64) : Prop where
  lea : ins.mnem = .lea
  place : op.kind = .regMem ∨ op.kind = .sib
  noIndex : ¬op.sibEncoded
  notStack : ¬IsStackPart regs image.is64bit op.baseReg
  positive : 0 < op.disp
  number : v = asU64 op.disp
  notPointer : ¬Readable image v
  notPlace : v < image.imageBase → ¬ReadableRva image v.toNat

/-- The number of an operand: a constant, or what a `lea` adds to a register. -/
def HasNumber (op : DecodedOperand) (v : UInt64) : Prop :=
  IsPlainNumber image ins op v ∨ IsLeaNumber regs image ins op v

/-- The offset of a place in memory that is not relative to the frame is its displacement. A place
of an index alone has the offset zero, since its displacement is an address. -/
inductive IsPlaceOffset (op : DecodedOperand) : Int64 → Prop
  | plain (hkind : op.kind = .regMem) (hframe : ¬IsFrameAccess regs image op) :
    IsPlaceOffset op (Int64.ofInt op.disp)
  | based (hkind : op.kind = .sib) (hbase : op.baseReg ≠ .none)
    (hframe : ¬IsFrameAccess regs image op) : IsPlaceOffset op (Int64.ofInt op.disp)
  | unbased (hkind : op.kind = .sib) (hbase : op.baseReg = .none) : IsPlaceOffset op 0

/-- The number is what an `add` moves a pointer to a field by: its destination is a register that is
no part of the stack pointer or the frame pointer, and the number is below the size of the largest
structure. -/
structure IsFieldAdd (v : UInt64) : Prop where
  add : ins.mnem = .add
  pointer : ∃ dst src rest, ins.operands = dst :: src :: rest ∧ dst.kind = .reg ∧
    ¬IsStackPart regs image.is64bit dst.baseReg
  positive : 0 < v.toNat
  small : v.toNat < 0x10000

/-- The offset of an operand: the one of a place in memory, or what an `add` moves a pointer by. -/
def HasOffset (op : DecodedOperand) (off : Int64) : Prop :=
  IsPlaceOffset regs image op off ∨
    ∃ v, IsPlainNumber image ins op v ∧ IsFieldAdd regs image ins v ∧ off = v.toInt64

variable {regs image ins} {f : FeatureValue × Address} {v : UInt64}

/-- Masking keeps the low bytes. -/
theorem toNat_and_mask (imm : UInt64) {width : ℕ} (hwidth : width < 8) :
    (imm &&& (1 <<< UInt64.ofNat (width * 8)) - 1).toNat = imm.toNat % 2 ^ (8 * width) := by
  have hmask : ((1 <<< UInt64.ofNat (width * 8)) - 1 : UInt64).toNat = 2 ^ (8 * width) - 1 := by
    interval_cases width <;> rfl
  rw [UInt64.toNat_and, hmask, Nat.and_two_pow_sub_one_eq_mod]

/-- **The number of an operand** is the constant that it is. -/
theorem operandNumber_eq_some_iff {op : DecodedOperand} :
    operandNumber image ins op = some v ↔ IsConstant image ins op v := by
  rw [operandNumber, IsConstant, constantBytes]
  cases op.kind with
  | imm =>
    dsimp only
    simp only [true_and, reduceCtorEq, false_and, or_false, Option.some.injEq]
    split_ifs with hwidth
    · rw [← toNat_and_mask op.imm hwidth.2, ← UInt64.toNat_inj, eq_comm]
    · rw [Nat.mod_eq_of_lt op.imm.toNat_lt, ← UInt64.toNat_inj, eq_comm]
  | immMem => simp [eq_comm]
  | _ => simp

theorem isPointer_iff : isPointer image v ↔ Readable image v := by
  rw [isPointer, Bool.and_eq_true, decide_eq_true_eq, probeReadable_one_iff, Readable]

theorem isStackReg_iff {is64bit : Bool} {r : ZydisRegister} :
    isStackReg regs r is64bit ↔ IsStackPart regs is64bit r := by
  rw [isStackReg, IsStackPart, IsPartOf, IsPartOf]
  by_cases hr : r = .none
  · simp [hr]
  · cases is64bit <;> simp [hr]

theorem isFrameAccess_iff {op : DecodedOperand} : IsFrameAccess regs image op ↔
    ¬op.sibEncoded ∧ isOffsetExcludedReg regs op.baseReg image.is64bit := by
  rw [IsFrameAccess, isOffsetExcludedReg, IsPartOf, IsPartOf]
  refine and_congr_right fun _ => ?_
  by_cases hr : op.baseReg = .none
  · simp [hr]
  · cases image.is64bit <;> simp [hr, or_comm]

theorem isAddEsp_iff : isAddEsp ins ↔ AddsToEsp ins := by
  rw [isAddEsp, AddsToEsp, decide_eq_true_eq, DecodedInsn.operand]
  cases ins.operands <;> simp

theorem isPlainNumber_iff {op : DecodedOperand} :
    IsPlainNumber image ins op v ↔
      operandNumber image ins op = some v ∧ ¬isAddEsp ins ∧ ¬isPointer image v := by
  rw [operandNumber_eq_some_iff, isPointer_iff, isAddEsp_iff]
  exact ⟨fun h => ⟨h.constant, h.notStack, h.notPointer⟩, fun h => ⟨h.1, h.2.1, h.2.2⟩⟩

/-- A base that is no register is no frame access. -/
theorem not_isFrameAccess_of_baseReg {op : DecodedOperand} (h : op.baseReg = .none) :
    ¬IsFrameAccess regs image op := by
  rintro ⟨-, ⟨hbase, -⟩ | ⟨-, hbase, -⟩⟩ <;> exact hbase h

/-- **The offset of an operand** is the one of the place in memory that it is. -/
theorem operandOffset_eq_some_iff {op : DecodedOperand} {off : Int64} :
    operandOffset regs image op = some off ↔ IsPlaceOffset regs image op off := by
  rw [operandOffset]
  constructor
  · intro h
    split_ifs at h with hkind hframe hunbased
    · obtain rfl := Option.some.inj h
      exact .unbased hunbased.1 hunbased.2
    · obtain rfl := Option.some.inj h
      have hframe : ¬IsFrameAccess regs image op := mt isFrameAccess_iff.mp hframe
      rcases not_and_or.mp hkind with hplain | hsib
      · exact .plain (not_not.mp hplain) hframe
      · have hsib := not_not.mp hsib
        exact .based hsib (fun hbase => hunbased ⟨hsib, hbase⟩) hframe
  · rintro (⟨hkind, hframe⟩ | ⟨hkind, hbase, hframe⟩ | ⟨hkind, hbase⟩)
    · rw [if_neg (by simp [hkind]), if_neg (mt isFrameAccess_iff.mpr hframe),
        if_neg (by simp [hkind])]
    · rw [if_neg (by simp [hkind]), if_neg (mt isFrameAccess_iff.mpr hframe),
        if_neg (by simp [hbase])]
    · have hframe : ¬IsFrameAccess regs image op := not_isFrameAccess_of_baseReg hbase
      rw [if_neg (by simp [hkind]), if_neg (mt isFrameAccess_iff.mpr hframe),
        if_pos ⟨hkind, hbase⟩]

/-- A frame access has a part of the stack pointer or the frame pointer as its base. -/
theorem IsFrameAccess.isStackPart {op : DecodedOperand} (h : IsFrameAccess regs image op) :
    IsStackPart regs image.is64bit op.baseReg :=
  h.2.elim Or.inr fun h => Or.inl h.2

/-- Neither the address of something that can be read nor its place in the image. -/
theorem not_probeReadable_iff :
    ¬image.probeReadable (if image.imageBase ≤ v then v - image.imageBase else v).toNat 1 ↔
      ¬Readable image v ∧ (v < image.imageBase → ¬ReadableRva image v.toNat) := by
  rw [probeReadable_one_iff, Readable]
  split_ifs with hbase
  · have hlt : ¬v < image.imageBase := UInt64.not_lt.mpr hbase
    simp [hbase, hlt]
  · have hlt : v < image.imageBase := UInt64.not_le.mp hbase
    simp [hbase, hlt]

/-- **The number of a `lea`** is the displacement of an operand that has an offset. -/
theorem isLeaNumber_iff {op : DecodedOperand} : IsLeaNumber regs image ins op v ↔
    (operandOffset regs image op).isSome ∧ isLeaNumber regs image ins op ∧ v = asU64 op.disp := by
  rw [isLeaNumber, decide_eq_true_eq, isStackReg_iff, not_probeReadable_iff,
    Option.isSome_iff_exists]
  constructor
  · rintro ⟨hlea, hplace, hindex, hstack, hpositive, rfl, hpointer, hrva⟩
    refine ⟨?_, ⟨hlea, hpositive, hstack, hindex, hpointer, hrva⟩, rfl⟩
    have hframe : ¬IsFrameAccess regs image op := fun h => hstack h.isStackPart
    simp only [operandOffset_eq_some_iff]
    rcases hplace with hkind | hkind
    · exact ⟨_, .plain hkind hframe⟩
    · by_cases hbase : op.baseReg = .none
      · exact ⟨_, .unbased hkind hbase⟩
      · exact ⟨_, .based hkind hbase hframe⟩
  · rintro ⟨⟨off, hoff⟩, ⟨hlea, hpositive, hstack, hindex, hpointer, hrva⟩, rfl⟩
    refine ⟨hlea, ?_, hindex, hstack, hpositive, rfl, hpointer, hrva⟩
    rcases operandOffset_eq_some_iff.mp hoff with ⟨hkind, -⟩ | ⟨hkind, -⟩ | ⟨hkind, -⟩
    · exact Or.inl hkind
    · exact Or.inr hkind
    · exact Or.inr hkind

theorem isFieldAdd_iff : isFieldAdd regs image ins v ↔ IsFieldAdd regs image ins v := by
  rw [isFieldAdd, decide_eq_true_eq, isStackReg_iff, UInt64.lt_iff_toNat_lt,
    UInt64.lt_iff_toNat_lt, DecodedInsn.operand]
  have hsize : kMaxStructureSize.toNat = 0x10000 := rfl
  rw [hsize, UInt64.toNat_zero]
  constructor
  · rintro ⟨hadd, hlength, hkind, hstack, hpositive, hsmall⟩
    refine ⟨hadd, ?_, hpositive, hsmall⟩
    obtain ⟨dst, src, rest, hoperands⟩ : ∃ dst src rest, ins.operands = dst :: src :: rest := by
      rcases hcases : ins.operands with _ | ⟨dst, _ | ⟨src, rest⟩⟩
      · exact absurd hlength (by simp [hcases])
      · exact absurd hlength (by simp [hcases])
      · exact ⟨dst, src, rest, rfl⟩
    rw [hoperands] at hkind hstack
    exact ⟨dst, src, rest, hoperands, hkind, hstack⟩
  · rintro ⟨hadd, ⟨dst, src, rest, hoperands, hkind, hstack⟩, hpositive, hsmall⟩
    rw [hoperands]
    exact ⟨hadd, by simp, hkind, hstack, hpositive, hsmall⟩

theorem mem_numberFeatures_iff {i : ℕ} : f ∈ numberFeatures ins i v ↔
    f = (.number (.uint64 v), .absoluteVirtual ins.va) ∨
      f = (.operandNumber i (.uint64 v), .absoluteVirtual ins.va) := by
  simp [numberFeatures]

theorem mem_offsetFeatures_iff {i : ℕ} {off : Int64} : f ∈ offsetFeatures ins i off ↔
    f = (.offset off, .absoluteVirtual ins.va) ∨
      f = (.operandOffset i off, .absoluteVirtual ins.va) := by
  simp [offsetFeatures]

theorem mem_extractNumber_iff : f ∈ extractNumber regs image ins ↔
    ∃ op i, ins.operands[i]? = some op ∧ ∃ v, IsPlainNumber image ins op v ∧
      (f ∈ numberFeatures ins i v ∨
        isFieldAdd regs image ins v ∧ f ∈ offsetFeatures ins i v.toInt64) := by
  rw [extractNumber, List.mem_flatMap]
  simp only [Prod.exists, List.mem_zipIdx_iff_getElem?, isPlainNumber_iff]
  refine exists_congr fun op => exists_congr fun i => and_congr_right fun _ => ?_
  cases operandNumber image ins op with
  | none => simp
  | some v =>
    by_cases hstack : isAddEsp ins
    · simp [hstack]
    · by_cases hpointer : isPointer image v
      · simp [hpointer]
      · by_cases hfield : isFieldAdd regs image ins v <;> simp [hstack, hpointer, hfield]

theorem mem_extractOffset_iff : f ∈ extractOffset regs image ins ↔
    ∃ op i, ins.operands[i]? = some op ∧ ∃ off, operandOffset regs image op = some off ∧
      (f ∈ offsetFeatures ins i off ∨
        isLeaNumber regs image ins op ∧ f ∈ numberFeatures ins i (asU64 op.disp)) := by
  rw [extractOffset, List.mem_flatMap]
  simp only [Prod.exists, List.mem_zipIdx_iff_getElem?]
  refine exists_congr fun op => exists_congr fun i => and_congr_right fun _ => ?_
  cases operandOffset regs image op with
  | none => simp
  | some off => by_cases hlea : isLeaNumber regs image ins op <;> simp [hlea]

/-- **The features of the operands** are those of their numbers and of their offsets. -/
theorem mem_operandFeatures_iff :
    f ∈ extractNumber regs image ins ∨ f ∈ extractOffset regs image ins ↔
      ∃ op i, ins.operands[i]? = some op ∧
        ((∃ v, HasNumber regs image ins op v ∧ f ∈ numberFeatures ins i v) ∨
          ∃ off, HasOffset regs image ins op off ∧ f ∈ offsetFeatures ins i off) := by
  rw [mem_extractNumber_iff, mem_extractOffset_iff]
  simp only [HasNumber, HasOffset, isLeaNumber_iff, ← isFieldAdd_iff, ← operandOffset_eq_some_iff]
  constructor
  · rintro (⟨op, i, hop, v, hv, hf | ⟨hfield, hf⟩⟩ | ⟨op, i, hop, off, hoff, hf | ⟨hlea, hf⟩⟩)
    · exact ⟨op, i, hop, Or.inl ⟨v, Or.inl hv, hf⟩⟩
    · exact ⟨op, i, hop, Or.inr ⟨_, Or.inr ⟨v, hv, hfield, rfl⟩, hf⟩⟩
    · exact ⟨op, i, hop, Or.inr ⟨off, Or.inl hoff, hf⟩⟩
    · exact ⟨op, i, hop, Or.inl ⟨_, Or.inr ⟨hoff ▸ rfl, hlea, rfl⟩, hf⟩⟩
  · rintro ⟨op, i, hop, ⟨v, hv | ⟨hoff, hlea, rfl⟩, hf⟩ | ⟨off, hoff | ⟨v, hv, hfield, rfl⟩, hf⟩⟩
    · exact Or.inl ⟨op, i, hop, v, hv, Or.inl hf⟩
    · obtain ⟨off, hoff⟩ := Option.isSome_iff_exists.mp hoff
      exact Or.inr ⟨op, i, hop, off, hoff, Or.inr ⟨hlea, hf⟩⟩
    · exact Or.inr ⟨op, i, hop, off, hoff, Or.inl hf⟩
    · exact Or.inl ⟨op, i, hop, v, hv, Or.inr ⟨hfield, hf⟩⟩

end Numbers

end Papa.Extractors
