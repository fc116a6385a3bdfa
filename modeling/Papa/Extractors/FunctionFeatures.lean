import Papa.Extractors.InsnFeatures
import Papa.Viv.CallGraph
import Papa.Viv.Engine

/-!
# The features of functions

The discovery of an image, with a signature set that has no trees, gives functions whose
instructions are decoded where they are, whose edges are told alike forwards and backwards, and
whose callers are those that call them. So the searches in their graphs find what they should, and
the features of calls agree between a function and its callers.

## Main definitions

* `extractCallsFrom`, `extractCallsTo`, `extractRecursiveCall`, `extractFunctionFeatures`: the
  features of a function.
* `Native.ofRecovered`: a function as the extractors read it.
* `recoveredFunctions`: the functions of an image.

## Main results

* `exists_cfg_of_mem_recoveredFunctions`: a function that is recovered is as the search for
  definitions needs it.
* `recoveredFunctions_calls`: a function is called from where another one calls it.
-/

namespace Papa.Extractors

open Emu Features Pe

/-! ### The features -/

section Features

variable (fn : Native.Function)

/-- The instructions of a function, block by block. -/
def Native.Function.instructions : List Native.DecodedInsn :=
  fn.basicBlocks.flatMap (·.instructions)

/-- The calls of a function that tell what they call. -/
def Native.Function.directCalls : List Native.DecodedInsn :=
  fn.instructions.filter fun ins => ins.isCall && ins.branchTarget.isSome

/-- `extract_calls_from`. -/
def extractCallsFrom : List (FeatureValue × Address) :=
  fn.directCalls.map fun ins => makeCharacteristic "calls from" ins.va

/-- `extract_calls_to`. -/
def extractCallsTo : List (FeatureValue × Address) :=
  fn.callers.map (makeCharacteristic "calls to")

/-- `extract_recursive_call`: the first call of the function itself. -/
def extractRecursiveCall : Option (FeatureValue × Address) :=
  (fn.directCalls.find? fun ins => ins.branchTarget = some fn.va).map fun ins =>
    makeCharacteristic "recursive call" ins.va

/-- `extract_function_name`. -/
def extractFunctionName (symbol : Str) : Option (FeatureValue × Address) :=
  if symbol = [] then none else some (.functionName symbol, .absoluteVirtual fn.va)

/-- `extract_function_features`. It has no result if the search for a loop has none. -/
def extractFunctionFeatures (symbol : Str) : Option (List (FeatureValue × Address)) :=
  (extractLoop fn.toFunction).map fun loop =>
    loop.toList ++ extractCallsFrom fn ++ extractCallsTo fn ++ (extractRecursiveCall fn).toList ++
      (extractFunctionName fn symbol).toList

end Features

/-! ### What is recovered -/

/-- What an instruction holds that the discovery does not read. -/
structure Native.Payload where
  mnem : Mnemonic
  operands : List DecodedOperand
  mnemonicStr : Str
  hasPrefixFs : Bool
  hasPrefixGs : Bool

namespace Native

/-- An instruction as the extractors read it. -/
def ofInsn (op : Viv.DecodedInsn Payload) : DecodedInsn where
  va := op.va
  length := op.length
  mnem := op.inner.mnem
  operands := op.inner.operands
  isCall := op.isCall
  isJump := op.isJump
  isConditional := op.isConditional
  isReturn := op.isReturn
  branchTarget := op.branchTarget
  isFallthrough := op.isFallthrough
  mnemonicStr := op.inner.mnemonicStr
  hasPrefixFs := op.inner.hasPrefixFs
  hasPrefixGs := op.inner.hasPrefixGs

/-- A block as the extractors read it. -/
def ofBlock (bb : Viv.LinkedBlock Payload) : BasicBlock :=
  ⟨bb.va, bb.instructions.map ofInsn, bb.successors, bb.predecessors⟩

/-- A function as the extractors read it. -/
def ofRecovered (f : Viv.RecoveredFunction Payload) : Function :=
  ⟨f.va, f.basicBlocks.map ofBlock, f.callers⟩

end Native

/-- The functions of an image after calls of the driver. -/
def recoveredFunctions (engine : Viv.Engine Native.Payload)
    (s : Viv.CodeFlowContext (Viv.Logged Native.Payload)) : List Native.Function :=
  (Viv.fillCallers (s.ext.disc.materializeFunctions engine.reader)).map Native.ofRecovered

/-! ### Instructions are decoded where they are -/

section Reader

variable {ι : Type} {engine : Viv.Engine ι} {va : UInt64} {op : Viv.DecodedInsn ι}

theorem va_of_decode {zydis : List UInt8 → UInt64 → Option (Viv.DecodedInsn ι)}
    {bytes : List UInt8} (h : Viv.Disassembler.decode zydis bytes va = .ok op) : op.va = va := by
  rw [Viv.Disassembler.decode] at h
  split_ifs at h
  split at h
  · cases h
  · split_ifs at h
    cases h
    rfl

theorem va_of_reader (h : engine.reader va = some op) : op.va = va := by
  have hok : engine.image.imageReader (Viv.Disassembler.decode engine.zydis) va = .ok op := by
    rw [Viv.Engine.reader] at h
    cases hread : engine.image.imageReader (Viv.Disassembler.decode engine.zydis) va with
    | error e =>
      rw [hread] at h
      cases h
    | ok op' =>
      rw [hread] at h
      exact congrArg Except.ok (Option.some.inj h)
  rw [PeImage.imageReader] at hok
  split_ifs at hok
  dsimp only at hok
  split at hok
  · exact va_of_decode hok
  · cases hok

/-- The instructions of a block are read. -/
theorem exists_of_mem_blockInstructions {reader : UInt64 → Option (Viv.DecodedInsn ι)} {fuel : ℕ}
    {start stop : UInt64} (h : op ∈ Viv.blockInstructions reader fuel start stop) :
    ∃ a, reader a = some op := by
  induction fuel generalizing start with
  | zero => exact absurd h List.not_mem_nil
  | succ fuel ih =>
    rw [Viv.blockInstructions] at h
    split_ifs at h
    · cases hread : reader start with
      | none =>
        rw [hread] at h
        exact absurd h List.not_mem_nil
      | some insn =>
        rw [hread] at h
        rcases List.mem_cons.mp h with rfl | h
        · exact ⟨start, hread⟩
        · split_ifs at h
          · exact absurd h List.not_mem_nil
          · exact ih h
    · exact absurd h List.not_mem_nil

end Reader

section Recovered

variable {engine : Viv.Engine Native.Payload} {cs : List Viv.Driver.Call}
  {s : Viv.CodeFlowContext (Viv.Logged Native.Payload)}

/-- What a function is made of, before its callers are filled in. -/
theorem exists_of_mem_fillCallers_materialize {f : Viv.RecoveredFunction Native.Payload}
    (hf : f ∈ Viv.fillCallers (s.ext.disc.materializeFunctions engine.reader)) :
    f.basicBlocks = Viv.linkBlocks (s.ext.disc.materializeFunction engine.reader f.va) ∧
      f.callees = Viv.directCallees (s.ext.disc.materializeFunction engine.reader f.va) := by
  obtain ⟨g, hg, hva, hbasicBlocks, hcallees⟩ := Viv.exists_of_mem_fillCallers hf
  obtain ⟨fva, -, rfl⟩ := List.mem_map.mp hg
  rw [hbasicBlocks, hcallees, hva]
  exact ⟨rfl, rfl⟩

/-- An instruction of a function is the one that is read at its address. -/
theorem reader_of_mem_instructions {f : Viv.RecoveredFunction Native.Payload}
    (hf : f ∈ Viv.fillCallers (s.ext.disc.materializeFunctions engine.reader))
    {bb : Viv.LinkedBlock Native.Payload} (hbb : bb ∈ f.basicBlocks)
    {op : Viv.DecodedInsn Native.Payload} (hop : op ∈ bb.instructions) :
    engine.reader op.va = some op := by
  rw [(exists_of_mem_fillCallers_materialize hf).1] at hbb
  obtain ⟨b, -, heq⟩ := List.mem_map.mp (Viv.predecessors_of_mem_linkBlocks hbb).1
  have hinstructions : bb.instructions = _ := congrArg Viv.BasicBlock.instructions heq.symm
  rw [hinstructions] at hop
  obtain ⟨a, ha⟩ := exists_of_mem_blockInstructions hop
  rwa [va_of_reader ha]

/-- **A function that is recovered** is as the search for definitions needs it: its blocks ascend,
its edges are told alike forwards and backwards, and one instruction is decoded at an address. -/
theorem exists_cfg_of_mem_recoveredFunctions (h : engine.driver.Runs cs s) {fn : Native.Function}
    (hfn : fn ∈ recoveredFunctions engine s) : ∃ cfg : Native.Cfg, cfg.toFunction = fn := by
  obtain ⟨f, hf, rfl⟩ := List.mem_map.mp hfn
  have hlinked : Viv.Driver.BlocksLinked f.basicBlocks :=
    (exists_of_mem_fillCallers_materialize hf).1 ▸ Viv.Driver.blocksLinked_linkBlocks h f.va
  have hblocks : (Native.ofRecovered f).toFunction.basicBlocks =
      f.basicBlocks.map fun bb => (Native.ofBlock bb).toBasicBlock := List.map_map
  refine ⟨⟨Native.ofRecovered f, ?_, ?_, ?_⟩, rfl⟩
  · rw [hblocks, List.pairwise_map]
    exact List.pairwise_map.mp hlinked.ascending
  · rw [hblocks]
    intro c' hc' p
    obtain ⟨c, hc, rfl⟩ := List.mem_map.mp hc'
    constructor
    · intro hp
      obtain ⟨b, hb, rfl⟩ := hlinked.predecessors c hc p hp
      have hcount := hlinked.count_eq b hb c hc
      have hpos : 0 < b.successors.count c.va := hcount ▸ List.count_pos_iff.mpr hp
      exact ⟨_, List.mem_map_of_mem hb, rfl, List.count_pos_iff.mp hpos⟩
    · rintro ⟨b', hb', rfl, hsuccessor⟩
      obtain ⟨b, hb, rfl⟩ := List.mem_map.mp hb'
      have hcount := hlinked.count_eq b hb c hc
      have hpos : 0 < c.predecessors.count b.va := hcount ▸ List.count_pos_iff.mpr hsuccessor
      exact List.count_pos_iff.mp hpos
  · rw [hblocks]
    intro b' hb' c' hc' i hi j hj hva
    obtain ⟨b, hb, rfl⟩ := List.mem_map.mp hb'
    obtain ⟨c, hc, rfl⟩ := List.mem_map.mp hc'
    obtain ⟨i', hi', rfl⟩ := List.mem_map.mp hi
    obtain ⟨op, hop, rfl⟩ := List.mem_map.mp hi'
    obtain ⟨j', hj', rfl⟩ := List.mem_map.mp hj
    obtain ⟨op', hop', rfl⟩ := List.mem_map.mp hj'
    have hread := reader_of_mem_instructions hf hb hop
    have hread' := reader_of_mem_instructions hf hc hop'
    have heq : op.va = op'.va := hva
    rw [heq, hread'] at hread
    rw [Option.some.inj hread]

end Recovered

/-! ### Calls between functions -/

section Calls

variable {fn : Native.Function} {f : FeatureValue × Address}

theorem mem_directCalls_iff {ins : Native.DecodedInsn} : ins ∈ fn.directCalls ↔
    ins ∈ fn.instructions ∧ ins.isCall = true ∧ ins.branchTarget.isSome := by
  rw [Native.Function.directCalls, List.mem_filter, Bool.and_eq_true]

/-- The features of a function. -/
theorem exists_extractFunctionFeatures (fn : Native.Function) (symbol : Str) :
    ∃ out, extractFunctionFeatures fn symbol = some out ∧ ∀ f, f ∈ out ↔
      extractLoop fn.toFunction = some (some f) ∨ f ∈ extractCallsFrom fn ∨ f ∈ extractCallsTo fn ∨
        extractRecursiveCall fn = some f ∨ extractFunctionName fn symbol = some f := by
  have hloop : ∃ loop, extractLoop fn.toFunction = some loop := by
    rw [extractLoop]
    split_ifs
    · exact ⟨none, rfl⟩
    · obtain ⟨cycle, hcycle, -⟩ := @hasCycle_iff _ fn.toFunction.succ
      exact ⟨_, congrArg (Option.map _) hcycle⟩
  obtain ⟨loop, hloop⟩ := hloop
  rw [extractFunctionFeatures, hloop]
  refine ⟨_, rfl, fun f => ?_⟩
  simp only [List.mem_append, Option.mem_toList, or_assoc, Option.some.injEq]

/-- The name of a characteristic tells which one it is. -/
theorem makeCharacteristic_inj {a b : String} {va va' : UInt64}
    (h : makeCharacteristic a va = makeCharacteristic b va') : str a = str b ∧ va = va' := by
  obtain ⟨hname, haddress⟩ := Prod.mk.inj h
  exact ⟨FeatureValue.characteristic.inj hname, Address.absoluteVirtual.inj haddress⟩

theorem exists_of_extractRecursiveCall (h : extractRecursiveCall fn = some f) :
    ∃ ins ∈ fn.directCalls, ins.branchTarget = some fn.va ∧
      f = makeCharacteristic "recursive call" ins.va := by
  obtain ⟨ins, hfind, rfl⟩ := Option.map_eq_some_iff.mp h
  have htarget := List.find?_some hfind
  rw [decide_eq_true_eq] at htarget
  exact ⟨ins, List.mem_of_find?_eq_some hfind, htarget, rfl⟩

theorem isSome_extractRecursiveCall_iff : (extractRecursiveCall fn).isSome ↔
    ∃ ins ∈ fn.directCalls, ins.branchTarget = some fn.va := by
  rw [extractRecursiveCall, Option.isSome_map, List.find?_isSome]
  simp only [decide_eq_true_eq]

/-- The characteristics of a function by their names. -/
theorem exists_byName (fn : Native.Function) (symbol : Str) :
    ∃ out, extractFunctionFeatures fn symbol = some out ∧
      ∀ name a, makeCharacteristic name a ∈ out ↔
        (str name = str "loop" ∧
          extractLoop fn.toFunction = some (some (makeCharacteristic name a))) ∨
        (str name = str "calls from" ∧ ∃ ins ∈ fn.directCalls, ins.va = a) ∨
        (str name = str "calls to" ∧ a ∈ fn.callers) ∨
        (str name = str "recursive call" ∧
          extractRecursiveCall fn = some (makeCharacteristic name a)) := by
  obtain ⟨out, hout, hmem⟩ := exists_extractFunctionFeatures fn symbol
  refine ⟨out, hout, fun name a => (hmem _).trans ?_⟩
  refine or_congr ?_ (or_congr ?_ (or_congr ?_ ?_))
  · exact (and_iff_right_of_imp fun h => (makeCharacteristic_inj (eq_of_extractLoop h)).1).symm
  · rw [extractCallsFrom, List.mem_map]
    constructor
    · rintro ⟨ins, hins, heq⟩
      obtain ⟨hname, rfl⟩ := makeCharacteristic_inj heq
      exact ⟨hname.symm, ins, hins, rfl⟩
    · rintro ⟨hname, ins, hins, rfl⟩
      exact ⟨ins, hins, by rw [makeCharacteristic, makeCharacteristic, hname]⟩
  · rw [extractCallsTo, List.mem_map]
    constructor
    · rintro ⟨va, hva, heq⟩
      obtain ⟨hname, rfl⟩ := makeCharacteristic_inj heq
      exact ⟨hname.symm, hva⟩
    · rintro ⟨hname, ha⟩
      exact ⟨a, ha, by rw [makeCharacteristic, makeCharacteristic, hname]⟩
  · have hnot : extractFunctionName fn symbol ≠ some (makeCharacteristic name a) := by
      rw [extractFunctionName, makeCharacteristic]
      split_ifs <;> simp
    rw [or_iff_left hnot]
    refine (and_iff_right_of_imp fun h => ?_).symm
    obtain ⟨ins, -, -, heq⟩ := exists_of_extractRecursiveCall h
    exact (makeCharacteristic_inj heq).1

/-- **The characteristics of calls** of a function tell who calls it, where it calls, and whether it
calls itself. -/
theorem exists_calls (fn : Native.Function) (symbol : Str) :
    ∃ out, extractFunctionFeatures fn symbol = some out ∧
      (∀ a, makeCharacteristic "calls to" a ∈ out ↔ a ∈ fn.callers) ∧
      (∀ a, makeCharacteristic "calls from" a ∈ out ↔ ∃ ins ∈ fn.directCalls, ins.va = a) ∧
      ((∃ a, makeCharacteristic "recursive call" a ∈ out) ↔
        ∃ ins ∈ fn.directCalls, ins.branchTarget = some fn.va) := by
  obtain ⟨out, hout, hmem⟩ := exists_byName fn symbol
  refine ⟨out, hout, fun a => ?_, fun a => ?_, ?_⟩
  · simp [hmem, (by decide : str "calls to" ≠ str "loop"),
      (by decide : str "calls to" ≠ str "calls from"),
      (by decide : str "calls to" ≠ str "recursive call")]
  · simp [hmem, (by decide : str "calls from" ≠ str "loop"),
      (by decide : str "calls from" ≠ str "calls to"),
      (by decide : str "calls from" ≠ str "recursive call")]
  · rw [← isSome_extractRecursiveCall_iff]
    simp only [hmem, (by decide : str "recursive call" ≠ str "loop"),
      (by decide : str "recursive call" ≠ str "calls to"),
      (by decide : str "recursive call" ≠ str "calls from"), false_and, false_or, true_and]
    constructor
    · rintro ⟨a, h⟩
      exact Option.isSome_of_eq_some h
    · intro h
      obtain ⟨f, hf⟩ := Option.isSome_iff_exists.mp h
      obtain ⟨ins, -, -, rfl⟩ := exists_of_extractRecursiveCall hf
      exact ⟨ins.va, hf⟩

end Calls

/-! ### Calls between the functions of an image -/

section Image

variable {engine : Viv.Engine Native.Payload} {cs : List Viv.Driver.Call}
  {s : Viv.CodeFlowContext (Viv.Logged Native.Payload)}

/-- A function calls what its direct calls tell. -/
theorem mem_callees_iff {f : Viv.RecoveredFunction Native.Payload}
    (hf : f ∈ Viv.fillCallers (s.ext.disc.materializeFunctions engine.reader)) {va : UInt64} :
    va ∈ f.callees ↔
      ∃ ins ∈ (Native.ofRecovered f).directCalls, ins.branchTarget = some va := by
  obtain ⟨hblocks, hcallees⟩ := exists_of_mem_fillCallers_materialize hf
  rw [hcallees, Viv.mem_directCallees_iff]
  constructor
  · rintro ⟨bb, hbb, op, hop, hcall, htarget⟩
    rw [← Viv.map_toBasicBlock_linkBlocks (s.ext.disc.materializeFunction engine.reader f.va),
      ← hblocks] at hbb
    obtain ⟨b, hb, rfl⟩ := List.mem_map.mp hbb
    refine ⟨Native.ofInsn op, mem_directCalls_iff.mpr ⟨?_, hcall, ?_⟩, htarget⟩
    · exact List.mem_flatMap.mpr ⟨_, List.mem_map_of_mem hb, List.mem_map_of_mem hop⟩
    · exact Option.isSome_of_eq_some htarget
  · rintro ⟨ins, hins, htarget⟩
    obtain ⟨hmem, hcall, -⟩ := mem_directCalls_iff.mp hins
    obtain ⟨bb, hbb, hmem⟩ := List.mem_flatMap.mp hmem
    obtain ⟨b, hb, rfl⟩ := List.mem_map.mp hbb
    obtain ⟨op, hop, rfl⟩ := List.mem_map.mp hmem
    rw [hblocks] at hb
    exact ⟨b.toBasicBlock, (Viv.predecessors_of_mem_linkBlocks hb).1, op, hop, hcall, htarget⟩

theorem map_va_materializeFunctions :
    (s.ext.disc.materializeFunctions engine.reader).map (·.va) = s.ext.disc.functionEntries := by
  rw [Viv.Discovery.materializeFunctions, List.map_map]
  exact List.map_id _

/-- The functions that are recovered are those that were entered. -/
theorem map_va_recoveredFunctions :
    (recoveredFunctions engine s).map (·.va) = s.ext.disc.functionEntries := by
  have hvas : (recoveredFunctions engine s).map (·.va) =
      (s.ext.disc.materializeFunctions engine.reader).map (·.va) := by
    rw [recoveredFunctions, List.map_map]
    exact Viv.map_va_fillCallers
  exact hvas.trans map_va_materializeFunctions

/-- The callers of a function are those with a direct call of it. -/
theorem mem_callers_iff_of_mem_recoveredFunctions (h : engine.driver.Runs cs s)
    {fn : Native.Function} (hfn : fn ∈ recoveredFunctions engine s) {a : UInt64} :
    a ∈ fn.callers ↔ ∃ caller ∈ recoveredFunctions engine s,
      caller.va = a ∧ ∃ ins ∈ caller.directCalls, ins.branchTarget = some fn.va := by
  obtain ⟨f, hf, rfl⟩ := List.mem_map.mp hfn
  have hnodup : ((s.ext.disc.materializeFunctions engine.reader).map (·.va)).Nodup :=
    map_va_materializeFunctions ▸ (Viv.Driver.builtOnce_of_runs h).nodup
  refine (Viv.mem_callers_iff hnodup hf).trans ?_
  constructor
  · rintro ⟨g, hg, rfl, hcallee⟩
    have hmem := List.mem_map_of_mem (f := (·.va)) hg
    rw [← Viv.map_va_fillCallers] at hmem
    obtain ⟨g', hg', hva⟩ := List.mem_map.mp hmem
    obtain ⟨g₁, hg₁, hva₁, -, hcallees⟩ := Viv.exists_of_mem_fillCallers hg'
    obtain rfl := List.inj_on_of_nodup_map hnodup hg₁ hg (hva₁.symm.trans hva)
    exact ⟨_, List.mem_map_of_mem hg', hva, (mem_callees_iff hg').mp (hcallees ▸ hcallee)⟩
  · rintro ⟨caller, hcaller, rfl, hins⟩
    obtain ⟨g', hg', rfl⟩ := List.mem_map.mp hcaller
    obtain ⟨g, hg, hva, -, hcallees⟩ := Viv.exists_of_mem_fillCallers hg'
    exact ⟨g, hg, hva.symm, hcallees ▸ (mem_callees_iff hg').mpr hins⟩

/-- **Calls between functions** are told alike at both ends. A function that the discovery recovers
is called from another one exactly if that one has a direct call with its address, and calls itself
exactly if it is called from itself. -/
theorem recoveredFunctions_calls (h : engine.driver.Runs cs s) (symbol : UInt64 → Str) :
    ∀ fn ∈ recoveredFunctions engine s,
      ∃ out, extractFunctionFeatures fn (symbol fn.va) = some out ∧
        (∀ a, makeCharacteristic "calls to" a ∈ out ↔ ∃ caller ∈ recoveredFunctions engine s,
          caller.va = a ∧ ∃ ins ∈ caller.directCalls, ins.branchTarget = some fn.va) ∧
        (∀ a, makeCharacteristic "calls from" a ∈ out ↔ ∃ ins ∈ fn.directCalls, ins.va = a) ∧
        ((∃ a, makeCharacteristic "recursive call" a ∈ out) ↔
          makeCharacteristic "calls to" fn.va ∈ out) := by
  intro fn hfn
  obtain ⟨out, hout, hto, hfrom, hrecursive⟩ := exists_calls fn (symbol fn.va)
  have hcallers (a : UInt64) := (hto a).trans (mem_callers_iff_of_mem_recoveredFunctions h hfn)
  refine ⟨out, hout, hcallers, hfrom, hrecursive.trans ?_⟩
  rw [hcallers]
  constructor
  · intro hins
    exact ⟨fn, hfn, rfl, hins⟩
  · rintro ⟨caller, hcaller, hva, hins⟩
    have hnodup : ((recoveredFunctions engine s).map (·.va)).Nodup :=
      map_va_recoveredFunctions ▸ (Viv.Driver.builtOnce_of_runs h).nodup
    obtain rfl := List.inj_on_of_nodup_map hnodup hcaller hfn hva
    exact hins

end Image

/-! ### Two functions -/

/-- A 32-bit image of a call, a branch back to it and a return, and a return at the target of the
call. -/
def callEngine : Viv.Engine Native.Payload where
  image := { buffer := [0xE8, 3, 0, 0, 0, 0x74, 0xF9, 0xC3, 0xC3], imageBase := 0x400000,
             entryPointRva := 0x1000, sections := [⟨str ".text", 0x1000, 9, 0, 9, 0x60000020⟩] }
  zydis bytes va :=
    if bytes.head? = some 0xE8 then
      some ⟨va, 5, [.pcRel], true, false, false, false, some (va + 8), true,
        ⟨.call, [], str "call", false, false⟩⟩
    else if bytes.head? = some 0x74 then
      some ⟨va, 2, [.pcRel], false, true, true, false, some (va - 5), true,
        ⟨.j .z, [], str "jz", false, false⟩⟩
    else if bytes.head? = some 0xC3 then
      some ⟨va, 1, [], false, false, false, true, none, false, ⟨.ret, [], str "ret", false, false⟩⟩
    else none
  isLea _ := false
  disp _ _ := 0
  resolveJumpTable _ := none
  apiNoReturn _ := false
  validateCandidate _ := true
  discoverCallTargets _ := []

/-- Where the blocks of a function lead, what calls it, and what it calls. -/
def edgesAndCalls (fn : Native.Function) :
    UInt64 × List (UInt64 × List UInt64) × List UInt64 × List (Option UInt64) :=
  (fn.va, fn.basicBlocks.map (fun bb => (bb.va, bb.successors)), fn.callers,
    fn.directCalls.map (·.branchTarget))

theorem exists_runs_callEngine : ∃ s, callEngine.driver.Runs [.makeFunction 0x401000] s ∧
    (recoveredFunctions callEngine s).map edgesAndCalls =
      [(0x401008, [(0x401008, [])], [0x401000], []),
        (0x401000, [(0x401000, [0x401000, 0x401007]), (0x401007, [])], [], [some 0x401008])] := by
  have hrun : (callEngine.driver.run 16 { ext := {} } (.makeFunction 0x401000)).any (fun s =>
      (recoveredFunctions callEngine s).map edgesAndCalls =
        [(0x401008, [(0x401008, [])], [0x401000], []),
          (0x401000, [(0x401000, [0x401000, 0x401007]), (0x401007, [])], [],
            [some 0x401008])]) = true := by
    decide +kernel
  obtain ⟨s, hs, hfunctions⟩ := (Option.any_eq_true _ _).mp hrun
  have hruns : callEngine.driver.Runs ([] ++ [.makeFunction 0x401000]) s := .call 16 _ .nil hs
  exact ⟨s, hruns, of_decide_eq_true hfunctions⟩

theorem exists_cfg_of_mem_recoveredFunctions_call : ∃ s,
    callEngine.driver.Runs [.makeFunction 0x401000] s ∧
      ∃ fn ∈ recoveredFunctions callEngine s,
        edgesAndCalls fn = (0x401000, [(0x401000, [0x401000, 0x401007]), (0x401007, [])], [],
          [some 0x401008]) ∧
        ∃ cfg : Native.Cfg, cfg.toFunction = fn := by
  obtain ⟨s, hs, hfunctions⟩ := exists_runs_callEngine
  have hmem := List.mem_cons_of_mem (0x401008, [(0x401008, [])], [0x401000], [])
    (List.mem_singleton_self ((0x401000, [(0x401000, [0x401000, 0x401007]), (0x401007, [])], [],
      [some 0x401008]) : UInt64 × List (UInt64 × List UInt64) × List UInt64 × List (Option UInt64)))
  rw [← hfunctions] at hmem
  obtain ⟨fn, hfn, hedges⟩ := List.mem_map.mp hmem
  exact ⟨s, hs, fn, hfn, hedges, exists_cfg_of_mem_recoveredFunctions hs hfn⟩

theorem recoveredFunctions_calls_call : ∃ s,
    callEngine.driver.Runs [.makeFunction 0x401000] s ∧
      (recoveredFunctions callEngine s).map edgesAndCalls =
        [(0x401008, [(0x401008, [])], [0x401000], []),
          (0x401000, [(0x401000, [0x401000, 0x401007]), (0x401007, [])], [], [some 0x401008])] ∧
      ∀ fn ∈ recoveredFunctions callEngine s,
        ∃ out, extractFunctionFeatures fn [] = some out ∧
          (∀ a, makeCharacteristic "calls to" a ∈ out ↔ ∃ caller ∈ recoveredFunctions callEngine s,
            caller.va = a ∧ ∃ ins ∈ caller.directCalls, ins.branchTarget = some fn.va) ∧
          (∀ a, makeCharacteristic "calls from" a ∈ out ↔ ∃ ins ∈ fn.directCalls, ins.va = a) ∧
          ((∃ a, makeCharacteristic "recursive call" a ∈ out) ↔
            makeCharacteristic "calls to" fn.va ∈ out) := by
  obtain ⟨s, hs, hfunctions⟩ := exists_runs_callEngine
  exact ⟨s, hs, hfunctions, recoveredFunctions_calls hs fun _ => []⟩

end Papa.Extractors
