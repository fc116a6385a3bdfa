import Papa.Extractors.Insn
import Papa.Extractors.StackString

/-!
# The features of instructions and their scopes

The features of an instruction are taken together. The kinds do not mix: a number comes from an
operand and nothing else, and a name from the function that is called. What is found at a scope can
be named by the rules of this scope and of the wider ones.

## Main definitions

* `Native.Cfg`: a recovered function whose graph is as the search for definitions needs it.
* `OriginatesAt`: the least scope whose rules can name a feature.

## Main results

* `mem_extractInsnFeatures_operands`: which numbers and offsets an instruction has.
* `mem_extractInsnFeatures_api`: which names a call has.
* `extracted_originatesAt`: what is extracted at a scope is what its rules can name.
-/

namespace Papa.Extractors

open Emu Features Pe

/-! ### All kinds together -/

/-- A recovered function whose graph is as the search for definitions needs it. -/
structure Native.Cfg extends Native.Function where
  ascending : toFunction.toFunction.basicBlocks.Pairwise (·.va < ·.va)
  mem_predecessors_iff : ∀ c ∈ toFunction.toFunction.basicBlocks, ∀ p, p ∈ c.predecessors ↔
    ∃ b ∈ toFunction.toFunction.basicBlocks, b.va = p ∧ c.va ∈ b.successors
  coherent : ∀ b ∈ toFunction.toFunction.basicBlocks, ∀ c ∈ toFunction.toFunction.basicBlocks,
    ∀ i ∈ b.instructions, ∀ j ∈ c.instructions, i.va = j.va → i = j

/-- The graph of a recovered function. -/
def Native.Cfg.toCfg (fn : Native.Cfg) : Extractors.Cfg :=
  ⟨fn.toFunction.toFunction, fn.ascending, fn.mem_predecessors_iff, fn.coherent⟩

section All

variable (regs : RegisterTable) (image : PeImage) (imports : ImportTable)
  (decode : List UInt8 → UInt64 → Expected Native.DecodedInsn) (flirtName : UInt64 → Option Str)
  (fn : Native.Cfg) (index : ℕ) (bb : Native.BasicBlock) (ins : Native.DecodedInsn)

/-- The features of an instruction, one kind after another. -/
theorem exists_extractInsnFeatures :
    ∃ out, extractInsnFeatures regs image imports decode flirtName fn.toFunction index bb ins =
        some out ∧
      ∀ f, f ∈ out ↔ f ∈ (extractMnemonic ins).toList ∨
        f ∈ extractUnusual regs image imports fn.toFunction index bb ins ∨
        f ∈ extractBytes image ins ∨
        (f ∈ extractNumber regs image ins ∨ f ∈ extractOffset regs image ins) ∨
        f ∈ extractString image ins ∨
        (∃ row, CallsApi regs image imports decode fn.toCfg ins row ∧
          f ∈ apiVariants row ins.va) ∨
        ∃ s, CallsLibrary flirtName ins s ∧ f = (.api s, .absoluteVirtual ins.va) := by
  obtain ⟨api, hapi, hmem⟩ :=
    exists_extractApiFeatures regs image imports decode fn.toCfg ins
  rw [extractInsnFeatures]
  refine ⟨_, congrArg (Option.map _) hapi, fun f => ?_⟩
  simp only [List.mem_append, hmem, mem_extractFlirtCallApi_iff, or_assoc]

variable {regs image imports decode flirtName fn index bb ins} {f : FeatureValue × Address}

theorem eq_of_mem_extractMnemonic (h : f ∈ (extractMnemonic ins).toList) :
    f = (.mnemonic ins.mnemonicStr, .absoluteVirtual ins.va) := by
  rw [Option.mem_toList, extractMnemonic] at h
  split_ifs at h
  exact (Option.some.inj h).symm

theorem exists_eq_of_mem_extractBytes (h : f ∈ extractBytes image ins) :
    ∃ bytes, f = (.bytes bytes, .absoluteVirtual ins.va) := by
  rw [extractBytes] at h
  split_ifs at h
  · cases h
  · obtain ⟨op, -, hop⟩ := List.mem_filterMap.mp h
    split at hop
    · cases hop
    · dsimp only at hop
      split_ifs at hop
      exact ⟨_, (Option.some.inj hop).symm⟩

theorem exists_eq_of_mem_extractString (h : f ∈ extractString image ins) :
    ∃ s, f = (.string s, .absoluteVirtual ins.va) := by
  rw [extractString] at h
  obtain ⟨op, -, hop⟩ := List.mem_filterMap.mp h
  split at hop
  · cases hop
  · split_ifs at hop
    split at hop
    · cases hop
    · split_ifs at hop
      exact ⟨_, (Option.some.inj hop).symm⟩

/-- The tags of the features of operands. -/
def kOperandTags : List FeatureTag := [.number, .operandNumber, .offset, .operandOffset]

theorem tag_of_mem_operandFeatures
    (h : f ∈ extractNumber regs image ins ∨ f ∈ extractOffset regs image ins) :
    f.1.tag ∈ kOperandTags ∧ f.2 = .absoluteVirtual ins.va := by
  obtain ⟨op, i, -, ⟨v, -, hf⟩ | ⟨off, -, hf⟩⟩ := mem_operandFeatures_iff.mp h
  · rcases mem_numberFeatures_iff.mp hf with rfl | rfl <;>
      exact ⟨by simp [FeatureValue.tag, kOperandTags], rfl⟩
  · rcases mem_offsetFeatures_iff.mp hf with rfl | rfl <;>
      exact ⟨by simp [FeatureValue.tag, kOperandTags], rfl⟩

/-- The tags of the features of an instruction that are no characteristics. -/
def kInsnTags : List FeatureTag := [.mnemonic, .bytes, .string, .api] ++ kOperandTags

theorem tag_of_names
    (h : (∃ row, CallsApi regs image imports decode fn.toCfg ins row ∧
        f ∈ apiVariants row ins.va) ∨
      ∃ s, CallsLibrary flirtName ins s ∧ f = (.api s, .absoluteVirtual ins.va)) :
    f.1.tag = .api ∧ f.2 = .absoluteVirtual ins.va := by
  rcases h with ⟨row, -, h⟩ | ⟨s, -, rfl⟩
  · obtain ⟨-, s, -, rfl⟩ := mem_apiVariants_iff.mp h
    exact ⟨rfl, rfl⟩
  · exact ⟨rfl, rfl⟩

/-- The kinds that need one instruction only have tags of their own. -/
theorem tag_of_mem_plain
    (h : f ∈ (extractMnemonic ins).toList ∨ f ∈ extractBytes image ins ∨
      f ∈ extractString image ins) :
    f.1.tag ∈ ([.mnemonic, .bytes, .string] : List FeatureTag) ∧
      f.2 = .absoluteVirtual ins.va := by
  rcases h with h | h | h
  · rw [eq_of_mem_extractMnemonic h]
    exact ⟨by simp [FeatureValue.tag], rfl⟩
  · obtain ⟨bytes, rfl⟩ := exists_eq_of_mem_extractBytes h
    exact ⟨by simp [FeatureValue.tag], rfl⟩
  · obtain ⟨s, rfl⟩ := exists_eq_of_mem_extractString h
    exact ⟨by simp [FeatureValue.tag], rfl⟩

theorem tag_of_isUnusual (h : IsUnusual ins f) :
    f.1.tag = .characteristic ∧ f.2 = .absoluteVirtual ins.va := by
  obtain ⟨name, -, rfl⟩ := h
  exact ⟨rfl, rfl⟩

variable (regs image imports decode flirtName fn index bb ins) in
/-- **The features of an instruction by their tags.** -/
theorem exists_byTag :
    ∃ out, extractInsnFeatures regs image imports decode flirtName fn.toFunction index bb ins =
        some out ∧
      (∀ f ∈ out, f.2 = .absoluteVirtual ins.va ∧ (IsUnusual ins f ∨ f.1.tag ∈ kInsnTags)) ∧
      (∀ f : FeatureValue × Address, f.1.tag ∈ kOperandTags → (f ∈ out ↔
        f ∈ extractNumber regs image ins ∨ f ∈ extractOffset regs image ins)) ∧
      ∀ f : FeatureValue × Address, f.1.tag = .api → (f ∈ out ↔
        (∃ row, CallsApi regs image imports decode fn.toCfg ins row ∧
          f ∈ apiVariants row ins.va) ∨
        ∃ s, CallsLibrary flirtName ins s ∧ f = (.api s, .absoluteVirtual ins.va)) := by
  obtain ⟨out, hout, hmem⟩ :=
    exists_extractInsnFeatures regs image imports decode flirtName fn index bb ins
  -- The tags of the four groups are disjoint, so a tag tells the group.
  have hgroups : ∀ f ∈ out,
      (f ∈ (extractMnemonic ins).toList ∨ f ∈ extractBytes image ins ∨
        f ∈ extractString image ins) ∨ IsUnusual ins f ∨
      (f ∈ extractNumber regs image ins ∨ f ∈ extractOffset regs image ins) ∨
      ((∃ row, CallsApi regs image imports decode fn.toCfg ins row ∧
          f ∈ apiVariants row ins.va) ∨
        ∃ s, CallsLibrary flirtName ins s ∧ f = (.api s, .absoluteVirtual ins.va)) := by
    intro f hf
    rcases (hmem f).mp hf with h | h | h | h | h | h
    · exact Or.inl (Or.inl h)
    · exact Or.inr (Or.inl (isUnusual_of_mem_extractUnusual h))
    · exact Or.inl (Or.inr (Or.inl h))
    · exact Or.inr (Or.inr (Or.inl h))
    · exact Or.inl (Or.inr (Or.inr h))
    · exact Or.inr (Or.inr (Or.inr h))
  refine ⟨out, hout, fun f hf => ?_, fun f htag => ⟨fun hf => ?_, fun hf => ?_⟩,
    fun f htag => ⟨fun hf => ?_, fun hf => ?_⟩⟩
  · rcases hgroups f hf with h | h | h | h
    · obtain ⟨htag, haddress⟩ := tag_of_mem_plain h
      have hsubset : ([.mnemonic, .bytes, .string] : List FeatureTag) ⊆ kInsnTags := by decide
      exact ⟨haddress, Or.inr (hsubset htag)⟩
    · exact ⟨(tag_of_isUnusual h).2, Or.inl h⟩
    · obtain ⟨htag, haddress⟩ := tag_of_mem_operandFeatures h
      exact ⟨haddress, Or.inr (List.mem_append_right _ htag)⟩
    · obtain ⟨htag, haddress⟩ := tag_of_names h
      exact ⟨haddress, Or.inr (htag ▸ by decide)⟩
  · rcases hgroups f hf with h | h | h | h
    · have hdisjoint : ∀ t ∈ ([.mnemonic, .bytes, .string] : List FeatureTag),
          t ∉ kOperandTags := by decide
      exact absurd htag (hdisjoint _ (tag_of_mem_plain h).1)
    · rw [(tag_of_isUnusual h).1] at htag
      exact absurd htag (by decide)
    · exact h
    · rw [(tag_of_names h).1] at htag
      exact absurd htag (by decide)
  · exact (hmem f).mpr (Or.inr (Or.inr (Or.inr (Or.inl hf))))
  · rcases hgroups f hf with h | h | h | h
    · have hplain := (tag_of_mem_plain h).1
      rw [htag] at hplain
      exact absurd hplain (by decide)
    · rw [(tag_of_isUnusual h).1] at htag
      exact absurd htag (by decide)
    · have hoperand := (tag_of_mem_operandFeatures h).1
      rw [htag] at hoperand
      exact absurd hoperand (by decide)
    · exact h
  · exact (hmem f).mpr (Or.inr (Or.inr (Or.inr (Or.inr (Or.inr hf)))))

end All

/-! ### The numbers, the offsets and the names of an instruction -/

section Main

variable (regs : RegisterTable) (image : PeImage) (imports : ImportTable)
  (decode : List UInt8 → UInt64 → Expected Native.DecodedInsn) (flirtName : UInt64 → Option Str)
  (fn : Native.Cfg) (index : ℕ) (bb : Native.BasicBlock) (ins : Native.DecodedInsn)

/-- **The numbers and the offsets of an instruction** are those of its operands, and each is known
together with the place of the operand as well. -/
theorem mem_extractInsnFeatures_operands :
    ∃ out, extractInsnFeatures regs image imports decode flirtName fn.toFunction index bb ins =
        some out ∧
      ∀ a, (∀ v, (.number (.uint64 v), a) ∈ out ↔ a = .absoluteVirtual ins.va ∧
          ∃ op ∈ ins.operands, HasNumber regs image ins op v) ∧
        (∀ i v, (.operandNumber i (.uint64 v), a) ∈ out ↔ a = .absoluteVirtual ins.va ∧
          ∃ op, ins.operands[i]? = some op ∧ HasNumber regs image ins op v) ∧
        (∀ off, (.offset off, a) ∈ out ↔ a = .absoluteVirtual ins.va ∧
          ∃ op ∈ ins.operands, HasOffset regs image ins op off) ∧
        ∀ i off, (.operandOffset i off, a) ∈ out ↔ a = .absoluteVirtual ins.va ∧
          ∃ op, ins.operands[i]? = some op ∧ HasOffset regs image ins op off := by
  obtain ⟨out, hout, -, hoperands, -⟩ := exists_byTag regs image imports decode flirtName fn
    index bb ins
  refine ⟨out, hout, fun a => ⟨fun v => ?_, fun i v => ?_, fun off => ?_, fun i off => ?_⟩⟩
  · rw [hoperands _ (by simp [FeatureValue.tag, kOperandTags]), mem_operandFeatures_iff]
    simp only [mem_numberFeatures_iff, mem_offsetFeatures_iff, Prod.mk.injEq,
      FeatureValue.number.injEq, NumberValue.uint64.injEq, reduceCtorEq, false_and, or_false,
      and_false, exists_false]
    constructor
    · rintro ⟨op, i, hop, _, hv, rfl, rfl⟩
      exact ⟨rfl, op, List.mem_of_getElem? hop, hv⟩
    · rintro ⟨rfl, op, hop, hv⟩
      obtain ⟨i, hi⟩ := List.mem_iff_getElem?.mp hop
      exact ⟨op, i, hi, v, hv, rfl, rfl⟩
  · rw [hoperands _ (by simp [FeatureValue.tag, kOperandTags]), mem_operandFeatures_iff]
    simp only [mem_numberFeatures_iff, mem_offsetFeatures_iff, Prod.mk.injEq,
      FeatureValue.operandNumber.injEq, NumberValue.uint64.injEq, reduceCtorEq, false_and, false_or,
      or_false, and_false, exists_false]
    constructor
    · rintro ⟨op, _, hop, _, hv, ⟨rfl, rfl⟩, rfl⟩
      exact ⟨rfl, op, hop, hv⟩
    · rintro ⟨rfl, op, hop, hv⟩
      exact ⟨op, i, hop, v, hv, ⟨rfl, rfl⟩, rfl⟩
  · rw [hoperands _ (by simp [FeatureValue.tag, kOperandTags]), mem_operandFeatures_iff]
    simp only [mem_numberFeatures_iff, mem_offsetFeatures_iff, Prod.mk.injEq,
      FeatureValue.offset.injEq, reduceCtorEq, false_and, or_false, false_or, and_false,
      exists_false]
    constructor
    · rintro ⟨op, i, hop, _, hoff, rfl, rfl⟩
      exact ⟨rfl, op, List.mem_of_getElem? hop, hoff⟩
    · rintro ⟨rfl, op, hop, hoff⟩
      obtain ⟨i, hi⟩ := List.mem_iff_getElem?.mp hop
      exact ⟨op, i, hi, off, hoff, rfl, rfl⟩
  · rw [hoperands _ (by simp [FeatureValue.tag, kOperandTags]), mem_operandFeatures_iff]
    simp only [mem_numberFeatures_iff, mem_offsetFeatures_iff, Prod.mk.injEq,
      FeatureValue.operandOffset.injEq, reduceCtorEq, false_and, or_false, false_or, and_false,
      exists_false]
    constructor
    · rintro ⟨op, _, hop, _, hoff, ⟨rfl, rfl⟩, rfl⟩
      exact ⟨rfl, op, hop, hoff⟩
    · rintro ⟨rfl, op, hop, hoff⟩
      exact ⟨op, i, hop, off, hoff, ⟨rfl, rfl⟩, rfl⟩

/-- **The names of an instruction** are those of the function it calls: every spelling of an import,
and the name of a library function. -/
theorem mem_extractInsnFeatures_api :
    ∃ out, extractInsnFeatures regs image imports decode flirtName fn.toFunction index bb ins =
        some out ∧
      ∀ s a, (.api s, a) ∈ out ↔ a = .absoluteVirtual ins.va ∧
        ((∃ row, CallsApi regs image imports decode fn.toCfg ins row ∧ importSymbol row ≠ [] ∧
          s ∈ generateSymbols row.dll (importSymbol row) true) ∨
        CallsLibrary flirtName ins s) := by
  obtain ⟨out, hout, -, -, hapi⟩ := exists_byTag regs image imports decode flirtName fn
    index bb ins
  refine ⟨out, hout, fun s a => (hapi _ rfl).trans ⟨?_, ?_⟩⟩
  · rintro (⟨row, hrow, hf⟩ | ⟨s', hlibrary, heq⟩)
    · obtain ⟨hsymbol, s', hs', heq⟩ := mem_apiVariants_iff.mp hf
      obtain ⟨hs, rfl⟩ := Prod.mk.inj heq
      obtain rfl := FeatureValue.api.inj hs
      exact ⟨rfl, Or.inl ⟨row, hrow, hsymbol, hs'⟩⟩
    · obtain ⟨hs, rfl⟩ := Prod.mk.inj heq
      obtain rfl := FeatureValue.api.inj hs
      exact ⟨rfl, Or.inr hlibrary⟩
  · rintro ⟨rfl, ⟨row, hrow, hsymbol, hs⟩ | hlibrary⟩
    · exact Or.inl ⟨row, hrow, mem_apiVariants_iff.mpr ⟨hsymbol, s, hs, rfl⟩⟩
    · exact Or.inr ⟨s, hlibrary, rfl⟩

end Main

/-! ### Where features can be named -/

section Scopes

open Rules

/-- A rule of a scope can name a feature. -/
def Nameable (v : FeatureValue) (s : Scope) : Prop :=
  isFeatureAllowed v.tag s ∧ ∀ name, v = .characteristic name → isCharacteristicAllowed name s

/-- The static scopes whose rules can name a feature are those from a scope on. -/
def OriginatesAt (v : FeatureValue) (origin : Scope) : Prop :=
  ∀ s, 0 < scopeLevel s → (Nameable v s ↔ scopeLevel origin ≤ scopeLevel s)

/-- Tags that are allowed from a scope on, and tell no characteristic, originate at the scope. -/
theorem originatesAt_of_mem_tags {tags : List FeatureTag} {origin : Scope}
    (hallowed : ∀ t ∈ tags, ∀ s, 0 < scopeLevel s →
      (isFeatureAllowed t s ↔ scopeLevel origin ≤ scopeLevel s))
    (hplain : FeatureTag.characteristic ∉ tags) {v : FeatureValue} (h : v.tag ∈ tags) :
    OriginatesAt v origin := by
  intro s hs
  rw [← hallowed _ h s hs]
  refine and_iff_left ?_
  rintro name rfl
  exact absurd h hplain

theorem originatesAt_of_tag {v : FeatureValue} (h : v.tag ∈ kInsnTags) :
    OriginatesAt v .instruction := by
  refine originatesAt_of_mem_tags (fun t ht s hs => ?_) (by decide) h
  revert t
  cases s <;> first | decide | exact absurd hs (by decide)

theorem originatesAt_characteristic {names : List Str} {origin : Scope}
    (hnames : ∀ name ∈ names, ∀ s, 0 < scopeLevel s →
      (isCharacteristicAllowed name s ↔ scopeLevel origin ≤ scopeLevel s))
    {name : Str} (h : name ∈ names) : OriginatesAt (.characteristic name) origin := by
  intro s hs
  rw [← hnames name h s hs]
  have htag : isFeatureAllowed .characteristic s := by
    cases s <;> rfl
  constructor
  · exact fun hnameable => hnameable.2 name rfl
  · intro hallowed
    refine ⟨htag, fun name' heq => ?_⟩
    obtain rfl := FeatureValue.characteristic.inj heq
    exact hallowed

theorem originatesAt_of_isUnusual {ins : Native.DecodedInsn} {f : FeatureValue × Address}
    (h : IsUnusual ins f) : OriginatesAt f.1 .instruction := by
  obtain ⟨name, hname, rfl⟩ := h
  refine originatesAt_characteristic (fun name hname s hs => ?_) hname
  revert name
  cases s <;> first | decide | exact absurd hs (by decide)

theorem originatesAt_of_mem_kBbOrigin {name : Str} (h : name ∈ kBbOrigin) :
    OriginatesAt (.characteristic name) .basicBlock := by
  refine originatesAt_characteristic (fun name hname s hs => ?_) h
  revert name
  cases s <;> first | decide | exact absurd hs (by decide)

theorem originatesAt_of_mem_kFnOrigin {name : Str} (h : name ∈ kFnOrigin) :
    OriginatesAt (.characteristic name) .function := by
  refine originatesAt_characteristic (fun name hname s hs => ?_) h
  revert name
  cases s <;> first | decide | exact absurd hs (by decide)

/-- The features of a block, other than the tag, are characteristics of blocks. -/
theorem eq_or_exists_of_mem_extractBasicBlockFeatures {regs : RegisterTable} {is64bit : Bool}
    {bb : Native.BasicBlock} {f : FeatureValue × Address}
    (h : f ∈ extractBasicBlockFeatures regs is64bit bb) :
    f.1 = .basicBlock ∨ ∃ name ∈ kBbOrigin, f.1 = .characteristic name := by
  rw [extractBasicBlockFeatures, List.mem_cons, List.mem_append, Option.mem_toList,
    Option.mem_toList] at h
  rcases h with rfl | hloop | hstring
  · exact Or.inl rfl
  · rw [extractTightLoop] at hloop
    split_ifs at hloop
    obtain rfl := Option.some.inj hloop
    exact Or.inr ⟨_, by decide, rfl⟩
  · obtain ⟨va, -, rfl⟩ := Option.map_eq_some_iff.mp hstring
    exact Or.inr ⟨_, by decide, rfl⟩

theorem eq_of_extractLoop {fn : Function} {f : FeatureValue × Address}
    (h : extractLoop fn = some (some f)) : f = makeCharacteristic "loop" fn.va := by
  rw [extractLoop] at h
  split_ifs at h
  · cases h
  · obtain ⟨cycle, -, hcycle⟩ := Option.map_eq_some_iff.mp h
    split_ifs at hcycle
    exact (Option.some.inj hcycle).symm

/-- **What is extracted at a scope** can be named by the rules of this scope and of the wider ones,
and by no other static rules: the features of an instruction, those of a block other than its tag,
and the loop of a function. All features of an instruction are at its address. -/
theorem extracted_originatesAt (regs : RegisterTable) (image : PeImage) (imports : ImportTable)
    (decode : List UInt8 → UInt64 → Expected Native.DecodedInsn) (flirtName : UInt64 → Option Str)
    (fn : Native.Cfg) (index : ℕ) (bb : Native.BasicBlock) (ins : Native.DecodedInsn) :
    (∃ out, extractInsnFeatures regs image imports decode flirtName fn.toFunction index bb ins =
        some out ∧ ∀ f ∈ out, f.2 = .absoluteVirtual ins.va ∧ OriginatesAt f.1 .instruction) ∧
      (∀ f ∈ extractBasicBlockFeatures regs image.is64bit bb,
        f.1 = .basicBlock ∨ OriginatesAt f.1 .basicBlock) ∧
      ∀ f, extractLoop fn.toFunction.toFunction = some (some f) → OriginatesAt f.1 .function := by
  refine ⟨?_, fun f hf => ?_, fun f hf => ?_⟩
  · obtain ⟨out, hout, htags, -⟩ := exists_byTag regs image imports decode flirtName fn index bb ins
    refine ⟨out, hout, fun f hf => ⟨(htags f hf).1, ?_⟩⟩
    rcases (htags f hf).2 with hunusual | htag
    · exact originatesAt_of_isUnusual hunusual
    · exact originatesAt_of_tag htag
  · refine (eq_or_exists_of_mem_extractBasicBlockFeatures hf).imp_right ?_
    rintro ⟨name, hname, heq⟩
    exact heq ▸ originatesAt_of_mem_kBbOrigin hname
  · rw [eq_of_extractLoop hf]
    exact originatesAt_of_mem_kFnOrigin (by decide)

end Scopes

end Papa.Extractors
