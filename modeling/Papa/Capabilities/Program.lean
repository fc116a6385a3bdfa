import Papa.Capabilities.Static

/-!
# The analysis of a program

A program as an extractor presents it is a finite tree of functions, basic blocks and instructions,
each with an address and a list of features. On a program without library functions the analysis
never throws, and what it records is, unit by unit, what the match of the unit's scope records.

## Main definitions

* `Papa.Capabilities.Program`, with `Papa.Capabilities.Program.extractor`.
* `Papa.Capabilities.CodeUnit`: the units of a program, with the set a unit is matched on, the
  outcome of that match, and the units a unit contains.
* `Papa.Capabilities.entries`: what is recorded for a rule.

## Main results

* `Papa.Capabilities.findStaticCapabilities_program`: the analysis in closed form.
-/

namespace Papa.Capabilities

open Features Features.Extractors Engine Rules

/-- An instruction. -/
structure Insn where
  addr : Address
  features : List FeatureWithAddress

/-- A basic block. -/
structure Block where
  addr : Address
  features : List FeatureWithAddress
  insns : List Insn

/-- A function. -/
structure Func where
  addr : Address
  features : List FeatureWithAddress
  blocks : List Block

/-- A program, with its base address and the features of the whole image. -/
structure Program where
  base : Address
  globals : List FeatureWithAddress
  fileFeatures : List FeatureWithAddress
  functions : List Func

/-- The extractor that presents a program, without library functions. -/
def Program.extractor (P : Program) : StaticFeatureExtractor Func Block Insn where
  getBaseAddress := .ok P.base
  extractGlobalFeatures := .ok P.globals
  extractFileFeatures := .ok P.fileFeatures
  getFunctions := .ok (P.functions.map fun f => ⟨f.addr, f⟩)
  extractFunctionFeatures fh := .ok fh.inner.features
  getBasicBlocks fh := .ok (fh.inner.blocks.map fun b => ⟨b.addr, b⟩)
  extractBasicBlockFeatures _ bbh := .ok bbh.inner.features
  getInstructions _ bbh := .ok (bbh.inner.insns.map fun i => ⟨i.addr, i⟩)
  extractInsnFeatures _ _ ih := .ok ih.inner.features

/-! ### Recorded entries -/

/-- What is recorded for the rule of a name. -/
def entries (name : Str) (results : MatchResults) : List (Address × Result) :=
  (AssocList.get? name results).getD []

theorem nodup_mergeInto {dst : MatchResults} (hdst : (dst.map Prod.fst).Nodup)
    (src : MatchResults) : ((mergeInto dst src).map Prod.fst).Nodup := by
  induction src generalizing dst with
  | nil => exact hdst
  | cons e src ih => exact ih (AssocList.nodup_keys_upsert e.1 [] _ hdst)

theorem entries_cons (name : Str) (e : Str × List (Address × Result)) (results : MatchResults) :
    entries name (e :: results) = if e.1 == name then e.2 else entries name results := by
  rw [entries, AssocList.get?, entries]
  split_ifs <;> rfl

theorem entries_eq_nil {name : Str} {results : MatchResults} (h : name ∉ results.map Prod.fst) :
    entries name results = [] := by
  have hnone : AssocList.get? name results = none := by
    rw [← Option.not_isSome_iff_eq_none, AssocList.isSome_get?]
    rintro ⟨e, he, hkey⟩
    exact h (eq_of_beq hkey ▸ List.mem_map_of_mem he)
  rw [entries, hnone]
  rfl

theorem entries_mergeInto {src : MatchResults} (hsrc : (src.map Prod.fst).Nodup) (name : Str)
    (dst : MatchResults) :
    entries name (mergeInto dst src) = entries name dst ++ entries name src := by
  induction src generalizing dst with
  | nil => exact (List.append_nil _).symm
  | cons e src ih =>
    obtain ⟨hnot, hsrc⟩ := List.nodup_cons.mp hsrc
    refine (ih hsrc _).trans ?_
    rw [entries_cons]
    by_cases hname : e.1 = name
    · subst hname
      rw [if_pos BEq.rfl, entries_eq_nil hnot, List.append_nil, entries,
        AssocList.get?_upsert_self]
      rfl
    · have hne : (e.1 == name) = false := by simpa using hname
      rw [hne, if_neg Bool.false_ne_true, entries, AssocList.get?_upsert_of_ne hne]
      rfl

/-- The results of several matches, merged in order. -/
def mergeResults (resultss : List MatchResults) : MatchResults := resultss.foldl mergeInto []

theorem nodup_foldl_mergeInto {dst : MatchResults} (hdst : (dst.map Prod.fst).Nodup)
    (resultss : List MatchResults) : ((resultss.foldl mergeInto dst).map Prod.fst).Nodup := by
  induction resultss generalizing dst with
  | nil => exact hdst
  | cons results resultss ih => exact ih (nodup_mergeInto hdst results)

theorem nodup_mergeResults (resultss : List MatchResults) :
    ((mergeResults resultss).map Prod.fst).Nodup := by
  have hnil : (([] : MatchResults).map Prod.fst).Nodup := List.nodup_nil
  exact nodup_foldl_mergeInto hnil resultss

theorem entries_mergeResults {resultss : List MatchResults}
    (h : ∀ results ∈ resultss, (results.map Prod.fst).Nodup) (name : Str) :
    entries name (mergeResults resultss) = resultss.flatMap (entries name) := by
  have hfold (dst : MatchResults) : entries name (resultss.foldl mergeInto dst) =
      entries name dst ++ resultss.flatMap (entries name) := by
    induction resultss generalizing dst with
    | nil => exact (List.append_nil _).symm
    | cons results resultss ih =>
      rw [List.foldl_cons, ih (fun r hr => h r (List.mem_cons_of_mem _ hr)),
        entries_mergeInto (h results List.mem_cons_self), List.flatMap_cons, List.append_assoc]
  exact hfold []

/-! ### The match of a unit -/

section Outcome

variable (E : RegexEngine) (rs : RuleSet)

/-- The set a match ends with and what it records. -/
def outcome (scope : Scope) (fs : FeatureSet) (addr : Address) : FeatureSet × MatchResults :=
  match rs.match_ E scope fs addr with
  | .ok o => o
  | .error _ => (fs, [])

variable {rs}

theorem outcome_eq (h : rs.Built) (scope : Scope) (fs : FeatureSet) (addr : Address) :
    outcome E rs scope fs addr = (((matchSystem E addr).run (rs.rulesByScope scope) fs).1,
      recordAll addr [] ((matchSystem E addr).run (rs.rulesByScope scope) fs).2) := by
  rw [outcome, h.match_eq, matchRules_eq (h.subscopeFree_rulesByScope scope)]

theorem match_eq_outcome (h : rs.Built) (scope : Scope) (fs : FeatureSet) (addr : Address) :
    rs.match_ E scope fs addr = .ok (outcome E rs scope fs addr) := by
  rw [outcome_eq E h, h.match_eq, matchRules_eq (h.subscopeFree_rulesByScope scope)]

theorem nodup_outcome (h : rs.Built) (scope : Scope) (fs : FeatureSet) (addr : Address) :
    ((outcome E rs scope fs addr).2.map Prod.fst).Nodup := by
  rw [outcome_eq E h, recordAll_eq]
  exact AssocList.nodup_keys_pushAll _ List.nodup_nil

end Outcome

/-! ### The units of a program -/

/-- The units of a program. -/
inductive CodeUnit
  | file
  | function (f : Func)
  | basicBlock (b : Block)
  | instruction (i : Insn)

/-- The union of several sets, in order. -/
def mergeSets (sets : List FeatureSet) : FeatureSet := sets.foldl FeatureSet.mergeIn .empty

section Units

variable (E : RegexEngine) (rs : RuleSet) (P : Program)

/-- The outcome of an instruction. -/
def Insn.outcome (i : Insn) : FeatureSet × MatchResults :=
  Capabilities.outcome E rs .instruction
    ((FeatureSet.empty.addAll i.features).addAll P.globals) i.addr

/-- The outcome of a basic block, matched on the final sets of its instructions and its own
features. -/
def Block.outcome (b : Block) : FeatureSet × MatchResults :=
  Capabilities.outcome E rs .basicBlock
    (((mergeSets (b.insns.map fun i => (i.outcome E rs P).1)).addAll b.features).addAll P.globals)
    b.addr

/-- The outcome of a function, matched on the final sets of its blocks and its own features. -/
def Func.outcome (f : Func) : FeatureSet × MatchResults :=
  Capabilities.outcome E rs .function
    (((mergeSets (f.blocks.map fun b => (b.outcome E rs P).1)).addAll f.features).addAll P.globals)
    f.addr

/-- The merged results of the functions. -/
def Program.fnResults : MatchResults :=
  mergeResults (P.functions.map fun f => (f.outcome E rs P).2)

/-- The merged results of the basic blocks. -/
def Program.bbResults : MatchResults :=
  mergeResults (P.functions.map fun f =>
    mergeResults (f.blocks.map fun b => (b.outcome E rs P).2))

/-- The merged results of the instructions. -/
def Program.insnResults : MatchResults :=
  mergeResults (P.functions.map fun f =>
    mergeResults (f.blocks.map fun b =>
      mergeResults (b.insns.map fun i => (i.outcome E rs P).2)))

/-- The set of the file scope: the file features, and the names of everything that matched below. -/
def Program.fileSet : FeatureSet :=
  let fs := (FeatureSet.empty.addAll P.fileFeatures).addAll P.globals
  let fs := injectMatchFeatures fs rs (P.fnResults E rs)
  let fs := injectMatchFeatures fs rs (P.bbResults E rs)
  injectMatchFeatures fs rs (P.insnResults E rs)

namespace CodeUnit

/-- The outcome of the match of a unit. -/
def outcome : CodeUnit → FeatureSet × MatchResults
  | file => Capabilities.outcome E rs .file (P.fileSet E rs) P.base
  | function f => f.outcome E rs P
  | basicBlock b => b.outcome E rs P
  | instruction i => i.outcome E rs P

/-- The address matches of a unit are recorded at. -/
def addr : CodeUnit → Address
  | file => P.base
  | function f => f.addr
  | basicBlock b => b.addr
  | instruction i => i.addr

/-- The scope of a unit. -/
def scope : CodeUnit → Scope
  | file => .file
  | function _ => .function
  | basicBlock _ => .basicBlock
  | instruction _ => .instruction

/-- The units of a scope that a unit contains, itself included. -/
def within : CodeUnit → Scope → List CodeUnit
  | file, .file => [file]
  | file, .function => P.functions.map function
  | file, .basicBlock => P.functions.flatMap fun f => f.blocks.map basicBlock
  | file, .instruction => P.functions.flatMap fun f => f.blocks.flatMap fun b =>
      b.insns.map instruction
  | function f, .function => [function f]
  | function f, .basicBlock => f.blocks.map basicBlock
  | function f, .instruction => f.blocks.flatMap fun b => b.insns.map instruction
  | basicBlock b, .basicBlock => [basicBlock b]
  | basicBlock b, .instruction => b.insns.map instruction
  | instruction i, .instruction => [instruction i]
  | _, _ => []

end CodeUnit

end Units

/-! ### The analysis in closed form -/

section ClosedForm

variable (E : RegexEngine) {rs : RuleSet} (P : Program)

theorem findInstructionCapabilities_program (h : rs.Built) (fh : FunctionHandle Func)
    (bbh : BBHandle Block) (i : Insn) :
    findInstructionCapabilities E rs P.extractor fh bbh ⟨i.addr, i⟩ P.globals =
      .ok ⟨(i.outcome E rs P).1, (i.outcome E rs P).2⟩ := by
  simp only [findInstructionCapabilities, Program.extractor, match_eq_outcome E h, bind,
    Except.bind, pure, Except.pure]
  rfl

theorem findInstructions_program (h : rs.Built) (fh : FunctionHandle Func) (bbh : BBHandle Block)
    (insns : List Insn) (fs : FeatureSet) (acc : MatchResults) :
    findInstructions E rs P.extractor fh bbh P.globals (insns.map fun i => ⟨i.addr, i⟩) fs acc =
      .ok ((insns.map fun i => (i.outcome E rs P).1).foldl FeatureSet.mergeIn fs,
        (insns.map fun i => (i.outcome E rs P).2).foldl mergeInto acc) := by
  induction insns generalizing fs acc with
  | nil => rfl
  | cons i insns ih =>
    rw [List.map_cons, findInstructions, findInstructionCapabilities_program E P h]
    exact ih _ _

theorem findBasicBlockCapabilities_program (h : rs.Built) (fh : FunctionHandle Func) (b : Block) :
    findBasicBlockCapabilities E rs P.extractor fh ⟨b.addr, b⟩ P.globals =
      .ok ⟨(b.outcome E rs P).1, (b.outcome E rs P).2,
        mergeResults (b.insns.map fun i => (i.outcome E rs P).2)⟩ := by
  have hinsns := findInstructions_program E P h fh ⟨b.addr, b⟩ b.insns .empty []
  simp only [findBasicBlockCapabilities, Program.extractor, bind, Except.bind, pure,
    Except.pure] at hinsns ⊢
  simp only [hinsns, match_eq_outcome E h]
  rfl

theorem findBasicBlocks_program (h : rs.Built) (fh : FunctionHandle Func) (blocks : List Block)
    (fs : FeatureSet) (bbAcc insnAcc : MatchResults) :
    findBasicBlocks E rs P.extractor fh P.globals (blocks.map fun b => ⟨b.addr, b⟩) fs bbAcc
        insnAcc =
      .ok ((blocks.map fun b => (b.outcome E rs P).1).foldl FeatureSet.mergeIn fs,
        (blocks.map fun b => (b.outcome E rs P).2).foldl mergeInto bbAcc,
        (blocks.map fun b => mergeResults (b.insns.map fun i => (i.outcome E rs P).2)).foldl
          mergeInto insnAcc) := by
  induction blocks generalizing fs bbAcc insnAcc with
  | nil => rfl
  | cons b blocks ih =>
    rw [List.map_cons, findBasicBlocks, findBasicBlockCapabilities_program E P h]
    exact ih _ _ _

/-- The analysis of one function. -/
def Func.capabilities (E : RegexEngine) (rs : RuleSet) (P : Program) (f : Func) :
    CodeCapabilities where
  functionResults := (f.outcome E rs P).2
  bbResults := mergeResults (f.blocks.map fun b => (b.outcome E rs P).2)
  insnResults := mergeResults (f.blocks.map fun b =>
    mergeResults (b.insns.map fun i => (i.outcome E rs P).2))
  featureCount := (f.outcome E rs P).1.size

theorem findCodeCapabilities_program (h : rs.Built) (f : Func) :
    findCodeCapabilities E rs P.extractor ⟨f.addr, f⟩ P.globals =
      .ok (f.capabilities E rs P) := by
  have hblocks := findBasicBlocks_program E P h ⟨f.addr, f⟩ f.blocks .empty [] []
  simp only [findCodeCapabilities, Program.extractor, bind, Except.bind, pure,
    Except.pure] at hblocks ⊢
  simp only [hblocks, match_eq_outcome E h]
  rfl

theorem analyzeOne_program (h : rs.Built) {i : ℕ} {f : Func} (hf : P.functions[i]? = some f) :
    analyzeOne E rs P.extractor (P.functions.map fun f => ⟨f.addr, f⟩) P.globals i =
      .ok { caps := f.capabilities E rs P } := by
  rw [analyzeOne, List.getElem?_map, hf, Option.map_some]
  change (findCodeCapabilities E rs P.extractor ⟨f.addr, f⟩ P.globals).bind _ = _
  rw [findCodeCapabilities_program E P h]
  rfl

theorem reduceSlots_program {slots : ℕ → FunctionSlot} {fs : List Func} {i : ℕ}
    (hslots : ∀ j f, fs[j]? = some f → slots (i + j) = { caps := f.capabilities E rs P })
    (acc : Reduction) :
    let red := reduceSlots slots (fs.map fun f => (⟨f.addr, f⟩ : FunctionHandle Func)) i acc
    red.caps.allMatches = acc.caps.allMatches ∧
    red.fnMatches = (fs.map fun f => (f.outcome E rs P).2).foldl mergeInto acc.fnMatches ∧
    red.bbMatches = (fs.map fun f => (f.capabilities E rs P).bbResults).foldl mergeInto
      acc.bbMatches ∧
    red.insnMatches = (fs.map fun f => (f.capabilities E rs P).insnResults).foldl mergeInto
      acc.insnMatches := by
  induction fs generalizing i acc with
  | nil => exact ⟨rfl, rfl, rfl, rfl⟩
  | cons f fs ih =>
    have htail : ∀ j g, fs[j]? = some g → slots (i + 1 + j) = { caps := g.capabilities E rs P } :=
      fun j g hg => by
        rw [Nat.add_assoc, Nat.add_comm 1]
        exact hslots (j + 1) g hg
    have hhead : slots i = { caps := f.capabilities E rs P } := hslots 0 f rfl
    have hred := ih htail (reduceOne acc (⟨f.addr, f⟩ : FunctionHandle Func) (slots i))
    rw [hhead] at hred
    simp only [List.map_cons, reduceSlots, hhead]
    exact hred

/-- Some interleaving of the workers the request resolves to. -/
def WorkersRun (hardwareConcurrency threads : UInt32)
    (run : (n : ℕ) → (body : ℕ → Throws FunctionSlot) → RunOutcome) : Prop :=
  ∀ n body, ∃ ran,
    Runs (resolveWorkerCount hardwareConcurrency threads n).toNat n body ran (run n body)

/-- On bodies that do not throw the workers fill every slot from its own index. -/
theorem WorkersRun.slots_eq {hardwareConcurrency threads : UInt32}
    {run : (n : ℕ) → (body : ℕ → Throws FunctionSlot) → RunOutcome}
    (hrun : WorkersRun hardwareConcurrency threads run) {n : ℕ} {body : ℕ → Throws FunctionSlot}
    (hbody : ∀ i < n, ∃ slot, body i = .ok slot) :
    (run n body).2 = none ∧ ∀ i < n, body i = .ok ((run n body).1 i) := by
  have hworker : Nonempty (Fin (resolveWorkerCount hardwareConcurrency threads n).toNat) :=
    ⟨⟨0, resolveWorkerCount_pos hardwareConcurrency threads n⟩⟩
  obtain ⟨ran, s, hs, -, hout⟩ := hrun n body
  have hnone : s.error = none := by
    by_contra hne
    obtain ⟨t, ht⟩ := Option.ne_none_iff_exists'.mp hne
    obtain ⟨i, hi, he⟩ := hs.1.inv.error_error t ht
    obtain ⟨slot, hslot⟩ := hbody i hi
    exact absurd (he.symm.trans hslot) nofun
  rw [← hout]
  exact ⟨hnone, fun i hi => hs.slots_eq hnone hi⟩

/-- **The analysis in closed form.** On a program it does not throw, and it merges what the match
of the file recorded with what the matches of the functions, blocks and instructions did. -/
theorem findStaticCapabilities_program (h : rs.Built)
    {cachedFileFeatures : Option (List FeatureWithAddress)}
    (hcached : ∀ features ∈ cachedFileFeatures, features = P.fileFeatures)
    {hardwareConcurrency threads : UInt32}
    {run : (n : ℕ) → (body : ℕ → Throws FunctionSlot) → RunOutcome}
    (hrun : WorkersRun hardwareConcurrency threads run) :
    ∃ caps, findStaticCapabilities E rs P.extractor cachedFileFeatures run = .ok caps ∧
      ∀ name, entries name caps.allMatches =
        entries name (CodeUnit.file.outcome E rs P).2 ++ entries name (P.fnResults E rs) ++
          entries name (P.bbResults E rs) ++ entries name (P.insnResults E rs) := by
  have hget {i : ℕ} (hi : i < P.functions.length) : ∃ f, P.functions[i]? = some f :=
    ⟨_, List.getElem?_eq_getElem hi⟩
  have hglobals : P.extractor.extractGlobalFeatures = .ok P.globals := rfl
  have hbase : P.extractor.getBaseAddress = .ok P.base := rfl
  have hfile : fileScopeFeatureSet P.extractor cachedFileFeatures P.globals =
      .ok ((FeatureSet.empty.addAll P.fileFeatures).addAll P.globals) := by
    cases cachedFileFeatures with
    | none => rfl
    | some features =>
      rw [hcached features rfl]
      rfl
  set fhs : List (FunctionHandle Func) := P.functions.map fun f => ⟨f.addr, f⟩ with hfhs
  have hfunctions : P.extractor.getFunctions = .ok fhs := rfl
  have hlength : fhs.length = P.functions.length := List.length_map _
  have hbody : ∀ i < P.functions.length, ∃ slot,
      analyzeOne E rs P.extractor fhs P.globals i = .ok slot := fun i hi => by
    obtain ⟨f, hf⟩ := hget hi
    exact ⟨_, analyzeOne_program E P h hf⟩
  obtain ⟨hnone, hslots⟩ := hrun.slots_eq hbody
  obtain ⟨slots, hrunEq⟩ : ∃ slots,
      run P.functions.length (analyzeOne E rs P.extractor fhs P.globals) = (slots, none) :=
    ⟨_, Prod.ext rfl hnone⟩
  rw [hrunEq] at hslots
  obtain ⟨red, hred⟩ : ∃ red, reduceSlots slots fhs 0 {} = red := ⟨_, rfl⟩
  have hfill : ∀ j f, P.functions[j]? = some f →
      slots (0 + j) = { caps := f.capabilities E rs P } :=
    fun j f hf => by
      have hj : j < P.functions.length := (List.getElem?_eq_some_iff.mp hf).1
      rw [Nat.zero_add]
      exact Except.ok.inj ((hslots j hj).symm.trans (analyzeOne_program E P h hf))
  obtain ⟨hall, hfn, hbb, hinsn⟩ := reduceSlots_program E P hfill {}
  rw [← hfhs, hred] at hall hfn hbb hinsn
  have hfn : red.fnMatches = P.fnResults E rs := hfn
  have hbb : red.bbMatches = P.bbResults E rs := hbb
  have hinsn : red.insnMatches = P.insnResults E rs := hinsn
  obtain ⟨results, hresults⟩ : ∃ results, results =
      mergeInto (mergeInto (mergeInto (mergeInto [] (CodeUnit.file.outcome E rs P).2)
        (P.fnResults E rs)) (P.bbResults E rs)) (P.insnResults E rs) := ⟨_, rfl⟩
  refine ⟨{ red.caps with
    featureCount := (CodeUnit.file.outcome E rs P).1.size
    allMatches := results }, ?_, fun name => ?_⟩
  · simp only [findStaticCapabilities, hglobals, hfunctions, hbase, hlength, hrunEq, hfile, hred,
      hall, hfn, hbb, hinsn, match_eq_outcome E h, bind, Except.bind, pure, Except.pure, hresults]
    rfl
  · have hnodupFile : ((CodeUnit.file.outcome E rs P).2.map Prod.fst).Nodup :=
      nodup_outcome E h .file _ _
    have hnodupFn : ((P.fnResults E rs).map Prod.fst).Nodup := nodup_mergeResults _
    have hnodupBb : ((P.bbResults E rs).map Prod.fst).Nodup := nodup_mergeResults _
    have hnodupInsn : ((P.insnResults E rs).map Prod.fst).Nodup := nodup_mergeResults _
    dsimp only
    rw [hresults, entries_mergeInto hnodupInsn, entries_mergeInto hnodupBb,
      entries_mergeInto hnodupFn, entries_mergeInto hnodupFile]
    rfl

end ClosedForm

end Papa.Capabilities
