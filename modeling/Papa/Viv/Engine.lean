import Papa.Pe.PeOffsets
import Papa.Viv.DiscoveryPasses
import Papa.Viv.Entrypoints

/-!
# Discovery of functions

The discovery of an image runs its passes one after the other: the entry points, the relocated
slots, the candidates that an emulation finds to behave like code, and in a 32-bit image the targets
of calls that an emulation resolves and the places that look like the start of a function. Zydis,
the resolver of switches and the emulations are parameters.

The discovery is that with a signature set that has no trees. What it installs for signatures goes
over the trees of the set when a function is made, and names functions and makes more of them where
a tree matches; over no trees it does nothing.

## Main definitions

* `Disassembler.decode`: what is taken of Zydis.
* `Engine`, `Engine.driver`: an image and what its discovery is given.
* `Engine.discoverFunctions`: the passes.
* `Engine.Origin`: the calls that the passes may make.

## Main results

* `Engine.discoverFunctions_returns`: the discovery of an image ends, and where its functions come
  from.
* `Engine.discoverFunctions_settles`: what it leaves undefined.
-/

namespace Papa.Viv

open Papa.Pe

variable {ι : Type}

/-! ### Reading instructions -/

/-- The instruction at the start of some bytes, which it does not run past. -/
def Disassembler.decode (zydis : List UInt8 → VA → Option (DecodedInsn ι)) (bytes : List UInt8)
    (va : VA) : Expected (DecodedInsn ι) :=
  if bytes = [] then .error ⟨.disassemblyFailed, str "empty instruction buffer"⟩
  else
    match zydis bytes va with
    | none => .error ⟨.disassemblyFailed, str "ZydisDecoderDecodeFull failed"⟩
    | some zi =>
      if zi.length = 0 ∨ bytes.length < zi.length.toNat then
        .error ⟨.disassemblyFailed, str "impossible instruction length"⟩
      else .ok { zi with va }

/-- The target of a `lea` with an operand relative to the next instruction. -/
def riprelLeaTarget (isLea : DecodedInsn ι → Bool) (disp : DecodedInsn ι → ℕ → UInt64)
    (insn : DecodedInsn ι) : Option VA :=
  if isLea insn then
    (insn.operands.findIdx? (· = .ripRel)).map fun i => insn.va + insn.length + disp insn i
  else none

/-! ### The engine -/

/-- An image, and what its discovery is given: Zydis with the fields of its operands, the resolver
of switches, the imports that do not return, and the verdicts of the emulation. The signature set
has no trees. -/
structure Engine (ι : Type) where
  image : PeImage
  zydis : List UInt8 → VA → Option (DecodedInsn ι)
  isLea : DecodedInsn ι → Bool
  disp : DecodedInsn ι → ℕ → UInt64
  resolveJumpTable : List (DecodedInsn ι) → Option JumpTableTargets
  apiNoReturn : DecodedInsn ι → Bool
  validateCandidate : VA → Bool
  discoverCallTargets : VA → List VA

namespace Engine

variable (engine : Engine ι)

/-- The instruction at an address of the image. -/
def reader (va : VA) : Option (DecodedInsn ι) :=
  (engine.image.imageReader (Disassembler.decode engine.zydis) va).toOption

/-- The driver of an image. -/
def driver : Driver ι where
  read := engine.reader
  isExec := engine.image.vaIsExecutable
  resolveJt := engine.resolveJumpTable
  isProbablyCode := engine.validateCandidate
  readPtr site := engine.image.readLeVa site engine.image.pointerSize
  ptrSize := .ofNat engine.image.pointerSize
  apiNoReturn op := op.isCall && engine.apiNoReturn op

/-- The executable targets of the `lea`s that were decoded. -/
def leaTargets (d : Discovery ι) : List VA :=
  (d.locations.filter (·.type = .kOp)).filterMap fun loc =>
    ((engine.reader loc.va).bind (riprelLeaTarget engine.isLea engine.disp)).filter
      engine.image.vaIsExecutable

/-- The candidates for code. -/
def collectCandidates (d : Discovery ι) : List VA :=
  engine.image.findPointerCandidates ++
    if engine.image.is64bit then engine.leaTargets d else []

/-- The section of the code of a 32-bit image with its bytes. -/
def textCode : Option (VA × List UInt8) :=
  (engine.image.sectionNamed ".text").bind fun text =>
    (engine.image.bytesAtRva text.virtualAddress.toNat text.rawSize.toNat).map fun code =>
      (engine.image.imageBase + text.virtualAddress.toUInt64, code)

/-- The bytes of the section that an instruction covers, by their distance from its start. -/
def coveredBytes (textBase : VA) (codeSize : ℕ) (loc : Location) : List ℕ :=
  if loc.type ≠ .kOp ∨ loc.va < textBase then []
  else ((List.range loc.size.toNat).map fun k =>
    (loc.va - textBase + UInt64.ofNat k).toNat).takeWhile (· < codeSize)

/-- The places that look like the start of a function and that no instruction covers. -/
def collectPrologues (textBase : VA) (code : List UInt8) (d : Discovery ι) : List VA :=
  findFunctionPrologues code textBase fun i =>
    d.locations.any fun loc => i ∈ coveredBytes textBase code.length loc

/-- The passes of a 32-bit image. -/
def runI386 (fuel : ℕ) (s : CodeFlowContext (Logged ι)) : Option (CodeFlowContext (Logged ι)) := do
  let s ← engine.driver.runCalling engine.discoverCallTargets fuel 6 [] s
  match engine.textCode with
  | none => some s
  | some (textBase, code) =>
    engine.driver.runFuncentries (collectPrologues textBase code) fuel 8 s

/-- `discover_functions` with a signature set that has no trees, up to the tables. -/
def discoverFunctions (fuel : ℕ) : Option (CodeFlowContext (Logged ι)) := do
  let s ← engine.driver.runEntrypoints fuel engine.image.entrypointSeeds { ext := {} }
  let s ← engine.driver.runRelocations fuel engine.image.relocPointerSites s
  let s ← engine.driver.runEmucode engine.collectCandidates fuel s
  if engine.image.is64bit then some s else engine.runI386 fuel s

/-- The calls that the passes may make in a state. What a pass collected, it collected from the
tables of a state before. -/
inductive Origin (u : CodeFlowContext (Logged ι)) : Driver.Call → Prop
  | seed {va : VA} (h : va ∈ engine.image.entrypointSeeds) : Origin u (.makeFunction va)
  | relocation {site : VA} (h : site ∈ engine.image.relocPointerSites) :
      Origin u (.makePointer site true)
  | candidate {t : CodeFlowContext (Logged ι)} {va : VA} (ht : Driver.Before engine.driver t u)
      (h : va ∈ engine.collectCandidates t.ext.disc)
      (hcode : engine.validateCandidate va = true) : Origin u (.makeFunction va)
  | callTarget {t : CodeFlowContext (Logged ι)} {fva va : VA}
      (ht : Driver.Before engine.driver t u) (hfva : fva ∈ t.ext.disc.functionEntries)
      (h32 : engine.image.is64bit = false) (h : va ∈ engine.discoverCallTargets fva) :
      Origin u (.makeFunction va)
  | prologue {t : CodeFlowContext (Logged ι)} {va textBase : VA} {code : List UInt8}
      (ht : Driver.Before engine.driver t u) (h32 : engine.image.is64bit = false)
      (htext : engine.textCode = some (textBase, code))
      (h : va ∈ collectPrologues textBase code t.ext.disc) : Origin u (.makeFunction va)

/-! ### Instructions of an image -/

variable {engine}

theorem Disassembler.decode_eq_ok {zydis : List UInt8 → VA → Option (DecodedInsn ι)}
    {bytes : List UInt8} {va : VA} {op : DecodedInsn ι}
    (h : Disassembler.decode zydis bytes va = .ok op) :
    op.length ≠ 0 ∧ op.length.toNat ≤ bytes.length := by
  unfold Disassembler.decode at h
  by_cases hempty : bytes = []
  · rw [if_pos hempty] at h
    cases h
  · rw [if_neg hempty] at h
    cases hzi : zydis bytes va with
    | none =>
      rw [hzi] at h
      cases h
    | some zi =>
      rw [hzi] at h
      dsimp only at h
      by_cases himpossible : zi.length = 0 ∨ bytes.length < zi.length.toNat
      · rw [if_pos himpossible] at h
        cases h
      · rw [if_neg himpossible] at h
        obtain rfl := Except.ok.inj h
        rw [not_or, not_lt] at himpossible
        exact himpossible

/-- An address with bytes is within 8 GiB of the image base. -/
theorem toNat_sub_lt_of_longestAtRva {img : PeImage} {rva cap : ℕ}
    (h : img.longestAtRva rva cap ≠ []) : rva < 2 ^ 33 := by
  cases hoff : img.rvaToFileOffset .machine rva with
  | none =>
    rw [PeImage.longestAtRva, hoff] at h
    exact absurd rfl h
  | some off =>
    rw [PeImage.rvaToFileOffset_eq Arith.fits_machine] at hoff
    exact (PeImage.rvaToFileOffset_lt hoff).1

/-- The instructions of an image that ends before the last address does. -/
theorem readsForward (hbase : engine.image.imageBase.toNat + (2 ^ 33 + 15) ≤ 2 ^ 64) :
    engine.driver.ReadsForward := by
  intro va op hread
  replace hread : (engine.image.imageReader (Disassembler.decode engine.zydis) va).toOption =
    some op := hread
  by_cases hva : va < engine.image.imageBase
  · rw [PeImage.imageReader, if_pos hva] at hread
    exact absurd hread (Option.some_ne_none op).symm
  · rw [PeImage.imageReader_eq (UInt64.not_lt.mp hva)] at hread
    split_ifs at hread with hempty
    · exact absurd hread (Option.some_ne_none op).symm
    · have hrva := toNat_sub_lt_of_longestAtRva hempty
      have hcap : (engine.image.longestAtRva (va - engine.image.imageBase).toNat
          PeImage.kMaxInsnBytes).length ≤ 15 := by
        rw [PeImage.length_longestAtRva]
        exact Nat.min_le_left _ _
      generalize engine.image.longestAtRva _ _ = bytes at hread hcap
      cases hdecode : Disassembler.decode engine.zydis bytes va with
      | error e =>
        rw [hdecode] at hread
        exact absurd hread (Option.some_ne_none op).symm
      | ok insn =>
        rw [hdecode] at hread
        obtain rfl := Option.some.inj hread
        obtain ⟨hne, hle⟩ := Disassembler.decode_eq_ok hdecode
        have hpos := UInt64.pos_iff_ne_zero.mpr hne
        rw [UInt64.toNat_sub_of_le _ _ (UInt64.not_lt.mp hva)] at hrva
        have hge := UInt64.le_iff_toNat_le.mp (UInt64.not_lt.mp hva)
        have hpos := UInt64.lt_iff_toNat_lt.mp hpos
        rw [UInt64.toNat_zero] at hpos
        rw [UInt64.lt_iff_toNat_lt, UInt64.toNat_add, Nat.mod_eq_of_lt (by omega)]
        omega

/-! ### What the passes do -/

open Driver

variable {cs : List Driver.Call} {s : CodeFlowContext (Logged ι)}

/-- What the passes of a 32-bit image leave: no place looks like the start of a function, or each of
the eight passes made functions of such places. -/
def ProloguesDone (engine : Engine ι) (s : CodeFlowContext (Logged ι)) : Prop :=
  ∀ textBase code, engine.textCode = some (textBase, code) →
    (∀ va ∈ collectPrologues textBase code s.ext.disc, engine.driver.Done s va) ∨
      ∃ cs t, engine.driver.Runs cs t ∧
        Rounds engine.driver (collectPrologues textBase code) 8 t s

section Passes

variable (hreader : engine.driver.ReadsForward)

include hreader

theorem runI386_returns (h : engine.driver.Runs cs s) (h32 : engine.image.is64bit = false) :
    Fuelled.Returns (fun fuel => engine.runI386 fuel s) fun s' =>
      (∃ calls, Onward engine.driver engine.Origin s calls s') ∧ engine.ProloguesDone s' := by
  have hcalling := runCalling_returns hreader engine.Origin engine.discoverCallTargets
    (fun t u ht fva hfva va hva => .callTarget ht hfva h32 hva) 6 [] h
    (fun _ hf => absurd hf List.not_mem_nil)
  refine hcalling.bind fun t ht => ?_
  obtain ⟨calls, honward, -⟩ := ht
  cases htext : engine.textCode with
  | none =>
    refine .pure ⟨⟨calls, honward⟩, fun textBase code heq => ?_⟩
    exact absurd (heq.symm.trans htext) (Option.some_ne_none _)
  | some text =>
    obtain ⟨textBase, code⟩ := text
    have hruns := honward.leads.runs h
    refine (runFuncentries_returns hreader engine.Origin hruns (collectPrologues textBase code)
      (fun t u ht va hva => .prologue ht h32 htext hva) 8).mono fun s' hs' => ?_
    obtain ⟨⟨last, hlast⟩, hend⟩ := hs'
    refine ⟨⟨_, honward.trans hlast⟩, ?_⟩
    intro textBase' code' heq
    obtain ⟨rfl, rfl⟩ := Prod.mk.inj (Option.some.inj (heq.symm.trans htext))
    exact hend.imp_right fun hrounds => ⟨_, t, hruns, hrounds⟩

/-- What the discovery leaves. -/
structure Discovered (engine : Engine ι) (s : CodeFlowContext (Logged ι)) : Prop where
  leads : ∃ calls, Leads engine.driver engine.Origin { ext := {} } calls s
  seeds : ∀ va ∈ engine.image.entrypointSeeds, engine.driver.Done s va
  candidates : ∀ va ∈ engine.image.findPointerCandidates,
    engine.driver.Done s va ∨ engine.validateCandidate va = false
  leaTargets : engine.image.is64bit = true → ∀ va ∈ engine.leaTargets s.ext.disc,
    engine.driver.Done s va ∨ engine.validateCandidate va = false
  prologues : engine.image.is64bit = false → engine.ProloguesDone s

theorem discoverFunctions_discovered :
    Fuelled.Returns (fun fuel => engine.discoverFunctions fuel) engine.Discovered := by
  refine (runEntrypoints_returns hreader engine.Origin .nil
    fun _ va hva => .seed hva).bind fun s₁ h₁ => ?_
  obtain ⟨⟨calls₁, honward₁⟩, hseeds⟩ := h₁
  have hruns₁ := honward₁.leads.runs .nil
  refine (runRelocations_returns hreader engine.Origin hruns₁
    fun _ site hsite => .relocation hsite).bind fun s₂ h₂ => ?_
  obtain ⟨calls₂, honward₂⟩ := h₂
  have hruns₂ := honward₂.leads.runs hruns₁
  refine (runEmucode_returns hreader engine.Origin hruns₂ engine.collectCandidates
    fun t u ht va hva hcode => .candidate ht hva hcode).bind fun s₃ h₃ => ?_
  obtain ⟨⟨calls₃, honward₃⟩, hcandidates⟩ := h₃
  have hruns₃ := honward₃.leads.runs hruns₂
  have honward := (honward₁.trans honward₂).trans honward₃
  have hstatic : ∀ va ∈ engine.image.findPointerCandidates,
      engine.driver.Done s₃ va ∨ engine.validateCandidate va = false :=
    fun va hva => hcandidates va (List.mem_append_left _ hva)
  have hseeds₃ : ∀ va ∈ engine.image.entrypointSeeds, engine.driver.Done s₃ va :=
    fun va hva => honward₃.done va (honward₂.done va (hseeds va hva))
  by_cases h64 : engine.image.is64bit = true
  · simp only [if_pos h64]
    refine .pure ⟨⟨_, honward.leads⟩, hseeds₃, hstatic, fun _ va hva => ?_, fun h32 => ?_⟩
    · exact hcandidates va (List.mem_append_right _ (by rwa [if_pos h64]))
    · exact absurd (h32.symm.trans h64) Bool.false_ne_true
  · simp only [if_neg h64]
    have h32 := Bool.eq_false_iff.mpr h64
    refine (runI386_returns hreader hruns₃ h32).mono fun s₄ h₄ => ?_
    obtain ⟨⟨calls₄, honward₄⟩, hprologues⟩ := h₄
    refine ⟨⟨_, (honward.trans honward₄).leads⟩,
      fun va hva => honward₄.done va (hseeds₃ va hva),
      fun va hva => (hstatic va hva).imp_left (honward₄.done va),
      fun h => absurd h h64, fun _ => hprologues⟩

end Passes

/-- **The discovery of an image ends**, if the image ends before the last address does. What it
leaves comes of calls of the driver, each of which makes a function of a seed, of a candidate that
behaves like code, of a resolved target of a function known by then or of a place that looks like
the start of a function, or follows a relocated slot; and it has no function whose entry can be read
but was not decoded. -/
theorem discoverFunctions_returns
    (hbase : engine.image.imageBase.toNat + (2 ^ 33 + 15) ≤ 2 ^ 64) :
    Fuelled.Returns (fun fuel => engine.discoverFunctions fuel) fun s =>
      (∃ calls, Leads engine.driver engine.Origin { ext := {} } calls s) ∧
        s.functions.length ≤ kMaxFunctionsPerImage ∧
        ∀ f ∈ s.functions, s.ext.Defined f ∨ engine.reader f = none := by
  refine (discoverFunctions_discovered (readsForward hbase)).mono fun s h => ?_
  obtain ⟨calls, hleads⟩ := h.leads
  have hruns := hleads.runs .nil
  refine ⟨⟨calls, hleads⟩, (between_of_runs (readsForward hbase) hruns).idle.functions_le,
    defined_of_mem_functions (readsForward hbase) hruns⟩

/-- A 32-bit image of one byte, which is a return at its entry point. -/
def retEngine : Engine Unit where
  image := { buffer := [0xC3], imageBase := 0x400000, entryPointRva := 0x1000,
             sections := [⟨str ".text", 0x1000, 1, 0, 1, 0x60000020⟩] }
  zydis bytes va := if bytes.head? = some 0xC3 then
    some ⟨va, 1, [], false, false, false, true, none, false, ()⟩ else none
  isLea _ := false
  disp _ _ := 0
  resolveJumpTable _ := none
  apiNoReturn _ := false
  validateCandidate _ := true
  discoverCallTargets _ := []

example : (retEngine.discoverFunctions 8).any (fun s =>
    s.ext.disc.functionEntries = [0x401000] ∧
        s.functions.length < kMaxFunctionsPerImage) = true := by
  decide +kernel

theorem discoverFunctions_returns_ret :
    Fuelled.Returns (fun fuel => retEngine.discoverFunctions fuel) fun s =>
      (∃ calls, Leads retEngine.driver retEngine.Origin { ext := {} } calls s) ∧
        s.functions.length ≤ kMaxFunctionsPerImage ∧
        ∀ f ∈ s.functions, s.ext.Defined f ∨ retEngine.reader f = none :=
  discoverFunctions_returns (by decide)

end Engine

end Papa.Viv
