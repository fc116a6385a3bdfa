import Mathlib.Data.List.Chain
import Papa.Viv.CfCallbacks
import Papa.Viv.CodeBlocks

/-!
# Discovery

The driver makes functions through a code flow context. It records the instructions and their edges
in shared tables as the context decodes them, and when a function is reported it builds the blocks
of the function from these tables. The flow of a call that does not return is cut in the context,
and in no table. So the blocks run on after such a call, into what follows it, when that was decoded
before the blocks were built.

## Main definitions

* `Discovery`, `Discovery.callbacks`: the tables and how the context fills them.
* `Discovery.materializeFunction`: the blocks with their instructions and successors.
* `FlowEdge`: the edges of the flow, without the fall-throughs it suppressed.
* `AgreesWithFlow`: a block that is made of such edges.

## Main results

* `Discovery.agreesWithFlow_of_not_decoded`.
* `Discovery.block_runs_past_exit`.
-/

namespace Papa.Viv

open CodeFlowContext (Told)

variable {ι : Type}

/-! ### The driver -/

/-- The tables of the driver. -/
structure Discovery (ι : Type) where
  locations : LocationDb := []
  xrefs : XrefDb := []
  blocks : CodeBlockStore := []
  noFall : List VA := []
  analyzed : List VA := []
  noReturnFunctions : List VA := []
  functionEntries : List VA := []
  /-- History only: what was passed about the code, the last first. -/
  told : List (Told ι) := []
  /-- History only: the functions whose blocks were built, and what had been passed by then. -/
  analyses : List (VA × List (Told ι)) := []

/-- A block with its instructions, and the starts of the blocks it leads to. -/
structure BasicBlock (ι : Type) where
  va : VA
  instructions : List (DecodedInsn ι)
  successors : List VA

/-- The instructions of a byte range. A range of more than 2^64 instructions meets an address twice
and never ends. -/
def blockInstructions (reader : VA → Option (DecodedInsn ι)) :
    (fuel : ℕ) → (va stop : VA) → List (DecodedInsn ι)
  | 0, _, _ => []
  | fuel + 1, va, stop =>
    if va < stop then
      match reader va with
      | none => []
      | some insn =>
        insn :: if insn.length = 0 then []
          else blockInstructions reader fuel (va + insn.length) stop
    else []

/-- Decode a block again. Its successors are the edges of its last instruction that lead to
starts. -/
def materializeBlock (reader : VA → Option (DecodedInsn ι)) (xrefs : XrefDb) (starts : List VA)
    (b : CodeBlock) : BasicBlock ι :=
  let instructions := blockInstructions reader (2 ^ 64) b.va (b.va + b.size)
  let successors := match instructions.getLast? with
    | none => []
    | some term =>
      let fall := term.va + term.length
      (xrefs.branchTargets term.va).filter (· ∈ starts) ++
        if term.isFallthrough && fall ∈ starts then [fall] else []
  ⟨b.va, instructions, successors⟩

/-- Whether no block without successors can return. -/
def functionIsNoreturn (blocks : List (BasicBlock ι)) (isNoreturn : DecodedInsn ι → Bool) : Bool :=
  !blocks.isEmpty && !blocks.any fun bb =>
    bb.successors.isEmpty && match bb.instructions.getLast? with
      | none => false
      | some term => !(term.isCall && isNoreturn term) &&
          (term.isReturn || term.isJump || term.isConditional)

namespace Discovery

/-- The blocks of a function. -/
def materializeFunction (reader : VA → Option (DecodedInsn ι)) (d : Discovery ι) (fva : VA) :
    List (BasicBlock ι) :=
  let blockList := d.blocks.functionBlocks fva
  blockList.map (materializeBlock reader d.xrefs (blockList.map (·.va)))

/-- A call to an import that does not return, or to a function that was proven not to. -/
def isNoReturnCall (apiNoReturn : DecodedInsn ι → Bool) (d : Discovery ι) (op : DecodedInsn ι) :
    Bool :=
  apiNoReturn op || (op.isCall && op.branchTarget.any (· ∈ d.noReturnFunctions))

/-- Record an edge that has a target and is no fall-through. -/
def recordBranch (va : VA) (xrefs : XrefDb) (br : CfBranch) : XrefDb :=
  match br.target with
  | none => xrefs
  | some target =>
    if br.flags &&& kBrFall = 0 then xrefs.addCodeXref va target br.flags else xrefs

/-- Record an instruction, and its edges except the fall-through. -/
def onOpcode (va : VA) (op : DecodedInsn ι) (branches : List CfBranch) (d : Discovery ι) :
    Discovery ι :=
  { d with
    locations := d.locations.addLocation va op.length .kOp
    noFall := if op.isFallthrough then d.noFall else d.noFall.insert va
    xrefs := branches.foldl (recordBranch va) d.xrefs
    told := .opcode va op :: d.told }

/-- Build the blocks of a function that is reported for the first time, and note if it does not
return. This is the driver without the hook that matches signatures. -/
def onFunction (reader : VA → Option (DecodedInsn ι)) (apiNoReturn : DecodedInsn ι → Bool) (va : VA)
    (d : Discovery ι) : Discovery ι :=
  if va ∈ d.analyzed then d
  else
    let d := { d with
      analyzed := va :: d.analyzed
      functionEntries := d.functionEntries ++ [va]
      blocks := analyzeFunction d.locations d.xrefs (· ∈ d.noFall)
          (fun addr => (reader addr).isSome)
        va d.blocks
      analyses := (va, d.told) :: d.analyses }
    if functionIsNoreturn (d.materializeFunction reader va) (d.isNoReturnCall apiNoReturn) then
      { d with noReturnFunctions := va :: d.noReturnFunctions }
    else d

/-- How the context fills the tables. -/
def callbacks (reader : VA → Option (DecodedInsn ι)) (isExec : VA → Bool)
    (resolveJt : List (DecodedInsn ι) → Option JumpTableTargets)
    (apiNoReturn : DecodedInsn ι → Bool) : Callbacks (Discovery ι) ι where
  read va d := (reader va, d)
  isExec va d := (isExec va, d)
  isDefined va d := ((d.locations.getLocation va).isSome, d)
  onOpcode := onOpcode
  onFunction := onFunction reader apiNoReturn
  resolveJt window d := (resolveJt window, d)
  isNoReturnCall op d := (d.isNoReturnCall apiNoReturn op, d)
  onBranchTable fromVa caseVa d := { d with
    xrefs := d.xrefs.addCodeXref fromVa caseVa kBrCond
    told := .branchTable fromVa caseVa :: d.told }

end Discovery

/-! ### The edges of the flow -/

/-- Whether an address was decoded. -/
def Decoded (told : List (Told ι)) (va : VA) : Prop := ∃ op, .opcode va op ∈ told

/-- A static branch that is no call, or a case of a switch. -/
def Branches (told : List (Told ι)) (a b : VA) : Prop :=
  (∃ op, .opcode a op ∈ told ∧ ∃ br ∈ getBranches op, br.target = some b ∧
    br.flags &&& kBrProc = 0 ∧ br.flags &&& kBrFall = 0) ∨ .branchTable a b ∈ told

/-- A fall-through. -/
def FallsThrough (told : List (Told ι)) (a b : VA) : Prop :=
  ∃ op, .opcode a op ∈ told ∧ op.isFallthrough = true ∧ op.isReturn = false ∧ b = a + op.length

/-- The edges of the flow, without the fall-throughs it suppressed. -/
def FlowEdge (told : List (Told ι)) (noflow : List (VA × VA)) (a b : VA) : Prop :=
  Branches told a b ∨ (FallsThrough told a b ∧ (a, b) ∉ noflow)

/-- A block of a function that agrees with the flow: its instructions are reachable from the
function, each falls through to the next, and its successors are edges of its last one. -/
structure AgreesWithFlow (told : List (Told ι)) (noflow : List (VA × VA)) (fva : VA)
    (bb : BasicBlock ι) : Prop where
  reachable : ∀ op ∈ bb.instructions, Relation.ReflTransGen (FlowEdge told noflow) fva op.va
  falls : bb.instructions.IsChain fun op next =>
    FallsThrough told op.va next.va ∧ (op.va, next.va) ∉ noflow
  successors : ∀ succ ∈ bb.successors, ∃ term, bb.instructions.getLast? = some term ∧
    FlowEdge told noflow term.va succ

variable {reader : VA → Option (DecodedInsn ι)} {told told' : List (Told ι)}
  {noflow : List (VA × VA)} {a b : VA}

theorem Branches.mono (h : Branches told a b) (hsub : told ⊆ told') : Branches told' a b :=
  h.imp (fun ⟨op, hop, hbr⟩ => ⟨op, hsub hop, hbr⟩) fun hcase => hsub hcase

theorem FallsThrough.mono (h : FallsThrough told a b) (hsub : told ⊆ told') :
    FallsThrough told' a b :=
  h.imp fun _ hop => ⟨hsub hop.1, hop.2⟩

/-! ### What the tables say -/

/-- What holds of the tables. -/
structure Discovery.Inv (reader : VA → Option (DecodedInsn ι)) (d : Discovery ι) : Prop where
  location : ∀ loc ∈ d.locations, loc.type = .kOp →
    ∃ op, .opcode loc.va op ∈ d.told ∧ loc.size = op.length
  told : ∀ va op, .opcode va op ∈ d.told →
    reader va = some op ∧ (op.isFallthrough = false → va ∈ d.noFall)
  xref : ∀ x ∈ d.xrefs, x.branchFlags &&& kBrProc = 0 → x.branchFlags &&& kBrDeref = 0 →
    Branches d.told x.fromVa x.toVa
  analysis : ∀ fva told, (fva, told) ∈ d.analyses → told ⊆ d.told
  /-- Every block is a run of instructions that were decoded and reached when it was built. -/
  block : ∀ b ∈ d.blocks, ∃ told, (b.functionVa, told) ∈ d.analyses ∧ ∃ insns ≠ [],
    BlockRun reader (Decoded told) b.va insns (b.va + b.size) ∧
      ∀ op ∈ insns, ReachedIn (Decoded told) (FlowEdge told []) b.functionVa op.va

namespace Discovery

variable {d : Discovery ι} (hreader : WellFormed reader)

include hreader

/-- The tables at the time the blocks of a function are built. -/
theorem Inv.recorded (h : Inv reader d) :
    Recorded reader (Decoded d.told) (FlowEdge d.told []) d.locations d.xrefs (· ∈ d.noFall) where
  location loc hloc htype := by
    obtain ⟨op, hop, hsize⟩ := h.location loc hloc htype
    exact ⟨op, (h.told _ op hop).1, hsize, op, hop⟩
  xref x hx hproc hderef := .inl (h.xref x hx hproc hderef)
  fall va op hdecoded hop hnot := by
    obtain ⟨op', hop'⟩ := hdecoded
    obtain ⟨hread, hnofall⟩ := h.told va op' hop'
    obtain rfl := Option.some.inj (hread.symm.trans hop)
    have hthrough : op'.isFallthrough = true := by
      by_contra hfalse
      exact of_decide_eq_false hnot (hnofall (Bool.eq_false_iff.mpr hfalse))
    refine ⟨hthrough, .inr ⟨⟨op', hop', hthrough, ?_, rfl⟩, List.not_mem_nil⟩⟩
    refine Bool.eq_false_iff.mpr fun hreturn => ?_
    exact Bool.eq_false_iff.mp (hreader.isFallthrough_eq_false hread hreturn) hthrough

omit hreader in
/-- More edges and instructions leave the blocks as they are. -/
theorem Inv.of_told (h : Inv reader d) {locations : LocationDb} {xrefs : XrefDb} {noFall : List VA}
    {told : List (Told ι)} (hsub : d.told ⊆ told)
    (hlocation : ∀ loc ∈ locations, loc.type = .kOp →
      ∃ op, .opcode loc.va op ∈ told ∧ loc.size = op.length)
    (htold : ∀ va op, .opcode va op ∈ told →
      reader va = some op ∧ (op.isFallthrough = false → va ∈ noFall))
    (hxref : ∀ x ∈ xrefs, x.branchFlags &&& kBrProc = 0 → x.branchFlags &&& kBrDeref = 0 →
      Branches told x.fromVa x.toVa) :
    Inv reader { d with locations, xrefs, noFall, told } :=
  ⟨hlocation, htold, hxref,
    fun fva past hpast => List.Subset.trans (h.analysis fva past hpast) hsub, h.block⟩

omit hreader in
/-- Flags that accumulate tell no less. -/
theorem branches_of_addCodeXref {xrefs : XrefDb} {fromVa toVa : VA} {flags : UInt16}
    (hnew : flags &&& kBrProc = 0 → Branches told fromVa toVa)
    (h : ∀ x ∈ xrefs, x.branchFlags &&& kBrProc = 0 → x.branchFlags &&& kBrDeref = 0 →
      Branches told x.fromVa x.toVa) :
    ∀ x ∈ xrefs.addCodeXref fromVa toVa flags, x.branchFlags &&& kBrProc = 0 →
      x.branchFlags &&& kBrDeref = 0 → Branches told x.fromVa x.toVa := by
  refine XrefDb.forall_addCodeXref (fun hproc _ => hnew hproc) (fun x hx hproc hderef => ?_) h
  have hor (mask : UInt16) (hzero : (x.branchFlags ||| flags) &&& mask = 0) :
      x.branchFlags &&& mask = 0 := by
    have hdistrib : (x.branchFlags ||| flags) &&& mask =
        x.branchFlags &&& mask ||| flags &&& mask :=
      UInt16.toBitVec_inj.mp BitVec.and_or_distrib_right
    exact (UInt16.or_eq_zero_iff.mp (hdistrib.symm.trans hzero)).1
  exact hx (hor _ hproc) (hor _ hderef)

omit hreader in
/-- The edges of an instruction. -/
theorem branches_of_foldl {va : VA} {branches : List CfBranch} {xrefs : XrefDb}
    (hbranches : ∀ br ∈ branches, br.flags &&& kBrProc = 0 → br.flags &&& kBrFall = 0 →
      ∀ target, br.target = some target → Branches told va target)
    (h : ∀ x ∈ xrefs, x.branchFlags &&& kBrProc = 0 → x.branchFlags &&& kBrDeref = 0 →
      Branches told x.fromVa x.toVa) :
    ∀ x ∈ branches.foldl (recordBranch va) xrefs, x.branchFlags &&& kBrProc = 0 →
      x.branchFlags &&& kBrDeref = 0 → Branches told x.fromVa x.toVa := by
  induction branches generalizing xrefs with
  | nil => exact h
  | cons br branches ih =>
    rw [List.forall_mem_cons] at hbranches
    refine ih hbranches.2 ?_
    unfold recordBranch
    split
    · exact h
    · rename_i target htarget
      split_ifs with hfall
      · exact branches_of_addCodeXref (fun hproc => hbranches.1 hproc hfall target htarget) h
      · exact h

omit hreader in
theorem Inv.onOpcode (h : Inv reader d) {va : VA} {op : DecodedInsn ι} (hop : reader va = some op) :
    Inv reader (d.onOpcode va op (getBranches op)) := by
  have hsub : d.told ⊆ .opcode va op :: d.told := List.subset_cons_self _ _
  refine h.of_told hsub (fun loc hloc htype => ?_) (fun va' op' htold => ?_) ?_
  · rcases LocationDb.mem_addLocation hloc with rfl | hloc
    · exact ⟨op, List.mem_cons_self, rfl⟩
    · obtain ⟨op', hop', hsize⟩ := h.location loc hloc htype
      exact ⟨op', hsub hop', hsize⟩
  · rcases List.mem_cons.mp htold with heq | htold
    · obtain ⟨rfl, rfl⟩ := Told.opcode.inj heq
      refine ⟨hop, fun hfalse => ?_⟩
      rw [if_neg (Bool.eq_false_iff.mp hfalse)]
      exact List.mem_insert_self
    · refine ⟨(h.told va' op' htold).1, fun hfalse => ?_⟩
      have hmem := (h.told va' op' htold).2 hfalse
      split_ifs
      · exact hmem
      · exact List.mem_insert_of_mem hmem
  · exact branches_of_foldl (fun br hbr hproc hfall target htarget => .inl
      ⟨op, List.mem_cons_self, br, hbr, htarget, hproc, hfall⟩) fun x hx hproc hderef =>
        (h.xref x hx hproc hderef).mono hsub

omit hreader in
theorem Inv.onBranchTable (h : Inv reader d) (fromVa caseVa : VA) :
    Inv reader { d with
      xrefs := d.xrefs.addCodeXref fromVa caseVa kBrCond
      told := .branchTable fromVa caseVa :: d.told } := by
  have hsub : d.told ⊆ .branchTable fromVa caseVa :: d.told := List.subset_cons_self _ _
  refine h.of_told hsub (fun loc hloc htype => ?_) (fun va op htold => ?_) ?_
  · obtain ⟨op, hop, hsize⟩ := h.location loc hloc htype
    exact ⟨op, hsub hop, hsize⟩
  · rcases List.mem_cons.mp htold with heq | htold
    · exact nomatch heq
    · exact h.told va op htold
  · exact branches_of_addCodeXref (fun _ => .inr List.mem_cons_self) fun x hx hproc hderef =>
      (h.xref x hx hproc hderef).mono hsub

theorem Inv.onFunction (h : Inv reader d) (apiNoReturn : DecodedInsn ι → Bool) (va : VA) :
    Inv reader (d.onFunction reader apiNoReturn va) := by
  unfold Discovery.onFunction
  split_ifs with hanalyzed
  · exact h
  dsimp only
  have hbuilt : Inv reader { d with
      analyzed := va :: d.analyzed
      functionEntries := d.functionEntries ++ [va]
      blocks := analyzeFunction d.locations d.xrefs (· ∈ d.noFall)
          (fun addr => (reader addr).isSome)
        va d.blocks
      analyses := (va, d.told) :: d.analyses } := by
    refine ⟨h.location, h.told, h.xref, fun fva past hpast => ?_, fun b hb => ?_⟩
    · rcases List.mem_cons.mp hpast with heq | hpast
      · obtain ⟨-, rfl⟩ := Prod.mk.inj heq
        exact List.Subset.refl _
      · exact h.analysis fva past hpast
    · rcases analyzeFunction_spec hreader (h.recorded hreader) hb with hb | ⟨rfl, hrun⟩
      · obtain ⟨past, hpast, hrun⟩ := h.block b hb
        exact ⟨past, List.mem_cons_of_mem _ hpast, hrun⟩
      · exact ⟨d.told, List.mem_cons_self, hrun⟩
  split_ifs
  · exact ⟨hbuilt.location, hbuilt.told, hbuilt.xref, hbuilt.analysis, hbuilt.block⟩
  · exact hbuilt

/-- The callbacks keep what holds of the tables. -/
theorem keeps_inv (isExec : VA → Bool) (resolveJt : List (DecodedInsn ι) → Option JumpTableTargets)
    (apiNoReturn : DecodedInsn ι → Bool) :
    CodeFlowContext.Keeps (callbacks reader isExec resolveJt apiNoReturn)
      fun d d' => Inv reader d → Inv reader d' where
  refl _ := id
  trans h h' := h' ∘ h
  read _ _ := id
  isExec _ _ := id
  isDefined _ _ := id
  onFunction va _ h := h.onFunction hreader apiNoReturn va
  resolveJt _ _ := id
  isNoReturnCall _ _ := id
  onBranchTable fromVa caseVa _ h := h.onBranchTable fromVa caseVa
  onOpcode _ _ _ _ hop h := h.onOpcode hop

end Discovery

/-! ### Blocks and the flow -/

section Blocks

variable {decoded : VA → Prop} {insns : List (DecodedInsn ι)} {va stop : VA}

theorem BlockRun.le (h : BlockRun reader decoded va insns stop) : va ≤ stop := by
  induction h with
  | nil => exact UInt64.le_refl _
  | cons _ _ hlt _ _ ih => exact UInt64.le_of_lt (UInt64.lt_of_lt_of_le hlt ih)

theorem BlockRun.length_le (h : BlockRun reader decoded va insns stop) :
    insns.length ≤ stop.toNat - va.toNat := by
  induction h with
  | nil => exact Nat.zero_le _
  | cons _ _ hlt _ hrest ih =>
    have hle := UInt64.le_iff_toNat_le.mp hrest.le
    have hlt := UInt64.lt_iff_toNat_lt.mp hlt
    rw [List.length_cons]
    omega

/-- The instructions of a run are those of its byte range. -/
theorem BlockRun.blockInstructions_eq (h : BlockRun reader decoded va insns stop) {fuel : ℕ}
    (hfuel : insns.length ≤ fuel) : blockInstructions reader fuel va stop = insns := by
  induction h generalizing fuel with
  | nil va =>
    cases fuel with
    | zero => rfl
    | succ fuel => exact if_neg (UInt64.lt_irrefl va)
  | @cons va stop op insns hread hdecoded hlt hfall hrest ih =>
    obtain ⟨fuel, rfl⟩ := Nat.exists_eq_add_of_le' (Nat.le_trans (Nat.le_add_left 1 _) hfuel)
    have hne : op.length ≠ 0 := by
      intro hzero
      rw [hzero, UInt64.add_zero] at hlt
      exact UInt64.lt_irrefl va hlt
    rw [blockInstructions, if_pos (UInt64.lt_of_lt_of_le hlt hrest.le), hread]
    dsimp only
    rw [if_neg hne, ih (Nat.le_of_succ_le_succ hfuel)]

theorem BlockRun.mem (hreader : WellFormed reader) (h : BlockRun reader decoded va insns stop)
    {op : DecodedInsn ι} (hop : op ∈ insns) : reader op.va = some op ∧ decoded op.va := by
  induction h with
  | nil => exact absurd hop List.not_mem_nil
  | cons hread hdecoded _ _ _ ih =>
    rcases List.mem_cons.mp hop with rfl | hop
    · rw [hreader.va_eq hread]
      exact ⟨hread, hdecoded⟩
    · exact ih hop

theorem BlockRun.decoded_of_ne_nil (h : BlockRun reader decoded va insns stop) (hne : insns ≠ []) :
    decoded va := by
  cases h with
  | nil => exact absurd rfl hne
  | cons _ hdecoded => exact hdecoded

/-- Each instruction of a run falls through to the next, which was decoded. -/
theorem BlockRun.isChain (hreader : WellFormed reader)
    (h : BlockRun reader (Decoded told) va insns stop)
    (htold : ∀ va op, .opcode va op ∈ told' → reader va = some op) (hsub : told ⊆ told') :
    insns.IsChain fun op next => FallsThrough told' op.va next.va ∧ Decoded told next.va := by
  induction h with
  | nil => exact .nil
  | @cons va stop op insns hread hdecoded hlt hfall hrest ih =>
    cases hrest with
    | nil => exact .singleton _
    | @cons _ _ next _ hnext hnextDecoded _ _ _ =>
      refine .cons_cons ⟨⟨op, ?_, hfall (List.cons_ne_nil _ _), ?_, ?_⟩, ?_⟩ ih
      · obtain ⟨op', hop'⟩ := hdecoded
        obtain rfl := Option.some.inj ((htold va op' (hsub hop')).symm.trans hread)
        exact hreader.va_eq hread ▸ hsub hop'
      · refine Bool.eq_false_iff.mpr fun hreturn => ?_
        exact Bool.eq_false_iff.mp (hreader.isFallthrough_eq_false hread hreturn)
          (hfall (List.cons_ne_nil _ _))
      · rw [hreader.va_eq hnext, hreader.va_eq hread]
      · exact hreader.va_eq hnext ▸ hnextDecoded

end Blocks

/-- Whether no fall-through that the flow suppressed led to an instruction that was already decoded
when the blocks of a function that reaches its call were built. -/
def SuppressedUndecoded (s : CodeFlowContext (Discovery ι)) : Prop :=
  ∀ fva past, (fva, past) ∈ s.ext.analyses → ∀ c n, (c, n) ∈ s.noflow →
    Relation.ReflTransGen (FlowEdge s.ext.told s.noflow) fva c → ¬ Decoded past n

namespace Discovery

/-- **Blocks agree with the flow** in every run that decodes no suppressed fall-through before the
blocks of a function that reaches the call are built. -/
theorem agreesWithFlow_of_not_decoded (hreader : WellFormed reader) {isExec : VA → Bool}
    {resolveJt : List (DecodedInsn ι) → Option JumpTableTargets}
    {apiNoReturn : DecodedInsn ι → Bool} {vas : List VA} {s : CodeFlowContext (Discovery ι)}
    (hrun : CodeFlowContext.Runs (callbacks reader isExec resolveJt apiNoReturn) {} vas s)
    (hundecoded : SuppressedUndecoded s) (fva : VA) :
    ∀ bb ∈ s.ext.materializeFunction reader fva,
      AgreesWithFlow s.ext.told s.noflow fva bb := by
  have hinv : Inv reader s.ext :=
    (keeps_inv hreader isExec resolveJt apiNoReturn).runs hrun
      ⟨nofun, nofun, nofun, nofun, nofun⟩
  have hreads : ∀ va op, .opcode va op ∈ s.ext.told → reader va = some op :=
    fun va op hop => (hinv.told va op hop).1
  -- An edge at the time of an analysis is an edge of the flow: the address it leads to was decoded.
  have hreached {fva : VA} {past : List (Told ι)} (hpast : (fva, past) ∈ s.ext.analyses) {va : VA}
      (hva : ReachedIn (Decoded past) (FlowEdge past []) fva va) :
      Relation.ReflTransGen (FlowEdge s.ext.told s.noflow) fva va := by
    induction hva with
    | refl => exact .refl
    | tail _ hedge ih =>
      obtain ⟨hedge, hdecoded⟩ := hedge
      refine ih.tail ?_
      rcases hedge with hbranch | ⟨hfall, -⟩
      · exact .inl (hbranch.mono (hinv.analysis _ _ hpast))
      · exact .inr ⟨hfall.mono (hinv.analysis _ _ hpast),
          fun hmem => hundecoded _ _ hpast _ _ hmem ih hdecoded⟩
  -- A fall-through to an instruction that was decoded by then was not suppressed.
  have hnot {fva : VA} {past : List (Told ι)} (hpast : (fva, past) ∈ s.ext.analyses) {c n : VA}
      (hc : Relation.ReflTransGen (FlowEdge s.ext.told s.noflow) fva c) (hn : Decoded past n) :
      (c, n) ∉ s.noflow := fun hmem => hundecoded _ _ hpast _ _ hmem hc hn
  intro bb hbb
  obtain ⟨b, hlisted, rfl⟩ := List.mem_map.mp hbb
  obtain ⟨hb, hfunction⟩ := List.mem_filter.mp hlisted
  obtain rfl : b.functionVa = fva := of_decide_eq_true hfunction
  obtain ⟨past, hpast, insns, hne, hblock, hinsns⟩ := hinv.block b hb
  have hlength : insns.length ≤ 2 ^ 64 :=
    hblock.length_le.trans ((Nat.sub_le _ _).trans (UInt64.toNat_lt _).le)
  have heq : blockInstructions reader (2 ^ 64) b.va (b.va + b.size) = insns :=
    hblock.blockInstructions_eq hlength
  have hflow : ∀ op ∈ insns,
      Relation.ReflTransGen (FlowEdge s.ext.told s.noflow) b.functionVa op.va :=
    fun op hop => hreached hpast (hinsns op hop)
  have hchain := hblock.isChain hreader hreads (hinv.analysis _ _ hpast)
  unfold materializeBlock
  rw [heq]
  refine ⟨hflow, hchain.imp_of_mem_imp fun op next hop _ ⟨hfall, hdecoded⟩ => ⟨hfall,
    hnot hpast (hflow op hop) hdecoded⟩, fun succ hsucc => ?_⟩
  cases hterm : insns.getLast? with
  | none => exact absurd (List.getLast?_eq_none_iff.mp hterm) hne
  | some term =>
    refine ⟨term, rfl, ?_⟩
    simp only [hterm] at hsucc
    rcases List.mem_append.mp hsucc with hbranch | hfall
    · obtain ⟨x, hx, hfrom, hto, hproc, hderef⟩ :=
        XrefDb.mem_branchTargets (List.mem_filter.mp hbranch).1
      exact .inl (hfrom ▸ hto ▸ hinv.xref x hx hproc hderef)
    · have hmem := List.mem_of_getLast? hterm
      split_ifs at hfall with hthrough
      · rw [Bool.and_eq_true, decide_eq_true_eq] at hthrough
        obtain rfl := List.mem_singleton.mp hfall
        obtain ⟨b', hlisted', hstart⟩ := List.mem_map.mp hthrough.2
        obtain ⟨hb', hfunction'⟩ := List.mem_filter.mp hlisted'
        obtain ⟨past', hpast', insns', hne', hblock', -⟩ := hinv.block b' hb'
        rw [of_decide_eq_true hfunction'] at hpast'
        obtain ⟨hread, op, hop⟩ := hblock.mem hreader hmem
        have hop := hinv.analysis _ _ hpast hop
        obtain rfl := Option.some.inj ((hreads _ _ hop).symm.trans hread)
        refine .inr ⟨⟨op, hop, hthrough.1, ?_, rfl⟩, hnot hpast' (hflow op hmem) ?_⟩
        · refine Bool.eq_false_iff.mpr fun hreturn => ?_
          exact Bool.eq_false_iff.mp (hreader.isFallthrough_eq_false hread hreturn) hthrough.1
        · exact hstart ▸ hblock'.decoded_of_ne_nil hne'
      · exact absurd hfall List.not_mem_nil

/-! ### A call that does not return -/

/-- A call of five bytes that does not return. -/
def abortCall : DecodedInsn Unit :=
  ⟨0x1002, 5, [.pcRel], true, false, false, false, some 0x2000, true, ()⟩

/-- The return after it. -/
def abortReturn : DecodedInsn Unit := ⟨0x1007, 1, [], false, false, false, true, none, false, ()⟩

def abortReader (va : VA) : Option (DecodedInsn Unit) :=
  if va = 0x1002 then some abortCall else if va = 0x1007 then some abortReturn else none

theorem wellFormed_abortReader : WellFormed abortReader := by
  have hcases {va : VA} {op : DecodedInsn Unit} (hop : abortReader va = some op) :
      (va = 0x1002 ∧ op = abortCall) ∨ (va = 0x1007 ∧ op = abortReturn) := by
    unfold abortReader at hop
    split_ifs at hop with hcall hreturn
    · exact .inl ⟨hcall, (Option.some.inj hop).symm⟩
    · exact .inr ⟨hreturn, (Option.some.inj hop).symm⟩
  refine ⟨fun hop => ?_, fun hop hreturn => ?_, fun hop hlt hend => ?_⟩
  · obtain ⟨rfl, rfl⟩ | ⟨rfl, rfl⟩ := hcases hop <;> rfl
  · obtain ⟨rfl, rfl⟩ | ⟨rfl, rfl⟩ := hcases hop
    · exact absurd hreturn (by decide)
    · rfl
  · rename_i b
    have hne : b ≠ 0x1002 ∧ b ≠ 0x1007 := by
      obtain ⟨rfl, rfl⟩ | ⟨rfl, rfl⟩ := hcases hop
      · refine ⟨?_, ?_⟩
        · rintro rfl
          exact absurd hlt (by decide)
        · rintro rfl
          exact absurd hend (by decide)
      · refine ⟨?_, ?_⟩
        · rintro rfl
          exact absurd hlt (by decide)
        · rintro rfl
          exact absurd hlt (by decide)
    exact (if_neg hne.1).trans (if_neg hne.2)

/-- The callbacks over these instructions, with a call oracle that reports `abortCall`. -/
def abortCallbacks : Callbacks (Discovery Unit) Unit :=
  callbacks abortReader (fun _ => true) (fun _ => none) (·.isCall)

/-- Whether a report is of an instruction at an address. -/
private def isOpcodeAt (va : VA) : Told Unit → Bool
  | .opcode va' _ => va' = va
  | .branchTable _ _ => false

/-- The call alone: the block ends with it. -/
theorem exists_run_abort : ∃ s, CodeFlowContext.Runs abortCallbacks {} [0x1002] s ∧
    s.noflow = [(0x1002, 0x1007)] ∧ (∀ e ∈ s.ext.analyses, ∀ op, .opcode 0x1007 op ∉ e.2) ∧
      (s.ext.materializeFunction abortReader 0x1002).map (·.instructions) = [[abortCall]] := by
  have hrun : (CodeFlowContext.addEntryPoint abortCallbacks 8 0x1002 { ext := {} }).any (fun s =>
      s.noflow = [(0x1002, 0x1007)] ∧ (s.ext.analyses.flatMap (·.2)).all (!isOpcodeAt 0x1007 ·) ∧
      (s.ext.materializeFunction abortReader 0x1002).map (·.instructions) = [[abortCall]]) =
        true := by
    decide +kernel
  obtain ⟨s, hs, hp⟩ := (Option.any_eq_true _ _).mp hrun
  obtain ⟨hnoflow, hall, hblocks⟩ := of_decide_eq_true hp
  refine ⟨s, .call 8 0x1002 .nil hs, hnoflow, fun e he op hop => ?_, hblocks⟩
  simpa [isOpcodeAt] using List.all_eq_true.mp hall _ (List.mem_flatMap.mpr ⟨e, he, hop⟩)

theorem agreesWithFlow_of_not_decoded_abort :
    ∃ s, CodeFlowContext.Runs abortCallbacks {} [0x1002] s ∧ s.noflow = [(0x1002, 0x1007)] ∧
      (s.ext.materializeFunction abortReader 0x1002).map (·.instructions) = [[abortCall]] ∧
      ∀ bb ∈ s.ext.materializeFunction abortReader 0x1002,
        AgreesWithFlow s.ext.told s.noflow 0x1002 bb := by
  obtain ⟨s, hs, hnoflow, hundecoded, hblocks⟩ := exists_run_abort
  refine ⟨s, hs, hnoflow, hblocks,
    agreesWithFlow_of_not_decoded wellFormed_abortReader hs ?_ 0x1002⟩
  rintro fva past hpast c n hmem - ⟨op, hop⟩
  rw [hnoflow, List.mem_singleton] at hmem
  obtain ⟨rfl, rfl⟩ := Prod.mk.inj hmem
  exact hundecoded _ hpast op hop

/-- The return is made a function first. -/
theorem exists_run_return : ∃ s, CodeFlowContext.Runs abortCallbacks {} [0x1007, 0x1002] s ∧
    s.noflow = [(0x1002, 0x1007)] ∧
      ∃ bb ∈ s.ext.materializeFunction abortReader 0x1002,
        bb.instructions = [abortCall, abortReturn] := by
  have hrun : ((CodeFlowContext.addEntryPoint abortCallbacks 8 0x1007 { ext := {} }).bind
      (CodeFlowContext.addEntryPoint abortCallbacks 8 0x1002)).any (fun s =>
        s.noflow = [(0x1002, 0x1007)] ∧ (s.ext.materializeFunction abortReader 0x1002).any
          (·.instructions = [abortCall, abortReturn])) = true := by
    decide +kernel
  obtain ⟨s, hs, hp⟩ := (Option.any_eq_true _ _).mp hrun
  obtain ⟨s₁, hs₁, hs₂⟩ := Option.bind_eq_some_iff.mp hs
  obtain ⟨hnoflow, hblock⟩ := of_decide_eq_true hp
  obtain ⟨bb, hbb, heq⟩ := List.any_eq_true.mp hblock
  exact ⟨s, .call 8 0x1002 (.call 8 0x1007 .nil hs₁) hs₂, hnoflow, bb, hbb, of_decide_eq_true heq⟩

/-- **A block runs past a call that does not return** when what follows the call was decoded before:
the flow suppressed the fall-through, and the block goes on over it. -/
theorem block_runs_past_exit : WellFormed abortReader ∧
    ∃ s, CodeFlowContext.Runs abortCallbacks {} [0x1007, 0x1002] s ∧
      (0x1002, 0x1007) ∈ s.noflow ∧ ∃ bb ∈ s.ext.materializeFunction abortReader 0x1002,
        bb.instructions = [abortCall, abortReturn] ∧
          ¬ AgreesWithFlow s.ext.told s.noflow 0x1002 bb := by
  obtain ⟨s, hs, hnoflow, bb, hbb, heq⟩ := exists_run_return
  have hmem : (0x1002, 0x1007) ∈ s.noflow := hnoflow ▸ List.mem_singleton_self _
  refine ⟨wellFormed_abortReader, s, hs, hmem, bb, hbb, heq, fun hagrees => ?_⟩
  have hfalls := hagrees.falls
  rw [heq] at hfalls
  exact (List.isChain_pair.mp hfalls).2 hmem

end Discovery

end Papa.Viv
