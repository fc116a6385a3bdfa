import Papa.Library.AssocList
import Papa.Library.ReverseEdges
import Papa.Viv.BlockPartition
import Papa.Viv.DecodeOnce
import Papa.Viv.DriverReturns
import Papa.Viv.Entrypoints

/-!
# The graphs of the functions

When the passes have run, the functions are made from the tables: blocks with their successors and,
from these, their predecessors, and the targets of direct calls. The callers are filled in once all
functions are known. So in what the discovery gives, predecessors and successors tell the same edges
as often, and so do callers and callees.

## Main definitions

* `LinkedBlock`, `RecoveredFunction`: what the discovery gives.
* `Discovery.materializeFunctions`, `fillCallers`.
* `Discovery.BuiltOnce`: every function is built once.

## Main results

* `Driver.materializeFunctions_linked`: the blocks of a function.
* `Driver.fillCallers_linked`: the calls between functions.
-/

namespace Papa.Viv

variable {ι : Type}

/-! ### What the discovery gives -/

/-- A block with the blocks that lead to it. -/
structure LinkedBlock (ι : Type) extends BasicBlock ι where
  predecessors : List VA

/-- A function. -/
structure RecoveredFunction (ι : Type) where
  va : VA
  basicBlocks : List (LinkedBlock ι)
  callers : List VA := []
  callees : List VA

/-- The inverse of the successors. -/
def linkBlocks (blocks : List (BasicBlock ι)) : List (LinkedBlock ι) :=
  let preds := AssocList.pushAll (blocks.flatMap fun bb => bb.successors.map (·, bb.va)) []
  blocks.map fun bb => { bb with predecessors := (AssocList.get? bb.va preds).getD [] }

/-- The targets of the direct calls of some blocks. -/
def directCallees (blocks : List (BasicBlock ι)) : List VA :=
  sortUnique (blocks.flatMap fun bb =>
    (bb.instructions.filter (·.isCall)).filterMap (·.branchTarget))

/-- `materialize_functions`. -/
def Discovery.materializeFunctions (reader : VA → Option (DecodedInsn ι)) (d : Discovery ι) :
    List (RecoveredFunction ι) :=
  d.functionEntries.map fun fva =>
    let blocks := d.materializeFunction reader fva
    { va := fva, basicBlocks := linkBlocks blocks, callees := directCallees blocks }

/-- The callers, by the place of the first function with the address that is called. -/
def fillCallers (funcs : List (RecoveredFunction ι)) : List (RecoveredFunction ι) :=
  let calls := funcs.flatMap fun caller => caller.callees.filterMap fun calleeVa =>
    (funcs.findIdx? (·.va = calleeVa)).map (·, caller.va)
  funcs.zipIdx.map fun f =>
    { f.1 with callers := sortUnique ((calls.filter (·.1 = f.2)).map (·.2)) }

/-! ### Blocks -/

section Blocks

variable {blocks : List (BasicBlock ι)}

variable (blocks) in
@[simp] theorem map_toBasicBlock_linkBlocks :
    (linkBlocks blocks).map (·.toBasicBlock) = blocks := by
  rw [linkBlocks, List.map_map]
  exact List.map_id blocks

theorem predecessors_of_mem_linkBlocks {c : LinkedBlock ι} (hc : c ∈ linkBlocks blocks) :
    c.toBasicBlock ∈ blocks ∧
      c.predecessors = ReverseEdges.reversed (·.va) (·.successors) blocks c.va := by
  obtain ⟨bb, hbb, rfl⟩ := List.mem_map.mp hc
  refine ⟨hbb, ?_⟩
  exact (AssocList.get?_pushAll _ bb.va []).trans (List.nil_append _)

theorem mem_directCallees_iff {va : VA} : va ∈ directCallees blocks ↔
    ∃ bb ∈ blocks, ∃ op ∈ bb.instructions, op.isCall = true ∧ op.branchTarget = some va := by
  simp only [directCallees, mem_sortUnique, List.mem_flatMap, List.mem_filterMap, List.mem_filter,
    and_assoc]

/-- A block of a function leads to blocks of the function only. -/
theorem mem_starts_of_mem_successors {reader : VA → Option (DecodedInsn ι)} {d : Discovery ι}
    {fva va : VA} {bb : BasicBlock ι} (hbb : bb ∈ d.materializeFunction reader fva)
    (hva : va ∈ bb.successors) : va ∈ (d.materializeFunction reader fva).map (·.va) := by
  have hstarts : (d.materializeFunction reader fva).map (·.va) =
      (d.blocks.functionBlocks fva).map (·.va) := by
    rw [Discovery.materializeFunction, List.map_map]
    rfl
  rw [hstarts]
  obtain ⟨b, -, rfl⟩ := List.mem_map.mp hbb
  unfold materializeBlock at hva
  dsimp only at hva
  cases hterm : (blockInstructions reader (2 ^ 64) b.va (b.va + b.size)).getLast? with
  | none =>
    rw [hterm] at hva
    exact absurd hva List.not_mem_nil
  | some term =>
    rw [hterm] at hva
    rcases List.mem_append.mp hva with hva | hva
    · exact of_decide_eq_true (List.mem_filter.mp hva).2
    · split_ifs at hva with hfall
      · rw [Bool.and_eq_true, decide_eq_true_eq] at hfall
        exact List.mem_singleton.mp hva ▸ hfall.2
      · exact absurd hva List.not_mem_nil

end Blocks

/-! ### Callers -/

section Callers

variable {funcs : List (RecoveredFunction ι)}

/-- What is filled in changes nothing else. -/
theorem map_va_fillCallers : (fillCallers funcs).map (·.va) = funcs.map (·.va) := by
  rw [fillCallers, List.map_map]
  have hzip : funcs.zipIdx.map Prod.fst = funcs := List.zipIdx_map_fst 0 funcs
  conv_rhs => rw [← hzip, List.map_map]
  rfl

theorem exists_of_mem_fillCallers {f : RecoveredFunction ι} (hf : f ∈ fillCallers funcs) :
    ∃ g ∈ funcs, f.va = g.va ∧ f.basicBlocks = g.basicBlocks ∧ f.callees = g.callees := by
  obtain ⟨r, hr, rfl⟩ := List.mem_map.mp hf
  exact ⟨r.1, List.fst_mem_of_mem_zipIdx hr, rfl, rfl, rfl⟩

/-- Where every address is that of one function, the first function with an address is the only
one. -/
theorem findIdx?_va_eq_some_iff (hnodup : (funcs.map (·.va)).Nodup) {i : ℕ}
    {g : RecoveredFunction ι} (hg : funcs[i]? = some g) {va : VA} :
    funcs.findIdx? (·.va = va) = some i ↔ g.va = va := by
  obtain ⟨hi, rfl⟩ := List.getElem?_eq_some_iff.mp hg
  rw [List.findIdx?_eq_some_iff_getElem]
  constructor
  · rintro ⟨_, heq, _⟩
    exact of_decide_eq_true heq
  · intro heq
    refine ⟨hi, decide_eq_true heq, fun j hj hva => ?_⟩
    have hsame : (funcs.map (·.va)).get ⟨j, by rw [List.length_map]; omega⟩ =
        (funcs.map (·.va)).get ⟨i, by rw [List.length_map]; omega⟩ := by
      simp only [List.get_eq_getElem, List.getElem_map]
      exact (of_decide_eq_true hva).trans heq.symm
    exact Nat.ne_of_lt hj (Fin.mk.inj (hnodup.get_inj_iff.mp hsame))

/-- **The callers** of a function are those that call it. -/
theorem mem_callers_iff (hnodup : (funcs.map (·.va)).Nodup) {f : RecoveredFunction ι}
    (hf : f ∈ fillCallers funcs) {va : VA} :
    va ∈ f.callers ↔ ∃ g ∈ funcs, g.va = va ∧ f.va ∈ g.callees := by
  obtain ⟨⟨g, i⟩, hr, rfl⟩ := List.mem_map.mp hf
  have hget : funcs[i]? = some g := List.mem_zipIdx_iff_getElem?.mp hr
  simp only [mem_sortUnique, List.mem_map, List.mem_filter, List.mem_flatMap, List.mem_filterMap,
    decide_eq_true_eq, Option.map_eq_some_iff]
  constructor
  · rintro ⟨-, ⟨⟨caller, hcaller, calleeVa, hcallee, j, hj, rfl⟩, rfl⟩, rfl⟩
    refine ⟨caller, hcaller, rfl, ?_⟩
    rwa [(findIdx?_va_eq_some_iff hnodup hget).mp hj]
  · rintro ⟨caller, hcaller, rfl, hcallee⟩
    refine ⟨(i, caller.va), ⟨⟨caller, hcaller, g.va, hcallee, i, ?_, rfl⟩, rfl⟩, rfl⟩
    exact (findIdx?_va_eq_some_iff hnodup hget).mpr rfl

theorem pairwise_callers {f : RecoveredFunction ι} (hf : f ∈ fillCallers funcs) :
    f.callers.Pairwise (· < ·) := by
  obtain ⟨r, -, rfl⟩ := List.mem_map.mp hf
  exact pairwise_sortUnique _

end Callers

/-! ### Functions that are built once -/

/-- Every function is built once, with its blocks in ascending order. -/
structure Discovery.BuiltOnce (d : Discovery ι) : Prop where
  nodup : d.functionEntries.Nodup
  analyzed : ∀ f ∈ d.functionEntries, f ∈ d.analyzed
  block : ∀ b ∈ d.blocks, b.functionVa ∈ d.analyzed
  ascending : ∀ fva, (d.blocks.functionBlocks fva).Pairwise fun b b' => b.va < b'.va

theorem Discovery.BuiltOnce.onFunction {d : Discovery ι} (h : d.BuiltOnce)
    (reader : VA → Option (DecodedInsn ι)) (apiNoReturn : DecodedInsn ι → Bool) (va : VA) :
    (d.onFunction reader apiNoReturn va).BuiltOnce := by
  unfold Discovery.onFunction
  split_ifs with hanalyzed
  · exact h
  dsimp only
  have hadded (b : CodeBlock) (hb : b ∈ addedBlocks d.locations d.xrefs (· ∈ d.noFall)
      (fun addr => (reader addr).isSome) va) : b.functionVa = va := (mem_addedBlocks hb).2.2.2
  have hbuilt : BuiltOnce { d with
      analyzed := va :: d.analyzed
      functionEntries := d.functionEntries ++ [va]
      blocks := analyzeFunction d.locations d.xrefs (· ∈ d.noFall)
        (fun addr => (reader addr).isSome) va d.blocks
      analyses := (va, d.told) :: d.analyses } := by
    refine ⟨?_, fun f hf => ?_, fun b hb => ?_, fun fva => ?_⟩
    · refine List.Nodup.append h.nodup (List.nodup_singleton va) ?_
      exact List.disjoint_singleton.mpr fun hmem => hanalyzed (h.analyzed va hmem)
    · rcases List.mem_append.mp hf with hf | hf
      · exact List.mem_cons_of_mem _ (h.analyzed f hf)
      · exact List.mem_singleton.mp hf ▸ List.mem_cons_self
    · rcases List.mem_append.mp hb with hb | hb
      · exact List.mem_cons_of_mem _ (h.block b hb)
      · exact hadded b hb ▸ List.mem_cons_self
    · show ((d.blocks ++ addedBlocks _ _ _ _ va).filter _).Pairwise _
      rw [List.filter_append]
      by_cases hfva : fva = va
      · have hold : d.blocks.filter (·.functionVa = fva) = [] := by
          refine List.filter_eq_nil_iff.mpr fun b hb heq => hanalyzed ?_
          exact hfva ▸ of_decide_eq_true heq ▸ h.block b hb
        rw [hold, List.nil_append]
        exact pairwise_addedBlocks.sublist List.filter_sublist
      · have hnew : (addedBlocks d.locations d.xrefs (· ∈ d.noFall)
            (fun addr => (reader addr).isSome) va).filter (·.functionVa = fva) = [] := by
          refine List.filter_eq_nil_iff.mpr fun b hb heq => hfva ?_
          exact (of_decide_eq_true heq).symm.trans (hadded b hb)
        rw [hnew, List.append_nil]
        exact h.ascending fva
  split_ifs
  · exact ⟨hbuilt.nodup, hbuilt.analyzed, hbuilt.block, hbuilt.ascending⟩
  · exact hbuilt

namespace Driver

variable {driver : Driver ι} {cs : List Call} {s s' : CodeFlowContext (Logged ι)}

theorem keeps_builtOnce : CodeFlowContext.Keeps driver.callbacks fun x x' : Logged ι =>
    x.disc.BuiltOnce → x'.disc.BuiltOnce where
  refl _ := id
  trans h h' := h' ∘ h
  read _ _ := id
  isExec _ _ := id
  isDefined _ _ := id
  onFunction va _ h := h.onFunction _ _ va
  resolveJt _ _ := id
  isNoReturnCall _ _ := id
  onBranchTable _ _ _ h := ⟨h.nodup, h.analyzed, h.block, h.ascending⟩
  onOpcode _ _ _ _ _ h := ⟨h.nodup, h.analyzed, h.block, h.ascending⟩

theorem builtOnce_of_runs (h : driver.Runs cs s) : s.ext.disc.BuiltOnce := by
  induction h with
  | nil =>
    exact ⟨List.nodup_nil, fun _ hf => absurd hf List.not_mem_nil,
      fun _ hb => absurd hb List.not_mem_nil, fun _ => .nil⟩
  | @call cs s s' fuel c _ hcall ih =>
    cases c with
    | makeFunction va => exact keeps_builtOnce.addEntryPoint hcall ih
    | makePointer site follow =>
      replace hcall : driver.makePointer fuel site follow s = some s' := hcall
      unfold makePointer at hcall
      by_cases hdefined : (s.ext.disc.locations.getLocation site).isSome = true
      · rw [if_pos hdefined] at hcall
        exact Option.some.inj hcall ▸ ih
      · rw [if_neg hdefined] at hcall
        cases hptr : driver.readPtr site with
        | none =>
          rw [hptr] at hcall
          exact Option.some.inj hcall ▸ ih
        | some target =>
          rw [hptr] at hcall
          have hadd : (s.ext.addLocation site driver.ptrSize .kPointer).disc.BuiltOnce :=
            ⟨ih.nodup, ih.analyzed, ih.block, ih.ascending⟩
          dsimp only at hcall
          unfold followPointer at hcall
          split_ifs at hcall
          · exact keeps_builtOnce.addEntryPoint hcall hadd
          · exact Option.some.inj hcall ▸ hadd
          · exact Option.some.inj hcall ▸ hadd

/-- What holds of the blocks of a function: they ascend, lead to one another only, and tell the same
edges forwards and backwards. -/
structure BlocksLinked (blocks : List (LinkedBlock ι)) : Prop where
  ascending : (blocks.map (·.va)).Pairwise (· < ·)
  successors : ∀ b ∈ blocks, ∀ va ∈ b.successors, ∃ c ∈ blocks, c.va = va
  predecessors : ∀ c ∈ blocks, ∀ va ∈ c.predecessors, ∃ b ∈ blocks, b.va = va
  count_eq : ∀ b ∈ blocks, ∀ c ∈ blocks, c.predecessors.count b.va = b.successors.count c.va

theorem blocksLinked_linkBlocks (h : driver.Runs cs s) (fva : VA) :
    BlocksLinked (linkBlocks (s.ext.disc.materializeFunction driver.read fva)) := by
  generalize hblocks : s.ext.disc.materializeFunction driver.read fva = blocks
  have hvas : (linkBlocks blocks).map (·.va) = blocks.map (·.va) := by
    conv_rhs => rw [← map_toBasicBlock_linkBlocks blocks, List.map_map]
    rfl
  have hascending : (blocks.map (·.va)).Pairwise (· < ·) := by
    have hstarts : blocks.map (·.va) = (s.ext.disc.blocks.functionBlocks fva).map (·.va) := by
      rw [← hblocks, Discovery.materializeFunction, List.map_map]
      rfl
    rw [hstarts]
    exact List.pairwise_map.mpr ((builtOnce_of_runs h).ascending fva)
  have hfind {va : VA} (hva : va ∈ blocks.map (·.va)) : ∃ c ∈ linkBlocks blocks, c.va = va := by
    rw [← hvas] at hva
    exact List.mem_map.mp hva
  refine ⟨hvas ▸ hascending, fun b hb va hva => hfind ?_, fun c hc va hva => hfind ?_,
    fun b hb c hc => ?_⟩
  · have hmem := (predecessors_of_mem_linkBlocks hb).1
    subst hblocks
    exact mem_starts_of_mem_successors hmem hva
  · rw [(predecessors_of_mem_linkBlocks hc).2] at hva
    obtain ⟨b, hb, rfl, -⟩ := ReverseEdges.mem_reversed_iff.mp hva
    exact List.mem_map_of_mem hb
  · rw [(predecessors_of_mem_linkBlocks hc).2]
    have hnodup : (blocks.map (·.va)).Nodup := hascending.imp UInt64.ne_of_lt
    exact ReverseEdges.count_reversed hnodup (predecessors_of_mem_linkBlocks hb).1

/-- What holds of the functions: each has an address of its own and linked blocks, its callees are
the targets of its direct calls, and its callers are the functions that have it as a callee. -/
structure FunctionsLinked (entries : List VA) (funcs : List (RecoveredFunction ι)) : Prop where
  entries_eq : funcs.map (·.va) = entries
  nodup : entries.Nodup
  blocks : ∀ f ∈ funcs, BlocksLinked f.basicBlocks
  pairwise_callees : ∀ f ∈ funcs, f.callees.Pairwise (· < ·)
  mem_callees : ∀ f ∈ funcs, ∀ va, va ∈ f.callees ↔ ∃ b ∈ f.basicBlocks, ∃ op ∈ b.instructions,
    op.isCall = true ∧ op.branchTarget = some va
  pairwise_callers : ∀ f ∈ funcs, f.callers.Pairwise (· < ·)
  mem_funcs : ∀ f ∈ funcs, ∀ va ∈ f.callers, ∃ g ∈ funcs, g.va = va
  mem_callers : ∀ f ∈ funcs, ∀ g ∈ funcs, g.va ∈ f.callers ↔ f.va ∈ g.callees

/-- **What the discovery gives** after any calls of the driver: blocks and functions whose edges are
told alike forwards and backwards. -/
theorem fillCallers_linked (h : driver.Runs cs s) :
    FunctionsLinked s.ext.disc.functionEntries
      (fillCallers (s.ext.disc.materializeFunctions driver.read)) := by
  set funcs := fillCallers (s.ext.disc.materializeFunctions driver.read)
  have hvas : (s.ext.disc.materializeFunctions driver.read).map (·.va) =
      s.ext.disc.functionEntries := by
    rw [Discovery.materializeFunctions, List.map_map]
    exact List.map_id _
  have hentries : funcs.map (·.va) = s.ext.disc.functionEntries := map_va_fillCallers.trans hvas
  have hnodup : ((s.ext.disc.materializeFunctions driver.read).map (·.va)).Nodup :=
    hvas ▸ (builtOnce_of_runs h).nodup
  have hfind {g : RecoveredFunction ι} (hg : g ∈ s.ext.disc.materializeFunctions driver.read) :
      ∃ g' ∈ funcs, g'.va = g.va := by
    have hmem := List.mem_map_of_mem (f := (·.va)) hg
    rw [← map_va_fillCallers] at hmem
    exact List.mem_map.mp hmem
  -- Everything but the callers is as it was before they were filled in.
  have hmade {f : RecoveredFunction ι} (hf : f ∈ funcs) : ∃ fva, f.va = fva ∧
      f.basicBlocks = linkBlocks (s.ext.disc.materializeFunction driver.read fva) ∧
      f.callees = directCallees (s.ext.disc.materializeFunction driver.read fva) := by
    obtain ⟨f₀, hf₀, hva, hbasicBlocks, hcallees⟩ := exists_of_mem_fillCallers hf
    obtain ⟨fva, -, rfl⟩ := List.mem_map.mp hf₀
    exact ⟨fva, hva, hbasicBlocks, hcallees⟩
  refine ⟨hentries, (builtOnce_of_runs h).nodup, fun f hf => ?_, fun f hf => ?_, fun f hf va => ?_,
    fun f hf => pairwise_callers hf, fun f hf va hva => ?_, fun f hf g hg => ?_⟩
  · obtain ⟨fva, -, hbasicBlocks, -⟩ := hmade hf
    exact hbasicBlocks ▸ blocksLinked_linkBlocks h fva
  · obtain ⟨fva, -, -, hcallees⟩ := hmade hf
    exact hcallees ▸ pairwise_sortUnique _
  · obtain ⟨fva, -, hbasicBlocks, hcallees⟩ := hmade hf
    rw [hcallees, hbasicBlocks]
    refine mem_directCallees_iff.trans ?_
    conv_lhs => rw [← map_toBasicBlock_linkBlocks (s.ext.disc.materializeFunction driver.read fva)]
    simp only [List.mem_map, exists_exists_and_eq_and]
  · obtain ⟨g, hg, rfl, -⟩ := (mem_callers_iff hnodup hf).mp hva
    exact hfind hg
  · rw [mem_callers_iff hnodup hf]
    obtain ⟨g₀, hg₀, hgva, -, hgcallees⟩ := exists_of_mem_fillCallers hg
    rw [hgva, hgcallees]
    constructor
    · rintro ⟨g₁, hg₁, heq, hmem⟩
      rwa [List.inj_on_of_nodup_map hnodup hg₁ hg₀ heq] at hmem
    · exact fun hmem => ⟨g₀, hg₀, rfl, hmem⟩

/-- A call, a branch back to it and a return, and a return at the target of the call. -/
def branchReader (va : VA) : Option (DecodedInsn Unit) :=
  if va = 0x1000 then some ⟨va, 5, [.pcRel], true, false, false, false, some 0x1008, true, ()⟩
  else if va = 0x1005 then some ⟨va, 2, [.pcRel], false, true, true, false, some 0x1000, true, ()⟩
  else if va = 0x1007 ∨ va = 0x1008 then
    some ⟨va, 1, [], false, false, false, true, none, false, ()⟩
  else none

/-- A driver over these instructions. -/
def branchDriver : Driver Unit := { overlapDriver with read := branchReader }

/-- What a function calls, what calls it, and where its blocks lead. -/
def callsAndEdges (f : RecoveredFunction Unit) : VA × List VA × List VA × List (VA × List VA) :=
  (f.va, f.callees, f.callers, f.basicBlocks.map fun b => (b.va, b.successors))

theorem fillCallers_linked_inOrder : ∃ s, branchDriver.Runs [.makeFunction 0x1000] s ∧
    (fillCallers (s.ext.disc.materializeFunctions branchDriver.read)).map callsAndEdges =
      [(0x1008, [], [0x1000], [(0x1008, [])]),
        (0x1000, [0x1008], [], [(0x1000, [0x1000, 0x1007]), (0x1007, [])])] ∧
    FunctionsLinked s.ext.disc.functionEntries
      (fillCallers (s.ext.disc.materializeFunctions branchDriver.read)) := by
  have hrun : (branchDriver.run 16 { ext := {} } (.makeFunction 0x1000)).any (fun s =>
      (fillCallers (s.ext.disc.materializeFunctions branchDriver.read)).map callsAndEdges =
        [(0x1008, [], [0x1000], [(0x1008, [])]),
          (0x1000, [0x1008], [], [(0x1000, [0x1000, 0x1007]), (0x1007, [])])]) = true := by
    decide +kernel
  obtain ⟨s, hs, hfuncs⟩ := (Option.any_eq_true _ _).mp hrun
  have hruns : branchDriver.Runs ([] ++ [.makeFunction 0x1000]) s := .call 16 _ .nil hs
  exact ⟨s, hruns, of_decide_eq_true hfuncs, fillCallers_linked hruns⟩

end Driver

end Papa.Viv
