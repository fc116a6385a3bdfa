import Papa.Library.StateMachine
import Papa.Viv.LocationCover

/-!
# Blocks that partition a function

A walk goes from the start of a block over instructions that fall through, each to an address that
no edge leads to. With instructions that do not overlap, and edges to starts of instructions or to
undefined addresses, a walk meets every instruction of its block, so a start inside a block would
have been met, and it is a start because an edge leads to it or because a branch is right before it:
in both cases the walk would have ended. Only the entry of the function is a start without a reason
of that kind. A walk that falls through into it, no edge being recorded, goes on to the end of the
block of the entry.

## Main definitions

* `InsnsDisjoint`, `Aligned`, `InsnRun`: instructions in a table of locations.
* `fallsTo`: one turn of a walk that goes on.
* `analyzeRun`: the analysis, or nothing when its fuel runs out.

## Main results

* `exists_halt_fallsTo`: every walk ends.
* `analyzeFunction_partition`: the blocks of a function.
-/

namespace Papa.Viv

open StateTransition StateMachine

/-! ### Instructions in a table -/

/-- No two instructions of a table overlap. -/
def InsnsDisjoint (locations : LocationDb) : Prop :=
  ∀ loc ∈ locations, ∀ loc' ∈ locations, loc.type = .kOp → loc'.type = .kOp → loc.va < loc'.va →
    loc.va.toNat + loc.size.toNat ≤ loc'.va.toNat

/-- An address is the start of an instruction, or undefined: a lookup finds no instruction there
that starts elsewhere. -/
def Aligned (locations : LocationDb) (va : VA) : Prop :=
  ∀ loc, locations.getLocation va = some loc → loc.type = .kOp → loc.va = va

theorem aligned_of_mem {locations : LocationDb} (hsorted : locations.Sorted) {loc : Location}
    (hloc : loc ∈ locations) : Aligned locations loc.va := fun _ hfound _ =>
  have hnearest := ((LocationDb.getLocation_eq_some_iff hsorted).mp hfound).1
  UInt64.le_antisymm hnearest.le (hnearest.last loc hloc (UInt64.le_refl _))

/-- The addresses from one to another are those of instructions that follow one another. -/
inductive InsnRun (locations : LocationDb) : VA → VA → Prop
  | nil (va : VA) : InsnRun locations va va
  | cons {loc : Location} {stop : VA} (hloc : loc ∈ locations) (htype : loc.type = .kOp)
      (hlt : loc.va < loc.va + loc.size) (hrest : InsnRun locations (loc.va + loc.size) stop) :
      InsnRun locations loc.va stop

section Walks

variable (locations : LocationDb) (xrefs : XrefDb) (isNoFall canParse : VA → Bool)

/-- The next address of a walk, when it goes on. -/
def fallsTo (va : VA) : Option VA :=
  match locations.getLocation va with
  | none => none
  | some loc =>
    if loc.type = .kOp ∧ canParse va = true ∧ isNoFall loc.va = false ∧
        xrefs.branchTargets va = [] ∧ xrefs.hasCodeXrefTo (va + loc.size) = false then
      some (va + loc.size)
    else none

/-- The end of a block whose walk ends at an address, or nothing when the block is dropped. -/
def blockEnd (va : VA) : Option VA :=
  match locations.getLocation va with
  | none => some va
  | some loc =>
    if loc.type ≠ .kOp then some va else if canParse va then some (va + loc.size) else none

/-- A walk with a fuel: nothing when it runs out. -/
def walkRun (fuel : ℕ) (start : VA) : Option BlockWalk :=
  (loop (fallsTo locations xrefs isNoFall canParse) fuel start).map
    (walkBlock locations xrefs isNoFall canParse start 1)

/-- `analyze_function` with a fuel for each of its loops: nothing when one runs out. -/
def analyzeRun (fuel : ℕ) (functionVa : VA) (store : CodeBlockStore) : Option CodeBlockStore := do
  let block := walkRun locations xrefs isNoFall canParse fuel
  let starts ← Worklist.run (fun start => (block start).map (·.pushes)) fuel [functionVa] []
  let ends := starts.flatMap fun start => (((block start).getD {}).ends.map (·, false))
  let refs := starts.map (·, true) ++ ends
  some (store ++ registerBlocks (fun start => ((block start).getD {}).size) functionVa
    (refs.insertionSort RefLe))

variable {locations xrefs isNoFall canParse} {va next start last : VA} {loc loc' : Location}
  {fuel : ℕ}

theorem fallsTo_eq_some (h : fallsTo locations xrefs isNoFall canParse va = some next) :
    ∃ loc, locations.getLocation va = some loc ∧ loc.type = .kOp ∧ canParse va = true ∧
      isNoFall loc.va = false ∧ xrefs.branchTargets va = [] ∧
      xrefs.hasCodeXrefTo next = false ∧ next = va + loc.size := by
  unfold fallsTo at h
  split at h
  · exact nomatch h
  · rename_i loc hloc
    split_ifs at h with hfalls
    obtain rfl := Option.some.inj h
    obtain ⟨htype, hparse, hnofall, htargets, hxref⟩ := hfalls
    exact ⟨loc, hloc, htype, hparse, hnofall, htargets, hxref, rfl⟩

/-- One turn of a walk. -/
theorem walkBlock_succ : walkBlock locations xrefs isNoFall canParse start (fuel + 1) va =
    match fallsTo locations xrefs isNoFall canParse va with
    | some next => walkBlock locations xrefs isNoFall canParse start fuel next
    | none => walkBlock locations xrefs isNoFall canParse start 1 va := by
  unfold fallsTo
  rw [walkBlock, walkBlock]
  cases locations.getLocation va with
  | none => rfl
  | some loc =>
    dsimp only
    split_ifs <;> simp_all

/-- The walk of a block is a machine and a last turn. -/
theorem walkBlock_eq : walkBlock locations xrefs isNoFall canParse start fuel va =
    ((loop (fallsTo locations xrefs isNoFall canParse) fuel va).map
      (walkBlock locations xrefs isNoFall canParse start 1)).getD {} := by
  induction fuel generalizing va with
  | zero => rfl
  | succ fuel ih =>
    rw [walkBlock_succ, loop]
    cases fallsTo locations xrefs isNoFall canParse va with
    | none => rfl
    | some next => exact ih

end Walks

/-! ### Walks end -/

section Ends

variable {locations : LocationDb} {xrefs : XrefDb} {isNoFall canParse : VA → Bool}
  {va next start last : VA} {loc loc' : Location} (hsorted : locations.Sorted)
  (hdisjoint : InsnsDisjoint locations)

theorem eq_of_sub_eq_zero {a b : VA} (h : a - b = 0) : a = b := by
  grind

/-- What a lookup finds, in numbers. -/
theorem bounds_of_getLocation (h : locations.getLocation va = some loc) :
    loc ∈ locations ∧ loc.va < loc.va + loc.size ∧ loc.va.toNat ≤ va.toNat ∧
      va.toNat < loc.va.toNat + loc.size.toNat ∧ loc.va.toNat + loc.size.toNat < 2 ^ 64 := by
  obtain ⟨hmem, hle, hlt⟩ := LocationDb.getLocation_eq_some h
  have hend : loc.va < loc.va + loc.size := UInt64.lt_of_le_of_lt hle hlt
  have htoNat := loc.toNat_end hend
  refine ⟨hmem, hend, UInt64.le_iff_toNat_le.mp hle, ?_, ?_⟩
  · exact htoNat ▸ UInt64.lt_iff_toNat_lt.mp hlt
  · exact htoNat ▸ UInt64.toNat_lt _

/-- How far an address is behind the start of its location. -/
def offset (locations : LocationDb) (va : VA) : ℕ :=
  match locations.getLocation va with
  | none => 0
  | some loc => va.toNat - loc.va.toNat

variable (locations xrefs isNoFall canParse) in
/-- What a walk descends in: the offset in an instruction, and then the rest of the addresses. -/
def walkMeasure (va : VA) : ℕ × ℕ :=
  match fallsTo locations xrefs isNoFall canParse va with
  | none => (0, 0)
  | some _ => (offset locations va + 1, 2 ^ 64 - va.toNat)

include hsorted hdisjoint in
/-- **A turn** goes to a smaller offset, or up to an offset that is no larger. -/
theorem walkMeasure_lt (h : fallsTo locations xrefs isNoFall canParse va = some next) :
    Prod.Lex (· < ·) (· < ·) (walkMeasure locations xrefs isNoFall canParse next)
      (walkMeasure locations xrefs isNoFall canParse va) := by
  obtain ⟨loc, hloc, htype, -, -, -, -, hnext⟩ := fallsTo_eq_some h
  obtain ⟨hmem, -, hle, hlt, hend⟩ := bounds_of_getLocation hloc
  rw [Prod.lex_def]
  simp only [walkMeasure, h]
  cases hfalls : fallsTo locations xrefs isNoFall canParse next with
  | none => exact .inl (Nat.succ_pos _)
  | some after =>
    obtain ⟨loc', hloc', htype', -⟩ := fallsTo_eq_some hfalls
    obtain ⟨hmem', -, hle', hlt', -⟩ := bounds_of_getLocation hloc'
    have hva := va.toNat_lt
    have hsum : next.toNat = (va.toNat + loc.size.toNat) % 2 ^ 64 :=
      (congrArg UInt64.toNat hnext).trans (UInt64.toNat_add _ _)
    simp only [offset, hloc, hloc']
    by_cases hwrap : va.toNat + loc.size.toNat < 2 ^ 64
    · rw [Nat.mod_eq_of_lt hwrap] at hsum
      -- The next instruction starts behind this one.
      have hbehind : loc.va.toNat + loc.size.toNat ≤ loc'.va.toNat := by
        by_cases heq : loc.va = loc'.va
        · rw [hsorted.eq_of_va_eq hmem hmem' heq] at hlt hle hsum ⊢
          omega
        · refine hdisjoint loc hmem loc' hmem' htype htype' (UInt64.lt_of_le_of_ne ?_ heq)
          by_contra hbefore
          have hover := hdisjoint loc' hmem' loc hmem htype' htype (UInt64.not_le.mp hbefore)
          omega
      omega
    · rw [Nat.mod_eq_sub_mod (not_lt.mp hwrap), Nat.mod_eq_of_lt (by omega)] at hsum
      omega

variable (xrefs isNoFall canParse) in
include hsorted hdisjoint in
/-- **Every walk ends.** -/
theorem exists_halt_fallsTo (start : VA) :
    ∃ last, Reaches (fallsTo locations xrefs isNoFall canParse) start last ∧
      fallsTo locations xrefs isNoFall canParse last = none :=
  exists_halt (P := fun _ => True) (Prod.lex Nat.lt_wfRel Nat.lt_wfRel).wf
    (walkMeasure locations xrefs isNoFall canParse)
    (fun _ _ _ hfalls => ⟨trivial, walkMeasure_lt hsorted hdisjoint hfalls⟩) trivial

/-- A walk over 64-bit addresses needs no more turns than there are addresses. -/
theorem loop_fallsTo {fuel : ℕ}
    (hreach : Reaches (fallsTo locations xrefs isNoFall canParse) start last)
    (hhalt : fallsTo locations xrefs isNoFall canParse last = none) (hfuel : 2 ^ 64 ≤ fuel) :
    loop (fallsTo locations xrefs isNoFall canParse) fuel start = some last :=
  loop_of_injective UInt64.toFin (fun _ _ h => UInt64.toFin_inj.mp h) hreach hhalt hfuel

theorem blockAt_eq (hreach : Reaches (fallsTo locations xrefs isNoFall canParse) start last)
    (hhalt : fallsTo locations xrefs isNoFall canParse last = none) :
    blockAt locations xrefs isNoFall canParse start =
      walkBlock locations xrefs isNoFall canParse start 1 last := by
  rw [blockAt, walkBlock_eq, loop_fallsTo hreach hhalt (le_refl _)]
  rfl

theorem walkRun_eq {fuel : ℕ}
    (hreach : Reaches (fallsTo locations xrefs isNoFall canParse) start last)
    (hhalt : fallsTo locations xrefs isNoFall canParse last = none) (hfuel : 2 ^ 64 ≤ fuel) :
    walkRun locations xrefs isNoFall canParse fuel start =
      some (blockAt locations xrefs isNoFall canParse start) := by
  rw [walkRun, loop_fallsTo hreach hhalt hfuel, blockAt_eq hreach hhalt]
  rfl

variable (xrefs isNoFall canParse) in
include hsorted hdisjoint in
/-- **The analysis ends**, from some fuel on, and with what `analyzeFunction` says. -/
theorem exists_analyzeRun (functionVa : VA) (store : CodeBlockStore) : ∃ fuel₀, ∀ fuel ≥ fuel₀,
    analyzeRun locations xrefs isNoFall canParse fuel functionVa store =
      some (analyzeFunction locations xrefs isNoFall canParse functionVa store) := by
  refine ⟨2 ^ 64 + (1 + 2 ^ 64 * (xrefs.length + 1) + 1), fun fuel hfuel => ?_⟩
  have hfuel' : 1 + 2 ^ 64 * (xrefs.length + 1) < fuel :=
    Nat.lt_of_succ_le ((Nat.le_add_left _ _).trans hfuel)
  have hwalk : walkRun locations xrefs isNoFall canParse fuel =
      fun start => some (blockAt locations xrefs isNoFall canParse start) := by
    funext start
    obtain ⟨last, hreach, hhalt⟩ :=
      exists_halt_fallsTo xrefs isNoFall canParse hsorted hdisjoint start
    exact walkRun_eq hreach hhalt ((Nat.le_add_right _ _).trans hfuel)
  have hpotential := potential_blockStarts_le locations xrefs isNoFall canParse functionVa
  have hstarts : Worklist.run
      (fun start => some (blockAt locations xrefs isNoFall canParse start).pushes) fuel
      [functionVa] [] = some (blockStarts locations xrefs isNoFall canParse functionVa) :=
    Worklist.run_eq_some_loop (fun _ _ w _ => mem_addresses w) (fun v _ => mem_addresses v)
      (lt_of_le_of_lt hpotential hfuel') hpotential
  unfold analyzeRun
  rw [hwalk]
  dsimp only [Option.map_some, Option.getD_some]
  rw [hstarts]
  rfl

end Ends

/-! ### The last turn -/

section LastTurn

variable {locations : LocationDb} {xrefs : XrefDb} {isNoFall canParse : VA → Bool}
  {start last stop va : VA}

/-- **The last turn of a walk** meets no instruction, or one that does not parse, or it ends the
block behind an instruction, without going on or with another start there. -/
theorem lastTurn_cases (start : VA)
    (hhalt : fallsTo locations xrefs isNoFall canParse last = none) :
    let w := walkBlock locations xrefs isNoFall canParse start 1 last
    ((∀ loc, locations.getLocation last = some loc → loc.type ≠ .kOp) ∧
      blockEnd locations canParse last = some last ∧ w = { size := last - start, ends := [last] }) ∨
    ((∃ loc, locations.getLocation last = some loc ∧ loc.type = .kOp) ∧ canParse last = false ∧
      blockEnd locations canParse last = none ∧ w = {}) ∨
    ∃ loc, locations.getLocation last = some loc ∧ loc.type = .kOp ∧ canParse last = true ∧
      blockEnd locations canParse last = some (last + loc.size) ∧
      w.size = last + loc.size - start ∧
      (w.ends = [last + loc.size] ∧ w.pushes = xrefs.branchTargets last ∨
        w.pushes = xrefs.branchTargets last ++ [last + loc.size] ∧
          (xrefs.branchTargets last ≠ [] ∨ xrefs.hasCodeXrefTo (last + loc.size) = true)) := by
  unfold fallsTo at hhalt
  unfold blockEnd walkBlock
  cases hloc : locations.getLocation last with
  | none => exact .inl ⟨fun loc hloc => absurd hloc (Option.some_ne_none loc).symm, rfl, rfl⟩
  | some loc =>
    rw [hloc] at hhalt
    dsimp only at hhalt ⊢
    by_cases htype : loc.type ≠ .kOp
    · rw [if_pos htype, if_pos htype]
      exact .inl ⟨fun _ heq => Option.some.inj heq ▸ htype, rfl, rfl⟩
    rw [if_neg htype, if_neg htype]
    cases hparse : canParse last with
    | false => exact .inr (.inl ⟨⟨loc, rfl, not_not.mp htype⟩, rfl, rfl, rfl⟩)
    | true =>
      refine .inr (.inr ⟨loc, rfl, not_not.mp htype, rfl, rfl, ?_⟩)
      simp only [Bool.not_true, Bool.false_eq_true, if_false]
      split_ifs with hnofall htargets hxref
      · exact ⟨rfl, .inl ⟨rfl, rfl⟩⟩
      · exact ⟨rfl, .inr ⟨rfl, .inl htargets⟩⟩
      · rw [not_not.mp htargets]
        exact ⟨rfl, .inr ⟨rfl, .inr hxref⟩⟩
      · exact absurd hhalt (by
          rw [if_pos ⟨not_not.mp htype, hparse, Bool.eq_false_iff.mpr hnofall,
            not_not.mp htargets, Bool.eq_false_iff.mpr hxref⟩]
          exact Option.some_ne_none _)

/-- The size of a block whose walk ends. -/
theorem size_lastTurn (start : VA)
    (hhalt : fallsTo locations xrefs isNoFall canParse last = none) :
    (walkBlock locations xrefs isNoFall canParse start 1 last).size =
      match blockEnd locations canParse last with
      | none => 0
      | some stop => stop - start := by
  obtain ⟨-, hend, hw⟩ | ⟨-, -, hend, hw⟩ | ⟨loc, -, -, -, hend, hw, -⟩ :=
    lastTurn_cases start hhalt
  · rw [hend, hw]
  · rw [hend, hw]
  · rw [hend, hw]

/-- The end of a block is an end or a start. -/
theorem mem_of_blockEnd (start : VA)
    (hhalt : fallsTo locations xrefs isNoFall canParse last = none)
    (hend : blockEnd locations canParse last = some stop) :
    stop ∈ (walkBlock locations xrefs isNoFall canParse start 1 last).ends ∨
      stop ∈ (walkBlock locations xrefs isNoFall canParse start 1 last).pushes := by
  obtain ⟨-, hend', hw⟩ | ⟨-, -, hend', -⟩ | ⟨loc, -, -, -, hend', -, ⟨hw, -⟩ | ⟨hw, -⟩⟩ :=
    lastTurn_cases start hhalt
  · obtain rfl := Option.some.inj (hend'.symm.trans hend)
    exact .inl (hw ▸ List.mem_singleton_self _)
  · exact nomatch hend'.symm.trans hend
  · obtain rfl := Option.some.inj (hend'.symm.trans hend)
    exact .inl (hw ▸ List.mem_singleton_self _)
  · obtain rfl := Option.some.inj (hend'.symm.trans hend)
    exact .inr (hw ▸ List.mem_append_right _ (List.mem_singleton_self _))

/-- A start is the target of a branch, or behind a branch, or an edge leads to it. -/
theorem push_lastTurn (hhalt : fallsTo locations xrefs isNoFall canParse last = none)
    (hpush : va ∈ (walkBlock locations xrefs isNoFall canParse start 1 last).pushes) :
    xrefs.hasCodeXrefTo va = true ∨ ∃ loc, locations.getLocation last = some loc ∧
      loc.type = .kOp ∧ xrefs.branchTargets last ≠ [] ∧ va = last + loc.size := by
  have htarget (h : va ∈ xrefs.branchTargets last) : xrefs.hasCodeXrefTo va = true := by
    obtain ⟨x, hx, -, hto, -⟩ := XrefDb.mem_branchTargets h
    exact List.any_eq_true.mpr ⟨x, hx, decide_eq_true hto⟩
  obtain ⟨-, -, hw⟩ | ⟨-, -, -, hw⟩ | ⟨loc, hloc, htype, -, -, -, ⟨-, hw⟩ | ⟨hw, hwhy⟩⟩ :=
    lastTurn_cases start hhalt
  · exact absurd (hw ▸ hpush) List.not_mem_nil
  · exact absurd (hw ▸ hpush) List.not_mem_nil
  · exact .inl (htarget (hw ▸ hpush))
  · rw [hw] at hpush
    obtain hpush | hpush := List.mem_append.mp hpush
    · exact .inl (htarget hpush)
    · obtain rfl := List.mem_singleton.mp hpush
      exact hwhy.symm.imp_right fun hne => ⟨loc, hloc, htype, hne, rfl⟩

/-- The targets of a branch are starts. -/
theorem branchTargets_subset_pushes (hhalt : fallsTo locations xrefs isNoFall canParse last = none)
    {loc : Location} (hloc : locations.getLocation last = some loc) (htype : loc.type = .kOp)
    (hparse : canParse last = true) : xrefs.branchTargets last ⊆
      (walkBlock locations xrefs isNoFall canParse start 1 last).pushes := by
  obtain ⟨hno, -⟩ | ⟨-, hfails, -⟩ | ⟨loc, -, -, -, -, -, ⟨-, hw⟩ | ⟨hw, -⟩⟩ :=
    lastTurn_cases start hhalt
  · exact absurd htype (hno loc hloc)
  · exact nomatch hfails.symm.trans hparse
  · rw [hw]
    exact List.Subset.refl _
  · rw [hw]
    exact List.subset_append_left _ _

end LastTurn

/-! ### Walks over instructions -/

section Walks

variable {locations : LocationDb} {xrefs : XrefDb} {isNoFall canParse : VA → Bool}
  {start last stop va : VA} {loc loc' : Location} (hsorted : locations.Sorted)
  (hdisjoint : InsnsDisjoint locations)

/-- An instruction at the end of a run makes it longer. -/
theorem InsnRun.concat (h : InsnRun locations start va) (hloc : loc ∈ locations)
    (htype : loc.type = .kOp) (hva : loc.va = va) (hlt : loc.va < loc.va + loc.size) :
    InsnRun locations start (va + loc.size) := by
  induction h with
  | nil va =>
    subst hva
    exact .cons hloc htype hlt (.nil _)
  | cons hfirst hkind hpos _ ih => exact .cons hfirst hkind hpos (ih hva)

include hdisjoint

/-- Instructions that contain one address are the same. -/
theorem eq_of_contains (hsorted : locations.Sorted) (hloc : loc ∈ locations)
    (hloc' : loc' ∈ locations) (htype : loc.type = .kOp) (htype' : loc'.type = .kOp) {v : ℕ}
    (hle : loc.va.toNat ≤ v) (hlt : v < loc.va.toNat + loc.size.toNat)
    (hle' : loc'.va.toNat ≤ v) (hlt' : v < loc'.va.toNat + loc'.size.toNat) : loc = loc' := by
  by_contra hne
  have hva : loc.va ≠ loc'.va := fun heq => hne (hsorted.eq_of_va_eq hloc hloc' heq)
  obtain hbefore | hafter := UInt64.lt_or_lt_of_ne hva
  · have hover := hdisjoint loc hloc loc' hloc' htype htype' hbefore
    omega
  · have hover := hdisjoint loc' hloc' loc hloc htype' htype hafter
    omega

/-- No instruction starts inside another: what holds of the instructions before one, and of this
one, holds of those before its end. -/
theorem forall_before_end {P : VA → Prop} (hloc : loc ∈ locations) (htype : loc.type = .kOp)
    (hpos : loc.va < loc.va + loc.size) (hself : P loc.va)
    (hbefore : ∀ loc' ∈ locations, loc'.type = .kOp → start ≤ loc'.va → loc'.va < loc.va →
      P loc'.va) :
    ∀ loc' ∈ locations, loc'.type = .kOp → start ≤ loc'.va → loc'.va < loc.va + loc.size →
      P loc'.va := by
  intro loc' hloc' htype' hle hlt
  by_cases hlt' : loc'.va < loc.va
  · exact hbefore loc' hloc' htype' hle hlt'
  by_cases heq : loc'.va = loc.va
  · exact heq ▸ hself
  have hover := hdisjoint loc hloc loc' hloc' htype htype'
    (UInt64.lt_of_le_of_ne (UInt64.not_lt.mp hlt') (Ne.symm heq))
  rw [UInt64.lt_iff_toNat_lt, loc.toNat_end hpos] at hlt
  omega

include hsorted

/-- What follows an instruction is aligned. -/
theorem Aligned.next (h : Aligned locations va) (hloc : locations.getLocation va = some loc)
    (htype : loc.type = .kOp) : Aligned locations (va + loc.size) := by
  intro loc' hloc' htype'
  obtain rfl := h loc hloc htype
  obtain ⟨hmem, hend, -, hlt, -⟩ := bounds_of_getLocation hloc
  obtain ⟨hmem', -, hle', hlt', -⟩ := bounds_of_getLocation hloc'
  rw [loc.toNat_end hend] at hle' hlt'
  rw [← UInt64.toNat_inj, loc.toNat_end hend]
  by_contra hne
  -- An instruction that starts before would contain the last byte of this one.
  have heq : loc = loc' := eq_of_contains hdisjoint hsorted hmem hmem' htype htype'
    (v := loc.va.toNat + loc.size.toNat - 1) (by omega) (by omega) (by omega) (by omega)
  rw [← heq] at hlt'
  omega

/-- What a walk from an aligned start has met. -/
structure Walked (locations : LocationDb) (xrefs : XrefDb) (isNoFall canParse : VA → Bool)
    (start va : VA) : Prop where
  aligned : Aligned locations va
  run : InsnRun locations start va
  le : start ≤ va
  visits : ∀ loc ∈ locations, loc.type = .kOp → start ≤ loc.va → loc.va < va →
    Reaches (fallsTo locations xrefs isNoFall canParse) start loc.va

/-- **A walk** meets every instruction on its way. -/
theorem walked (h : Aligned locations start)
    (hreach : Reaches (fallsTo locations xrefs isNoFall canParse) start va) :
    Walked locations xrefs isNoFall canParse start va := by
  induction hreach with
  | refl => exact ⟨h, .nil _, UInt64.le_refl _, fun loc _ _ hle hlt =>
      absurd hlt (UInt64.not_lt.mpr hle)⟩
  | @tail va next hreach hfalls ih =>
    obtain ⟨loc, hloc, htype, -, -, -, -, rfl⟩ := fallsTo_eq_some hfalls
    obtain rfl := ih.aligned loc hloc htype
    obtain ⟨hmem, hend, -, -, -⟩ := bounds_of_getLocation hloc
    exact ⟨ih.aligned.next hsorted hdisjoint hloc htype, ih.run.concat hmem htype rfl hend,
      UInt64.le_trans ih.le (UInt64.le_of_lt hend),
      forall_before_end hdisjoint hmem htype hend hreach ih.visits⟩

/-- The addresses of a block: instructions that follow one another, each of which its walk met. -/
structure Spans (locations : LocationDb) (xrefs : XrefDb) (isNoFall canParse : VA → Bool)
    (start stop : VA) : Prop where
  lt : start < stop
  run : InsnRun locations start stop
  visits : ∀ loc ∈ locations, loc.type = .kOp → start ≤ loc.va → loc.va < stop →
    Reaches (fallsTo locations xrefs isNoFall canParse) start loc.va
  ends : ∃ last, Reaches (fallsTo locations xrefs isNoFall canParse) start last ∧
    fallsTo locations xrefs isNoFall canParse last = none ∧
      blockEnd locations canParse last = some stop

/-- **A block** with a size spans its addresses. -/
theorem spans_of_size_ne_zero (h : Aligned locations start)
    (hsize : (blockAt locations xrefs isNoFall canParse start).size ≠ 0) :
    Spans locations xrefs isNoFall canParse start
      (start + (blockAt locations xrefs isNoFall canParse start).size) := by
  obtain ⟨last, hreach, hhalt⟩ :=
    exists_halt_fallsTo xrefs isNoFall canParse hsorted hdisjoint start
  have hwalked := walked hsorted hdisjoint h hreach
  rw [blockAt_eq hreach hhalt] at hsize ⊢
  have hsizeEq := size_lastTurn start hhalt
  cases hend : blockEnd locations canParse last with
  | none =>
    rw [hend] at hsizeEq
    exact absurd hsizeEq hsize
  | some stop =>
    rw [hend] at hsizeEq
    dsimp only at hsizeEq
    rw [hsizeEq] at hsize ⊢
    have hstop : start + (stop - start) = stop := by grind
    have hne : start ≠ stop := fun heq => hsize (heq ▸ UInt64.sub_self _)
    rw [hstop]
    obtain ⟨-, hend', -⟩ | ⟨-, -, hend', -⟩ | ⟨loc, hloc, htype, -, hend', -, -⟩ :=
      lastTurn_cases start hhalt
    · obtain rfl := Option.some.inj (hend'.symm.trans hend)
      exact ⟨UInt64.lt_of_le_of_ne hwalked.le hne, hwalked.run, hwalked.visits,
        last, hreach, hhalt, hend⟩
    · exact nomatch hend'.symm.trans hend
    · obtain rfl := Option.some.inj (hend'.symm.trans hend)
      obtain rfl := hwalked.aligned loc hloc htype
      obtain ⟨hmem, hpos, -, -, -⟩ := bounds_of_getLocation hloc
      exact ⟨UInt64.lt_of_le_of_lt hwalked.le hpos, hwalked.run.concat hmem htype rfl hpos,
        forall_before_end hdisjoint hmem htype hpos hreach hwalked.visits,
        loc.va, hreach, hhalt, hend⟩

/-! ### Starts inside blocks -/

variable {functionVa : VA}

omit hdisjoint hsorted in
theorem exists_xref_of_hasCodeXrefTo (h : xrefs.hasCodeXrefTo va = true) :
    ∃ x ∈ xrefs, x.toVa = va :=
  (List.any_eq_true.mp h).imp fun _ hx => hx.imp_right of_decide_eq_true

/-- **Why an address is a start**, when the entry and the targets of edges are aligned. -/
theorem start_cases (htargets : ∀ x ∈ xrefs, Aligned locations x.toVa)
    (hentry : Aligned locations functionVa)
    (h : va ∈ blockStarts locations xrefs isNoFall canParse functionVa) : Aligned locations va ∧
      (va = functionVa ∨ xrefs.hasCodeXrefTo va = true ∨
        ∃ loc, locations.getLocation loc.va = some loc ∧ loc.type = .kOp ∧
          xrefs.branchTargets loc.va ≠ [] ∧ va = loc.va + loc.size) := by
  induction mem_blockStarts_iff.mp h with
  | refl => exact ⟨hentry, .inl rfl⟩
  | @tail start va hpath hpush ih =>
    obtain ⟨haligned, -⟩ := ih (mem_blockStarts_iff.mpr hpath)
    obtain ⟨last, hreach, hhalt⟩ :=
      exists_halt_fallsTo xrefs isNoFall canParse hsorted hdisjoint start
    rw [blockAt_eq hreach hhalt] at hpush
    obtain hxref | ⟨loc, hloc, htype, hbranch, rfl⟩ := push_lastTurn hhalt hpush
    · obtain ⟨x, hx, rfl⟩ := exists_xref_of_hasCodeXrefTo hxref
      exact ⟨htargets x hx, .inr (.inl hxref)⟩
    · have hlast := (walked hsorted hdisjoint haligned hreach).aligned
      have hnext := hlast.next hsorted hdisjoint hloc htype
      obtain rfl := hlast loc hloc htype
      exact ⟨hnext, .inr (.inr ⟨loc, hloc, htype, hbranch, rfl⟩)⟩

/-- What a walk falls through to is no target of an edge, and not behind a branch. -/
theorem fallsTo_of_inner (h : Aligned locations start)
    (hspans : Spans locations xrefs isNoFall canParse start stop) (hloc : loc ∈ locations)
    (htype : loc.type = .kOp) (hlt : start < loc.va) (hstop : loc.va < stop) :
    ∃ before, locations.getLocation before.va = some before ∧ before.type = .kOp ∧
      xrefs.branchTargets before.va = [] ∧ xrefs.hasCodeXrefTo loc.va = false ∧
        loc.va = before.va + before.size := by
  have hreach := hspans.visits loc hloc htype (UInt64.le_of_lt hlt) hstop
  obtain heq | ⟨va, hva, hfalls⟩ := Relation.ReflTransGen.cases_tail hreach
  · exact absurd hlt (heq ▸ UInt64.lt_irrefl _)
  · obtain ⟨before, hbefore, hkind, -, -, hbranch, hxref, hnext⟩ := fallsTo_eq_some hfalls
    obtain rfl := (walked hsorted hdisjoint h hva).aligned before hbefore hkind
    exact ⟨before, hbefore, hkind, hbranch, hxref, hnext⟩

/-- **A start inside a block** is the entry, and no edge leads to it. -/
theorem eq_entry_of_inner (htargets : ∀ x ∈ xrefs, Aligned locations x.toVa)
    (hentry : Aligned locations functionVa) (h : Aligned locations start)
    (hspans : Spans locations xrefs isNoFall canParse start stop) (hloc : loc ∈ locations)
    (htype : loc.type = .kOp) (hlt : start < loc.va) (hstop : loc.va < stop)
    (hstart : loc.va ∈ blockStarts locations xrefs isNoFall canParse functionVa) :
    loc.va = functionVa ∧ xrefs.hasCodeXrefTo functionVa = false := by
  obtain ⟨before, hbefore, hkind, hbranch, hxref, hnext⟩ :=
    fallsTo_of_inner hsorted hdisjoint h hspans hloc htype hlt hstop
  obtain ⟨-, heq | hxref' | ⟨before', hbefore', hkind', hbranch', hnext'⟩⟩ :=
    start_cases hsorted hdisjoint htargets hentry hstart
  · exact ⟨heq, heq ▸ hxref⟩
  · exact nomatch hxref.symm.trans hxref'
  · -- Two instructions that end at one address are the same.
    obtain ⟨hmem, hend, -, hlt, -⟩ := bounds_of_getLocation hbefore
    obtain ⟨hmem', hend', -, hlt', -⟩ := bounds_of_getLocation hbefore'
    have hsum := (before.toNat_end hend).symm.trans
      (congrArg UInt64.toNat (hnext.symm.trans hnext'))
    rw [before'.toNat_end hend'] at hsum
    have heq : before = before' := eq_of_contains hdisjoint hsorted hmem hmem' hkind hkind'
      (v := before.va.toNat + before.size.toNat - 1) (by omega) (by omega) (by omega) (by omega)
    exact absurd (heq ▸ hbranch) hbranch'

omit hdisjoint hsorted in
/-- A block that a walk runs into shares its end. -/
theorem Spans.stop_eq (hspans : Spans locations xrefs isNoFall canParse start stop) {stop' : VA}
    (hspans' : Spans locations xrefs isNoFall canParse va stop')
    (hreach : Reaches (fallsTo locations xrefs isNoFall canParse) start va) : stop = stop' := by
  obtain ⟨last, hlast, hhalt, hend⟩ := hspans.ends
  obtain ⟨last', hlast', hhalt', hend'⟩ := hspans'.ends
  obtain rfl := halt_unique hlast hhalt (hreach.trans hlast') hhalt'
  exact Option.some.inj (hend.symm.trans hend')

omit hdisjoint hsorted in
/-- The walk of a block ends at its branch, and the targets are starts. -/
theorem Spans.branchTargets_subset (hspans : Spans locations xrefs isNoFall canParse start stop)
    (hloc : loc ∈ locations) (htype : loc.type = .kOp) (hle : start ≤ loc.va)
    (hstop : loc.va < stop) : xrefs.branchTargets loc.va ⊆
      (blockAt locations xrefs isNoFall canParse start).pushes := by
  intro target htarget
  have hreach := hspans.visits loc hloc htype hle hstop
  have hhalt : fallsTo locations xrefs isNoFall canParse loc.va = none := by
    rw [Option.eq_none_iff_forall_ne_some]
    intro next hfalls
    obtain ⟨-, -, -, -, -, hbranch, -⟩ := fallsTo_eq_some hfalls
    exact absurd (hbranch ▸ htarget) List.not_mem_nil
  obtain ⟨last, hlast, hhalt', hend⟩ := hspans.ends
  obtain rfl := halt_unique hreach hhalt hlast hhalt'
  rw [blockAt_eq hreach hhalt]
  obtain ⟨-, hend', -⟩ | ⟨-, -, hend', -⟩ | ⟨insn, hinsn, hkind, hparse, -⟩ :=
    lastTurn_cases start hhalt
  · obtain rfl := Option.some.inj (hend'.symm.trans hend)
    exact absurd hstop (UInt64.lt_irrefl _)
  · exact nomatch hend'.symm.trans hend
  · exact branchTargets_subset_pushes hhalt hinsn hkind hparse htarget

/-- The walk from an address starts with an instruction, and meets none that does not parse. -/
def Parses (locations : LocationDb) (xrefs : XrefDb) (isNoFall canParse : VA → Bool) (va : VA) :
    Prop :=
  (∃ loc, locations.getLocation va = some loc ∧ loc.type = .kOp) ∧
  ∀ addr, Reaches (fallsTo locations xrefs isNoFall canParse) va addr →
    ∀ loc, locations.getLocation addr = some loc → loc.type = .kOp → canParse addr = true

/-- **A start has a block** if and only if its walk parses. -/
theorem size_ne_zero_iff (h : Aligned locations start) :
    (blockAt locations xrefs isNoFall canParse start).size ≠ 0 ↔
      Parses locations xrefs isNoFall canParse start := by
  constructor
  · intro hsize
    have hspans := spans_of_size_ne_zero hsorted hdisjoint h hsize
    obtain ⟨last, hreach, hhalt, hend⟩ := hspans.ends
    refine ⟨?_, fun addr haddr loc hloc htype => ?_⟩
    · have hlt := hspans.lt
      generalize start + (blockAt locations xrefs isNoFall canParse start).size = stop at hspans hlt
      cases hspans.run with
      | nil => exact absurd hlt (UInt64.lt_irrefl _)
      | cons hloc htype hpos _ => exact ⟨_, LocationDb.getLocation_self hsorted hloc hpos, htype⟩
    · by_contra hfails
      -- The walk would end there, and the block would be dropped.
      have hstuck : fallsTo locations xrefs isNoFall canParse addr = none := by
        unfold fallsTo
        rw [hloc]
        exact if_neg fun hfalls => hfails hfalls.2.1
      obtain rfl := halt_unique hreach hhalt haddr hstuck
      unfold blockEnd at hend
      rw [hloc] at hend
      dsimp only at hend
      rw [if_neg (not_not.mpr htype), if_neg hfails] at hend
      exact nomatch hend
  · rintro ⟨⟨first, hfirst, hkind⟩, hparse⟩
    obtain ⟨last, hreach, hhalt⟩ :=
      exists_halt_fallsTo xrefs isNoFall canParse hsorted hdisjoint start
    have hwalked := walked hsorted hdisjoint h hreach
    rw [blockAt_eq hreach hhalt]
    obtain ⟨hno, -, hw⟩ | ⟨⟨loc, hloc, htype⟩, hfails, -⟩ | ⟨loc, hloc, htype, -, -, hw, -⟩ :=
      lastTurn_cases start hhalt
    · rw [hw]
      refine fun hzero => hno first ?_ hkind
      rwa [eq_of_sub_eq_zero hzero]
    · exact nomatch hfails.symm.trans (hparse last hreach loc hloc htype)
    · rw [hw]
      obtain rfl := hwalked.aligned loc hloc htype
      obtain ⟨-, hpos, -⟩ := bounds_of_getLocation hloc
      have hlt := UInt64.lt_of_le_of_lt hwalked.le hpos
      exact fun hzero => UInt64.ne_of_lt hlt (eq_of_sub_eq_zero hzero).symm

end Walks

/-! ### Registration -/

instance : Std.Total RefLe where
  total a b := by
    unfold RefLe
    cases a.2 <;> cases b.2 <;> grind

instance : IsTrans (VA × Bool) RefLe where
  trans a b c hab hbc := by
    unfold RefLe at *
    grind

section Register

variable {size : VA → UInt64} {functionVa va : VA} {refs : List (VA × Bool)}

/-- Blocks are registered in ascending order. -/
theorem pairwise_registerBlocks (h : refs.Pairwise RefLe) (hnodup : (refs.filter (·.2)).Nodup) :
    (registerBlocks size functionVa refs).Pairwise fun b b' => b.va < b'.va := by
  induction refs with
  | nil => exact .nil
  | cons ref refs ih =>
    obtain ⟨hfirst, hrest⟩ := List.pairwise_cons.mp h
    match ref, refs with
    | (_, false), refs => exact ih hrest hnodup
    | (_, true), [] => exact .nil
    | (va, true), next :: refs =>
      rw [List.filter_cons_of_pos rfl, List.nodup_cons] at hnodup
      rw [registerBlocks.eq_4 _ _ _ _ (List.cons_ne_nil _ _)]
      split_ifs
      · exact ih hrest hnodup.2
      · refine .cons (fun b hb => ?_) (ih hrest hnodup.2)
        obtain ⟨hmem, -⟩ := mem_registerBlocks hb
        obtain hlt | ⟨heq, -⟩ := hfirst _ hmem
        · exact hlt
        · exact absurd (List.mem_filter.mpr ⟨Prod.ext heq rfl ▸ hmem, rfl⟩) hnodup.1

/-- A start with a size and a later marker is registered. -/
theorem mem_registerBlocks_of (h : refs.Pairwise RefLe) (hva : (va, true) ∈ refs)
    (hsize : size va ≠ 0) (hlater : ∃ ref ∈ refs, va < ref.1) :
    ⟨va, size va, functionVa⟩ ∈ registerBlocks size functionVa refs := by
  induction refs with
  | nil => exact absurd hva List.not_mem_nil
  | cons first refs ih =>
    obtain ⟨hfirst, hrest⟩ := List.pairwise_cons.mp h
    obtain ⟨later, hmem, hlt⟩ := hlater
    have hstep (hbehind : (va, true) ∈ refs) :
        ⟨va, size va, functionVa⟩ ∈ registerBlocks size functionVa refs := by
      refine ih hrest hbehind ⟨later, (List.mem_cons.mp hmem).resolve_left ?_, hlt⟩
      rintro rfl
      obtain hlt' | ⟨heq, -⟩ := hfirst _ hbehind
      · exact UInt64.lt_asymm hlt hlt'
      · exact UInt64.lt_irrefl _ (heq ▸ hlt)
    match first, refs with
    | (_, false), refs => exact hstep ((List.mem_cons.mp hva).resolve_left nofun)
    | (_, true), [] =>
      obtain rfl := List.mem_singleton.mp hmem
      obtain heq := List.mem_singleton.mp hva
      exact absurd hlt (heq ▸ UInt64.lt_irrefl _)
    | (start, true), next :: refs =>
      rw [registerBlocks.eq_4 _ _ _ _ (List.cons_ne_nil _ _)]
      obtain heq | hva := List.mem_cons.mp hva
      · obtain rfl := (Prod.mk.inj heq).1
        rw [if_neg hsize]
        exact List.mem_cons_self
      · split_ifs
        · exact hstep hva
        · exact List.mem_cons_of_mem _ (hstep hva)

end Register

/-! ### The blocks of a function -/

section Partition

variable {locations : LocationDb} {xrefs : XrefDb} {isNoFall canParse : VA → Bool} {functionVa : VA}

/-- What holds of the blocks of a function: each is made of whole instructions, two of them are
disjoint unless the later one is that of an entry no edge leads to, and a target of a branch has a
block of its own if and only if its walk parses. -/
structure Partitions (locations : LocationDb) (xrefs : XrefDb) (isNoFall canParse : VA → Bool)
    (functionVa : VA) (blocks : List CodeBlock) : Prop where
  run : ∀ b ∈ blocks, InsnRun locations b.va (b.va + b.size)
  disjoint : blocks.Pairwise fun b b' => b.va.toNat + b.size.toNat ≤ b'.va.toNat ∨
    b'.va = functionVa ∧ xrefs.hasCodeXrefTo functionVa = false ∧ b.va + b.size = b'.va + b'.size
  inner : ∀ b ∈ blocks, ∀ loc ∈ locations, loc.type = .kOp → b.va < loc.va →
    loc.va < b.va + b.size → xrefs.hasCodeXrefTo loc.va = false
  target : ∀ b ∈ blocks, ∀ loc ∈ locations, loc.type = .kOp → b.va ≤ loc.va →
    loc.va < b.va + b.size → ∀ va ∈ xrefs.branchTargets loc.va,
      (∃ b' ∈ blocks, b'.va = va) ↔ Parses locations xrefs isNoFall canParse va

/-- The markers of a function in order. -/
def sortedRefs (locations : LocationDb) (xrefs : XrefDb) (isNoFall canParse : VA → Bool)
    (functionVa : VA) : List (VA × Bool) :=
  let starts := blockStarts locations xrefs isNoFall canParse functionVa
  let block := blockAt locations xrefs isNoFall canParse
  (starts.map (·, true) ++ starts.flatMap fun start =>
    (block start).ends.map (·, false)).insertionSort RefLe

/-- The blocks that the analysis adds. -/
def addedBlocks (locations : LocationDb) (xrefs : XrefDb) (isNoFall canParse : VA → Bool)
    (functionVa : VA) : List CodeBlock :=
  registerBlocks (fun start => (blockAt locations xrefs isNoFall canParse start).size) functionVa
    (sortedRefs locations xrefs isNoFall canParse functionVa)

theorem mem_sortedRefs {va : VA} :
    (va, true) ∈ sortedRefs locations xrefs isNoFall canParse functionVa ↔
      va ∈ blockStarts locations xrefs isNoFall canParse functionVa := by
  unfold sortedRefs
  rw [List.mem_insertionSort, List.mem_append]
  simp

/-- A start has one marker. -/
theorem nodup_sortedRefs :
    ((sortedRefs locations xrefs isNoFall canParse functionVa).filter (·.2)).Nodup := by
  have hends (ends : List (VA × Bool)) (h : ∀ ref ∈ ends, ref.2 = false) :
      ends.filter (·.2) = [] := List.filter_eq_nil_iff.mpr fun ref href => by simp [h ref href]
  have hstarts (starts : List VA) :
      (starts.map (·, true)).filter (·.2) = starts.map (·, true) := by simp
  unfold sortedRefs
  refine ((List.perm_insertionSort RefLe _).filter _).nodup_iff.mpr ?_
  rw [List.filter_append, hstarts, hends _ (by simp), List.append_nil]
  refine List.Nodup.map (fun a b h => (Prod.mk.inj h).1) ?_
  exact Worklist.nodup_loop .nil

theorem pairwise_sortedRefs :
    (sortedRefs locations xrefs isNoFall canParse functionVa).Pairwise RefLe :=
  List.pairwise_insertionSort RefLe _

theorem pairwise_addedBlocks :
    (addedBlocks locations xrefs isNoFall canParse functionVa).Pairwise fun b b' => b.va < b'.va :=
  pairwise_registerBlocks pairwise_sortedRefs nodup_sortedRefs

theorem mem_addedBlocks {b : CodeBlock}
    (hb : b ∈ addedBlocks locations xrefs isNoFall canParse functionVa) :
    b.va ∈ blockStarts locations xrefs isNoFall canParse functionVa ∧
      b.size = (blockAt locations xrefs isNoFall canParse b.va).size ∧ b.size ≠ 0 ∧
      b.functionVa = functionVa := by
  obtain ⟨hmem, hsize, hne, hfunction⟩ := mem_registerBlocks hb
  exact ⟨mem_sortedRefs.mp hmem, hsize, hsize ▸ hne, hfunction⟩

variable (hsorted : locations.Sorted) (hdisjoint : InsnsDisjoint locations)
  (htargets : ∀ x ∈ xrefs, Aligned locations x.toVa) (hentry : Aligned locations functionVa)

include hsorted hdisjoint htargets hentry

/-- The addresses of a block. -/
theorem spans_of_mem {b : CodeBlock}
    (hb : b ∈ addedBlocks locations xrefs isNoFall canParse functionVa) :
    Aligned locations b.va ∧
      Spans locations xrefs isNoFall canParse b.va (b.va + b.size) := by
  obtain ⟨hstart, hsize, hne, -⟩ := mem_addedBlocks hb
  obtain ⟨haligned, -⟩ := start_cases hsorted hdisjoint htargets hentry hstart
  rw [hsize] at hne ⊢
  exact ⟨haligned, spans_of_size_ne_zero hsorted hdisjoint haligned hne⟩

/-- **A start with a size has a block.** -/
theorem exists_block_of_start {va : VA}
    (hstart : va ∈ blockStarts locations xrefs isNoFall canParse functionVa)
    (hsize : (blockAt locations xrefs isNoFall canParse va).size ≠ 0) :
    ∃ b ∈ addedBlocks locations xrefs isNoFall canParse functionVa, b.va = va := by
  obtain ⟨haligned, -⟩ := start_cases hsorted hdisjoint htargets hentry hstart
  have hspans := spans_of_size_ne_zero hsorted hdisjoint haligned hsize
  obtain ⟨last, hreach, hhalt, hend⟩ := hspans.ends
  refine ⟨_, mem_registerBlocks_of pairwise_sortedRefs (mem_sortedRefs.mpr hstart) hsize ?_, rfl⟩
  -- The end of the block has a marker of its own.
  obtain hmem | hmem := mem_of_blockEnd va hhalt hend
  · rw [← blockAt_eq hreach hhalt] at hmem
    refine ⟨(_, false), ?_, hspans.lt⟩
    unfold sortedRefs
    rw [List.mem_insertionSort, List.mem_append]
    exact .inr (List.mem_flatMap.mpr ⟨va, hstart, List.mem_map.mpr ⟨_, hmem, rfl⟩⟩)
  · rw [← blockAt_eq hreach hhalt] at hmem
    refine ⟨(_, true), mem_sortedRefs.mpr ?_, hspans.lt⟩
    exact mem_blockStarts_iff.mpr ((mem_blockStarts_iff.mp hstart).tail hmem)

/-- The first address of a block is an instruction. -/
theorem exists_insn_of_mem {b : CodeBlock}
    (hb : b ∈ addedBlocks locations xrefs isNoFall canParse functionVa) :
    ∃ loc ∈ locations, loc.type = .kOp ∧ loc.va = b.va := by
  obtain ⟨-, hspans⟩ := spans_of_mem hsorted hdisjoint htargets hentry hb
  have hlt := hspans.lt
  generalize b.va + b.size = stop at hspans hlt
  generalize b.va = start at hspans hlt ⊢
  cases hspans.run with
  | nil => exact absurd hlt (UInt64.lt_irrefl _)
  | cons hloc htype _ _ => exact ⟨_, hloc, htype, rfl⟩

/-- **The blocks of a function** whose entry is the start of an instruction or undefined. -/
theorem partitions_addedBlocks : Partitions locations xrefs isNoFall canParse functionVa
    (addedBlocks locations xrefs isNoFall canParse functionVa) where
  run b hb := (spans_of_mem hsorted hdisjoint htargets hentry hb).2.run
  disjoint := by
    refine pairwise_addedBlocks.imp_of_mem fun {b b'} hb hb' hlt => ?_
    obtain ⟨haligned, hspans⟩ := spans_of_mem hsorted hdisjoint htargets hentry hb
    obtain ⟨-, hspans'⟩ := spans_of_mem hsorted hdisjoint htargets hentry hb'
    obtain ⟨loc, hloc, htype, hva⟩ := exists_insn_of_mem hsorted hdisjoint htargets hentry hb'
    have hend := Location.toNat_end ⟨b.va, b.size, .kOp⟩ hspans.lt
    by_cases hstop : b'.va < b.va + b.size
    · obtain ⟨heq, hxref⟩ := eq_entry_of_inner hsorted hdisjoint htargets hentry haligned hspans
        hloc htype (hva ▸ hlt) (hva ▸ hstop) (hva ▸ (mem_addedBlocks hb').1)
      have hreach := hspans.visits loc hloc htype (UInt64.le_of_lt (hva ▸ hlt)) (hva ▸ hstop)
      exact .inr ⟨hva ▸ heq, hxref, hspans.stop_eq hspans' (hva ▸ hreach)⟩
    · rw [UInt64.not_lt, UInt64.le_iff_toNat_le] at hstop
      exact .inl (hend ▸ hstop)
  inner b hb loc hloc htype hlt hstop := by
    obtain ⟨haligned, hspans⟩ := spans_of_mem hsorted hdisjoint htargets hentry hb
    obtain ⟨-, -, -, -, hxref, -⟩ :=
      fallsTo_of_inner hsorted hdisjoint haligned hspans hloc htype hlt hstop
    exact hxref
  target b hb loc hloc htype hle hstop va hva := by
    obtain ⟨haligned, hspans⟩ := spans_of_mem hsorted hdisjoint htargets hentry hb
    obtain ⟨x, hx, -, rfl, -⟩ := XrefDb.mem_branchTargets hva
    rw [← size_ne_zero_iff hsorted hdisjoint (htargets x hx)]
    constructor
    · rintro ⟨b', hb', heq⟩
      obtain ⟨-, hsize, hne, -⟩ := mem_addedBlocks hb'
      exact heq ▸ hsize ▸ hne
    · refine exists_block_of_start hsorted hdisjoint htargets hentry ?_
      obtain ⟨hstart, -⟩ := mem_addedBlocks hb
      exact mem_blockStarts_iff.mpr ((mem_blockStarts_iff.mp hstart).tail
        (hspans.branchTargets_subset hloc htype hle hstop hva))

end Partition

/-- **The blocks of a function.** The analysis ends for every entry, and adds blocks with a size in
ascending order. If the entry, as the targets of edges are, is the start of an instruction or
undefined, the blocks partition the instructions of the function, up to an entry that no edge leads
to and up to the blocks that are dropped because they do not parse. -/
theorem analyzeFunction_partition {locations : LocationDb} (hsorted : locations.Sorted)
    (hdisjoint : InsnsDisjoint locations) {xrefs : XrefDb}
    (htargets : ∀ x ∈ xrefs, Aligned locations x.toVa) (isNoFall canParse : VA → Bool)
    (functionVa : VA) (store : CodeBlockStore) :
    (∃ fuel₀, ∀ fuel ≥ fuel₀, analyzeRun locations xrefs isNoFall canParse fuel functionVa store =
      some (analyzeFunction locations xrefs isNoFall canParse functionVa store)) ∧
    ∃ blocks, analyzeFunction locations xrefs isNoFall canParse functionVa store =
        store ++ blocks ∧
      (blocks.Pairwise fun b b' => b.va < b'.va) ∧
      (∀ b ∈ blocks, b.functionVa = functionVa ∧ b.size ≠ 0) ∧
      (Aligned locations functionVa →
        Partitions locations xrefs isNoFall canParse functionVa blocks) := by
  refine ⟨exists_analyzeRun xrefs isNoFall canParse hsorted hdisjoint functionVa store,
    addedBlocks locations xrefs isNoFall canParse functionVa, rfl, pairwise_addedBlocks,
    fun b hb => ?_, partitions_addedBlocks hsorted hdisjoint htargets⟩
  obtain ⟨-, -, hne, hfunction⟩ := mem_addedBlocks hb
  exact ⟨hfunction, hne⟩

/-! ### A loop before the entry -/

/-- Two instructions of two bytes, and a third one apart. -/
def loopLocations : LocationDb := [⟨0x1000, 2, .kOp⟩, ⟨0x1002, 2, .kOp⟩, ⟨0x1010, 2, .kOp⟩]

/-- The second one branches to the first, or to the third. -/
def loopXrefs (target : VA) : XrefDb := [⟨0x1002, target, kBrCond⟩]

theorem sorted_loopLocations : loopLocations.Sorted := by
  unfold LocationDb.Sorted
  decide

theorem insnsDisjoint_loopLocations : InsnsDisjoint loopLocations := by
  unfold InsnsDisjoint
  decide

theorem aligned_loopXrefs (target : VA) (h : target ∈ loopLocations.map (·.va)) :
    ∀ x ∈ loopXrefs target, Aligned loopLocations x.toVa := by
  intro x hx
  obtain rfl := List.mem_singleton.mp hx
  obtain ⟨loc, hloc, rfl⟩ := List.mem_map.mp h
  exact aligned_of_mem sorted_loopLocations hloc

theorem analyzeFunction_partition_loop :
    ∃ blocks, analyzeFunction loopLocations (loopXrefs 0x1000) (fun _ => false) (fun _ => true)
        0x1000 [] = [] ++ blocks ∧
      (blocks.Pairwise fun b b' => b.va < b'.va) ∧
      (∀ b ∈ blocks, b.functionVa = 0x1000 ∧ b.size ≠ 0) ∧
      Partitions loopLocations (loopXrefs 0x1000) (fun _ => false) (fun _ => true) 0x1000
        blocks := by
  obtain ⟨-, blocks, heq, hpairwise, hblocks, hpartitions⟩ :=
    analyzeFunction_partition sorted_loopLocations insnsDisjoint_loopLocations
      (aligned_loopXrefs 0x1000 (by decide)) (fun _ => false) (fun _ => true) 0x1000 []
  have hfirst : (⟨0x1000, 2, .kOp⟩ : Location) ∈ loopLocations := List.mem_cons_self
  have hentry : Aligned loopLocations 0x1000 := aligned_of_mem sorted_loopLocations hfirst
  exact ⟨blocks, heq, hpairwise, hblocks, hpartitions hentry⟩

/-- The starts and sizes of the blocks of a function. -/
def blockRanges (xrefs : XrefDb) (canParse : VA → Bool) (functionVa : VA) : List (VA × UInt64) :=
  (analyzeFunction loopLocations xrefs (fun _ => false) canParse functionVa []).map fun b =>
    (b.va, b.size)

/-- **Blocks that overlap**: the first instruction falls through into the entry, to which no edge
leads. A block that is no run of instructions: the entry is inside an instruction. A target of a
branch without a block: it does not parse. -/
theorem blockRanges_loop :
    loopLocations.Sorted ∧ InsnsDisjoint loopLocations ∧
    (∀ target ∈ loopLocations.map (·.va), ∀ x ∈ loopXrefs target, Aligned loopLocations x.toVa) ∧
    blockRanges (loopXrefs 0x1000) (fun _ => true) 0x1002 = [(0x1000, 4), (0x1002, 2)] ∧
    blockRanges [] (fun _ => true) 0x1011 = [(0x1011, 2)] ∧
    blockRanges (loopXrefs 0x1010) (fun va => va ≠ 0x1010) 0x1002 = [(0x1002, 2)] :=
  ⟨sorted_loopLocations, insnsDisjoint_loopLocations, aligned_loopXrefs,
    by decide +kernel, by decide +kernel, by decide +kernel⟩

end Papa.Viv
