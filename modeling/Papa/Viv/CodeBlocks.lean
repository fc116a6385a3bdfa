import Mathlib.Algebra.BigOperators.Group.List.Basic
import Mathlib.Data.List.Sort
import Papa.Library.Worklist
import Papa.Viv.CfContext

/-!
# Code blocks

The blocks of a function are rebuilt from three tables: the locations of instructions, the code
cross-references, and the instructions that do not fall through. A block is walked from its start
over one location after the other, until an address without an instruction, an instruction with
branches, one that does not fall through, or one before the target of a cross-reference. The starts
are worked off from a stack, and the blocks are registered in ascending order.

## Main definitions

* `LocationDb`, `XrefDb`, `CodeBlockStore`: the tables.
* `walkBlock`, `blockStarts`, `registerBlocks`, `analyzeFunction`.
* `BlockRun`: the instructions from one address to another.

## Main results

* `mem_blockStarts_iff`: the turns given to the stack are enough.
* `walkBlock_spec`: what a walk finds.
* `analyzeFunction_spec`: what is registered.
-/

namespace Papa.Viv

variable {ι : Type}

/-! ### Locations -/

/-- The kinds of a location. -/
inductive LocType
  | kOp
  | kPointer
  | kString
  | kUnicode
  | kNumber
  | kPad
  | kImport
  deriving DecidableEq

/-- A location over the bytes from `va` on. -/
structure Location where
  va : VA
  size : UInt64
  type : LocType

/-- The locations in ascending order of their starts. -/
abbrev LocationDb := List Location

namespace LocationDb

/-- Define a location, in place of one with the same start. -/
def addLocation (va : VA) (size : UInt64) (type : LocType) : LocationDb → LocationDb
  | [] => [⟨va, size, type⟩]
  | loc :: db =>
    if va < loc.va then ⟨va, size, type⟩ :: loc :: db
    else if loc.va < va then loc :: addLocation va size type db
    else ⟨va, size, type⟩ :: db

/-- The location whose bytes contain an address. -/
def getLocation (db : LocationDb) (va : VA) : Option Location :=
  match (db.takeWhile (·.va ≤ va)).getLast? with
  | none => none
  | some loc => if loc.va ≤ va ∧ va < loc.va + loc.size then some loc else none

variable {db : LocationDb} {va : VA} {loc : Location}

theorem mem_addLocation {size : UInt64} {type : LocType} (h : loc ∈ db.addLocation va size type) :
    loc = ⟨va, size, type⟩ ∨ loc ∈ db := by
  induction db with
  | nil => exact .inl (List.mem_singleton.mp h)
  | cons first db ih =>
    rw [addLocation] at h
    split_ifs at h
    · exact List.mem_cons.mp h
    · rcases List.mem_cons.mp h with rfl | h
      · exact .inr List.mem_cons_self
      · exact (ih h).imp_right (List.mem_cons_of_mem _)
    · exact (List.mem_cons.mp h).imp_right (List.mem_cons_of_mem _)

theorem getLocation_eq_some (h : db.getLocation va = some loc) :
    loc ∈ db ∧ loc.va ≤ va ∧ va < loc.va + loc.size := by
  unfold getLocation at h
  split at h
  · exact nomatch h
  · rename_i last hlast
    split_ifs at h with hin
    obtain rfl := Option.some.inj h
    exact ⟨(List.takeWhile_sublist _).subset (List.mem_of_getLast? hlast), hin⟩

end LocationDb

/-! ### Cross-references -/

/-- A code edge and its flags. -/
structure CodeXref where
  fromVa : VA
  toVa : VA
  branchFlags : UInt16

/-- The edges in the order they were first recorded. -/
abbrev XrefDb := List CodeXref

namespace XrefDb

/-- Record an edge. The flags of a repeated one accumulate. -/
def addCodeXref (fromVa toVa : VA) (branchFlags : UInt16) : XrefDb → XrefDb
  | [] => [⟨fromVa, toVa, branchFlags⟩]
  | x :: db =>
    if x.fromVa = fromVa ∧ x.toVa = toVa then
      { x with branchFlags := x.branchFlags ||| branchFlags } :: db
    else x :: addCodeXref fromVa toVa branchFlags db

/-- The edges out of an instruction. -/
def codeXrefsFrom (db : XrefDb) (va : VA) : List CodeXref := db.filter (·.fromVa = va)

/-- Whether an edge leads to an address. -/
def hasCodeXrefTo (db : XrefDb) (va : VA) : Bool := db.any (·.toVa = va)

/-- The targets of the edges out of an instruction that are neither calls nor dereferenced. -/
def branchTargets (db : XrefDb) (va : VA) : List VA :=
  ((db.codeXrefsFrom va).filter fun x =>
    x.branchFlags &&& kBrProc = 0 && x.branchFlags &&& kBrDeref = 0).map (·.toVa)

variable {db : XrefDb} {va toVa : VA}

theorem mem_branchTargets (h : toVa ∈ db.branchTargets va) :
    ∃ x ∈ db, x.fromVa = va ∧ x.toVa = toVa ∧ x.branchFlags &&& kBrProc = 0 ∧
      x.branchFlags &&& kBrDeref = 0 := by
  obtain ⟨x, hx, rfl⟩ := List.mem_map.mp h
  obtain ⟨hx, hflags⟩ := List.mem_filter.mp hx
  obtain ⟨hx, hfrom⟩ := List.mem_filter.mp hx
  simp only [Bool.and_eq_true, decide_eq_true_eq] at hflags hfrom
  exact ⟨x, hx, hfrom, rfl, hflags⟩

theorem length_branchTargets_le : (db.branchTargets va).length ≤ db.length := by
  rw [branchTargets, List.length_map]
  exact (List.length_filter_le _ _).trans (List.length_filter_le _ _)

/-- A property of edges that flags only weaken. -/
theorem forall_addCodeXref {p : CodeXref → Prop} {fromVa toVa : VA} {flags : UInt16}
    (hnew : p ⟨fromVa, toVa, flags⟩)
    (hmore : ∀ x, p x → p { x with branchFlags := x.branchFlags ||| flags })
    (h : ∀ x ∈ db, p x) : ∀ x ∈ db.addCodeXref fromVa toVa flags, p x := by
  induction db with
  | nil => exact fun x hx => List.mem_singleton.mp hx ▸ hnew
  | cons first db ih =>
    rw [List.forall_mem_cons] at h
    rw [addCodeXref]
    split_ifs
    · exact List.forall_mem_cons.mpr ⟨hmore first h.1, h.2⟩
    · exact List.forall_mem_cons.mpr ⟨h.1, ih h.2⟩

end XrefDb

/-! ### Blocks -/

/-- A block over the bytes from `va` on, of a function. -/
structure CodeBlock where
  va : VA
  size : UInt64
  functionVa : VA

/-- The blocks in the order of their registration. -/
abbrev CodeBlockStore := List CodeBlock

/-- The blocks of a function. -/
def CodeBlockStore.functionBlocks (store : CodeBlockStore) (functionVa : VA) : List CodeBlock :=
  store.filter (·.functionVa = functionVa)

/-- What the walk of a block records: the size, zero if none was, the ends, and the starts of other
blocks. -/
structure BlockWalk where
  size : UInt64 := 0
  ends : List VA := []
  pushes : List VA := []

section Analyze

variable (locations : LocationDb) (xrefs : XrefDb) (isNoFall canParse : VA → Bool)

/-- The walk of a block from `va` on. A walk of more than 2^64 turns meets an address twice and
never ends. -/
def walkBlock (start : VA) : (fuel : ℕ) → VA → BlockWalk
  | 0, _ => {}
  | fuel + 1, va =>
    match locations.getLocation va with
    | none => { size := va - start, ends := [va] }
    | some loc =>
      if loc.type ≠ .kOp then { size := va - start, ends := [va] }
      else if !canParse va then {}
      else
        let nextVa := va + loc.size
        let targets := xrefs.branchTargets va
        if isNoFall loc.va then { size := nextVa - start, ends := [nextVa], pushes := targets }
        else if targets ≠ [] then { size := nextVa - start, pushes := targets ++ [nextVa] }
        else if xrefs.hasCodeXrefTo nextVa then { size := nextVa - start, pushes := [nextVa] }
        else walkBlock start fuel nextVa

/-- The walk of the block at `start`. -/
def blockAt (start : VA) : BlockWalk :=
  walkBlock locations xrefs isNoFall canParse start (2 ^ 64) start

/-- The starts of the blocks of a function. -/
def blockStarts (functionVa : VA) : List VA :=
  Worklist.loop (fun start => (blockAt locations xrefs isNoFall canParse start).pushes)
    (1 + 2 ^ 64 * (xrefs.length + 1)) [functionVa] []

end Analyze

/-- The order of the markers of starts and ends. -/
def RefLe (a b : VA × Bool) : Prop := a.1 < b.1 ∨ (a.1 = b.1 ∧ (a.2 = false ∨ b.2 = true))

instance : DecidableRel RefLe := fun a b =>
  inferInstanceAs (Decidable (a.1 < b.1 ∨ (a.1 = b.1 ∧ (a.2 = false ∨ b.2 = true))))

/-- The blocks of the markers in ascending order. A start that is the last marker makes none, nor
does one without a size. -/
def registerBlocks (size : VA → UInt64) (functionVa : VA) : List (VA × Bool) → List CodeBlock
  | [] => []
  | (_, false) :: refs => registerBlocks size functionVa refs
  | (_, true) :: [] => []
  | (va, true) :: refs =>
    if size va = 0 then registerBlocks size functionVa refs
    else ⟨va, size va, functionVa⟩ :: registerBlocks size functionVa refs

/-- Build the blocks of a function. -/
def analyzeFunction (locations : LocationDb) (xrefs : XrefDb) (isNoFall canParse : VA → Bool)
    (functionVa : VA) (store : CodeBlockStore) : CodeBlockStore :=
  let starts := blockStarts locations xrefs isNoFall canParse functionVa
  let block := blockAt locations xrefs isNoFall canParse
  let refs := starts.map (·, true) ++ starts.flatMap fun start => (block start).ends.map (·, false)
  store ++ registerBlocks (fun start => (block start).size) functionVa (refs.insertionSort RefLe)

/-! ### The starts -/

section Starts

variable {locations : LocationDb} {xrefs : XrefDb} {isNoFall canParse : VA → Bool}

theorem length_pushes_walkBlock_le (start : VA) (fuel : ℕ) (va : VA) :
    (walkBlock locations xrefs isNoFall canParse start fuel va).pushes.length ≤
      xrefs.length + 1 := by
  induction fuel generalizing va with
  | zero => exact Nat.zero_le _
  | succ fuel ih =>
    have htargets : (xrefs.branchTargets va).length ≤ xrefs.length :=
      XrefDb.length_branchTargets_le
    unfold walkBlock
    split
    · exact Nat.zero_le _
    · dsimp only
      split_ifs
      · exact Nat.zero_le _
      · exact Nat.zero_le _
      · exact htargets.trans (Nat.le_succ _)
      · rw [List.length_append]
        exact Nat.succ_le_succ htargets
      · exact Nat.succ_le_succ (Nat.zero_le _)
      · exact ih _

/-- Every address. -/
def addresses : List VA := (List.finRange (2 ^ 64)).map UInt64.ofFin

theorem mem_addresses (va : VA) : va ∈ addresses :=
  List.mem_map.mpr ⟨va.toFin, List.mem_finRange _, rfl⟩

variable (locations xrefs isNoFall canParse) in
/-- The turns given to the stack are enough. -/
theorem potential_blockStarts_le (functionVa : VA) : Worklist.potential
    (fun start => (blockAt locations xrefs isNoFall canParse start).pushes) addresses
    [functionVa] [] ≤ 1 + 2 ^ 64 * (xrefs.length + 1) := by
  refine Nat.add_le_add_left ((List.sum_le_card_nsmul _ (xrefs.length + 1) fun n hn => ?_).trans
    (Nat.mul_le_mul_right _ ?_)) 1
  · obtain ⟨start, -, rfl⟩ := List.mem_map.mp hn
    exact length_pushes_walkBlock_le start _ start
  · rw [List.length_map]
    exact (List.length_filter_le _ _).trans (by simp [addresses])

/-- **The stack is worked off**: the starts are those that pushes lead to. -/
theorem mem_blockStarts_iff {functionVa va : VA} :
    va ∈ blockStarts locations xrefs isNoFall canParse functionVa ↔
      Relation.ReflTransGen
        (fun a b => b ∈ (blockAt locations xrefs isNoFall canParse a).pushes) functionVa va := by
  refine (Worklist.mem_loop_iff (fun v _ w _ => mem_addresses w) (fun v _ => mem_addresses v)
    (potential_blockStarts_le locations xrefs isNoFall canParse functionVa)).trans ?_
  simp

end Starts

/-! ### What is registered -/

/-- A reader of instructions as a decoder makes them, no two of which overlap. -/
structure WellFormed (reader : VA → Option (DecodedInsn ι)) : Prop where
  va_eq : ∀ {va op}, reader va = some op → op.va = va
  isFallthrough_eq_false : ∀ {va op}, reader va = some op → op.isReturn = true →
    op.isFallthrough = false
  disjoint : ∀ {va op b}, reader va = some op → va < b → b < va + op.length → reader b = none

/-- The instructions from one address to another: each was decoded, and falls through to the
next. -/
inductive BlockRun (reader : VA → Option (DecodedInsn ι)) (decoded : VA → Prop) :
    VA → List (DecodedInsn ι) → VA → Prop
  | nil (va : VA) : BlockRun reader decoded va [] va
  | cons {va e : VA} {op : DecodedInsn ι} {insns : List (DecodedInsn ι)}
      (hread : reader va = some op) (hdecoded : decoded va) (hlt : va < va + op.length)
      (hfall : insns ≠ [] → op.isFallthrough = true)
      (hrest : BlockRun reader decoded (va + op.length) insns e) :
      BlockRun reader decoded va (op :: insns) e

/-- An address was reached from another over edges to decoded instructions. -/
def ReachedIn (decoded : VA → Prop) (edge : VA → VA → Prop) : VA → VA → Prop :=
  Relation.ReflTransGen fun a b => edge a b ∧ decoded b

/-- What the tables say of the instructions that were decoded and of their edges. -/
structure Recorded (reader : VA → Option (DecodedInsn ι)) (decoded : VA → Prop)
    (edge : VA → VA → Prop) (locations : LocationDb) (xrefs : XrefDb) (isNoFall : VA → Bool) :
    Prop where
  location : ∀ loc ∈ locations, loc.type = .kOp →
    ∃ op, reader loc.va = some op ∧ loc.size = op.length ∧ decoded loc.va
  xref : ∀ x ∈ xrefs, x.branchFlags &&& kBrProc = 0 → x.branchFlags &&& kBrDeref = 0 →
    edge x.fromVa x.toVa
  fall : ∀ va op, decoded va → reader va = some op → isNoFall va = false →
    op.isFallthrough = true ∧ edge va (va + op.length)

section Registered

variable {reader : VA → Option (DecodedInsn ι)} {decoded : VA → Prop} {edge : VA → VA → Prop}
  {locations : LocationDb} {xrefs : XrefDb} {isNoFall : VA → Bool} {functionVa : VA}
  (hreader : WellFormed reader) (h : Recorded reader decoded edge locations xrefs isNoFall)

include hreader h

/-- The location of an address that can be parsed starts there. -/
theorem Recorded.getLocation {va : VA} {loc : Location} (hloc : locations.getLocation va = some loc)
    (htype : loc.type = .kOp) (hparse : (reader va).isSome = true) :
    loc.va = va ∧ ∃ op, reader va = some op ∧ loc.size = op.length ∧ decoded va ∧
      va < va + op.length := by
  obtain ⟨hmem, hle, hlt⟩ := LocationDb.getLocation_eq_some hloc
  obtain ⟨op, hop, hsize, hdecoded⟩ := h.location loc hmem htype
  have hva : loc.va = va := by
    by_contra hne
    have hinside : loc.va < va := UInt64.lt_of_le_of_ne hle hne
    rw [hreader.disjoint hop hinside (hsize ▸ hlt)] at hparse
    exact nomatch hparse
  subst hva
  exact ⟨rfl, op, hop, hsize, hdecoded, hsize ▸ hlt⟩

/-- **What a walk finds**: instructions that follow one another, all reached, and starts that were
reached if they were decoded. -/
theorem walkBlock_spec (start : VA) (fuel : ℕ) (va : VA)
    (hva : decoded va → ReachedIn decoded edge functionVa va) :
    let w := walkBlock locations xrefs isNoFall (fun addr => (reader addr).isSome) start fuel va
    (w.size ≠ 0 → ∃ insns e, BlockRun reader decoded va insns e ∧ w.size = e - start ∧
      ∀ op ∈ insns, ReachedIn decoded edge functionVa op.va) ∧
    ∀ push ∈ w.pushes, decoded push → ReachedIn decoded edge functionVa push := by
  induction fuel generalizing va with
  | zero => exact ⟨fun hne => absurd rfl hne, fun _ hpush => absurd hpush List.not_mem_nil⟩
  | succ fuel ih =>
    unfold walkBlock
    split
    · exact ⟨fun _ => ⟨[], va, .nil va, rfl, fun _ hop => absurd hop List.not_mem_nil⟩,
        fun _ hpush => absurd hpush List.not_mem_nil⟩
    rename_i loc hloc
    by_cases htype : loc.type ≠ .kOp
    · rw [if_pos htype]
      exact ⟨fun _ => ⟨[], va, .nil va, rfl, fun _ hop => absurd hop List.not_mem_nil⟩,
        fun _ hpush => absurd hpush List.not_mem_nil⟩
    by_cases hparse : (!(reader va).isSome) = true
    · rw [if_neg htype, if_pos hparse]
      exact ⟨fun hne => absurd rfl hne, fun _ hpush => absurd hpush List.not_mem_nil⟩
    rw [if_neg htype, if_neg hparse]
    obtain ⟨hstart, op, hop, hsize, hdecoded, hlt⟩ :=
      h.getLocation hreader hloc (not_not.mp htype) (by
        rwa [Bool.not_eq_true', Bool.not_eq_false] at hparse)
    have hreached := hva hdecoded
    have hedge {next : VA} (hedge : edge va next) (hnext : decoded next) :
        ReachedIn decoded edge functionVa next := hreached.tail ⟨hedge, hnext⟩
    have htargets : ∀ push ∈ xrefs.branchTargets va, decoded push →
        ReachedIn decoded edge functionVa push := by
      intro push hpush
      obtain ⟨x, hx, hfrom, hto, hproc, hderef⟩ := XrefDb.mem_branchTargets hpush
      exact hedge (hfrom ▸ hto ▸ h.xref x hx hproc hderef)
    have hone : ∃ insns e, BlockRun reader decoded va insns e ∧ va + op.length - start = e - start ∧
        ∀ op ∈ insns, ReachedIn decoded edge functionVa op.va := by
      refine ⟨[op], va + op.length, .cons hop hdecoded hlt (fun hne => absurd rfl hne) (.nil _),
        rfl, fun op' hop' => ?_⟩
      rw [List.mem_singleton.mp hop', hreader.va_eq hop]
      exact hreached
    dsimp only
    rw [hstart, hsize]
    by_cases hnofall : isNoFall va = true
    · rw [if_pos hnofall]
      exact ⟨fun _ => hone, htargets⟩
    rw [if_neg hnofall]
    obtain ⟨hthrough, hfall⟩ := h.fall va op hdecoded hop (Bool.eq_false_iff.mpr hnofall)
    split_ifs
    · refine ⟨fun _ => hone, fun push hpush => ?_⟩
      rcases List.mem_append.mp hpush with hpush | hpush
      · exact htargets push hpush
      · exact List.mem_singleton.mp hpush ▸ hedge hfall
    · refine ⟨fun _ => hone, fun push hpush => ?_⟩
      exact List.mem_singleton.mp hpush ▸ hedge hfall
    · obtain ⟨hwalk, hpushes⟩ := ih (va + op.length) (hedge hfall)
      refine ⟨fun hne => ?_, hpushes⟩
      obtain ⟨insns, e, hrun, hsize, hinsns⟩ := hwalk hne
      refine ⟨op :: insns, e, .cons hop hdecoded hlt (fun _ => hthrough) hrun, hsize,
        List.forall_mem_cons.mpr ⟨?_, hinsns⟩⟩
      rw [hreader.va_eq hop]
      exact hreached

omit hreader h in
theorem mem_registerBlocks {size : VA → UInt64} {refs : List (VA × Bool)} {b : CodeBlock}
    (hb : b ∈ registerBlocks size functionVa refs) :
    (b.va, true) ∈ refs ∧ b.size = size b.va ∧ size b.va ≠ 0 ∧ b.functionVa = functionVa := by
  induction refs with
  | nil => exact absurd hb List.not_mem_nil
  | cons ref refs ih =>
    match ref, refs with
    | (_, false), refs =>
      obtain ⟨hmem, hrest⟩ := ih hb
      exact ⟨List.mem_cons_of_mem _ hmem, hrest⟩
    | (_, true), [] => exact absurd hb List.not_mem_nil
    | (va, true), next :: refs =>
      rw [registerBlocks.eq_4 _ _ _ _ (List.cons_ne_nil _ _)] at hb
      split_ifs at hb with hzero
      · obtain ⟨hmem, hrest⟩ := ih hb
        exact ⟨List.mem_cons_of_mem _ hmem, hrest⟩
      · rcases List.mem_cons.mp hb with rfl | hb
        · exact ⟨List.mem_cons_self, rfl, hzero, rfl⟩
        · obtain ⟨hmem, hrest⟩ := ih hb
          exact ⟨List.mem_cons_of_mem _ hmem, hrest⟩

/-- **What is registered**: runs of instructions that were reached from the function. -/
theorem analyzeFunction_spec {store : CodeBlockStore} {b : CodeBlock}
    (hb : b ∈ analyzeFunction locations xrefs isNoFall (fun va => (reader va).isSome) functionVa
      store) :
    b ∈ store ∨ (b.functionVa = functionVa ∧ ∃ insns ≠ [],
      BlockRun reader decoded b.va insns (b.va + b.size) ∧
        ∀ op ∈ insns, ReachedIn decoded edge functionVa op.va) := by
  refine (List.mem_append.mp hb).imp_right fun hb => ?_
  obtain ⟨href, hsize, hne, hfunction⟩ := mem_registerBlocks hb
  rw [List.mem_insertionSort, List.mem_append] at href
  have hstart : b.va ∈ blockStarts locations xrefs isNoFall (fun va => (reader va).isSome)
      functionVa := by
    rcases href with href | href
    · obtain ⟨start, hstart, heq⟩ := List.mem_map.mp href
      exact (Prod.mk.inj heq).1 ▸ hstart
    · obtain ⟨start, -, hend⟩ := List.mem_flatMap.mp href
      obtain ⟨_, -, heq⟩ := List.mem_map.mp hend
      exact nomatch (Prod.mk.inj heq).2
  -- Starts were reached if they were decoded, from one push to the next.
  have hreached (start : VA) (hpath : Relation.ReflTransGen (fun a b => b ∈ (blockAt locations xrefs
      isNoFall (fun va => (reader va).isSome) a).pushes) functionVa start) :
      decoded start → ReachedIn decoded edge functionVa start := by
    induction hpath with
    | refl => exact fun _ => .refl
    | tail _ hpush ih => exact (walkBlock_spec hreader h _ _ _ ih).2 _ hpush
  obtain ⟨insns, e, hrun, he, hinsns⟩ := (walkBlock_spec hreader h b.va (2 ^ 64) b.va
    (hreached b.va (mem_blockStarts_iff.mp hstart))).1 hne
  have hend : b.va + b.size = e := by
    rw [hsize]
    exact (congrArg (b.va + ·) he).trans (by grind)
  refine ⟨hfunction, insns, ?_, hend.symm ▸ hrun, hinsns⟩
  rintro rfl
  cases hrun
  exact hne (he.trans (UInt64.sub_self _))

end Registered

end Papa.Viv
