import Papa.Extractors.Function
import Papa.Library.BreadthFirst
import Papa.Viv.JumpTables

/-!
# Calls through a register

What a call through a register calls is what the register was set to. The definition is looked for
from the call backwards: in the block of the call first, then in the blocks before it, level by
level over the predecessors, each block once, until some number of blocks has been examined. An
instruction defines the register if it overwrites all of it.

What the decoder library tells of registers is a parameter.

## Main definitions

* `RegisterTable`, `classifyDefinition`, `findDefinition`: the search.
* `Cfg`: a function as it is recovered.
* `Cfg.Reaches`: the definitions that reach the call along a path.
* `Cfg.Right`: what the search should answer.
* `Cfg.HoldsWhen`: when it does.

## Main results

* `Cfg.defineAtEntry_eq`: the search over the predecessors is a breadth-first search.
* `Cfg.reaches_of_firstMet`: the definition that is met first reaches the call.
* `Cfg.right_iff`: when the search answers what it should.
-/

namespace Papa.Extractors

open Emu BreadthFirst

/-! ### The search -/

/-- What the decoder library tells of the registers of a machine. -/
structure RegisterTable where
  largestEnclosing : (is64bit : Bool) → ZydisRegister → ZydisRegister
  width : (is64bit : Bool) → ZydisRegister → ℕ

/-- A definition: where it is, and the constant it sets if it is known. -/
structure Definition where
  siteVa : UInt64
  value : Option UInt64
  deriving DecidableEq

/-- The most blocks examined. -/
def kMaxBlocks : ℕ := 64

section Search

variable (regs : RegisterTable) (target : ZydisRegister) (is64bit : Bool)

/-- `is_full_write_to_register`. -/
def isFullWriteToRegister (written : ZydisRegister) : Bool :=
  if written = .none ∨ target = .none then false
  else if regs.largestEnclosing is64bit written ≠ regs.largestEnclosing is64bit target then false
  else decide (regs.width is64bit target ≤ regs.width is64bit written)

/-- The constant of the second operand, if it has one. -/
def sourceValue (ins : DecodedInsn) : Option UInt64 :=
  if 2 ≤ ins.operands.length then
    let src := ins.operand 1
    match src.kind with
    | .imm => some src.imm
    | .immMem => some (asU64 src.disp)
    | .ripRel => some (ins.va + ins.length + asU64 src.disp)
    | _ => none
  else none

/-- `classify_definition`. -/
def classifyDefinition (ins : DecodedInsn) : Option Definition :=
  if ins.operands = [] then none
  else
    let dst := ins.operand 0
    if dst.kind ≠ .reg then none
    else if ¬isFullWriteToRegister regs target is64bit dst.baseReg then none
    else if ins.mnem ∉ [.mov, .lea, .pop, .xor] then none
    else some ⟨ins.va, sourceValue ins⟩

/-- Whether an instruction defines the register. -/
def isDefinition (ins : DecodedInsn) : Bool := (classifyDefinition regs target is64bit ins).isSome

/-- `scan_block_backward`. -/
def scanBlockBackward (bb : BasicBlock) (upto : ℕ) : Option Definition :=
  (Search.lastBefore bb.instructions (isDefinition regs target is64bit) upto).bind fun (_, ins) =>
    classifyDefinition regs target is64bit ins

/-- `block_at`: the first block that does not begin before an address, if it begins there. -/
def Function.blockAt (fn : Function) (va : UInt64) : Option BasicBlock :=
  (fn.basicBlocks.find? fun bb => !decide (bb.va < va)).filter (·.va == va)

/-- What is kept about a level: the addresses visited, the number of blocks examined, and the next
level. -/
structure Walk where
  visited : List UInt64
  examined : ℕ
  next : List BasicBlock

variable (fn : Function)

/-- Examine the predecessors of a block. A definition ends the search. -/
def examinePreds : List UInt64 → Walk → Except Definition Walk
  | [], w => .ok w
  | predVa :: rest, w =>
    if predVa ∈ w.visited then examinePreds rest w
    else
      match fn.blockAt predVa with
      | none => examinePreds rest { w with visited := w.visited ++ [predVa] }
      | some pred =>
        match scanBlockBackward regs target is64bit pred pred.instructions.length with
        | some d => .error d
        | none => examinePreds rest
            ⟨w.visited ++ [predVa], w.examined + 1, w.next ++ [pred]⟩

/-- The loop over the levels. It has no result after too many turns. -/
def defineLoop : (turns : ℕ) → (frontier : List BasicBlock) → (visited : List UInt64) →
    (examined : ℕ) → Option (Option Definition)
  | 0, _, _, _ => none
  | turns + 1, frontier, visited, examined =>
    if frontier = [] ∨ ¬examined < kMaxBlocks then some none
    else
      match frontier.foldlM
          (fun w bb => examinePreds regs target is64bit fn bb.predecessors w)
          ⟨visited, examined, []⟩ with
      | .error d => some (some d)
      | .ok w => defineLoop turns w.next w.visited w.examined

/-- `define_at_entry`. -/
def defineAtEntry (start : BasicBlock) : Option (Option Definition) :=
  defineLoop regs target is64bit fn (kMaxBlocks + 1) [start] [start.va] 0

/-- The block of the call, and the place of the call in it. -/
def Function.findHost (callVa : UInt64) : Option (BasicBlock × ℕ) :=
  fn.basicBlocks.findSome? fun bb =>
    (bb.instructions.findIdx? (·.va == callVa)).map fun i => (bb, i)

/-- `find_definition`. -/
def findDefinition (callVa : UInt64) : Option (Option Definition) :=
  if target = .none then some none
  else if fn.basicBlocks = [] then some none
  else
    match fn.findHost callVa with
    | none => some none
    | some (host, callIndex) =>
      match scanBlockBackward regs target is64bit host callIndex with
      | some d => some (some d)
      | none => defineAtEntry regs target is64bit fn host

end Search

/-! ### Definitions that reach the call -/

/-- A function as it is recovered: its blocks ascend, the predecessors of a block are those of which
it is a successor, and one instruction is decoded at an address. -/
structure Cfg extends Function where
  ascending : basicBlocks.Pairwise (·.va < ·.va)
  mem_predecessors_iff : ∀ c ∈ basicBlocks, ∀ p, p ∈ c.predecessors ↔
    ∃ b ∈ basicBlocks, b.va = p ∧ c.va ∈ b.successors
  coherent : ∀ b ∈ basicBlocks, ∀ c ∈ basicBlocks, ∀ i ∈ b.instructions, ∀ j ∈ c.instructions,
    i.va = j.va → i = j

namespace Cfg

variable (regs : RegisterTable) (target : ZydisRegister) (is64bit : Bool) (fn : Cfg)

/-- An edge of the graph. -/
def Edge (b c : BasicBlock) : Prop :=
  b ∈ fn.basicBlocks ∧ c ∈ fn.basicBlocks ∧ c.va ∈ b.successors

/-- No instruction of a block before a place defines the register. -/
def NoWrite (bb : BasicBlock) (upto : ℕ) : Prop :=
  ∀ i ins, i < upto → bb.instructions[i]? = some ins → ¬isDefinition regs target is64bit ins

/-- An instruction is the last one before a place that defines the register. -/
def LastWrite (bb : BasicBlock) (upto : ℕ) (ins : DecodedInsn) : Prop :=
  ∃ i < upto, bb.instructions[i]? = some ins ∧ isDefinition regs target is64bit ins ∧
    ∀ j other, i < j → j < upto → bb.instructions[j]? = some other →
      ¬isDefinition regs target is64bit other

/-- A path of so many blocks leads from the entry of a block to that of another one, and none of its
blocks defines the register. -/
inductive ClearTo (host : BasicBlock) : ℕ → BasicBlock → Prop
  | host : ClearTo host 0 host
  | step {n : ℕ} {b c : BasicBlock} (h : ClearTo host n c) (hbc : fn.Edge b c)
      (hb : NoWrite regs target is64bit b b.instructions.length) : ClearTo host (n + 1) b

/-- A definition reaches the call along a path of so many blocks that is entered at the block of the
call: there is none after it on the path. The path may go around a loop and end in a definition
behind the call. -/
inductive ReachesFrom (host : BasicBlock) (callIndex : ℕ) : ℕ → DecodedInsn → Prop
  | before {ins : DecodedInsn} (h : LastWrite regs target is64bit host callIndex ins) :
      ReachesFrom host callIndex 0 ins
  | along {n : ℕ} {b c : BasicBlock} {ins : DecodedInsn}
      (hcall : NoWrite regs target is64bit host callIndex)
      (hclear : ClearTo regs target is64bit fn host n c) (hbc : fn.Edge b c)
      (h : LastWrite regs target is64bit b b.instructions.length ins) :
      ReachesFrom host callIndex (n + 1) ins

/-- A definition reaches the call along a path of so many blocks. -/
def Reaches (callVa : UInt64) (n : ℕ) (ins : DecodedInsn) : Prop :=
  ∃ host callIndex, fn.findHost callVa = some (host, callIndex) ∧
    ReachesFrom regs target is64bit fn host callIndex n ins

/-- **The answer is right**: a definition that is found reaches the call, and its constant is that
of a `mov`; and if a definition reaches the call along a path of at most 64 blocks, one is found. -/
def Right (callVa : UInt64) : Prop :=
  ∃ result, findDefinition regs target is64bit fn.toFunction callVa = some result ∧
    (∀ d, result = some d → ∃ n ins, Reaches regs target is64bit fn callVa n ins ∧
      d.siteVa = ins.va ∧ (d.value.isSome → ins.mnem = .mov)) ∧
    ((∃ n ≤ kMaxBlocks, ∃ ins, Reaches regs target is64bit fn callVa n ins) → result.isSome)

/-! ### When the answer is right -/

/-- The blocks before a block. -/
def preds (c : BasicBlock) : List BasicBlock := c.predecessors.filterMap fn.blockAt

/-- The blocks in the order of the search. It depends on the graph alone. -/
def searchOrder (host : BasicBlock) : List BasicBlock :=
  order fn.preds kMaxBlocks kMaxBlocks [host] [host] 0

/-- A definition is the first one that is met: in the block of the call, or, when there is none, in
the first block with one in the order of the search. -/
def FirstMet (callVa : UInt64) (ins : DecodedInsn) : Prop :=
  ∃ host callIndex, fn.findHost callVa = some (host, callIndex) ∧
    (LastWrite regs target is64bit host callIndex ins ∨
      NoWrite regs target is64bit host callIndex ∧ ∃ front b back,
        fn.searchOrder host = front ++ b :: back ∧
        (∀ c ∈ front, NoWrite regs target is64bit c c.instructions.length) ∧
        LastWrite regs target is64bit b b.instructions.length ins)

/-- There is a definition before the call in its block, or in another block that fewer than 64
blocks are nearer to the block of the call than. -/
def Near (callVa : UInt64) : Prop :=
  ∃ host callIndex, fn.findHost callVa = some (host, callIndex) ∧
    (¬NoWrite regs target is64bit host callIndex ∨ ∃ i, ∃ b ∈ sphere fn.preds host (i + 1),
      (ball fn.preds host i).ncard ≤ kMaxBlocks ∧
      ¬NoWrite regs target is64bit b b.instructions.length)

/-- The definition that is met first is a `mov` or has no constant operand, and some definition is
near if one reaches the call along a path of at most 64 blocks. -/
structure HoldsWhen (callVa : UInt64) : Prop where
  mov : ∀ ins, FirstMet regs target is64bit fn callVa ins →
    ins.mnem = .mov ∨ sourceValue ins = none
  near : (∃ n ≤ kMaxBlocks, ∃ ins, Reaches regs target is64bit fn callVa n ins) →
    Near regs target is64bit fn callVa

end Cfg

/-! ### One block -/

section Block

variable {regs : RegisterTable} {target : ZydisRegister} {is64bit : Bool}

/-- What a definition sets. -/
theorem eq_of_classifyDefinition {ins : DecodedInsn} {d : Definition}
    (h : classifyDefinition regs target is64bit ins = some d) : d = ⟨ins.va, sourceValue ins⟩ := by
  unfold classifyDefinition at h
  dsimp only at h
  split_ifs at h
  exact (Option.some.inj h).symm

/-- A definition has a value exactly when the second operand is constant. -/
theorem classifyDefinition_eq {ins : DecodedInsn} (h : isDefinition regs target is64bit ins) :
    classifyDefinition regs target is64bit ins = some ⟨ins.va, sourceValue ins⟩ := by
  obtain ⟨d, hd⟩ := Option.isSome_iff_exists.mp h
  rw [hd, eq_of_classifyDefinition hd]

theorem isDefinition_none (ins : DecodedInsn) : ¬isDefinition regs .none is64bit ins := by
  unfold isDefinition classifyDefinition isFullWriteToRegister
  simp

theorem scanBlockBackward_eq_none_iff {bb : BasicBlock} {upto : ℕ} :
    scanBlockBackward regs target is64bit bb upto = none ↔
      Cfg.NoWrite regs target is64bit bb upto := by
  rw [scanBlockBackward, Cfg.NoWrite, ← Search.lastBefore_eq_none_iff]
  cases hlast : Search.lastBefore bb.instructions (isDefinition regs target is64bit) upto with
  | none => exact iff_of_true rfl rfl
  | some found =>
    obtain ⟨i, ins⟩ := found
    obtain ⟨-, -, hdef, -⟩ := Search.lastBefore_eq_some_iff.mp hlast
    refine iff_of_false (fun hnone => ?_) nofun
    have hnone : classifyDefinition regs target is64bit ins = none := hnone
    rw [classifyDefinition_eq hdef] at hnone
    exact absurd hnone nofun

/-- **A block is searched** for its last definition before a place. -/
theorem scanBlockBackward_eq_some_iff {bb : BasicBlock} {upto : ℕ} {d : Definition} :
    scanBlockBackward regs target is64bit bb upto = some d ↔
      ∃ ins, Cfg.LastWrite regs target is64bit bb upto ins ∧ d = ⟨ins.va, sourceValue ins⟩ := by
  rw [scanBlockBackward]
  constructor
  · intro h
    obtain ⟨⟨i, ins⟩, hlast, hd⟩ := Option.bind_eq_some_iff.mp h
    obtain ⟨hlt, hget, hdef, hafter⟩ := Search.lastBefore_eq_some_iff.mp hlast
    exact ⟨ins, ⟨i, hlt, hget, hdef, hafter⟩, eq_of_classifyDefinition hd⟩
  · rintro ⟨ins, ⟨i, hlt, hget, hdef, hafter⟩, rfl⟩
    rw [Search.lastBefore_eq_some_iff.mpr ⟨hlt, hget, hdef, hafter⟩]
    exact classifyDefinition_eq hdef

namespace Cfg

variable {bb : BasicBlock} {upto : ℕ} {ins : DecodedInsn}

theorem LastWrite.mem (h : LastWrite regs target is64bit bb upto ins) :
    ins ∈ bb.instructions := by
  obtain ⟨i, -, hget, -⟩ := h
  exact List.mem_of_getElem? hget

theorem LastWrite.not_noWrite (h : LastWrite regs target is64bit bb upto ins) :
    ¬NoWrite regs target is64bit bb upto := by
  obtain ⟨i, hlt, hget, hdef, -⟩ := h
  exact fun hno => hno i ins hlt hget hdef

end Cfg

end Block

/-! ### The graph -/

namespace Cfg

variable {fn : Cfg}

/-- A block is told by its address. -/
theorem eq_of_va_eq {b c : BasicBlock} (hb : b ∈ fn.basicBlocks) (hc : c ∈ fn.basicBlocks)
    (h : b.va = c.va) : b = c := by
  have hnodup : (fn.basicBlocks.map BasicBlock.va).Nodup :=
    List.pairwise_map.mpr (fn.ascending.imp UInt64.ne_of_lt)
  exact List.inj_on_of_nodup_map hnodup hb hc h

/-- The search for a block finds the one at the address. -/
theorem blockAt_eq_some_iff {va : UInt64} {b : BasicBlock} :
    fn.blockAt va = some b ↔ b ∈ fn.basicBlocks ∧ b.va = va := by
  rw [Function.blockAt, Option.filter_eq_some_iff, beq_iff_eq]
  refine and_congr_left fun hva => ⟨List.mem_of_find?_eq_some, fun hb => ?_⟩
  obtain ⟨front, back, hsplit⟩ := List.append_of_mem hb
  rw [List.find?_eq_some_iff_append]
  refine ⟨by simp [hva], front, back, hsplit, fun a ha => ?_⟩
  have hasc := fn.ascending
  rw [hsplit] at hasc
  have hlt : a.va < b.va := (List.pairwise_append.mp hasc).2.2 a ha b List.mem_cons_self
  simpa [hva] using hlt

theorem mem_preds_iff {b c : BasicBlock} (hc : c ∈ fn.basicBlocks) :
    b ∈ fn.preds c ↔ fn.Edge b c := by
  rw [preds, List.mem_filterMap]
  simp only [blockAt_eq_some_iff, fn.mem_predecessors_iff c hc]
  constructor
  · rintro ⟨p, ⟨b', hb', rfl, hsucc⟩, hb, hva⟩
    obtain rfl := eq_of_va_eq hb hb' hva
    exact ⟨hb, hc, hsucc⟩
  · rintro ⟨hb, -, hsucc⟩
    exact ⟨b.va, ⟨b, hb, rfl, hsucc⟩, hb, rfl⟩

/-! ### The search is breadth-first -/

variable {regs : RegisterTable} {target : ZydisRegister} {is64bit : Bool}

/-- The last definition of a block. -/
def definitionIn (regs : RegisterTable) (target : ZydisRegister) (is64bit : Bool)
    (b : BasicBlock) : Option Definition :=
  scanBlockBackward regs target is64bit b b.instructions.length

/-- The addresses visited are those of the blocks seen, and others at which no block begins. -/
def Visited (fn : Cfg) (visited : List UInt64) (seen : List BasicBlock) : Prop :=
  ∀ b ∈ fn.basicBlocks, b.va ∈ visited ↔ b ∈ seen

theorem Visited.concat_none {visited : List UInt64} {seen : List BasicBlock} {p : UInt64}
    (h : fn.Visited visited seen) (hp : fn.blockAt p = none) :
    fn.Visited (visited ++ [p]) seen := by
  intro b hb
  rw [List.mem_append, List.mem_singleton, h b hb, or_iff_left]
  intro hva
  rw [blockAt_eq_some_iff.mpr ⟨hb, hva⟩] at hp
  exact absurd hp nofun

theorem Visited.concat_some {visited : List UInt64} {seen : List BasicBlock} {p : UInt64}
    {c : BasicBlock} (h : fn.Visited visited seen) (hp : fn.blockAt p = some c) :
    fn.Visited (visited ++ [p]) (c :: seen) := by
  intro b hb
  obtain ⟨hc, rfl⟩ := blockAt_eq_some_iff.mp hp
  rw [List.mem_append, List.mem_singleton, List.mem_cons, h b hb, or_comm]
  exact or_congr_left ⟨eq_of_va_eq hb hc, congrArg _⟩

/-- Examining addresses: the first definition in a block that is not seen yet ends the search, and
without one these blocks make up the next level. -/
theorem examinePreds_spec (ps : List UInt64) (w : Walk) {seen : List BasicBlock}
    (h : fn.Visited w.visited seen) :
    (∀ d, (fresh seen (ps.filterMap fn.blockAt)).findSome? (definitionIn regs target is64bit) =
        some d → examinePreds regs target is64bit fn.toFunction ps w = .error d) ∧
    ((fresh seen (ps.filterMap fn.blockAt)).findSome? (definitionIn regs target is64bit) = none →
      ∃ visited, fn.Visited visited (fresh seen (ps.filterMap fn.blockAt) ++ seen) ∧
        examinePreds regs target is64bit fn.toFunction ps w =
          .ok ⟨visited, w.examined + (fresh seen (ps.filterMap fn.blockAt)).length,
            w.next ++ fresh seen (ps.filterMap fn.blockAt)⟩) := by
  induction ps generalizing w seen with
  | nil =>
    refine ⟨fun d hd => absurd hd (Option.some_ne_none d).symm, fun _ => ⟨w.visited, h, ?_⟩⟩
    rw [examinePreds, List.filterMap_nil, fresh, List.append_nil]
    rfl
  | cons p ps ih =>
    by_cases hvisited : p ∈ w.visited
    · -- an address that is visited names no block that is not seen
      have hlevel : fresh seen ((p :: ps).filterMap fn.blockAt) =
          fresh seen (ps.filterMap fn.blockAt) := by
        cases hp : fn.blockAt p with
        | none => rw [List.filterMap_cons_none hp]
        | some c =>
          obtain ⟨hc, hva⟩ := blockAt_eq_some_iff.mp hp
          rw [List.filterMap_cons_some hp, fresh, if_pos ((h c hc).mp (hva ▸ hvisited))]
      rw [hlevel, examinePreds, if_pos hvisited]
      exact ih w h
    · rw [examinePreds, if_neg hvisited]
      cases hp : fn.blockAt p with
      | none =>
        rw [List.filterMap_cons_none hp]
        exact ih { w with visited := w.visited ++ [p] } (h.concat_none hp)
      | some c =>
        obtain ⟨hc, hva⟩ := blockAt_eq_some_iff.mp hp
        have hnot : c ∉ seen := fun hmem => hvisited (hva ▸ (h c hc).mpr hmem)
        rw [List.filterMap_cons_some hp, fresh, if_neg hnot, List.findSome?_cons]
        cases hdef : definitionIn regs target is64bit c with
        | some d =>
          have hdef : scanBlockBackward regs target is64bit c c.instructions.length = some d := hdef
          simp only [hdef]
          exact ⟨fun _ hd => congrArg _ (Option.some.inj hd),
            fun hd => absurd hd (Option.some_ne_none d)⟩
        | none =>
          have hdef : scanBlockBackward regs target is64bit c c.instructions.length = none := hdef
          simp only [hdef]
          obtain ⟨hsome, hnone⟩ :=
            ih ⟨w.visited ++ [p], w.examined + 1, w.next ++ [c]⟩ (h.concat_some hp)
          refine ⟨hsome, fun hall => ?_⟩
          obtain ⟨visited, hseen, heq⟩ := hnone hall
          refine ⟨visited, fun b hb => (hseen b hb).trans ?_, heq.trans ?_⟩
          · rw [List.mem_append, List.mem_cons, List.mem_append, List.mem_cons, or_left_comm,
              or_assoc]
          · rw [List.length_cons, List.append_assoc, List.singleton_append, Nat.add_assoc,
              Nat.add_comm 1]

theorem examinePreds_append (ps qs : List UInt64) (w : Walk) :
    examinePreds regs target is64bit fn.toFunction (ps ++ qs) w =
      (examinePreds regs target is64bit fn.toFunction ps w).bind
        (examinePreds regs target is64bit fn.toFunction qs) := by
  induction ps generalizing w with
  | nil => rfl
  | cons p ps ih =>
    rw [List.cons_append, examinePreds, examinePreds]
    split_ifs with hvisited
    · exact ih w
    · cases fn.blockAt p with
      | none => exact ih _
      | some c =>
        dsimp only
        cases scanBlockBackward regs target is64bit c c.instructions.length with
        | some d => rfl
        | none => exact ih _

/-- Examining block by block is examining all their predecessors. -/
theorem foldlM_examinePreds (frontier : List BasicBlock) (w : Walk) :
    frontier.foldlM (fun w bb => examinePreds regs target is64bit fn.toFunction bb.predecessors w)
        w = examinePreds regs target is64bit fn.toFunction
          (frontier.flatMap BasicBlock.predecessors) w := by
  induction frontier generalizing w with
  | nil => rfl
  | cons bb frontier ih =>
    rw [List.foldlM_cons, List.flatMap_cons, examinePreds_append]
    exact congrArg (Except.bind _) (funext ih)

/-- **The loop over the levels** finds the first definition in the order of the search. -/
theorem defineLoop_eq {turns examined : ℕ} {frontier seen : List BasicBlock}
    {visited : List UInt64} (h : fn.Visited visited seen)
    (hturns : frontier = [] ∨ kMaxBlocks ≤ examined + turns) :
    defineLoop regs target is64bit fn.toFunction (turns + 1) frontier visited examined =
      some ((order fn.preds kMaxBlocks turns frontier seen examined).findSome?
        (definitionIn regs target is64bit)) := by
  induction turns generalizing frontier visited seen examined with
  | zero => exact if_pos (hturns.imp_right not_lt.mpr)
  | succ turns ih =>
    rw [defineLoop, order]
    by_cases hstop : frontier = [] ∨ kMaxBlocks ≤ examined
    · rw [if_pos hstop, if_pos (hstop.imp_right not_lt.mpr)]
      rfl
    · have hlevel : (frontier.flatMap BasicBlock.predecessors).filterMap fn.blockAt =
          frontier.flatMap fn.preds := List.filterMap_flatMap
      obtain ⟨hsome, hnone⟩ := examinePreds_spec (frontier.flatMap BasicBlock.predecessors)
        ⟨visited, examined, []⟩ h
      rw [if_neg hstop, if_neg fun hs => hstop (hs.imp_right not_lt.mp), foldlM_examinePreds,
        List.findSome?_append]
      rw [hlevel] at hsome hnone
      cases hfound : (fresh seen (frontier.flatMap fn.preds)).findSome?
          (definitionIn regs target is64bit) with
      | some d =>
        rw [hsome d hfound]
        rfl
      | none =>
        obtain ⟨visited', hvisited, heq⟩ := hnone hfound
        rw [heq]
        refine ih hvisited ?_
        by_cases hempty : fresh seen (frontier.flatMap fn.preds) = []
        · exact Or.inl hempty
        · have := List.length_pos_iff.mpr hempty
          have := hturns.resolve_left fun hnil => hstop (Or.inl hnil)
          exact Or.inr (by dsimp only; omega)

/-- **The search over the predecessors is a breadth-first search.** -/
theorem defineAtEntry_eq {host : BasicBlock} (hhost : host ∈ fn.basicBlocks) :
    defineAtEntry regs target is64bit fn.toFunction host =
      some ((fn.searchOrder host).findSome? (definitionIn regs target is64bit)) := by
  refine defineLoop_eq (fun b hb => ?_) (Or.inr (Nat.zero_add _).ge)
  rw [List.mem_singleton, List.mem_singleton]
  exact ⟨eq_of_va_eq hb hhost, congrArg _⟩

/-! ### What is found -/

variable {callVa : UInt64}

theorem mem_of_findHost {host : BasicBlock} {callIndex : ℕ}
    (h : fn.findHost callVa = some (host, callIndex)) : host ∈ fn.basicBlocks := by
  obtain ⟨bb, hbb, hi⟩ := List.exists_of_findSome?_eq_some h
  obtain ⟨i, -, heq⟩ := Option.map_eq_some_iff.mp hi
  cases heq
  exact hbb

/-- A path through blocks without a definition, in the terms of the search. -/
theorem clearTo_of_through {host c : BasicBlock} {n : ℕ} (hhost : host ∈ fn.basicBlocks)
    (h : Through fn.preds host
      (fun b => NoWrite regs target is64bit b b.instructions.length) n c) :
    c ∈ fn.basicBlocks ∧ ClearTo regs target is64bit fn host n c := by
  induction h with
  | start => exact ⟨hhost, .host⟩
  | step _ huv hv ih =>
    have hedge := (mem_preds_iff ih.1).mp huv
    exact ⟨hedge.1, .step ih.2 hedge hv⟩

/-- **The definition that is met first reaches the call.** -/
theorem reaches_of_firstMet {ins : DecodedInsn}
    (h : FirstMet regs target is64bit fn callVa ins) :
    ∃ n, Reaches regs target is64bit fn callVa n ins := by
  obtain ⟨host, callIndex, hfind, hlast | ⟨hno, front, b, back, horder, hfront, hlast⟩⟩ := h
  · exact ⟨0, host, callIndex, hfind, .before hlast⟩
  · have hhost := mem_of_findHost hfind
    obtain ⟨c, n, hthrough, hbc⟩ := exists_through (fun u hu => ⟨0, by
      rw [List.mem_singleton.mp hu]
      exact .start⟩) horder hfront
    obtain ⟨hc, hclear⟩ := clearTo_of_through hhost hthrough
    exact ⟨n + 1, host, callIndex, hfind, .along hno hclear ((mem_preds_iff hc).mp hbc) hlast⟩

/-- A definition that reaches the call stands in a block. -/
theorem Reaches.exists_mem {n : ℕ} {ins : DecodedInsn}
    (h : Reaches regs target is64bit fn callVa n ins) :
    ∃ b ∈ fn.basicBlocks, ins ∈ b.instructions := by
  obtain ⟨host, callIndex, hfind, hfrom⟩ := h
  cases hfrom with
  | before h => exact ⟨host, mem_of_findHost hfind, h.mem⟩
  | along _ _ hbc h => exact ⟨_, hbc.1, h.mem⟩

/-- One instruction stands at an address. -/
theorem Reaches.eq_of_va_eq {m n : ℕ} {i j : DecodedInsn}
    (hi : Reaches regs target is64bit fn callVa m i)
    (hj : Reaches regs target is64bit fn callVa n j) (h : i.va = j.va) : i = j := by
  obtain ⟨b, hb, hib⟩ := hi.exists_mem
  obtain ⟨c, hc, hjc⟩ := hj.exists_mem
  exact fn.coherent b hb c hc i hib j hjc h

/-- The blocks that the search examines. -/
theorem mem_searchOrder_iff {host b : BasicBlock} : b ∈ fn.searchOrder host ↔
    ∃ i, b ∈ sphere fn.preds host (i + 1) ∧ (ball fn.preds host i).ncard ≤ kMaxBlocks :=
  mem_order_iff le_rfl

/-- The definition that is met first, in the terms of the block of the call. -/
theorem firstMet_iff {host : BasicBlock} {callIndex : ℕ} {ins : DecodedInsn}
    (hfind : fn.findHost callVa = some (host, callIndex)) :
    FirstMet regs target is64bit fn callVa ins ↔
      LastWrite regs target is64bit host callIndex ins ∨
        NoWrite regs target is64bit host callIndex ∧ ∃ front b back,
          fn.searchOrder host = front ++ b :: back ∧
          (∀ c ∈ front, NoWrite regs target is64bit c c.instructions.length) ∧
          LastWrite regs target is64bit b b.instructions.length ins := by
  refine ⟨fun ⟨host', callIndex', hfind', h⟩ => ?_, fun h => ⟨host, callIndex, hfind, h⟩⟩
  cases hfind.symm.trans hfind'
  exact h

theorem near_iff {host : BasicBlock} {callIndex : ℕ}
    (hfind : fn.findHost callVa = some (host, callIndex)) :
    Near regs target is64bit fn callVa ↔ ¬NoWrite regs target is64bit host callIndex ∨
      ∃ b ∈ fn.searchOrder host, ¬NoWrite regs target is64bit b b.instructions.length := by
  simp only [mem_searchOrder_iff]
  constructor
  · rintro ⟨host', callIndex', hfind', hwrite⟩
    cases hfind.symm.trans hfind'
    exact hwrite.imp_right fun ⟨i, b, hb, hcard, hwrite⟩ => ⟨b, ⟨i, hb, hcard⟩, hwrite⟩
  · intro h
    exact ⟨host, callIndex, hfind,
      h.imp_right fun ⟨b, ⟨i, hb, hcard⟩, hwrite⟩ => ⟨i, b, hb, hcard, hwrite⟩⟩

/-- **What is found**: the definition that is met first, and one whenever one is near. -/
theorem findDefinition_spec (regs : RegisterTable) (target : ZydisRegister) (is64bit : Bool)
    (fn : Cfg) (callVa : UInt64) :
    ∃ result, findDefinition regs target is64bit fn.toFunction callVa = some result ∧
      (∀ d, result = some d ↔ ∃ ins, FirstMet regs target is64bit fn callVa ins ∧
        d = ⟨ins.va, sourceValue ins⟩) ∧
      (result.isSome ↔ Near regs target is64bit fn callVa) := by
  unfold findDefinition
  by_cases htarget : target = .none
  · subst htarget
    have hno (bb : BasicBlock) (upto : ℕ) : NoWrite regs .none is64bit bb upto :=
      fun _ ins _ _ => isDefinition_none ins
    refine ⟨none, if_pos rfl, fun d => iff_of_false nofun ?_, iff_of_false nofun ?_⟩
    · rintro ⟨ins, ⟨_, _, _, hlast | ⟨_, _, _, _, _, _, hlast⟩⟩, _⟩ <;>
        exact hlast.not_noWrite (hno _ _)
    · rintro ⟨_, _, _, hwrite | ⟨_, _, _, _, hwrite⟩⟩ <;> exact hwrite (hno _ _)
  · rw [if_neg htarget]
    cases hfind : fn.findHost callVa with
    | none =>
      refine ⟨none, ite_self _, fun d => iff_of_false nofun ?_, iff_of_false nofun ?_⟩
      · rintro ⟨ins, ⟨host, callIndex, hsome, -⟩, -⟩
        exact absurd (hfind.symm.trans hsome) nofun
      · rintro ⟨host, callIndex, hsome, -⟩
        exact absurd (hfind.symm.trans hsome) nofun
    | some found =>
      obtain ⟨host, callIndex⟩ := found
      have hhost := mem_of_findHost hfind
      rw [if_neg (List.ne_nil_of_mem hhost)]
      simp only [firstMet_iff hfind, near_iff hfind]
      cases hscan : scanBlockBackward regs target is64bit host callIndex with
      | some d =>
        obtain ⟨ins, hins, -⟩ := scanBlockBackward_eq_some_iff.mp hscan
        refine ⟨_, rfl, fun d => ?_, iff_of_true rfl (Or.inl hins.not_noWrite)⟩
        rw [← hscan, scanBlockBackward_eq_some_iff]
        refine exists_congr fun ins' => and_congr_left fun _ => (or_iff_left ?_).symm
        exact fun hno => hins.not_noWrite hno.1
      | none =>
        have hno := scanBlockBackward_eq_none_iff.mp hscan
        refine ⟨_, defineAtEntry_eq hhost, fun d => ?_, ?_⟩
        · rw [List.findSome?_eq_some_iff]
          constructor
          · rintro ⟨front, b, back, horder, hb, hfront⟩
            obtain ⟨ins, hins, hd⟩ := scanBlockBackward_eq_some_iff.mp hb
            exact ⟨ins, Or.inr ⟨hno, front, b, back, horder,
              fun c hc => scanBlockBackward_eq_none_iff.mp (hfront c hc), hins⟩, hd⟩
          · rintro ⟨ins, hlast | ⟨-, front, b, back, horder, hfront, hins⟩, hd⟩
            · exact absurd hno hlast.not_noWrite
            · exact ⟨front, b, back, horder, scanBlockBackward_eq_some_iff.mpr ⟨ins, hins, hd⟩,
                fun c hc => scanBlockBackward_eq_none_iff.mpr (hfront c hc)⟩
        · rw [List.findSome?_isSome_iff, or_iff_right (not_not.mpr hno)]
          refine exists_congr fun b => and_congr_right fun _ => ?_
          rw [definitionIn, Option.isSome_iff_ne_none, Ne, scanBlockBackward_eq_none_iff]

/-! ### When the answer is right -/

/-- **The answer is right** exactly when the definition that is met first is a `mov` or has no
constant operand, and some definition is near if one reaches the call. -/
theorem right_iff (regs : RegisterTable) (target : ZydisRegister) (is64bit : Bool) (fn : Cfg)
    (callVa : UInt64) :
    Right regs target is64bit fn callVa ↔ HoldsWhen regs target is64bit fn callVa := by
  obtain ⟨result, hresult, hfound, hnear⟩ := findDefinition_spec regs target is64bit fn callVa
  constructor
  · rintro ⟨result', hresult', hsound, hcomplete⟩
    obtain rfl : result = result' := Option.some.inj (hresult.symm.trans hresult')
    refine ⟨fun ins hfirst => ?_, fun hreaches => hnear.mp (hcomplete hreaches)⟩
    obtain ⟨n, ins', hreaches, hva, hmov⟩ := hsound _ ((hfound _).mpr ⟨ins, hfirst, rfl⟩)
    obtain ⟨m, hreaches'⟩ := reaches_of_firstMet hfirst
    obtain rfl := hreaches'.eq_of_va_eq hreaches hva
    cases hvalue : sourceValue ins with
    | none => exact Or.inr rfl
    | some value => exact Or.inl (hmov (by rw [hvalue]; rfl))
  · intro h
    refine ⟨result, hresult, fun d hd => ?_, fun hreaches => hnear.mpr (h.near hreaches)⟩
    obtain ⟨ins, hfirst, rfl⟩ := (hfound d).mp hd
    obtain ⟨n, hreaches⟩ := reaches_of_firstMet hfirst
    refine ⟨n, ins, hreaches, rfl, fun hvalue => ?_⟩
    refine (h.mov ins hfirst).resolve_right fun hnone => ?_
    rw [hnone] at hvalue
    exact absurd hvalue nofun

end Cfg

/-! ### Two functions -/

/-- The general registers of the decoder library. -/
def generalRegisters : RegisterTable where
  largestEnclosing := JumpTables.largestEnclosing
  width _ r := 8 * r.widthBytes

/-- The register `rax` as an operand. -/
def raxOperand : DecodedOperand := { kind := .reg, baseReg := .gpr64 0, widthBytes := 8 }

/-- `call rax`, of two bytes. -/
def callRax (va : UInt64) : DecodedInsn :=
  { va, length := 2, mnem := .call, operands := [raxOperand], isCall := true }

/-- `lea rax, [rip + 0x100]` and `call rax`. -/
def leaCall : Cfg where
  va := 0x1000
  basicBlocks := [⟨0x1000, [
    { va := 0x1000, length := 7, mnem := .lea
      operands := [raxOperand,
        { kind := .ripRel, baseReg := .rip, disp := 0x100, widthBytes := 8 }] },
    callRax 0x1007], [], []⟩]
  ascending := List.pairwise_singleton _ _
  mem_predecessors_iff := by simp
  coherent := by decide

/-- `mov rax, 0x2000`. -/
def loopMov : DecodedInsn :=
  { va := 0x1002, length := 7, mnem := .mov
    operands := [raxOperand, { kind := .imm, imm := 0x2000, widthBytes := 4 }] }

/-- `call rax`, the `mov` and a jump back to the call. -/
def loopBlock : BasicBlock where
  va := 0x1000
  instructions := [callRax 0x1000, loopMov,
    { va := 0x1009, length := 2, mnem := .jmp, operands := [{ kind := .pcRel }], isJump := true
      branchTarget := some 0x1000, isFallthrough := false }]
  successors := [0x1000]
  predecessors := [0x1000]

def callLoop : Cfg where
  va := 0x1000
  basicBlocks := [loopBlock]
  ascending := List.pairwise_singleton _ _
  mem_predecessors_iff := by simp [loopBlock, eq_comm]
  coherent := by decide

/-- The `mov` behind the call reaches it around the loop. -/
theorem reaches_callLoop :
    Cfg.Reaches generalRegisters (.gpr64 0) true callLoop 0x1000 1 loopMov := by
  have hmem : loopBlock ∈ callLoop.basicBlocks := List.mem_singleton_self _
  have hedge : callLoop.Edge loopBlock loopBlock := ⟨hmem, hmem, List.mem_singleton_self _⟩
  refine ⟨loopBlock, 0, rfl, .along (fun i _ hi => absurd hi (Nat.not_lt_zero i)) .host hedge
    ⟨1, by decide, rfl, by decide, fun j other hlt hle hget => ?_⟩⟩
  obtain rfl : j = 2 := Nat.le_antisymm (Nat.le_of_lt_succ hle) hlt
  obtain rfl := Option.some.inj hget
  decide

/-- The address of `lea` is taken for a constant, and no definition behind the call is found. -/
theorem not_right_leaCall_callLoop :
    ¬Cfg.Right generalRegisters (.gpr64 0) true leaCall 0x1007 ∧
      ¬Cfg.Right generalRegisters (.gpr64 0) true callLoop 0x1000 := by
  constructor
  · rintro ⟨result, hresult, hsound, -⟩
    have hlea : findDefinition generalRegisters (.gpr64 0) true leaCall.toFunction 0x1007 =
        some (some ⟨0x1000, some 0x1107⟩) := by decide
    obtain rfl := Option.some.inj (hresult.symm.trans hlea)
    obtain ⟨n, ins, hreaches, hva, hmov⟩ := hsound _ rfl
    obtain ⟨b, hb, hins⟩ := hreaches.exists_mem
    have hmem : ∀ b ∈ leaCall.basicBlocks, ∀ ins ∈ b.instructions,
        ins.va = 0x1000 → ins.mnem ≠ .mov := by decide
    exact hmem b hb ins hins hva.symm (hmov rfl)
  · rintro ⟨result, hresult, -, hcomplete⟩
    have hnone : findDefinition generalRegisters (.gpr64 0) true callLoop.toFunction 0x1000 =
        some none := by decide
    obtain rfl := Option.some.inj (hresult.symm.trans hnone)
    exact absurd (hcomplete ⟨1, by decide, loopMov, reaches_callLoop⟩) nofun

end Papa.Extractors
