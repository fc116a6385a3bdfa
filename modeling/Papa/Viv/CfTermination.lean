import Mathlib.Data.Fintype.Card
import Mathlib.Data.List.Perm.Subperm
import Papa.Viv.CfFuel
import Papa.Viv.CfReports

/-!
# Every call of a context returns

An address is passed to `on_opcode` once, as long as `is_defined` knows those already passed. A flow
that decodes an instruction leaves fewer addresses to pass, and everything it enters has fewer. A
flow that decodes nothing makes no calls and enters blocked functions only, each of which it takes
from the blocked ones first. So the addresses left to pass and the number of blocked functions
descend together from every call to the calls inside.

The limits of a context are watched by a copy of its functions that has no result where one is
passed; it returns what the context returns.

## Main definitions

* `CodeFlowContext.Records`: `is_defined` knows the addresses that were passed to `on_opcode`.
* `CodeFlowContext.addEntryPointWatched`: the copy.

## Main results

* `CodeFlowContext.addEntryPoint_returns`.
-/

namespace Papa.Viv

namespace CodeFlowContext

variable {σ ι : Type} {cb : Callbacks σ ι}

/-! ### Addresses that were passed -/

/-- The state of the callbacks tells the addresses that were passed to `on_opcode`, the last one
first, and `is_defined` is true of each of them. -/
structure Records (cb : Callbacks σ ι) (passed : σ → List VA) : Prop where
  onOpcode : ∀ va op branches x, passed (cb.onOpcode va op branches x) = va :: passed x
  read : ∀ va x, passed (cb.read va x).2 = passed x
  isExec : ∀ va x, passed (cb.isExec va x).2 = passed x
  isDefined : ∀ va x, passed (cb.isDefined va x).2 = passed x
  onFunction : ∀ va x, passed (cb.onFunction va x) = passed x
  resolveJt : ∀ window x, passed (cb.resolveJt window x).2 = passed x
  isNoReturnCall : ∀ op x, passed (cb.isNoReturnCall op x).2 = passed x
  onBranchTable : ∀ fromVa caseVa x, passed (cb.onBranchTable fromVa caseVa x) = passed x
  isDefined_of_mem : ∀ va x, va ∈ passed x → (cb.isDefined va x).1 = true

/-- The callbacks add to what was passed, and add no address twice. -/
def Extends (passed : σ → List VA) (x y : σ) : Prop :=
  passed x <:+ passed y ∧ ((passed x).Nodup → (passed y).Nodup)

variable {passed : σ → List VA}

theorem extends_of_eq {x y : σ} (h : passed y = passed x) : Extends passed x y :=
  ⟨h ▸ List.suffix_refl _, fun hx => h ▸ hx⟩

theorem Records.keeps (h : Records cb passed) : Keeps cb (Extends passed) where
  refl _ := extends_of_eq rfl
  trans hxy hyz := ⟨hxy.1.trans hyz.1, fun hx => hyz.2 (hxy.2 hx)⟩
  read va x := extends_of_eq (h.read va x)
  isExec va x := extends_of_eq (h.isExec va x)
  isDefined va x := extends_of_eq (h.isDefined va x)
  onFunction va x := extends_of_eq (h.onFunction va x)
  resolveJt window x := extends_of_eq (h.resolveJt window x)
  isNoReturnCall op x := extends_of_eq (h.isNoReturnCall op x)
  onBranchTable fromVa caseVa x := extends_of_eq (h.onBranchTable fromVa caseVa x)
  onOpcode va x op hdefined _ := by
    have hpassed : passed (cb.onOpcode va op (getBranches op)
        (cb.read va (cb.isDefined va x).2).2) = va :: passed x := by
      rw [h.onOpcode, h.read, h.isDefined]
    refine ⟨hpassed ▸ List.suffix_cons va _, fun hx => ?_⟩
    rw [hpassed]
    refine List.nodup_cons.mpr ⟨fun hmem => ?_, hx⟩
    exact absurd (h.isDefined_of_mem va x hmem) (Bool.eq_false_iff.mp hdefined)

/-- Addresses that differ are at most 2^64. -/
theorem length_le_of_nodup {l : List VA} (h : l.Nodup) : l.length ≤ 2 ^ 64 := by
  have hmap : (l.map UInt64.toFin).Nodup := h.map fun _ _ => UInt64.toFin_inj.mp
  have hle := hmap.length_le_card
  rwa [List.length_map, Fintype.card_fin] at hle

theorem nodup_pushUnique {list : List VA} {v : VA} (h : list.Nodup) :
    (pushUnique list v).Nodup := by
  unfold pushUnique
  split_ifs with hmem
  · exact h
  · exact h.append (List.nodup_singleton v) (List.disjoint_singleton.mpr hmem)

/-! ### The limits -/

/-- `add_code_flow`, without a result where a limit is passed: that of the active path, which grows
by one, that of the functions, or that of the instructions of a flow. -/
def addCodeFlowWatched (cb : Callbacks σ ι)
    (enter : VA → CodeFlowContext σ → Option (CodeFlowContext σ)) (fuel : ℕ) (va : VA)
    (s : CodeFlowContext σ) : Option (CodeFlowContext σ) :=
  if kMaxDescentDepth < s.cfBlocks.length + 1 ∨ kMaxFunctionsPerImage < s.functions.length then none
  else do
    let (f, s) ←
      flowLoop cb enter va fuel { optodo := [va] } { s with cfBlocks := va :: s.cfBlocks }
    if kMaxInsnsPerFunction < f.flowInsns.length then none
    else do
      let s ← drainTargets enter f.recursionTargets { s with cfBlocks := s.cfBlocks.tail }
      drainBlocked enter s.blockedRecursion [] s

/-- `add_entry_point`, without a result where a limit is passed. -/
def addEntryPointWatched (cb : Callbacks σ ι) : (fuel : ℕ) → VA → CodeFlowContext σ →
    Option (CodeFlowContext σ)
  | 0 => fun _ _ => none
  | fuel + 1 => entryPoint (addCodeFlowWatched cb (addEntryPointWatched cb fuel) fuel) cb

section Insns

variable {enter : VA → CodeFlowContext σ → Option (CodeFlowContext σ)} {startva cur : VA}
  {op : DecodedInsn ι} {f f' : Flow ι} {s s' : CodeFlowContext σ}

theorem flowInsns_followBranch {flags : UInt16} {bva : VA}
    (hrun : followBranch cb enter startva cur op flags bva f s = some (f', s')) :
    f'.flowInsns = f.flowInsns := by
  unfold followBranch followCall descend at hrun
  dsimp only at hrun
  split_ifs at hrun with hno hsuppressed hcall hnext hactive hdepth
  all_goals try (obtain ⟨rfl, -⟩ := Prod.mk.inj (Option.some.inj hrun); rfl)
  obtain ⟨⟨g, u⟩, hdescend, hrest⟩ := Option.bind_eq_some_iff.mp hrun
  obtain ⟨rfl, -⟩ := Prod.mk.inj (Option.some.inj hrest)
  obtain ⟨v, -, hg⟩ := Option.map_eq_some_iff.mp hdescend
  obtain ⟨rfl, -⟩ := Prod.mk.inj hg
  rfl

theorem flowInsns_branchLoop {fuel : ℕ} {branches : List CfBranch}
    (hrun : branchLoop cb enter startva cur op fuel branches f s = some (f', s')) :
    f'.flowInsns = f.flowInsns := by
  induction fuel generalizing branches f s with
  | zero => exact nomatch hrun
  | succ fuel ih =>
    match branches with
    | [] =>
      obtain ⟨rfl, -⟩ := Prod.mk.inj (Option.some.inj hrun)
      rfl
    | ⟨none, flags⟩ :: branches =>
      refine (ih hrun).trans ?_
      unfold indirectBranch
      split_ifs
      · cases hjt : (cb.resolveJt (f.windowEndingAt op) s.ext).1 with
        | none => simp only [hjt]
        | some jt => simp only [hjt]
      · rfl
    | ⟨some bva, flags⟩ :: branches =>
      obtain ⟨⟨g, u⟩, hbranch, hrest⟩ := Option.bind_eq_some_iff.mp hrun
      exact (ih hrest).trans (flowInsns_followBranch hbranch)

/-- **A flow** decodes no more instructions than its limit. -/
theorem length_flowInsns_le {fuel : ℕ} (h : f.flowInsns.length ≤ kMaxInsnsPerFunction)
    (hrun : flowLoop cb enter startva fuel f s = some (f', s')) :
    f'.flowInsns.length ≤ kMaxInsnsPerFunction := by
  induction fuel generalizing f s with
  | zero => exact nomatch hrun
  | succ fuel ih =>
    unfold flowLoop at hrun
    split at hrun
    · obtain ⟨rfl, -⟩ := Prod.mk.inj (Option.some.inj hrun)
      exact h
    dsimp only at hrun
    split_ifs at hrun with hmany
    · obtain ⟨rfl, -⟩ := Prod.mk.inj (Option.some.inj hrun)
      exact h
    · refine ih ?_ hrun
      exact h
    · refine ih ?_ hrun
      exact h
    · refine ih ?_ hrun
      exact h
    · split at hrun
      · refine ih ?_ hrun
        exact h
      · obtain ⟨⟨g, u⟩, hbranches, hrest⟩ := Option.bind_eq_some_iff.mp hrun
        refine ih ?_ hrest
        rw [flowInsns_branchLoop hbranches, List.length_cons]
        exact not_le.mp hmany

end Insns

/-! ### Results from some fuel on -/

/-- The recursive calls of functions that unfold to `add_entry_point` as long as its limits are
kept. -/
def Unfolds (cb : Callbacks σ ι)
    (call : ℕ → VA → CodeFlowContext σ → Option (CodeFlowContext σ)) : Prop :=
  ∀ n va s, s.cfBlocks.length < kMaxDescentDepth → s.functions.length ≤ kMaxFunctionsPerImage →
    call (n + 1) va s = entryPoint (addCodeFlow cb (call n) n) cb va s

theorem unfolds_addEntryPoint (cb : Callbacks σ ι) : Unfolds cb (addEntryPoint cb) :=
  fun _ _ _ _ _ => rfl

theorem unfolds_addEntryPointWatched (cb : Callbacks σ ι) :
    Unfolds cb (addEntryPointWatched cb) := by
  intro n va s hdepth hfunctions
  have hflow (l : List VA) (trace : List Event) (hl : l.length ≤ kMaxFunctionsPerImage) :
      addCodeFlowWatched cb (addEntryPointWatched cb n) n va { s with functions := l, trace } =
        addCodeFlow cb (addEntryPointWatched cb n) n va { s with functions := l, trace } := by
    unfold addCodeFlowWatched addCodeFlow
    rw [if_neg (not_or.mpr ⟨not_lt.mpr hdepth, not_lt.mpr hl⟩)]
    refine Option.bind_congr fun r hr => ?_
    obtain ⟨f, u⟩ := r
    exact if_neg (not_lt.mpr (length_flowInsns_le (Nat.zero_le _) hr))
  show entryPoint _ cb va s = _
  unfold entryPoint
  split_ifs with hfull hmem
  · rfl
  · rfl
  · rw [hflow (va :: s.functions) _ (not_le.mp hfull)]

/-- A function of the recursive calls and of a fuel has a result from some fuels on. -/
def Returns {α : Type} (cb : Callbacks σ ι)
    (g : (VA → CodeFlowContext σ → Option (CodeFlowContext σ)) → ℕ → Option α) (a : α) : Prop :=
  ∀ call, Unfolds cb call → ∃ fuel₀, ∀ n ≥ fuel₀, ∀ fuel ≥ fuel₀, g (call n) fuel = some a

namespace Returns

variable {α β : Type}
  {g g' : (VA → CodeFlowContext σ → Option (CodeFlowContext σ)) → ℕ → Option α} {a : α} {b : β}

theorem of_eq (h : ∀ enter fuel, g enter fuel = some a) : Returns cb g a :=
  fun _ _ => ⟨0, fun _ _ _ _ => h _ _⟩

theorem of_succ (h : ∀ enter fuel, g enter (fuel + 1) = some a) : Returns cb g a := by
  intro call _
  refine ⟨1, fun n _ fuel hfuel => ?_⟩
  obtain ⟨fuel, rfl⟩ := Nat.exists_eq_add_of_le' hfuel
  exact h _ _

theorem congr (h : ∀ enter fuel, g enter fuel = g' enter fuel) (hg : Returns cb g' a) :
    Returns cb g a := by
  intro call hcall
  obtain ⟨fuel₀, hret⟩ := hg call hcall
  exact ⟨fuel₀, fun n hn fuel hfuel => (h _ _).trans (hret n hn fuel hfuel)⟩

/-- A turn of a loop takes one unit of its fuel. -/
theorem succ (h : ∀ enter fuel, g enter (fuel + 1) = g' enter fuel) (hg : Returns cb g' a) :
    Returns cb g a := by
  intro call hcall
  obtain ⟨fuel₀, hret⟩ := hg call hcall
  refine ⟨fuel₀ + 1, fun n hn fuel hfuel => ?_⟩
  obtain ⟨fuel, rfl⟩ := Nat.exists_eq_add_of_le' (Nat.le_trans (Nat.le_add_left 1 fuel₀) hfuel)
  exact (h _ _).trans (hret n (Nat.le_of_succ_le hn) fuel (Nat.le_of_succ_le_succ hfuel))

theorem bind {k : α → (VA → CodeFlowContext σ → Option (CodeFlowContext σ)) → ℕ → Option β}
    (hg : Returns cb g a) (hk : Returns cb (k a) b) :
    Returns cb (fun enter fuel => (g enter fuel).bind fun a => k a enter fuel) b := by
  intro call hcall
  obtain ⟨fuel₁, hg⟩ := hg call hcall
  obtain ⟨fuel₂, hk⟩ := hk call hcall
  refine ⟨max fuel₁ fuel₂, fun n hn fuel hfuel => ?_⟩
  show (g (call n) fuel).bind _ = some b
  rw [hg n (le_of_max_le_left hn) fuel (le_of_max_le_left hfuel)]
  exact hk n (le_of_max_le_right hn) fuel (le_of_max_le_right hfuel)

end Returns

/-! ### What a call leaves -/

/-- What is asked of the state before a call. -/
structure Ready (passed : σ → List VA) (s : CodeFlowContext σ) : Prop where
  nodup : (passed s.ext).Nodup
  functions_le : s.functions.length ≤ kMaxFunctionsPerImage
  blocked_nodup : s.blockedRecursion.Nodup

/-- What is told of the state after. -/
structure After (passed : σ → List VA) (s s' : CodeFlowContext σ) : Prop where
  ready : Ready passed s'
  suffix : passed s.ext <:+ passed s'.ext
  cfBlocks : s'.cfBlocks = s.cfBlocks

/-- Without an instruction that is passed, no function becomes blocked. -/
def Shrinks (passed : σ → List VA) (s s' : CodeFlowContext σ) : Prop :=
  passed s'.ext = passed s.ext → s'.blockedRecursion ⊆ s.blockedRecursion

/-- How many addresses are left to pass. -/
def left (passed : σ → List VA) (s : CodeFlowContext σ) : ℕ := 2 ^ 64 - (passed s.ext).length

variable {s s' s'' : CodeFlowContext σ}

theorem After.refl (h : Ready passed s) : After passed s s := ⟨h, List.suffix_refl _, rfl⟩

theorem After.trans (h : After passed s s') (h' : After passed s' s'') : After passed s s'' :=
  ⟨h'.ready, h.suffix.trans h'.suffix, h'.cfBlocks.trans h.cfBlocks⟩

theorem After.of_extends (h : Ready passed s) (hext : Extends passed s.ext s'.ext)
    (hfunctions : s'.functions = s.functions) (hblocked : s'.blockedRecursion = s.blockedRecursion)
    (hcfBlocks : s'.cfBlocks = s.cfBlocks) : After passed s s' :=
  ⟨⟨hext.2 h.nodup, hfunctions ▸ h.functions_le, hblocked ▸ h.blocked_nodup⟩, hext.1, hcfBlocks⟩

theorem After.left_le (h : After passed s s') : left passed s' ≤ left passed s :=
  Nat.sub_le_sub_left h.suffix.length_le _

/-- An address that is passed leaves fewer. -/
theorem After.eq_or_left_lt (h : After passed s s') :
    passed s'.ext = passed s.ext ∨ left passed s' < left passed s := by
  have hle := length_le_of_nodup h.ready.nodup
  rcases Nat.lt_or_eq_of_le h.suffix.length_le with hlt | heq
  · exact .inr (Nat.sub_lt_sub_left (Nat.lt_of_lt_of_le hlt hle) hlt)
  · exact .inl (h.suffix.eq_of_length heq).symm

/-- A call returns, whatever the fuel, from some on. -/
def Terminates (cb : Callbacks σ ι) (passed : σ → List VA) (va : VA) (s : CodeFlowContext σ) :
    Prop :=
  ∃ s', Returns cb (fun enter _ => enter va s) s' ∧ After passed s s' ∧ Shrinks passed s s'

/-! ### A flow -/

section Flow

variable {startva cur : VA} {op : DecodedInsn ι} {u : ℕ} (h : Records cb passed)
  (henter : ∀ va s, Ready passed s → s.cfBlocks.length < kMaxDescentDepth → left passed s < u →
    Terminates cb passed va s)

include henter

theorem descend_returns (bva : VA) (f : Flow ι) (hs : Ready passed s) (hlt : left passed s < u) :
    ∃ f' s', Returns cb (fun enter _ => descend enter bva f s) (f', s') ∧ After passed s s' := by
  unfold descend
  split_ifs with hactive hdepth
  · exact ⟨_, s, .of_eq fun _ _ => rfl, .refl hs⟩
  · obtain ⟨s', hret, hafter, -⟩ := henter bva s hs hdepth hlt
    refine ⟨f, s', ?_, hafter⟩
    refine .congr (fun enter _ => Option.map_eq_bind) (hret.bind (k := fun s _ _ => some (f, s)) ?_)
    exact .of_eq fun _ _ => rfl
  · exact ⟨_, s, .of_eq fun _ _ => rfl, .refl hs⟩

include h

theorem followCall_returns (bva : VA) (f : Flow ι) (hs : Ready passed s)
    (hlt : left passed s < u) : ∃ f' s',
      Returns cb (fun enter _ => followCall cb enter cur op bva f s) (f', s') ∧
        After passed s s' := by
  by_cases hnext : bva = cur + op.length
  · exact ⟨f, s, .of_eq fun _ _ => if_pos hnext, .refl hs⟩
  · obtain ⟨f', s', hret, hafter⟩ := descend_returns henter bva f hs hlt
    refine ⟨f', _, .congr (fun _ _ => if_neg hnext) (hret.bind (.of_eq fun _ _ => rfl)),
      hafter.trans (.of_extends hafter.ready ?_ rfl rfl rfl)⟩
    exact h.keeps.isNoReturnCall op s'.ext

theorem followBranch_returns (flags : UInt16) (bva : VA) (f : Flow ι) (hs : Ready passed s)
    (hlt : left passed s < u) : ∃ f' s',
      Returns cb (fun enter _ => followBranch cb enter startva cur op flags bva f s) (f', s') ∧
        After passed s s' := by
  have hexec : After passed s { s with ext := (cb.isExec bva s.ext).2 } :=
    .of_extends hs (h.keeps.isExec bva s.ext) rfl rfl rfl
  unfold followBranch
  dsimp only
  split_ifs
  · exact ⟨_, _, .of_eq fun _ _ => rfl, hexec⟩
  · exact ⟨_, _, .of_eq fun _ _ => rfl, hexec⟩
  · obtain ⟨f', s', hret, hafter⟩ := followCall_returns h henter bva f
      hexec.ready (hexec.left_le.trans_lt hlt)
    exact ⟨f', s', hret, hexec.trans hafter⟩
  · exact ⟨_, _, .of_eq fun _ _ => rfl, hexec.trans (.of_extends hexec.ready (h.keeps.refl _)
      rfl rfl rfl)⟩
  · exact ⟨_, _, .of_eq fun _ _ => rfl, hexec⟩
  · exact ⟨_, _, .of_eq fun _ _ => rfl, hexec⟩

omit henter in
theorem after_indirectBranch (f : Flow ι) (hs : Ready passed s) :
    After passed s (indirectBranch cb op f s).2.2 := by
  refine .of_extends hs (h.keeps.indirectBranch s) ?_ ?_ ?_
  all_goals
    unfold indirectBranch
    split_ifs
    · cases hjt : (cb.resolveJt (f.windowEndingAt op) s.ext).1 with
      | none => simp only [hjt]
      | some jt => simp only [hjt]
    · rfl

omit h henter in
/-- The cases of a switch have targets. -/
theorem countP_indirectBranch (f : Flow ι) (s : CodeFlowContext σ) :
    (indirectBranch cb op f s).1.countP (·.target.isNone) = 0 := by
  unfold indirectBranch
  split_ifs
  · cases hjt : (cb.resolveJt (f.windowEndingAt op) s.ext).1 with
    | none =>
      simp only [hjt]
      rfl
    | some jt =>
      simp only [hjt]
      refine List.countP_eq_zero.mpr fun br hbr => ?_
      obtain ⟨va, -, rfl⟩ := List.mem_map.mp hbr
      exact Bool.false_ne_true
  · rfl

/-- The loop over the edges of an instruction: an indirect branch is taken once. -/
theorem branchLoop_returns (branches : List CfBranch) (f : Flow ι) (s : CodeFlowContext σ)
    (hs : Ready passed s) (hlt : left passed s < u) : ∃ f' s',
      Returns cb (fun enter fuel => branchLoop cb enter startva cur op fuel branches f s) (f', s') ∧
        After passed s s' := by
  match branches with
  | [] => exact ⟨f, s, .of_succ fun _ _ => rfl, .refl hs⟩
  | ⟨none, flags⟩ :: rest =>
    have hstep : After passed s (indirectBranch cb op f s).2.2 := after_indirectBranch h f hs
    obtain ⟨f', s', hret, hafter⟩ := branchLoop_returns
      ((indirectBranch cb op f s).1 ++ rest) (indirectBranch cb op f s).2.1
      (indirectBranch cb op f s).2.2 hstep.ready (hstep.left_le.trans_lt hlt)
    exact ⟨f', s', .succ (fun _ _ => rfl) hret, hstep.trans hafter⟩
  | ⟨some bva, flags⟩ :: rest =>
    obtain ⟨f₁, s₁, hbranch, hstep⟩ := followBranch_returns h henter flags bva f hs hlt
    obtain ⟨f', s', hret, hafter⟩ := branchLoop_returns rest f₁ s₁ hstep.ready
      (hstep.left_le.trans_lt hlt)
    exact ⟨f', s', .succ (fun _ _ => rfl) (hbranch.bind hret), hstep.trans hafter⟩
termination_by (branches.countP (·.target.isNone), branches.length)
decreasing_by
  · rw [List.countP_append, countP_indirectBranch, Nat.zero_add]
    exact Prod.Lex.left _ _ (by simp)
  · simpa using Prod.Lex.right _ (Nat.lt_succ_self _)

/-- The loop over the stack of addresses. A flow that passes no address defers no call. -/
theorem flowLoop_returns (f : Flow ι) (s : CodeFlowContext σ) (hs : Ready passed s)
    (hle : left passed s ≤ u) : ∃ f' s',
      Returns cb (fun enter fuel => flowLoop cb enter startva fuel f s) (f', s') ∧
        After passed s s' ∧ (passed s'.ext = passed s.ext →
          s'.blockedRecursion = s.blockedRecursion ∧
            f'.recursionTargets = f.recursionTargets) := by
  match htodo : f.optodo with
  | [] =>
    refine ⟨f, s, .of_succ fun _ _ => ?_, .refl hs, fun _ => ⟨rfl, rfl⟩⟩
    rw [flowLoop, htodo]
  | cur :: optodo =>
    by_cases hmany : kMaxInsnsPerFunction ≤ f.flowInsns.length
    · refine ⟨f, s, .of_succ fun _ _ => ?_, .refl hs, fun _ => ⟨rfl, rfl⟩⟩
      rw [flowLoop, htodo]
      exact if_pos hmany
    by_cases hvisited : cur ∈ f.visited
    · obtain ⟨f', s', hret, hafter, hsame⟩ := flowLoop_returns { f with optodo } s hs hle
      refine ⟨f', s', .succ (fun _ _ => ?_) hret, hafter, hsame⟩
      rw [flowLoop, htodo]
      exact (if_neg hmany).trans (if_pos hvisited)
    let f₁ : Flow ι := { f with optodo, visited := cur :: f.visited }
    have hdefined : After passed s { s with ext := (cb.isDefined cur s.ext).2 } :=
      .of_extends hs (h.keeps.isDefined cur s.ext) rfl rfl rfl
    have hpassed : passed (cb.isDefined cur s.ext).2 = passed s.ext := h.isDefined cur s.ext
    by_cases hknown : (cb.isDefined cur s.ext).1 = true ∨ f₁.inJtData cur = true
    · obtain ⟨f', s', hret, hafter, hsame⟩ := flowLoop_returns f₁
        { s with ext := (cb.isDefined cur s.ext).2 } hdefined.ready (hdefined.left_le.trans hle)
      refine ⟨f', s', .succ (fun _ _ => ?_) hret, hdefined.trans hafter, fun heq =>
        hsame (heq.trans hpassed.symm)⟩
      rw [flowLoop, htodo]
      refine (if_neg hmany).trans ((if_neg hvisited).trans ?_)
      dsimp only
      split_ifs with hd hj
      · rfl
      · rfl
      · exact absurd hknown (not_or.mpr ⟨hd, hj⟩)
    rw [not_or] at hknown
    have hread : After passed s
        { s with ext := (cb.read cur (cb.isDefined cur s.ext).2).2 } := by
      refine .of_extends hs (extends_of_eq ?_) rfl rfl rfl
      exact (h.read cur _).trans hpassed
    have hpassed' : passed (cb.read cur (cb.isDefined cur s.ext).2).2 = passed s.ext :=
      (h.read cur _).trans hpassed
    match hop : (cb.read cur (cb.isDefined cur s.ext).2).1 with
    | none =>
      obtain ⟨f', s', hret, hafter, hsame⟩ := flowLoop_returns f₁
        { s with ext := (cb.read cur (cb.isDefined cur s.ext).2).2 } hread.ready
        (hread.left_le.trans hle)
      refine ⟨f', s', .succ (fun _ _ => ?_) hret, hread.trans hafter, fun heq =>
        hsame (heq.trans hpassed'.symm)⟩
      rw [flowLoop, htodo]
      refine (if_neg hmany).trans ((if_neg hvisited).trans ((if_neg hknown.1).trans
        ((if_neg hknown.2).trans ?_)))
      dsimp only
      rw [hop]
    | some op =>
      let f₂ : Flow ι := { f₁ with flowInsns := (cur, op) :: f₁.flowInsns }
      let s₂ : CodeFlowContext σ := { s with
        ext := cb.onOpcode cur op (getBranches op) (cb.read cur (cb.isDefined cur s.ext).2).2 }
      have hopcode : After passed s s₂ := .of_extends hs
        (h.keeps.onOpcode cur s.ext op (Bool.eq_false_iff.mpr hknown.1) hop) rfl rfl rfl
      have hcons : passed s₂.ext = cur :: passed s.ext :=
        (h.onOpcode cur op _ _).trans (congrArg (cur :: ·) hpassed')
      have hlt₂ : left passed s₂ < left passed s := hopcode.eq_or_left_lt.resolve_left
        fun heq => List.cons_ne_self _ _ (hcons.symm.trans heq)
      obtain ⟨f₃, s₃, hbranches, hafter₃⟩ := branchLoop_returns h henter (getBranches op).reverse
        f₂ s₂ hopcode.ready (hlt₂.trans_le hle)
      have hlt₃ : left passed s₃ < left passed s := hafter₃.left_le.trans_lt hlt₂
      obtain ⟨f', s', hret, hafter, -⟩ := flowLoop_returns f₃ s₃ hafter₃.ready (hlt₃.le.trans hle)
      have hend : After passed s s' := hopcode.trans (hafter₃.trans hafter)
      refine ⟨f', s', .succ (fun _ _ => ?_) (hbranches.bind
        (k := fun r enter fuel => flowLoop cb enter startva fuel r.1 r.2) hret), hend,
        fun heq => ?_⟩
      · rw [flowLoop, htodo]
        refine (if_neg hmany).trans ((if_neg hvisited).trans ((if_neg hknown.1).trans
          ((if_neg hknown.2).trans ?_)))
        dsimp only
        rw [hop]
        rfl
      · have hlonger := (hafter₃.trans hafter).suffix.length_le
        rw [heq, hcons, List.length_cons] at hlonger
        exact absurd hlonger (Nat.not_succ_le_self _)
termination_by (left passed s, f.optodo.length)
decreasing_by
  · rw [htodo]
    exact Prod.Lex.right _ (Nat.lt_succ_self _)
  · rw [htodo]
    have heq : left passed { s with ext := (cb.isDefined cur s.ext).2 } = left passed s :=
      congrArg (2 ^ 64 - List.length ·) hpassed
    rw [heq]
    exact Prod.Lex.right _ (Nat.lt_succ_self _)
  · rw [htodo]
    have heq : left passed { s with ext := (cb.read cur (cb.isDefined cur s.ext).2).2 } =
        left passed s := congrArg (2 ^ 64 - List.length ·) hpassed'
    rw [heq]
    exact Prod.Lex.right _ (Nat.lt_succ_self _)
  · exact Prod.Lex.left _ _ hlt₃

omit h in
/-- The calls that a flow deferred. A flow that passed no address deferred none. -/
theorem drainTargets_returns (targets : List VA) (s : CodeFlowContext σ) (hs : Ready passed s)
    (hdepth : s.cfBlocks.length < kMaxDescentDepth) (hlt : targets = [] ∨ left passed s < u) :
    ∃ s', Returns cb (fun enter _ => drainTargets enter targets s) s' ∧ After passed s s' ∧
      (targets = [] → s' = s) := by
  induction targets generalizing s with
  | nil => exact ⟨s, .of_eq fun _ _ => rfl, .refl hs, fun _ => rfl⟩
  | cons fva targets ih =>
    replace hlt : left passed s < u := hlt.resolve_left (List.cons_ne_nil _ _)
    by_cases hactive : fva ∈ s.cfBlocks
    · have hstep : After passed s
          { s with blockedRecursion := pushUnique s.blockedRecursion fva } :=
        ⟨⟨hs.nodup, hs.functions_le, nodup_pushUnique hs.blocked_nodup⟩, List.suffix_refl _, rfl⟩
      obtain ⟨s', hret, hafter, -⟩ := ih { s with
        blockedRecursion := pushUnique s.blockedRecursion fva } hstep.ready hdepth (.inr hlt)
      exact ⟨s', .congr (fun _ _ => if_pos hactive) hret, hstep.trans hafter, nofun⟩
    by_cases hreported : fva ∈ s.reported
    · obtain ⟨s', hret, hafter, -⟩ := ih s hs hdepth (.inr hlt)
      exact ⟨s', .congr (fun _ _ => (if_neg hactive).trans (if_pos hreported)) hret, hafter, nofun⟩
    · obtain ⟨s₁, hcall, hstep, -⟩ := henter fva s hs hdepth hlt
      obtain ⟨s', hret, hafter, -⟩ := ih s₁ hstep.ready (hstep.cfBlocks ▸ hdepth)
        (.inr (hstep.left_le.trans_lt hlt))
      refine ⟨s', .congr (fun _ _ => (if_neg hactive).trans (if_neg hreported)) ?_,
        hstep.trans hafter, nofun⟩
      exact hcall.bind (k := fun s enter _ => drainTargets enter targets s) hret

omit henter h in
/-- The blocked functions. Each is taken from the blocked ones before it is entered, and entering it
blocks no other one or passes an address. -/
theorem drainBlocked_returns {blocked : List VA}
    (henter : ∀ va s, Ready passed s → s.cfBlocks.length < kMaxDescentDepth →
      left passed s < u ∨ (left passed s ≤ u ∧ s.blockedRecursion.length < blocked.length) →
        Terminates cb passed va s)
    (snapshot stillBlocked : List VA) (s : CodeFlowContext σ) (hs : Ready passed s)
    (hdepth : s.cfBlocks.length < kMaxDescentDepth) (hnodup : (stillBlocked ++ snapshot).Nodup)
    (hlt : left passed s < u ∨
      (left passed s ≤ u ∧ s.blockedRecursion ⊆ blocked ∧ snapshot ⊆ blocked)) :
    ∃ s', Returns cb (fun enter _ => drainBlocked enter snapshot stillBlocked s) s' ∧
      After passed s s' ∧ s'.blockedRecursion ⊆ stillBlocked ++ snapshot := by
  induction snapshot generalizing stillBlocked s with
  | nil =>
    rw [List.append_nil] at hnodup ⊢
    exact ⟨{ s with blockedRecursion := stillBlocked }, .of_eq fun _ _ => rfl,
      ⟨⟨hs.nodup, hs.functions_le, hnodup⟩, List.suffix_refl _, rfl⟩, List.Subset.refl _⟩
  | cons fva snapshot ih =>
    by_cases hagain : fva ∉ s.cfBlocks ∧ fva ∉ s.reported
    · let s₁ : CodeFlowContext σ := { s with
        functions := s.functions.erase fva, blockedRecursion := s.blockedRecursion.erase fva }
      have hs₁ : Ready passed s₁ := ⟨hs.nodup, List.length_erase_le.trans hs.functions_le,
        hs.blocked_nodup.erase fva⟩
      have hfewer : left passed s₁ < u ∨
          (left passed s₁ ≤ u ∧ s₁.blockedRecursion.length < blocked.length) := by
        refine hlt.imp_right fun ⟨hle, hsub, hsnapshot⟩ => ⟨hle, ?_⟩
        have hcons : (fva :: s.blockedRecursion.erase fva) ⊆ blocked :=
          List.cons_subset.mpr
            ⟨hsnapshot List.mem_cons_self, List.Subset.trans List.erase_subset hsub⟩
        exact (List.subperm_of_subset
          (List.nodup_cons.mpr ⟨hs.blocked_nodup.not_mem_erase, hs.blocked_nodup.erase fva⟩)
          hcons).length_le
      obtain ⟨s₂, hcall, hstep, hshrinks⟩ := henter fva s₁ hs₁ hdepth hfewer
      have hrest : left passed s₂ < u ∨
          (left passed s₂ ≤ u ∧ s₂.blockedRecursion ⊆ blocked ∧ snapshot ⊆ blocked) := by
        rcases hlt with hlt | ⟨hle, hsub, hsnapshot⟩
        · exact .inl (hstep.left_le.trans_lt hlt)
        · refine hstep.eq_or_left_lt.symm.imp (·.trans_le hle) fun heq => ⟨hstep.left_le.trans hle,
            ?_, (List.cons_subset.mp hsnapshot).2⟩
          exact List.Subset.trans (hshrinks heq) (List.Subset.trans List.erase_subset hsub)
      have hnodup' : (stillBlocked ++ snapshot).Nodup :=
        hnodup.sublist ((List.sublist_cons_self _ _).append_left _)
      obtain ⟨s', hret, hafter, hsub⟩ := ih stillBlocked s₂ hstep.ready (hstep.cfBlocks ▸ hdepth)
        hnodup' hrest
      have herase : After passed s s₁ := ⟨hs₁, List.suffix_refl _, rfl⟩
      refine ⟨s', .congr (fun _ _ => if_pos hagain) (hcall.bind
        (k := fun s enter _ => drainBlocked enter snapshot stillBlocked s) hret),
        herase.trans (hstep.trans hafter), List.Subset.trans hsub ?_⟩
      exact ((List.sublist_cons_self _ _).append_left _).subset
    · have hassoc : stillBlocked ++ [fva] ++ snapshot = stillBlocked ++ fva :: snapshot := by simp
      obtain ⟨s', hret, hafter, hsub⟩ := ih (stillBlocked ++ [fva]) s hs hdepth (hassoc ▸ hnodup)
        (hlt.imp_right fun ⟨hle, hsub, hsnapshot⟩ => ⟨hle, hsub, (List.cons_subset.mp hsnapshot).2⟩)
      exact ⟨s', .congr (fun _ _ => if_neg hagain) hret, hafter, hassoc ▸ hsub⟩

end Flow

/-! ### Entry points -/

theorem after_reportFunction (h : Records cb passed) (hs : Ready passed s) (va : VA) :
    After passed s (s.reportFunction cb va) := by
  have hext := h.keeps.reportFunction va s
  refine .of_extends hs hext ?_ ?_ ?_
  all_goals
    unfold reportFunction
    dsimp only
    split
    · rfl
    · simp only [reportFreed_foldl, fire]

theorem blockedRecursion_reportFunction (va : VA) :
    (s.reportFunction cb va).blockedRecursion = s.blockedRecursion := by
  unfold reportFunction
  dsimp only
  split
  · rfl
  · simp only [reportFreed_foldl, fire]

/-- The flow of one function, from the calls that leave fewer addresses and those that leave as many
and fewer blocked functions. -/
theorem addCodeFlow_returns (h : Records cb passed) (va : VA) (s : CodeFlowContext σ)
    (hs : Ready passed s) (hdepth : s.cfBlocks.length < kMaxDescentDepth)
    (henter : ∀ va s', Ready passed s' → s'.cfBlocks.length < kMaxDescentDepth →
      left passed s' < left passed s ∨ (left passed s' ≤ left passed s ∧
        s'.blockedRecursion.length < s.blockedRecursion.length) → Terminates cb passed va s') :
    ∃ s', Returns cb (fun enter fuel => addCodeFlow cb enter fuel va s) s' ∧
      After passed s s' ∧ Shrinks passed s s' := by
  have henter' : ∀ va s', Ready passed s' → s'.cfBlocks.length < kMaxDescentDepth →
      left passed s' < left passed s → Terminates cb passed va s' :=
    fun va s' hs' hdepth' hlt => henter va s' hs' hdepth' (.inl hlt)
  obtain ⟨f, s₁, hflow, hafter₁, hsame₁⟩ := flowLoop_returns h henter'
    { optodo := [va] } { s with cfBlocks := va :: s.cfBlocks }
    ⟨hs.nodup, hs.functions_le, hs.blocked_nodup⟩ le_rfl
  have hpop : After passed s { s₁ with cfBlocks := s₁.cfBlocks.tail } := by
    refine ⟨⟨hafter₁.ready.nodup, hafter₁.ready.functions_le, hafter₁.ready.blocked_nodup⟩,
      hafter₁.suffix, ?_⟩
    rw [hafter₁.cfBlocks]
    rfl
  have htargets : f.recursionTargets = [] ∨
      left passed { s₁ with cfBlocks := s₁.cfBlocks.tail } < left passed s :=
    hpop.eq_or_left_lt.imp_left fun heq => (hsame₁ heq).2
  obtain ⟨s₂, hdrain, hafter₂, hsame₂⟩ := drainTargets_returns henter' f.recursionTargets
    { s₁ with cfBlocks := s₁.cfBlocks.tail } hpop.ready (hpop.cfBlocks ▸ hdepth) htargets
  have hafter : After passed s s₂ := hpop.trans hafter₂
  have hblocked : passed s₂.ext = passed s.ext → s₂.blockedRecursion = s.blockedRecursion := by
    intro heq
    have heq₁ : passed s₁.ext = passed s.ext := (hafter₂.suffix.eq_of_length_le
      (heq ▸ hafter₁.suffix.length_le)).trans heq
    rw [hsame₂ (hsame₁ heq₁).2]
    exact (hsame₁ heq₁).1
  obtain ⟨s₃, hagain, hafter₃, hsub⟩ := drainBlocked_returns henter s₂.blockedRecursion [] s₂
    hafter.ready (hafter.cfBlocks ▸ hdepth) hafter.ready.blocked_nodup (by
      rcases hafter.eq_or_left_lt with heq | hlt
      · refine .inr ⟨hafter.left_le, ?_, ?_⟩ <;> exact (hblocked heq) ▸ List.Subset.refl _
      · exact .inl hlt)
  refine ⟨s₃, ?_, hafter.trans hafter₃, fun heq => ?_⟩
  · exact hflow.bind (k := fun r enter _ => (drainTargets enter r.1.recursionTargets
      { r.2 with cfBlocks := r.2.cfBlocks.tail }).bind fun s =>
        drainBlocked enter s.blockedRecursion [] s)
      (hdrain.bind (k := fun s enter _ => drainBlocked enter s.blockedRecursion [] s) hagain)
  · have heq₂ : passed s₂.ext = passed s.ext := (hafter₃.suffix.eq_of_length_le
      (heq ▸ hafter.suffix.length_le)).trans heq
    exact (hblocked heq₂) ▸ hsub

/-- A call returns. The addresses left to pass descend, or else the blocked functions. -/
theorem addEntryPoint_terminates (h : Records cb passed) (va : VA) (s : CodeFlowContext σ)
    (hs : Ready passed s) (hdepth : s.cfBlocks.length < kMaxDescentDepth) :
    Terminates cb passed va s := by
  suffices hentry : ∃ s', Returns cb (fun enter fuel => entryPoint (addCodeFlow cb enter fuel) cb
      va s) s' ∧ After passed s s' ∧ Shrinks passed s s' by
    obtain ⟨s', hret, hafter, hshrinks⟩ := hentry
    refine ⟨s', fun call hcall => ?_, hafter, hshrinks⟩
    obtain ⟨fuel₀, hret⟩ := hret call hcall
    refine ⟨fuel₀ + 1, fun n hn _ _ => ?_⟩
    obtain ⟨n, rfl⟩ := Nat.exists_eq_add_of_le' (Nat.le_trans (Nat.le_add_left 1 fuel₀) hn)
    have hn := Nat.le_of_succ_le_succ hn
    exact (hcall n va s hdepth hs.functions_le).trans (hret n hn n hn)
  by_cases hfull : kMaxFunctionsPerImage ≤ s.functions.length
  · exact ⟨s, .of_eq fun _ _ => if_pos hfull, .refl hs, fun _ => List.Subset.refl _⟩
  by_cases hmem : va ∈ s.functions
  · exact ⟨s, .of_eq fun _ _ => (if_neg hfull).trans (if_pos hmem), .refl hs,
      fun _ => List.Subset.refl _⟩
  let s₀ : CodeFlowContext σ :=
    { s with functions := va :: s.functions, trace := .entered va :: s.trace }
  have henter : ∀ va s', Ready passed s' → s'.cfBlocks.length < kMaxDescentDepth →
      left passed s' < left passed s₀ ∨ (left passed s' ≤ left passed s₀ ∧
        s'.blockedRecursion.length < s₀.blockedRecursion.length) → Terminates cb passed va s' :=
    fun va s' hs' hdepth' hlt => addEntryPoint_terminates h va s' hs' hdepth'
  obtain ⟨s₁, hflow, hafter, hshrinks⟩ := addCodeFlow_returns h va s₀
    ⟨hs.nodup, not_le.mp hfull, hs.blocked_nodup⟩ hdepth henter
  have hafter : After passed s s₁ := ⟨hafter.ready, hafter.suffix, hafter.cfBlocks⟩
  have hreport := after_reportFunction h hafter.ready va
  have hentry (enter fuel) : entryPoint (addCodeFlow cb enter fuel) cb va s =
      (addCodeFlow cb enter fuel va s₀).bind fun s =>
        if s.waitsOn va = none then some (s.reportFunction cb va) else some (s.hold va) :=
    (if_neg hfull).trans (if_neg hmem)
  refine ⟨if s₁.waitsOn va = none then s₁.reportFunction cb va else s₁.hold va,
    .congr hentry (hflow.bind (.of_eq fun _ _ => (apply_ite some _ _ _).symm)), ?_, ?_⟩
  · split_ifs
    · exact hafter.trans hreport
    · exact ⟨⟨hafter.ready.nodup, hafter.ready.functions_le, hafter.ready.blocked_nodup⟩,
        hafter.suffix, hafter.cfBlocks⟩
  · split_ifs
    · intro heq
      rw [blockedRecursion_reportFunction]
      exact hshrinks ((hreport.suffix.eq_of_length_le (heq ▸ hafter.suffix.length_le)).trans heq)
    · exact hshrinks
termination_by (left passed s, s.blockedRecursion.length)
decreasing_by
  rcases hlt with hlt | ⟨hle, hlt⟩
  · exact Prod.Lex.left _ _ hlt
  · rcases Nat.lt_or_eq_of_le hle with hlt' | heq
    · exact Prod.Lex.left _ _ hlt'
    · exact (heq : left passed s' = left passed s) ▸ Prod.Lex.right _ hlt

/-- The context between outermost calls. -/
theorem Runs.ready (h : Records cb passed) {ext : σ} (hext : passed ext = []) {vas : List VA}
    (hrun : Runs cb ext vas s) : Ready passed s ∧ s.cfBlocks = [] := by
  induction hrun with
  | nil => exact ⟨⟨hext ▸ List.nodup_nil, Nat.zero_le _, List.nodup_nil⟩, rfl⟩
  | @call vas s s' fuel va hrun hcall ih =>
    obtain ⟨hready, hpath⟩ := ih
    obtain ⟨s₁, hret, hafter, -⟩ := addEntryPoint_terminates h va s hready
      (hpath ▸ Nat.zero_lt_succ _)
    obtain ⟨fuel₀, hret⟩ := hret _ (unfolds_addEntryPoint cb)
    have hmore := addEntryPoint_mono (le_max_left fuel fuel₀) hcall
    obtain rfl := Option.some.inj (hmore.symm.trans
      (hret (max fuel fuel₀) (le_max_right _ _) fuel₀ le_rfl))
    exact ⟨hafter.ready, hafter.cfBlocks.trans hpath⟩

/-- **Every call of a context returns**, and so does its copy that watches the limits: no flow
decodes more instructions than its limit, the active path grows to its limit at most and so does the
set of functions. No address is passed to `on_opcode` twice by the calls of a context. -/
theorem addEntryPoint_returns (h : Records cb passed) {ext : σ} (hext : passed ext = [])
    {vas : List VA} (hrun : Runs cb ext vas s) (va : VA) :
    ∃ s', (∃ fuel₀, ∀ fuel ≥ fuel₀, addEntryPoint cb fuel va s = some s' ∧
        addEntryPointWatched cb fuel va s = some s') ∧
      (passed s'.ext).Nodup ∧ s'.functions.length ≤ kMaxFunctionsPerImage := by
  obtain ⟨hready, hpath⟩ := hrun.ready h hext
  obtain ⟨s', hret, hafter, -⟩ := addEntryPoint_terminates h va s hready
      (hpath ▸ Nat.zero_lt_succ _)
  obtain ⟨fuel₁, hcall⟩ := hret _ (unfolds_addEntryPoint cb)
  obtain ⟨fuel₂, hwatched⟩ := hret _ (unfolds_addEntryPointWatched cb)
  refine ⟨s', ⟨max fuel₁ fuel₂, fun fuel hfuel => ⟨?_, ?_⟩⟩, hafter.ready.nodup,
    hafter.ready.functions_le⟩
  · exact hcall fuel (le_of_max_le_left hfuel) fuel₁ le_rfl
  · exact hwatched fuel (le_of_max_le_right hfuel) fuel₂ le_rfl

theorem records_chainCallbacks : Records chainCallbacks id :=
  ⟨fun _ _ _ _ => rfl, fun _ _ => rfl, fun _ _ => rfl, fun _ _ => rfl, fun _ _ => rfl,
    fun _ _ => rfl, fun _ _ => rfl, fun _ _ _ => rfl, fun _ _ => decide_eq_true⟩

theorem addEntryPoint_returns_chain :
    ∃ s', (∃ fuel₀, ∀ fuel ≥ fuel₀,
        addEntryPoint chainCallbacks fuel 0x1000 { ext := [] } = some s' ∧
        addEntryPointWatched chainCallbacks fuel 0x1000 { ext := [] } = some s') ∧
      s'.ext.Nodup ∧ s'.functions.length ≤ kMaxFunctionsPerImage :=
  addEntryPoint_returns records_chainCallbacks rfl .nil 0x1000

end CodeFlowContext

end Papa.Viv
