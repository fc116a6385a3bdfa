import Papa.Viv.CfCallbacks

/-!
# Contexts over callbacks that simulate one another

A context sees of its callbacks only what they answer. So callbacks with another state, which answer
the same from related states and lead to related states, take a context through the same functions,
flows and reports.

## Main definitions

* `CodeFlowContext.withExt`: a context over another state of the callbacks.
* `CodeFlowContext.Simulates`: callbacks that answer the same from related states.

## Main results

* `CodeFlowContext.Simulates.addEntryPoint`.
-/

namespace Papa.Viv

namespace CodeFlowContext

variable {σ τ ι : Type}

/-- The context over another state of the callbacks. -/
def withExt (s : CodeFlowContext σ) (y : τ) : CodeFlowContext τ where
  noflow := s.noflow
  functions := s.functions
  reported := s.reported
  cfBlocks := s.cfBlocks
  waitsOn := s.waitsOn
  awaitedBy := s.awaitedBy
  reportHeld := s.reportHeld
  blockedRecursion := s.blockedRecursion
  ext := y
  trace := s.trace

/-- Callbacks that answer the same from related states, and lead to related states. An instruction
is passed only where it was read after `is_defined` denied its address. -/
structure Simulates (cb : Callbacks σ ι) (cb' : Callbacks τ ι) (R : σ → τ → Prop) : Prop where
  read : ∀ va x y, R x y →
    (cb'.read va y).1 = (cb.read va x).1 ∧ R (cb.read va x).2 (cb'.read va y).2
  isExec : ∀ va x y, R x y →
    (cb'.isExec va y).1 = (cb.isExec va x).1 ∧ R (cb.isExec va x).2 (cb'.isExec va y).2
  isDefined : ∀ va x y, R x y →
    (cb'.isDefined va y).1 = (cb.isDefined va x).1 ∧ R (cb.isDefined va x).2 (cb'.isDefined va y).2
  onFunction : ∀ va x y, R x y → R (cb.onFunction va x) (cb'.onFunction va y)
  resolveJt : ∀ window x y, R x y → (cb'.resolveJt window y).1 = (cb.resolveJt window x).1 ∧
    R (cb.resolveJt window x).2 (cb'.resolveJt window y).2
  isNoReturnCall : ∀ op x y, R x y → (cb'.isNoReturnCall op y).1 = (cb.isNoReturnCall op x).1 ∧
    R (cb.isNoReturnCall op x).2 (cb'.isNoReturnCall op y).2
  onBranchTable : ∀ fromVa caseVa x y, R x y →
    R (cb.onBranchTable fromVa caseVa x) (cb'.onBranchTable fromVa caseVa y)
  onOpcode : ∀ va x y op, R x y → (cb.isDefined va x).1 = false →
    (cb.read va (cb.isDefined va x).2).1 = some op →
    R (cb.onOpcode va op (getBranches op) (cb.read va (cb.isDefined va x).2).2)
      (cb'.onOpcode va op (getBranches op) (cb'.read va (cb'.isDefined va y).2).2)

variable {cb : Callbacks σ ι} {cb' : Callbacks τ ι} {R : σ → τ → Prop}
  {enter : VA → CodeFlowContext σ → Option (CodeFlowContext σ)}
  {enter' : VA → CodeFlowContext τ → Option (CodeFlowContext τ)} {startva cur : VA}
  {op : DecodedInsn ι} {f f' : Flow ι} {s s' : CodeFlowContext σ} {y : τ}

theorem reportFunction_of_none {va : VA} (h : s.awaitedBy va = none) :
    s.reportFunction cb va = s.fire cb va := by
  simp only [reportFunction, fire, h]

theorem reportFunction_of_some {va : VA} {waiters : List VA} (h : s.awaitedBy va = some waiters) :
    s.reportFunction cb va = (waiters.foldl (releaseWaiter va) (s.waitsOn, [])).2.foldl
      (reportFreed cb) { s.fire cb va with
        waitsOn := (waiters.foldl (releaseWaiter va) (s.waitsOn, [])).1
        awaitedBy := Function.update s.awaitedBy va none } := by
  simp only [reportFunction, fire, h]

namespace Simulates

variable (h : Simulates cb cb' R)

include h

theorem foldl (fromVa : VA) (l : List VA) {x : σ} (hxy : R x y) :
    R (l.foldl (fun ext va => cb.onBranchTable fromVa va ext) x)
      (l.foldl (fun ext va => cb'.onBranchTable fromVa va ext) y) := by
  induction l generalizing x y with
  | nil => exact hxy
  | cons va l ih => exact ih (h.onBranchTable fromVa va x y hxy)

theorem reportFreed_foldl (freed : List VA) {s : CodeFlowContext σ} (hs : R s.ext y) :
    ∃ y', R (freed.foldl (reportFreed cb) s).ext y' ∧
      freed.foldl (reportFreed cb') (s.withExt y) =
        (freed.foldl (reportFreed cb) s).withExt y' := by
  induction freed generalizing s y with
  | nil => exact ⟨y, hs, rfl⟩
  | cons waiter freed ih =>
    have hfree : R (reportFreed cb s waiter).ext (cb'.onFunction waiter y) :=
      h.onFunction waiter s.ext y hs
    exact ih hfree

theorem reportFunction (va : VA) {s : CodeFlowContext σ} (hs : R s.ext y) :
    ∃ y', R (s.reportFunction cb va).ext y' ∧
      (s.withExt y).reportFunction cb' va = (s.reportFunction cb va).withExt y' := by
  have hfire : R (s.fire cb va).ext (cb'.onFunction va y) := h.onFunction va s.ext y hs
  cases hwaiters : s.awaitedBy va with
  | none =>
    rw [reportFunction_of_none hwaiters, reportFunction_of_none (s := s.withExt y) hwaiters]
    exact ⟨_, hfire, rfl⟩
  | some waiters =>
    rw [reportFunction_of_some hwaiters, reportFunction_of_some (s := s.withExt y) hwaiters]
    exact h.reportFreed_foldl _ (s := { s.fire cb va with
      waitsOn := (waiters.foldl (releaseWaiter va) (s.waitsOn, [])).1
      awaitedBy := Function.update s.awaitedBy va none }) hfire

theorem indirectBranch {s : CodeFlowContext σ} (hs : R s.ext y) :
    ∃ y', R (indirectBranch cb op f s).2.2.ext y' ∧
      CodeFlowContext.indirectBranch cb' op f (s.withExt y) =
        ((indirectBranch cb op f s).1, (indirectBranch cb op f s).2.1,
          (indirectBranch cb op f s).2.2.withExt y') := by
  unfold CodeFlowContext.indirectBranch
  split_ifs
  · obtain ⟨hanswer, hnext⟩ := h.resolveJt (f.windowEndingAt op) s.ext y hs
    have hanswer : (cb'.resolveJt (f.windowEndingAt op) (s.withExt y).ext).1 =
        (cb.resolveJt (f.windowEndingAt op) s.ext).1 := hanswer
    cases hjt : (cb.resolveJt (f.windowEndingAt op) s.ext).1 with
    | none =>
      simp only [hanswer, hjt]
      exact ⟨_, hnext, rfl⟩
    | some jt =>
      simp only [hanswer, hjt]
      exact ⟨_, h.foldl op.va jt.targets hnext, rfl⟩
  · exact ⟨y, hs, rfl⟩

section Enter

variable (henter : ∀ va s s' y, R s.ext y → enter va s = some s' →
  ∃ y', R s'.ext y' ∧ enter' va (s.withExt y) = some (s'.withExt y'))

include henter

omit h in
theorem descend {bva : VA} (hs : R s.ext y) (hrun : descend enter bva f s = some (f', s')) :
    ∃ y', R s'.ext y' ∧
      CodeFlowContext.descend enter' bva f (s.withExt y) = some (f', s'.withExt y') := by
  unfold CodeFlowContext.descend at hrun ⊢
  have hblocks : (s.withExt y).cfBlocks = s.cfBlocks := rfl
  rw [hblocks]
  split_ifs at hrun ⊢ with hactive hdepth
  · obtain ⟨rfl, rfl⟩ := Prod.mk.inj (Option.some.inj hrun)
    exact ⟨y, hs, rfl⟩
  · obtain ⟨v, hv, hg⟩ := Option.map_eq_some_iff.mp hrun
    obtain ⟨rfl, rfl⟩ := Prod.mk.inj hg
    obtain ⟨y', hy', hv'⟩ := henter _ _ _ y hs hv
    exact ⟨y', hy', Option.map_eq_some_iff.mpr ⟨_, hv', rfl⟩⟩
  · obtain ⟨rfl, rfl⟩ := Prod.mk.inj (Option.some.inj hrun)
    exact ⟨y, hs, rfl⟩

theorem followCall {bva : VA} (hs : R s.ext y)
    (hrun : followCall cb enter cur op bva f s = some (f', s')) :
    ∃ y', R s'.ext y' ∧
      CodeFlowContext.followCall cb' enter' cur op bva f (s.withExt y) =
        some (f', s'.withExt y') := by
  by_cases hnext : bva = cur + op.length
  · rw [CodeFlowContext.followCall, if_pos hnext] at hrun ⊢
    obtain ⟨rfl, rfl⟩ := Prod.mk.inj (Option.some.inj hrun)
    exact ⟨y, hs, rfl⟩
  · rw [CodeFlowContext.followCall, if_neg hnext] at hrun ⊢
    obtain ⟨⟨g, u⟩, hdescend, hrest⟩ := Option.bind_eq_some_iff.mp hrun
    obtain ⟨rfl, rfl⟩ := Prod.mk.inj (Option.some.inj hrest)
    obtain ⟨z, hz, hdescend'⟩ := descend henter hs hdescend
    obtain ⟨hanswer, hnext⟩ := h.isNoReturnCall op u.ext z hz
    refine ⟨_, hnext, Option.bind_eq_some_iff.mpr ⟨_, hdescend', ?_⟩⟩
    show some (g, _) = some (g, _)
    rw [show (cb'.isNoReturnCall op (u.withExt z).ext).1 = _ from hanswer]
    rfl

theorem followBranch {flags : UInt16} {bva : VA} (hs : R s.ext y)
    (hrun : followBranch cb enter startva cur op flags bva f s = some (f', s')) :
    ∃ y', R s'.ext y' ∧
      CodeFlowContext.followBranch cb' enter' startva cur op flags bva f (s.withExt y) =
        some (f', s'.withExt y') := by
  obtain ⟨hanswer, hexec⟩ := h.isExec bva s.ext y hs
  have hanswer : (cb'.isExec bva (s.withExt y).ext).1 = (cb.isExec bva s.ext).1 := hanswer
  unfold CodeFlowContext.followBranch at hrun ⊢
  dsimp only at hrun ⊢
  rw [hanswer, show (s.withExt y).noflow = s.noflow from rfl,
    show (s.withExt y).cfBlocks = s.cfBlocks from rfl]
  split_ifs at hrun ⊢
  · obtain ⟨rfl, rfl⟩ := Prod.mk.inj (Option.some.inj hrun)
    exact ⟨_, hexec, rfl⟩
  · obtain ⟨rfl, rfl⟩ := Prod.mk.inj (Option.some.inj hrun)
    exact ⟨_, hexec, rfl⟩
  · exact h.followCall henter (s := { s with ext := (cb.isExec bva s.ext).2 }) hexec hrun
  · obtain ⟨rfl, rfl⟩ := Prod.mk.inj (Option.some.inj hrun)
    exact ⟨_, hexec, rfl⟩
  · obtain ⟨rfl, rfl⟩ := Prod.mk.inj (Option.some.inj hrun)
    exact ⟨_, hexec, rfl⟩
  · obtain ⟨rfl, rfl⟩ := Prod.mk.inj (Option.some.inj hrun)
    exact ⟨_, hexec, rfl⟩

theorem branchLoop {fuel : ℕ} {branches : List CfBranch} (hs : R s.ext y)
    (hrun : branchLoop cb enter startva cur op fuel branches f s = some (f', s')) :
    ∃ y', R s'.ext y' ∧
      CodeFlowContext.branchLoop cb' enter' startva cur op fuel branches f (s.withExt y) =
        some (f', s'.withExt y') := by
  induction fuel generalizing branches f s y with
  | zero => exact absurd hrun (Option.some_ne_none _).symm
  | succ fuel ih =>
    rcases branches with _ | ⟨⟨_ | bva, flags⟩, branches⟩
    · obtain ⟨rfl, rfl⟩ := Prod.mk.inj (Option.some.inj hrun)
      exact ⟨y, hs, rfl⟩
    · obtain ⟨z, hz, hindirect⟩ := h.indirectBranch hs
      obtain ⟨y', hy', hrest⟩ := ih hz hrun
      refine ⟨y', hy', ?_⟩
      rw [CodeFlowContext.branchLoop]
      dsimp only
      rw [hindirect]
      exact hrest
    · obtain ⟨⟨g, u⟩, hbranch, hrest⟩ := Option.bind_eq_some_iff.mp hrun
      obtain ⟨z, hz, hbranch'⟩ := h.followBranch henter hs hbranch
      obtain ⟨y', hy', hrest'⟩ := ih hz hrest
      exact ⟨y', hy', Option.bind_eq_some_iff.mpr ⟨_, hbranch', hrest'⟩⟩

theorem flowLoop {fuel : ℕ} (hs : R s.ext y)
    (hrun : flowLoop cb enter startva fuel f s = some (f', s')) :
    ∃ y', R s'.ext y' ∧
      CodeFlowContext.flowLoop cb' enter' startva fuel f (s.withExt y) =
        some (f', s'.withExt y') := by
  induction fuel generalizing f s y with
  | zero => exact absurd hrun (Option.some_ne_none _).symm
  | succ fuel ih =>
    rw [CodeFlowContext.flowLoop] at hrun ⊢
    cases htodo : f.optodo with
    | nil =>
      simp only [htodo] at hrun ⊢
      obtain ⟨rfl, rfl⟩ := Prod.mk.inj (Option.some.inj hrun)
      exact ⟨y, hs, rfl⟩
    | cons cur optodo =>
      obtain ⟨hanswer, hdefined⟩ := h.isDefined cur s.ext y hs
      obtain ⟨hinsn, hread⟩ := h.read cur _ _ hdefined
      have hanswer : (cb'.isDefined cur (s.withExt y).ext).1 = (cb.isDefined cur s.ext).1 :=
        hanswer
      have hinsn : (cb'.read cur (cb'.isDefined cur (s.withExt y).ext).2).1 =
          (cb.read cur (cb.isDefined cur s.ext).2).1 := hinsn
      simp only [htodo, hanswer, hinsn] at hrun ⊢
      split_ifs at hrun ⊢ with hmany hvisited hisDefined htable
      · obtain ⟨rfl, rfl⟩ := Prod.mk.inj (Option.some.inj hrun)
        exact ⟨y, hs, rfl⟩
      · exact ih hs hrun
      · exact ih (s := { s with ext := (cb.isDefined cur s.ext).2 }) hdefined hrun
      · exact ih (s := { s with ext := (cb.isDefined cur s.ext).2 }) hdefined hrun
      · cases hop : (cb.read cur (cb.isDefined cur s.ext).2).1 with
        | none =>
          simp only [hop] at hrun ⊢
          exact ih (s := { s with ext := (cb.read cur (cb.isDefined cur s.ext).2).2 }) hread hrun
        | some op =>
          simp only [hop] at hrun ⊢
          obtain ⟨⟨g, u⟩, hbranches, hrest⟩ := Option.bind_eq_some_iff.mp hrun
          have hopcode := h.onOpcode cur s.ext y op hs (Bool.eq_false_iff.mpr hisDefined) hop
          obtain ⟨z, hz, hbranches'⟩ := h.branchLoop henter (s := { s with
            ext := cb.onOpcode cur op (getBranches op) (cb.read cur (cb.isDefined cur s.ext).2).2 })
            hopcode hbranches
          obtain ⟨y', hy', hrest'⟩ := ih hz hrest
          exact ⟨y', hy', Option.bind_eq_some_iff.mpr ⟨_, hbranches', hrest'⟩⟩

omit h in
theorem drainTargets {targets : List VA} (hs : R s.ext y)
    (hrun : drainTargets enter targets s = some s') :
    ∃ y', R s'.ext y' ∧
      CodeFlowContext.drainTargets enter' targets (s.withExt y) = some (s'.withExt y') := by
  induction targets generalizing s y with
  | nil =>
    obtain rfl := Option.some.inj hrun
    exact ⟨y, hs, rfl⟩
  | cons fva targets ih =>
    unfold CodeFlowContext.drainTargets at hrun ⊢
    rw [show (s.withExt y).cfBlocks = s.cfBlocks from rfl,
      show (s.withExt y).reported = s.reported from rfl]
    split_ifs at hrun ⊢
    · exact ih (s := { s with blockedRecursion := pushUnique s.blockedRecursion fva }) hs hrun
    · exact ih hs hrun
    · obtain ⟨u, hu, hrest⟩ := Option.bind_eq_some_iff.mp hrun
      obtain ⟨z, hz, hu'⟩ := henter _ _ _ y hs hu
      obtain ⟨y', hy', hrest'⟩ := ih hz hrest
      exact ⟨y', hy', Option.bind_eq_some_iff.mpr ⟨_, hu', hrest'⟩⟩

omit h in
theorem drainBlocked {snapshot stillBlocked : List VA} (hs : R s.ext y)
    (hrun : drainBlocked enter snapshot stillBlocked s = some s') :
    ∃ y', R s'.ext y' ∧
      CodeFlowContext.drainBlocked enter' snapshot stillBlocked (s.withExt y) =
        some (s'.withExt y') := by
  induction snapshot generalizing stillBlocked s y with
  | nil =>
    obtain rfl := Option.some.inj hrun
    exact ⟨y, hs, rfl⟩
  | cons fva snapshot ih =>
    unfold CodeFlowContext.drainBlocked at hrun ⊢
    rw [show (s.withExt y).cfBlocks = s.cfBlocks from rfl,
      show (s.withExt y).reported = s.reported from rfl]
    split_ifs at hrun ⊢
    · obtain ⟨u, hu, hrest⟩ := Option.bind_eq_some_iff.mp hrun
      obtain ⟨z, hz, hu'⟩ := henter _ { s with
        functions := s.functions.erase fva
        blockedRecursion := s.blockedRecursion.erase fva } _ y hs hu
      obtain ⟨y', hy', hrest'⟩ := ih hz hrest
      exact ⟨y', hy', Option.bind_eq_some_iff.mpr ⟨_, hu', hrest'⟩⟩
    · exact ih hs hrun

theorem addCodeFlow {fuel : ℕ} {va : VA} (hs : R s.ext y)
    (hrun : addCodeFlow cb enter fuel va s = some s') :
    ∃ y', R s'.ext y' ∧
      CodeFlowContext.addCodeFlow cb' enter' fuel va (s.withExt y) = some (s'.withExt y') := by
  obtain ⟨⟨f, u⟩, hflow, hrest⟩ := Option.bind_eq_some_iff.mp hrun
  obtain ⟨v, htargets, hblocked⟩ := Option.bind_eq_some_iff.mp hrest
  obtain ⟨z, hz, hflow'⟩ :=
    h.flowLoop henter (s := { s with cfBlocks := va :: s.cfBlocks }) hs hflow
  obtain ⟨w, hw, htargets'⟩ :=
    drainTargets henter (s := { u with cfBlocks := u.cfBlocks.tail }) hz htargets
  obtain ⟨y', hy', hblocked'⟩ := drainBlocked henter hw hblocked
  exact ⟨y', hy', Option.bind_eq_some_iff.mpr ⟨_, hflow', Option.bind_eq_some_iff.mpr
    ⟨_, htargets', hblocked'⟩⟩⟩

end Enter

theorem entryPoint {flow : VA → CodeFlowContext σ → Option (CodeFlowContext σ)}
    {flow' : VA → CodeFlowContext τ → Option (CodeFlowContext τ)} {va : VA}
    (hflow : ∀ s s' y, R s.ext y → flow va s = some s' →
      ∃ y', R s'.ext y' ∧ flow' va (s.withExt y) = some (s'.withExt y'))
    (hs : R s.ext y) (hrun : entryPoint flow cb va s = some s') :
    ∃ y', R s'.ext y' ∧
      CodeFlowContext.entryPoint flow' cb' va (s.withExt y) = some (s'.withExt y') := by
  unfold CodeFlowContext.entryPoint at hrun ⊢
  rw [show (s.withExt y).functions = s.functions from rfl]
  split_ifs at hrun ⊢
  · obtain rfl := Option.some.inj hrun
    exact ⟨y, hs, rfl⟩
  · obtain rfl := Option.some.inj hrun
    exact ⟨y, hs, rfl⟩
  · obtain ⟨u, hu, hend⟩ := Option.bind_eq_some_iff.mp hrun
    obtain ⟨z, hz, hu'⟩ := hflow { s with
      functions := va :: s.functions, trace := .entered va :: s.trace } _ y hs hu
    by_cases hwaits : u.waitsOn va = none
    · rw [if_pos hwaits] at hend
      obtain rfl := Option.some.inj hend
      obtain ⟨y', hy', hreport⟩ := h.reportFunction va hz
      refine ⟨y', hy', Option.bind_eq_some_iff.mpr ⟨_, hu', ?_⟩⟩
      exact (if_pos hwaits).trans (congrArg some hreport)
    · rw [if_neg hwaits] at hend
      obtain rfl := Option.some.inj hend
      exact ⟨z, hz, Option.bind_eq_some_iff.mpr ⟨_, hu', if_neg hwaits⟩⟩

/-- **A call of the context** takes related states to related ones, and does the same otherwise. -/
theorem addEntryPoint {fuel : ℕ} {va : VA} (hs : R s.ext y)
    (hrun : addEntryPoint cb fuel va s = some s') :
    ∃ y', R s'.ext y' ∧
      CodeFlowContext.addEntryPoint cb' fuel va (s.withExt y) = some (s'.withExt y') := by
  induction fuel generalizing va s s' y with
  | zero => exact absurd hrun (Option.some_ne_none _).symm
  | succ fuel ih =>
    refine h.entryPoint (fun s s' y hs hflow => ?_) hs hrun
    exact h.addCodeFlow (fun _ _ _ _ hs hrun => ih hs hrun) hs hflow

end Simulates

end CodeFlowContext

end Papa.Viv
