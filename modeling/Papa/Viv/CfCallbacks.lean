import Mathlib.Tactic.SplitIfs
import Papa.Viv.CfContext

/-!
# What the callbacks keep

The state of the callbacks changes only through them, and an instruction is passed to `on_opcode`
only after `is_defined` denied its address. So a relation that holds of the states before and after
every callback holds of the states before and after a call of the context.

## Main definitions

* `CodeFlowContext.Told`: what they are passed about the code.
* `CodeFlowContext.Keeps`: a relation that every callback respects.

## Main results

* `CodeFlowContext.Keeps.addEntryPoint`: a call of the context respects it.
-/

namespace Papa.Viv

namespace CodeFlowContext

deriving instance DecidableEq for DecodedInsn

/-- What the callbacks are passed: an instruction, or a case of a switch. -/
inductive Told (ι : Type)
  | opcode (va : VA) (op : DecodedInsn ι)
  | branchTable (fromVa caseVa : VA)
  deriving DecidableEq

variable {σ ι : Type} {cb : Callbacks σ ι} {Q : σ → σ → Prop}

/-- A relation on the states of the callbacks that each of them respects. -/
structure Keeps (cb : Callbacks σ ι) (Q : σ → σ → Prop) : Prop where
  refl : ∀ x, Q x x
  trans : ∀ {x y z}, Q x y → Q y z → Q x z
  read : ∀ va x, Q x (cb.read va x).2
  isExec : ∀ va x, Q x (cb.isExec va x).2
  isDefined : ∀ va x, Q x (cb.isDefined va x).2
  onFunction : ∀ va x, Q x (cb.onFunction va x)
  resolveJt : ∀ window x, Q x (cb.resolveJt window x).2
  isNoReturnCall : ∀ op x, Q x (cb.isNoReturnCall op x).2
  onBranchTable : ∀ fromVa caseVa x, Q x (cb.onBranchTable fromVa caseVa x)
  /-- An instruction that is read at an address that is not defined. -/
  onOpcode : ∀ va x op, (cb.isDefined va x).1 = false →
    (cb.read va (cb.isDefined va x).2).1 = some op →
    Q x (cb.onOpcode va op (getBranches op) (cb.read va (cb.isDefined va x).2).2)

variable {enter : VA → CodeFlowContext σ → Option (CodeFlowContext σ)} {startva cur : VA}
  {op : DecodedInsn ι} {f f' : Flow ι} {s s' : CodeFlowContext σ}

namespace Keeps

variable (h : Keeps cb Q)

include h

theorem foldl {α : Type} {step : σ → α → σ} (hstep : ∀ x a, Q x (step x a)) (l : List α) (x : σ) :
    Q x (l.foldl step x) := by
  induction l generalizing x with
  | nil => exact h.refl x
  | cons a l ih => exact h.trans (hstep x a) (ih _)

theorem reportFreed_foldl (freed : List VA) {s : CodeFlowContext σ} {x : σ} (hx : s.ext = x) :
    Q x (freed.foldl (reportFreed cb) s).ext := by
  subst hx
  induction freed generalizing s with
  | nil => exact h.refl _
  | cons waiter freed ih =>
    have hrest := ih (s := reportFreed cb s waiter)
    exact h.trans (h.onFunction waiter s.ext) hrest

theorem reportFunction (va : VA) (s : CodeFlowContext σ) :
    Q s.ext (s.reportFunction cb va).ext := by
  have hfire : Q s.ext (s.fire cb va).ext := h.onFunction va s.ext
  unfold CodeFlowContext.reportFunction
  dsimp only
  split
  · exact hfire
  · exact h.trans hfire (h.reportFreed_foldl _ rfl)

theorem indirectBranch (s : CodeFlowContext σ) :
    Q s.ext (indirectBranch cb op f s).2.2.ext := by
  unfold CodeFlowContext.indirectBranch
  split_ifs
  · have hresolve := h.resolveJt (f.windowEndingAt op) s.ext
    cases hjt : (cb.resolveJt (f.windowEndingAt op) s.ext).1 with
    | none =>
      simp only [hjt]
      exact hresolve
    | some jt =>
      simp only [hjt]
      exact h.trans hresolve (h.foldl (fun x va => h.onBranchTable op.va va x) jt.targets _)
  · exact h.refl _

section Enter

variable (henter : ∀ va s s', enter va s = some s' → Q s.ext s'.ext)

include henter

theorem descend {bva : VA} (hrun : descend enter bva f s = some (f', s')) : Q s.ext s'.ext := by
  unfold CodeFlowContext.descend at hrun
  split_ifs at hrun
  · obtain ⟨-, rfl⟩ := Prod.mk.inj (Option.some.inj hrun)
    exact h.refl _
  · obtain ⟨v, hv, hg⟩ := Option.map_eq_some_iff.mp hrun
    obtain ⟨-, rfl⟩ := Prod.mk.inj hg
    exact henter _ _ _ hv
  · obtain ⟨-, rfl⟩ := Prod.mk.inj (Option.some.inj hrun)
    exact h.refl _

theorem followCall {bva : VA} (hrun : followCall cb enter cur op bva f s = some (f', s')) :
    Q s.ext s'.ext := by
  by_cases hnext : bva = cur + op.length
  · rw [CodeFlowContext.followCall, if_pos hnext] at hrun
    obtain ⟨-, rfl⟩ := Prod.mk.inj (Option.some.inj hrun)
    exact h.refl _
  · rw [CodeFlowContext.followCall, if_neg hnext] at hrun
    obtain ⟨⟨g, u⟩, hdescend, hrest⟩ := Option.bind_eq_some_iff.mp hrun
    obtain ⟨-, rfl⟩ := Prod.mk.inj (Option.some.inj hrest)
    exact h.trans (h.descend henter hdescend) (h.isNoReturnCall op u.ext)

theorem followBranch {flags : UInt16} {bva : VA}
    (hrun : followBranch cb enter startva cur op flags bva f s = some (f', s')) :
    Q s.ext s'.ext := by
  have hexec := h.isExec bva s.ext
  unfold CodeFlowContext.followBranch at hrun
  dsimp only at hrun
  split_ifs at hrun
  · obtain ⟨-, rfl⟩ := Prod.mk.inj (Option.some.inj hrun)
    exact hexec
  · obtain ⟨-, rfl⟩ := Prod.mk.inj (Option.some.inj hrun)
    exact hexec
  · exact h.trans hexec (h.followCall henter hrun)
  · obtain ⟨-, rfl⟩ := Prod.mk.inj (Option.some.inj hrun)
    exact hexec
  · obtain ⟨-, rfl⟩ := Prod.mk.inj (Option.some.inj hrun)
    exact hexec
  · obtain ⟨-, rfl⟩ := Prod.mk.inj (Option.some.inj hrun)
    exact hexec

theorem branchLoop {fuel : ℕ} {branches : List CfBranch}
    (hrun : branchLoop cb enter startva cur op fuel branches f s = some (f', s')) :
    Q s.ext s'.ext := by
  induction fuel generalizing branches f s with
  | zero => exact nomatch hrun
  | succ fuel ih =>
    match branches with
    | [] =>
      obtain ⟨-, rfl⟩ := Prod.mk.inj (Option.some.inj hrun)
      exact h.refl _
    | ⟨none, flags⟩ :: branches => exact h.trans (h.indirectBranch s) (ih hrun)
    | ⟨some bva, flags⟩ :: branches =>
      obtain ⟨⟨g, u⟩, hbranch, hrest⟩ := Option.bind_eq_some_iff.mp hrun
      exact h.trans (h.followBranch henter hbranch) (ih hrest)

theorem flowLoop {fuel : ℕ} (hrun : flowLoop cb enter startva fuel f s = some (f', s')) :
    Q s.ext s'.ext := by
  induction fuel generalizing f s with
  | zero => exact nomatch hrun
  | succ fuel ih =>
    unfold CodeFlowContext.flowLoop at hrun
    split at hrun
    · obtain ⟨-, rfl⟩ := Prod.mk.inj (Option.some.inj hrun)
      exact h.refl _
    rename_i cur optodo htodo
    dsimp only at hrun
    have hdefined := h.isDefined cur s.ext
    split_ifs at hrun with hmany hvisited hisDefined htable
    · obtain ⟨-, rfl⟩ := Prod.mk.inj (Option.some.inj hrun)
      exact h.refl _
    · exact ih hrun
    · exact h.trans hdefined (ih hrun)
    · exact h.trans hdefined (ih hrun)
    · split at hrun
      · exact h.trans hdefined (h.trans (h.read cur _) (ih hrun))
      · rename_i op hop
        obtain ⟨⟨g, u⟩, hbranches, hrest⟩ := Option.bind_eq_some_iff.mp hrun
        have hopcode := h.onOpcode cur s.ext op (Bool.eq_false_iff.mpr hisDefined) hop
        exact h.trans hopcode (h.trans (h.branchLoop henter hbranches) (ih hrest))

theorem drainTargets {targets : List VA} (hrun : drainTargets enter targets s = some s') :
    Q s.ext s'.ext := by
  induction targets generalizing s with
  | nil =>
    obtain rfl := Option.some.inj hrun
    exact h.refl _
  | cons fva targets ih =>
    unfold CodeFlowContext.drainTargets at hrun
    split_ifs at hrun
    · have hrest := ih hrun
      exact hrest
    · exact ih hrun
    · obtain ⟨u, hu, hrest⟩ := Option.bind_eq_some_iff.mp hrun
      exact h.trans (henter _ _ _ hu) (ih hrest)

theorem drainBlocked {snapshot stillBlocked : List VA}
    (hrun : drainBlocked enter snapshot stillBlocked s = some s') : Q s.ext s'.ext := by
  induction snapshot generalizing stillBlocked s with
  | nil =>
    obtain rfl := Option.some.inj hrun
    exact h.refl _
  | cons fva snapshot ih =>
    unfold CodeFlowContext.drainBlocked at hrun
    split_ifs at hrun
    · obtain ⟨u, hu, hrest⟩ := Option.bind_eq_some_iff.mp hrun
      have hagain := henter _ _ _ hu
      exact h.trans hagain (ih hrest)
    · exact ih hrun

theorem addCodeFlow {fuel : ℕ} {va : VA} (hrun : addCodeFlow cb enter fuel va s = some s') :
    Q s.ext s'.ext := by
  obtain ⟨⟨f, u⟩, hflow, hrest⟩ := Option.bind_eq_some_iff.mp hrun
  obtain ⟨v, htargets, hblocked⟩ := Option.bind_eq_some_iff.mp hrest
  have hu := h.flowLoop henter hflow
  have hv := h.drainTargets henter htargets
  exact h.trans hu (h.trans hv (h.drainBlocked henter hblocked))

end Enter

theorem entryPoint {flow : VA → CodeFlowContext σ → Option (CodeFlowContext σ)} {va : VA}
    (hflow : ∀ s s', flow va s = some s' → Q s.ext s'.ext)
    (hrun : entryPoint flow cb va s = some s') : Q s.ext s'.ext := by
  unfold CodeFlowContext.entryPoint at hrun
  split_ifs at hrun
  · obtain rfl := Option.some.inj hrun
    exact h.refl _
  · obtain rfl := Option.some.inj hrun
    exact h.refl _
  · obtain ⟨u, hu, hend⟩ := Option.bind_eq_some_iff.mp hrun
    have hu := hflow _ _ hu
    split_ifs at hend
    · obtain rfl := Option.some.inj hend
      exact h.trans hu (h.reportFunction va u)
    · obtain rfl := Option.some.inj hend
      exact hu

/-- **A call of the context** respects what its callbacks respect. -/
theorem addEntryPoint {fuel : ℕ} {va : VA} (hrun : addEntryPoint cb fuel va s = some s') :
    Q s.ext s'.ext := by
  induction fuel generalizing va s s' with
  | zero => exact nomatch hrun
  | succ fuel ih =>
    exact h.entryPoint (fun _ _ hflow => h.addCodeFlow (fun _ _ _ => ih) hflow) hrun

/-- A sequence of calls. -/
theorem runs {ext : σ} {vas : List VA} (hruns : Runs cb ext vas s) : Q ext s.ext := by
  induction hruns with
  | nil => exact h.refl _
  | call fuel va _ hcall ih => exact h.trans ih (h.addEntryPoint hcall)

end Keeps

end CodeFlowContext

end Papa.Viv
