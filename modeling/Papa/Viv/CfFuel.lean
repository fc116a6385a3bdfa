import Papa.Viv.CfCallbacks

/-!
# The fuel of a call

A call that returns with some fuel returns the same with more: the fuel cuts the recursion and the
loops of the source, and decides nothing else.

## Main results

* `CodeFlowContext.addEntryPoint_mono`.
-/

namespace Papa.Viv

namespace CodeFlowContext

variable {σ ι : Type} {cb : Callbacks σ ι}
  {enter enter' : VA → CodeFlowContext σ → Option (CodeFlowContext σ)} {startva cur : VA}
  {op : DecodedInsn ι} {f f' : Flow ι} {s s' : CodeFlowContext σ}

section Enter

variable (henter : ∀ va s s', enter va s = some s' → enter' va s = some s')

include henter

theorem descend_mono {bva : VA} (hrun : descend enter bva f s = some (f', s')) :
    descend enter' bva f s = some (f', s') := by
  unfold descend at hrun ⊢
  split_ifs at hrun ⊢ with hactive hdepth
  · exact hrun
  · obtain ⟨v, hv, hg⟩ := Option.map_eq_some_iff.mp hrun
    exact Option.map_eq_some_iff.mpr ⟨v, henter _ _ _ hv, hg⟩
  · exact hrun

theorem followCall_mono {bva : VA} (hrun : followCall cb enter cur op bva f s = some (f', s')) :
    followCall cb enter' cur op bva f s = some (f', s') := by
  by_cases hnext : bva = cur + op.length
  · rw [followCall, if_pos hnext] at hrun ⊢
    exact hrun
  · rw [followCall, if_neg hnext] at hrun ⊢
    obtain ⟨r, hdescend, hrest⟩ := Option.bind_eq_some_iff.mp hrun
    exact Option.bind_eq_some_iff.mpr ⟨r, descend_mono henter hdescend, hrest⟩

theorem followBranch_mono {flags : UInt16} {bva : VA}
    (hrun : followBranch cb enter startva cur op flags bva f s = some (f', s')) :
    followBranch cb enter' startva cur op flags bva f s = some (f', s') := by
  unfold followBranch at hrun ⊢
  dsimp only at hrun ⊢
  split_ifs at hrun ⊢
  · exact hrun
  · exact hrun
  · exact followCall_mono henter hrun
  · exact hrun
  · exact hrun
  · exact hrun

theorem branchLoop_mono {fuel fuel' : ℕ} (hle : fuel ≤ fuel') {branches : List CfBranch}
    (hrun : branchLoop cb enter startva cur op fuel branches f s = some (f', s')) :
    branchLoop cb enter' startva cur op fuel' branches f s = some (f', s') := by
  induction fuel generalizing fuel' branches f s with
  | zero => exact nomatch hrun
  | succ fuel ih =>
    obtain ⟨fuel', rfl⟩ := Nat.exists_eq_add_of_le' (Nat.le_trans (Nat.le_add_left 1 fuel) hle)
    have hle := Nat.le_of_succ_le_succ hle
    match branches with
    | [] => exact hrun
    | ⟨none, flags⟩ :: branches => exact ih hle hrun
    | ⟨some bva, flags⟩ :: branches =>
      obtain ⟨r, hbranch, hrest⟩ := Option.bind_eq_some_iff.mp hrun
      exact Option.bind_eq_some_iff.mpr ⟨r, followBranch_mono henter hbranch, ih hle hrest⟩

theorem flowLoop_mono {fuel fuel' : ℕ} (hle : fuel ≤ fuel')
    (hrun : flowLoop cb enter startva fuel f s = some (f', s')) :
    flowLoop cb enter' startva fuel' f s = some (f', s') := by
  induction fuel generalizing fuel' f s with
  | zero => exact nomatch hrun
  | succ fuel ih =>
    obtain ⟨fuel', rfl⟩ := Nat.exists_eq_add_of_le' (Nat.le_trans (Nat.le_add_left 1 fuel) hle)
    have hle := Nat.le_of_succ_le_succ hle
    unfold flowLoop at hrun ⊢
    split at hrun
    · exact hrun
    rename_i cur optodo htodo
    dsimp only at hrun ⊢
    split_ifs at hrun ⊢
    · exact hrun
    · exact ih hle hrun
    · exact ih hle hrun
    · exact ih hle hrun
    · split at hrun
      · exact ih hle hrun
      · obtain ⟨r, hbranches, hrest⟩ := Option.bind_eq_some_iff.mp hrun
        exact Option.bind_eq_some_iff.mpr ⟨r, branchLoop_mono henter hle hbranches, ih hle hrest⟩

theorem drainTargets_mono {targets : List VA} (hrun : drainTargets enter targets s = some s') :
    drainTargets enter' targets s = some s' := by
  induction targets generalizing s with
  | nil => exact hrun
  | cons fva targets ih =>
    unfold drainTargets at hrun ⊢
    split_ifs at hrun ⊢
    · exact ih hrun
    · exact ih hrun
    · obtain ⟨u, hu, hrest⟩ := Option.bind_eq_some_iff.mp hrun
      exact Option.bind_eq_some_iff.mpr ⟨u, henter _ _ _ hu, ih hrest⟩

theorem drainBlocked_mono {snapshot stillBlocked : List VA}
    (hrun : drainBlocked enter snapshot stillBlocked s = some s') :
    drainBlocked enter' snapshot stillBlocked s = some s' := by
  induction snapshot generalizing stillBlocked s with
  | nil => exact hrun
  | cons fva snapshot ih =>
    unfold drainBlocked at hrun ⊢
    split_ifs at hrun ⊢
    · obtain ⟨u, hu, hrest⟩ := Option.bind_eq_some_iff.mp hrun
      exact Option.bind_eq_some_iff.mpr ⟨u, henter _ _ _ hu, ih hrest⟩
    · exact ih hrun

theorem addCodeFlow_mono {fuel fuel' : ℕ} (hle : fuel ≤ fuel') {va : VA}
    (hrun : addCodeFlow cb enter fuel va s = some s') :
    addCodeFlow cb enter' fuel' va s = some s' := by
  obtain ⟨r, hflow, hrest⟩ := Option.bind_eq_some_iff.mp hrun
  obtain ⟨v, htargets, hblocked⟩ := Option.bind_eq_some_iff.mp hrest
  exact Option.bind_eq_some_iff.mpr ⟨r, flowLoop_mono henter hle hflow, Option.bind_eq_some_iff.mpr
    ⟨v, drainTargets_mono henter htargets, drainBlocked_mono henter hblocked⟩⟩

end Enter

theorem entryPoint_mono {flow flow' : VA → CodeFlowContext σ → Option (CodeFlowContext σ)} {va : VA}
    (hflow : ∀ s s', flow va s = some s' → flow' va s = some s')
    (hrun : entryPoint flow cb va s = some s') : entryPoint flow' cb va s = some s' := by
  unfold entryPoint at hrun ⊢
  split_ifs at hrun ⊢
  · exact hrun
  · exact hrun
  · obtain ⟨u, hu, hend⟩ := Option.bind_eq_some_iff.mp hrun
    exact Option.bind_eq_some_iff.mpr ⟨u, hflow _ _ hu, hend⟩

/-- **More fuel** gives the same result. -/
theorem addEntryPoint_mono {fuel fuel' : ℕ} (hle : fuel ≤ fuel') {va : VA}
    (hrun : addEntryPoint cb fuel va s = some s') : addEntryPoint cb fuel' va s = some s' := by
  induction fuel generalizing fuel' va s s' with
  | zero => exact nomatch hrun
  | succ fuel ih =>
    obtain ⟨fuel', rfl⟩ := Nat.exists_eq_add_of_le' (Nat.le_trans (Nat.le_add_left 1 fuel) hle)
    have hle := Nat.le_of_succ_le_succ hle
    exact entryPoint_mono (fun _ _ => addCodeFlow_mono (fun _ _ _ => ih hle) hle) hrun

end CodeFlowContext

end Papa.Viv
