import Papa.Viv.DriverReturns

/-!
# Entries are decoded

A function is made before its first address is decoded. Its flow starts there, and either finds the
address defined, or cannot read it, or decodes it. Nothing that is defined is forgotten, so after
every call of the driver the entry of every function is defined, unless it cannot be read.

## Main definitions

* `CodeFlowContext.Quiet`: relations on contexts that hold of all that makes no function.
* `CodeFlowContext.Settles`: functions that are new have an entry that is defined or not readable.

## Main results

* `Driver.defined_of_mem_functions`.
-/

namespace Papa.Viv

variable {σ ι : Type}

namespace CodeFlowContext

/-! ### Steps that make no function -/

/-- A relation on contexts that holds of all steps that make no function and change the state of the
callbacks as these do. -/
structure Quiet (cb : Callbacks σ ι) (Q : σ → σ → Prop)
    (P : CodeFlowContext σ → CodeFlowContext σ → Prop) : Prop where
  keeps : Keeps cb Q
  trans : ∀ {s t u}, P s t → P t u → P s u
  step : ∀ {s t : CodeFlowContext σ}, t.functions ⊆ s.functions → Q s.ext t.ext → P s t

namespace Quiet

variable {cb : Callbacks σ ι} {Q : σ → σ → Prop}
  {P : CodeFlowContext σ → CodeFlowContext σ → Prop}
  {enter : VA → CodeFlowContext σ → Option (CodeFlowContext σ)} {startva cur : VA}
  {op : DecodedInsn ι} {f f' : Flow ι} {s s' : CodeFlowContext σ} (h : Quiet cb Q P)

include h

theorem ext {x : σ} (hx : Q s.ext x) : P s { s with ext := x } := h.step (List.Subset.refl _) hx

theorem refl (s : CodeFlowContext σ) : P s s := h.step (List.Subset.refl _) (h.keeps.refl s.ext)

/-- Another context with the same functions and callbacks. -/
theorem of_eq {t : CodeFlowContext σ} (hfunctions : t.functions ⊆ s.functions)
    (hext : t.ext = s.ext) : P s t := h.step hfunctions (hext ▸ h.keeps.refl s.ext)

/-- The same, before other steps. -/
theorem skip {t : CodeFlowContext σ} (hrest : P t s') (hfunctions : t.functions ⊆ s.functions)
    (hext : t.ext = s.ext) : P s s' := h.trans (h.of_eq hfunctions hext) hrest

theorem indirectBranch : P s (indirectBranch cb op f s).2.2 := by
  refine h.step ?_ (h.keeps.indirectBranch s)
  unfold CodeFlowContext.indirectBranch
  split_ifs
  · cases hjt : (cb.resolveJt (f.windowEndingAt op) s.ext).1 with
    | none =>
      simp only [hjt]
      exact List.Subset.refl _
    | some jt =>
      simp only [hjt]
      exact List.Subset.refl _
  · exact List.Subset.refl _

section Enter

variable (henter : ∀ va s s', enter va s = some s' → P s s')

include henter

theorem descend {bva : VA} (hrun : descend enter bva f s = some (f', s')) : P s s' := by
  unfold CodeFlowContext.descend at hrun
  split_ifs at hrun
  · obtain ⟨-, rfl⟩ := Prod.mk.inj (Option.some.inj hrun)
    exact h.refl s
  · obtain ⟨v, hv, hg⟩ := Option.map_eq_some_iff.mp hrun
    obtain ⟨-, rfl⟩ := Prod.mk.inj hg
    exact henter _ _ _ hv
  · obtain ⟨-, rfl⟩ := Prod.mk.inj (Option.some.inj hrun)
    exact h.refl s

theorem followCall {bva : VA} (hrun : followCall cb enter cur op bva f s = some (f', s')) :
    P s s' := by
  by_cases hnext : bva = cur + op.length
  · rw [CodeFlowContext.followCall, if_pos hnext] at hrun
    obtain ⟨-, rfl⟩ := Prod.mk.inj (Option.some.inj hrun)
    exact h.refl s
  · rw [CodeFlowContext.followCall, if_neg hnext] at hrun
    obtain ⟨⟨g, u⟩, hdescend, hrest⟩ := Option.bind_eq_some_iff.mp hrun
    obtain ⟨-, rfl⟩ := Prod.mk.inj (Option.some.inj hrest)
    have hcall := h.keeps.isNoReturnCall op u.ext
    exact h.trans (h.descend henter hdescend) (h.step (List.Subset.refl _) hcall)

theorem followBranch {flags : UInt16} {bva : VA}
    (hrun : followBranch cb enter startva cur op flags bva f s = some (f', s')) : P s s' := by
  have hexec := h.ext (s := s) (h.keeps.isExec bva s.ext)
  unfold CodeFlowContext.followBranch at hrun
  dsimp only at hrun
  split_ifs at hrun
  · obtain ⟨-, rfl⟩ := Prod.mk.inj (Option.some.inj hrun)
    exact hexec
  · obtain ⟨-, rfl⟩ := Prod.mk.inj (Option.some.inj hrun)
    exact hexec
  · exact h.trans hexec (h.followCall henter hrun)
  · obtain ⟨-, rfl⟩ := Prod.mk.inj (Option.some.inj hrun)
    exact h.step (List.Subset.refl _) (h.keeps.isExec bva s.ext)
  · obtain ⟨-, rfl⟩ := Prod.mk.inj (Option.some.inj hrun)
    exact hexec
  · obtain ⟨-, rfl⟩ := Prod.mk.inj (Option.some.inj hrun)
    exact hexec

theorem branchLoop {fuel : ℕ} {branches : List CfBranch}
    (hrun : branchLoop cb enter startva cur op fuel branches f s = some (f', s')) : P s s' := by
  induction fuel generalizing branches f s with
  | zero => exact absurd hrun (Option.some_ne_none _).symm
  | succ fuel ih =>
    rcases branches with _ | ⟨⟨_ | bva, flags⟩, branches⟩
    · obtain ⟨-, rfl⟩ := Prod.mk.inj (Option.some.inj hrun)
      exact h.refl s
    · exact h.trans h.indirectBranch (ih hrun)
    · obtain ⟨⟨g, u⟩, hbranch, hrest⟩ := Option.bind_eq_some_iff.mp hrun
      exact h.trans (h.followBranch henter hbranch) (ih hrest)

theorem flowLoop {fuel : ℕ} (hrun : flowLoop cb enter startva fuel f s = some (f', s')) :
    P s s' := by
  induction fuel generalizing f s with
  | zero => exact absurd hrun (Option.some_ne_none _).symm
  | succ fuel ih =>
    rw [CodeFlowContext.flowLoop] at hrun
    cases htodo : f.optodo with
    | nil =>
      simp only [htodo] at hrun
      obtain ⟨-, rfl⟩ := Prod.mk.inj (Option.some.inj hrun)
      exact h.refl s
    | cons cur optodo =>
      simp only [htodo] at hrun
      have hdefined := h.keeps.isDefined cur s.ext
      have hread := h.keeps.trans hdefined (h.keeps.read cur _)
      split_ifs at hrun with hmany hvisited hisDefined htable
      · obtain ⟨-, rfl⟩ := Prod.mk.inj (Option.some.inj hrun)
        exact h.refl s
      · exact ih hrun
      · exact h.trans (h.ext hdefined) (ih hrun)
      · exact h.trans (h.ext hdefined) (ih hrun)
      · cases hop : (cb.read cur (cb.isDefined cur s.ext).2).1 with
        | none =>
          simp only [hop] at hrun
          exact h.trans (h.ext hread) (ih hrun)
        | some op =>
          simp only [hop] at hrun
          obtain ⟨⟨g, u⟩, hbranches, hrest⟩ := Option.bind_eq_some_iff.mp hrun
          have hopcode := h.keeps.onOpcode cur s.ext op (Bool.eq_false_iff.mpr hisDefined) hop
          exact h.trans (h.ext hopcode) (h.trans (h.branchLoop henter hbranches) (ih hrest))

theorem drainTargets {targets : List VA} (hrun : drainTargets enter targets s = some s') :
    P s s' := by
  induction targets generalizing s with
  | nil =>
    obtain rfl := Option.some.inj hrun
    exact h.refl s
  | cons fva targets ih =>
    unfold CodeFlowContext.drainTargets at hrun
    split_ifs at hrun
    · exact h.skip (ih hrun) (List.Subset.refl _) rfl
    · exact ih hrun
    · obtain ⟨u, hu, hrest⟩ := Option.bind_eq_some_iff.mp hrun
      exact h.trans (henter _ _ _ hu) (ih hrest)

theorem drainBlocked {snapshot stillBlocked : List VA}
    (hrun : drainBlocked enter snapshot stillBlocked s = some s') : P s s' := by
  induction snapshot generalizing stillBlocked s with
  | nil =>
    obtain rfl := Option.some.inj hrun
    exact h.of_eq (List.Subset.refl _) rfl
  | cons fva snapshot ih =>
    unfold CodeFlowContext.drainBlocked at hrun
    split_ifs at hrun
    · obtain ⟨u, hu, hrest⟩ := Option.bind_eq_some_iff.mp hrun
      exact h.skip (h.trans (henter _ _ _ hu) (ih hrest)) List.erase_subset rfl
    · exact ih hrun

theorem drains {targets : List VA} {t : CodeFlowContext σ}
    (htargets : CodeFlowContext.drainTargets enter targets s = some t)
    (hblocked : CodeFlowContext.drainBlocked enter t.blockedRecursion [] t = some s') : P s s' :=
  h.trans (h.drainTargets henter htargets) (h.drainBlocked henter hblocked)

end Enter

theorem reportFreed_foldl (freed : List VA) (s : CodeFlowContext σ) :
    P s (freed.foldl (reportFreed cb) s) := by
  induction freed generalizing s with
  | nil => exact h.refl s
  | cons waiter freed ih =>
    have hfree : P s (reportFreed cb s waiter) :=
      h.step (List.Subset.refl _) (h.keeps.onFunction waiter s.ext)
    exact h.trans hfree (ih _)

theorem reportFunction (va : VA) (s : CodeFlowContext σ) : P s (s.reportFunction cb va) := by
  have hfire : Q s.ext (s.fire cb va).ext := h.keeps.onFunction va s.ext
  cases hwaiters : s.awaitedBy va with
  | none =>
    rw [reportFunction_of_none hwaiters]
    exact h.step (List.Subset.refl _) hfire
  | some waiters =>
    rw [reportFunction_of_some hwaiters]
    refine h.trans ?_ (h.reportFreed_foldl _ _)
    exact h.step (List.Subset.refl _) hfire

end Quiet

/-! ### Functions that are new -/

/-- Whatever holds before, the invariant stays, what is defined stays defined, and a function that
is new has an entry that is defined or that cannot be read. -/
def Settles (Inv : σ → Prop) (defined : σ → VA → Prop) (reader : VA → Option (DecodedInsn ι))
    (s s' : CodeFlowContext σ) : Prop :=
  Inv s.ext → (Inv s'.ext ∧ ∀ va, defined s.ext va → defined s'.ext va) ∧
    ∀ f ∈ s'.functions, f ∈ s.functions ∨ defined s'.ext f ∨ reader f = none

variable {cb : Callbacks σ ι} {Inv : σ → Prop} {defined : σ → VA → Prop}
  {reader : VA → Option (DecodedInsn ι)} {s s' : CodeFlowContext σ}

theorem Settles.trans {s'' : CodeFlowContext σ} (h : Settles Inv defined reader s s')
    (h' : Settles Inv defined reader s' s'') : Settles Inv defined reader s s'' := by
  intro hs
  obtain ⟨⟨hinv, hdefined⟩, hnew⟩ := h hs
  obtain ⟨⟨hinv', hdefined'⟩, hnew'⟩ := h' hinv
  refine ⟨⟨hinv', fun va hva => hdefined' va (hdefined va hva)⟩, fun f hf => ?_⟩
  rcases hnew' f hf with hf | hsettled
  · exact (hnew f hf).imp_right (Or.imp_left (hdefined' f))
  · exact .inr hsettled

variable (reader) in
theorem Remembers.quiet (h : Remembers cb Inv defined) :
    Quiet cb (Retains Inv defined) (Settles Inv defined reader) where
  keeps := h.retains
  trans := Settles.trans
  step hfunctions hretains hs := ⟨hretains hs, fun _ hf => .inl (hfunctions hf)⟩

section Entry

variable (h : Remembers cb Inv defined) (hread : ∀ va x, (cb.read va x).1 = reader va)

include h hread

/-- The flow of a function settles its entry at the first turn. -/
theorem settled_flowLoop {enter : VA → CodeFlowContext σ → Option (CodeFlowContext σ)}
    (henter : ∀ va s s', enter va s = some s' → Settles Inv defined reader s s') {fuel : ℕ}
    {va : VA} {f' : Flow ι} (hs : Inv s.ext)
    (hrun : flowLoop cb enter va fuel { optodo := [va] } s = some (f', s')) :
    defined s'.ext va ∨ reader va = none := by
  have hquiet : Quiet cb (Retains Inv defined) (Settles Inv defined reader) := h.quiet reader
  cases fuel with
  | zero => exact absurd hrun (Option.some_ne_none _).symm
  | succ fuel =>
    rw [flowLoop] at hrun
    have hempty : ¬ kMaxInsnsPerFunction ≤ ([] : List (VA × DecodedInsn ι)).length :=
      Nat.not_succ_le_zero _
    have htable : ({ optodo := [], visited := [va] } : Flow ι).inJtData va = false := rfl
    simp only [hempty, htable, List.not_mem_nil, Bool.false_eq_true, if_false] at hrun
    obtain ⟨hinv, hkept⟩ := h.retains.isDefined va s.ext hs
    by_cases hisDefined : (cb.isDefined va s.ext).1 = true
    · rw [if_pos hisDefined] at hrun
      obtain ⟨⟨-, hdefined⟩, -⟩ := hquiet.flowLoop henter hrun hinv
      exact .inl (hdefined va (hkept va ((h.isDefined_iff va s.ext).mp hisDefined)))
    · rw [if_neg hisDefined] at hrun
      cases hop : (cb.read va (cb.isDefined va s.ext).2).1 with
      | none => exact .inr ((hread va _).symm.trans hop)
      | some op =>
        simp only [hop] at hrun
        obtain ⟨⟨g, u⟩, hbranches, hrest⟩ := Option.bind_eq_some_iff.mp hrun
        have hfree := Bool.eq_false_iff.mpr hisDefined
        obtain ⟨hinv, -⟩ := h.retains.onOpcode va s.ext op hfree hop hs
        obtain ⟨⟨-, hdefined⟩, -⟩ :=
          hquiet.trans (hquiet.branchLoop henter hbranches) (hquiet.flowLoop henter hrest) hinv
        exact .inl (hdefined va (h.onOpcode va s.ext op hs hfree hop))

theorem settles_addCodeFlow {enter : VA → CodeFlowContext σ → Option (CodeFlowContext σ)}
    (henter : ∀ va s s', enter va s = some s' → Settles Inv defined reader s s') {fuel : ℕ}
    {va : VA} (hs : Inv s.ext) (hrun : addCodeFlow cb enter fuel va s = some s') :
    Settles Inv defined reader s s' ∧ (defined s'.ext va ∨ reader va = none) := by
  have hquiet : Quiet cb (Retains Inv defined) (Settles Inv defined reader) := h.quiet reader
  obtain ⟨⟨f, u⟩, hflow, hrest⟩ := Option.bind_eq_some_iff.mp hrun
  obtain ⟨v, htargets, hblocked⟩ := Option.bind_eq_some_iff.mp hrest
  have hloop : Settles Inv defined reader s u :=
    hquiet.skip (hquiet.flowLoop henter hflow) (List.Subset.refl _) rfl
  have hdrains : Settles Inv defined reader u s' :=
    hquiet.skip (hquiet.drains henter htargets hblocked) (List.Subset.refl _) rfl
  refine ⟨hloop.trans hdrains, ?_⟩
  have hentry := settled_flowLoop h hread henter (s := { s with cfBlocks := va :: s.cfBlocks }) hs
    hflow
  exact hentry.imp_left ((hdrains (hloop hs).1.1).1.2 va)

/-- A function that is made has its entry settled. -/
theorem settles_entryPoint {enter : VA → CodeFlowContext σ → Option (CodeFlowContext σ)}
    (henter : ∀ va s s', enter va s = some s' → Settles Inv defined reader s s') {fuel : ℕ}
    {va : VA} (hs : Inv s.ext)
    (hrun : entryPoint (addCodeFlow cb enter fuel) cb va s = some s') :
    Settles Inv defined reader s s' ∧ (kMaxFunctionsPerImage ≤ s.functions.length ∨
      va ∈ s.functions ∨ defined s'.ext va ∨ reader va = none) := by
  have hquiet : Quiet cb (Retains Inv defined) (Settles Inv defined reader) := h.quiet reader
  unfold entryPoint at hrun
  split_ifs at hrun with hfull hmem
  · obtain rfl := Option.some.inj hrun
    exact ⟨hquiet.refl s, .inl hfull⟩
  · obtain rfl := Option.some.inj hrun
    exact ⟨hquiet.refl s, .inr (.inl hmem)⟩
  · obtain ⟨u, hu, hend⟩ := Option.bind_eq_some_iff.mp hrun
    have hlast : Settles Inv defined reader u s' := by
      split_ifs at hend
      · obtain rfl := Option.some.inj hend
        exact hquiet.reportFunction va u
      · obtain rfl := Option.some.inj hend
        exact hquiet.of_eq (List.Subset.refl _) rfl
    obtain ⟨hflow, hentry⟩ := settles_addCodeFlow h hread henter (s := { s with
      functions := va :: s.functions, trace := .entered va :: s.trace }) hs hu
    obtain ⟨hkept, hnew⟩ := hflow.trans hlast hs
    have hentry : defined s'.ext va ∨ reader va = none :=
      hentry.imp_left ((hlast (hflow hs).1.1).1.2 va)
    refine ⟨fun _ => ⟨hkept, fun f hf => ?_⟩, .inr (.inr hentry)⟩
    rcases hnew f hf with hold | hsettled
    · rcases List.mem_cons.mp hold with rfl | hold
      · exact .inr hentry
      · exact .inl hold
    · exact .inr hsettled

/-- **A call of the context** settles the entries of the functions it makes. -/
theorem settles_addEntryPoint {fuel : ℕ} {va : VA} (hrun : addEntryPoint cb fuel va s = some s') :
    Settles Inv defined reader s s' := by
  induction fuel generalizing va s s' with
  | zero => exact absurd hrun (Option.some_ne_none _).symm
  | succ fuel ih =>
    exact fun hs => (settles_entryPoint h hread (fun _ _ _ hrun => ih hrun) hs hrun).1 hs

/-- The address of a call is a function before, or settled after, if there may be more functions. -/
theorem settled_of_addEntryPoint {fuel : ℕ} {va : VA} (hs : Inv s.ext)
    (hrun : addEntryPoint cb fuel va s = some s') :
    kMaxFunctionsPerImage ≤ s.functions.length ∨ va ∈ s.functions ∨ defined s'.ext va ∨
      reader va = none := by
  cases fuel with
  | zero => exact absurd hrun (Option.some_ne_none _).symm
  | succ fuel =>
    exact (settles_entryPoint h hread (fun _ _ _ => settles_addEntryPoint h hread) hs hrun).2

end Entry

end CodeFlowContext

/-! ### The driver -/

namespace Driver

open CodeFlowContext (Settles)

variable {driver : Driver ι} {s s' : CodeFlowContext (Logged ι)} {cs : List Call}

/-- An address that is defined, or that cannot be read. -/
def Settled (driver : Driver ι) (s : CodeFlowContext (Logged ι)) (va : VA) : Prop :=
  s.ext.Defined va ∨ driver.read va = none

variable (hreader : driver.ReadsForward)

include hreader

theorem settles_makeFunction {fuel : ℕ} {va : VA}
    (hrun : driver.makeFunction fuel va s = some s') :
    Settles Logged.Inv Logged.Defined driver.read s s' :=
  CodeFlowContext.settles_addEntryPoint (remembers hreader) (fun _ _ => rfl) hrun

theorem settles_followPointer {fuel : ℕ} {target : VA}
    (hrun : driver.followPointer fuel target s = some s') :
    Settles Logged.Inv Logged.Defined driver.read s s' := by
  unfold followPointer at hrun
  split_ifs at hrun
  · exact settles_makeFunction hreader hrun
  · obtain rfl := Option.some.inj hrun
    exact ((remembers hreader).quiet driver.read).refl s

theorem settles_makePointer {fuel : ℕ} {site : VA} {follow : Bool}
    (hrun : driver.makePointer fuel site follow s = some s') :
    Settles Logged.Inv Logged.Defined driver.read s s' := by
  have hquiet := (remembers hreader).quiet driver.read
  unfold makePointer at hrun
  by_cases hdefined : (s.ext.disc.locations.getLocation site).isSome = true
  · rw [if_pos hdefined] at hrun
    obtain rfl := Option.some.inj hrun
    exact hquiet.refl s
  · rw [if_neg hdefined] at hrun
    cases hptr : driver.readPtr site with
    | none =>
      rw [hptr] at hrun
      obtain rfl := Option.some.inj hrun
      exact hquiet.refl s
    | some target =>
      rw [hptr] at hrun
      have hadd : Settles Logged.Inv Logged.Defined driver.read s
          { s with ext := s.ext.addLocation site driver.ptrSize .kPointer } :=
        hquiet.ext (Logged.retains_addLocation _ _ (Option.not_isSome_iff_eq_none.mp hdefined))
      dsimp only at hrun
      split_ifs at hrun
      · exact hadd.trans (settles_followPointer hreader hrun)
      · obtain rfl := Option.some.inj hrun
        exact hadd

/-- **One call** settles the entries of the functions it makes. -/
theorem settles_run {fuel : ℕ} {c : Call} (hrun : driver.run fuel s c = some s') :
    Settles Logged.Inv Logged.Defined driver.read s s' := by
  cases c with
  | makeFunction va => exact settles_makeFunction hreader hrun
  | makePointer site follow => exact settles_makePointer hreader hrun

/-- **The entry of every function** is defined in all states of a run of the driver, unless it
cannot be read. -/
theorem defined_of_mem_functions (hrun : driver.Runs cs s) :
    ∀ f ∈ s.functions, driver.Settled s f := by
  induction hrun with
  | nil => exact fun _ hf => absurd hf List.not_mem_nil
  | @call cs s s' fuel c hrun hcall ih =>
    obtain ⟨⟨-, hdefined⟩, hnew⟩ := settles_run hreader hcall (inv_of_runs hrun)
    exact fun f hf => (hnew f hf).elim (fun hold => (ih f hold).imp_left (hdefined f)) id

end Driver

end Papa.Viv
