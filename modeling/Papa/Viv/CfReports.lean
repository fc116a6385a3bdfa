import Mathlib.Data.List.Perm.Subperm
import Papa.Viv.CfContext

/-!
# Which functions are reported

A function is waited on only while it is active, so when its flow is complete the functions that
wait on it are released, unless it waits itself. Then its own report is held, and when that is
released in turn the functions that wait on it stay held: a release goes one level deep. Every other
function that is entered is reported.

## Main definitions

* `CodeFlowContext.Inv`: what holds of a context while some entry points are open.
* `CodeFlowContext.Step`: what a part of an entry point does to a context.

## Main results

* `CodeFlowContext.inv_reportFunction`, `CodeFlowContext.inv_hold`: an entry point ends.
* `CodeFlowContext.step_addEntryPoint`: one entry point.
* `CodeFlowContext.reported_or_waits_on_held`: all outermost entry points.
-/

namespace Papa.Viv.CodeFlowContext

variable {σ ι : Type}

/-! ### The invariant -/

/-- What holds of a context while the entry points `opened` have not ended. -/
structure Inv (opened : VA → Prop) (s : CodeFlowContext σ) : Prop where
  nodup : s.functions.Nodup
  length_le : s.functions.length ≤ kMaxFunctionsPerImage
  entered : ∀ f, .entered f ∈ s.trace → f ∈ s.functions
  active : ∀ f ∈ s.cfBlocks, opened f ∧ f ∈ s.functions
  blocked : ∀ f ∈ s.blockedRecursion, f ∈ s.functions
  /-- A function whose entry point has ended was reported or waits. -/
  settled : ∀ f ∈ s.functions, opened f ∨ .function f ∈ s.trace ∨
    (f ∈ s.reportHeld ∧ s.waitsOn f ≠ none)
  /-- A function that is waited on is open or was held. -/
  waits : ∀ f W v, s.waitsOn f = some W → v ∈ W → opened v ∨ .held v ∈ s.trace
  waits_ne : ∀ f, s.waitsOn f ≠ some []
  awaited : ∀ f W v, s.waitsOn f = some W → v ∈ W → ∃ A, s.awaitedBy v = some A ∧ f ∈ A

/-- What a part of an entry point does: the invariant stays, the active path is as it was, and no
function is forgotten. -/
structure Step (opened : VA → Prop) (s s' : CodeFlowContext σ) : Prop where
  inv : Inv opened s'
  cfBlocks : s'.cfBlocks = s.cfBlocks
  functions : s.functions ⊆ s'.functions

variable {opened : VA → Prop} {s s' s'' : CodeFlowContext σ}

theorem Step.refl (h : Inv opened s) : Step opened s s := ⟨h, rfl, fun _ hf => hf⟩

theorem Step.trans (h : Step opened s s') (h' : Step opened s' s'') : Step opened s s'' :=
  ⟨h'.inv, h'.cfBlocks.trans h.cfBlocks, fun _ hf => h'.functions (h.functions hf)⟩

/-- The callbacks' state and the suppressed edges play no part. -/
theorem Inv.step_ext (h : Inv opened s) (ext : σ) (noflow : List (VA × VA)) :
    Step opened s { s with ext, noflow } :=
  ⟨⟨h.nodup, h.length_le, h.entered, h.active, h.blocked, h.settled, h.waits, h.waits_ne,
    h.awaited⟩, rfl, fun _ hf => hf⟩

/-! ### Reports -/

/-- What a waiter waits on after `va` is taken out for some waiters. -/
theorem releaseWaiter_foldl (va : VA) (waiters : List VA) (w : VA → Option (List VA))
    (freed : List VA) :
    let r := waiters.foldl (releaseWaiter va) (w, freed)
    (∀ f, r.1 f = if f ∈ waiters then (w f).map (·.filter (· ≠ va)) else w f) ∧
      ∀ f, f ∈ r.2 ↔ f ∈ freed ∨ (f ∈ waiters ∧ ∃ W, w f = some W ∧ W.filter (· ≠ va) = []) := by
  induction waiters generalizing w freed with
  | nil => simp
  | cons a waiters ih =>
    rw [List.foldl_cons]
    cases ha : w a with
    | none =>
      have hstep : releaseWaiter va (w, freed) a = (w, freed) := by simp only [releaseWaiter, ha]
      rw [hstep]
      obtain ⟨hmap, hfreed⟩ := ih w freed
      refine ⟨fun f => ?_, fun f => ?_⟩
      · rw [hmap f]
        by_cases hf : f = a
        · subst hf
          simp [ha]
        · simp [hf]
      · rw [hfreed f]
        by_cases hf : f = a
        · subst hf
          simp [ha]
        · simp [hf]
    | some held =>
      obtain ⟨left, hleft⟩ : ∃ left, held.filter (· ≠ va) = left := ⟨_, rfl⟩
      have hself : left.filter (· ≠ va) = left := by rw [← hleft, List.filter_filter]; simp
      have hstep : releaseWaiter va (w, freed) a =
          (Function.update w a (some left), if left.isEmpty then freed ++ [a] else freed) := by
        simp only [releaseWaiter, ha, hleft]
      rw [hstep]
      obtain ⟨hmap, hfreed⟩ := ih (Function.update w a (some left))
        (if left.isEmpty then freed ++ [a] else freed)
      refine ⟨fun f => ?_, fun f => ?_⟩
      · rw [hmap f]
        by_cases hf : f = a
        · subst hf
          rw [Function.update_self, Option.map_some, hself, ite_self, if_pos List.mem_cons_self, ha,
            Option.map_some, hleft]
        · simp only [Function.update_of_ne hf, List.mem_cons, hf, false_or]
      · rw [hfreed f]
        by_cases hf : f = a
        · subst hf
          have hw : (∃ W, w f = some W ∧ W.filter (· ≠ va) = []) ↔ left = [] := by
            simp only [ha, Option.some.injEq, exists_eq_left', hleft]
          have hu : (∃ W, Function.update w f (some left) f = some W ∧ W.filter (· ≠ va) = []) ↔
              left = [] := by
            simp only [Function.update_self, Option.some.injEq, exists_eq_left', hself]
          rw [hw, hu]
          by_cases he : left = []
          · simp [he]
          · simp [he]
        · by_cases he : left = []
          · simp [hf, he]
          · simp [hf, he]

/-- The reports of freed functions. -/
theorem reportFreed_foldl (cb : Callbacks σ ι) (freed : List VA) (s : CodeFlowContext σ) :
    let s' := freed.foldl (reportFreed cb) s
    s'.functions = s.functions ∧ s'.cfBlocks = s.cfBlocks ∧ s'.awaitedBy = s.awaitedBy ∧
      s'.blockedRecursion = s.blockedRecursion ∧
      (∀ f, s'.waitsOn f = if f ∈ freed then none else s.waitsOn f) ∧
      (∀ f, f ∈ s'.reportHeld ↔ f ∈ s.reportHeld ∧ f ∉ freed) ∧
      ∀ e, e ∈ s'.trace ↔ e ∈ s.trace ∨ ∃ f ∈ freed, e = .function f := by
  induction freed generalizing s with
  | nil => simp
  | cons a freed ih =>
    rw [List.foldl_cons]
    obtain ⟨hfun, hblocks, hawaited, hblocked, hwaits, hheld, htrace⟩ := ih (reportFreed cb s a)
    refine ⟨hfun, hblocks, hawaited, hblocked, fun f => ?_, fun f => ?_, fun e => ?_⟩
    · rw [hwaits f]
      by_cases hf : f = a
      · subst hf
        simp [reportFreed, fire]
      · simp [reportFreed, fire, hf]
    · rw [hheld f]
      simp only [reportFreed, fire, List.mem_filter, decide_eq_true_eq, List.mem_cons, not_or]
      tauto
    · rw [htrace e]
      simp only [reportFreed, fire, List.mem_cons, exists_eq_or_imp]
      tauto

/-- What a report changes: nothing waits on the function any more, and the functions that waited on
nothing else are reported. -/
theorem reportFunction_spec (cb : Callbacks σ ι) (va : VA) (h : Inv opened s) :
    let s' := s.reportFunction cb va
    s'.functions = s.functions ∧ s'.cfBlocks = s.cfBlocks ∧
      s'.blockedRecursion = s.blockedRecursion ∧
      (∀ f W, s'.waitsOn f = some W ↔ W ≠ [] ∧ ∃ W₀, s.waitsOn f = some W₀ ∧
        W = W₀.filter (· ≠ va)) ∧
      (∀ f, f ∈ s.reportHeld → f ∈ s'.reportHeld ∨ .function f ∈ s'.trace) ∧
      (∀ f, s.waitsOn f ≠ none → s'.waitsOn f ≠ none ∨ .function f ∈ s'.trace) ∧
      (∀ v, v ≠ va → s'.awaitedBy v = s.awaitedBy v) ∧
      (∀ e ∈ s.trace, e ∈ s'.trace) ∧ .function va ∈ s'.trace ∧
      ∀ e ∈ s'.trace, e ∈ s.trace ∨ ∃ f, e = .function f := by
  cases hwaiters : s.awaitedBy va with
  | none =>
    have hs' : s.reportFunction cb va = s.fire cb va := by
      simp only [reportFunction, fire, hwaiters]
    have hnot : ∀ f W, s.waitsOn f = some W → W.filter (· ≠ va) = W := by
      intro f W hW
      refine List.filter_eq_self.mpr fun v hv => ?_
      have hne : v ≠ va := by
        rintro rfl
        obtain ⟨A, hA, -⟩ := h.awaited f W v hW hv
        rw [hwaiters] at hA
        exact nomatch hA
      simpa using hne
    rw [hs']
    refine ⟨rfl, rfl, rfl, fun f W => ?_, fun f hf => Or.inl hf, fun f hf => Or.inl hf,
      fun v _ => rfl, fun e he => List.mem_cons_of_mem _ he, List.mem_cons_self, fun e he => ?_⟩
    · constructor
      · intro hW
        exact ⟨fun hnil => h.waits_ne f (hnil ▸ hW), W, hW, (hnot f W hW).symm⟩
      · rintro ⟨-, W₀, hW₀, rfl⟩
        rw [hnot f W₀ hW₀]
        exact hW₀
    · exact (List.mem_cons.mp he).symm.imp_right fun he => ⟨va, he⟩
  | some waiters =>
    obtain ⟨hmap, hfreed⟩ := releaseWaiter_foldl va waiters s.waitsOn []
    generalize hr : waiters.foldl (releaseWaiter va) (s.waitsOn, []) = r at hmap hfreed
    have hs' : s.reportFunction cb va = r.2.foldl (reportFreed cb)
        { s.fire cb va with
          waitsOn := r.1, awaitedBy := Function.update s.awaitedBy va none } := by
      simp only [reportFunction, fire, hwaiters, hr]
    obtain ⟨hfun, hblocks, hawaited, hblocked, hwaits, hheld, htrace⟩ := reportFreed_foldl cb r.2
      { s.fire cb va with waitsOn := r.1, awaitedBy := Function.update s.awaitedBy va none }
    rw [← hs'] at hfun hblocks hawaited hblocked hwaits hheld htrace
    replace hwaits : ∀ f, (s.reportFunction cb va).waitsOn f = if f ∈ r.2 then none else r.1 f :=
      hwaits
    replace hawaited : (s.reportFunction cb va).awaitedBy = Function.update s.awaitedBy va none :=
      hawaited
    have hin : ∀ f W, s.waitsOn f = some W → va ∈ W → f ∈ waiters := by
      intro f W hW hva
      obtain ⟨A, hA, hf⟩ := h.awaited f W va hW hva
      rw [hwaiters] at hA
      exact Option.some.inj hA ▸ hf
    have hr1 : ∀ f, r.1 f = (s.waitsOn f).map (·.filter (· ≠ va)) := by
      intro f
      rw [hmap f]
      split_ifs with hf
      · rfl
      · cases hW : s.waitsOn f with
        | none => rfl
        | some W =>
          rw [Option.map_some, Option.some.injEq]
          refine (List.filter_eq_self.mpr fun v hv => ?_).symm
          have hne : v ≠ va := fun heq => hf (hin f W hW (heq ▸ hv))
          simpa using hne
    have hr2 : ∀ f, f ∈ r.2 ↔ ∃ W, s.waitsOn f = some W ∧ W.filter (· ≠ va) = [] := by
      intro f
      rw [hfreed f]
      constructor
      · rintro (hnil | ⟨-, hW⟩)
        · exact absurd hnil List.not_mem_nil
        · exact hW
      · rintro ⟨W, hW, hnil⟩
        refine Or.inr ⟨hin f W hW ?_, W, hW, hnil⟩
        by_contra hva
        have hself : W.filter (· ≠ va) = W := List.filter_eq_self.mpr fun v hv => by
          have hne : v ≠ va := fun heq => hva (heq ▸ hv)
          simpa using hne
        exact h.waits_ne f (by rw [hW, ← hself, hnil])
    refine ⟨hfun, hblocks, hblocked, fun f W => ?_, fun f hf => ?_, fun f hf => ?_, fun v hv => ?_,
      fun e he => ?_, ?_, fun e he => ?_⟩
    · rw [hwaits f, hr1 f]
      constructor
      · intro hW
        split_ifs at hW with hf
        obtain ⟨W₀, hW₀, rfl⟩ := Option.map_eq_some_iff.mp hW
        exact ⟨fun hnil => hf ((hr2 f).mpr ⟨W₀, hW₀, hnil⟩), W₀, hW₀, rfl⟩
      · rintro ⟨hne, W₀, hW₀, rfl⟩
        have hf : f ∉ r.2 := fun hf => by
          obtain ⟨W, hW, hnil⟩ := (hr2 f).mp hf
          rw [hW₀] at hW
          exact hne (Option.some.inj hW ▸ hnil)
        rw [if_neg hf, hW₀]
        rfl
    · by_cases hfree : f ∈ r.2
      · exact Or.inr ((htrace _).mpr (Or.inr ⟨f, hfree, rfl⟩))
      · exact Or.inl ((hheld f).mpr ⟨hf, hfree⟩)
    · by_cases hfree : f ∈ r.2
      · exact Or.inr ((htrace _).mpr (Or.inr ⟨f, hfree, rfl⟩))
      · refine Or.inl ?_
        rw [hwaits f, if_neg hfree, hr1 f]
        simpa using hf
    · rw [hawaited]
      exact Function.update_of_ne hv _ _
    · exact (htrace e).mpr (Or.inl (List.mem_cons_of_mem _ he))
    · exact (htrace _).mpr (Or.inl List.mem_cons_self)
    · rcases (htrace e).mp he with he | ⟨f, -, rfl⟩
      · exact (List.mem_cons.mp he).symm.imp_right fun he => ⟨va, he⟩
      · exact Or.inr ⟨f, rfl⟩

/-- An entry point ends with a report: nothing waits on its function any more. -/
theorem inv_reportFunction (cb : Callbacks σ ι) {va : VA} (h : Inv (fun v => opened v ∨ v = va) s)
    (hactive : ∀ f ∈ s.cfBlocks, opened f) : Inv opened (s.reportFunction cb va) := by
  obtain ⟨hfun, hblocks, hblocked, hwaits, hheld, hstill, hawaited, htrace, hva, hnew⟩ :=
    reportFunction_spec cb va h
  refine ⟨?_, ?_, fun f hf => ?_, fun f hf => ?_, fun f hf => ?_, fun f hf => ?_,
    fun f W v hW hv => ?_, fun f hnil => ?_, fun f W v hW hv => ?_⟩
  · exact hfun ▸ h.nodup
  · exact hfun ▸ h.length_le
  · rw [hfun]
    rcases hnew _ hf with hf | ⟨g, hg⟩
    · exact h.entered f hf
    · exact nomatch hg
  · rw [hblocks] at hf
    rw [hfun]
    exact ⟨hactive f hf, (h.active f hf).2⟩
  · rw [hblocked] at hf
    rw [hfun]
    exact h.blocked f hf
  · rw [hfun] at hf
    rcases h.settled f hf with (hopen | rfl) | hreported | ⟨hin, hwait⟩
    · exact Or.inl hopen
    · exact Or.inr (Or.inl hva)
    · exact Or.inr (Or.inl (htrace _ hreported))
    · rcases hheld f hin with hin | hreported
      · exact Or.inr ((hstill f hwait).symm.imp_right fun hwait => ⟨hin, hwait⟩)
      · exact Or.inr (Or.inl hreported)
  · obtain ⟨-, W₀, hW₀, rfl⟩ := (hwaits f W).mp hW
    obtain ⟨hv, hne⟩ := List.mem_filter.mp hv
    rcases h.waits f W₀ v hW₀ hv with (hopen | rfl) | hevent
    · exact Or.inl hopen
    · simp at hne
    · exact Or.inr (htrace _ hevent)
  · exact ((hwaits f []).mp hnil).1 rfl
  · obtain ⟨-, W₀, hW₀, rfl⟩ := (hwaits f W).mp hW
    obtain ⟨hv, hne⟩ := List.mem_filter.mp hv
    rw [hawaited v (by simpa using hne)]
    exact h.awaited f W₀ v hW₀ hv

/-- An entry point ends with a report that is held: what waits on its function waits on a held
one. -/
theorem inv_hold {va : VA} (h : Inv (fun v => opened v ∨ v = va) s)
    (hactive : ∀ f ∈ s.cfBlocks, opened f) (hwait : s.waitsOn va ≠ none) :
    Inv opened (s.hold va) := by
  refine ⟨h.nodup, h.length_le, fun f hf => ?_, fun f hf => ⟨hactive f hf, (h.active f hf).2⟩,
    h.blocked, fun f hf => ?_, fun f W v hW hv => ?_, h.waits_ne, h.awaited⟩
  · rcases List.mem_cons.mp hf with hf | hf
    · exact nomatch hf
    · exact h.entered f hf
  · rcases h.settled f hf with (hopen | rfl) | hreported | ⟨hin, hwait⟩
    · exact Or.inl hopen
    · exact Or.inr (Or.inr ⟨List.mem_insert_self, hwait⟩)
    · exact Or.inr (Or.inl (List.mem_cons_of_mem _ hreported))
    · exact Or.inr (Or.inr ⟨List.mem_insert_of_mem hin, hwait⟩)
  · rcases h.waits f W v hW hv with (hopen | rfl) | hevent
    · exact Or.inl hopen
    · exact Or.inr List.mem_cons_self
    · exact Or.inr (List.mem_cons_of_mem _ hevent)

/-- What is waited on after a jump into an active function. -/
theorem mem_waitsOn_wait {startva bva f v : VA} {W : List VA}
    (hW : (s.wait startva bva).waitsOn f = some W) (hv : v ∈ W) :
    (v = bva ∧ f = startva) ∨ ∃ W, s.waitsOn f = some W ∧ v ∈ W := by
  replace hW : Function.update s.waitsOn startva
    (some (((s.waitsOn startva).getD []).insert bva)) f = some W := hW
  by_cases hfs : f = startva
  · subst hfs
    rw [Function.update_self, Option.some.injEq] at hW
    subst hW
    rcases List.mem_insert_iff.mp hv with rfl | hv
    · exact Or.inl ⟨rfl, rfl⟩
    · cases hold : s.waitsOn f with
      | none =>
        rw [hold] at hv
        exact absurd hv List.not_mem_nil
      | some W =>
        rw [hold] at hv
        exact Or.inr ⟨W, rfl, hv⟩
  · rw [Function.update_of_ne hfs] at hW
    exact Or.inr ⟨W, hW, hv⟩

/-- A jump into an active function. -/
theorem Inv.step_wait (h : Inv opened s) {startva bva : VA} (hb : bva ∈ s.cfBlocks) :
    Step opened s (s.wait startva bva) := by
  refine ⟨⟨h.nodup, h.length_le, h.entered, h.active, h.blocked, fun f hf => ?_,
    fun f W v hW hv => ?_, fun f hnil => ?_, fun f W v hW hv => ?_⟩, rfl, fun _ hf => hf⟩
  · refine (h.settled f hf).imp_right fun hf => hf.imp_right fun hf => ⟨hf.1, ?_⟩
    show Function.update s.waitsOn startva _ f ≠ none
    by_cases hfs : f = startva
    · rw [hfs, Function.update_self]
      exact Option.some_ne_none _
    · rw [Function.update_of_ne hfs]
      exact hf.2
  · rcases mem_waitsOn_wait hW hv with ⟨rfl, -⟩ | ⟨W, hW, hv⟩
    · exact Or.inl (h.active v hb).1
    · exact h.waits f W v hW hv
  · replace hnil : Function.update s.waitsOn startva
        (some (((s.waitsOn startva).getD []).insert bva)) f = some [] := hnil
    by_cases hfs : f = startva
    · subst hfs
      rw [Function.update_self, Option.some.injEq] at hnil
      exact List.not_mem_nil (hnil ▸ List.mem_insert_self : bva ∈ [])
    · rw [Function.update_of_ne hfs] at hnil
      exact h.waits_ne f hnil
  · show ∃ A, Function.update s.awaitedBy bva
        (some (((s.awaitedBy bva).getD []).insert startva)) v = some A ∧ f ∈ A
    have hold := mem_waitsOn_wait hW hv
    by_cases hvb : v = bva
    · subst hvb
      rw [Function.update_self]
      refine ⟨_, rfl, ?_⟩
      rcases hold with ⟨-, rfl⟩ | ⟨W, hW, hv⟩
      · exact List.mem_insert_self
      · obtain ⟨A, hA, hf⟩ := h.awaited f W v hW hv
        rw [hA]
        exact List.mem_insert_of_mem hf
    · rw [Function.update_of_ne hvb]
      obtain ⟨W, hW, hv⟩ := hold.resolve_left fun heq => hvb heq.1
      exact h.awaited f W v hW hv

/-! ### One function's flow -/

/-- What is asked of the recursive calls: a new entry point is a step, and so is entering again a
function that was taken out. -/
structure Enters (enter : VA → CodeFlowContext σ → Option (CodeFlowContext σ)) : Prop where
  fresh : ∀ {opened : VA → Prop} {s s' : CodeFlowContext σ} {va : VA}, Inv opened s →
    enter va s = some s' → Step opened s s'
  again : ∀ {opened : VA → Prop} {s s' : CodeFlowContext σ} {va : VA}, Inv opened s →
    va ∈ s.functions → enter va { s with
      functions := s.functions.erase va
      blockedRecursion := s.blockedRecursion.erase va } = some s' → Step opened s s'

section Flow

variable {cb : Callbacks σ ι} {enter : VA → CodeFlowContext σ → Option (CodeFlowContext σ)}
  {startva cur : VA} {op : DecodedInsn ι} {f f' : Flow ι}

theorem step_indirectBranch (h : Inv opened s) :
    Step opened s (indirectBranch cb op f s).2.2 := by
  unfold indirectBranch
  split_ifs with hcandidate
  · cases hjt : (cb.resolveJt (f.windowEndingAt op) s.ext).1 with
    | none =>
      simp only [hjt]
      exact h.step_ext _ s.noflow
    | some jt =>
      simp only [hjt]
      exact h.step_ext _ s.noflow
  · exact Step.refl h

theorem step_descend (henter : Enters enter) (h : Inv opened s) {bva : VA}
    (hrun : descend enter bva f s = some (f', s')) : Step opened s s' := by
  unfold descend at hrun
  split_ifs at hrun with hactive hdepth
  · obtain ⟨-, rfl⟩ := Prod.mk.inj (Option.some.inj hrun)
    exact Step.refl h
  · obtain ⟨v, hv, hg⟩ := Option.map_eq_some_iff.mp hrun
    obtain ⟨-, rfl⟩ := Prod.mk.inj hg
    exact henter.fresh h hv
  · obtain ⟨-, rfl⟩ := Prod.mk.inj (Option.some.inj hrun)
    exact Step.refl h

theorem step_followCall (henter : Enters enter) (h : Inv opened s) {bva : VA}
    (hrun : followCall cb enter cur op bva f s = some (f', s')) : Step opened s s' := by
  by_cases hnext : bva = cur + op.length
  · rw [followCall, if_pos hnext] at hrun
    obtain ⟨-, rfl⟩ := Prod.mk.inj (Option.some.inj hrun)
    exact Step.refl h
  · rw [followCall, if_neg hnext] at hrun
    obtain ⟨⟨g, u⟩, hdescend, hrest⟩ := Option.bind_eq_some_iff.mp hrun
    obtain ⟨-, rfl⟩ := Prod.mk.inj (Option.some.inj hrest)
    have hu := step_descend henter h hdescend
    exact hu.trans (hu.inv.step_ext _ _)

theorem step_followBranch (henter : Enters enter) (h : Inv opened s) {flags : UInt16} {bva : VA}
    (hrun : followBranch cb enter startva cur op flags bva f s = some (f', s')) :
    Step opened s s' := by
  have hexec := h.step_ext (cb.isExec bva s.ext).2 s.noflow
  refine hexec.trans ?_
  unfold followBranch at hrun
  dsimp only at hrun
  split_ifs at hrun with hno hsuppressed hcall hjump hvisited
  · obtain ⟨-, rfl⟩ := Prod.mk.inj (Option.some.inj hrun)
    exact Step.refl hexec.inv
  · obtain ⟨-, rfl⟩ := Prod.mk.inj (Option.some.inj hrun)
    exact Step.refl hexec.inv
  · exact step_followCall henter hexec.inv hrun
  · obtain ⟨-, rfl⟩ := Prod.mk.inj (Option.some.inj hrun)
    exact hexec.inv.step_wait hjump.1
  · obtain ⟨-, rfl⟩ := Prod.mk.inj (Option.some.inj hrun)
    exact Step.refl hexec.inv
  · obtain ⟨-, rfl⟩ := Prod.mk.inj (Option.some.inj hrun)
    exact Step.refl hexec.inv

theorem step_branchLoop (henter : Enters enter) {fuel : ℕ} {branches : List CfBranch}
    (h : Inv opened s)
    (hrun : branchLoop cb enter startva cur op fuel branches f s = some (f', s')) :
    Step opened s s' := by
  induction fuel generalizing branches f s with
  | zero => exact nomatch hrun
  | succ fuel ih =>
    match branches with
    | [] =>
      obtain ⟨-, rfl⟩ := Prod.mk.inj (Option.some.inj hrun)
      exact Step.refl h
    | ⟨none, flags⟩ :: branches =>
      have hstep : Step opened s (indirectBranch cb op f s).2.2 := step_indirectBranch h
      exact hstep.trans (ih hstep.inv hrun)
    | ⟨some bva, flags⟩ :: branches =>
      obtain ⟨⟨g, u⟩, hbranch, hrest⟩ := Option.bind_eq_some_iff.mp hrun
      have hstep := step_followBranch henter h hbranch
      exact hstep.trans (ih hstep.inv hrest)

theorem step_flowLoop (henter : Enters enter) {fuel : ℕ} (h : Inv opened s)
    (hrun : flowLoop cb enter startva fuel f s = some (f', s')) : Step opened s s' := by
  induction fuel generalizing f s with
  | zero => exact nomatch hrun
  | succ fuel ih =>
    unfold flowLoop at hrun
    split at hrun
    · obtain ⟨-, rfl⟩ := Prod.mk.inj (Option.some.inj hrun)
      exact Step.refl h
    rename_i cur optodo htodo
    dsimp only at hrun
    have hdefined := h.step_ext (cb.isDefined cur s.ext).2 s.noflow
    have hread := hdefined.inv.step_ext (cb.read cur (cb.isDefined cur s.ext).2).2 s.noflow
    split_ifs at hrun with hmany hvisited hisDefined htable
    · obtain ⟨-, rfl⟩ := Prod.mk.inj (Option.some.inj hrun)
      exact Step.refl h
    · exact ih h hrun
    · exact hdefined.trans (ih hdefined.inv hrun)
    · exact hdefined.trans (ih hdefined.inv hrun)
    · refine hdefined.trans (hread.trans ?_)
      split at hrun
      · exact ih hread.inv hrun
      · rename_i op hop
        obtain ⟨⟨g, u⟩, hbranches, hrest⟩ := Option.bind_eq_some_iff.mp hrun
        have hopcode := hread.inv.step_ext
          (cb.onOpcode cur op (getBranches op) (cb.read cur (cb.isDefined cur s.ext).2).2) s.noflow
        have hloop := step_branchLoop henter hopcode.inv hbranches
        exact hopcode.trans (hloop.trans (ih hloop.inv hrest))

theorem step_drainTargets (henter : Enters enter) {targets : List VA} (h : Inv opened s)
    (hrun : drainTargets enter targets s = some s') : Step opened s s' := by
  induction targets generalizing s with
  | nil =>
    obtain rfl := Option.some.inj hrun
    exact Step.refl h
  | cons fva targets ih =>
    unfold drainTargets at hrun
    split_ifs at hrun with hactive hreported
    · have hstep : Step opened s
          { s with blockedRecursion := pushUnique s.blockedRecursion fva } := by
        refine ⟨⟨h.nodup, h.length_le, h.entered, h.active, fun f hf => ?_, h.settled, h.waits,
          h.waits_ne, h.awaited⟩, rfl, fun _ hf => hf⟩
        replace hf : f ∈ pushUnique s.blockedRecursion fva := hf
        unfold pushUnique at hf
        split_ifs at hf
        · exact h.blocked f hf
        · rcases List.mem_append.mp hf with hf | hf
          · exact h.blocked f hf
          · exact List.mem_singleton.mp hf ▸ (h.active fva hactive).2
      exact hstep.trans (ih hstep.inv hrun)
    · exact ih h hrun
    · obtain ⟨u, hu, hrest⟩ := Option.bind_eq_some_iff.mp hrun
      have hstep := henter.fresh h hu
      exact hstep.trans (ih hstep.inv hrest)

theorem step_drainBlocked (henter : Enters enter) {snapshot stillBlocked : List VA}
    (h : Inv opened s) (hsnapshot : ∀ f ∈ snapshot, f ∈ s.functions)
    (hstill : ∀ f ∈ stillBlocked, f ∈ s.functions)
    (hrun : drainBlocked enter snapshot stillBlocked s = some s') : Step opened s s' := by
  induction snapshot generalizing stillBlocked s with
  | nil =>
    obtain rfl := Option.some.inj hrun
    exact ⟨⟨h.nodup, h.length_le, h.entered, h.active, hstill, h.settled, h.waits, h.waits_ne,
      h.awaited⟩, rfl, fun _ hf => hf⟩
  | cons fva snapshot ih =>
    rw [List.forall_mem_cons] at hsnapshot
    unfold drainBlocked at hrun
    split_ifs at hrun with hagain
    · obtain ⟨u, hu, hrest⟩ := Option.bind_eq_some_iff.mp hrun
      have hstep := henter.again h hsnapshot.1 hu
      exact hstep.trans (ih hstep.inv (fun f hf => hstep.functions (hsnapshot.2 f hf))
        (fun f hf => hstep.functions (hstill f hf)) hrest)
    · refine ih h hsnapshot.2 (fun f hf => ?_) hrun
      rcases List.mem_append.mp hf with hf | hf
      · exact hstill f hf
      · exact List.mem_singleton.mp hf ▸ hsnapshot.1

/-- The flow of one function. -/
theorem step_addCodeFlow (henter : Enters enter) {fuel : ℕ} {va : VA} (h : Inv opened s)
    (hopen : opened va) (hva : va ∈ s.functions)
    (hrun : addCodeFlow cb enter fuel va s = some s') : Step opened s s' := by
  obtain ⟨⟨f, u⟩, hflow, hrest⟩ := Option.bind_eq_some_iff.mp hrun
  obtain ⟨v, htargets, hblocked⟩ := Option.bind_eq_some_iff.mp hrest
  have hpush : Inv opened { s with cfBlocks := va :: s.cfBlocks } :=
    ⟨h.nodup, h.length_le, h.entered, fun f hf => (List.mem_cons.mp hf).elim
      (fun heq => by subst heq; exact ⟨hopen, hva⟩) (h.active f), h.blocked, h.settled, h.waits,
        h.waits_ne,
      h.awaited⟩
  have hu := step_flowLoop henter hpush hflow
  have htail : u.cfBlocks.tail = s.cfBlocks := by rw [hu.cfBlocks]; rfl
  have hpop : Inv opened { u with cfBlocks := u.cfBlocks.tail } :=
    ⟨hu.inv.nodup, hu.inv.length_le, hu.inv.entered,
      fun f hf => hu.inv.active f (List.mem_of_mem_tail hf), hu.inv.blocked, hu.inv.settled,
      hu.inv.waits, hu.inv.waits_ne, hu.inv.awaited⟩
  have hv := step_drainTargets henter hpop htargets
  have hs' := step_drainBlocked henter hv.inv hv.inv.blocked
      (fun f hf => absurd hf List.not_mem_nil)
    hblocked
  exact ⟨hs'.inv, hs'.cfBlocks.trans (hv.cfBlocks.trans htail),
    fun f hf => hs'.functions (hv.functions (hu.functions hf))⟩

end Flow

/-! ### Entry points -/

/-- An entry point that is made, from the functions without it. -/
theorem step_entered {flow : VA → CodeFlowContext σ → Option (CodeFlowContext σ)}
    {cb : Callbacks σ ι} {va : VA} {l blocked : List VA} {trace : List Event}
    (hflow : ∀ {opened : VA → Prop} {s s' : CodeFlowContext σ}, Inv opened s → opened va →
      va ∈ s.functions → flow va s = some s' → Step opened s s')
    (h : Inv opened s) (hnodup : (va :: l).Nodup) (hlength : l.length < kMaxFunctionsPerImage)
    (hl : ∀ f ∈ l, f ∈ s.functions) (hfun : s.functions ⊆ va :: l)
    (hblocked : ∀ f ∈ blocked, f ∈ s.functions) (htrace : trace = .entered va :: s.trace)
    (hrun : (do
      let s ← flow va { s with functions := va :: l, blockedRecursion := blocked, trace }
      if s.waitsOn va = none then some (s.reportFunction cb va) else some (s.hold va)) = some s') :
    Step opened s s' := by
  subst htrace
  obtain ⟨u, hu, hend⟩ := Option.bind_eq_some_iff.mp hrun
  have hstart : Inv (fun v => opened v ∨ v = va) { s with
      functions := va :: l, blockedRecursion := blocked, trace := .entered va :: s.trace } := by
    refine ⟨hnodup, hlength, fun f hf => ?_, fun f hf => ?_, fun f hf => hfun (hblocked f hf),
      fun f hf => ?_, fun f W v hW hv => ?_, h.waits_ne, h.awaited⟩
    · rcases List.mem_cons.mp hf with hf | hf
      · exact (Event.entered.inj hf) ▸ List.mem_cons_self
      · exact hfun (h.entered f hf)
    · exact ⟨Or.inl (h.active f hf).1, hfun (h.active f hf).2⟩
    · rcases List.mem_cons.mp hf with rfl | hf
      · exact Or.inl (Or.inr rfl)
      · exact (h.settled f (hl f hf)).imp Or.inl (Or.imp_left (List.mem_cons_of_mem _))
    · exact (h.waits f W v hW hv).imp Or.inl (List.mem_cons_of_mem _)
  have hstep := hflow hstart (Or.inr rfl) List.mem_cons_self hu
  have hactive : ∀ f ∈ u.cfBlocks, opened f := fun f hf =>
    (h.active f (hstep.cfBlocks ▸ hf)).1
  have hsub : s.functions ⊆ u.functions := fun f hf => hstep.functions (hfun hf)
  split_ifs at hend with hwaits
  · obtain rfl := Option.some.inj hend
    obtain ⟨hfun', hblocks', -⟩ := reportFunction_spec cb va hstep.inv
    exact ⟨inv_reportFunction cb hstep.inv hactive, hblocks'.trans hstep.cfBlocks,
      fun f hf => hfun' ▸ hsub hf⟩
  · obtain rfl := Option.some.inj hend
    exact ⟨inv_hold hstep.inv hactive hwaits, hstep.cfBlocks, hsub⟩

/-- One entry point. -/
theorem enters_addEntryPoint (cb : Callbacks σ ι) (fuel : ℕ) : Enters (addEntryPoint cb fuel) := by
  induction fuel with
  | zero =>
    constructor
    · intro opened s s' va h hrun
      exact nomatch hrun
    · intro opened s s' va h hva hrun
      exact nomatch hrun
  | succ fuel ih =>
    have hflow : ∀ {va : VA} {opened : VA → Prop} {s s' : CodeFlowContext σ}, Inv opened s →
        opened va → va ∈ s.functions →
        addCodeFlow cb (addEntryPoint cb fuel) fuel va s = some s' → Step opened s s' :=
      fun h hopen hva hrun => step_addCodeFlow ih h hopen hva hrun
    constructor
    · intro opened s s' va h hrun
      replace hrun : entryPoint (addCodeFlow cb (addEntryPoint cb fuel) fuel) cb va s = some s' :=
        hrun
      unfold entryPoint at hrun
      split_ifs at hrun with hmany hva
      · obtain rfl := Option.some.inj hrun
        exact Step.refl h
      · obtain rfl := Option.some.inj hrun
        exact Step.refl h
      · exact step_entered hflow h (List.nodup_cons.mpr ⟨hva, h.nodup⟩) (Nat.lt_of_not_le hmany)
          (fun f hf => hf) (List.subset_cons_self _ _) h.blocked rfl hrun
    · intro opened s s' va h hva hrun
      have hlength := List.length_erase_add_one hva
      have hle := h.length_le
      have hnot : va ∉ s.functions.erase va := h.nodup.not_mem_erase
      replace hrun : entryPoint (addCodeFlow cb (addEntryPoint cb fuel) fuel) cb va { s with
        functions := s.functions.erase va
        blockedRecursion := s.blockedRecursion.erase va } = some s' := hrun
      unfold entryPoint at hrun
      rw [if_neg (by show ¬ _ ≤ (s.functions.erase va).length; omega), if_neg hnot] at hrun
      refine step_entered hflow h (List.nodup_cons.mpr ⟨hnot, h.nodup.erase va⟩) (by omega)
        (fun f hf => List.mem_of_mem_erase hf) (fun f hf => ?_)
        (fun f hf => h.blocked f (List.mem_of_mem_erase hf)) rfl hrun
      by_cases hfv : f = va
      · exact hfv ▸ List.mem_cons_self
      · exact List.mem_cons_of_mem _ ((List.mem_erase_of_ne hfv).mpr hf)

/-- The context between outermost calls. -/
theorem Runs.inv {cb : Callbacks σ ι} {ext : σ} {vas : List VA} {s : CodeFlowContext σ}
    (h : Runs cb ext vas s) : Inv (fun _ => False) s := by
  induction h with
  | nil =>
    exact ⟨List.nodup_nil, Nat.zero_le _, fun _ hf => absurd hf List.not_mem_nil,
      fun _ hf => absurd hf List.not_mem_nil, fun _ hf => absurd hf List.not_mem_nil,
      fun _ hf => absurd hf List.not_mem_nil, fun _ _ _ hW _ => (nomatch hW),
      fun _ hW => (nomatch hW), fun _ _ _ hW _ => (nomatch hW)⟩
  | call fuel va _ hcall ih => exact ((enters_addEntryPoint cb fuel).fresh ih hcall).inv

/-- **The functions that stay unreported wait on a held one.** When an outermost call returns, every
function ever entered is in the set of functions and was passed to `on_function`, or its report is
held and it waits on a function whose own report was held; and nothing waits on a function that was
never held. -/
theorem reported_or_waits_on_held {cb : Callbacks σ ι} {ext : σ} {vas : List VA}
    {s : CodeFlowContext σ} (h : Runs cb ext vas s) :
    (∀ f, .entered f ∈ s.trace → f ∈ s.functions) ∧
      (∀ f ∈ s.functions, .function f ∈ s.trace ∨ (f ∈ s.reportHeld ∧
        ∃ W, s.waitsOn f = some W ∧ ∃ v ∈ W, .held v ∈ s.trace)) ∧
      ∀ f W v, s.waitsOn f = some W → v ∈ W → .held v ∈ s.trace := by
  have hinv := h.inv
  have hheld : ∀ f W v, s.waitsOn f = some W → v ∈ W → .held v ∈ s.trace :=
    fun f W v hW hv => (hinv.waits f W v hW hv).resolve_left id
  refine ⟨hinv.entered, fun f hf => ?_, hheld⟩
  refine ((hinv.settled f hf).resolve_left id).imp_right fun ⟨hin, hwait⟩ => ⟨hin, ?_⟩
  obtain ⟨W, hW⟩ := Option.ne_none_iff_exists'.mp hwait
  obtain ⟨v, hv⟩ := List.exists_mem_of_ne_nil W fun hnil => hinv.waits_ne f (hnil ▸ hW)
  exact ⟨W, hW, v, hv, hheld f W v hW hv⟩

/-! ### A chain of waits -/

/-- The instructions of three functions: `0x1000` calls `0x2000`, which calls `0x3000` and then
jumps to `0x1000`; `0x3000` jumps to `0x2000`. -/
def chainInsn (va : VA) : Option (DecodedInsn Unit) :=
  let call (target : VA) : DecodedInsn Unit :=
    ⟨va, 5, [.pcRel], true, false, false, false, some target, true, ()⟩
  let jump (target : VA) : DecodedInsn Unit :=
    ⟨va, 5, [.pcRel], false, true, false, false, some target, false, ()⟩
  if va = 0x1000 then some (call 0x2000)
  else if va = 0x1005 then some ⟨va, 1, [], false, false, false, true, none, false, ()⟩
  else if va = 0x2000 then some (call 0x3000)
  else if va = 0x2005 then some (jump 0x1000)
  else if va = 0x3000 then some (jump 0x2000)
  else none

/-- Callbacks over these instructions that keep the addresses decoded. -/
def chainCallbacks : Callbacks (List VA) Unit where
  read va ext := (chainInsn va, ext)
  isExec _ ext := (true, ext)
  isDefined va ext := (decide (va ∈ ext), ext)
  onOpcode va _ _ ext := va :: ext
  onFunction _ ext := ext
  resolveJt _ ext := (none, ext)
  isNoReturnCall _ ext := (false, ext)
  onBranchTable _ _ ext := ext

theorem exists_run_chain : ∃ s, Runs chainCallbacks [] [0x1000] s ∧ 0x3000 ∈ s.functions ∧
    .function 0x3000 ∉ s.trace ∧ .function 0x2000 ∈ s.trace ∧ s.waitsOn 0x3000 = some [0x2000] := by
  have hrun : (addEntryPoint chainCallbacks 8 0x1000 { ext := [] }).any (fun s =>
      0x3000 ∈ s.functions ∧ .function 0x3000 ∉ s.trace ∧ .function 0x2000 ∈ s.trace ∧
        s.waitsOn 0x3000 = some [0x2000]) = true := by
    decide +kernel
  obtain ⟨s, hs, hp⟩ := (Option.any_eq_true _ _).mp hrun
  exact ⟨s, .call 8 0x1000 .nil hs, of_decide_eq_true hp⟩

theorem reported_or_waits_on_held_chain : ∃ s, Runs chainCallbacks [] [0x1000] s ∧
    0x3000 ∈ s.functions ∧ 0x3000 ∈ s.reportHeld ∧
      ∃ W, s.waitsOn 0x3000 = some W ∧ ∃ v ∈ W, .held v ∈ s.trace := by
  obtain ⟨s, hs, hin, hnot, -⟩ := exists_run_chain
  exact ⟨s, hs, hin, ((reported_or_waits_on_held hs).2.1 0x3000 hin).resolve_left hnot⟩

/-- The function that jumps into a function that itself jumps into its caller is entered and never
reported: it waits on the one in the middle, and the release of that one goes no further. -/
theorem entered_not_reported : ∃ s, Runs chainCallbacks [] [0x1000] s ∧
    0x3000 ∈ s.functions ∧ .function 0x3000 ∉ s.trace ∧
      s.waitsOn 0x3000 = some [0x2000] ∧ .function 0x2000 ∈ s.trace := by
  obtain ⟨s, hs, hin, hnot, hreported, hwaits⟩ := exists_run_chain
  exact ⟨s, hs, hin, hnot, hwaits, hreported⟩

end Papa.Viv.CodeFlowContext
