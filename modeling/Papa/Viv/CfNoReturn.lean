import Papa.Viv.CfCallbacks
import Papa.Viv.CfReports

/-!
# Calls that do not return

A call that does not return ends the flow: its fall-through is suppressed, so that what follows it
is decoded as an entry point or through some other edge, or not at all. The suppression is made
where the call edge is followed. A call without a static target, as one through the import table,
has no such edge, and a call whose target is not executable has one that is skipped; of these the
fall-through is followed.

## Main definitions

* `CodeFlowContext.Tells`: what the callbacks were passed so far.
* `CodeFlowContext.Follows`: the edges of a flow, without those that must not be followed.
* `CodeFlowContext.Reached`: every instruction is an entry point or was reached by such an edge.
* `CodeFlowContext.Suppressed`: calls whose fall-through is suppressed.

## Main results

* `CodeFlowContext.reached_of_suppressed`.
* `CodeFlowContext.import_call_falls_through`.
-/

namespace Papa.Viv

namespace CodeFlowContext

variable {σ ι : Type}

/-! ### The edges of a flow -/

/-- The instructions that are read and the calls that do not return are fixed, and the state of the
callbacks tells what they were passed, the last first. -/
structure Tells (cb : Callbacks σ ι) (reader : VA → Option (DecodedInsn ι))
    (noReturn : DecodedInsn ι → Bool) (told : σ → List (Told ι)) : Prop where
  read : ∀ va x, (cb.read va x).1 = reader va ∧ told (cb.read va x).2 = told x
  isNoReturnCall : ∀ op x, (cb.isNoReturnCall op x).1 = noReturn op ∧
    told (cb.isNoReturnCall op x).2 = told x
  isExec : ∀ va x, told (cb.isExec va x).2 = told x
  isDefined : ∀ va x, told (cb.isDefined va x).2 = told x
  onOpcode : ∀ va op branches x, told (cb.onOpcode va op branches x) = .opcode va op :: told x
  onFunction : ∀ va x, told (cb.onFunction va x) = told x
  resolveJt : ∀ window x, told (cb.resolveJt window x).2 = told x
  onBranchTable : ∀ fromVa caseVa x,
    told (cb.onBranchTable fromVa caseVa x) = .branchTable fromVa caseVa :: told x

/-- A call that does not return, whatever the form of its operand, unless its target is the next
instruction. -/
def EndsFlow (noReturn : DecodedInsn ι → Bool) (c : VA) (op : DecodedInsn ι) : Prop :=
  op.isCall ∧ noReturn op ∧ op.branchTarget ≠ some (c + op.length)

/-- The edges of the instruction at `c` within its function: branches that are no calls,
fall-throughs except that of a call that ends the flow, and cases of a switch. -/
def Follows (noReturn : DecodedInsn ι → Bool) (told : List (Told ι)) (c : VA) (op : DecodedInsn ι)
    (a : VA) : Prop :=
  (∃ br ∈ getBranches op, br.target = some a ∧ br.flags &&& kBrProc = 0 ∧
    ¬ (EndsFlow noReturn c op ∧ br.flags &&& kBrFall ≠ 0 ∧ a = c + op.length)) ∨
  .branchTable op.va a ∈ told

/-- Whether an address is an entry point, or an instruction told has an edge to it. -/
def Justified (noReturn : DecodedInsn ι → Bool) (trace : List Event) (told : List (Told ι))
    (a : VA) : Prop :=
  .entered a ∈ trace ∨ ∃ c op, .opcode c op ∈ told ∧ Follows noReturn told c op a

/-- Every instruction is an entry point or was reached from an instruction before it. -/
def Reached (noReturn : DecodedInsn ι → Bool) (trace : List Event) (told : List (Told ι)) : Prop :=
  ∀ a op earlier, .opcode a op :: earlier <:+ told → Justified noReturn trace earlier a

/-- A call that ends the flow has a static target, which is executable, unless it has no
fall-through or what follows it is not executable. -/
def Suppressed (cb : Callbacks σ ι) (noReturn : DecodedInsn ι → Bool) (c : VA)
    (op : DecodedInsn ι) : Prop :=
  EndsFlow noReturn c op → op.isFallthrough → ¬ op.isReturn →
    (∀ x, (cb.isExec (c + op.length) x).1 = false) ∨
      ∃ target, op.branchTarget = some target ∧ ∀ x, (cb.isExec target x).1 = true

variable {cb : Callbacks σ ι} {reader : VA → Option (DecodedInsn ι)}
  {noReturn : DecodedInsn ι → Bool} {told : σ → List (Told ι)} {trace trace' : List Event}
  {before after : List (Told ι)} {c a : VA} {op : DecodedInsn ι}

theorem Follows.mono (h : Follows noReturn before c op a) (hsub : before ⊆ after) :
    Follows noReturn after c op a :=
  h.imp_right fun hcase => hsub hcase

theorem Justified.mono (h : Justified noReturn trace before a) (htrace : trace ⊆ trace')
    (hsub : before ⊆ after) : Justified noReturn trace' after a :=
  h.imp (fun hentered => htrace hentered)
    fun ⟨c, op, hmem, hfollows⟩ => ⟨c, op, hsub hmem, hfollows.mono hsub⟩

theorem Reached.mono (h : Reached noReturn trace before) (htrace : trace ⊆ trace') :
    Reached noReturn trace' before :=
  fun a op earlier hsuffix => (h a op earlier hsuffix).mono htrace (List.Subset.refl _)

theorem Reached.opcode (h : Reached noReturn trace before) (ha : Justified noReturn trace before a)
    (op : DecodedInsn ι) : Reached noReturn trace (.opcode a op :: before) := by
  intro b op' earlier hsuffix
  rcases List.suffix_cons_iff.mp hsuffix with heq | hsuffix
  · obtain ⟨hhead, rfl⟩ := List.cons.inj heq
    obtain ⟨rfl, -⟩ := Told.opcode.inj hhead
    exact ha
  · exact h b op' earlier hsuffix

theorem Reached.branchTable (h : Reached noReturn trace before) (fromVa caseVa : VA) :
    Reached noReturn trace (.branchTable fromVa caseVa :: before) := by
  intro b op' earlier hsuffix
  rcases List.suffix_cons_iff.mp hsuffix with heq | hsuffix
  · exact nomatch (List.cons.inj heq).1
  · exact h b op' earlier hsuffix

/-! ### What a step of the context keeps -/

/-- What holds of a context, with the addresses on a stack that are to be decoded. -/
structure Sound (reader : VA → Option (DecodedInsn ι)) (noReturn : DecodedInsn ι → Bool)
    (told : σ → List (Told ι)) (todo : List VA) (s : CodeFlowContext σ) : Prop where
  reached : Reached noReturn s.trace (told s.ext)
  /-- Only the fall-through of an instruction is suppressed. -/
  noflow : ∀ c n, (c, n) ∈ s.noflow → ∃ op, reader c = some op ∧ n = c + op.length
  todo : ∀ a ∈ todo, Justified noReturn s.trace (told s.ext) a

/-- Whether every instruction told has its fall-through suppressed if it ends the flow. -/
def AllSuppressed (cb : Callbacks σ ι) (noReturn : DecodedInsn ι → Bool) (told : List (Told ι)) :
    Prop :=
  ∀ c op, .opcode c op ∈ told → Suppressed cb noReturn c op

/-- What is told, what happened and what is suppressed only grows. -/
structure Grows (told : σ → List (Told ι)) (s s' : CodeFlowContext σ) : Prop where
  told : told s.ext ⊆ told s'.ext
  trace : s.trace ⊆ s'.trace
  noflow : s.noflow ⊆ s'.noflow

/-- What a part of an entry point does to a context and a stack. -/
structure Advances (cb : Callbacks σ ι) (reader : VA → Option (DecodedInsn ι))
    (noReturn : DecodedInsn ι → Bool) (told : σ → List (Told ι)) (todo : List VA)
    (s : CodeFlowContext σ) (todo' : List VA) (s' : CodeFlowContext σ) : Prop where
  grows : Grows told s s'
  sound : AllSuppressed cb noReturn (told s'.ext) → Sound reader noReturn told todo s →
    Sound reader noReturn told todo' s'

variable {s s' s'' : CodeFlowContext σ} {todo todo' todo'' : List VA}

theorem Grows.refl (s : CodeFlowContext σ) : Grows told s s :=
  ⟨List.Subset.refl _, List.Subset.refl _, List.Subset.refl _⟩

theorem Grows.trans (h : Grows told s s') (h' : Grows told s' s'') : Grows told s s'' :=
  ⟨List.Subset.trans h.told h'.told, List.Subset.trans h.trace h'.trace,
    List.Subset.trans h.noflow h'.noflow⟩

theorem AllSuppressed.of_subset (h : AllSuppressed cb noReturn after) (hsub : before ⊆ after) :
    AllSuppressed cb noReturn before :=
  fun c op hmem => h c op (hsub hmem)

theorem Advances.refl : Advances cb reader noReturn told todo s todo s :=
  ⟨.refl s, fun _ hs => hs⟩

theorem Advances.trans (h : Advances cb reader noReturn told todo s todo' s')
    (h' : Advances cb reader noReturn told todo' s' todo'' s'') :
    Advances cb reader noReturn told todo s todo'' s'' :=
  ⟨h.grows.trans h'.grows, fun hall hs =>
    h'.sound hall (h.sound (hall.of_subset h'.grows.told) hs)⟩

/-- Changes to what no edge depends on. -/
theorem Advances.of_told_eq (htold : told s'.ext = told s.ext) (htrace : s.trace ⊆ s'.trace)
    (hnoflow : s'.noflow = s.noflow) : Advances cb reader noReturn told todo s todo s' := by
  refine ⟨⟨htold ▸ List.Subset.refl _, htrace, hnoflow ▸ List.Subset.refl _⟩, fun _ hs => ?_⟩
  refine ⟨htold ▸ hs.reached.mono htrace, hnoflow ▸ hs.noflow, fun a ha => ?_⟩
  exact (hs.todo a ha).mono htrace (htold ▸ List.Subset.refl _)

/-- Nested entry points keep the stack of the flow that made them. -/
theorem Advances.with_todo (h : Advances cb reader noReturn told [] s [] s') (todo : List VA) :
    Advances cb reader noReturn told todo s todo s' := by
  refine ⟨h.grows, fun hall hs => ?_⟩
  have hs' := h.sound hall ⟨hs.reached, hs.noflow, fun _ ha => absurd ha List.not_mem_nil⟩
  exact ⟨hs'.reached, hs'.noflow, fun a ha => (hs.todo a ha).mono h.grows.trace h.grows.told⟩

/-! ### One function's flow -/

section Flow

variable {enter : VA → CodeFlowContext σ → Option (CodeFlowContext σ)} {startva cur bva : VA}
  {flags : UInt16} {f f' : Flow ι} (h : Tells cb reader noReturn told)
  (henter : ∀ va s s', enter va s = some s' → Advances cb reader noReturn told [] s [] s')

/-- An edge that may be followed, or is suppressed, or leads to no code. -/
def Open (cb : Callbacks σ ι) (noReturn : DecodedInsn ι → Bool) (told : σ → List (Told ι))
    (cur : VA) (s : CodeFlowContext σ) (br : CfBranch) : Prop :=
  ∀ a, br.target = some a → br.flags &&& kBrProc = 0 →
    Justified noReturn s.trace (told s.ext) a ∨ (cur, a) ∈ s.noflow ∨
      ∀ x, (cb.isExec a x).1 = false

theorem Open.mono {br : CfBranch} (hopen : Open cb noReturn told cur s br)
    (hgrows : Grows told s s') : Open cb noReturn told cur s' br :=
  fun a htarget hflags => (hopen a htarget hflags).imp (·.mono hgrows.trace hgrows.told)
    (Or.imp_left fun hmem => hgrows.noflow hmem)

include henter

theorem descend_advances (hrun : descend enter bva f s = some (f', s')) :
    Advances cb reader noReturn told f.optodo s f'.optodo s' := by
  unfold descend at hrun
  split_ifs at hrun
  · obtain ⟨rfl, rfl⟩ := Prod.mk.inj (Option.some.inj hrun)
    exact .refl
  · obtain ⟨v, hv, hg⟩ := Option.map_eq_some_iff.mp hrun
    obtain ⟨rfl, rfl⟩ := Prod.mk.inj hg
    exact (henter _ _ _ hv).with_todo f.optodo
  · obtain ⟨rfl, rfl⟩ := Prod.mk.inj (Option.some.inj hrun)
    exact .refl

include h

/-- A call edge. After a call that does not return the fall-through is suppressed. -/
theorem followCall_advances (hread : reader cur = some op)
    (hrun : followCall cb enter cur op bva f s = some (f', s')) :
    Advances cb reader noReturn told f.optodo s f'.optodo s' ∧
      (bva ≠ cur + op.length → noReturn op → (cur, cur + op.length) ∈ s'.noflow) := by
  by_cases hnext : bva = cur + op.length
  · rw [followCall, if_pos hnext] at hrun
    obtain ⟨rfl, rfl⟩ := Prod.mk.inj (Option.some.inj hrun)
    exact ⟨.refl, fun hne => absurd hnext hne⟩
  · rw [followCall, if_neg hnext] at hrun
    obtain ⟨⟨g, u⟩, hdescend, hrest⟩ := Option.bind_eq_some_iff.mp hrun
    obtain ⟨rfl, rfl⟩ := Prod.mk.inj (Option.some.inj hrest)
    obtain ⟨hreturn, htold⟩ := h.isNoReturnCall op u.ext
    refine ⟨(descend_advances henter hdescend).trans ⟨⟨?_, List.Subset.refl _, ?_⟩, fun _ hs =>
      ⟨?_, fun c n hmem => ?_, fun a ha => ?_⟩⟩, fun _ hno => ?_⟩
    · exact htold ▸ List.Subset.refl _
    · intro e he
      show e ∈ if _ then _ else _
      split_ifs
      · exact List.mem_insert_of_mem he
      · exact he
    · exact htold ▸ hs.reached
    · replace hmem : (c, n) ∈ if (cb.isNoReturnCall op u.ext).1 = true then
          u.noflow.insert (cur, cur + op.length) else u.noflow := hmem
      split_ifs at hmem
      · rcases List.mem_insert_iff.mp hmem with heq | hmem
        · obtain ⟨rfl, rfl⟩ := Prod.mk.inj heq
          exact ⟨op, hread, rfl⟩
        · exact hs.noflow c n hmem
      · exact hs.noflow c n hmem
    · exact htold ▸ hs.todo a ha
    · show _ ∈ if _ then _ else _
      rw [hreturn, if_pos hno]
      exact List.mem_insert_self

/-- An edge with a target: it is put on the stack only if it may be followed. -/
theorem followBranch_advances (hread : reader cur = some op)
    (hrun : followBranch cb enter startva cur op flags bva f s = some (f', s')) :
    Grows told s s' ∧ (AllSuppressed cb noReturn (told s'.ext) →
      Open cb noReturn told cur s ⟨some bva, flags⟩ → Sound reader noReturn told f.optodo s →
        Sound reader noReturn told f'.optodo s') := by
  have hexec : Advances cb reader noReturn told f.optodo s f.optodo
      { s with ext := (cb.isExec bva s.ext).2 } :=
    .of_told_eq (h.isExec bva s.ext) (List.Subset.refl _) rfl
  unfold followBranch at hrun
  dsimp only at hrun
  split_ifs at hrun with hno hsuppressed hcall hjump hvisited
  · obtain ⟨rfl, rfl⟩ := Prod.mk.inj (Option.some.inj hrun)
    exact ⟨hexec.grows, fun hall _ => hexec.sound hall⟩
  · obtain ⟨rfl, rfl⟩ := Prod.mk.inj (Option.some.inj hrun)
    exact ⟨hexec.grows, fun hall _ => hexec.sound hall⟩
  · have hstep := hexec.trans (followCall_advances h henter hread hrun).1
    exact ⟨hstep.grows, fun hall _ => hstep.sound hall⟩
  · obtain ⟨rfl, rfl⟩ := Prod.mk.inj (Option.some.inj hrun)
    have hstep : Advances cb reader noReturn told f.optodo s f.optodo
        (wait startva bva { s with ext := (cb.isExec bva s.ext).2 }) :=
      hexec.trans (.of_told_eq rfl (List.Subset.refl _) rfl)
    exact ⟨hstep.grows, fun hall _ => hstep.sound hall⟩
  · obtain ⟨rfl, rfl⟩ := Prod.mk.inj (Option.some.inj hrun)
    exact ⟨hexec.grows, fun hall _ => hexec.sound hall⟩
  · obtain ⟨rfl, rfl⟩ := Prod.mk.inj (Option.some.inj hrun)
    refine ⟨hexec.grows, fun hall hopen hs => ?_⟩
    have hs' := hexec.sound hall hs
    refine ⟨hs'.reached, hs'.noflow, List.forall_mem_cons.mpr ⟨?_, hs'.todo⟩⟩
    rcases hopen bva rfl (not_not.mp hcall) with hjustified | hmem | hdata
    · exact hjustified.mono hexec.grows.trace hexec.grows.told
    · exact absurd hmem hsuppressed
    · exact absurd (by simp [hdata]) hno

/-- The call edge of a call that ends the flow. -/
theorem mem_noflow_of_followBranch (hread : reader cur = some op) (hends : EndsFlow noReturn cur op)
    (htarget : op.branchTarget = some bva) (hexec : (cb.isExec bva s.ext).1 = true)
    (hflags : flags &&& kBrProc ≠ 0) (hs : Sound reader noReturn told todo s)
    (hrun : followBranch cb enter startva cur op flags bva f s = some (f', s')) :
    (cur, cur + op.length) ∈ s'.noflow := by
  obtain ⟨-, hno, hne⟩ := hends
  have hnext : bva ≠ cur + op.length := fun heq => hne (heq ▸ htarget)
  have hnot : (cur, bva) ∉ s.noflow := by
    intro hmem
    obtain ⟨op', hop', heq⟩ := hs.noflow cur bva hmem
    obtain rfl := Option.some.inj (hread.symm.trans hop')
    exact hnext heq
  unfold followBranch at hrun
  dsimp only at hrun
  rw [if_neg (by simp [hexec]), if_neg hnot, if_pos hflags] at hrun
  exact (followCall_advances h henter hread hrun).2 hnext hno

omit henter in
theorem told_foldl_onBranchTable (fromVa : VA) (targets : List VA) (x : σ) :
    told (targets.foldl (fun ext va => cb.onBranchTable fromVa va ext) x) =
      (targets.map (.branchTable fromVa)).reverse ++ told x := by
  induction targets generalizing x with
  | nil => rfl
  | cons va targets ih =>
    rw [List.foldl_cons, ih, h.onBranchTable]
    simp

omit h henter in
theorem Reached.cases (hs : Reached noReturn trace before) (fromVa : VA) (targets : List VA) :
    Reached noReturn trace ((targets.map (.branchTable fromVa)).reverse ++ before) := by
  induction targets generalizing before with
  | nil => exact hs
  | cons va targets ih =>
    rw [List.map_cons, List.reverse_cons, List.append_assoc, List.singleton_append]
    exact ih (hs.branchTable fromVa va)

omit henter in
/-- An indirect branch: the cases of a switch may be followed. -/
theorem indirectBranch_advances (cur : VA) (op : DecodedInsn ι) (f : Flow ι)
    (s : CodeFlowContext σ) :
    let r := indirectBranch cb op f s
    Advances cb reader noReturn told f.optodo s r.2.1.optodo r.2.2 ∧
      (.opcode cur op ∈ told s.ext → ∀ br ∈ r.1, Open cb noReturn told cur r.2.2 br) := by
  have hnone : Advances cb reader noReturn told f.optodo s f.optodo
      { s with ext := (cb.resolveJt (f.windowEndingAt op) s.ext).2 } :=
    .of_told_eq (h.resolveJt _ s.ext) (List.Subset.refl _) rfl
  unfold indirectBranch
  split_ifs
  · cases hjt : (cb.resolveJt (f.windowEndingAt op) s.ext).1 with
    | none =>
      simp only [hjt]
      exact ⟨hnone, fun _ br hbr => absurd hbr List.not_mem_nil⟩
    | some jt =>
      simp only [hjt]
      have htold := told_foldl_onBranchTable h op.va jt.targets
        (cb.resolveJt (f.windowEndingAt op) s.ext).2
      rw [h.resolveJt] at htold
      have hsub := List.subset_append_right (jt.targets.map (Told.branchTable op.va)).reverse
        (told s.ext)
      refine ⟨⟨⟨?_, List.Subset.refl _, List.Subset.refl _⟩, fun _ hs => ⟨?_, hs.noflow, ?_⟩⟩, ?_⟩
      · exact htold ▸ hsub
      · exact htold ▸ hs.reached.cases op.va jt.targets
      · exact fun a ha => (hs.todo a ha).mono (List.Subset.refl _) (htold ▸ hsub)
      · intro hop br hbr a htarget _
        obtain ⟨va, hva, rfl⟩ := List.mem_map.mp hbr
        obtain rfl := Option.some.inj htarget
        refine .inl (.inr ⟨cur, op, htold ▸ hsub hop, .inr ?_⟩)
        rw [htold]
        exact List.mem_append_left _ (List.mem_reverse.mpr
          (List.mem_map_of_mem (List.mem_reverse.mp hva)))
  · exact ⟨.refl, fun _ br hbr => absurd hbr List.not_mem_nil⟩

theorem branchLoop_advances (hread : reader cur = some op) {fuel : ℕ} {branches : List CfBranch}
    (hrun : branchLoop cb enter startva cur op fuel branches f s = some (f', s')) :
    Grows told s s' ∧ (AllSuppressed cb noReturn (told s'.ext) → .opcode cur op ∈ told s.ext →
      (∀ br ∈ branches, Open cb noReturn told cur s br) → Sound reader noReturn told f.optodo s →
        Sound reader noReturn told f'.optodo s') := by
  induction fuel generalizing branches f s with
  | zero => exact nomatch hrun
  | succ fuel ih =>
    match branches with
    | [] =>
      obtain ⟨rfl, rfl⟩ := Prod.mk.inj (Option.some.inj hrun)
      exact ⟨.refl s, fun _ _ _ hs => hs⟩
    | ⟨none, _⟩ :: branches =>
      obtain ⟨hgrows, hsound⟩ := ih hrun
      obtain ⟨hstep, hcases⟩ := indirectBranch_advances h cur op f s
      refine ⟨hstep.grows.trans hgrows, fun hall hop hopen hs => hsound hall (hstep.grows.told hop)
        (fun br hbr => ?_) (hstep.sound (hall.of_subset hgrows.told) hs)⟩
      rcases List.mem_append.mp hbr with hbr | hbr
      · exact hcases hop br hbr
      · exact (hopen br (List.mem_cons_of_mem _ hbr)).mono hstep.grows
    | ⟨some bva, flags⟩ :: branches =>
      obtain ⟨⟨g, u⟩, hbranch, hrest⟩ := Option.bind_eq_some_iff.mp hrun
      obtain ⟨hgrows, hsound⟩ := ih hrest
      obtain ⟨hfirst, hstep⟩ := followBranch_advances h henter hread hbranch
      refine ⟨hfirst.trans hgrows, fun hall hop hopen hs => hsound hall (hfirst.told hop)
        (fun br hbr => (hopen br (List.mem_cons_of_mem _ hbr)).mono hfirst) ?_⟩
      exact hstep (hall.of_subset hgrows.told) (hopen _ List.mem_cons_self) hs

omit h henter in
/-- The fall-through of an instruction, with the flags of the instruction. -/
theorem mem_getBranches {br : CfBranch} (hbr : br ∈ getBranches op)
    (hfall : br.flags &&& kBrFall ≠ 0) : op.isFallthrough = true ∧ ¬ op.isReturn = true := by
  unfold getBranches at hbr
  by_cases hreturn : op.isReturn = true
  · rw [if_pos hreturn] at hbr
    exact absurd hbr List.not_mem_nil
  rw [if_neg hreturn] at hbr
  rcases List.mem_append.mp hbr with hbr | hbr
  · by_cases hthrough : op.isFallthrough = true
    · exact ⟨hthrough, hreturn⟩
    · rw [if_neg hthrough] at hbr
      exact absurd hbr List.not_mem_nil
  · -- The edge of a call or a jump is no fall-through.
    refine absurd ?_ hfall
    generalize hcond : (if op.isConditional = true then kBrCond else 0) = flags at hbr
    have hflags : flags &&& kBrFall = 0 ∧ (flags ||| kBrProc) &&& kBrFall = 0 ∧
        (flags ||| kBrDeref) &&& kBrFall = 0 := by
      subst hcond
      cases op.isConditional <;> decide
    split_ifs at hbr
    · obtain rfl := List.mem_singleton.mp hbr
      exact hflags.2.1
    · obtain rfl := List.mem_singleton.mp hbr
      exact hflags.1
    · obtain rfl := List.mem_singleton.mp hbr
      exact hflags.2.2
    · exact absurd hbr List.not_mem_nil

omit h henter in
/-- The edges of a call that ends the flow: the call, and the fall-through. -/
theorem getBranches_reverse (hcall : op.isCall = true) (hthrough : op.isFallthrough = true)
    (hreturn : ¬ op.isReturn = true) {target : VA} (htarget : op.branchTarget = some target) :
    ∃ flags flags', flags &&& kBrProc ≠ 0 ∧
      (getBranches op).reverse = [⟨some target, flags⟩, ⟨some (op.va + op.length), flags'⟩] := by
  have hflags : ∀ conditional : Bool,
      ((if conditional then kBrCond else 0) ||| kBrProc) &&& kBrProc ≠ 0 := by decide
  refine ⟨_, (if op.isConditional then kBrCond else 0) ||| kBrFall, hflags op.isConditional, ?_⟩
  rw [getBranches, if_neg hreturn]
  simp only [hcall, hthrough, htarget, if_true, Option.isSome_some, Bool.and_self,
    List.singleton_append]
  rfl

/-- The edges of an instruction that was just passed to `on_opcode`. -/
theorem branchLoop_getBranches (hread : reader cur = some op) {fuel : ℕ}
    (hrun : branchLoop cb enter startva cur op fuel (getBranches op).reverse f s = some (f', s')) :
    Grows told s s' ∧ (AllSuppressed cb noReturn (told s'.ext) → .opcode cur op ∈ told s.ext →
      Sound reader noReturn told f.optodo s → Sound reader noReturn told f'.optodo s') := by
  obtain ⟨hgrows, hsound⟩ := branchLoop_advances h henter hread hrun
  refine ⟨hgrows, fun hall hop hs => ?_⟩
  have hfollows {br : CfBranch} (hbr : br ∈ getBranches op) {a : VA} (ha : br.target = some a)
      (hzero : br.flags &&& kBrProc = 0)
      (hother : ¬ (EndsFlow noReturn cur op ∧ br.flags &&& kBrFall ≠ 0 ∧ a = cur + op.length)) :
      Justified noReturn s.trace (told s.ext) a :=
    .inr ⟨cur, op, hop, .inl ⟨br, hbr, ha, hzero, hother⟩⟩
  by_cases hends : EndsFlow noReturn cur op ∧ op.isFallthrough = true ∧ ¬ op.isReturn = true
  · obtain ⟨hends, hthrough, hreturn⟩ := hends
    rcases hall cur op (hgrows.told hop) hends hthrough hreturn with
      hdata | ⟨target, htarget, hexec⟩
    · refine hsound hall hop (fun br hbr a ha hzero => ?_) hs
      by_cases hnext : a = cur + op.length
      · exact .inr (.inr (hnext ▸ hdata))
      · exact .inl (hfollows (List.mem_reverse.mp hbr) ha hzero fun h => hnext h.2.2)
    obtain ⟨flags, flags', hflags, hbranches⟩ :=
      getBranches_reverse hends.1 hthrough hreturn htarget
    rw [hbranches] at hrun
    cases fuel with
    | zero => exact nomatch hrun
    | succ fuel =>
      -- The call edge comes first, and suppresses the fall-through before it is met.
      obtain ⟨⟨g, u⟩, hbranch, hrest⟩ := Option.bind_eq_some_iff.mp hrun
      obtain ⟨hfirst, hstep⟩ := followBranch_advances h henter hread hbranch
      obtain ⟨hlast, hrest⟩ := branchLoop_advances h henter hread hrest
      have hmem := mem_noflow_of_followBranch h henter hread hends htarget (hexec s.ext) hflags hs
        hbranch
      have hcall : Open cb noReturn told cur s ⟨some target, flags⟩ :=
        fun _ _ hzero => absurd hzero hflags
      refine hrest hall (hfirst.told hop) (fun br hbr a ha hzero => ?_)
        (hstep (hall.of_subset hlast.told) hcall hs)
      by_cases hnext : a = cur + op.length
      · exact .inr (.inl (hnext ▸ hmem))
      · have hbr : br ∈ getBranches op :=
          List.mem_reverse.mp (hbranches ▸ List.mem_cons_of_mem _ hbr)
        exact .inl ((hfollows hbr ha hzero fun h => hnext h.2.2).mono hfirst.trace hfirst.told)
  · refine hsound hall hop (fun br hbr a ha hzero => .inl ?_) hs
    have hbr := List.mem_reverse.mp hbr
    exact hfollows hbr ha hzero fun h => hends ⟨h.1, mem_getBranches hbr h.2.1⟩

/-- The loop over the stack: an address is decoded after it was justified. -/
theorem flowLoop_advances {fuel : ℕ}
    (hrun : flowLoop cb enter startva fuel f s = some (f', s')) :
    Advances cb reader noReturn told f.optodo s f'.optodo s' := by
  induction fuel generalizing f s with
  | zero => exact nomatch hrun
  | succ fuel ih =>
    unfold flowLoop at hrun
    split at hrun
    · obtain ⟨rfl, rfl⟩ := Prod.mk.inj (Option.some.inj hrun)
      exact .refl
    rename_i cur optodo htodo
    dsimp only at hrun
    have hpop (x : σ) (hx : told x = told s.ext) :
        Advances cb reader noReturn told f.optodo s optodo { s with ext := x } := by
      have hext : Advances cb reader noReturn told f.optodo s f.optodo { s with ext := x } :=
        .of_told_eq hx (List.Subset.refl _) rfl
      refine ⟨hext.grows, fun hall hs => ?_⟩
      have hs' := hext.sound hall hs
      exact ⟨hs'.reached, hs'.noflow, fun a ha => hs'.todo a (htodo ▸ List.mem_cons_of_mem _ ha)⟩
    have hdefined := h.isDefined cur s.ext
    have hread := (h.read cur (cb.isDefined cur s.ext).2).2.trans hdefined
    split_ifs at hrun with hmany hvisited hisDefined htable
    · obtain ⟨rfl, rfl⟩ := Prod.mk.inj (Option.some.inj hrun)
      exact .refl
    · exact (hpop s.ext rfl).trans (ih hrun)
    · exact (hpop _ hdefined).trans (ih hrun)
    · exact (hpop _ hdefined).trans (ih hrun)
    · split at hrun
      · exact (hpop _ hread).trans (ih hrun)
      · rename_i op hop
        obtain ⟨⟨g, u⟩, hbranches, hrest⟩ := Option.bind_eq_some_iff.mp hrun
        have hreader : reader cur = some op := (h.read cur _).1.symm.trans hop
        have htold : told (cb.onOpcode cur op (getBranches op)
            (cb.read cur (cb.isDefined cur s.ext).2).2) = .opcode cur op :: told s.ext := by
          rw [h.onOpcode, hread]
        have hsub : told s.ext ⊆ told (cb.onOpcode cur op (getBranches op)
            (cb.read cur (cb.isDefined cur s.ext).2).2) :=
          htold ▸ List.subset_cons_self _ _
        obtain ⟨hgrows, hsound⟩ := branchLoop_getBranches h henter hreader hbranches
        have hlast := ih hrest
        refine ⟨⟨List.Subset.trans hsub (hgrows.trans hlast.grows).told,
          (hgrows.trans hlast.grows).trace, (hgrows.trans hlast.grows).noflow⟩, fun hall hs => ?_⟩
        refine hlast.sound hall (hsound (hall.of_subset hlast.grows.told) ?_ ⟨?_, hs.noflow, ?_⟩)
        · exact htold ▸ List.mem_cons_self
        · exact htold ▸ hs.reached.opcode (hs.todo cur (htodo ▸ List.mem_cons_self)) op
        · intro a ha
          exact (hs.todo a (htodo ▸ List.mem_cons_of_mem _ ha)).mono (List.Subset.refl _) hsub

omit h in
theorem drainTargets_advances {targets : List VA}
    (hrun : drainTargets enter targets s = some s') :
    Advances cb reader noReturn told [] s [] s' := by
  induction targets generalizing s with
  | nil =>
    obtain rfl := Option.some.inj hrun
    exact .refl
  | cons fva targets ih =>
    unfold drainTargets at hrun
    split_ifs at hrun
    · have hblock : Advances cb reader noReturn told [] s []
          { s with blockedRecursion := pushUnique s.blockedRecursion fva } :=
        .of_told_eq rfl (List.Subset.refl _) rfl
      exact hblock.trans (ih hrun)
    · exact ih hrun
    · obtain ⟨u, hu, hrest⟩ := Option.bind_eq_some_iff.mp hrun
      exact (henter _ _ _ hu).trans (ih hrest)

omit h in
theorem drainBlocked_advances {snapshot stillBlocked : List VA}
    (hrun : drainBlocked enter snapshot stillBlocked s = some s') :
    Advances cb reader noReturn told [] s [] s' := by
  induction snapshot generalizing stillBlocked s with
  | nil =>
    obtain rfl := Option.some.inj hrun
    exact .of_told_eq rfl (List.Subset.refl _) rfl
  | cons fva snapshot ih =>
    unfold drainBlocked at hrun
    split_ifs at hrun
    · obtain ⟨u, hu, hrest⟩ := Option.bind_eq_some_iff.mp hrun
      have hagain : Advances cb reader noReturn told [] s [] { s with
          functions := s.functions.erase fva
          blockedRecursion := s.blockedRecursion.erase fva } :=
        .of_told_eq rfl (List.Subset.refl _) rfl
      exact hagain.trans ((henter _ _ _ hu).trans (ih hrest))
    · exact ih hrun

/-- The flow of one function, which was entered. -/
theorem addCodeFlow_advances {fuel : ℕ} {va : VA}
    (hrun : addCodeFlow cb enter fuel va s = some s') :
    Advances cb reader noReturn told [va] s [] s' := by
  obtain ⟨⟨f, u⟩, hflow, hrest⟩ := Option.bind_eq_some_iff.mp hrun
  obtain ⟨v, htargets, hblocked⟩ := Option.bind_eq_some_iff.mp hrest
  have hpush : Advances cb reader noReturn told [va] s [va]
      { s with cfBlocks := va :: s.cfBlocks } :=
    .of_told_eq rfl (List.Subset.refl _) rfl
  have hpop : Advances cb reader noReturn told f.optodo u f.optodo
      { u with cfBlocks := u.cfBlocks.tail } :=
    .of_told_eq rfl (List.Subset.refl _) rfl
  have hloop := hpush.trans ((flowLoop_advances h henter hflow).trans hpop)
  have hdrains :=
    (drainTargets_advances henter htargets).trans (drainBlocked_advances henter hblocked)
  refine ⟨hloop.grows.trans hdrains.grows, fun hall hs => hdrains.sound hall ?_⟩
  have hs' := hloop.sound (hall.of_subset hdrains.grows.told) hs
  exact ⟨hs'.reached, hs'.noflow, fun _ ha => absurd ha List.not_mem_nil⟩

end Flow

/-! ### Entry points -/

section EntryPoints

variable (h : Tells cb reader noReturn told)

include h

theorem fire_advances (va : VA) (s : CodeFlowContext σ) :
    Advances cb reader noReturn told todo s todo (s.fire cb va) :=
  .of_told_eq (h.onFunction va s.ext) (List.subset_cons_self _ _) rfl

theorem reportFunction_advances (va : VA) (s : CodeFlowContext σ) :
    Advances cb reader noReturn told todo s todo (s.reportFunction cb va) := by
  have hfreed (freed : List VA) (s : CodeFlowContext σ) :
      Advances cb reader noReturn told todo s todo (freed.foldl (reportFreed cb) s) := by
    induction freed generalizing s with
    | nil => exact .refl
    | cons waiter freed ih =>
      have hfree : Advances cb reader noReturn told todo s todo (reportFreed cb s waiter) :=
        .of_told_eq (h.onFunction waiter s.ext) (List.subset_cons_self _ _) rfl
      exact hfree.trans (ih _)
  unfold reportFunction
  dsimp only
  split
  · exact fire_advances h va s
  · rename_i waiters _
    have hrelease : Advances cb reader noReturn told todo (s.fire cb va) todo { s.fire cb va with
        waitsOn := (waiters.foldl (releaseWaiter va) ((s.fire cb va).waitsOn, [])).1
        awaitedBy := Function.update (s.fire cb va).awaitedBy va none } :=
      .of_told_eq rfl (List.Subset.refl _) rfl
    exact (fire_advances h va s).trans (hrelease.trans (hfreed _ _))

theorem entryPoint_advances {flow : VA → CodeFlowContext σ → Option (CodeFlowContext σ)} {va : VA}
    (hflow : ∀ s s', flow va s = some s' → Advances cb reader noReturn told [va] s [] s')
    (hrun : entryPoint flow cb va s = some s') : Advances cb reader noReturn told [] s [] s' := by
  unfold entryPoint at hrun
  split_ifs at hrun
  · obtain rfl := Option.some.inj hrun
    exact .refl
  · obtain rfl := Option.some.inj hrun
    exact .refl
  · obtain ⟨u, hu, hend⟩ := Option.bind_eq_some_iff.mp hrun
    have henter : Advances cb reader noReturn told [] s [va]
        { s with functions := va :: s.functions, trace := .entered va :: s.trace } := by
      refine ⟨⟨List.Subset.refl _, List.subset_cons_self _ _, List.Subset.refl _⟩, fun _ hs => ?_⟩
      refine ⟨hs.reached.mono (List.subset_cons_self _ _), hs.noflow, fun a ha => .inl ?_⟩
      exact List.mem_singleton.mp ha ▸ List.mem_cons_self
    refine henter.trans ((hflow _ _ hu).trans ?_)
    split_ifs at hend
    · obtain rfl := Option.some.inj hend
      exact reportFunction_advances h va u
    · obtain rfl := Option.some.inj hend
      exact .of_told_eq rfl (List.subset_cons_self _ _) rfl

theorem addEntryPoint_advances {fuel : ℕ} {va : VA} (hrun : addEntryPoint cb fuel va s = some s') :
    Advances cb reader noReturn told [] s [] s' := by
  induction fuel generalizing va s s' with
  | zero => exact nomatch hrun
  | succ fuel ih =>
    exact entryPoint_advances h (fun _ _ hflow => addCodeFlow_advances h (fun _ _ _ => ih) hflow)
      hrun

/-- **A call that does not return ends the flow** where its call edge is followed: in every run
whose calls that end the flow all have executable static targets, or no code after them, every
instruction is an entry point or was reached by an edge that is not the fall-through of such a
call. -/
theorem reached_of_suppressed {ext : σ} (hext : told ext = []) {vas : List VA}
    (hrun : Runs cb ext vas s) (hall : AllSuppressed cb noReturn (told s.ext)) :
    Reached noReturn s.trace (told s.ext) := by
  have hadvances : Advances cb reader noReturn told [] { ext } [] s := by
    clear hall
    induction hrun with
    | nil => exact .refl
    | call fuel va _ hcall ih => exact ih.trans (addEntryPoint_advances h hcall)
  refine (hadvances.sound hall ⟨fun a op earlier hsuffix => ?_, ?_, ?_⟩).reached
  · rw [hext, List.suffix_nil] at hsuffix
    exact nomatch hsuffix
  · exact fun _ _ hmem => absurd hmem List.not_mem_nil
  · exact fun _ hmem => absurd hmem List.not_mem_nil

end EntryPoints

/-! ### A call with a static target, and one through the import table -/

/-- A call of six bytes that does not return. -/
def exitCall (operand : OperandKind) (target : Option VA) : DecodedInsn Unit :=
  ⟨0x1000, 6, [operand], true, false, false, false, target, true, ()⟩

/-- The return after it. -/
def exitReturn : DecodedInsn Unit := ⟨0x1006, 1, [], false, false, false, true, none, false, ()⟩

def exitInsn (operand : OperandKind) (target : Option VA) (va : VA) : Option (DecodedInsn Unit) :=
  if va = 0x1000 then some (exitCall operand target)
  else if va = 0x1006 then some exitReturn
  else none

/-- Callbacks over these instructions that keep what they are passed. -/
def exitCallbacks (operand : OperandKind) (target : Option VA) :
    Callbacks (List (Told Unit)) Unit where
  read va ext := (exitInsn operand target va, ext)
  isExec _ ext := (true, ext)
  isDefined va ext := (ext.any fun
    | .opcode c _ => c = va
    | .branchTable _ _ => false, ext)
  onOpcode va op _ ext := .opcode va op :: ext
  onFunction _ ext := ext
  resolveJt _ ext := (none, ext)
  isNoReturnCall op ext := (op.isCall, ext)
  onBranchTable fromVa caseVa ext := .branchTable fromVa caseVa :: ext

theorem tells_exitCallbacks (operand : OperandKind) (target : Option VA) :
    Tells (exitCallbacks operand target) (exitInsn operand target) (·.isCall) id :=
  ⟨fun _ _ => ⟨rfl, rfl⟩, fun _ _ => ⟨rfl, rfl⟩, fun _ _ => rfl, fun _ _ => rfl,
    fun _ _ _ _ => rfl, fun _ _ => rfl, fun _ _ => rfl, fun _ _ _ => rfl⟩

theorem exists_run_exit : ∃ s, Runs (exitCallbacks .pcRel (some 0x2000)) [] [0x1000] s ∧
    s.ext = [.opcode 0x1000 (exitCall .pcRel (some 0x2000))] := by
  have hrun : (addEntryPoint (exitCallbacks .pcRel (some 0x2000)) 8 0x1000 { ext := [] }).any
      (fun s => s.ext = [.opcode 0x1000 (exitCall .pcRel (some 0x2000))]) = true := by
    decide +kernel
  obtain ⟨s, hs, hp⟩ := (Option.any_eq_true _ _).mp hrun
  exact ⟨s, .call 8 0x1000 .nil hs, of_decide_eq_true hp⟩

theorem reached_of_suppressed_exit :
    ∃ s, Runs (exitCallbacks .pcRel (some 0x2000)) [] [0x1000] s ∧
      .opcode 0x1000 (exitCall .pcRel (some 0x2000)) ∈ s.ext ∧
      Reached (·.isCall) s.trace s.ext := by
  obtain ⟨s, hs, hext⟩ := exists_run_exit
  refine ⟨s, hs, hext ▸ List.mem_cons_self, ?_⟩
  refine reached_of_suppressed (tells_exitCallbacks .pcRel (some 0x2000)) rfl hs ?_
  intro c op hmem _ _ _
  rw [id, hext] at hmem
  obtain ⟨rfl, rfl⟩ := Told.opcode.inj (List.mem_singleton.mp hmem)
  exact .inr ⟨0x2000, rfl, fun _ => rfl⟩

theorem exists_run_import : ∃ s, Runs (exitCallbacks .immMem none) [] [0x1000] s ∧
    s.ext = [.opcode 0x1006 exitReturn, .opcode 0x1000 (exitCall .immMem none)] ∧
      .entered 0x1006 ∉ s.trace := by
  have hrun : (addEntryPoint (exitCallbacks .immMem none) 8 0x1000 { ext := [] }).any (fun s =>
      s.ext = [.opcode 0x1006 exitReturn, .opcode 0x1000 (exitCall .immMem none)] ∧
        .entered 0x1006 ∉ s.trace) = true := by
    decide +kernel
  obtain ⟨s, hs, hp⟩ := (Option.any_eq_true _ _).mp hrun
  exact ⟨s, .call 8 0x1000 .nil hs, of_decide_eq_true hp⟩

/-- **The fall-through of a call through the import table** is followed although the call does not
return: what follows it is decoded, is no entry point, and no other edge leads to it. -/
theorem import_call_falls_through :
    ∃ s, Runs (exitCallbacks .immMem none) [] [0x1000] s ∧
      EndsFlow (·.isCall) 0x1000 (exitCall .immMem none) ∧
      .opcode 0x1000 (exitCall .immMem none) ∈ s.ext ∧ .opcode 0x1006 exitReturn ∈ s.ext ∧
      ¬ Justified (·.isCall) s.trace s.ext 0x1006 ∧ ¬ Reached (·.isCall) s.trace s.ext := by
  obtain ⟨s, hs, hext, hentered⟩ := exists_run_import
  have hends : EndsFlow (·.isCall) 0x1000 (exitCall .immMem none) := ⟨rfl, rfl, nofun⟩
  have hnot : ¬ Justified (·.isCall) s.trace s.ext 0x1006 := by
    rintro (hin | ⟨c, op, hmem, hfollows⟩)
    · exact hentered hin
    rw [hext] at hmem hfollows
    rcases hfollows with ⟨br, hbr, htarget, -, hother⟩ | hcase
    · rcases List.mem_cons.mp hmem with heq | hmem
      · obtain ⟨-, rfl⟩ := Told.opcode.inj heq
        exact absurd hbr List.not_mem_nil
      · obtain ⟨rfl, rfl⟩ := Told.opcode.inj (List.mem_singleton.mp hmem)
        obtain rfl : br = ⟨some 0x1006, kBrFall⟩ := List.mem_singleton.mp hbr
        exact hother ⟨hends, by decide, rfl⟩
    · simp at hcase
  refine ⟨s, hs, hends, hext ▸ by simp, hext ▸ by simp, hnot, fun hreached => ?_⟩
  have hbefore : Justified (·.isCall) s.trace [.opcode 0x1000 (exitCall .immMem none)] 0x1006 :=
    hreached 0x1006 exitReturn _ ⟨[], hext.symm⟩
  exact hnot (hbefore.mono (List.Subset.refl _) (hext ▸ List.subset_cons_self _ _))

end CodeFlowContext

end Papa.Viv
