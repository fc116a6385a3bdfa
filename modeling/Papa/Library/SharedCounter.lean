import Mathlib.Algebra.BigOperators.Group.Finset.Basic
import Mathlib.Algebra.Order.BigOperators.Group.Finset
import Mathlib.Data.Fintype.BigOperators
import Mathlib.Data.List.Nodup
import Mathlib.Logic.Function.Basic
import Mathlib.Logic.Relation

/-!
# Workers on a shared counter

Any number of workers claim indices below `n` from one counter and run a body on each, which either
yields a value for the slot of the index or fails. A worker whose body fails records the error,
unless one is recorded already, and stops; a worker that claims an index past the end stops. The
workers take their steps in any order.

## Main definitions

* `SharedCounter.Local`, `SharedCounter.State`, `SharedCounter.Step`: the transition system.
* `SharedCounter.Finished`: a state in which every worker has stopped, reached from the start.
* `SharedCounter.runAlone`: the loop of a single worker.

## Main results

* `SharedCounter.Inv.step`: the invariant every step keeps.
* `SharedCounter.Finished.ran_perm`, `SharedCounter.Finished.slots_eq`: without an error every index
  was run once and each slot holds the value of its own index.
* `SharedCounter.Finished.error_ne_none`: a body that fails leaves an error.
* `SharedCounter.exists_step`, `SharedCounter.measure_lt`, `SharedCounter.exists_finished`: workers
  never wait and all stop.
* `SharedCounter.finished_runAlone`: the loop of a single worker is one of the runs.
-/

namespace SharedCounter

variable {ω ν ε : Type*}

/-- Where a worker is: about to claim, holding a claimed index, holding an error it caught, or
stopped. -/
inductive Local (ε : Type*)
  | ready
  | claimed (i : ℕ)
  | failed (e : ε)
  | stopped

/-- The shared state: the counter, the workers, the slots with the list of indices run so far, and
the first error recorded. -/
structure State (ω ν ε : Type*) where
  next : ℕ
  loc : ω → Local ε
  slots : ℕ → ν
  ran : List ℕ
  error : Option ε

/-- The state before the first step. -/
def start (init : ν) : State ω ν ε where
  next := 0
  loc := fun _ => .ready
  slots := fun _ => init
  ran := []
  error := none

section System

variable [DecidableEq ω] (n : ℕ) (body : ℕ → Except ε ν)

/-- One step of one worker. -/
inductive Step : State ω ν ε → State ω ν ε → Prop
  /-- `fetch_add` on the shared counter. -/
  | claim {s : State ω ν ε} (w : ω) (hw : s.loc w = .ready) :
      Step s { s with next := s.next + 1, loc := Function.update s.loc w (.claimed s.next) }
  /-- The body succeeds and fills the slot of the claimed index. -/
  | run {s : State ω ν ε} (w : ω) {i : ℕ} (hw : s.loc w = .claimed i) (hi : i < n) {v : ν}
      (hv : body i = .ok v) :
      Step s { s with
        loc := Function.update s.loc w .ready
        slots := Function.update s.slots i v
        ran := s.ran ++ [i] }
  /-- The body fails. -/
  | fail {s : State ω ν ε} (w : ω) {i : ℕ} (hw : s.loc w = .claimed i) (hi : i < n) {e : ε}
      (he : body i = .error e) :
      Step s { s with loc := Function.update s.loc w (.failed e) }
  /-- The error is recorded, under a lock, unless one is there. -/
  | record {s : State ω ν ε} (w : ω) {e : ε} (hw : s.loc w = .failed e) :
      Step s { s with loc := Function.update s.loc w .stopped, error := s.error.or (some e) }
  /-- The claimed index is past the end. -/
  | leave {s : State ω ν ε} (w : ω) {i : ℕ} (hw : s.loc w = .claimed i) (hi : n ≤ i) :
      Step s { s with loc := Function.update s.loc w .stopped }

/-- Every state reached by some interleaving of the workers. -/
def Reachable (init : ν) (s : State ω ν ε) : Prop :=
  Relation.ReflTransGen (Step n body) (start init) s

/-- Every worker has stopped. -/
def Finished (init : ν) (s : State ω ν ε) : Prop :=
  Reachable n body init s ∧ ∀ w, s.loc w = .stopped

/-! ### The invariant -/

/-- What holds after any number of steps. -/
structure Inv (init : ν) (s : State ω ν ε) : Prop where
  ran_nodup : s.ran.Nodup
  ran_lt : ∀ i ∈ s.ran, i < n ∧ i < s.next
  ran_slot : ∀ i ∈ s.ran, body i = .ok (s.slots i)
  slot_init : ∀ i, i ∉ s.ran → s.slots i = init
  claimed_lt : ∀ w i, s.loc w = .claimed i → i < s.next ∧ i ∉ s.ran
  claimed_inj : ∀ w w' i, s.loc w = .claimed i → s.loc w' = .claimed i → w = w'
  failed_error : ∀ w e, s.loc w = .failed e → ∃ i < n, body i = .error e
  error_error : ∀ e, s.error = some e → ∃ i < n, body i = .error e
  accounted : ∀ i, i < n → i < s.next →
    i ∈ s.ran ∨ (∃ w, s.loc w = .claimed i) ∨ (∃ w e, s.loc w = .failed e) ∨ s.error ≠ none
  stopped : ∀ w, s.loc w = .stopped → n ≤ s.next ∨ s.error ≠ none

omit [DecidableEq ω] in
theorem inv_start (init : ν) : Inv n body init (start init : State ω ν ε) where
  ran_nodup := List.nodup_nil
  ran_lt _ hi := absurd hi List.not_mem_nil
  ran_slot _ hi := absurd hi List.not_mem_nil
  slot_init _ _ := rfl
  claimed_lt _ _ h := nomatch h
  claimed_inj _ _ _ h := nomatch h
  failed_error _ _ h := nomatch h
  error_error _ h := nomatch h
  accounted i _ h := absurd h (Nat.not_lt_zero i)
  stopped _ h := nomatch h

variable {n body} {init : ν}

/-- A worker other than the one that moved is where it was. -/
private theorem update_eq {f : ω → Local ε} {w u : ω} {a b : Local ε}
    (h : Function.update f w a u = b) : (u = w ∧ a = b) ∨ (u ≠ w ∧ f u = b) := by
  by_cases hu : u = w
  · subst hu
    exact Or.inl ⟨rfl, by simpa using h⟩
  · exact Or.inr ⟨hu, by rwa [Function.update_of_ne hu] at h⟩

private theorem update_of_eq {f : ω → Local ε} {w u : ω} {a b c : Local ε} (hw : f w = c)
    (hne : c ≠ b) (hu : f u = b) : Function.update f w a u = b := by
  rwa [Function.update_of_ne]
  rintro rfl
  exact hne (hw.symm.trans hu)

private theorem Inv.claim {s : State ω ν ε} (h : Inv n body init s) {w : ω}
    (hw : s.loc w = .ready) :
    Inv n body init
      { s with next := s.next + 1, loc := Function.update s.loc w (.claimed s.next) } where
  ran_nodup := h.ran_nodup
  ran_lt i hi := ⟨(h.ran_lt i hi).1, Nat.lt_succ_of_lt (h.ran_lt i hi).2⟩
  ran_slot := h.ran_slot
  slot_init := h.slot_init
  claimed_lt u i hu := by
    rcases update_eq hu with ⟨-, heq⟩ | ⟨-, hu⟩
    · cases heq
      exact ⟨Nat.lt_succ_self _, fun hmem => lt_irrefl _ (h.ran_lt _ hmem).2⟩
    · exact ⟨Nat.lt_succ_of_lt (h.claimed_lt u i hu).1, (h.claimed_lt u i hu).2⟩
  claimed_inj u u' i hu hu' := by
    rcases update_eq hu with ⟨huw, heq⟩ | ⟨-, hold⟩
    · rcases update_eq hu' with ⟨huw', -⟩ | ⟨-, hold'⟩
      · exact huw.trans huw'.symm
      · cases heq
        exact absurd (h.claimed_lt u' _ hold').1 (lt_irrefl _)
    · rcases update_eq hu' with ⟨-, heq'⟩ | ⟨-, hold'⟩
      · cases heq'
        exact absurd (h.claimed_lt u _ hold).1 (lt_irrefl _)
      · exact h.claimed_inj u u' i hold hold'
  failed_error u e hu := by
    rcases update_eq hu with ⟨-, heq⟩ | ⟨-, hu⟩
    · cases heq
    · exact h.failed_error u e hu
  error_error := h.error_error
  accounted i hi hlt := by
    rcases Nat.lt_succ_iff_lt_or_eq.mp hlt with hlt | rfl
    · rcases h.accounted i hi hlt with hran | ⟨u, hu⟩ | ⟨u, e, hu⟩ | herr
      · exact Or.inl hran
      · exact Or.inr (Or.inl ⟨u, update_of_eq hw nofun hu⟩)
      · exact Or.inr (Or.inr (Or.inl ⟨u, e, update_of_eq hw nofun hu⟩))
      · exact Or.inr (Or.inr (Or.inr herr))
    · exact Or.inr (Or.inl ⟨w, Function.update_self ..⟩)
  stopped u hu := by
    rcases update_eq hu with ⟨-, heq⟩ | ⟨-, hu⟩
    · cases heq
    · exact (h.stopped u hu).imp_left Nat.le_succ_of_le

private theorem Inv.run {s : State ω ν ε} (h : Inv n body init s) {w : ω} {i : ℕ}
    (hw : s.loc w = .claimed i) (hi : i < n) {v : ν} (hv : body i = .ok v) :
    Inv n body init
      { s with
        loc := Function.update s.loc w .ready
        slots := Function.update s.slots i v
        ran := s.ran ++ [i] } where
  ran_nodup := h.ran_nodup.append (List.nodup_singleton i) (by simpa using (h.claimed_lt w i hw).2)
  ran_lt j hj := by
    rcases List.mem_append.mp hj with hj | hj
    · exact h.ran_lt j hj
    · rw [List.mem_singleton.mp hj]
      exact ⟨hi, (h.claimed_lt w i hw).1⟩
  ran_slot j hj := by
    dsimp only at hj ⊢
    by_cases hji : j = i
    · subst hji
      rw [Function.update_self]
      exact hv
    · rw [Function.update_of_ne hji]
      refine h.ran_slot j ((List.mem_append.mp hj).resolve_right fun hj => ?_)
      exact hji (List.mem_singleton.mp hj)
  slot_init j hj := by
    dsimp only at hj ⊢
    rw [List.mem_append, List.mem_singleton, not_or] at hj
    rw [Function.update_of_ne hj.2]
    exact h.slot_init j hj.1
  claimed_lt u j hu := by
    rcases update_eq hu with ⟨-, heq⟩ | ⟨hne, hold⟩
    · cases heq
    · refine ⟨(h.claimed_lt u j hold).1, ?_⟩
      rw [List.mem_append, List.mem_singleton, not_or]
      refine ⟨(h.claimed_lt u j hold).2, ?_⟩
      rintro rfl
      exact hne (h.claimed_inj u w j hold hw)
  claimed_inj u u' j hu hu' := by
    rcases update_eq hu with ⟨-, heq⟩ | ⟨-, hu⟩
    · cases heq
    · rcases update_eq hu' with ⟨-, heq⟩ | ⟨-, hu'⟩
      · cases heq
      · exact h.claimed_inj u u' j hu hu'
  failed_error u e hu := by
    rcases update_eq hu with ⟨-, heq⟩ | ⟨-, hu⟩
    · cases heq
    · exact h.failed_error u e hu
  error_error := h.error_error
  accounted j hj hlt := by
    by_cases hji : j = i
    · exact Or.inl (List.mem_append_right _ (List.mem_singleton.mpr hji))
    · rcases h.accounted j hj hlt with hran | ⟨u, hu⟩ | ⟨u, e, hu⟩ | herr
      · exact Or.inl (List.mem_append_left _ hran)
      · have hne : Local.claimed i ≠ (Local.claimed j : Local ε) := by
          rintro ⟨⟩
          exact hji rfl
        exact Or.inr (Or.inl ⟨u, update_of_eq hw hne hu⟩)
      · exact Or.inr (Or.inr (Or.inl ⟨u, e, update_of_eq hw nofun hu⟩))
      · exact Or.inr (Or.inr (Or.inr herr))
  stopped u hu := by
    rcases update_eq hu with ⟨-, heq⟩ | ⟨-, hu⟩
    · cases heq
    · exact h.stopped u hu

private theorem Inv.fail {s : State ω ν ε} (h : Inv n body init s) (w : ω) {i : ℕ}
    (hi : i < n) {e : ε} (he : body i = .error e) :
    Inv n body init { s with loc := Function.update s.loc w (.failed e) } where
  ran_nodup := h.ran_nodup
  ran_lt := h.ran_lt
  ran_slot := h.ran_slot
  slot_init := h.slot_init
  claimed_lt u j hu := by
    rcases update_eq hu with ⟨-, heq⟩ | ⟨-, hu⟩
    · cases heq
    · exact h.claimed_lt u j hu
  claimed_inj u u' j hu hu' := by
    rcases update_eq hu with ⟨-, heq⟩ | ⟨-, hu⟩
    · cases heq
    · rcases update_eq hu' with ⟨-, heq⟩ | ⟨-, hu'⟩
      · cases heq
      · exact h.claimed_inj u u' j hu hu'
  failed_error u e' hu := by
    rcases update_eq hu with ⟨-, heq⟩ | ⟨-, hu⟩
    · cases heq
      exact ⟨i, hi, he⟩
    · exact h.failed_error u e' hu
  error_error := h.error_error
  accounted _ _ _ := Or.inr (Or.inr (Or.inl ⟨w, e, Function.update_self ..⟩))
  stopped u hu := by
    rcases update_eq hu with ⟨-, heq⟩ | ⟨-, hu⟩
    · cases heq
    · exact h.stopped u hu

private theorem or_some_ne_none (o : Option ε) (e : ε) : o.or (some e) ≠ none := by
  cases o <;> nofun

private theorem Inv.record {s : State ω ν ε} (h : Inv n body init s) {w : ω} {e : ε}
    (hw : s.loc w = .failed e) :
    Inv n body init
      { s with loc := Function.update s.loc w .stopped, error := s.error.or (some e) } where
  ran_nodup := h.ran_nodup
  ran_lt := h.ran_lt
  ran_slot := h.ran_slot
  slot_init := h.slot_init
  claimed_lt u j hu := by
    rcases update_eq hu with ⟨-, heq⟩ | ⟨-, hu⟩
    · cases heq
    · exact h.claimed_lt u j hu
  claimed_inj u u' j hu hu' := by
    rcases update_eq hu with ⟨-, heq⟩ | ⟨-, hu⟩
    · cases heq
    · rcases update_eq hu' with ⟨-, heq⟩ | ⟨-, hu'⟩
      · cases heq
      · exact h.claimed_inj u u' j hu hu'
  failed_error u e' hu := by
    rcases update_eq hu with ⟨-, heq⟩ | ⟨-, hu⟩
    · cases heq
    · exact h.failed_error u e' hu
  error_error e' he' := by
    cases herr : s.error with
    | none =>
      simp only [herr, Option.none_or, Option.some.injEq] at he'
      subst he'
      exact h.failed_error w e hw
    | some e'' =>
      simp only [herr, Option.some_or] at he'
      exact h.error_error e' (herr.trans he')
  accounted _ _ _ := Or.inr (Or.inr (Or.inr (or_some_ne_none _ _)))
  stopped _ _ := Or.inr (or_some_ne_none _ _)

private theorem Inv.leave {s : State ω ν ε} (h : Inv n body init s) {w : ω} {i : ℕ}
    (hw : s.loc w = .claimed i) (hi : n ≤ i) :
    Inv n body init { s with loc := Function.update s.loc w .stopped } where
  ran_nodup := h.ran_nodup
  ran_lt := h.ran_lt
  ran_slot := h.ran_slot
  slot_init := h.slot_init
  claimed_lt u j hu := by
    rcases update_eq hu with ⟨-, heq⟩ | ⟨-, hu⟩
    · cases heq
    · exact h.claimed_lt u j hu
  claimed_inj u u' j hu hu' := by
    rcases update_eq hu with ⟨-, heq⟩ | ⟨-, hu⟩
    · cases heq
    · rcases update_eq hu' with ⟨-, heq⟩ | ⟨-, hu'⟩
      · cases heq
      · exact h.claimed_inj u u' j hu hu'
  failed_error u e' hu := by
    rcases update_eq hu with ⟨-, heq⟩ | ⟨-, hu⟩
    · cases heq
    · exact h.failed_error u e' hu
  error_error := h.error_error
  accounted j hj hlt := by
    rcases h.accounted j hj hlt with hran | ⟨u, hu⟩ | ⟨u, e, hu⟩ | herr
    · exact Or.inl hran
    · have hne : Local.claimed i ≠ (Local.claimed j : Local ε) := by
        rintro ⟨⟩
        omega
      exact Or.inr (Or.inl ⟨u, update_of_eq hw hne hu⟩)
    · exact Or.inr (Or.inr (Or.inl ⟨u, e, update_of_eq hw nofun hu⟩))
    · exact Or.inr (Or.inr (Or.inr herr))
  stopped u hu := by
    rcases update_eq hu with ⟨-, -⟩ | ⟨-, hu⟩
    · exact Or.inl (hi.trans (h.claimed_lt w i hw).1.le)
    · exact h.stopped u hu

/-- **Every step keeps the invariant.** -/
theorem Inv.step {s t : State ω ν ε} (h : Inv n body init s) (hst : Step n body s t) :
    Inv n body init t := by
  cases hst with
  | claim w hw => exact h.claim hw
  | run w hw hi hv => exact h.run hw hi hv
  | fail w hw hi he => exact h.fail w hi he
  | record w hw => exact h.record hw
  | leave w hw hi => exact h.leave hw hi

/-- The invariant holds in every state some interleaving reaches. -/
theorem Reachable.inv {s : State ω ν ε} (h : Reachable n body init s) : Inv n body init s := by
  induction h with
  | refl => exact inv_start n body init
  | tail _ hst ih => exact ih.step hst

/-! ### Finished runs -/

namespace Finished

variable [Nonempty ω] {s : State ω ν ε}

theorem mem_ran (h : Finished n body init s) (herr : s.error = none) {i : ℕ} (hi : i < n) :
    i ∈ s.ran := by
  have hinv := h.1.inv
  have hnext : n ≤ s.next := by
    obtain ⟨w⟩ := ‹Nonempty ω›
    exact (hinv.stopped w (h.2 w)).resolve_right (by simp [herr])
  rcases hinv.accounted i hi (by omega) with hran | ⟨u, hu⟩ | ⟨u, e, hu⟩ | hne
  · exact hran
  · exact absurd ((h.2 u).symm.trans hu) nofun
  · exact absurd ((h.2 u).symm.trans hu) nofun
  · exact absurd herr hne

/-- **Every index is run exactly once** when all workers stop without an error. -/
theorem ran_perm (h : Finished n body init s) (herr : s.error = none) :
    s.ran.Perm (List.range n) := by
  refine (List.perm_ext_iff_of_nodup h.1.inv.ran_nodup List.nodup_range).mpr fun i => ?_
  rw [List.mem_range]
  exact ⟨fun hi => (h.1.inv.ran_lt i hi).1, fun hi => h.mem_ran herr hi⟩

/-- Each slot holds what the body yields on its own index. -/
theorem slots_eq (h : Finished n body init s) (herr : s.error = none) {i : ℕ} (hi : i < n) :
    body i = .ok (s.slots i) :=
  h.1.inv.ran_slot i (h.mem_ran herr hi)

/-- **A body that fails leaves an error**, whatever the interleaving. -/
theorem error_ne_none (h : Finished n body init s) (hfail : ∃ i < n, ∃ e, body i = .error e) :
    s.error ≠ none := by
  rintro herr
  obtain ⟨i, hi, e, he⟩ := hfail
  exact absurd (he.symm.trans (h.slots_eq herr hi)) nofun

end Finished

/-! ### Progress -/

/-- **No worker waits**: as long as one has not stopped a step is possible. -/
theorem exists_step {s : State ω ν ε} (hs : ¬∀ w, s.loc w = .stopped) : ∃ t, Step n body s t := by
  push Not at hs
  obtain ⟨w, hw⟩ := hs
  cases hloc : s.loc w with
  | ready => exact ⟨_, .claim w hloc⟩
  | claimed i =>
    by_cases hi : i < n
    · cases hb : body i with
      | ok v => exact ⟨_, .run w hloc hi hb⟩
      | error e => exact ⟨_, .fail w hloc hi hb⟩
    · exact ⟨_, .leave w hloc (Nat.le_of_not_lt hi)⟩
  | failed e => exact ⟨_, .record w hloc⟩
  | stopped => exact absurd hloc hw

/-- How far a worker is from stopping, apart from indices it may still claim. -/
def Local.weight (n : ℕ) : Local ε → ℕ
  | .ready => 3
  | .claimed i => if i < n then 4 else 2
  | .failed _ => 1
  | .stopped => 0

@[simp] theorem Local.weight_ready (n : ℕ) : (.ready : Local ε).weight n = 3 := rfl

theorem Local.weight_claimed (n i : ℕ) :
    (.claimed i : Local ε).weight n = if i < n then 4 else 2 := rfl

@[simp] theorem Local.weight_failed (n : ℕ) (e : ε) : (.failed e : Local ε).weight n = 1 := rfl

@[simp] theorem Local.weight_stopped (n : ℕ) : (.stopped : Local ε).weight n = 0 := rfl

/-- What every step decreases. -/
def measure [Fintype ω] (n : ℕ) (s : State ω ν ε) : ℕ :=
  2 * (n - s.next) + ∑ w, (s.loc w).weight n

private theorem sum_update [Fintype ω] (n : ℕ) {f : ω → Local ε} {w : ω} {b : Local ε}
    (hw : f w = b) (a : Local ε) :
    (∑ u, (Function.update f w a u).weight n) + b.weight n =
      (∑ u, (f u).weight n) + a.weight n := by
  rw [← hw, ← Finset.add_sum_erase _ _ (Finset.mem_univ w),
    ← Finset.add_sum_erase (f := fun u => (f u).weight n) _ (Finset.mem_univ w)]
  have hrest : ∑ u ∈ Finset.univ.erase w, (Function.update f w a u).weight n =
      ∑ u ∈ Finset.univ.erase w, (f u).weight n :=
    Finset.sum_congr rfl fun u hu => by rw [Function.update_of_ne (Finset.ne_of_mem_erase hu)]
  rw [hrest, Function.update_self]
  omega

/-- **All workers stop**: no interleaving has infinitely many steps. -/
theorem measure_lt [Fintype ω] {s t : State ω ν ε} (hst : Step n body s t) :
    measure n t < measure n s := by
  cases hst with
  | claim w hw =>
    have h := sum_update n hw (.claimed s.next)
    rw [Local.weight_ready, Local.weight_claimed] at h
    rw [measure, measure]
    dsimp only
    split_ifs at h <;> omega
  | run w hw hi hv =>
    have h := sum_update n hw .ready
    rw [Local.weight_ready, Local.weight_claimed, if_pos hi] at h
    rw [measure, measure]
    dsimp only
    omega
  | fail w hw hi he =>
    rename_i i e
    have h := sum_update n hw (.failed e)
    rw [Local.weight_failed, Local.weight_claimed, if_pos hi] at h
    rw [measure, measure]
    dsimp only
    omega
  | record w hw =>
    have h := sum_update n hw .stopped
    rw [Local.weight_failed, Local.weight_stopped] at h
    rw [measure, measure]
    dsimp only
    omega
  | leave w hw hi =>
    have h := sum_update n hw .stopped
    rw [Local.weight_stopped, Local.weight_claimed, if_neg (Nat.not_lt.mpr hi)] at h
    rw [measure, measure]
    dsimp only
    omega

/-- **Every run can be finished.** -/
theorem exists_finished [Fintype ω] {s : State ω ν ε} (h : Reachable n body init s) :
    ∃ t : State ω ν ε, Finished n body init t := by
  by_cases hs : ∀ w, s.loc w = .stopped
  · exact ⟨s, h, hs⟩
  · obtain ⟨t, hst⟩ : ∃ t, Step n body s t := exists_step hs
    have hlt := measure_lt hst
    exact exists_finished (h.tail hst)
termination_by measure n s

end System

/-! ### One worker -/

section Alone

variable (n : ℕ) (body : ℕ → Except ε ν)

/-- The loop of a single worker from index `i` on, with `fuel` indices left: the slots it fills
and the error that ended it. -/
def aloneFrom : (fuel i : ℕ) → (ℕ → ν) → (ℕ → ν) × Option ε
  | 0, _, slots => (slots, none)
  | fuel + 1, i, slots =>
    match body i with
    | .error e => (slots, some e)
    | .ok v => aloneFrom fuel (i + 1) (Function.update slots i v)

/-- The run of a single worker over all indices. -/
def runAlone (init : ν) : (ℕ → ν) × Option ε := aloneFrom body n 0 fun _ => init

variable {n body}

private theorem reachable_aloneFrom {init : ν} {fuel i : ℕ} {s : State Unit ν ε}
    (hs : Reachable n body init s) (hloc : s.loc = fun _ => .ready) (hnext : s.next = i)
    (hfuel : n = i + fuel) (herr : s.error = none) :
    ∃ t : State Unit ν ε, Finished n body init t ∧
      (t.slots, t.error) = aloneFrom body fuel i s.slots := by
  -- the worker claims the next index in any case
  let s₁ (s : State Unit ν ε) : State Unit ν ε :=
    { s with next := s.next + 1, loc := Function.update s.loc () (.claimed s.next) }
  have hclaim (s : State Unit ν ε) (hloc : s.loc = fun _ => .ready) : Step n body s (s₁ s) :=
    .claim () (congrFun hloc ())
  have hclaimed (s : State Unit ν ε) : (s₁ s).loc () = .claimed s.next :=
    Function.update_self () (Local.claimed s.next) s.loc
  induction fuel generalizing i s with
  | zero =>
    have hleave : Step n body (s₁ s) _ := .leave () (hclaimed s) (hfuel.trans hnext.symm).le
    refine ⟨_, ⟨(hs.tail (hclaim s hloc)).tail hleave, fun w => ?_⟩, Prod.ext rfl herr⟩
    simp
  | succ fuel ih =>
    have hi : s.next < n := by omega
    rw [aloneFrom]
    cases hb : body i with
    | error e =>
      have hfail : Step n body (s₁ s) _ := .fail () (hclaimed s) hi (hnext ▸ hb)
      have hpath := (hs.tail (hclaim s hloc)).tail hfail
      have hrecord := hpath.tail (.record (e := e) () (by simp))
      refine ⟨_, ⟨hrecord, fun w => by simp⟩, Prod.ext rfl ?_⟩
      rw [herr]
      rfl
    | ok v =>
      have hrun : Step n body (s₁ s) _ := .run () (hclaimed s) hi (hnext ▸ hb)
      obtain ⟨t, ht, heq⟩ := ih ((hs.tail (hclaim s hloc)).tail hrun)
        (funext fun w => by simp) (congrArg (· + 1) hnext) (by omega) herr
      exact ⟨t, ht, heq.trans (by rw [hnext])⟩

/-- **The loop of a single worker** is a run of the system with one worker. -/
theorem finished_runAlone (n : ℕ) (body : ℕ → Except ε ν) (init : ν) :
    ∃ t : State Unit ν ε, Finished n body init t ∧ (t.slots, t.error) = runAlone n body init :=
  reachable_aloneFrom .refl rfl rfl (Nat.zero_add n).symm rfl

end Alone

end SharedCounter
