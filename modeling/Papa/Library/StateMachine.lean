import Mathlib.Computability.StateTransition
import Mathlib.Data.Fintype.Pigeonhole

/-!
# Machines that halt

A machine takes a step from every state that is not final. What holds at the start and is kept by
every step holds of every state that is reached, and a machine of which every step descends in a
well-founded order halts.

## Main definitions

* `StateMachine.loop`: the run of a machine, cut by a fuel.
* `StateMachine.after`: the state after some steps.

## Main results

* `StateMachine.reaches_induction`: the invariant rule.
* `StateMachine.exists_halt`: the halting rule.
* `StateMachine.loop_of_reaches`: the loop returns the final state that is reached.
* `StateMachine.loop_of_injective`: with finitely many states, their number is fuel enough.
-/

namespace StateMachine

open StateTransition

variable {σ : Type*} {step : σ → Option σ}

variable (step) in
/-- Take steps until the state is final. -/
def loop : (fuel : ℕ) → σ → Option σ
  | 0, _ => none
  | fuel + 1, s =>
    match step s with
    | none => some s
    | some t => loop fuel t

/-- **The invariant rule.** -/
theorem reaches_induction {P : σ → Prop} {s : σ} (hstart : P s)
    (hstep : ∀ t u, Reaches step s t → P t → step t = some u → P u) {t : σ}
    (h : Reaches step s t) : P t := by
  induction h with
  | refl => exact hstart
  | tail hreach hlast ih => exact hstep _ _ hreach ih hlast

/-- **The halting rule.** -/
theorem exists_halt {P : σ → Prop} {α : Type*} {r : α → α → Prop} (hr : WellFounded r) (m : σ → α)
    (hstep : ∀ t u, P t → step t = some u → P u ∧ r (m u) (m t)) {s : σ} (hstart : P s) :
    ∃ t, Reaches step s t ∧ step t = none := by
  induction hs : m s using hr.induction generalizing s with
  | _ a ih =>
    cases hnext : step s with
    | none => exact ⟨s, .refl, hnext⟩
    | some u =>
      obtain ⟨hu, hlt⟩ := hstep s u hstart hnext
      obtain ⟨t, hreach, hhalt⟩ := ih (m u) (hs ▸ hlt) hu rfl
      exact ⟨t, .head hnext hreach, hhalt⟩

/-- The loop returns the final state that is reached, from some fuel on. -/
theorem loop_of_reaches {s t : σ} (h : Reaches step s t) (hhalt : step t = none) :
    ∃ fuel₀, ∀ fuel ≥ fuel₀, loop step fuel s = some t := by
  induction h using Relation.ReflTransGen.head_induction_on with
  | refl =>
    refine ⟨1, fun fuel hfuel => ?_⟩
    obtain ⟨n, rfl⟩ := Nat.exists_eq_add_of_le' hfuel
    rw [loop, hhalt]
  | head hnext _ ih =>
    obtain ⟨fuel₀, hloop⟩ := ih
    refine ⟨fuel₀ + 1, fun fuel hfuel => ?_⟩
    obtain ⟨n, rfl⟩ := Nat.exists_eq_add_of_le' (Nat.le_trans (Nat.le_add_left 1 fuel₀) hfuel)
    rw [loop, Option.mem_def.mp hnext]
    exact hloop n (by omega)

/-! ### Machines with finitely many states -/

variable (step) in
/-- The state after some steps, as long as they can be taken. -/
def after (k : ℕ) (s : σ) : Option σ := (Option.bind · step)^[k] (some s)

theorem after_add (k l : ℕ) (s : σ) :
    after step (k + l) s = (after step l s).bind (after step k) := by
  unfold after
  rw [Function.iterate_add_apply]
  cases (Option.bind · step)^[l] (some s) with
  | none => exact Function.iterate_fixed rfl k
  | some t => rfl

theorem exists_after_of_reaches {s t : σ} (h : Reaches step s t) :
    ∃ k, after step k s = some t := by
  induction h with
  | refl => exact ⟨0, rfl⟩
  | tail _ hlast ih =>
    obtain ⟨k, hk⟩ := ih
    refine ⟨k + 1, ?_⟩
    rw [Nat.add_comm, after_add, hk]
    exact hlast

/-- No step follows a final state. -/
theorem after_eq_none {s t : σ} {k l : ℕ} (hk : after step k s = some t) (hhalt : step t = none)
    (hlt : k < l) : after step l s = none := by
  obtain ⟨n, rfl⟩ := Nat.exists_eq_add_of_lt hlt
  rw [Nat.add_assoc, Nat.add_comm, after_add, hk]
  show after step (n + 1) t = none
  rw [after_add]
  show (step t).bind _ = none
  rw [hhalt]
  rfl

/-- A machine that halts meets no state twice, so it takes fewer steps than there are states. -/
theorem lt_of_after {n : ℕ} (f : σ → Fin n) (hf : Function.Injective f) {s t : σ} {k : ℕ}
    (hk : after step k s = some t) (hhalt : step t = none) : k < n := by
  by_contra hle
  have hsome (i : Fin (n + 1)) : ∃ u, after step i s = some u := by
    cases hi : after step i s with
    | some u => exact ⟨u, rfl⟩
    | none =>
      obtain ⟨l, rfl⟩ := Nat.exists_eq_add_of_le (i.is_le.trans (not_lt.mp hle))
      rw [Nat.add_comm, after_add, hi] at hk
      exact nomatch hk
  choose u hu using hsome
  obtain ⟨i, j, hne, heq⟩ := Fintype.exists_ne_map_eq_of_card_lt (fun i => f (u i)) (by simp)
  wlog hlt : i < j generalizing i j
  · exact this j i hne.symm heq.symm (lt_of_le_of_ne (not_lt.mp hlt) hne.symm)
  -- From the second meeting on the steps repeat, so the machine halts earlier as well.
  obtain ⟨l, hl⟩ := Nat.exists_eq_add_of_le (j.is_le.trans (not_lt.mp hle))
  have hearly : after step (l + i) s = some t := by
    rw [after_add, hu i, hf heq, ← hu j, ← after_add, Nat.add_comm, ← hl, hk]
  have hnone : after step k s = none := after_eq_none hearly hhalt (by omega)
  rw [hk] at hnone
  exact nomatch hnone

theorem loop_of_after {s t : σ} {k fuel : ℕ} (hk : after step k s = some t) (hhalt : step t = none)
    (hlt : k < fuel) : loop step fuel s = some t := by
  induction fuel generalizing s k with
  | zero => exact absurd hlt (Nat.not_lt_zero _)
  | succ fuel ih =>
    rw [loop]
    cases k with
    | zero =>
      obtain rfl := Option.some.inj hk
      rw [hhalt]
    | succ k =>
      rw [after_add] at hk
      obtain ⟨u, hu, hrest⟩ := Option.bind_eq_some_iff.mp hk
      rw [show step s = some u from hu]
      exact ih hrest (Nat.lt_of_succ_lt_succ hlt)

/-- **A machine with `n` states** that halts does so within `n` steps. -/
theorem loop_of_injective {n fuel : ℕ} (f : σ → Fin n) (hf : Function.Injective f) {s t : σ}
    (h : Reaches step s t) (hhalt : step t = none) (hfuel : n ≤ fuel) :
    loop step fuel s = some t := by
  obtain ⟨k, hk⟩ := exists_after_of_reaches h
  exact loop_of_after hk hhalt ((lt_of_after f hf hk hhalt).trans_le hfuel)

/-- A machine halts in one state at most. -/
theorem halt_unique {s t u : σ} (ht : Reaches step s t) (hthalt : step t = none)
    (hu : Reaches step s u) (huhalt : step u = none) : t = u :=
  Part.mem_unique (mem_eval.mpr ⟨ht, hthalt⟩) (mem_eval.mpr ⟨hu, huhalt⟩)

end StateMachine
