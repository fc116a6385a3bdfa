import Mathlib.Data.List.Nodup
import Mathlib.Tactic.SplitIfs

/-!
# One-pass forward chaining

A rule is tried once, in the order of a list, against a state. When it fires it leaves an outcome
and changes the state seen by the rules after it. The results of this file are about the whole
pass: rules that cannot fire may be left out, a pass over a part of the rules agrees with the full
pass as long as the others do not reach what the part looks at, and a rule that no later rule
disturbs has fired exactly when it would fire at the end.

## Main definitions

* `RuleSystem`: what a rule yields at a state and what it does to the state.
* `RuleSystem.run`: the pass over a list of rules.

## Main results

* `RuleSystem.run_filter`: leaving out rules that never fire.
* `RuleSystem.run_filter_simulates`: the pass over a part of the rules.
* `RuleSystem.run_sublist`, `RuleSystem.fire_of_mem_run`, `RuleSystem.mem_run_of_fire`: outcomes are
  those of a rule's turn.
* `RuleSystem.exists_mem_run_iff`: a rule undisturbed from its turn on.
-/

/-- Rules `ρ` over states `σ` with outcomes `ω`. -/
structure RuleSystem (ρ σ ω : Type*) where
  fire : ρ → σ → Option ω
  inject : ρ → σ → σ

namespace RuleSystem

variable {ρ σ τ ω : Type*} (S : RuleSystem ρ σ ω)

/-- Try the rules in order: the final state, and the rules that fired with their outcomes. -/
def run : List ρ → σ → σ × List (ρ × ω)
  | [], s => (s, [])
  | r :: rs, s =>
    match S.fire r s with
    | none => run rs s
    | some o => ((run rs (S.inject r s)).1, (r, o) :: (run rs (S.inject r s)).2)

/-- The rule fires at the state. -/
def Fires (r : ρ) (s : σ) : Prop := (S.fire r s).isSome

@[simp] theorem run_nil (s : σ) : S.run [] s = (s, []) := rfl

theorem run_cons_none {r : ρ} {s : σ} (h : S.fire r s = none) (rs : List ρ) :
    S.run (r :: rs) s = S.run rs s := by
  rw [run, h]

theorem run_cons_some {r : ρ} {s : σ} {o : ω} (h : S.fire r s = some o) (rs : List ρ) :
    S.run (r :: rs) s =
      ((S.run rs (S.inject r s)).1, (r, o) :: (S.run rs (S.inject r s)).2) := by
  rw [run, h]

/-- The pass in two parts. -/
theorem run_append (rs rs' : List ρ) (s : σ) :
    S.run (rs ++ rs') s =
      ((S.run rs' (S.run rs s).1).1, (S.run rs s).2 ++ (S.run rs' (S.run rs s).1).2) := by
  induction rs generalizing s with
  | nil => rfl
  | cons r rs ih =>
    cases h : S.fire r s with
    | none => simp only [List.cons_append, run_cons_none S h, ih]
    | some o => simp only [List.cons_append, run_cons_some S h, ih]

/-- A property of states kept by every rule of the list that fires is kept by the pass. -/
theorem run_invariant {I : σ → Prop} {rs : List ρ}
    (h : ∀ r ∈ rs, ∀ s, S.Fires r s → I s → I (S.inject r s)) {s : σ} (hs : I s) :
    I (S.run rs s).1 := by
  induction rs generalizing s with
  | nil => exact hs
  | cons r rs ih =>
    have htail := @ih fun r' hr' => h r' (List.mem_cons_of_mem _ hr')
    cases hf : S.fire r s with
    | none =>
      rw [run_cons_none S hf]
      exact htail hs
    | some o =>
      rw [run_cons_some S hf]
      have hfires : S.Fires r s := by rw [Fires, hf]; rfl
      exact htail (h r List.mem_cons_self s hfires hs)

/-- **Pruning.** Leaving out rules that fire at no state the pass can reach changes nothing. -/
theorem run_filter {keep : ρ → Bool} {I : σ → Prop}
    (hinject : ∀ r s, S.Fires r s → I s → I (S.inject r s)) {rs : List ρ}
    (hskip : ∀ r ∈ rs, keep r = false → ∀ s, I s → S.fire r s = none) {s : σ} (hs : I s) :
    S.run (rs.filter keep) s = S.run rs s := by
  induction rs generalizing s with
  | nil => rfl
  | cons r rs ih =>
    have htail := @ih fun r' hr' => hskip r' (List.mem_cons_of_mem _ hr')
    cases hk : keep r with
    | false =>
      have hnone := hskip r List.mem_cons_self hk s hs
      rw [List.filter_cons_of_neg (by simp [hk]), run_cons_none S hnone, htail hs]
    | true =>
      rw [List.filter_cons_of_pos hk]
      cases hf : S.fire r s with
      | none => rw [run_cons_none S hf, run_cons_none S hf, htail hs]
      | some o =>
        have hfires : S.Fires r s := by rw [Fires, hf]; rfl
        rw [run_cons_some S hf, run_cons_some S hf, htail (hinject r s hfires hs)]

/-- **A part of the rules.** Relate the states of the pass over the kept rules to those of the full
pass. When kept rules see no difference and stay related, and the other rules only move the full
pass within the relation, the kept rules have the same outcomes in both. -/
theorem run_filter_simulates {keep : ρ → Bool} {R : σ → σ → Prop} {rs : List ρ}
    (hfire : ∀ r ∈ rs, keep r = true → ∀ s t, R s t → S.fire r s = S.fire r t)
    (hkeep : ∀ r ∈ rs, keep r = true → ∀ s t, R s t → R (S.inject r s) (S.inject r t))
    (hskip : ∀ r ∈ rs, keep r = false → ∀ s t, R s t → R s (S.inject r t))
    {s t : σ} (hst : R s t) :
    (S.run (rs.filter keep) s).2 = (S.run rs t).2.filter fun p => keep p.1 := by
  induction rs generalizing s t with
  | nil => rfl
  | cons r rs ih =>
    have htail := @ih (fun r' hr' => hfire r' (List.mem_cons_of_mem _ hr'))
      (fun r' hr' => hkeep r' (List.mem_cons_of_mem _ hr'))
      (fun r' hr' => hskip r' (List.mem_cons_of_mem _ hr'))
    cases hk : keep r with
    | false =>
      rw [List.filter_cons_of_neg (by simp [hk])]
      cases hf : S.fire r t with
      | none => rw [run_cons_none S hf, htail hst]
      | some o =>
        rw [run_cons_some S hf, List.filter_cons_of_neg (by simp [hk])]
        exact htail (hskip r List.mem_cons_self hk s t hst)
    | true =>
      have heq := hfire r List.mem_cons_self hk s t hst
      rw [List.filter_cons_of_pos hk]
      cases hf : S.fire r t with
      | none => rw [run_cons_none S hf, run_cons_none S (heq.trans hf), htail hst]
      | some o =>
        rw [run_cons_some S hf, run_cons_some S (heq.trans hf),
          List.filter_cons_of_pos (p := fun p : ρ × ω => keep p.1) hk,
          htail (hkeep r List.mem_cons_self hk s t hst)]

/-- The rules that fired come in the order of the list. -/
theorem run_sublist (rs : List ρ) (s : σ) : ((S.run rs s).2.map Prod.fst).Sublist rs := by
  induction rs generalizing s with
  | nil => exact List.Sublist.refl []
  | cons r rs ih =>
    cases hf : S.fire r s with
    | none =>
      rw [run_cons_none S hf]
      exact (ih s).cons r
    | some o =>
      rw [run_cons_some S hf]
      exact (ih _).cons_cons r

/-- An outcome is the one of its rule at the state of its turn. -/
theorem fire_of_mem_run {rs : List ρ} {s : σ} {r : ρ} {o : ω} (h : (r, o) ∈ (S.run rs s).2) :
    ∃ before after, rs = before ++ r :: after ∧ S.fire r (S.run before s).1 = some o := by
  induction rs generalizing s with
  | nil => simp at h
  | cons r' rs ih =>
    cases hf : S.fire r' s with
    | none =>
      rw [run_cons_none S hf] at h
      obtain ⟨before, after, rfl, ho⟩ := ih h
      exact ⟨r' :: before, after, rfl, by rwa [run_cons_none S hf]⟩
    | some o' =>
      rw [run_cons_some S hf] at h
      rcases List.mem_cons.mp h with heq | hmem
      · cases heq
        exact ⟨[], rs, rfl, hf⟩
      · obtain ⟨before, after, rfl, ho⟩ := ih hmem
        exact ⟨r' :: before, after, rfl, by rwa [run_cons_some S hf]⟩

/-- A rule that fires at its turn leaves its outcome. -/
theorem mem_run_of_fire {before after : List ρ} {s : σ} {r : ρ} {o : ω}
    (h : S.fire r (S.run before s).1 = some o) :
    (r, o) ∈ (S.run (before ++ r :: after) s).2 := by
  rw [run_append, run_cons_some S h]
  exact List.mem_append_right _ List.mem_cons_self

/-- **A rule undisturbed from its turn on** has fired exactly when it would fire at the end. -/
theorem exists_mem_run_iff {before after : List ρ} {r : ρ}
    (hnodup : (before ++ r :: after).Nodup)
    (hstable : ∀ r' ∈ r :: after, ∀ t, S.Fires r (S.inject r' t) ↔ S.Fires r t) (s : σ) :
    (∃ o, (r, o) ∈ (S.run (before ++ r :: after) s).2) ↔
      S.Fires r (S.run (before ++ r :: after) s).1 := by
  have hend : S.Fires r (S.run (before ++ r :: after) s).1 ↔ S.Fires r (S.run before s).1 := by
    rw [run_append]
    exact S.run_invariant (I := fun t => S.Fires r t ↔ S.Fires r (S.run before s).1)
      (fun r' hr' t _ ht => (hstable r' hr' t).trans ht) Iff.rfl
  rw [hend]
  constructor
  · rintro ⟨o, ho⟩
    obtain ⟨before', after', heq, hfire⟩ := S.fire_of_mem_run ho
    have hr : r ∉ before := fun hmem => hnodup.disjoint hmem List.mem_cons_self
    have hafter : r ∉ after := (List.nodup_cons.mp (List.nodup_append'.mp hnodup).2.1).1
    obtain ⟨rfl, -, -⟩ := (List.append_cons_inj_of_notMem hr hafter).mp heq
    rw [Fires, hfire]
    rfl
  · intro h
    obtain ⟨o, ho⟩ := Option.isSome_iff_exists.mp h
    exact ⟨o, S.mem_run_of_fire ho⟩

end RuleSystem
