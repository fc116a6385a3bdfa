import Mathlib.Algebra.Group.Nat.Defs
import Mathlib.Data.Nat.Find
import Mathlib.Tactic.SplitIfs

/-!
# Searching for the largest number with a property

Three loops that look for a number up to a bound that has a decidable property: one counts down, one
bisects, one halves the bound. The first two find the largest such number, the second one if the
property goes down with the number; the third one finds the first of the halves that has it.

A list is searched backwards from a place as well, and the values of a partial function are
collected up to the first number that has none.

## Main definitions

* `Search.countdown`, `Search.bisect`, `Search.halve`: the loops.
* `Search.lastBefore`, `Search.collect`: the search in a list and the collection.

## Main results

* `Search.countdown_eq`, `Search.bisect_eq`: the largest number is found.
* `Search.exists_halve_eq`: what halving finds.
* `Search.lastBefore_eq_some_iff`: the nearest element before a place is found.
* `Search.eq_some_of_getElem?_collect`, `Search.collect_stops`: what is collected.
-/

namespace Search

variable (p : ℕ → Bool)

/-- The first number with the property from a number on downwards. -/
def countdown : ℕ → Option ℕ
  | 0 => if p 0 then some 0 else none
  | n + 1 => if p (n + 1) then some (n + 1) else countdown n

/-- Bisect between a number with the property, or zero, and one without it. -/
def bisect : (fuel lo hi : ℕ) → ℕ
  | 0, lo, _ => lo
  | fuel + 1, lo, hi =>
    if hi - lo > 1 then
      let mid := lo + (hi - lo) / 2
      if p mid then bisect fuel mid hi else bisect fuel lo mid
    else lo

/-- The first positive number with the property in `n`, `n / 2`, `n / 4` and so on. -/
def halve : (fuel n : ℕ) → Option ℕ
  | 0, _ => none
  | fuel + 1, n => if n = 0 then none else if p n then some n else halve fuel (n / 2)

variable {p}

/-- **Counting down finds the largest number.** -/
theorem countdown_eq (hp : ∀ ⦃m n⦄, m ≤ n → p n → p m) (n : ℕ) :
    countdown p n = if p 0 then some (Nat.findGreatest (fun m => p m) n) else none := by
  induction n with
  | zero => rfl
  | succ n ih =>
    rw [countdown, Nat.findGreatest_succ, ih]
    by_cases hn : p (n + 1)
    · rw [if_pos hn, if_pos hn, if_pos (hp (Nat.zero_le _) hn)]
    · rw [if_neg hn, if_neg hn]

/-- A number with the property, or zero, is the largest one when its successor has it not. -/
theorem eq_findGreatest (hp : ∀ ⦃m n⦄, m ≤ n → p n → p m) {lo n : ℕ} (hn : lo ≤ n)
    (hlo : lo ≠ 0 → p lo) (hnext : ¬p (lo + 1)) : lo = Nat.findGreatest (fun m => p m) n :=
  (Nat.findGreatest_eq_iff.mpr ⟨hn, hlo, fun _ hm _ hpm => hnext (hp hm hpm)⟩).symm

/-- **Bisecting finds the largest number.** -/
theorem bisect_eq (hp : ∀ ⦃m n⦄, m ≤ n → p n → p m) {fuel lo hi n : ℕ} (hfuel : hi - lo ≤ fuel)
    (hlt : lo < hi) (hn : hi ≤ n) (hlo : lo ≠ 0 → p lo) (hhi : ¬p hi) :
    bisect p fuel lo hi = Nat.findGreatest (fun m => p m) n := by
  induction fuel generalizing lo hi with
  | zero => omega
  | succ fuel ih =>
    rw [bisect]
    split_ifs with hgap
    · dsimp only
      split_ifs with hmid
      · exact ih (by omega) (by omega) hn (fun _ => hmid) hhi
      · exact ih (by omega) (by omega) (by omega) hlo hmid
    · -- the two ends are next to each other
      have hnext : hi = lo + 1 := by omega
      exact eq_findGreatest hp (by omega) hlo (hnext ▸ hhi)

/-- **Halving finds the first half with the property**, if one is positive. -/
theorem exists_halve_eq {fuel n : ℕ} (hfuel : n ≤ fuel) :
    ∃ k, (∀ j < k, 0 < n / 2 ^ j ∧ ¬p (n / 2 ^ j)) ∧
      ((0 < n / 2 ^ k ∧ p (n / 2 ^ k) ∧ halve p fuel n = some (n / 2 ^ k)) ∨
        (n / 2 ^ k = 0 ∧ halve p fuel n = none)) := by
  induction fuel generalizing n with
  | zero => exact ⟨0, nofun, Or.inr ⟨by omega, rfl⟩⟩
  | succ fuel ih =>
    rw [halve]
    by_cases hzero : n = 0
    · exact ⟨0, nofun, Or.inr ⟨by simp [hzero], if_pos hzero⟩⟩
    · rw [if_neg hzero]
      have hpos := Nat.pos_of_ne_zero hzero
      by_cases hn : p n
      · refine ⟨0, nofun, Or.inl ?_⟩
        rw [if_pos hn, Nat.pow_zero, Nat.div_one]
        exact ⟨hpos, hn, rfl⟩
      · rw [if_neg hn]
        obtain ⟨k, hfirst, hfound⟩ := ih (by omega : n / 2 ≤ fuel)
        have hdiv (j : ℕ) : n / 2 ^ (j + 1) = n / 2 / 2 ^ j := by
          rw [Nat.pow_succ', Nat.div_div_eq_div_mul]
        refine ⟨k + 1, fun j hj => ?_, by rw [hdiv]; exact hfound⟩
        cases j with
        | zero =>
          rw [Nat.pow_zero, Nat.div_one]
          exact ⟨hpos, hn⟩
        | succ j =>
          rw [hdiv]
          exact hfirst j (by omega)

/-! ### The nearest element before a place -/

variable {α : Type*}

/-- The nearest element before a place that has a property, with its own place. -/
def lastBefore (l : List α) (q : α → Bool) : ℕ → Option (ℕ × α)
  | 0 => none
  | n + 1 =>
    match l[n]? with
    | none => lastBefore l q n
    | some x => if q x then some (n, x) else lastBefore l q n

variable {l : List α} {q : α → Bool}

theorem lastBefore_eq_none_iff {n : ℕ} :
    lastBefore l q n = none ↔ ∀ i x, i < n → l[i]? = some x → ¬q x := by
  induction n with
  | zero => exact iff_of_true rfl fun _ _ hlt => absurd hlt (Nat.not_lt_zero _)
  | succ n ih =>
    have hlast : (∀ i x, i < n + 1 → l[i]? = some x → ¬q x) ↔
        (∀ x, l[n]? = some x → ¬q x) ∧ ∀ i x, i < n → l[i]? = some x → ¬q x := by
      refine ⟨fun h => ⟨fun x => h n x (Nat.lt_succ_self n), fun i x hlt => h i x (by omega)⟩,
        fun h i x hlt hx => ?_⟩
      rcases Nat.lt_succ_iff_lt_or_eq.mp hlt with hlt | rfl
      · exact h.2 i x hlt hx
      · exact h.1 x hx
    rw [lastBefore, hlast]
    cases hn : l[n]? with
    | none => exact ih.trans ⟨fun h => ⟨nofun, h⟩, fun h => h.2⟩
    | some x =>
      by_cases hx : q x
      · simp [hx]
      · simp [hx, ih]

/-- **The nearest element before a place**: it has the property and none between has. -/
theorem lastBefore_eq_some_iff {n i : ℕ} {x : α} : lastBefore l q n = some (i, x) ↔
    i < n ∧ l[i]? = some x ∧ q x ∧ ∀ j y, i < j → j < n → l[j]? = some y → ¬q y := by
  induction n with
  | zero => exact iff_of_false nofun fun h => absurd h.1 (Nat.not_lt_zero _)
  | succ n ih =>
    -- an element at the last place is the nearest one if it has the property
    have hskip (hn : ∀ y, l[n]? = some y → ¬q y) : lastBefore l q n = some (i, x) ↔
        i < n + 1 ∧ l[i]? = some x ∧ q x ∧
          ∀ j y, i < j → j < n + 1 → l[j]? = some y → ¬q y := by
      rw [ih]
      constructor
      · rintro ⟨hlt, hx, hq, hbetween⟩
        refine ⟨by omega, hx, hq, fun j y hij hj hy => ?_⟩
        rcases Nat.lt_succ_iff_lt_or_eq.mp hj with hj | rfl
        · exact hbetween j y hij hj hy
        · exact hn y hy
      · rintro ⟨hlt, hx, hq, hbetween⟩
        refine ⟨?_, hx, hq, fun j y hij hj => hbetween j y hij (by omega)⟩
        rcases Nat.lt_succ_iff_lt_or_eq.mp hlt with hlt | rfl
        · exact hlt
        · exact absurd hq (hn x hx)
    rw [lastBefore]
    cases hn : l[n]? with
    | none => exact hskip (by simp [hn])
    | some y =>
      by_cases hq : q y
      · simp only [hq, if_true, Option.some.injEq, Prod.mk.injEq]
        constructor
        · rintro ⟨rfl, rfl⟩
          exact ⟨Nat.lt_succ_self _, hn, hq, fun j _ hj hlt => by omega⟩
        · rintro ⟨hlt, hx, -, hbetween⟩
          obtain rfl : n = i := by
            by_contra hne
            exact hbetween n y (by omega) (Nat.lt_succ_self n) hn hq
          exact ⟨rfl, Option.some.inj (hn.symm.trans hx)⟩
      · simp only [hq, Bool.false_eq_true, if_false]
        refine hskip fun z hz => ?_
        obtain rfl := Option.some.inj (hn.symm.trans hz)
        exact hq

/-! ### Collecting values up to the first one missing -/

/-- The values of a partial function at `n` numbers from `k` on, up to the first one missing. -/
def collect (f : ℕ → Option α) : (n k : ℕ) → List α
  | 0, _ => []
  | n + 1, k =>
    match f k with
    | none => []
    | some a => a :: collect f n (k + 1)

variable {f : ℕ → Option α}

theorem length_collect_le (n k : ℕ) : (collect f n k).length ≤ n := by
  induction n generalizing k with
  | zero => exact Nat.le_refl 0
  | succ n ih =>
    rw [collect]
    cases f k with
    | none => exact Nat.zero_le _
    | some a => exact Nat.succ_le_succ (ih (k + 1))

/-- **What is collected** are the values in their order. -/
theorem eq_some_of_getElem?_collect {n k i : ℕ} {a : α} (h : (collect f n k)[i]? = some a) :
    f (k + i) = some a := by
  induction n generalizing k i with
  | zero => exact absurd h nofun
  | succ n ih =>
    rw [collect] at h
    cases hk : f k with
    | none =>
      rw [hk] at h
      exact absurd h nofun
    | some b =>
      rw [hk] at h
      cases i with
      | zero => exact hk.trans h
      | succ i =>
        have hnext := ih h
        rwa [show k + 1 + i = k + (i + 1) by omega] at hnext

/-- **The collection stops** at a number without a value. -/
theorem collect_stops {n k : ℕ} (hlt : (collect f n k).length < n) :
    f (k + (collect f n k).length) = none := by
  induction n generalizing k with
  | zero => exact absurd hlt (Nat.not_lt_zero _)
  | succ n ih =>
    simp only [collect] at hlt ⊢
    cases hk : f k with
    | none => exact hk
    | some a =>
      simp only [hk, List.length_cons] at hlt ⊢
      have hnext := ih (Nat.lt_of_succ_lt_succ hlt)
      rwa [show k + 1 + (collect f n (k + 1)).length =
        k + ((collect f n (k + 1)).length + 1) by omega] at hnext

end Search
