import Mathlib.Data.List.Basic
import Mathlib.Order.Nat

/-!
# Maximal runs

A run of a list of Booleans is a stretch of `true` that cannot be extended on either side. The runs
are collected in one pass that keeps where the current run began.

## Main definitions

* `Runs.Run`, `Runs.IsRun`: stretches, and what makes one a maximal run.
* `Runs.runs`: the runs, found in one pass.

## Main results

* `Runs.mem_runs_iff`: exactly the maximal runs are found.
* `Runs.pairwise_runs`: they ascend, and do not touch.
-/

namespace Runs

/-- A stretch of places, up to the one it stops before. -/
structure Run where
  start : ℕ
  stop : ℕ
  deriving DecidableEq

/-- A maximal run of `true`. -/
structure IsRun (us : List Bool) (r : Run) : Prop where
  lt : r.start < r.stop
  le : r.stop ≤ us.length
  all : ∀ i, r.start ≤ i → i < r.stop → us[i]? = some true
  left : r.start = 0 ∨ us[r.start - 1]? = some false
  right : r.stop = us.length ∨ us[r.stop]? = some false

/-- The runs of what is left of a list from a place on, with the start of the current run. -/
def runsFrom : List Bool → ℕ → Option ℕ → List Run
  | [], _, none => []
  | [], i, some start => [⟨start, i⟩]
  | true :: us, i, run => runsFrom us (i + 1) (some (run.getD i))
  | false :: us, i, none => runsFrom us (i + 1) none
  | false :: us, i, some start => ⟨start, i⟩ :: runsFrom us (i + 1) none

/-- The runs of a list. -/
def runs (us : List Bool) : List Run := runsFrom us 0 none

/-! ### The current run -/

/-- A run that began at a place and goes on so far. -/
structure Begun (us : List Bool) (start i : ℕ) : Prop where
  lt : start < i
  all : ∀ j, start ≤ j → j < i → us[j]? = some true
  left : start = 0 ∨ us[start - 1]? = some false

/-- What is kept about the places before `i`: the current run, or that none is under way. -/
def Kept (us : List Bool) (i : ℕ) : Option ℕ → Prop
  | none => i = 0 ∨ us[i - 1]? = some false
  | some start => Begun us start i

namespace Begun

variable {us : List Bool} {start i : ℕ}

/-- A run that is over is maximal. -/
theorem isRun (h : Begun us start i) (hi : i ≤ us.length)
    (hend : i = us.length ∨ us[i]? = some false) : IsRun us ⟨start, i⟩ :=
  ⟨h.lt, hi, h.all, h.left, hend⟩

/-- A maximal run that begins inside is the one under way. -/
theorem eq_of_le (h : Begun us start i) (hend : i = us.length ∨ us[i]? = some false) {r : Run}
    (hr : IsRun us r) (hle : start ≤ r.start) (hlt : r.start < i) : r = ⟨start, i⟩ := by
  have hstart : r.start = start := by
    rcases hr.left with hzero | hleft
    · omega
    · by_contra hne
      have hin := h.all (r.start - 1) (by omega) (by omega)
      rw [hleft] at hin
      exact absurd hin (by decide)
  have hstop : r.stop = i := by
    rcases lt_trichotomy r.stop i with hbefore | heq | hafter
    · have hrlt := hr.lt
      have hin := h.all r.stop (by omega) hbefore
      rcases hr.right with hlen | hfalse
      · rw [hlen, List.getElem?_eq_none le_rfl] at hin
        exact absurd hin nofun
      · rw [hfalse] at hin
        exact absurd hin (by decide)
    · exact heq
    · have hin := hr.all i hlt.le hafter
      rcases hend with hlen | hfalse
      · rw [hlen, List.getElem?_eq_none le_rfl] at hin
        exact absurd hin nofun
      · rw [hfalse] at hin
        exact absurd hin (by decide)
  rw [← hstart, ← hstop]

end Begun

/-- The current run goes on, or one begins. -/
theorem Kept.goOn {us : List Bool} {i : ℕ} {run : Option ℕ} (h : Kept us i run)
    (hi : us[i]? = some true) : Begun us (run.getD i) (i + 1) := by
  cases run with
  | none =>
    refine ⟨Nat.lt_succ_self i, fun j hle hlt => ?_, h⟩
    obtain rfl : j = i := le_antisymm (Nat.lt_succ_iff.mp hlt) hle
    exact hi
  | some start =>
    have h : Begun us start i := h
    refine ⟨Nat.lt_succ_of_lt h.lt, fun j hle hlt => ?_, h.left⟩
    rcases Nat.lt_succ_iff_lt_or_eq.mp hlt with hlt | rfl
    · exact h.all j hle hlt
    · exact hi

/-! ### What is found -/

/-- The runs that begin with the current one or after it are found. -/
theorem mem_runsFrom_iff {pre us : List Bool} {run : Option ℕ}
    (h : Kept (pre ++ us) pre.length run) {r : Run} :
    r ∈ runsFrom us pre.length run ↔ IsRun (pre ++ us) r ∧ run.getD pre.length ≤ r.start := by
  induction us generalizing pre run with
  | nil =>
    cases run with
    | none =>
      refine iff_of_false List.not_mem_nil fun ⟨hr, hle⟩ => ?_
      have hlt := hr.lt
      have hstop := hr.le
      rw [List.append_nil] at hstop
      exact absurd hle (by rw [Option.getD_none]; omega)
    | some start =>
      have h : Begun (pre ++ []) start pre.length := h
      have hend : pre.length = (pre ++ []).length := by rw [List.append_nil]
      rw [runsFrom, List.mem_singleton]
      constructor
      · rintro rfl
        exact ⟨h.isRun hend.le (.inl hend), le_rfl⟩
      · rintro ⟨hr, hle⟩
        exact h.eq_of_le (.inl hend) hr hle (hend ▸ hr.lt.trans_le hr.le)
  | cons b us ih =>
    have hat : (pre ++ b :: us)[pre.length]? = some b := by
      rw [List.getElem?_append_right le_rfl, Nat.sub_self, List.getElem?_cons_zero]
    have hsplit : pre ++ b :: us = (pre ++ [b]) ++ us := by
      rw [List.append_assoc, List.singleton_append]
    have hlen : (pre ++ [b]).length = pre.length + 1 := List.length_append
    have ih' {run' : Option ℕ} (h' : Kept (pre ++ b :: us) (pre.length + 1) run') :
        r ∈ runsFrom us (pre.length + 1) run' ↔
          IsRun (pre ++ b :: us) r ∧ run'.getD (pre.length + 1) ≤ r.start := by
      rw [hsplit, ← hlen] at h' ⊢
      exact ih h'
    cases b with
    | true => exact ih' (h.goOn hat)
    | false =>
      have hnext : Kept (pre ++ false :: us) (pre.length + 1) none := .inr hat
      -- no run begins at the place
      have hnot (hr : IsRun (pre ++ false :: us) r) : r.start ≠ pre.length := fun heq => by
        have := hr.all pre.length heq.le (heq ▸ hr.lt)
        rw [hat] at this
        exact absurd this (by decide)
      cases run with
      | none =>
        rw [runsFrom, ih' hnext]
        refine and_congr_right fun hr => ?_
        have := hnot hr
        simp only [Option.getD_none]
        omega
      | some start =>
        have h : Begun (pre ++ false :: us) start pre.length := h
        have hlt := h.lt
        rw [runsFrom, List.mem_cons, ih' hnext, Option.getD_none, Option.getD_some]
        constructor
        · rintro (rfl | ⟨hr, hle⟩)
          · exact ⟨h.isRun (by simp) (.inr hat), le_rfl⟩
          · exact ⟨hr, by omega⟩
        · rintro ⟨hr, hle⟩
          rcases lt_trichotomy r.start pre.length with hbefore | heq | hafter
          · exact .inl (h.eq_of_le (.inr hat) hr hle hbefore)
          · exact absurd heq (hnot hr)
          · exact .inr ⟨hr, hafter⟩

/-- **Exactly the maximal runs are found.** -/
theorem mem_runs_iff {us : List Bool} {r : Run} : r ∈ runs us ↔ IsRun us r := by
  have hstart : Kept ([] ++ us) 0 none := .inl rfl
  exact (mem_runsFrom_iff hstart).trans ⟨fun hr => hr.1, fun hr => ⟨hr, Nat.zero_le _⟩⟩

/-- A current run began before the place. -/
def Early (i : ℕ) (run : Option ℕ) : Prop := ∀ start, run = some start → start < i

theorem early_none (i : ℕ) : Early i none := nofun

theorem Early.goOn {i : ℕ} {run : Option ℕ} (h : Early i run) :
    Early (i + 1) (some (run.getD i)) := by
  intro start hs
  cases run with
  | none => cases hs; exact Nat.lt_succ_self i
  | some s => cases hs; exact Nat.lt_succ_of_lt (h s rfl)

theorem le_start_of_mem_runsFrom {us : List Bool} {i : ℕ} {run : Option ℕ} (h : Early i run)
    {r : Run} (hr : r ∈ runsFrom us i run) : run.getD i ≤ r.start := by
  induction us generalizing i run with
  | nil =>
    cases run with
    | none => exact absurd hr List.not_mem_nil
    | some start =>
      rw [List.mem_singleton.mp hr]
      exact le_rfl
  | cons b us ih =>
    match b, run with
    | true, run =>
      have hle := ih h.goOn hr
      exact hle
    | false, none =>
      have hle := ih (early_none _) hr
      rw [Option.getD_none] at hle ⊢
      omega
    | false, some start =>
      rcases List.mem_cons.mp hr with rfl | hr
      · exact le_rfl
      · have hle := ih (early_none _) hr
        have hlt := h start rfl
        rw [Option.getD_none] at hle
        rw [Option.getD_some]
        omega

/-- The runs ascend, with a place between any two. -/
theorem pairwise_runsFrom {us : List Bool} {i : ℕ} {run : Option ℕ} (h : Early i run) :
    (runsFrom us i run).Pairwise (·.stop < ·.start) := by
  induction us generalizing i run with
  | nil =>
    cases run with
    | none => exact .nil
    | some start => exact List.pairwise_singleton _ _
  | cons b us ih =>
    match b, run with
    | true, run =>
      rw [runsFrom]
      exact ih h.goOn
    | false, none => exact ih (early_none _)
    | false, some start =>
      refine List.pairwise_cons.mpr ⟨fun r hr => ?_, ih (early_none _)⟩
      exact le_start_of_mem_runsFrom (early_none _) hr

theorem pairwise_runs (us : List Bool) : (runs us).Pairwise (·.stop < ·.start) :=
  pairwise_runsFrom (early_none 0)

/-- Of two runs that begin at one place neither stops before the other. -/
theorem IsRun.stop_le {us : List Bool} {r r' : Run} (h : IsRun us r) (h' : IsRun us r')
    (hstart : r.start = r'.start) : r'.stop ≤ r.stop := by
  by_contra hlt
  have hin := h'.all r.stop (hstart ▸ h.lt.le) (Nat.not_le.mp hlt)
  have hle := h'.le
  rcases h.right with hlen | hfalse
  · omega
  · rw [hfalse] at hin
    exact absurd hin (by decide)

theorem IsRun.eq_of_start_eq {us : List Bool} {r r' : Run} (h : IsRun us r) (h' : IsRun us r')
    (hstart : r.start = r'.start) : r = r' := by
  have hstop := Nat.le_antisymm (h'.stop_le h hstart.symm) (h.stop_le h' hstart)
  cases r
  cases r'
  congr

/-- The first run with a property is the one that begins first. -/
theorem find?_runs_eq_some_iff {us : List Bool} {p : Run → Bool} {r : Run} :
    (runs us).find? p = some r ↔
      IsRun us r ∧ p r ∧ ∀ r', IsRun us r' → p r' → r.start ≤ r'.start := by
  have hfirst {r : Run} (h : (runs us).find? p = some r) :
      IsRun us r ∧ p r ∧ ∀ r', IsRun us r' → p r' → r.start ≤ r'.start := by
    obtain ⟨hp, front, back, hsplit, hfront⟩ := List.find?_eq_some_iff_append.mp h
    have hasc := pairwise_runs us
    have hrun : IsRun us r := mem_runs_iff.mp (List.mem_of_find?_eq_some h)
    refine ⟨hrun, hp, fun r' hr' hp' => ?_⟩
    have hmem := mem_runs_iff.mpr hr'
    rw [hsplit] at hasc hmem
    rcases List.mem_append.mp hmem with hin | hin
    · have hno := hfront r' hin
      rw [hp'] at hno
      exact absurd hno (by decide)
    · rcases List.mem_cons.mp hin with rfl | hin
      · exact Nat.le_refl _
      · have hlt := (List.pairwise_cons.mp (List.pairwise_append.mp hasc).2.1).1 r' hin
        exact (hrun.lt.trans hlt).le
  refine ⟨hfirst, fun ⟨hr, hp, hleast⟩ => ?_⟩
  obtain ⟨r', hfind⟩ := Option.isSome_iff_exists.mp
    (List.find?_isSome.mpr ⟨r, mem_runs_iff.mpr hr, hp⟩)
  obtain ⟨hr', hp', hleast'⟩ := hfirst hfind
  have hstart := Nat.le_antisymm (hleast r' hr' hp') (hleast' r hr hp)
  rw [hfind, hr.eq_of_start_eq hr' hstart]

end Runs
