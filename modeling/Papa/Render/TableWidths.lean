import Mathlib.Algebra.BigOperators.Group.List.Lemmas
import Mathlib.Algebra.Order.BigOperators.Group.List
import Papa.Library.Apportion
import Papa.Render.Table

/-!
# The widths of the columns of a table

Columns that are too wide together are made narrower from the widest on. In a turn, either all
columns of the greatest width get the next smaller width, or what is too much is shared among them.
So the result is as if a level came down onto the columns until the budget is kept, and what the
last level leaves is shared out by rounding.

## Main definitions

* `TopLevels`: the greatest width and the next one.
* `Collapses`: the runs of `collapse`, with a rule for each kind of turn.
* `picks`: which of the columns at the last level give up one more.

## Main results

* `exists_collapses`: the loop ends.
* `Collapses.sum_eq`, `Collapses.min_le`: the budget is spent, and no column is made narrower than a
  level that the budget allows.
* `exists_computeColumnWidths`: what `compute_column_widths` returns, for every table and width.
-/

namespace Papa.Render.Tables

open Apportion

/-! ### Rounding -/

theorem roundHalfEven_eq_or {num den : ℤ} (hnum : 0 ≤ num) (hden : 0 < den) :
    roundHalfEven num den = num / den ∨
      0 < num % den ∧ roundHalfEven num den = num / den + 1 := by
  have hmod := Int.emod_nonneg num hden.ne'
  simp only [roundHalfEven, Int.tdiv_eq_ediv_of_nonneg hnum, Int.tmod_eq_emod_of_nonneg hnum]
  split_ifs <;> omega

theorem isRounding_roundHalfEven : IsRounding roundHalfEven where
  le_of_le_mul {num den c} hnum hden hle := by
    have hdiv := Int.emod_add_mul_ediv num den
    have hmod := Int.emod_nonneg num hden.ne'
    have hfloor : num / den ≤ c := Int.ediv_le_of_le_mul hden hle
    rcases roundHalfEven_eq_or hnum hden with heq | ⟨hpos, heq⟩
    · omega
    · rcases hfloor.lt_or_eq with hlt | rfl
      · omega
      · rw [mul_comm] at hle
        omega
  le_of_mul_le {num den c} hnum hden hle := by
    have hfloor : c ≤ num / den := Int.le_ediv_of_mul_le hden hle
    rcases roundHalfEven_eq_or hnum hden with heq | ⟨-, heq⟩ <;> omega

theorem isRounding_ceilDiv : IsRounding ceilDiv where
  le_of_le_mul {num den c} hnum hden hle := by
    rw [ceilDiv, Int.tdiv_eq_ediv_of_nonneg (by omega)]
    refine Int.lt_add_one_iff.1 (Int.ediv_lt_of_lt_mul hden ?_)
    rw [add_mul, one_mul]
    omega
  le_of_mul_le {num den c} hnum hden hle := by
    rw [ceilDiv, Int.tdiv_eq_ediv_of_nonneg (by omega)]
    exact Int.le_ediv_of_mul_le hden (by omega)

/-- One more unit is given by the greater half, and by a half for an odd quotient. -/
def Picked (q k r : ℤ) : Prop := k < 2 * r ∨ 2 * r = k ∧ q % 2 ≠ 0

instance (q k r : ℤ) : Decidable (Picked q k r) :=
  inferInstanceAs (Decidable (k < 2 * r ∨ 2 * r = k ∧ q % 2 ≠ 0))

theorem roundHalfEven_mul_add {q k r : ℤ} (hq : 0 ≤ q) (hk : 0 < k) (hr : 0 ≤ r) (hrk : r ≤ k) :
    roundHalfEven (q * k + r) k = q + if Picked q k r then 1 else 0 := by
  have hnum : 0 ≤ q * k + r := add_nonneg (mul_nonneg hq hk.le) hr
  have hodd : (q.tmod 2 = 0) ↔ ¬q % 2 ≠ 0 := by rw [Int.tmod_eq_emod_of_nonneg hq, not_not]
  rcases hrk.lt_or_eq with hlt | rfl
  · have hdiv : (q * k + r) / k = q := by
      rw [Int.add_comm, Int.add_mul_ediv_right _ _ hk.ne', Int.ediv_eq_zero_of_lt hr hlt, zero_add]
    have hmod : (q * k + r) % k = r := by
      rw [Int.add_comm, Int.add_mul_emod_self_right, Int.emod_eq_of_lt hr hlt]
    simp only [roundHalfEven, Int.tdiv_eq_ediv_of_nonneg hnum, Int.tmod_eq_emod_of_nonneg hnum,
      hdiv, hmod, hodd, Picked]
    split_ifs <;> omega
  · have hwhole : q * r + r = (q + 1) * r := by ring
    rw [hwhole, isRounding_roundHalfEven.eq_of_eq_mul hk (by omega), if_pos (.inl (by omega))]

/-! ### Widening -/

theorem distributeLoop_of_sum_pos {w W left : ℤ} {ws : List ℤ} (hW : 0 < W) :
    distributeLoop W left (w :: ws) = ceilDiv (w * left) W ::
      distributeLoop (W - w) (left - ceilDiv (w * left) W) ws := by
  rw [distributeLoop, if_pos hW]

theorem distributeLoop_of_sum_eq_zero {w left : ℤ} {ws : List ℤ} :
    distributeLoop 0 left (w :: ws) = left :: distributeLoop (0 - w) 0 ws := by
  rw [distributeLoop, if_neg (lt_irrefl 0), sub_self]

theorem length_distributeLoop (W left : ℤ) (ws : List ℤ) :
    (distributeLoop W left ws).length = ws.length := by
  induction ws generalizing W left with
  | nil => rfl
  | cons w ws ih => rw [distributeLoop, List.length_cons, ih, List.length_cons]

/-- The shares are not negative and add up to the total. -/
theorem distributeLoop_spec {ws : List ℤ} {left : ℤ} (hws : ∀ w ∈ ws, 0 ≤ w) (hleft : 0 ≤ left) :
    (∀ d ∈ distributeLoop ws.sum left ws, 0 ≤ d) ∧
      (ws ≠ [] → (distributeLoop ws.sum left ws).sum = left) := by
  induction ws generalizing left with
  | nil => exact ⟨fun d hd => absurd hd List.not_mem_nil, fun h => absurd rfl h⟩
  | cons w ws ih =>
    rw [List.forall_mem_cons] at hws
    have hsum : 0 ≤ ws.sum := List.sum_nonneg hws.2
    rw [List.sum_cons]
    rcases (add_nonneg hws.1 hsum).lt_or_eq with hpos | hzero
    · have hle := isRounding_ceilDiv.le_left hws.1 (by omega : w ≤ w + ws.sum) hpos hleft
      have hnonneg := isRounding_ceilDiv.nonneg hws.1 hpos hleft
      obtain ⟨hshares, htotal⟩ := ih hws.2 (sub_nonneg.2 hle)
      rw [distributeLoop_of_sum_pos hpos, add_sub_cancel_left]
      refine ⟨List.forall_mem_cons.2 ⟨hnonneg, hshares⟩, fun _ => ?_⟩
      rw [List.sum_cons]
      rcases eq_or_ne ws [] with rfl | hne
      · -- the last place gets the rest
        rw [List.sum_nil, add_zero] at hpos
        simp only [distributeLoop, List.sum_nil, add_zero, isRounding_ceilDiv.eq_left hpos hleft]
      · rw [htotal hne, add_sub_cancel]
    · -- no weights: the first place gets all
      have hw : w = 0 := by omega
      obtain ⟨hshares, htotal⟩ := ih hws.2 le_rfl
      have hws0 : ws.sum = 0 := by omega
      rw [← hzero, distributeLoop_of_sum_eq_zero, hw, sub_zero]
      rw [hws0] at hshares htotal
      refine ⟨List.forall_mem_cons.2 ⟨hleft, hshares⟩, fun _ => ?_⟩
      rw [List.sum_cons]
      rcases eq_or_ne ws [] with rfl | hne
      · exact add_zero left
      · rw [htotal hne, add_zero]

theorem distributeLoop_replicate_zero (left : ℤ) (n : ℕ) :
    distributeLoop 0 left (List.replicate (n + 1) 0) = left :: List.replicate n 0 := by
  induction n generalizing left with
  | zero => rfl
  | succ n ih =>
    rw [List.replicate_succ, distributeLoop_of_sum_eq_zero, sub_zero, ih, List.replicate_succ]

/-- Equal sums leave no room between two lists of which one is below the other. -/
theorem eq_of_forall₂_le {xs ys : List ℤ} (h : List.Forall₂ (· ≤ ·) xs ys)
    (hsum : ys.sum ≤ xs.sum) : xs = ys := by
  induction h with
  | nil => rfl
  | @cons x y xs ys hxy htail ih =>
    have hle : xs.sum ≤ ys.sum := List.Forall₂.sum_le_sum htail
    rw [List.sum_cons, List.sum_cons] at hsum
    rw [show x = y by omega, ih (by omega)]

theorem forall₂_le_zipWith_add {xs ds : List ℤ} (hlen : ds.length = xs.length)
    (hds : ∀ d ∈ ds, 0 ≤ d) : List.Forall₂ (· ≤ ·) xs (List.zipWith (· + ·) xs ds) := by
  induction xs generalizing ds with
  | nil => exact .nil
  | cons x xs ih =>
    cases ds with
    | nil => exact absurd hlen (by simp)
    | cons d ds =>
      rw [List.forall_mem_cons] at hds
      exact .cons (by simpa using hds.1) (ih (by simpa using hlen) hds.2)

/-- Widening keeps the budget. -/
theorem widen_spec {table : Table} {maxWidth : ℤ} {widths : List ℤ} (hws : ∀ w ∈ widths, 0 ≤ w)
    (hsum : widths.sum ≤ maxWidth) :
    List.Forall₂ (· ≤ ·) widths (widen table maxWidth widths) ∧
      (widen table maxWidth widths).sum ≤ maxWidth := by
  simp only [widen, ratioDistribute]
  split_ifs with hwiden
  · have htarget : 0 ≤ min (table.minWidth - extraWidth table) maxWidth - widths.sum :=
      sub_nonneg.2 (le_min hwiden.2.le hsum)
    obtain ⟨hshares, htotal⟩ := distributeLoop_spec hws htarget
    have hlen := length_distributeLoop widths.sum
      (min (table.minWidth - extraWidth table) maxWidth - widths.sum) widths
    refine ⟨forall₂_le_zipWith_add hlen hshares, ?_⟩
    rw [← List.sum_add_sum_eq_sum_zipWith_of_length_eq _ _ hlen.symm]
    rcases eq_or_ne widths [] with rfl | hne
    · simpa [distributeLoop] using hsum
    · rw [htotal hne, add_sub_cancel]
      exact min_le_right _ _
  · exact ⟨List.forall₂_same.2 fun w _ => le_rfl, hsum⟩

/-! ### Sharing among the widest columns -/

variable {p s cap c k excess : ℤ} {ws : List ℤ}

/-- The place of a column of width `w` when the columns of width `p` are made narrower by `cap` at
most. -/
def topSlot (p cap w : ℤ) : Slot := ⟨if w = p then 1 else 0, cap, w⟩

@[simp] theorem value_topSlot (w : ℤ) : (topSlot p cap w).value = w := rfl
@[simp] theorem maximum_topSlot (w : ℤ) : (topSlot p cap w).maximum = cap := rfl
@[simp] theorem ratio_topSlot_self : (topSlot p cap p).ratio = 1 := if_pos rfl

theorem ratio_topSlot_of_ne {w : ℤ} (h : w ≠ p) : (topSlot p cap w).ratio = 0 := if_neg h

theorem count_cons_top : ((p :: ws).count p : ℤ) = ws.count p + 1 := by
  rw [List.count_cons_self, Nat.cast_add, Nat.cast_one]

theorem count_cons_below {w : ℤ} (h : w ≠ p) : ((w :: ws).count p : ℤ) = ws.count p := by
  rw [List.count_cons_of_ne h]

theorem sum_ratio_topSlot : ((ws.map (topSlot p cap)).map Slot.ratio).sum = ws.count p := by
  induction ws with
  | nil => rfl
  | cons w ws ih =>
    rw [List.map_cons, List.map_cons, List.sum_cons, ih]
    by_cases h : w = p
    · rw [h, ratio_topSlot_self, count_cons_top, add_comm]
    · rw [ratio_topSlot_of_ne h, count_cons_below h, zero_add]

theorem reduceLoop_cons_below {w : ℤ} (h : w ≠ p) :
    reduceLoop k excess ((w :: ws).map (topSlot p cap)) =
      w :: reduceLoop k excess (ws.map (topSlot p cap)) := by
  rw [List.map_cons, reduceLoop, if_neg (by simp [ratio_topSlot_of_ne h]), value_topSlot]

/-- While the columns can give up what is too much, no share is capped. -/
theorem reduceLoop_cons_top (hexcess : 0 ≤ excess) (hcap : excess ≤ cap * (p :: ws).count p) :
    reduceLoop ((p :: ws).count p) excess ((p :: ws).map (topSlot p cap)) =
      (p - roundHalfEven excess ((p :: ws).count p)) ::
        reduceLoop (ws.count p) (excess - roundHalfEven excess ((p :: ws).count p))
          (ws.map (topSlot p cap)) := by
  have hk : (0 : ℤ) < (p :: ws).count p := by rw [count_cons_top]; omega
  have hshare := isRounding_roundHalfEven.le_of_le_mul hexcess hk hcap
  rw [List.map_cons, reduceLoop, if_pos ⟨by simp, hk⟩]
  simp only [ratio_topSlot_self, maximum_topSlot, value_topSlot, one_mul, min_eq_right hshare]
  rw [count_cons_top, add_sub_cancel_right]

/-- Columns that have to give up more than they can give up all they can. -/
theorem reduceLoop_eq_of_le (hcap : 0 ≤ cap) (hle : cap * ws.count p ≤ excess) :
    reduceLoop (ws.count p) excess (ws.map (topSlot p cap)) =
      ws.map fun w => if w = p then p - cap else w := by
  induction ws generalizing excess with
  | nil => rfl
  | cons w ws ih =>
    by_cases h : w = p
    · subst h
      rw [count_cons_top] at hle ⊢
      have hmul : 0 ≤ cap * (ws.count w : ℤ) := mul_nonneg hcap (by omega)
      rw [mul_add, mul_one] at hle
      have hshare : cap ≤ roundHalfEven excess (ws.count w + 1) :=
        isRounding_roundHalfEven.le_of_mul_le (by omega) (by omega) (by rw [mul_add]; omega)
      rw [List.map_cons, reduceLoop, if_pos ⟨by simp, by omega⟩]
      simp only [ratio_topSlot_self, maximum_topSlot, value_topSlot, one_mul, min_eq_left hshare]
      rw [add_sub_cancel_right, ih (by omega), List.map_cons, if_pos rfl]
    · rw [count_cons_below h] at hle ⊢
      rw [reduceLoop_cons_below h, ih hle, List.map_cons, if_neg h]

/-- What is too much is given up, and no column gives up more than `c` if all can give up `c`. -/
theorem reduceLoop_spec (hexcess : 0 ≤ excess) (hcap : excess ≤ cap * ws.count p)
    (hc : excess ≤ c * ws.count p) :
    (reduceLoop (ws.count p) excess (ws.map (topSlot p cap))).sum = ws.sum - excess ∧
      List.Forall₂ (fun w r => r ≤ w ∧ (w = p ∧ p - c ≤ r ∨ w ≠ p ∧ r = w)) ws
        (reduceLoop (ws.count p) excess (ws.map (topSlot p cap))) := by
  induction ws generalizing excess with
  | nil =>
    have hzero : excess = 0 := by simpa [hexcess.ge_iff_eq'] using hcap
    exact ⟨by simp [reduceLoop, hzero], .nil⟩
  | cons w ws ih =>
    by_cases h : w = p
    · subst h
      have hk : (0 : ℤ) < (w :: ws).count w := by rw [count_cons_top]; omega
      have hpred : ((w :: ws).count w : ℤ) - 1 = ws.count w := by
        rw [count_cons_top, add_sub_cancel_right]
      have hnonneg := isRounding_roundHalfEven.nonneg zero_le_one hk hexcess
      have hleft := isRounding_roundHalfEven.le_left zero_le_one (by omega) hk hexcess
      have hshare := isRounding_roundHalfEven.le_of_le_mul hexcess hk hc
      have hrest := isRounding_roundHalfEven.rest_le hk hexcess hcap
      have hrest' := isRounding_roundHalfEven.rest_le hk hexcess hc
      rw [one_mul] at hnonneg hleft
      rw [hpred] at hrest hrest'
      obtain ⟨hsum, hall⟩ := ih (by omega) hrest hrest'
      rw [reduceLoop_cons_top hexcess hcap]
      refine ⟨?_, .cons ⟨by omega, .inl ⟨rfl, by omega⟩⟩ hall⟩
      rw [List.sum_cons, List.sum_cons, hsum]
      omega
    · rw [count_cons_below h] at hcap hc ⊢
      obtain ⟨hsum, hall⟩ := ih hexcess hcap hc
      rw [reduceLoop_cons_below h]
      refine ⟨?_, .cons ⟨le_rfl, .inr ⟨h, rfl⟩⟩ hall⟩
      rw [List.sum_cons, List.sum_cons, hsum]
      omega

/-! ### Runs of the loop -/

/-- The greatest width and the next one, which is zero where there is none. -/
structure TopLevels (ws : List ℤ) (p s : ℤ) : Prop where
  top_mem : p ∈ ws
  le_next : ∀ w ∈ ws, w ≠ p → w ≤ s
  next_nonneg : 0 ≤ s
  next_lt : s < p
  next_mem : s = 0 ∨ s ∈ ws

theorem foldl_max_spec {α : Type} [LinearOrder α] (ws : List α) (m : α) :
    m ≤ ws.foldl max m ∧ (∀ w ∈ ws, w ≤ ws.foldl max m) ∧
      (ws.foldl max m = m ∨ ws.foldl max m ∈ ws) := by
  induction ws generalizing m with
  | nil => exact ⟨le_rfl, fun w hw => absurd hw List.not_mem_nil, .inl rfl⟩
  | cons w ws ih =>
    obtain ⟨hle, hall, hmem⟩ := ih (max m w)
    rw [List.foldl_cons]
    refine ⟨(le_max_left m w).trans hle, ?_, ?_⟩
    · exact List.forall_mem_cons.2 ⟨(le_max_right m w).trans hle, hall⟩
    · rcases hmem with heq | hmem
      · rcases max_choice m w with hmax | hmax
        · exact .inl (heq.trans hmax)
        · exact .inr (List.mem_cons.2 (.inl (heq.trans hmax)))
      · exact .inr (List.mem_cons_of_mem w hmem)

theorem topLevels (hws : ∀ w ∈ ws, 0 ≤ w) (hsum : 0 < ws.sum) :
    TopLevels ws (ws.max?.getD 0) ((ws.filter (· ≠ ws.max?.getD 0)).foldl max 0) := by
  have hne : ws ≠ [] := by
    rintro rfl
    exact absurd hsum (lt_irrefl 0)
  obtain ⟨p, hp⟩ := Option.isSome_iff_exists.1 (List.isSome_max?_iff.2 hne)
  obtain ⟨hmem, hmax⟩ := List.max?_eq_some_iff.1 hp
  rw [hp, Option.getD_some]
  obtain ⟨hnonneg, hall, hnext⟩ := foldl_max_spec (ws.filter (· ≠ p)) 0
  simp only [List.mem_filter, decide_eq_true_eq, and_imp] at hall hnext
  have hpos : 0 < p := by
    by_contra! hle
    have hzero := List.sum_eq_zero fun w hw => le_antisymm ((hmax w hw).trans hle) (hws w hw)
    exact hsum.ne' hzero
  refine ⟨hmem, hall, hnonneg, ?_, hnext.imp_right And.left⟩
  rcases hnext with hzero | ⟨hin, hneq⟩
  · rwa [hzero]
  · exact lt_of_le_of_ne (hmax _ hin) hneq

theorem TopLevels.count_pos (h : TopLevels ws p s) : (0 : ℤ) < ws.count p := by
  exact_mod_cast List.count_pos_iff.2 h.top_mem

/-- A level between the two greatest widths takes from the widest columns only. -/
theorem sum_map_min {m : ℤ} (hsm : s ≤ m) (hmp : m ≤ p) (hle : ∀ w ∈ ws, w ≠ p → w ≤ s) :
    (ws.map (min · m)).sum = ws.sum - (p - m) * ws.count p := by
  induction ws with
  | nil => simp
  | cons w ws ih =>
    rw [List.forall_mem_cons] at hle
    rw [List.map_cons, List.sum_cons, List.sum_cons, ih hle.2]
    by_cases hw : w = p
    · rw [hw, count_cons_top, min_eq_right hmp]
      ring
    · rw [count_cons_below hw, min_eq_left ((hle.1 hw).trans hsm)]
      ring

/-- What the loop makes of the widths: it stops, brings the widest columns down to the next width,
or shares out what is too much. -/
inductive Collapses (maxWidth : ℤ) : List ℤ → List ℤ → Prop
  | stop {ws : List ℤ} (hsum : ws.sum ≤ 0 ∨ ws.sum ≤ maxWidth) : Collapses maxWidth ws ws
  | level {ws widths : List ℤ} {p s : ℤ} (htop : TopLevels ws p s)
      (hlevel : maxWidth < (ws.map (min · s)).sum)
      (hrest : Collapses maxWidth (ws.map (min · s)) widths) : Collapses maxWidth ws widths
  | share {ws : List ℤ} {p s : ℤ} (htop : TopLevels ws p s)
      (hbelow : (ws.map (min · s)).sum ≤ maxWidth) (habove : maxWidth < ws.sum) :
      Collapses maxWidth ws (reduceLoop (ws.count p) (ws.sum - maxWidth)
        (ws.map (topSlot p (min (ws.sum - maxWidth) (p - s)))))

variable {maxWidth : ℤ}

theorem collapse_of_sum_le {turns : ℕ} (h : ws.sum ≤ 0 ∨ ws.sum ≤ maxWidth) :
    collapse maxWidth (turns + 1) ws = some ws := by
  rw [collapse]
  exact if_neg (by omega)

theorem ratioReduce_topSlot (hcap : cap ≠ 0) (hmem : p ∈ ws) :
    ratioReduce excess (ws.map (topSlot p cap)) =
      reduceLoop (ws.count p) excess (ws.map (topSlot p cap)) := by
  have hkeep : (ws.map (topSlot p cap)).map
      (fun slot => if slot.maximum = 0 then { slot with ratio := 0 } else slot) =
        ws.map (topSlot p cap) := by
    rw [List.map_map]
    exact List.map_congr_left fun w _ => if_neg hcap
  have hcount : (ws.count p : ℤ) ≠ 0 := by
    exact_mod_cast (List.count_pos_iff.2 hmem).ne'
  simp only [ratioReduce, hkeep, sum_ratio_topSlot, if_neg hcount]

theorem collapse_succ (turns : ℕ) (hws : ∀ w ∈ ws, 0 ≤ w) (hpos : 0 < ws.sum)
    (habove : maxWidth < ws.sum) :
    ∃ p s, TopLevels ws p s ∧ collapse maxWidth (turns + 1) ws =
      collapse maxWidth turns (reduceLoop (ws.count p) (ws.sum - maxWidth)
        (ws.map (topSlot p (min (ws.sum - maxWidth) (p - s))))) := by
  have htop := topLevels hws hpos
  refine ⟨_, _, htop, ?_⟩
  generalize hp : ws.max?.getD 0 = p at htop
  generalize hs : (ws.filter (· ≠ p)).foldl max 0 = s at htop
  have hdiff : p - s ≠ 0 := (sub_pos.2 htop.next_lt).ne'
  have hcap : min (ws.sum - maxWidth) (p - s) ≠ 0 := by
    have := htop.next_lt
    omega
  have hany : ws.any (fun w => decide ((if w = p then (1 : ℤ) else 0) ≠ 0)) = true :=
    List.any_eq_true.2 ⟨p, htop.top_mem, by simp⟩
  rw [collapse]
  simp only [hp, hs]
  rw [if_pos ⟨hpos, sub_pos.2 habove⟩, if_neg (not_or.2 ⟨not_not.2 hany, hdiff⟩),
    ← ratioReduce_topSlot hcap htop.top_mem]
  rfl

theorem map_ite_eq_map_min (h : TopLevels ws p s) :
    (ws.map fun w => if w = p then p - (p - s) else w) = ws.map (min · s) := by
  refine List.map_congr_left fun w hw => ?_
  have hlt := h.next_lt
  split_ifs with heq
  · omega
  · rw [min_eq_left (h.le_next w hw heq)]

theorem TopLevels.sum_map_min_eq (h : TopLevels ws p s) :
    (ws.map (min · s)).sum = ws.sum - (p - s) * ws.count p :=
  sum_map_min le_rfl h.next_lt.le h.le_next

theorem TopLevels.next_le_diff (h : TopLevels ws p s) : p - s ≤ (p - s) * ws.count p :=
  le_mul_of_one_le_right (sub_nonneg.2 h.next_lt.le) h.count_pos

theorem TopLevels.excess_le (h : TopLevels ws p s) (hbelow : (ws.map (min · s)).sum ≤ maxWidth)
    (habove : maxWidth < ws.sum) :
    ws.sum - maxWidth ≤ min (ws.sum - maxWidth) (p - s) * ws.count p := by
  rw [h.sum_map_min_eq] at hbelow
  rcases min_choice (ws.sum - maxWidth) (p - s) with heq | heq <;> rw [heq]
  · exact le_mul_of_one_le_right (sub_nonneg.2 habove.le) h.count_pos
  · omega

/-- A level that takes more than the next width is not above it. -/
theorem TopLevels.le_of_sum_map_min_le {t : ℤ} (h : TopLevels ws p s)
    (hle : (ws.map (min · t)).sum ≤ (ws.map (min · s)).sum) : t ≤ s := by
  by_contra! hst
  refine absurd hle (not_le.2 (List.sum_lt_sum _ _ (fun w _ => ?_) ⟨p, h.top_mem, ?_⟩))
  · exact min_le_min_left w hst.le
  · rw [min_eq_right h.next_lt.le]
    exact lt_min h.next_lt hst

/-- A level that takes anything is below the greatest width. -/
theorem TopLevels.lt_of_sum_map_min_lt {t : ℤ} (h : TopLevels ws p s)
    (hlt : (ws.map (min · t)).sum < ws.sum) : t < p := by
  by_contra! hpt
  have hall : ws.map (min · t) = ws.map id := by
    refine List.map_congr_left fun w hw => min_eq_left ?_
    by_cases hwp : w = p
    · omega
    · have := h.le_next w hw hwp
      have := h.next_lt
      omega
  rw [hall, List.map_id] at hlt
  exact lt_irrefl _ hlt

theorem forall_mem_of_forall₂ {P : ℤ → Prop} {xs ys : List ℤ}
    (h : List.Forall₂ (fun _ y => P y) xs ys) : ∀ y ∈ ys, P y := by
  induction h with
  | nil => exact fun y hy => absurd hy List.not_mem_nil
  | cons hy _ ih => exact List.forall_mem_cons.2 ⟨hy, ih⟩

theorem forall_mem_map_min (hws : ∀ w ∈ ws, 0 ≤ w) (hs : 0 ≤ s) : ∀ w ∈ ws.map (min · s), 0 ≤ w :=
  List.forall_mem_map.2 fun w hw => le_min (hws w hw) hs

/-- The loop ends: the widths together get less in each turn. -/
theorem exists_collapses {turns : ℕ} (hws : ∀ w ∈ ws, 0 ≤ w) (hturns : ws.sum.toNat < turns) :
    ∃ widths, collapse maxWidth turns ws = some widths ∧ Collapses maxWidth ws widths := by
  induction turns generalizing ws with
  | zero => exact absurd hturns (Nat.not_lt_zero _)
  | succ turns ih =>
    by_cases hstop : ws.sum ≤ 0 ∨ ws.sum ≤ maxWidth
    · exact ⟨ws, collapse_of_sum_le hstop, .stop hstop⟩
    · rw [not_or, not_le, not_le] at hstop
      obtain ⟨hpos, habove⟩ := hstop
      obtain ⟨p, s, htop, hturn⟩ := collapse_succ turns hws hpos habove
      have hdiff := htop.next_le_diff
      have hsum := htop.sum_map_min_eq
      have hlt := htop.next_lt
      rw [hturn]
      by_cases hlevel : maxWidth < (ws.map (min · s)).sum
      · rw [min_eq_right (by omega), reduceLoop_eq_of_le (by omega) (by omega),
          map_ite_eq_map_min htop]
        obtain ⟨widths, heq, hrun⟩ := ih (forall_mem_map_min hws htop.next_nonneg) (by omega)
        exact ⟨widths, heq, .level htop hlevel hrun⟩
      · have hexcess := htop.excess_le (not_lt.1 hlevel) habove
        have hspec := reduceLoop_spec (by omega) hexcess hexcess
        obtain ⟨turns, rfl⟩ := Nat.exists_eq_succ_of_ne_zero (by omega : turns ≠ 0)
        exact ⟨_, collapse_of_sum_le (.inr (by omega)), .share htop (not_lt.1 hlevel) habove⟩

namespace Collapses

variable {widths : List ℤ}

/-- Columns are made narrower, but not negative. -/
theorem le (h : Collapses maxWidth ws widths) (hws : ∀ w ∈ ws, 0 ≤ w) :
    List.Forall₂ (fun w r => r ≤ w) ws widths ∧ ∀ r ∈ widths, 0 ≤ r := by
  induction h with
  | stop => exact ⟨List.forall₂_same.2 fun w _ => le_rfl, hws⟩
  | level htop _ _ ih =>
    obtain ⟨hle, hnonneg⟩ := ih (forall_mem_map_min hws htop.next_nonneg)
    rw [List.forall₂_map_left_iff] at hle
    exact ⟨hle.imp fun w r h => h.trans (min_le_left _ _), hnonneg⟩
  | @share ws p s htop hbelow habove =>
    have hexcess := htop.excess_le hbelow habove
    have hsum := htop.sum_map_min_eq
    have hnext := htop.next_nonneg
    have hshares := (reduceLoop_spec (c := p - s) (by omega) hexcess (by omega)).2
    have hnonneg := List.Forall₂.imp (S := fun _ r => 0 ≤ r) (fun w r h => by omega)
      ((List.forall₂_and_left _ _).2 ⟨hws, hshares⟩)
    exact ⟨hshares.imp fun w r h => h.1, forall_mem_of_forall₂ hnonneg⟩

/-- The budget is spent. -/
theorem sum_eq (h : Collapses maxWidth ws widths) (hmax : 0 ≤ maxWidth) (hle : maxWidth ≤ ws.sum) :
    widths.sum = maxWidth := by
  induction h with
  | stop hsum => omega
  | level _ hlevel _ ih => exact ih hlevel.le
  | share htop hbelow habove =>
    have hexcess := htop.excess_le hbelow habove
    rw [(reduceLoop_spec (by omega) hexcess hexcess).1, sub_sub_cancel]

/-- Without a budget nothing is left. -/
theorem sum_nonpos (h : Collapses maxWidth ws widths) (hws : ∀ w ∈ ws, 0 ≤ w)
    (hmax : maxWidth < 0) : widths.sum ≤ 0 := by
  induction h with
  | stop hsum => omega
  | level htop _ _ ih => exact ih (forall_mem_map_min hws htop.next_nonneg)
  | share htop hbelow _ =>
    have := List.sum_nonneg (forall_mem_map_min hws htop.next_nonneg)
    omega

/-- No column is made narrower than a level that the budget allows. -/
theorem min_le {t : ℤ} (h : Collapses maxWidth ws widths)
    (ht : (ws.map (min · t)).sum ≤ maxWidth) :
    List.Forall₂ (fun w r => min w t ≤ r) ws widths := by
  induction h with
  | stop => exact List.forall₂_same.2 fun w _ => min_le_left w t
  | level htop hlevel _ ih =>
    have hts : t ≤ _ := htop.le_of_sum_map_min_le (ht.trans hlevel.le)
    have hmap : ∀ w : ℤ, min (min w _) t = min w t := fun w => by
      rw [min_assoc, min_eq_right hts]
    have hlower := ih (by simpa only [List.map_map, Function.comp_def, hmap] using ht)
    rw [List.forall₂_map_left_iff] at hlower
    exact hlower.imp fun w r h => (hmap w).ge.trans h
  | @share ws p s htop hbelow habove =>
    have htp : t < p := htop.lt_of_sum_map_min_lt (ht.trans_lt habove)
    have hlt := htop.next_lt
    -- the widest columns can all come down to this level
    have hlevel : (ws.map (min · (max s t))).sum ≤ maxWidth := by
      rcases max_choice s t with heq | heq <;> rw [heq]
      exacts [hbelow, ht]
    rw [sum_map_min (le_max_left s t) (max_le hlt.le htp.le) htop.le_next] at hlevel
    have hshares := (reduceLoop_spec (c := p - max s t) (by omega)
      (htop.excess_le hbelow habove) (by omega)).2
    exact hshares.imp fun w r h => by omega

end Collapses

/-! ### The columns that get no room for a text -/

/-- Among the columns of width three or more, of which `k` are still to come, those that give up one
more than `q` when `r` units are left over. -/
def picks (q : ℤ) : (k r : ℤ) → List ℤ → List Bool
  | _, _, [] => []
  | k, r, w :: ws =>
    if 3 ≤ w then
      decide (Picked q k r) :: picks q (k - 1) (r - if Picked q k r then 1 else 0) ws
    else false :: picks q k r ws

/-- The width of a column that keeps a character unless it is picked. -/
def squeezedWidth (w : ℤ) (picked : Bool) : ℤ := if picked then 2 else min w 3

theorem length_picks (q k r : ℤ) (ws : List ℤ) : (picks q k r ws).length = ws.length := by
  induction ws generalizing k r with
  | nil => rfl
  | cons w ws ih =>
    rw [picks]
    split_ifs <;> rw [List.length_cons, List.length_cons, ih]

/-- The columns are picked by the places where they are wide, and not by how wide they are. -/
theorem zipWith_picks_map_min {q r : ℤ} (hs : 3 ≤ s) :
    List.zipWith squeezedWidth (ws.map (min · s)) (picks q k r (ws.map (min · s))) =
      List.zipWith squeezedWidth ws (picks q k r ws) := by
  induction ws generalizing k r with
  | nil => rfl
  | cons w ws ih =>
    have hwidth : ∀ b, squeezedWidth (min w s) b = squeezedWidth w b := fun b => by
      rw [squeezedWidth, squeezedWidth, min_assoc, min_eq_right hs]
    rw [List.map_cons, picks, picks]
    by_cases hw : 3 ≤ w
    · rw [if_pos (le_min hw hs), if_pos hw, List.zipWith_cons_cons, List.zipWith_cons_cons, ih,
        hwidth]
    · rw [if_neg fun h => hw (h.trans (min_le_left w s)), if_neg hw, List.zipWith_cons_cons,
        List.zipWith_cons_cons, ih, hwidth]

/-- What is left over after a column keeps fitting into the columns after it. -/
theorem picked_rest {q r : ℤ} (hk : 0 < k) (hr : 0 ≤ r) (hrk : r ≤ k) :
    0 ≤ r - (if Picked q k r then 1 else 0) ∧ r - (if Picked q k r then 1 else 0) ≤ k - 1 := by
  by_cases h : Picked q k r
  · rw [if_pos h]
    rcases h with hgt | ⟨htie, -⟩ <;> omega
  · rw [if_neg h]
    rw [Picked, not_or] at h
    omega

theorem reduceLoop_eq_picks {r : ℤ} (hp : 3 ≤ p) (hws : ∀ w ∈ ws, 3 ≤ w → w = p) (hr : 0 ≤ r)
    (hrk : r ≤ ws.count p) (hcap : (p - 3) * ws.count p + r ≤ cap * ws.count p) :
    reduceLoop (ws.count p) ((p - 3) * ws.count p + r) (ws.map (topSlot p cap)) =
      List.zipWith squeezedWidth ws (picks (p - 3) (ws.count p) r ws) := by
  induction ws generalizing r with
  | nil => rfl
  | cons w ws ih =>
    rw [List.forall_mem_cons] at hws
    by_cases h : w = p
    · subst h
      have hk : (0 : ℤ) < (w :: ws).count w := by rw [count_cons_top]; omega
      have hpred : ((w :: ws).count w : ℤ) - 1 = ws.count w := by
        rw [count_cons_top, add_sub_cancel_right]
      have hexcess : 0 ≤ (w - 3) * ((w :: ws).count w : ℤ) + r :=
        add_nonneg (mul_nonneg (sub_nonneg.2 hp) hk.le) hr
      have hrest := isRounding_roundHalfEven.rest_le hk hexcess hcap
      obtain ⟨hr', hrk'⟩ := picked_rest (q := w - 3) hk hr hrk
      rw [reduceLoop_cons_top hexcess hcap, picks, if_pos hp, List.zipWith_cons_cons]
      rw [roundHalfEven_mul_add (sub_nonneg.2 hp) hk hr hrk] at hrest ⊢
      generalize hpick : (if Picked (w - 3) ((w :: ws).count w) r then (1 : ℤ) else 0) = pick at *
      have hsplit : (w - 3) * ((w :: ws).count w : ℤ) + r - (w - 3 + pick) =
          (w - 3) * (ws.count w : ℤ) + (r - pick) := by
        rw [count_cons_top]
        ring
      rw [hpred] at hrest hrk' ⊢
      rw [hsplit] at hrest ⊢
      rw [ih hws.2 hr' hrk' hrest]
      refine congrArg (· :: _) ?_
      rw [squeezedWidth, ← hpick, min_eq_right hp]
      simp only [decide_eq_true_eq]
      split_ifs <;> ring
    · rw [count_cons_below h] at hrk hcap ⊢
      have hw : ¬3 ≤ w := fun h3 => h (hws.1 h3)
      rw [reduceLoop_cons_below h, ih hws.2 hr hrk hcap, picks, if_neg hw, List.zipWith_cons_cons,
        squeezedWidth, if_neg Bool.false_ne_true, min_eq_left (by omega)]

/-- The least of the widths that are three or more. -/
def leastWide (ws : List ℤ) : ℤ := (ws.filter (3 ≤ ·)).min?.getD 3

/-- The columns that are left with two of three columns, when the budget allows two for each. -/
def squeezed (maxWidth : ℤ) (ws : List ℤ) : List Bool :=
  picks (leastWide ws - 3) (ws.countP (3 ≤ ·)) ((ws.map (min · 3)).sum - maxWidth) ws

theorem length_squeezed (maxWidth : ℤ) (ws : List ℤ) : (squeezed maxWidth ws).length = ws.length :=
  length_picks ..

theorem leastWide_eq {w : ℤ} (hw : w ∈ ws) (hle : 3 ≤ w) (hleast : ∀ v ∈ ws, 3 ≤ v → w ≤ v) :
    leastWide ws = w := by
  have hmin : (ws.filter (3 ≤ ·)).min? = some w := by
    refine List.min?_eq_some_iff.2 ⟨List.mem_filter.2 ⟨hw, decide_eq_true hle⟩, fun v hv => ?_⟩
    obtain ⟨hv, h3⟩ := List.mem_filter.1 hv
    exact hleast v hv (of_decide_eq_true h3)
  rw [leastWide, hmin, Option.getD_some]

theorem sum_map_min_two (hws : ∀ w ∈ ws, 2 ≤ w) : (ws.map (min · 2)).sum = 2 * ws.length := by
  rw [List.map_congr_left fun w hw => min_eq_right (hws w hw), List.map_const', List.sum_replicate,
    nsmul_eq_mul, mul_comm]

theorem exists_wide (hws : ∀ w ∈ ws, 2 ≤ w) (hroom : 2 * ws.length < (ws.map (min · 3)).sum) :
    ∃ w ∈ ws, 3 ≤ w := by
  by_contra! hall
  rw [← sum_map_min_two hws] at hroom
  refine lt_irrefl _ (hroom.trans_le (List.sum_le_sum fun w hw => ?_))
  have := hall w hw
  omega

theorem sum_map_min_le {t : ℤ} (h : s ≤ t) : (ws.map (min · s)).sum ≤ (ws.map (min · t)).sum :=
  List.sum_le_sum fun w _ => min_le_min_left w h

theorem sum_map_min_map_min {t : ℤ} (h : t ≤ s) :
    ((ws.map (min · s)).map (min · t)).sum = (ws.map (min · t)).sum := by
  rw [List.map_map]
  refine congrArg List.sum (List.map_congr_left fun w _ => ?_)
  rw [Function.comp_apply, min_assoc, min_eq_right h]

theorem leastWide_map_min (hs : 3 ≤ s) (hmem : s ∈ ws) :
    leastWide (ws.map (min · s)) = leastWide ws := by
  have hne : ws.filter (3 ≤ ·) ≠ [] :=
    List.ne_nil_of_mem (List.mem_filter.2 ⟨hmem, decide_eq_true hs⟩)
  obtain ⟨w, hw⟩ := Option.isSome_iff_exists.1 (List.isSome_min?_iff.2 hne)
  obtain ⟨hin, hleast⟩ := List.min?_eq_some_iff.1 hw
  simp only [List.mem_filter, decide_eq_true_eq, and_imp] at hin hleast
  rw [leastWide_eq hin.1 hin.2 hleast]
  refine leastWide_eq (List.mem_map.2 ⟨w, hin.1, min_eq_left (hleast s hmem hs)⟩) hin.2 ?_
  exact List.forall_mem_map.2 fun v hv h3 => by
    have := hleast v hv (h3.trans (min_le_left v s))
    have := hleast s hmem hs
    omega

/-- Lowering the widths to a level of three or more squeezes the same columns. -/
theorem zipWith_squeezed_map_min (hs : 3 ≤ s) (hmem : s ∈ ws) :
    List.zipWith squeezedWidth (ws.map (min · s)) (squeezed maxWidth (ws.map (min · s))) =
      List.zipWith squeezedWidth ws (squeezed maxWidth ws) := by
  have hcount : (ws.map (min · s)).countP (3 ≤ ·) = ws.countP (3 ≤ ·) := by
    rw [List.countP_map]
    exact List.countP_congr fun w _ => by simp [hs]
  rw [squeezed, squeezed, hcount, leastWide_map_min hs hmem, sum_map_min_map_min hs,
    zipWith_picks_map_min hs]

namespace Collapses

/-- **Shares of a budget of two to three columns each.** -/
theorem eq_squeezed {widths : List ℤ} (h : Collapses maxWidth ws widths) (hws : ∀ w ∈ ws, 2 ≤ w)
    (htwo : 2 * ws.length ≤ maxWidth) (hthree : maxWidth < (ws.map (min · 3)).sum) :
    widths = List.zipWith squeezedWidth ws (squeezed maxWidth ws) := by
  induction h with
  | @stop ws hsum =>
    have hle : (ws.map (min · 3)).sum ≤ (ws.map id).sum :=
      List.sum_le_sum fun w _ => min_le_left w 3
    rw [List.map_id] at hle
    omega
  | @level ws widths p s htop hlevel _ ih =>
    have hs : 3 ≤ s := by
      by_contra! hlt
      have hle : (ws.map (min · s)).sum ≤ (ws.map (min · 2)).sum :=
        sum_map_min_le (Int.lt_add_one_iff.1 hlt)
      have := sum_map_min_two hws
      omega
    have hmem : s ∈ ws := htop.next_mem.resolve_left (by omega)
    rw [ih (List.forall_mem_map.2 fun w hw => le_min (hws w hw) (by omega))
      (by rwa [List.length_map]) (by rwa [sum_map_min_map_min hs]),
        zipWith_squeezed_map_min hs hmem]
  | @share ws p s htop hbelow habove =>
    have hs : s ≤ 2 := by
      by_contra! hlt
      exact absurd ((sum_map_min_le hlt).trans hbelow) (not_le.2 hthree)
    have honly : ∀ w ∈ ws, 3 ≤ w → w = p := fun w hw h3 => by
      by_contra hne
      have := htop.le_next w hw hne
      omega
    obtain ⟨w, hw, h3⟩ := exists_wide hws (by omega)
    have hp : 3 ≤ p := honly w hw h3 ▸ h3
    have hcount : ws.countP (3 ≤ ·) = ws.count p := by
      refine List.countP_congr fun w hw => ?_
      simp only [decide_eq_true_eq, beq_iff_eq]
      exact ⟨honly w hw, fun heq => heq ▸ hp⟩
    have hleast : leastWide ws = p :=
      leastWide_eq htop.top_mem hp fun v hv h3 => (honly v hv h3).ge
    have hsum2 := sum_map_min hs (by omega : 2 ≤ p) htop.le_next
    have hsum3 := sum_map_min (by omega : s ≤ 3) hp htop.le_next
    rw [sum_map_min_two hws] at hsum2
    have hsplit : (p - 2) * (ws.count p : ℤ) = (p - 3) * ws.count p + ws.count p := by ring
    have hexcess : ws.sum - maxWidth =
        (p - 3) * (ws.count p : ℤ) + ((ws.map (min · 3)).sum - maxWidth) := by omega
    have hcap := htop.excess_le hbelow habove
    rw [squeezed, hleast, hcount]
    generalize min (ws.sum - maxWidth) (p - s) = cap at hcap ⊢
    rw [hexcess] at hcap ⊢
    exact reduceLoop_eq_picks hp honly (by omega) (by omega) hcap

end Collapses

/-! ### The widths of a table -/

/-- The natural widths of the columns. -/
def naturalWidths (table : Table) : List ℤ := table.columns.mapIdx (naturalWidth table)

@[simp] theorem length_naturalWidths (table : Table) :
    (naturalWidths table).length = table.columns.length :=
  List.length_mapIdx

/-- What is left for the columns beside the borders. -/
def budget (table : Table) (availableWidth : ℤ) : ℤ := availableWidth - extraWidth table

theorem extraWidth_eq (table : Table) : extraWidth table = table.columns.length + 1 := by
  rw [extraWidth]
  ring

theorem naturalWidth_spec (table : Table) (c : ℕ) (column : Column) :
    kCellPadding ≤ naturalWidth table c column ∧
      (table.showHeader → longestLine column.header + kCellPadding ≤ naturalWidth table c column) ∧
      ∀ row ∈ table.rows,
        longestLine (cellPlain (row.getD c {})) + kCellPadding ≤ naturalWidth table c column := by
  have hfold := foldl_max_spec (table.rows.map fun row => longestLine (cellPlain (row.getD c {})))
    (if table.showHeader then max 0 (longestLine column.header) else 0)
  rw [List.foldl_map, List.forall_mem_map] at hfold
  obtain ⟨hle, hrows, -⟩ := hfold
  simp only [naturalWidth]
  refine ⟨?_, fun hshow => ?_, fun row hrow => Int.add_le_add_right (hrows row hrow) _⟩
  · have hzero : 0 ≤ if table.showHeader then max 0 (longestLine column.header) else 0 := by
      split_ifs
      exacts [le_max_left 0 _, le_rfl]
    omega
  · simp only [hshow, if_true] at hle ⊢
    omega

theorem two_le_naturalWidths {table : Table} : ∀ w ∈ naturalWidths table, 2 ≤ w := by
  intro w hw
  obtain ⟨c, hc, rfl⟩ := List.mem_mapIdx.1 hw
  exact (naturalWidth_spec table c _).1

theorem naturalWidths_nonneg {table : Table} : ∀ w ∈ naturalWidths table, 0 ≤ w := fun w hw =>
  zero_le_two.trans (two_le_naturalWidths w hw)

/-- What `compute_column_widths` makes of the natural widths. -/
inductive Outcome (table : Table) (maxWidth : ℤ) : List ℤ → Prop
  | wide {widths : List ℤ} (hfit : (naturalWidths table).sum ≤ maxWidth)
      (hle : List.Forall₂ (· ≤ ·) (naturalWidths table) widths) (hsum : widths.sum ≤ maxWidth) :
      Outcome table maxWidth widths
  | narrow {widths : List ℤ} (hmax : 0 ≤ maxWidth) (hover : maxWidth < (naturalWidths table).sum)
      (hrun : Collapses maxWidth (naturalWidths table) widths) : Outcome table maxWidth widths
  | none (hmax : maxWidth < 0) :
      Outcome table maxWidth (widen table maxWidth (List.replicate table.columns.length 0))

/-- Columns without a width cannot be made narrower. -/
theorem ratioReduce_of_eq_zero (h : ∀ w ∈ ws, w = 0) :
    ratioReduce excess (ws.map fun w => ⟨1, w, w⟩) = ws := by
  have hslots : (ws.map fun w => (⟨1, w, w⟩ : Slot)).map
      (fun slot => if slot.maximum = 0 then { slot with ratio := 0 } else slot) =
        ws.map fun w => ⟨0, w, w⟩ := by
    rw [List.map_map]
    exact List.map_congr_left fun w hw => if_pos (h w hw)
  have hratio : ((ws.map fun w => (⟨0, w, w⟩ : Slot)).map Slot.ratio).sum = 0 := by
    rw [List.map_map]
    exact List.sum_eq_zero (List.forall_mem_map.2 fun w _ => rfl)
  simp only [ratioReduce, hslots, if_pos hratio]
  rw [List.map_map]
  exact List.map_id ws

/-- **`compute_column_widths` returns for every table and width**, and so the loop ends. -/
theorem exists_computeColumnWidths (table : Table) (availableWidth : ℤ) :
    ∃ widths, computeColumnWidths table availableWidth = some widths ∧
      Outcome table (budget table availableWidth) widths := by
  rcases le_or_gt (naturalWidths table).sum (budget table availableWidth) with hfit | hover
  · have heq : computeColumnWidths table availableWidth =
        some (widen table (budget table availableWidth) (naturalWidths table)) := by
      simp only [computeColumnWidths]
      exact if_neg (not_lt.2 hfit)
    obtain ⟨hle, hsum⟩ := widen_spec naturalWidths_nonneg hfit
    exact ⟨_, heq, .wide hfit hle hsum⟩
  · obtain ⟨widths, hcollapse, hrun⟩ := exists_collapses naturalWidths_nonneg
      (Nat.lt_succ_self (naturalWidths table).sum.toNat)
    obtain ⟨hle, hwidths⟩ := hrun.le naturalWidths_nonneg
    have hzero : budget table availableWidth < 0 → ∀ w ∈ widths, w = 0 := fun hmax w hw =>
      List.all_zero_of_le_zero_le_of_sum_eq_zero hwidths
        (le_antisymm (hrun.sum_nonpos naturalWidths_nonneg hmax) (List.sum_nonneg hwidths)) hw
    -- the columns keep the budget, or there is none and nothing is left of them
    have hkept : widths.sum ≤ budget table availableWidth ∨ ∀ w ∈ widths, w = 0 :=
      (le_or_gt 0 _).imp (fun hmax => (hrun.sum_eq hmax hover.le).le) hzero
    have heq : computeColumnWidths table availableWidth =
        some (widen table (budget table availableWidth) widths) := by
      simp only [computeColumnWidths]
      refine (if_pos hover).trans ?_
      change (collapse (budget table availableWidth) ((naturalWidths table).sum.toNat + 1)
        (naturalWidths table)).bind _ = _
      rw [hcollapse, Option.bind_some]
      rcases hkept with hkept | hkept
      · exact if_neg (not_lt.2 hkept)
      · split_ifs
        · rw [ratioReduce_of_eq_zero hkept]
          rfl
        · rfl
    refine ⟨_, heq, ?_⟩
    rcases le_or_gt 0 (budget table availableWidth) with hmax | hmax
    · have hsum := hrun.sum_eq hmax hover.le
      obtain ⟨hwiden, hsum'⟩ := widen_spec hwidths hsum.le
      rw [← eq_of_forall₂_le hwiden (hsum'.trans hsum.ge)]
      exact .narrow hmax hover hrun
    · have hall : widths = List.replicate table.columns.length 0 := by
        rw [← length_naturalWidths, hle.length_eq]
        exact List.eq_replicate_of_mem (hzero hmax)
      rw [hall]
      exact .none hmax

theorem widen_replicate_zero {table : Table} {maxWidth : ℤ} {n : ℕ} (hmax : maxWidth < 0) :
    widen table maxWidth (List.replicate (n + 1) 0) =
      if table.minWidth ≤ extraWidth table then List.replicate (n + 1) 0
      else maxWidth :: List.replicate n 0 := by
  have hextra := extraWidth_eq table
  have hsum : (List.replicate (n + 1) (0 : ℤ)).sum = 0 := by simp
  by_cases hmin : table.minWidth ≤ extraWidth table
  · rw [widen, hsum, if_neg (by omega), if_pos hmin]
  · rw [widen, hsum, if_pos (by omega), if_neg hmin]
    have htarget : min (table.minWidth - extraWidth table) maxWidth = maxWidth := by omega
    simp only [ratioDistribute, hsum, sub_zero, htarget]
    rw [distributeLoop_replicate_zero, List.replicate_succ, List.zipWith_cons_cons, zero_add,
      List.zipWith_replicate', add_zero]

theorem length_widen (table : Table) (maxWidth : ℤ) (ws : List ℤ) :
    (widen table maxWidth ws).length = ws.length := by
  simp only [widen, ratioDistribute]
  split_ifs
  · rw [List.length_zipWith, length_distributeLoop, min_self]
  · rfl

theorem exists_getElem?_of_forall₂ {R : ℤ → ℤ → Prop} {xs ys : List ℤ} (h : List.Forall₂ R xs ys)
    {c : ℕ} {y : ℤ} (hy : ys[c]? = some y) : ∃ x, xs[c]? = some x ∧ R x y := by
  induction h generalizing c with
  | nil => exact absurd hy (by simp)
  | @cons x y' xs ys hR _ ih =>
    cases c with
    | zero => exact ⟨x, rfl, Option.some.inj hy ▸ hR⟩
    | succ c => exact ih hy

namespace Outcome

variable {table : Table} {widths : List ℤ}

theorem length_eq (h : Outcome table maxWidth widths) :
    widths.length = table.columns.length := by
  rw [← length_naturalWidths]
  cases h with
  | wide _ hle _ => exact hle.length_eq.symm
  | narrow _ _ hrun =>
    exact (hrun.le naturalWidths_nonneg).1.length_eq.symm
  | none _ => rw [length_widen, List.length_replicate, length_naturalWidths]

/-- With a budget, no width is negative and the budget is kept. -/
theorem keeps (h : Outcome table maxWidth widths) (hmax : 0 ≤ maxWidth) :
    (∀ w ∈ widths, 0 ≤ w) ∧ widths.sum ≤ maxWidth := by
  cases h with
  | wide _ hle hsum =>
    refine ⟨forall_mem_of_forall₂ (List.Forall₂.imp (fun w r h => ?_)
      ((List.forall₂_and_left _ _).2 ⟨naturalWidths_nonneg, hle⟩)), hsum⟩
    exact h.1.trans h.2
  | narrow _ hover hrun =>
    exact ⟨(hrun.le naturalWidths_nonneg).2,
      (hrun.sum_eq hmax hover.le).le⟩
  | none hneg => exact absurd hneg (not_lt.2 hmax)

theorem eq_widen (h : Outcome table maxWidth widths) (hmax : maxWidth < 0) :
    widths = widen table maxWidth (List.replicate table.columns.length 0) := by
  cases h with
  | wide hfit _ _ =>
    have := List.sum_nonneg (@naturalWidths_nonneg table)
    omega
  | narrow hnonneg _ _ => exact absurd hmax (not_lt.2 hnonneg)
  | none _ => rfl

theorem eq_ite (h : Outcome table maxWidth widths) (hmax : maxWidth < 0)
    (hne : table.columns ≠ []) :
    widths = if table.minWidth ≤ extraWidth table then List.replicate table.columns.length 0
      else maxWidth :: List.replicate (table.columns.length - 1) 0 := by
  obtain ⟨n, hn⟩ := Nat.exists_eq_succ_of_ne_zero (List.length_pos_iff.2 hne).ne'
  rw [h.eq_widen hmax, hn, widen_replicate_zero hmax]
  rfl

theorem nonneg_iff (h : Outcome table maxWidth widths) (hne : table.columns ≠ []) :
    (∀ w ∈ widths, 0 ≤ w) ↔ 0 ≤ maxWidth ∨ table.minWidth ≤ extraWidth table := by
  rcases le_or_gt 0 maxWidth with hmax | hmax
  · exact iff_of_true (h.keeps hmax).1 (.inl hmax)
  · rw [h.eq_ite hmax hne, or_iff_right (not_le.2 hmax)]
    split_ifs with hmin
    · exact iff_of_true (fun w hw => (List.eq_of_mem_replicate hw).ge) hmin
    · exact iff_of_false (fun hall => not_le.2 hmax (hall _ List.mem_cons_self)) hmin

/-- A column of width two or more each needs a budget of two for each. -/
theorem two_mul_le (h : Outcome table maxWidth widths) (hne : table.columns ≠ [])
    (htwo : ∀ w ∈ widths, 2 ≤ w) : 2 * table.columns.length ≤ maxWidth := by
  have hsum := List.card_nsmul_le_sum widths 2 htwo
  rw [h.length_eq, nsmul_eq_mul, mul_comm] at hsum
  rcases le_or_gt 0 maxWidth with hmax | hmax
  · exact hsum.trans (h.keeps hmax).2
  · have hpos : 0 < table.columns.length := List.length_pos_iff.2 hne
    rw [h.eq_ite hmax hne] at hsum
    split_ifs at hsum <;> simp only [List.sum_cons, List.sum_replicate, nsmul_zero] at hsum <;>
      omega

/-- **When every column has room for a character, or needs none.** -/
theorem fits_iff (h : Outcome table maxWidth widths) (hne : table.columns ≠ []) {blank : ℕ → Prop}
    (hblank : ∀ c, (naturalWidths table)[c]? = some 2 → blank c) :
    (∀ c w, widths[c]? = some w → 3 ≤ w ∨ w = 2 ∧ blank c) ↔
      ((naturalWidths table).map (min · 3)).sum ≤ maxWidth ∨
        2 * table.columns.length ≤ maxWidth ∧
          ∀ c, (squeezed maxWidth (naturalWidths table))[c]? = some true → blank c := by
  have hmin : ∀ widths, List.Forall₂ (fun n w => min n 3 ≤ w) (naturalWidths table) widths →
      ∀ c w, widths[c]? = some w → 3 ≤ w ∨ w = 2 ∧ blank c := by
    intro widths hall c w hw
    obtain ⟨n, hn, hle⟩ := exists_getElem?_of_forall₂ hall hw
    have htwo := two_le_naturalWidths n (List.mem_of_getElem? hn)
    by_cases h3 : 3 ≤ w
    · exact .inl h3
    · have hn2 : n = 2 := by omega
      exact .inr ⟨by omega, hblank c (hn2 ▸ hn)⟩
  by_cases hthree : ((naturalWidths table).map (min · 3)).sum ≤ maxWidth
  · refine iff_of_true (hmin widths ?_) (.inl hthree)
    cases h with
    | wide _ hle _ => exact hle.imp fun n w h => (min_le_left n 3).trans h
    | narrow _ _ hrun => exact hrun.min_le hthree
    | none hmax =>
      have := List.sum_nonneg
        (forall_mem_map_min (s := 3) (@naturalWidths_nonneg table) (by omega))
      omega
  rw [or_iff_right hthree]
  by_cases htwo : 2 * (table.columns.length : ℤ) ≤ maxWidth
  · rw [and_iff_right htwo]
    have hrun : Collapses maxWidth (naturalWidths table) widths := by
      cases h with
      | wide hfit _ _ =>
        have := List.sum_le_sum fun w (_ : w ∈ naturalWidths table) => min_le_left w 3
        rw [List.map_id'] at this
        omega
      | narrow _ _ hrun => exact hrun
      | none hmax => omega
    rw [hrun.eq_squeezed two_le_naturalWidths (by rwa [length_naturalWidths]) (not_le.1 hthree)]
    simp only [List.getElem?_zipWith_eq_some]
    constructor
    · intro hall c hc
      have hlen : c < (naturalWidths table).length := by
        rw [← length_squeezed maxWidth]
        exact (List.getElem?_eq_some_iff.1 hc).1
      rcases hall c 2 ⟨_, true, List.getElem?_eq_getElem hlen, hc, rfl⟩ with h3 | ⟨-, hc⟩
      exacts [absurd h3 (by omega), hc]
    · rintro hall c w ⟨n, b, hn, hb, rfl⟩
      have hn2 := two_le_naturalWidths n (List.mem_of_getElem? hn)
      cases b with
      | true => exact .inr ⟨rfl, hall c hb⟩
      | false =>
        rw [squeezedWidth, if_neg Bool.false_ne_true]
        rcases hn2.eq_or_lt with rfl | hlt
        · exact .inr ⟨rfl, hblank c hn⟩
        · exact .inl (le_min hlt le_rfl)
  · refine iff_of_false (fun hall => htwo (h.two_mul_le hne fun w hw => ?_)) fun h => htwo h.1
    obtain ⟨c, hc⟩ := List.mem_iff_getElem?.1 hw
    rcases hall c w hc with h3 | ⟨h2, -⟩ <;> omega

end Outcome

end Papa.Render.Tables
