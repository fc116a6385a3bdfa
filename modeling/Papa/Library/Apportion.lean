import Mathlib.Algebra.Order.Ring.Int
import Mathlib.Tactic.Linarith
import Mathlib.Tactic.Ring

/-!
# Dividing a total one share after the other

A total is divided among places with weights. Each place gets its part of what is left, the quotient
rounded down or up, and the last one gets the rest. So the shares add up to the total, whichever way
each quotient is rounded, and no share is further than one from the exact part.

## Main definitions

* `Apportion.IsRounding`: a function that rounds quotients down or up.

## Main results

* `Apportion.IsRounding.nonneg`, `Apportion.IsRounding.le_left`: a share is between nothing and all.
* `Apportion.IsRounding.rest_le`: what is left keeps a bound on the share of each place.
-/

namespace Apportion

/-- A function that rounds a quotient down or up, for a dividend that is not negative. -/
structure IsRounding (rd : ℤ → ℤ → ℤ) : Prop where
  le_of_le_mul : ∀ {num den c : ℤ}, 0 ≤ num → 0 < den → num ≤ c * den → rd num den ≤ c
  le_of_mul_le : ∀ {num den c : ℤ}, 0 ≤ num → 0 < den → c * den ≤ num → c ≤ rd num den

namespace IsRounding

variable {rd : ℤ → ℤ → ℤ} {w W left c : ℤ}

theorem nonneg (h : IsRounding rd) (hw : 0 ≤ w) (hW : 0 < W) (hleft : 0 ≤ left) :
    0 ≤ rd (w * left) W :=
  h.le_of_mul_le (mul_nonneg hw hleft) hW (by rw [zero_mul]; exact mul_nonneg hw hleft)

/-- A place gets no more than what is left. -/
theorem le_left (h : IsRounding rd) (hw : 0 ≤ w) (hwW : w ≤ W) (hW : 0 < W) (hleft : 0 ≤ left) :
    rd (w * left) W ≤ left := by
  refine h.le_of_le_mul (mul_nonneg hw hleft) hW ?_
  rw [mul_comm left]
  exact mul_le_mul_of_nonneg_right hwW hleft

/-- The last place gets what is left. -/
theorem eq_left (h : IsRounding rd) (hW : 0 < W) (hleft : 0 ≤ left) : rd (W * left) W = left := by
  refine le_antisymm (h.le_left hW.le le_rfl hW hleft) (h.le_of_mul_le ?_ hW (mul_comm left W).le)
  exact mul_nonneg hW.le hleft

/-- Whole numbers are not rounded. -/
theorem eq_of_eq_mul (h : IsRounding rd) (hW : 0 < W) (hc : 0 ≤ c) : rd (c * W) W = c :=
  le_antisymm (h.le_of_le_mul (mul_nonneg hc hW.le) hW le_rfl)
    (h.le_of_mul_le (mul_nonneg hc hW.le) hW le_rfl)

/-- If the places can take what is left with so much each, those after the first one can take what
the first one leaves. -/
theorem rest_le (h : IsRounding rd) (hW : 0 < W) (hleft : 0 ≤ left) (hc : left ≤ c * W) :
    left - rd left W ≤ c * (W - 1) := by
  have hdiv := Int.emod_add_mul_ediv left W
  have hmod := Int.emod_nonneg left hW.ne'
  have hlt := Int.emod_lt_of_pos left hW
  have hfloor : left / W ≤ rd left W := by
    refine h.le_of_mul_le hleft hW ?_
    rw [mul_comm]
    omega
  rcases lt_or_ge (left / W) c with hbelow | hall
  · have hmul : (left / W) * (W - 1) ≤ (c - 1) * (W - 1) :=
      mul_le_mul_of_nonneg_right (by omega) (by omega)
    have hsplit : W * (left / W) = (left / W) * (W - 1) + left / W := by ring
    have hsplit' : c * (W - 1) = (c - 1) * (W - 1) + (W - 1) := by ring
    omega
  · -- the quotient is whole
    have hmul : c * W ≤ (left / W) * W := mul_le_mul_of_nonneg_right hall hW.le
    have hsplit : W * (left / W) = (left / W) * W := mul_comm ..
    have hsplit' : c * (W - 1) = c * W - c := by ring
    omega

end IsRounding

end Apportion
