import Mathlib.Data.List.Basic

/-!
# Computations that are cut by a fuel

A computation that may run forever is a function of a fuel, with no result where the fuel does not
suffice. It returns when all fuels from some number on give one and the same result.

## Main definitions

* `Fuelled.Returns`: a computation returns, with a result that meets a condition.
* `Fuelled.loop`: a loop that its body leaves.

## Main results

* `Fuelled.Returns.bind`, `Fuelled.Returns.foldlM`: sequences.
* `Fuelled.Returns.loop`: a loop returns if its body does and descends.
-/

namespace Fuelled

variable {α β σ : Type*}

/-- A computation returns with a result that meets the condition. -/
def Returns (g : ℕ → Option α) (Q : α → Prop) : Prop :=
  ∃ a, Q a ∧ ∃ fuel₀, ∀ fuel ≥ fuel₀, g fuel = some a

/-- Repeat a body until it leaves the loop with a result. -/
def loop (body : ℕ → σ → Option (σ ⊕ α)) : (fuel : ℕ) → σ → Option α
  | 0, _ => none
  | fuel + 1, s => (body fuel s).bind (Sum.elim (loop body fuel) some)

namespace Returns

variable {g g' : ℕ → Option α} {P Q : α → Prop}

theorem pure {a : α} (h : Q a) : Returns (fun _ => some a) Q := ⟨a, h, 0, fun _ _ => rfl⟩

theorem mono (h : Returns g P) (himp : ∀ a, P a → Q a) : Returns g Q := by
  obtain ⟨a, ha, hfuel⟩ := h
  exact ⟨a, himp a ha, hfuel⟩

theorem congr (h : Returns g Q) (heq : ∀ fuel, g' fuel = g fuel) : Returns g' Q := by
  obtain ⟨a, ha, fuel₀, hfuel⟩ := h
  exact ⟨a, ha, fuel₀, fun fuel hge => (heq fuel).trans (hfuel fuel hge)⟩

/-- A turn of a loop takes one fuel. -/
theorem succ (h : Returns g Q) (heq : ∀ fuel, g' (fuel + 1) = g fuel) : Returns g' Q := by
  obtain ⟨a, ha, fuel₀, hfuel⟩ := h
  refine ⟨a, ha, fuel₀ + 1, fun fuel hge => ?_⟩
  obtain ⟨n, rfl⟩ := Nat.exists_eq_add_of_le' (Nat.le_trans (Nat.le_add_left 1 fuel₀) hge)
  exact (heq n).trans (hfuel n (Nat.le_of_succ_le_succ hge))

/-- One computation after the other. -/
theorem bind {R : β → Prop} {k : α → ℕ → Option β} (h : Returns g Q)
    (hk : ∀ a, Q a → Returns (k a) R) :
    Returns (fun fuel => (g fuel).bind fun a => k a fuel) R := by
  obtain ⟨a, ha, fuel₁, hg⟩ := h
  obtain ⟨b, hb, fuel₂, hk⟩ := hk a ha
  refine ⟨b, hb, max fuel₁ fuel₂, fun fuel hge => ?_⟩
  show (g fuel).bind _ = _
  rw [hg fuel (Nat.le_trans (Nat.le_max_left _ _) hge)]
  exact hk fuel (Nat.le_trans (Nat.le_max_right _ _) hge)

/-- A result that is known is the one that is returned. -/
theorem of_eq {fuel : ℕ} {a : α} (h : Returns g Q)
    (hmono : ∀ fuel' ≥ fuel, g fuel' = some a) : Q a := by
  obtain ⟨b, hb, fuel₀, hfuel⟩ := h
  have heq := (hfuel (max fuel fuel₀) (Nat.le_max_right _ _)).symm.trans
    (hmono (max fuel fuel₀) (Nat.le_max_left _ _))
  exact Option.some.inj heq ▸ hb

/-- **A sequence of steps**: what holds of the elements before one, and of the state there, holds
with this element after its step. -/
theorem foldlM {I : List β → σ → Prop} (step : ℕ → σ → β → Option σ) {l : List β}
    (hstep : ∀ pre b s, b ∈ l → I pre s → Returns (fun fuel => step fuel s b) (I (pre ++ [b])))
    {s : σ} (hs : I [] s) : Returns (fun fuel => l.foldlM (step fuel) s) (I l) := by
  suffices hrest : ∀ pre rest s, pre ++ rest = l → I pre s →
      Returns (fun fuel => rest.foldlM (step fuel) s) (I l) from hrest [] l s rfl hs
  intro pre rest
  induction rest generalizing pre with
  | nil => exact fun s heq hs => .pure (heq ▸ (List.append_nil pre).symm ▸ hs)
  | cons b rest ih =>
    intro s heq hs
    have hmem : b ∈ l := heq ▸ List.mem_append_right pre List.mem_cons_self
    refine (hstep pre b s hmem hs).bind fun t ht => ih (pre ++ [b]) t ?_ ht
    rw [List.append_assoc, List.singleton_append, heq]

/-- **A loop** returns if each turn returns and leaves the loop or descends. -/
theorem loop {I : σ → Prop} (m : σ → ℕ) {body : ℕ → σ → Option (σ ⊕ α)}
    (hbody : ∀ s, I s → Returns (fun fuel => body fuel s)
      (Sum.elim (fun s' => I s' ∧ m s' < m s) Q)) {s : σ} (hs : I s) :
    Returns (fun fuel => Fuelled.loop body fuel s) Q := by
  induction hm : m s using Nat.strongRecOn generalizing s with
  | ind n ih =>
    have hturn : Returns (fun fuel =>
        (body fuel s).bind (Sum.elim (Fuelled.loop body fuel) some)) Q := by
      refine (hbody s hs).bind fun r hr => ?_
      cases r with
      | inl s' => exact ih (m s') (hm ▸ hr.2) hr.1 rfl
      | inr a => exact .pure hr
    exact hturn.succ fun fuel => rfl

end Returns

end Fuelled
