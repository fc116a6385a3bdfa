import Mathlib.Data.List.TakeDrop
import Mathlib.Data.Nat.Basic

/-!
# Readers of a byte buffer

A reader goes forward through a buffer from a position. It ends with a value and a new position, or
with an error of its own, or for a reason that no reader should end for: it looked at a place that
is not in the buffer, or one of its loops was cut off. A regular reader does neither. It stays in
the buffer, what it returns depends only on the bytes up to the position it ends at, and a buffer
that ends before that position is refused with an error.

## Main definitions

* `ByteReader`, `ByteReader.Outcome`.
* `ByteReader.repeatM`, `ByteReader.loop`: loops with and without a count.
* `ByteReader.Regular`, `ByteReader.Consumes`, `ByteReader.Advances`.

## Main results

* `ByteReader.Regular.bind`, `ByteReader.Regular.repeatM`, `ByteReader.Regular.loop`: regular
  readers are made of regular ones, a loop of one that consumes a byte before each further turn.
-/

/-- What a reader ends with. -/
inductive ByteReader.Outcome (ε α : Type)
  | done (a : α) (pos : ℕ)
  | failed (e : ε)
  /-- A place that is not in the buffer was looked at. -/
  | outside
  /-- A loop was cut off. -/
  | unfinished

/-- A reader: from a buffer and a position in it. -/
def ByteReader (ε α : Type) := List UInt8 → ℕ → ByteReader.Outcome ε α

namespace ByteReader

variable {ε ε' α β σ : Type}

/-- Go on after a value. -/
def Outcome.andThen : Outcome ε α → (α → ℕ → Outcome ε β) → Outcome ε β
  | .done a pos, f => f a pos
  | .failed e, _ => .failed e
  | .outside, _ => .outside
  | .unfinished, _ => .unfinished

theorem Outcome.andThen_eq_done {o : Outcome ε α} {f : α → ℕ → Outcome ε β} {b : β} {pos : ℕ} :
    o.andThen f = .done b pos ↔ ∃ a p, o = .done a p ∧ f a p = .done b pos := by
  cases o with
  | done a p =>
    constructor
    · exact fun h => ⟨a, p, rfl, h⟩
    · rintro ⟨a', p', ho, h⟩
      cases ho
      exact h
  | failed e => exact ⟨nofun, fun ⟨_, _, h, _⟩ => nomatch h⟩
  | outside => exact ⟨nofun, fun ⟨_, _, h, _⟩ => nomatch h⟩
  | unfinished => exact ⟨nofun, fun ⟨_, _, h, _⟩ => nomatch h⟩

instance : Monad (ByteReader ε) where
  pure a := fun _ pos => .done a pos
  bind p f := fun buf pos => (p buf pos).andThen fun a pos => f a buf pos

theorem bind_apply (p : ByteReader ε α) (f : α → ByteReader ε β) (buf : List UInt8) (pos : ℕ) :
    (p >>= f) buf pos = (p buf pos).andThen fun a pos => f a buf pos := rfl

theorem bind_eq_done {p : ByteReader ε α} {f : α → ByteReader ε β} {buf : List UInt8} {pos q : ℕ}
    {b : β} : (p >>= f) buf pos = .done b q ↔
      ∃ a r, p buf pos = .done a r ∧ f a buf r = .done b q :=
  Outcome.andThen_eq_done

/-- The reader that refuses. -/
def fail (e : ε) : ByteReader ε α := fun _ _ => .failed e

/-- Another error in the place of the one a reader fails with. -/
def failWith (e : ε') (p : ByteReader ε α) : ByteReader ε' α := fun buf pos =>
  match p buf pos with
  | .done a pos => .done a pos
  | .failed _ => .failed e
  | .outside => .outside
  | .unfinished => .unfinished

/-- Do `body` a number of times. -/
def repeatM (body : σ → ByteReader ε σ) : ℕ → σ → ByteReader ε σ
  | 0, s => pure s
  | count + 1, s => do repeatM body count (← body s)

/-- Do `body` until it ends the loop, at most `turns` times. -/
def iterate (body : σ → ByteReader ε (σ ⊕ α)) : (turns : ℕ) → σ → ByteReader ε α
  | 0, _ => fun _ _ => .unfinished
  | turns + 1, s => do
    match ← body s with
    | .inl s => iterate body turns s
    | .inr a => pure a

/-- Do `body` until it ends the loop, no more often than once a byte that is left and once more. -/
def loop (body : σ → ByteReader ε (σ ⊕ α)) (s : σ) : ByteReader ε α := fun buf pos =>
  iterate body (buf.length - pos + 1) s buf pos

/-! ### Regular readers -/

/-- An outcome in a buffer: a position between the one a reader began at and the end, or an
error. -/
def Outcome.Within (o : Outcome ε α) (pos length : ℕ) : Prop :=
  (∃ e, o = .failed e) ∨ ∃ a p, o = .done a p ∧ pos ≤ p ∧ p ≤ length

/-- Readers that stay in the buffer, and whose value depends on the bytes they consumed. -/
structure Regular (p : ByteReader ε α) : Prop where
  within : ∀ {buf : List UInt8} {pos : ℕ}, pos ≤ buf.length → (p buf pos).Within pos buf.length
  extend : ∀ {buf : List UInt8} {pos q : ℕ} {a : α}, pos ≤ buf.length → p buf pos = .done a q →
    ∀ rest, p (buf.take q ++ rest) pos = .done a q
  truncate : ∀ {buf : List UInt8} {pos q n : ℕ} {a : α}, pos ≤ buf.length → p buf pos = .done a q →
    pos ≤ n → n < q → ∃ e, p (buf.take n) pos = .failed e

/-- Loops that consume a byte in each turn they go on after. -/
def Advances (body : σ → ByteReader ε (σ ⊕ α)) : Prop :=
  ∀ ⦃s s' : σ⦄ ⦃buf : List UInt8⦄ ⦃pos q : ℕ⦄, pos ≤ buf.length →
    body s buf pos = .done (.inl s') q → pos < q

/-- Readers that consume a byte. -/
def Consumes (p : ByteReader ε α) : Prop :=
  ∀ ⦃buf : List UInt8⦄ ⦃pos q : ℕ⦄ ⦃a : α⦄, pos ≤ buf.length → p buf pos = .done a q → pos < q

section Regular

variable {p : ByteReader ε α} {f : α → ByteReader ε β} {buf : List UInt8} {pos q : ℕ} {a : α}

theorem Regular.le_length (h : Regular p) (hpos : pos ≤ buf.length) (hp : p buf pos = .done a q) :
    pos ≤ q ∧ q ≤ buf.length := by
  rcases h.within hpos with ⟨e, he⟩ | ⟨a', q', hq, hle⟩
  · exact nomatch hp.symm.trans he
  · cases hp.symm.trans hq
    exact hle

/-- The buffer up to a later position. -/
theorem take_eq_append_drop {r : ℕ} (hr : q ≤ r) (rest : List UInt8) :
    buf.take r ++ rest = buf.take q ++ ((buf.take r).drop q ++ rest) := by
  rw [← List.append_assoc]
  congr 1
  have htake : buf.take q = (buf.take r).take q := by rw [List.take_take, Nat.min_eq_left hr]
  rw [htake, List.take_append_drop]

/-- A regular reader on a buffer cut off after the position it ends at. -/
theorem Regular.done_take (h : Regular p) (hpos : pos ≤ buf.length) (hp : p buf pos = .done a q)
    {r : ℕ} (hr : q ≤ r) (rest : List UInt8) : p (buf.take r ++ rest) pos = .done a q := by
  rw [take_eq_append_drop hr]
  exact h.extend hpos hp _

theorem Regular.pure (a : α) : Regular (pure a : ByteReader ε α) := by
  refine ⟨fun hpos => Or.inr ⟨a, _, rfl, le_rfl, hpos⟩, fun _ hp rest => ?_, fun _ hp hn hlt => ?_⟩
  · cases hp
    rfl
  · cases hp
    omega

theorem Regular.fail (e : ε) : Regular (fail e : ByteReader ε α) :=
  ⟨fun _ => Or.inl ⟨e, rfl⟩, fun _ hp => (nomatch hp), fun _ hp => (nomatch hp)⟩

theorem Regular.failWith (h : Regular p) (e : ε') : Regular (failWith e p) := by
  have hdone {buf : List UInt8} {pos q : ℕ} {a : α} :
      ByteReader.failWith e p buf pos = .done a q ↔ p buf pos = .done a q := by
    unfold ByteReader.failWith
    cases p buf pos <;> simp
  have hfailed {buf : List UInt8} {pos : ℕ} {e' : ε} (hp : p buf pos = .failed e') :
      ByteReader.failWith e p buf pos = .failed e := by
    unfold ByteReader.failWith
    rw [hp]
  refine ⟨fun hpos => ?_, fun hpos hp rest => ?_, fun hpos hp hn hlt => ?_⟩
  · rcases h.within hpos with ⟨e', he⟩ | ⟨a, q, hq, hle⟩
    · exact Or.inl ⟨e, hfailed he⟩
    · exact Or.inr ⟨a, q, hdone.mpr hq, hle⟩
  · exact hdone.mpr (h.extend hpos (hdone.mp hp) rest)
  · obtain ⟨e', he⟩ := h.truncate hpos (hdone.mp hp) hn hlt
    exact ⟨e, hfailed he⟩

theorem Regular.bind (hp : Regular p) (hf : ∀ a, Regular (f a)) : Regular (p >>= f) := by
  refine ⟨fun {buf pos} hpos => ?_, fun {buf pos q b} hpos hdone rest => ?_,
    fun {buf pos q n b} hpos hdone hn hlt => ?_⟩
  · rw [bind_apply]
    rcases hp.within hpos with ⟨e, he⟩ | ⟨a, r, hr, hle⟩
    · exact Or.inl ⟨e, by rw [he]; rfl⟩
    · rw [hr]
      rcases (hf a).within hle.2 with ⟨e, he⟩ | ⟨b, s, hs, hle'⟩
      · exact Or.inl ⟨e, he⟩
      · exact Or.inr ⟨b, s, hs, Nat.le_trans hle.1 hle'.1, hle'.2⟩
  · obtain ⟨a, r, hr, hq⟩ := bind_eq_done.mp hdone
    have hle := hp.le_length hpos hr
    have hle' := (hf a).le_length hle.2 hq
    rw [bind_apply, hp.done_take hpos hr hle'.1]
    exact (hf a).extend hle.2 hq rest
  · obtain ⟨a, r, hr, hq⟩ := bind_eq_done.mp hdone
    have hle := hp.le_length hpos hr
    rcases Nat.lt_or_ge n r with hnr | hrn
    · obtain ⟨e, he⟩ := hp.truncate hpos hr hn hnr
      exact ⟨e, by rw [bind_apply, he]; rfl⟩
    · have hcut := hp.done_take hpos hr hrn []
      rw [List.append_nil] at hcut
      obtain ⟨e, he⟩ := (hf a).truncate hle.2 hq hrn hlt
      exact ⟨e, by rw [bind_apply, hcut]; exact he⟩

theorem Regular.ite {c : Prop} [Decidable c] {p q : ByteReader ε α} (hp : c → Regular p)
    (hq : ¬c → Regular q) : Regular (if c then p else q) := by
  split_ifs with hc
  · exact hp hc
  · exact hq hc

theorem Consumes.failWith (h : Consumes p) (e : ε') : Consumes (failWith e p) := by
  intro buf pos q a hpos hp
  refine @h buf pos q a hpos ?_
  unfold ByteReader.failWith at hp
  cases hq : p buf pos with
  | done a' q' =>
    rw [hq] at hp
    cases hp
    rfl
  | failed e' =>
    rw [hq] at hp
    exact nomatch hp
  | outside =>
    rw [hq] at hp
    exact nomatch hp
  | unfinished =>
    rw [hq] at hp
    exact nomatch hp

theorem Consumes.bind (h : Consumes p) (hp : Regular p) (hf : ∀ a, Regular (f a)) :
    Consumes (p >>= f) := by
  intro buf pos q b hpos hdone
  obtain ⟨a, r, hr, hq⟩ := bind_eq_done.mp hdone
  exact Nat.lt_of_lt_of_le (h hpos hr) ((hf a).le_length (hp.le_length hpos hr).2 hq).1

/-- A reader that begins with one that consumes a byte. -/
theorem Regular.bind_of_consumes (hp : Regular p) (hc : Consumes p) (hf : ∀ a, Regular (f a)) :
    Regular (p >>= f) ∧ Consumes (p >>= f) := ⟨hp.bind hf, hc.bind hp hf⟩

/-! ### Loops -/

theorem Regular.repeatM {body : σ → ByteReader ε σ} (h : ∀ s, Regular (body s)) (count : ℕ)
    (s : σ) : Regular (repeatM body count s) := by
  induction count generalizing s with
  | zero => exact Regular.pure s
  | succ count ih => exact (h s).bind ih

theorem Consumes.advances {body : σ → ByteReader ε (σ ⊕ α)} (h : ∀ s, Consumes (body s)) :
    Advances body := fun s _ _ _ _ hpos hdone => h s hpos hdone

/-- What holds of every value that a loop with a count ends with. -/
theorem repeatM_induct {body : σ → ByteReader ε σ} {P : σ → Prop}
    (h : ∀ {s s' : σ} {buf : List UInt8} {pos q : ℕ}, P s → body s buf pos = .done s' q → P s')
    {count : ℕ} {s s' : σ} (hs : P s) (hdone : repeatM body count s buf pos = .done s' q) :
    P s' := by
  induction count generalizing s pos with
  | zero =>
    cases hdone
    exact hs
  | succ count ih =>
    obtain ⟨u, r, hu, hrest⟩ := bind_eq_done.mp hdone
    exact ih (h hs hu) hrest

variable {body : σ → ByteReader ε (σ ⊕ α)}

/-- One turn of a loop. -/
theorem iterate_succ (turns : ℕ) (s : σ) (buf : List UInt8) (pos : ℕ) :
    iterate body (turns + 1) s buf pos = (body s buf pos).andThen fun r pos =>
      match r with
      | .inl s => iterate body turns s buf pos
      | .inr a => .done a pos := by
  show (body s buf pos).andThen _ = _
  congr 1
  funext r pos
  cases r <;> rfl

theorem within_iterate (h : ∀ s, Regular (body s)) (hc : Advances body) {turns : ℕ} {s : σ}
    (hpos : pos ≤ buf.length) (hturns : buf.length - pos < turns) :
    (iterate body turns s buf pos).Within pos buf.length := by
  induction turns generalizing s pos with
  | zero => omega
  | succ turns ih =>
    rw [iterate_succ]
    rcases (h s).within hpos with ⟨e, he⟩ | ⟨r, q, hq, hle⟩
    · exact Or.inl ⟨e, by rw [he]; rfl⟩
    · rw [hq]
      match r with
      | .inr a => exact Or.inr ⟨a, q, rfl, hle⟩
      | .inl s' =>
        have hlt := hc hpos hq
        rcases ih (s := s') hle.2 (by omega) with ⟨e, he⟩ | ⟨a, q', hq', hle'⟩
        · exact Or.inl ⟨e, he⟩
        · exact Or.inr ⟨a, q', hq', Nat.le_trans hle.1 hle'.1, hle'.2⟩

theorem iterate_done (h : ∀ s, Regular (body s)) (hc : Advances body) {turns : ℕ} {s : σ}
    (hpos : pos ≤ buf.length) (hdone : iterate body turns s buf pos = .done a q) :
    pos ≤ q ∧ ∀ rest turns', (buf.take q ++ rest).length - pos < turns' →
      iterate body turns' s (buf.take q ++ rest) pos = .done a q := by
  induction turns generalizing s pos with
  | zero => exact nomatch hdone
  | succ turns ih =>
    rw [iterate_succ] at hdone
    obtain ⟨r, q', hq', hrest⟩ := Outcome.andThen_eq_done.mp hdone
    have hle := (h s).le_length hpos hq'
    match r with
    | .inr a' =>
      cases hrest
      refine ⟨hle.1, fun rest turns' hturns' => ?_⟩
      obtain ⟨t, rfl⟩ := Nat.exists_eq_add_of_lt hturns'
      rw [iterate_succ, (h s).extend hpos hq' rest]
      rfl
    | .inl s' =>
      have hlt := hc hpos hq'
      obtain ⟨hqq, hall⟩ := ih hle.2 hrest
      refine ⟨Nat.le_trans hle.1 hqq, fun rest turns' hturns' => ?_⟩
      obtain ⟨t, rfl⟩ := Nat.exists_eq_add_of_lt hturns'
      rw [iterate_succ, (h s).done_take hpos hq' hqq]
      have hlen : q' ≤ (buf.take q ++ rest).length := by
        rw [List.length_append, List.length_take]
        omega
      exact hall rest _ (by omega)

theorem iterate_truncate (h : ∀ s, Regular (body s)) (hc : Advances body) {turns n : ℕ} {s : σ}
    (hpos : pos ≤ buf.length) (hdone : iterate body turns s buf pos = .done a q)
    (hn : pos ≤ n) (hlt : n < q) (turns' : ℕ) (hturns' : (buf.take n).length - pos < turns') :
    ∃ e, iterate body turns' s (buf.take n) pos = .failed e := by
  induction turns generalizing s pos turns' with
  | zero => exact nomatch hdone
  | succ turns ih =>
    obtain ⟨t, rfl⟩ := Nat.exists_eq_add_of_lt hturns'
    rw [iterate_succ] at hdone
    obtain ⟨r, q', hq', hrest⟩ := Outcome.andThen_eq_done.mp hdone
    have hle := (h s).le_length hpos hq'
    rcases Nat.lt_or_ge n q' with hnq | hqn
    · obtain ⟨e, he⟩ := (h s).truncate hpos hq' hn hnq
      exact ⟨e, by rw [iterate_succ, he]; rfl⟩
    · have hcut := (h s).done_take hpos hq' hqn []
      rw [List.append_nil] at hcut
      match r with
      | .inr a' =>
        cases hrest
        omega
      | .inl s' =>
        have hconsumed := hc hpos hq'
        have hlen : (buf.take n).length - q' < (buf.take n).length - pos + t := by
          rw [List.length_take] at *
          omega
        obtain ⟨e, he⟩ := ih hle.2 hrest hqn _ hlen
        exact ⟨e, by rw [iterate_succ, hcut]; exact he⟩

theorem Regular.loop (h : ∀ s, Regular (body s)) (hc : Advances body) (s : σ) :
    Regular (loop body s) := by
  refine ⟨fun hpos => within_iterate h hc hpos (Nat.lt_succ_self _), fun hpos hdone rest => ?_,
    fun hpos hdone hn hlt => ?_⟩
  · exact (iterate_done h hc hpos hdone).2 rest _ (Nat.lt_succ_self _)
  · exact iterate_truncate h hc hpos hdone hn hlt _ (Nat.lt_succ_self _)

theorem Consumes.loop (h : ∀ s, Regular (body s)) (hc : ∀ s, Consumes (body s)) (s : σ) :
    Consumes (loop body s) := by
  intro buf pos q a hpos hdone
  rw [ByteReader.loop, iterate_succ] at hdone
  obtain ⟨r, q', hq', hrest⟩ := Outcome.andThen_eq_done.mp hdone
  have hlt := hc s hpos hq'
  match r with
  | .inr a' =>
    cases hrest
    exact hlt
  | .inl s' =>
    exact Nat.lt_of_lt_of_le hlt
      (iterate_done h (Consumes.advances hc) ((h s).le_length hpos hq').2 hrest).1

end Regular

end ByteReader
