import Papa.Util.Text

/-!
# Errors and exceptions

Functions that return `Expected` produce a `PapaError`; functions that may throw produce an
exception in flight, of which only the text is kept.

## Main definitions

* `Papa.ErrorKind`, `Papa.PapaError`, `Papa.Expected`.
* `Papa.Thrown`, `Papa.Throws`.
-/

namespace Papa

/-- The kinds of recoverable errors. -/
inductive ErrorKind
  | ok | ioError | notPe | badPe | outOfBounds | disassemblyFailed | invalidRule | cycle
  | yamlParseError | flirtBadCompressedStream | flirtBadMagic | flirtUnsupportedVersion
  | flirtTruncated | flirtBadNode | flirtTooDeep
  deriving DecidableEq

/-- A recoverable error. -/
structure PapaError where
  kind : ErrorKind := .ok
  detail : Str := []
  deriving DecidableEq

/-- A value or a recoverable error. -/
abbrev Expected (α : Type) := Except PapaError α

/-- A computation that returned has a value. -/
theorem Expected.exists_ok {α : Type} {x : Expected α} (h : x.isOk) : ∃ a, x = .ok a := by
  cases x with
  | error e => exact absurd h Bool.false_ne_true
  | ok a => exact ⟨a, rfl⟩

/-- A computation in two steps returned when both did. -/
theorem bind_eq_ok {ε α β : Type} {x : Except ε α} {f : α → Except ε β} {b : β} :
    x >>= f = .ok b ↔ ∃ a, x = .ok a ∧ f a = .ok b := by
  cases x with
  | error e => exact ⟨nofun, nofun⟩
  | ok a => exact ⟨fun h => ⟨a, rfl, h⟩, fun ⟨_, ha, h⟩ => Except.ok.inj ha ▸ h⟩

theorem ok_bind {ε α β : Type} (a : α) (f : α → Except ε β) : Except.ok a >>= f = f a := rfl

/-- A second step matters only on the values the first one returns. -/
theorem bind_congr_ok {ε α β : Type} {x : Except ε α} {f g : α → Except ε β}
    (h : ∀ a, x = .ok a → f a = g a) : x >>= f = x >>= g := by
  cases x with
  | error e => rfl
  | ok a => exact h a rfl

/-- A loop that returned follows the loop over what each of its steps does to a measure. -/
theorem foldl_of_foldlM_ok {ε α β γ : Type} {f : β → α → Except ε β} {g : β → γ}
    {step : γ → α → γ} (h : ∀ b a b', f b a = .ok b' → g b' = step (g b) a) {l : List α} {b b' : β}
    (hl : l.foldlM f b = .ok b') : g b' = l.foldl step (g b) := by
  induction l generalizing b with
  | nil =>
    cases hl
    rfl
  | cons a l ih =>
    rw [List.foldlM_cons] at hl
    obtain ⟨c, hc, hl⟩ := bind_eq_ok.mp hl
    rw [ih hl, h b a c hc, List.foldl_cons]

/-- Whether a computation returns a value with a decidable property. -/
instance decidableReturns {ε α : Type} (x : Except ε α) (p : α → Prop) [DecidablePred p] :
    Decidable (∃ a, x = .ok a ∧ p a) :=
  match x with
  | .error _ => isFalse fun ⟨_, h, _⟩ => nomatch h
  | .ok a => decidable_of_iff (p a)
      ⟨fun h => ⟨a, rfl, h⟩, fun ⟨_, ha, h⟩ => (Except.ok.inj ha).symm ▸ h⟩

/-- An exception in flight, with the text of its `what()`. -/
structure Thrown where
  what : Str
  deriving DecidableEq

/-- A computation that returns a value or throws. -/
abbrev Throws (α : Type) := Except Thrown α

end Papa
