import Papa.Util.YamlPlain
import Papa.Util.YamlQuoted

/-!
# Keys

The text in front of the separator of an entry: plain, or a quoted scalar. A quoted key is split off
whole whatever it holds, and read as the text it encodes; a plain one is split off when its quotes
are closed.

## Main definitions

* `Papa.Util.Yaml.PlainKey`, `Papa.Util.Yaml.IsKeyText`: the texts of keys.

## Main results

* `Papa.Util.Yaml.QuotedScalar.balancedQuotes`, `Papa.Util.Yaml.QuotedScalar.splitKey_eq`: a quoted
  key is split off.
* `Papa.Util.Yaml.QuotedScalar.mappingKey_eq`: it is read as its text.
-/

namespace Papa.Util.Yaml

open QuoteState

/-! ### Quoted keys -/

theorem enclosed_encodeSingleQuoted (v : Str) :
    Enclosed inSingle (encodeSingleQuoted v) ∧ inSingle.run (encodeSingleQuoted v) = inSingle := by
  induction v with
  | nil => exact ⟨trivial, rfl⟩
  | cons c v ih =>
    rw [encodeSingleQuoted, List.flatMap_cons]
    change Enclosed inSingle (_ ++ encodeSingleQuoted v) ∧
      inSingle.run (_ ++ encodeSingleQuoted v) = inSingle
    rw [run_append]
    by_cases hc : c = kSingleQuote
    · -- the first apostrophe leads outside, where the second one is a quote
      subst hc
      rw [if_pos (beq_self_eq_true _)]
      have hrun : inSingle.run [kSingleQuote, kSingleQuote] = inSingle := rfl
      have hpass : Enclosed inSingle [kSingleQuote, kSingleQuote] :=
        ⟨Or.inl (by decide), Or.inr (Or.inl rfl), trivial⟩
      rw [hrun]
      exact ⟨hpass.append (by rw [hrun]; exact ih.1), ih.2⟩
    · rw [if_neg (by simpa using hc)]
      have hrun : inSingle.run [c] = inSingle := if_neg hc
      have hpass : Enclosed inSingle [c] := ⟨Or.inl (by decide), trivial⟩
      rw [hrun]
      exact ⟨hpass.append (by rw [hrun]; exact ih.1), ih.2⟩

/-- The scanner stays between quotation marks over bytes that are no escape and no such mark. -/
theorem enclosed_plain {s : Str} (hs : ∀ c ∈ s, c ≠ ch '\\' ∧ c ≠ kDoubleQuote) :
    Enclosed inDouble s ∧ inDouble.run s = inDouble := by
  induction s with
  | nil => exact ⟨trivial, rfl⟩
  | cons c s ih =>
    obtain ⟨⟨hslash, hquote⟩, hs⟩ := List.forall_mem_cons.mp hs
    have hstep : inDouble.step c = inDouble := by simp [step, hslash, hquote]
    rw [Enclosed, run_cons, hstep]
    exact ⟨⟨Or.inl (by decide), (ih hs).1⟩, (ih hs).2⟩

theorem enclosed_escape (n : UInt8) :
    Enclosed inDouble [ch '\\', n] ∧ inDouble.run [ch '\\', n] = inDouble :=
  ⟨⟨Or.inl nofun, Or.inl nofun, trivial⟩, rfl⟩

theorem enclosed_escapedBody {body v : Str} (h : EscapedBody body v) :
    Enclosed inDouble body ∧ inDouble.run body = inDouble := by
  have happend {s t : Str} (hs : Enclosed inDouble s ∧ inDouble.run s = inDouble)
      (ht : Enclosed inDouble t ∧ inDouble.run t = inDouble) :
      Enclosed inDouble (s ++ t) ∧ inDouble.run (s ++ t) = inDouble := by
    rw [run_append, hs.2]
    exact ⟨hs.1.append (hs.2.symm ▸ ht.1), ht.2⟩
  induction h with
  | nil => exact ⟨trivial, rfl⟩
  | @plain body _ c hslash hquote _ ih =>
    exact @happend [c] body (enclosed_plain (by simp [hslash, hquote])) ih
  | @simple body _ n _ _ _ ih => exact @happend [ch '\\', n] body (enclosed_escape n) ih
  | @byte body _ a b _ hcode _ ih =>
    exact @happend [ch '\\', ch 'x'] _ (enclosed_escape _)
      (@happend [a, b] body (enclosed_plain (ne_of_hexValue hcode)) ih)
  | @codePoint body _ a b c d _ hcode _ _ ih =>
    exact @happend [ch '\\', ch 'u'] _ (enclosed_escape _)
      (@happend [a, b, c, d] body (enclosed_plain (ne_of_hexValue hcode)) ih)

namespace QuotedScalar

variable {k v : Str} (hk : QuotedScalar k v)

include hk

/-- The quotes of a quoted scalar are closed, and what is between them is inside them. -/
theorem enclosed : Enclosed outside k ∧ BalancedQuotes k := by
  cases hk with
  | single =>
    obtain ⟨hpass, hrun⟩ := enclosed_encodeSingleQuoted v
    refine ⟨⟨Or.inr (Or.inl rfl), hpass.append ?_⟩, ?_⟩
    · exact ⟨Or.inr (Or.inl rfl), trivial⟩
    · rw [BalancedQuotes, run_cons, run_append]
      change (inSingle.run (encodeSingleQuoted v)).run [kSingleQuote] = outside
      rw [hrun]
      rfl
  | @double body _ h =>
    obtain ⟨hpass, hrun⟩ := enclosed_escapedBody h
    refine ⟨⟨Or.inr (Or.inr rfl), hpass.append ?_⟩, ?_⟩
    · exact ⟨Or.inr (Or.inr rfl), trivial⟩
    · rw [BalancedQuotes, run_cons, run_append]
      change (inDouble.run body).run [kDoubleQuote] = outside
      rw [hrun]
      rfl

/-- The scanner for keys passes over a quoted scalar. -/
theorem passes : Passes outside k ∧ BalancedQuotes k :=
  ⟨hk.enclosed.1.passes, hk.enclosed.2⟩

/-- A quoted key is read as the text it encodes. -/
theorem mappingKey_eq (line column : ℕ) : mappingKey k line column = .ok v := by
  have hlast (q : UInt8) (body : Str) : (q :: (body ++ [q])).getLast? = some q := by
    rw [← List.cons_append, List.getLast?_concat]
  have hinner (q : UInt8) (body : Str) : ((q :: (body ++ [q])).drop 1).dropLast = body :=
    List.dropLast_concat
  cases hk with
  | single =>
    rw [mappingKey, List.head?_cons, if_neg (by decide), if_pos (by decide),
      if_neg (by simp [hlast]),
      hinner, decodeSingleQuoted_encode]
  | double h =>
    rw [mappingKey, List.head?_cons, if_pos (by decide), if_neg (by simp [hlast]), hinner,
      decodeDoubleQuoted_of_escapedBody h]

/-- A quoted key is split off. -/
theorem splitKey_eq (t : Str) :
    splitKey (k ++ ch ':' :: ch ' ' :: t) = some (k, t.dropWhile (· == ch ' ')) := by
  have hrun : outside.run k = outside := hk.passes.2
  rw [Yaml.splitKey_eq, hk.passes.1.scanKey, hrun, scanKey, if_pos ⟨rfl, rfl, Or.inr rfl⟩,
    List.dropWhile_cons_of_pos (by decide)]
  exact congrArg (fun k' => some (k', _)) (List.append_nil k)

end QuotedScalar

/-! ### Texts of keys -/

/-- A plain key: it starts with no quote and no hash sign, and holds no key separator. -/
structure PlainKey (k : Str) : Prop where
  lead : ∃ a s, k = a :: s ∧ a ≠ ch '#' ∧ a ≠ kSingleQuote ∧ a ≠ kDoubleQuote
  noKey : ¬str ": " <:+: k

/-- A text of a key. -/
def IsKeyText (k : Str) : Prop := PlainKey k ∨ ∃ v, QuotedScalar k v

namespace IsKeyText

variable {k : Str} (hk : IsKeyText k)

include hk

theorem exists_cons : ∃ a s, k = a :: s ∧ a ≠ ch '#' := by
  obtain hplain | ⟨v, hv⟩ := hk
  · obtain ⟨a, s, rfl, ha, -⟩ := hplain.lead
    exact ⟨a, s, rfl, ha⟩
  · obtain ⟨q, body, hq, rfl⟩ := hv.exists_eq
    exact ⟨q, _, rfl, by rcases hq with rfl | rfl <;> decide⟩

/-- A key with closed quotes is split off. -/
theorem splitKey_eq (hquotes : BalancedQuotes k) (t : Str) :
    splitKey (k ++ ch ':' :: ch ' ' :: t) = some (k, t.dropWhile (· == ch ' ')) := by
  obtain hplain | ⟨v, hv⟩ := hk
  · rw [splitKey_entry hplain.noKey, if_pos hquotes]
  · exact hv.splitKey_eq t

/-- A key with an open quote is not split off in front of a text without quotes. -/
theorem splitKey_eq_none (hquotes : ¬BalancedQuotes k) {t : Str}
    (ht : ∀ c ∈ t, c ≠ kSingleQuote ∧ c ≠ kDoubleQuote) :
    splitKey (k ++ ch ':' :: ch ' ' :: t) = none := by
  obtain hplain | ⟨v, hv⟩ := hk
  · rw [splitKey_entry hplain.noKey, if_neg hquotes, Option.map_eq_none_iff, scanKey_eq_none_iff]
    intro a b hab hrun
    -- the scanner is inside quotes up to the end of the line
    have hline : ∀ c ∈ ch ':' :: ch ' ' :: t, c ≠ kSingleQuote ∧ c ≠ kDoubleQuote :=
      List.forall_mem_cons.mpr ⟨by decide, List.forall_mem_cons.mpr ⟨by decide, ht⟩⟩
    have hinside : ∀ c ∈ ch ':' :: a, c ≠ kSingleQuote ∧ c ≠ kDoubleQuote := fun c hc =>
      hline c (by rw [hab, ← List.cons_append]; exact List.mem_append_left _ hc)
    rw [← run_append, List.append_assoc] at hrun
    rw [run_append] at hrun
    exact absurd ((run_eq_outside_iff hinside _).mp hrun) hquotes
  · exact absurd hv.passes.2 hquotes

/-- A key is read as some text. -/
theorem exists_mappingKey (line column : ℕ) : ∃ name, mappingKey k line column = .ok name := by
  obtain hplain | ⟨v, hv⟩ := hk
  · obtain ⟨a, s, rfl, -, hsingle, hdouble⟩ := hplain.lead
    refine ⟨Str.rtrim (a :: s), ?_⟩
    rw [mappingKey, if_neg (by simpa using hdouble), if_neg (by simpa using hsingle)]
  · exact ⟨v, hv.mappingKey_eq line column⟩

end IsKeyText

end Papa.Util.Yaml
