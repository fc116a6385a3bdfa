import Mathlib.Tactic.Linarith
import Papa.Library.EcmaRegex
import Papa.Util.RegexPrefilter

/-!
# Soundness of the required literal

The scan of `requiredLiteral` reads a pattern term by term, or gives up. While it does, the run it
collects is what the text matched so far ends with, and the best run occurs in the subject, both
up to the case folding of the flag.

## Main definitions

* `Papa.Util.Passes`: a text that the group scan reads to its end.
* `Papa.Util.ScannedAs`: a text that the literal scan reads as one atom.
* `Papa.Util.Collected`: the invariant of the literal scan.

## Main results

* `Papa.Util.passes_of_disjunction`: the group scan finds the end of every group.
* `Papa.Util.literalLoop_alternative`: the literal scan keeps its invariant over a sequence of
  terms.
* `Papa.Util.containsLiteral_of_found`: a subject with a match contains the required literal.
-/

namespace Papa.Util

open EcmaRegex

theorem byte_eq_ch : byte = ch := rfl

/-! ### Classes -/

theorem classScan_cons (c : UInt8) (p : Str) :
    classScan (c :: p) =
      if c == ch '\\' then
        match p with
        | [] => none
        | _ :: p' => classScan p'
      else if c == ch '[' && (p.head?.any fun d => (str ":.=").contains d) then none
      else if c == ch ']' then some p
      else classScan p :=
  classScan.eq_def (c :: p)

/-- The scan of a class either gives up or ends where the class does. -/
theorem eq_of_classScan {p rest out : Str} (hp : ClassBody p)
    (h : classScan (p ++ ch ']' :: rest) = some out) : out = rest := by
  induction hp with
  | nil =>
    rw [List.nil_append, classScan_cons] at h
    exact (Option.some.inj h).symm
  | @plain p c hc hp ih =>
    rw [List.cons_append, classScan_cons] at h
    rw [byte_eq_ch] at hc
    split_ifs at h with hback hnamed hclose
    · exact absurd (eq_of_beq hback) hc.1
    · exact absurd (eq_of_beq hclose) hc.2
    · exact ih h
  | escape e hp ih => exact ih h
  | named d name hd hp ih =>
    have hnamed : (str ":.=").contains d := List.contains_iff_mem.mpr hd
    rw [byte_eq_ch, List.cons_append, List.cons_append, classScan_cons, if_neg (by decide),
      if_pos] at h
    · cases h
    · simpa using hnamed

theorem eq_of_classEnd {p rest out : Str} (hp : ClassBody p) (hhead : p.head? ≠ some (ch '^'))
    (h : classEnd (p ++ ch ']' :: rest) = some out) : out = rest := by
  have hcaret : (p ++ ch ']' :: rest).head? ≠ some (ch '^') := by
    cases p with
    | nil => rw [List.nil_append, List.head?_cons]; decide
    | cons c p => exact hhead
  simp only [classEnd, beq_iff_eq, if_neg hcaret] at h
  split_ifs at h
  exact eq_of_classScan hp h

theorem eq_of_classEnd_negated {p rest out : Str} (hp : ClassBody p)
    (h : classEnd (ch '^' :: p ++ ch ']' :: rest) = some out) : out = rest := by
  simp only [classEnd, List.cons_append, List.head?_cons, beq_self_eq_true, if_true, List.drop_one,
    List.tail_cons] at h
  split_ifs at h
  exact eq_of_classScan hp h

/-! ### Groups -/

theorem groupScan_cons (fuel depth : ℕ) (c : UInt8) (p : Str) :
    groupScan (fuel + 1) depth (c :: p) =
      if c == ch '\\' then groupScan fuel depth (p.drop 1)
      else if c == ch '[' then
        match classEnd p with
        | none => none
        | some p' => groupScan fuel depth p'
      else if c == ch '(' then groupScan fuel (depth + 1) p
      else if c == ch ')' then
        if depth - 1 == 0 then some p else groupScan fuel (depth - 1) p
      else groupScan fuel depth p :=
  groupScan.eq_def (fuel + 1) depth (c :: p)

/-- Inside a group, the scan reads the text to its end or gives up. -/
def Passes (p : Str) : Prop :=
  ∀ fuel depth rest out, 0 < depth → groupScan fuel depth (p ++ rest) = some out →
    ∃ fuel', groupScan fuel' depth rest = some out

namespace Passes

theorem nil : Passes [] := fun fuel _ _ _ _ h => ⟨fuel, h⟩

theorem append {p q : Str} (hp : Passes p) (hq : Passes q) : Passes (p ++ q) := by
  intro fuel depth rest out hdepth h
  rw [List.append_assoc] at h
  obtain ⟨fuel', h'⟩ := hp fuel depth (q ++ rest) out hdepth h
  exact hq fuel' depth rest out hdepth h'

/-- What a scan that succeeds finds at the head of the text. -/
theorem of_cons {c : UInt8} {p : Str}
    (h : ∀ fuel depth rest out, 0 < depth → groupScan (fuel + 1) depth (c :: p ++ rest) = some out →
      ∃ fuel', groupScan fuel' depth rest = some out) : Passes (c :: p) := by
  intro fuel depth rest out hdepth hscan
  cases fuel with
  | zero => cases hscan
  | succ fuel => exact h fuel depth rest out hdepth hscan

/-- The scan looks at no byte of the text. -/
def Plain (p : Str) : Prop := ∀ c ∈ p, c ≠ ch '\\' ∧ c ≠ ch '[' ∧ c ≠ ch '(' ∧ c ≠ ch ')'

theorem of_plain {p : Str} (hp : Plain p) : Passes p := by
  induction p with
  | nil => exact nil
  | cons c p ih =>
    refine of_cons fun fuel depth rest out hdepth h => ?_
    obtain ⟨h1, h2, h3, h4⟩ := hp c (List.mem_cons_self ..)
    rw [List.cons_append, groupScan_cons, if_neg (by simpa using h1), if_neg (by simpa using h2),
      if_neg (by simpa using h3), if_neg (by simpa using h4)] at h
    exact ih (fun d hd => hp d (List.mem_cons_of_mem _ hd)) fuel depth rest out hdepth h

theorem escape (e : UInt8) : Passes [ch '\\', e] :=
  of_cons fun fuel _ _ _ _ h => ⟨fuel, h⟩

theorem bracket {p : Str}
    (hp : ∀ rest out, classEnd (p ++ ch ']' :: rest) = some out → out = rest) :
    Passes (ch '[' :: (p ++ [ch ']'])) := by
  refine of_cons fun fuel depth rest out _ h => ?_
  rw [List.cons_append, List.append_assoc, List.singleton_append, groupScan_cons,
    if_neg (by decide), if_pos (by decide)] at h
  cases hend : classEnd (p ++ ch ']' :: rest) with
  | none => rw [hend] at h; cases h
  | some rest' =>
    rw [hend, hp rest rest' hend] at h
    exact ⟨fuel, h⟩

theorem group {p : Str} (hp : Passes p) : Passes (ch '(' :: (p ++ [ch ')'])) := by
  refine of_cons fun fuel depth rest out hdepth h => ?_
  rw [List.cons_append, List.append_assoc, List.singleton_append, groupScan_cons,
    if_neg (by decide), if_neg (by decide), if_pos (by decide)] at h
  obtain ⟨fuel', h'⟩ := hp fuel (depth + 1) (ch ')' :: rest) out (Nat.succ_pos _) h
  cases fuel' with
  | zero => cases h'
  | succ fuel' =>
    rw [groupScan_cons, if_neg (by decide), if_neg (by decide), if_neg (by decide),
      if_pos (by decide), Nat.add_sub_cancel, if_neg (by simpa using hdepth.ne')] at h'
    exact ⟨fuel', h'⟩

end Passes

/-- The scan of a group either gives up or ends where the group does. -/
theorem eq_of_skipBracketed_group {p rest out : Str} (hp : Passes p)
    (h : skipBracketed (ch '(' :: (p ++ ch ')' :: rest)) = some out) : out = rest := by
  rw [skipBracketed, if_neg (by decide), List.length_cons, groupScan_cons, if_neg (by decide),
    if_neg (by decide), if_pos (by decide)] at h
  obtain ⟨fuel', h'⟩ := hp _ (0 + 1) (ch ')' :: rest) out Nat.one_pos h
  cases fuel' with
  | zero => cases h'
  | succ fuel' =>
    rw [groupScan_cons, if_neg (by decide), if_neg (by decide), if_neg (by decide),
      if_pos (by decide), if_pos (by decide)] at h'
    exact (Option.some.inj h').symm

theorem eq_of_skipBracketed_bracket {p rest out : Str}
    (hp : ∀ rest out, classEnd (p ++ ch ']' :: rest) = some out → out = rest)
    (h : skipBracketed (ch '[' :: (p ++ ch ']' :: rest)) = some out) : out = rest := by
  rw [skipBracketed, if_pos (by decide)] at h
  exact hp rest out h

/-! ### Escapes and quantifiers -/

theorem isAlnum_iff (c : UInt8) : isAlnum c ↔ IsDigit c ∨ IsLetter c := by
  simp only [isAlnum, isDigit, IsDigit, IsLetter, byte_eq_ch, Bool.or_eq_true, Bool.and_eq_true,
    decide_eq_true_eq]
  tauto

theorem plain_of_isAlnum {p : Str} (h : ∀ c ∈ p, isAlnum c) : Passes.Plain p := by
  intro c hc
  refine ⟨?_, ?_, ?_, ?_⟩ <;>
  · rintro rfl
    exact absurd (h _ hc) (by decide)

theorem isAlnum_of_hexValue {c : UInt8} (h : (hexValue c).isSome) : isAlnum c := by
  rw [isAlnum_iff]
  rw [hexValue] at h
  split_ifs at h with hd hl hu
  · exact Or.inl hd
  · exact Or.inr (Or.inl ⟨hl.1, hl.2.trans (by decide)⟩)
  · exact Or.inr (Or.inr ⟨hu.1, hu.2.trans (by decide)⟩)
  · cases h

/-- The letters of the escapes the literal scan reads. -/
def scannedEscapes : Str := str "dDwWsSbB"

/-- What the literal scan sees of an escape: a byte that stands for itself, a letter it knows, or
one on which it gives up. -/
theorem escape_cases {p : Str} {a : Node} (h : AtomEscape p a) :
    ∃ e q, p = e :: q ∧ Passes.Plain q ∧
      ((q = [] ∧ ¬ isAlnum e ∧ a = .char e) ∨ (q = [] ∧ isAlnum e ∧ e ∈ scannedEscapes) ∨
        (isAlnum e ∧ e ∉ scannedEscapes)) := by
  have hnil : Passes.Plain [] := fun _ h => absurd h List.not_mem_nil
  cases h with
  | null => exact ⟨_, _, rfl, hnil, Or.inr (Or.inr (by decide))⟩
  | @backref ds hds =>
    obtain ⟨d, ds, rfl⟩ := List.exists_cons_of_ne_nil hds.1
    have hdigit : ∀ c ∈ d :: ds, isAlnum c := fun c hc => (isAlnum_iff c).mpr (Or.inl (hds.2 c hc))
    refine ⟨d, ds, rfl, plain_of_isAlnum fun c hc => hdigit c (List.mem_cons_of_mem _ hc),
      Or.inr (Or.inr ⟨hdigit d (List.mem_cons_self ..), fun hmem => ?_⟩)⟩
    have hletters : ∀ c ∈ scannedEscapes, ¬ IsDigit c := by decide +kernel
    exact hletters d hmem (hds.2 d (List.mem_cons_self ..))
  | @control c d hcd =>
    have hletters : ∀ e ∈ [(byte 'f', (12 : UInt8)), (byte 'n', 10), (byte 'r', 13), (byte 't', 9),
        (byte 'v', 11)], isAlnum e.1 ∧ e.1 ∉ scannedEscapes := by
      simp only [List.forall_mem_cons, List.not_mem_nil, false_imp_iff, implies_true]
      decide
    exact ⟨c, [], rfl, hnil, Or.inr (Or.inr (hletters (c, d) hcd))⟩
  | @controlLetter c hc =>
    refine ⟨_, _, rfl, plain_of_isAlnum fun d hd => ?_, Or.inr (Or.inr (by decide))⟩
    rw [List.mem_singleton.mp hd]
    exact (isAlnum_iff c).mpr (Or.inr hc)
  | @hex c d m n hc hd =>
    refine ⟨_, _, rfl, plain_of_isAlnum fun e he => ?_, Or.inr (Or.inr (by decide))⟩
    simp only [List.mem_cons, List.not_mem_nil, or_false] at he
    rcases he with rfl | rfl
    · exact isAlnum_of_hexValue (hc ▸ rfl)
    · exact isAlnum_of_hexValue (hd ▸ rfl)
  | @unicode c d e f m n hc hd he hf =>
    refine ⟨_, _, rfl, plain_of_isAlnum fun g hg => ?_, Or.inr (Or.inr (by decide))⟩
    simp only [List.mem_cons, List.not_mem_nil, or_false] at hg
    rcases hg with rfl | rfl | rfl | rfl
    · exact isAlnum_of_hexValue hc
    · exact isAlnum_of_hexValue hd
    · exact isAlnum_of_hexValue (he ▸ rfl)
    · exact isAlnum_of_hexValue (hf ▸ rfl)
  | @identity c hc =>
    refine ⟨c, [], rfl, hnil, Or.inl ⟨rfl, fun h => ?_, rfl⟩⟩
    exact ((isAlnum_iff c).mp h).elim hc.1 hc.2
  | @set c k hck =>
    have hletters : ∀ e ∈ [(byte 'd', ByteSet.digit false), (byte 'D', .digit true),
        (byte 's', .space false), (byte 'S', .space true), (byte 'w', .word false),
        (byte 'W', .word true)], isAlnum e.1 ∧ e.1 ∈ scannedEscapes := by
      simp only [List.forall_mem_cons, List.not_mem_nil, false_imp_iff, implies_true]
      decide
    exact ⟨c, [], rfl, hnil, Or.inr (Or.inl ⟨rfl, hletters (c, k) hck⟩)⟩

theorem passes_of_escape {p : Str} {a : Node} (h : AtomEscape p a) : Passes (ch '\\' :: p) := by
  obtain ⟨e, q, rfl, hq, -⟩ := escape_cases h
  exact (Passes.escape e).append (Passes.of_plain hq)

theorem passes_of_assertion {p : Str} {a : Assertion} (h : AssertionText p a) : Passes p := by
  cases h with
  | lineStart => exact Passes.of_plain (by unfold Passes.Plain; decide +kernel)
  | lineEnd => exact Passes.of_plain (by unfold Passes.Plain; decide +kernel)
  | wordBoundary => exact Passes.escape _
  | notWordBoundary => exact Passes.escape _

theorem passes_of_quantifier {q : Str} {min : ℕ} {max : Option ℕ}
    (h : QuantifierPrefix q min max) : Passes q := by
  have hdigits : ∀ {ds : Str}, IsDecimal ds → Passes ds := fun hds =>
    Passes.of_plain (plain_of_isAlnum fun c hc => (isAlnum_iff c).mpr (Or.inl (hds.2 c hc)))
  have hfixed : ∀ {p : Str}, (∀ c ∈ p, c ∈ str "*+?{},") → Passes p := by
    intro p hp
    refine Passes.of_plain fun c hc => ?_
    have hplain : ∀ c ∈ str "*+?{},", c ≠ ch '\\' ∧ c ≠ ch '[' ∧ c ≠ ch '(' ∧ c ≠ ch ')' := by
      decide +kernel
    exact hplain c (hp c hc)
  cases h with
  | star => exact hfixed (by decide +kernel)
  | plus => exact hfixed (by decide +kernel)
  | opt => exact hfixed (by decide +kernel)
  | exact hds =>
    exact (Passes.append (p := [ch '{']) (hfixed (by decide +kernel)) (hdigits hds)).append
      (hfixed (by decide +kernel))
  | atLeast hds =>
    exact (Passes.append (p := [ch '{']) (hfixed (by decide +kernel)) (hdigits hds)).append
      (hfixed (by decide +kernel))
  | between hds hes =>
    exact ((Passes.append (p := [ch '{']) (hfixed (by decide +kernel)) (hdigits hds)).append
      (Passes.append (p := [ch ',']) (hfixed (by decide +kernel)) (hdigits hes))).append
      (hfixed (by decide +kernel))

/-! ### The group scan follows the grammar -/

theorem passes_of_classBody {p : Str} (h : ClassBody p) (hhead : p.head? ≠ some (ch '^')) :
    Passes (ch '[' :: (p ++ [ch ']'])) :=
  Passes.bracket fun _ _ hend => eq_of_classEnd h hhead hend

theorem passes_of_negatedClassBody {p : Str} (h : ClassBody p) :
    Passes (ch '[' :: (ch '^' :: p ++ [ch ']'])) :=
  Passes.bracket fun _ _ hend => eq_of_classEnd_negated h hend

/-- The marks of a group that is not a plain capture pass. -/
theorem passes_of_mark {c : UInt8} {p : Str} (hc : c ∈ str ":=!") (hp : Passes p) :
    Passes (ch '?' :: c :: p) := by
  refine Passes.append (p := [ch '?', c]) (Passes.of_plain ?_) hp
  have hplain : ∀ c ∈ str ":=!", Passes.Plain [ch '?', c] := by
    unfold Passes.Plain
    decide +kernel
  exact hplain c hc

mutual

/-- **The group scan reads every disjunction to its end**, or gives up. -/
theorem passes_of_disjunction {k k' : ℕ} {p : Str} {a : Node} :
    Disjunction k p a k' → Passes p
  | .one h => passes_of_alternative h
  | .alt h h' =>
    (passes_of_alternative h).append <|
      Passes.append (p := [ch '|']) (Passes.of_plain (by unfold Passes.Plain; decide +kernel))
        (passes_of_disjunction h')

theorem passes_of_alternative {k k' : ℕ} {p : Str} {a : Node} :
    Alternative k p a k' → Passes p
  | .empty => Passes.nil
  | .term h h' => (passes_of_term h).append (passes_of_alternative h')

theorem passes_of_term {k k' : ℕ} {p : Str} {a : Node} : Term k p a k' → Passes p
  | .assertion h => passes_of_assertion h
  | .atom h => passes_of_atom h
  | .greedy h hq => (passes_of_atom h).append (passes_of_quantifier hq)
  | .lazy h hq =>
    (passes_of_atom h).append <| (passes_of_quantifier hq).append <|
      Passes.of_plain (by unfold Passes.Plain; decide +kernel)

theorem passes_of_atom {k k' : ℕ} {p : Str} {a : Node} : Atom k p a k' → Passes p
  | .char h => by
    refine Passes.of_plain fun c hc => ?_
    rw [List.mem_singleton.mp hc]
    refine ⟨?_, ?_, ?_, ?_⟩ <;>
    · rintro rfl
      exact h (by decide)
  | .any => Passes.of_plain (by unfold Passes.Plain; decide +kernel)
  | .escape h => passes_of_escape h
  | .bracket h hhead => passes_of_classBody h hhead
  | .negatedBracket h => passes_of_negatedClassBody h
  | .group h => (passes_of_disjunction h).group
  | .nonCapturing h => (passes_of_mark (by decide) (passes_of_disjunction h)).group
  | .lookahead h => (passes_of_mark (by decide) (passes_of_disjunction h)).group
  | .negativeLookahead h => (passes_of_mark (by decide) (passes_of_disjunction h)).group

end

/-! ### Atoms and quantifiers -/

/-- The bytes a quantifier starts with. -/
def quantifierBytes : Str := str "*+?\x7b"

/-- The literal scan reads the text as one atom or gives up; a literal it reads is the node. -/
def ScannedAs (p : Str) (a : Node) : Prop :=
  ∃ c q, p = c :: q ∧ c ∉ quantifierBytes ∧
    ∀ rest literal next, scanAtom c (q ++ rest) = some (literal, next) →
      next = rest ∧ ∀ b, literal = some b → a = .char b

theorem scannedAs_char {c : UInt8} (h : c ∉ syntaxBytes) : ScannedAs [c] (.char c) := by
  have hne : ∀ d ∈ syntaxBytes, c ≠ d := fun d hd hcd => h (hcd ▸ hd)
  refine ⟨c, [], rfl, fun hq => ?_, fun rest literal next hscan => ?_⟩
  · have hbytes : ∀ d ∈ quantifierBytes, d ∈ syntaxBytes := by decide +kernel
    exact h (hbytes c hq)
  · have h1 := hne (ch '(') (by decide)
    have h2 := hne (ch '[') (by decide)
    have h3 := hne (ch '\\') (by decide)
    have h4 := hne (ch '.') (by decide)
    have h5 := hne (ch '^') (by decide)
    have h6 := hne (ch '$') (by decide)
    simp only [scanAtom, List.nil_append, beq_iff_eq, bne_iff_ne, Bool.or_eq_true,
      Bool.and_eq_true, h1, h2, h3, h4, h5, h6, or_self, if_false, ne_eq, not_false_eq_true,
      and_self, if_true] at hscan
    split_ifs at hscan
    cases hscan
    exact ⟨rfl, fun b hb => congrArg Node.char (Option.some.inj hb)⟩

/-- An atom read without a literal. -/
theorem scannedAs_of_none {c : UInt8} {q : Str} {a : Node} (hc : c ∉ quantifierBytes)
    (h : ∀ rest literal next, scanAtom c (q ++ rest) = some (literal, next) →
      next = rest ∧ literal = none) : ScannedAs (c :: q) a := by
  refine ⟨c, q, rfl, hc, fun rest literal next hscan => ?_⟩
  obtain ⟨hnext, hliteral⟩ := h rest literal next hscan
  exact ⟨hnext, fun b hb => by rw [hliteral] at hb; cases hb⟩

theorem scannedAs_fixed {c : UInt8} {a : Node} (hc : c ∉ quantifierBytes)
    (h : ∀ rest, scanAtom c rest = some (none, rest)) : ScannedAs [c] a := by
  refine scannedAs_of_none hc fun rest literal next hscan => ?_
  rw [List.nil_append, h rest] at hscan
  cases hscan
  exact ⟨rfl, rfl⟩

theorem scanAtom_escape (e : UInt8) (rest : Str) :
    scanAtom (ch '\\') (e :: rest) =
      if !isAlnum e then some (some e, rest)
      else if scannedEscapes.contains e then some (none, rest)
      else none := rfl

theorem scannedAs_escape {p : Str} {a : Node} (h : AtomEscape p a) :
    ScannedAs (ch '\\' :: p) a := by
  obtain ⟨e, q, rfl, -, hcases⟩ := escape_cases h
  refine ⟨_, _, rfl, by decide, fun rest literal next hscan => ?_⟩
  rw [List.cons_append, scanAtom_escape] at hscan
  rcases hcases with ⟨rfl, he, rfl⟩ | ⟨rfl, he, hmem⟩ | ⟨he, hmem⟩
  · rw [if_pos (by simpa using he)] at hscan
    cases hscan
    exact ⟨rfl, fun b hb => congrArg Node.char (Option.some.inj hb)⟩
  · rw [if_neg (by simpa using he), if_pos (List.contains_iff_mem.mpr hmem)] at hscan
    cases hscan
    exact ⟨rfl, fun b hb => absurd hb (by simp)⟩
  · rw [if_neg (by simpa using he), if_neg (fun h => hmem (List.contains_iff_mem.mp h))] at hscan
    cases hscan

theorem scannedAs_group {p : Str} {a : Node} (hp : Passes p) :
    ScannedAs (ch '(' :: (p ++ [ch ')'])) a := by
  refine scannedAs_of_none (by decide) fun rest literal next hscan => ?_
  rw [List.append_assoc, List.singleton_append, scanAtom.eq_def, if_pos (by decide)] at hscan
  obtain ⟨out, hout, heq⟩ := Option.map_eq_some_iff.mp hscan
  cases heq
  exact ⟨eq_of_skipBracketed_group hp hout, rfl⟩

theorem scannedAs_bracket {p : Str} {a : Node}
    (hp : ∀ rest out, classEnd (p ++ ch ']' :: rest) = some out → out = rest) :
    ScannedAs (ch '[' :: (p ++ [ch ']'])) a := by
  refine scannedAs_of_none (by decide) fun rest literal next hscan => ?_
  rw [List.append_assoc, List.singleton_append, scanAtom.eq_def, if_pos (by decide)] at hscan
  obtain ⟨out, hout, heq⟩ := Option.map_eq_some_iff.mp hscan
  cases heq
  exact ⟨eq_of_skipBracketed_bracket hp hout, rfl⟩

theorem scannedAs_of_assertion {p : Str} {a : Assertion} (h : AssertionText p a) :
    ScannedAs p (.assertion a) := by
  cases h with
  | lineStart => exact scannedAs_fixed (by decide) fun _ => rfl
  | lineEnd => exact scannedAs_fixed (by decide) fun _ => rfl
  | wordBoundary | notWordBoundary =>
    refine scannedAs_of_none (by decide) fun rest literal next hscan => ?_
    cases hscan
    exact ⟨rfl, rfl⟩

/-- The literal scan reads every atom as one. -/
theorem scannedAs_of_atom {k k' : ℕ} {p : Str} {a : Node} (h : Atom k p a k') : ScannedAs p a := by
  cases h with
  | char h => exact scannedAs_char h
  | any => exact scannedAs_fixed (by decide) fun _ => rfl
  | escape h => exact scannedAs_escape h
  | bracket h hhead => exact scannedAs_bracket fun _ _ hend => eq_of_classEnd h hhead hend
  | negatedBracket h => exact scannedAs_bracket fun _ _ hend => eq_of_classEnd_negated h hend
  | group h => exact scannedAs_group (passes_of_disjunction h)
  | nonCapturing h | lookahead h | negativeLookahead h =>
    exact scannedAs_group (passes_of_mark (by decide) (passes_of_disjunction h))

/-- The text does not start with a quantifier. -/
def Unquantified (p : Str) : Prop := ∀ c ∈ p.head?, c ∉ quantifierBytes

theorem parseQuantifier_of_unquantified {p : Str} (h : Unquantified p) :
    parseQuantifier p = some ⟨p, false⟩ := by
  cases p with
  | nil => rfl
  | cons c p =>
    have hne : ∀ d ∈ quantifierBytes, c ≠ d := fun d hd hcd => h c rfl (hcd ▸ hd)
    have h1 := hne (ch '*') (by decide)
    have h2 := hne (ch '+') (by decide)
    have h3 := hne (ch '?') (by decide)
    have h4 := hne (ch '{') (by decide)
    simp only [parseQuantifier, beq_iff_eq, Bool.or_eq_true, h1, h2, h3, h4, or_self, if_false]

theorem lazyForm_of_unquantified {p : Str} (h : Unquantified p) (optional : Bool) :
    lazyForm p optional = ⟨p, optional⟩ := by
  have hlazy : p.head? ≠ some (ch '?') := fun hp => h _ hp (by decide)
  rw [lazyForm, if_neg (by simpa using hlazy)]

/-- Reading on never brings a nonzero value back to zero. -/
theorem foldl_digits_ne_zero (ds : Str) {n : ℕ} (hn : n ≠ 0) :
    ds.foldl (fun n d => 10 * n + (d.toNat - 48)) n ≠ 0 := by
  induction ds generalizing n with
  | nil => exact hn
  | cons d ds ih => exact ih (n := 10 * n + (d.toNat - 48)) (by omega)

/-- A digit other than `0` makes the value nonzero. -/
theorem decimalValue_ne_zero {ds : Str} (hds : ∀ d ∈ ds, IsDigit d)
    (h : ds.findIdx (· != ch '0') < ds.length) : decimalValue ds ≠ 0 := by
  induction ds with
  | nil => cases h
  | cons d ds ih =>
    by_cases hd : d = ch '0'
    · subst hd
      rw [List.findIdx_cons] at h
      exact ih (fun e he => hds e (List.mem_cons_of_mem _ he)) (by simpa using h)
    · have hle : 48 ≤ d.toNat := UInt8.le_iff_toNat_le.mp (hds d (List.mem_cons_self ..)).1
      have hne : d.toNat ≠ 48 := fun h => hd (UInt8.toNat_inj.mp h)
      exact foldl_digits_ne_zero ds (n := 10 * 0 + (d.toNat - 48)) (by omega)

theorem findIdx_append_cons {p : UInt8 → Bool} {l r : Str} {c : UInt8} (hl : ∀ d ∈ l, p d = false)
    (hc : p c) : (l ++ c :: r).findIdx p = l.length := by
  rw [List.findIdx_append, List.findIdx_eq_length_of_false hl, if_neg (lt_irrefl _),
    List.findIdx_cons, hc, cond_true, Nat.zero_add]

/-- The bytes of the body of a brace quantifier. -/
theorem brace_bytes {ds : Str} (hds : IsDecimal ds) :
    ∀ c ∈ ds, c ∈ kBraceChars ∧ c ≠ ch ',' ∧ c ≠ ch '}' := by
  intro c hc
  have hdigit := hds.2 c hc
  refine ⟨?_, ?_, ?_⟩
  · have hdigits : ∀ n : ℕ, n < 10 → UInt8.ofNat (48 + n) ∈ kBraceChars := by decide
    have hge : 48 ≤ c.toNat := UInt8.le_iff_toNat_le.mp hdigit.1
    have hle : c.toNat ≤ 57 := UInt8.le_iff_toNat_le.mp hdigit.2
    have hmem := hdigits (c.toNat - 48) (by omega)
    rwa [Nat.add_sub_cancel' hge, UInt8.ofNat_toNat] at hmem
  · rintro rfl
    exact absurd hdigit (by decide)
  · rintro rfl
    exact absurd hdigit (by decide)

/-- The scan of a brace quantifier whose body is a run of digits and what a comma adds. -/
theorem parseQuantifier_braces {ds t rest : Str} {q : Quantifier} (hds : IsDecimal ds)
    (ht : ∀ c ∈ t, c ∈ kBraceChars ∧ c ≠ ch '}') (hcomma : ∀ c ∈ t.head?, c = ch ',')
    (h : parseQuantifier (ch '{' :: (ds ++ t ++ ch '}' :: rest)) = some q) :
    ∃ optional, q = lazyForm rest optional ∧ (optional = false → decimalValue ds ≠ 0) := by
  have hbody : ∀ c ∈ ds ++ t, c ∈ kBraceChars ∧ c ≠ ch '}' := fun c hc =>
    (List.mem_append.mp hc).elim
      (fun hc => ⟨(brace_bytes hds c hc).1, (brace_bytes hds c hc).2.2⟩) (ht c)
  have hfind : Str.find (ds ++ t ++ ch '}' :: rest) (ch '}') = some (ds ++ t).length := by
    refine List.findIdx?_eq_some_iff_findIdx_eq.mpr ⟨by simp, findIdx_append_cons ?_ (by decide)⟩
    exact fun c hc => by simpa using (hbody c hc).2
  have hdigits : ∀ c ∈ ds, (c == ch ',') = false := fun c hc => by
    simpa using (brace_bytes hds c hc).2.1
  have hmin : (ds ++ t).findIdx (· == ch ',') = ds.length := by
    cases t with
    | nil => rw [List.append_nil]; exact List.findIdx_eq_length_of_false hdigits
    | cons c t =>
      rw [hcomma c rfl]
      exact findIdx_append_cons hdigits (by decide)
  have hvalid : ((ds.length == 0) || (ds ++ t).any fun d => !kBraceChars.contains d) = false := by
    rw [Bool.or_eq_false_iff, List.any_eq_false]
    refine ⟨by simpa using hds.1, fun c hc => ?_⟩
    simpa using (hbody c hc).1
  have hrest : (ds ++ t ++ ch '}' :: rest).drop ((ds ++ t).length + 1) = rest := by
    rw [← List.drop_drop, List.drop_left]
    rfl
  rw [parseQuantifier, if_neg (by decide), if_neg (by decide), if_pos (by decide), hfind] at h
  dsimp only at h
  rw [List.take_left, hmin, hvalid, if_neg Bool.false_ne_true, hrest] at h
  refine ⟨decide (ds.length ≤ (ds ++ t).findIdx (· != ch '0')), (Option.some.inj h).symm,
    fun hoptional => decimalValue_ne_zero hds.2 ?_⟩
  have hlt : (ds ++ t).findIdx (· != ch '0') < ds.length := by simpa using hoptional
  rw [List.findIdx_append] at hlt
  split_ifs at hlt with hd
  · exact hd
  · omega

/-- The literal scan reads every quantifier, and takes it for optional when it can repeat its atom
zero times. -/
theorem parseQuantifier_prefix {p rest : Str} {min : ℕ} {max : Option ℕ} {q : Quantifier}
    (hp : QuantifierPrefix p min max) (h : parseQuantifier (p ++ rest) = some q) :
    ∃ optional, q = lazyForm rest optional ∧ (optional = false → min ≠ 0) := by
  cases hp with
  | star | opt => exact ⟨true, (Option.some.inj h).symm, fun h => by cases h⟩
  | plus => exact ⟨false, (Option.some.inj h).symm, fun _ => Nat.one_ne_zero⟩
  | @exact ds hds =>
    refine parseQuantifier_braces (t := []) hds (by simp) (by simp) ?_
    simpa [byte_eq_ch] using h
  | @atLeast ds hds =>
    refine parseQuantifier_braces (t := [ch ',']) hds (by decide +kernel) (by simp) ?_
    simpa [byte_eq_ch] using h
  | @between ds es hds hes hle =>
    refine parseQuantifier_braces (t := ch ',' :: es) hds ?_ (by simp) ?_
    · intro c hc
      rcases List.mem_cons.mp hc with rfl | hc
      · decide
      · exact ⟨(brace_bytes hes c hc).1, (brace_bytes hes c hc).2.2⟩
    · simpa [byte_eq_ch] using h

/-- The literal scan reads what follows an atom as the quantifier of a repetition. -/
def QuantifiedBy (p : Str) (min : ℕ) : Prop :=
  p ≠ [] ∧ ∀ rest q, Unquantified rest → parseQuantifier (p ++ rest) = some q →
    q.rest = rest ∧ (q.optional = false → min ≠ 0)

theorem quantifiedBy_greedy {p : Str} {min : ℕ} {max : Option ℕ} (hp : QuantifierPrefix p min max) :
    QuantifiedBy p min := by
  refine ⟨by cases hp <;> simp, fun rest q hrest h => ?_⟩
  obtain ⟨optional, rfl, hmin⟩ := parseQuantifier_prefix hp h
  rw [lazyForm_of_unquantified hrest]
  exact ⟨rfl, hmin⟩

theorem quantifiedBy_lazy {p : Str} {min : ℕ} {max : Option ℕ} (hp : QuantifierPrefix p min max) :
    QuantifiedBy (p ++ [ch '?']) min := by
  refine ⟨by simp, fun rest q _ h => ?_⟩
  rw [List.append_assoc, List.singleton_append] at h
  obtain ⟨optional, rfl, hmin⟩ := parseQuantifier_prefix hp h
  exact ⟨rfl, hmin⟩

/-- A repetition that must repeat is allowed to. -/
theorem max_ne_zero {p : Str} {min : ℕ} {max : Option ℕ} (hp : QuantifierPrefix p min max)
    (hmin : min ≠ 0) : max ≠ some 0 := by
  cases hp with
  | star | plus | atLeast => simp
  | opt => simp
  | exact => simpa using hmin
  | between hds hes hle => simp; omega

/-! ### The literal scan -/

theorem lower_eq_fold : lower = fold := by
  funext c
  rw [lower, fold, byte_eq_ch]
  exact if_congr (by simp only [Bool.and_eq_true, decide_eq_true_eq]) rfl rfl

theorem canonicalize_eq (icase : Bool) : canonicalize icase = if icase then fold else id := by
  rw [canonicalize, lower_eq_fold]

section

variable (T : Traits) (icase : Bool) (s : Str)

/-- The subject as comparisons see it. -/
def canon : Str := s.map (canonicalize icase)

/-- The run ends the subject up to the position, and the best run occurs in the subject. -/
structure Collected (pos : ℕ) (best run : Str) : Prop where
  run_suffix : run <:+ (canon icase s).take pos
  infix_best : best <:+: canon icase s

variable {icase s}

theorem infix_of_take {pos : ℕ} {run : Str} (h : run <:+ (canon icase s).take pos) :
    run <:+: canon icase s :=
  h.isInfix.trans (List.take_prefix pos _).isInfix

/-- A flush keeps the invariant wherever matching goes on. -/
theorem Collected.flush {best run : Str} (hbest : best <:+: canon icase s)
    (hrun : run <:+: canon icase s) (pos : ℕ) : Collected icase s pos (flush best run) [] := by
  refine ⟨List.nil_suffix, ?_⟩
  rw [Util.flush]
  split_ifs
  · exact hrun
  · exact hbest

/-- A byte that matched extends what was matched before it. -/
theorem suffix_take_succ {c : UInt8} {x y : State} {run : Str}
    (hy : y ∈ results T icase s (.char c) x) (hrun : run <:+ (canon icase s).take x.pos) :
    y.pos = x.pos + 1 ∧ run ++ [canonicalize icase c] <:+ (canon icase s).take (x.pos + 1) := by
  rw [results, advance] at hy
  split at hy
  case h_1 => cases hy
  case h_2 d hd =>
    split_ifs at hy with hc
    · rw [List.mem_singleton.mp hy]
      refine ⟨rfl, ?_⟩
      have hget : (canon icase s)[x.pos]? = some (canonicalize icase c) := by
        rw [canon, List.getElem?_map, hd, Option.map_some, eq_of_beq hc]
      rw [List.take_add_one, hget, Option.toList_some]
      obtain ⟨before, hbefore⟩ := hrun
      exact ⟨before, by rw [← hbefore, List.append_assoc]⟩
    · cases hy

/-- One round of the loop: the scan gives up, or reads the term and keeps the invariant across
every match of it. -/
def StepsOver (p : Str) (a : Node) : Prop :=
  ∀ (icase : Bool) (fuel : ℕ) (best run rest : Str), Unquantified rest →
    literalLoop icase (fuel + 1) (p ++ rest) best run = [] ∨
      ∃ best' run', literalLoop icase (fuel + 1) (p ++ rest) best run =
          literalLoop icase fuel rest best' run' ∧
        ∀ s x y, y ∈ results T icase s a x → Collected icase s x.pos best run →
          Collected icase s y.pos best' run'

theorem stepsOver_atom {p : Str} {a : Node} (hp : ScannedAs p a) : StepsOver T p a := by
  obtain ⟨c, q, rfl, -, hscan⟩ := hp
  intro icase fuel best run rest hrest
  rw [List.cons_append, literalLoop]
  cases hatom : scanAtom c (q ++ rest) with
  | none => exact Or.inl rfl
  | some atom =>
    obtain ⟨literal, next⟩ := atom
    obtain ⟨rfl, hliteral⟩ := hscan rest literal next hatom
    right
    simp only [parseQuantifier_of_unquantified hrest, bne_self_eq_false, Bool.or_false,
      Bool.not_false, Bool.and_true]
    cases hprintable : literal.any isPrintable with
    | false => exact ⟨_, _, rfl,
        fun s x y _ h => .flush h.infix_best (infix_of_take h.run_suffix) _⟩
    | true =>
      obtain ⟨b, rfl, -⟩ := (Option.any_eq_true _ _).mp hprintable
      cases hliteral b rfl
      refine ⟨_, _, rfl, fun s x y hy h => ?_⟩
      obtain ⟨hpos, hrun⟩ := suffix_take_succ T hy h.run_suffix
      rw [hpos, if_pos rfl, ← canonicalize_eq]
      exact ⟨hrun, h.infix_best⟩

theorem stepsOver_repetition {p q : Str} {a : Node} {min : ℕ} {max : Option ℕ} {greedy : Bool}
    (hp : ScannedAs p a) (hq : QuantifiedBy q min) (hmax : min ≠ 0 → max ≠ some 0) :
    StepsOver T (p ++ q) (.rep min max greedy a) := by
  obtain ⟨c, p, rfl, -, hscan⟩ := hp
  intro icase fuel best run rest hrest
  rw [List.append_assoc, List.cons_append, literalLoop]
  cases hatom : scanAtom c (p ++ (q ++ rest)) with
  | none => exact Or.inl rfl
  | some atom =>
    obtain ⟨literal, next⟩ := atom
    obtain ⟨rfl, hliteral⟩ := hscan (q ++ rest) literal next hatom
    dsimp only
    cases hquantifier : parseQuantifier (q ++ rest) with
    | none => exact Or.inl rfl
    | some quantifier =>
      obtain ⟨hnext, hmin⟩ := hq.2 rest quantifier hrest hquantifier
      have hconsumed : quantifier.rest ≠ q ++ rest := by
        rw [hnext]
        exact fun h => hq.1 (List.self_eq_append_left.mp h)
      right
      dsimp only
      rw [if_pos (by rw [bne_iff_ne.mpr hconsumed, Bool.or_true]), hnext]
      refine ⟨_, _, rfl, fun s x y hy h => .flush h.infix_best ?_ _⟩
      rw [← canonicalize_eq]
      split_ifs with hpushed
      · -- the first repeat matched the literal
        obtain ⟨hprintable, hrequired⟩ := Bool.and_eq_true_iff.mp hpushed
        obtain ⟨b, rfl, -⟩ := (Option.any_eq_true _ _).mp hprintable
        cases hliteral b rfl
        have hne : min ≠ 0 := hmin (by simpa using hrequired)
        obtain ⟨z, w, hw, hz⟩ := exists_results_of_rep T icase hy hne (hmax hne)
        rw [← hw] at h
        exact infix_of_take (suffix_take_succ T hz h.run_suffix).2
      · exact infix_of_take h.run_suffix

/-- The loop reads every term in one round. -/
theorem stepsOver_of_term {k k' : ℕ} {p : Str} {a : Node} (h : Term k p a k') :
    StepsOver T p a := by
  cases h with
  | assertion h => exact stepsOver_atom T (scannedAs_of_assertion h)
  | atom h => exact stepsOver_atom T (scannedAs_of_atom h)
  | greedy h hq =>
    exact stepsOver_repetition T (scannedAs_of_atom h) (quantifiedBy_greedy hq) (max_ne_zero hq)
  | «lazy» h hq =>
    exact stepsOver_repetition T (scannedAs_of_atom h) (quantifiedBy_lazy hq) (max_ne_zero hq)

theorem unquantified_of_scannedAs {p : Str} {a : Node} (h : ScannedAs p a) (rest : Str) :
    p ≠ [] ∧ Unquantified (p ++ rest) := by
  obtain ⟨c, q, rfl, hc, -⟩ := h
  refine ⟨List.cons_ne_nil c q, fun d hd => ?_⟩
  cases hd
  exact hc

theorem unquantified_of_term {k k' : ℕ} {p : Str} {a : Node} (h : Term k p a k') (rest : Str) :
    p ≠ [] ∧ Unquantified (p ++ rest) := by
  cases h with
  | assertion h => exact unquantified_of_scannedAs (scannedAs_of_assertion h) rest
  | atom h => exact unquantified_of_scannedAs (scannedAs_of_atom h) rest
  | greedy h hq | «lazy» h hq =>
    rw [List.append_assoc]
    obtain ⟨hne, hhead⟩ := unquantified_of_scannedAs (scannedAs_of_atom h) (_ ++ rest)
    exact ⟨by simp [hne], hhead⟩

theorem unquantified_of_alternative {k k' : ℕ} {p rest : Str} {a : Node}
    (h : Alternative k p a k') (hrest : Unquantified rest) : Unquantified (p ++ rest) := by
  cases h with
  | empty => exact hrest
  | term h h' =>
    rw [List.append_assoc]
    exact (unquantified_of_term h _).2

/-- What the loop does over a sequence of terms, in at most a turn for each byte: it gives up, or
keeps its invariant. -/
def StepsThrough (p : Str) (a : Node) : Prop :=
  ∀ (icase : Bool) (fuel : ℕ) (best run rest : Str), Unquantified rest →
    p.length ≤ fuel → literalLoop icase fuel (p ++ rest) best run = [] ∨
      ∃ fuel' best' run', fuel ≤ fuel' + p.length ∧
        literalLoop icase fuel (p ++ rest) best run = literalLoop icase fuel' rest best' run' ∧
        ∀ s x y, y ∈ results T icase s a x → Collected icase s x.pos best run →
          Collected icase s y.pos best' run'

theorem stepsThrough_empty : StepsThrough T [] .empty := by
  intro icase fuel best run rest _ _
  refine Or.inr ⟨fuel, best, run, Nat.le_add_right .., rfl, fun s x y hy h => ?_⟩
  rw [results, List.mem_singleton] at hy
  rwa [hy]

theorem stepsThrough_term {k k' k'' : ℕ} {p q : Str} {a b : Node} (ha : Term k p a k')
    (hb : Alternative k' q b k'') (hq : StepsThrough T q b) :
    StepsThrough T (p ++ q) (.seq a b) := by
  intro icase fuel best run rest hrest hfuel
  have hpos : 0 < p.length := List.length_pos_of_ne_nil (unquantified_of_term ha rest).1
  rw [List.length_append] at hfuel
  obtain ⟨fuel, rfl⟩ : ∃ f, fuel = f + 1 := ⟨fuel - 1, by omega⟩
  rw [List.append_assoc]
  rcases stepsOver_of_term T ha icase fuel best run (q ++ rest)
    (unquantified_of_alternative hb hrest) with hnil | ⟨best', run', hloop, hstep⟩
  · exact Or.inl hnil
  · rw [hloop]
    rcases hq icase fuel best' run' rest hrest (by omega) with
      hnil | ⟨fuel', best'', run'', hfuel', hloop', hrun⟩
    · exact Or.inl hnil
    · refine Or.inr ⟨fuel', best'', run'', by rw [List.length_append]; omega, hloop',
        fun s x y hy h => ?_⟩
      rw [results] at hy
      obtain ⟨z, hz, hy⟩ := List.mem_flatMap.mp hy
      exact hrun s z y hy (hstep s x z hz h)

/-- **The loop keeps its invariant over a sequence of terms**, or gives up. -/
theorem literalLoop_alternative {k k' : ℕ} {p : Str} {a : Node} :
    Alternative k p a k' → StepsThrough T p a
  | .empty => stepsThrough_empty T
  | .term ha hb => stepsThrough_term T ha hb (literalLoop_alternative hb)

/-- A literal the scan returns occurs in every subject the pattern matches. -/
theorem infix_requiredLiteral {p : Str} {a : Node} (hp : Derives p a) {icase : Bool} {s : Str}
    (h : found T icase s a) : requiredLiteral p icase <:+: canon icase s := by
  obtain ⟨k, hp⟩ := hp
  obtain ⟨i, -, y, hy⟩ := (found_iff T icase a).mp h
  have hstart : Collected icase s i [] [] := ⟨List.nil_suffix, List.nil_infix⟩
  rw [requiredLiteral]
  cases hp with
  | one hp =>
    rcases literalLoop_alternative T hp icase p.length [] [] [] (by simp [Unquantified]) le_rfl with
      hnil | ⟨fuel, best, run, -, hloop, hrun⟩
    · rw [List.append_nil] at hnil
      rw [hnil]
      exact List.nil_infix
    · rw [List.append_nil] at hloop
      obtain ⟨hsuffix, hbest⟩ := hrun s _ y hy hstart
      have hflush := (Collected.flush hbest (infix_of_take hsuffix) y.pos).infix_best
      rw [hloop]
      cases fuel <;> exact hflush
  | @alt k k' _ p q a b hp hq =>
    -- a bar at the top level makes the scan give up
    rcases literalLoop_alternative T hp icase (p ++ byte '|' :: q).length [] [] (byte '|' :: q)
      (by unfold Unquantified; simp; decide)
        (by simp) with hnil | ⟨fuel, best, run, hfuel, hloop, -⟩
    · rw [hnil]
      exact List.nil_infix
    · obtain ⟨fuel, rfl⟩ : ∃ f, fuel = f + 1 :=
        ⟨fuel - 1, by rw [List.length_append, List.length_cons] at hfuel; omega⟩
      rw [hloop]
      exact List.nil_infix

end

/-! ### The containment test -/

theorem findStr_isSome_iff (s t : Str) : (Str.findStr s t).isSome ↔ t <:+: s := by
  induction s with
  | nil =>
    rw [Str.findStr]
    split_ifs with h
    · exact iff_of_true rfl (List.isPrefixOf_iff_prefix.mp h).isInfix
    · refine iff_of_false Bool.false_ne_true fun hinfix => h ?_
      rw [List.infix_nil.mp hinfix]
      rfl
  | cons c s ih =>
    rw [Str.findStr, List.infix_cons_iff, ← List.isPrefixOf_iff_prefix]
    split_ifs with h
    · exact iff_of_true rfl (Or.inl h)
    · simp [h, ih]

theorem fold_fold (c : UInt8) : fold (fold c) = fold c := by
  have h : ∀ c : Fin 256, fold (fold ⟨⟨c⟩⟩) = fold ⟨⟨c⟩⟩ := by decide +kernel
  exact h c.toFin

theorem canonicalize_canonicalize (icase : Bool) (c : UInt8) :
    canonicalize icase (canonicalize icase c) = canonicalize icase c := by
  rw [canonicalize_eq]
  cases icase with
  | false => rfl
  | true => exact fold_fold c

theorem containsLiteral_iff (s t : Str) (icase : Bool) :
    containsLiteral s t icase ↔ t.map (canonicalize icase) <:+: canon icase s := by
  have hempty : t = [] → t.map (canonicalize icase) <:+: canon icase s := by
    rintro rfl
    exact List.nil_infix
  have hsearch : (if !icase then (Str.findStr s t).isSome
      else (Str.findStr (s.map fold) (t.map fold)).isSome) ↔
      t.map (canonicalize icase) <:+: canon icase s := by
    cases icase with
    | false =>
      rw [canon, canonicalize_eq, if_neg Bool.false_ne_true, List.map_id, List.map_id]
      exact findStr_isSome_iff s t
    | true =>
      rw [canon, canonicalize_eq, if_pos rfl]
      exact findStr_isSome_iff (s.map fold) (t.map fold)
  rw [containsLiteral, Bool.or_eq_true, List.isEmpty_iff, hsearch]
  exact or_iff_right_of_imp hempty

/-- **A subject in which the pattern matches contains the required literal.** -/
theorem containsLiteral_of_found (T : Traits) {p : Str} {a : Node} (hp : Derives p a) {icase : Bool}
    {s : Str} (h : found T icase s a) : containsLiteral s (requiredLiteral p icase) icase := by
  have hcanon : (canon icase s).map (canonicalize icase) = canon icase s := by
    rw [canon, List.map_map]
    exact List.map_congr_left fun c _ => canonicalize_canonicalize icase c
  rw [containsLiteral_iff, ← hcanon]
  exact (infix_requiredLiteral T hp h).map (canonicalize icase)

end Papa.Util
