import Papa.Util.YamlScalar

/-!
# The quotes the line scanners track

The scanners for comments and for keys run over a line with one automaton, which knows the quotes it
is inside of and whether a backslash inside quotation marks escapes the next byte. Both look for
their mark only outside quotes, wherever on the line a quote stands.

## Main definitions

* `Papa.Util.Yaml.QuoteState`: the state of the automaton.
* `Papa.Util.Yaml.scanComment`, `Papa.Util.Yaml.scanKey`: the scanners on the automaton.
* `Papa.Util.Yaml.BalancedQuotes`: a text that leaves the automaton outside quotes.
* `Papa.Util.Yaml.Enclosed`: a text that is inside quotes.
* `Papa.Util.Yaml.NoKeyMark`: a text without a key separator outside quotes.

## Main results

* `Papa.Util.Yaml.stripInlineComment_eq`, `Papa.Util.Yaml.splitKey_eq`: the source's scanners are
  these.
* `Papa.Util.Yaml.scanComment_append`, `Papa.Util.Yaml.scanKey_append`: a scanner runs on where the
  first part of a line has no mark.
* `Papa.Util.Yaml.scanKey_eq_none_iff`: when a text is no entry of a mapping.
-/

namespace Papa.Util.Yaml

/-! ### The automaton -/

/-- Where a scanner stands. -/
inductive QuoteState
  | outside
  | inSingle
  | inDouble
  | escaped
  deriving DecidableEq

namespace QuoteState

/-- Pass one byte. -/
def step : QuoteState → UInt8 → QuoteState
  | outside, c =>
    if c = kSingleQuote then inSingle else if c = kDoubleQuote then inDouble else outside
  | inSingle, c => if c = kSingleQuote then outside else inSingle
  | inDouble, c => if c = ch '\\' then escaped else if c = kDoubleQuote then outside else inDouble
  | escaped, _ => inDouble

/-- Pass a text. -/
def run (q : QuoteState) (s : Str) : QuoteState := s.foldl step q

@[simp] theorem run_nil (q : QuoteState) : q.run [] = q := rfl

@[simp] theorem run_cons (q : QuoteState) (c : UInt8) (s : Str) :
    q.run (c :: s) = (q.step c).run s := rfl

theorem run_append (q : QuoteState) (s t : Str) : q.run (s ++ t) = (q.run s).run t :=
  List.foldl_append

/-- A byte that is no quote keeps the state, where it leads outside quotes. -/
theorem step_eq_outside_iff {c : UInt8} (hsingle : c ≠ kSingleQuote) (hdouble : c ≠ kDoubleQuote)
    (q : QuoteState) : q.step c = outside ↔ q = outside := by
  cases q with
  | outside => simp [step, hsingle, hdouble]
  | inSingle => simp [step, hsingle]
  | inDouble =>
    simp only [step, hdouble, if_false]
    split_ifs <;> decide
  | escaped => simp [step]

/-- A text without quotes keeps the state, where it leads outside quotes. -/
theorem run_eq_outside_iff {s : Str} (hs : ∀ c ∈ s, c ≠ kSingleQuote ∧ c ≠ kDoubleQuote)
    (q : QuoteState) : q.run s = outside ↔ q = outside := by
  induction s generalizing q with
  | nil => rfl
  | cons c s ih =>
    obtain ⟨⟨hsingle, hdouble⟩, hs⟩ := List.forall_mem_cons.mp hs
    rw [run_cons, ih hs, step_eq_outside_iff hsingle hdouble]

end QuoteState

open QuoteState

/-- The quotes of a text are closed in it. -/
def BalancedQuotes (s : Str) : Prop := outside.run s = outside

instance (s : Str) : Decidable (BalancedQuotes s) :=
  inferInstanceAs (Decidable (outside.run s = outside))

/-! ### The scanners -/

/-- What comes before the first hash sign outside quotes that follows a space. -/
def scanComment (q : QuoteState) (before : UInt8) : Str → Str
  | [] => []
  | c :: rest =>
    if q = outside ∧ c = ch '#' ∧ before = ch ' ' then [] else c :: scanComment (q.step c) c rest

/-- What comes before the first colon outside quotes that ends the text or is followed by a space,
and what comes after that colon and the spaces. -/
def scanKey (q : QuoteState) : Str → Option (Str × Str)
  | [] => none
  | c :: rest =>
    if q = outside ∧ c = ch ':' ∧ (rest = [] ∨ rest.head? = some (ch ' ')) then
      some ([], rest.dropWhile (· == ch ' '))
    else (scanKey (q.step c) rest).map fun (k, v) => (c :: k, v)

theorem scanComment_cons {q : QuoteState} {before c : UInt8}
    (h : ¬(q = outside ∧ c = ch '#' ∧ before = ch ' ')) (rest : Str) :
    scanComment q before (c :: rest) = c :: scanComment (q.step c) c rest :=
  if_neg h

theorem scanKey_cons {q : QuoteState} {c : UInt8} {rest : Str}
    (h : ¬(q = outside ∧ c = ch ':' ∧ (rest = [] ∨ rest.head? = some (ch ' ')))) :
    scanKey q (c :: rest) = (scanKey (q.step c) rest).map fun (k, v) => (c :: k, v) :=
  if_neg h

theorem scanKey_skip {q : QuoteState} {c : UInt8} (h : q ≠ outside ∨ c ≠ ch ':') (rest : Str) :
    scanKey q (c :: rest) = (scanKey (q.step c) rest).map fun (k, v) => (c :: k, v) :=
  scanKey_cons fun hmark => h.elim (· hmark.1) (· hmark.2.1)

theorem beforeComment_eq {q : QuoteState} (hq : q ≠ escaped) (before : UInt8) (s : Str) :
    beforeComment (q == inSingle) (q == inDouble) before s = scanComment q before s := by
  generalize hsingle : (q == inSingle) = single, hdouble : (q == inDouble) = double
  fun_induction beforeComment single double before s generalizing q with
  | case1 => rfl
  | case2 single double before c hc | case3 single double before c hc =>
    subst hsingle hdouble
    cases q <;> simp_all [scanComment]
  | case4 single double before c d rest hc ih =>
    -- an escape takes two bytes
    subst hsingle hdouble
    obtain ⟨hslash, hdouble⟩ : c = ch '\\' ∧ q = inDouble := by simpa using hc
    subst hslash hdouble
    rw [ih hq rfl rfl]
    rfl
  | case5 single double before c d rest hslash hc ih =>
    subst hsingle hdouble
    cases q with
    | escaped => exact absurd rfl hq
    | inDouble => simp at hc
    | outside =>
      obtain rfl : c = kSingleQuote := by simpa using hc
      rw [@ih inSingle nofun rfl rfl]
      rfl
    | inSingle =>
      obtain rfl : c = kSingleQuote := by simpa using hc
      rw [@ih outside nofun rfl rfl]
      rfl
  | case6 single double before c d rest hslash _ hc ih =>
    subst hsingle hdouble
    cases q with
    | escaped => exact absurd rfl hq
    | inSingle => simp at hc
    | outside =>
      obtain rfl : c = kDoubleQuote := by simpa using hc
      rw [@ih inDouble nofun rfl rfl]
      rfl
    | inDouble =>
      obtain rfl : c = kDoubleQuote := by simpa using hc
      rw [@ih outside nofun rfl rfl]
      rfl
  | case7 single double before c d rest _ _ _ hc =>
    subst hsingle hdouble
    cases q <;> simp_all [scanComment]
  | case8 single double before c d rest hslash hs hd hc ih =>
    subst hsingle hdouble
    -- the byte is no mark and leaves the state as it is
    have hstep : q.step c = q := by
      cases q <;> simp_all [step]
    have hno : ¬(q = outside ∧ c = ch '#' ∧ before = ch ' ') := by
      rintro ⟨rfl, rfl, rfl⟩
      exact absurd hc (by decide)
    rw [ih hq rfl rfl, scanComment_cons hno, hstep]

theorem splitKeyFrom_eq {q : QuoteState} (hq : q ≠ escaped) (s : Str) :
    splitKeyFrom (q == inSingle) (q == inDouble) s = scanKey q s := by
  generalize hsingle : (q == inSingle) = single, hdouble : (q == inDouble) = double
  fun_induction splitKeyFrom single double s generalizing q with
  | case1 => rfl
  | case2 single double c hc | case3 single double c hc =>
    subst hsingle hdouble
    cases q <;> simp_all [scanKey]
  | case4 single double c d rest hc ih =>
    -- an escape takes two bytes
    subst hsingle hdouble
    obtain ⟨hslash, hdouble⟩ : c = ch '\\' ∧ q = inDouble := by simpa using hc
    subst hslash hdouble
    have hinside : inDouble ≠ outside ∧ escaped ≠ outside := by decide
    rw [ih hq rfl rfl, scanKey_skip (Or.inl hinside.1)]
    change _ = (scanKey escaped (d :: rest)).map _
    rw [scanKey_skip (Or.inl hinside.2), Option.map_map]
    rfl
  | case5 single double c d rest hslash hc ih =>
    subst hsingle hdouble
    cases q with
    | escaped => exact absurd rfl hq
    | inDouble => simp at hc
    | outside =>
      obtain rfl : c = kSingleQuote := by simpa using hc
      have hmark : kSingleQuote ≠ ch ':' := by decide
      rw [@ih inSingle (by decide) rfl rfl, scanKey_skip (Or.inr hmark)]
      rfl
    | inSingle =>
      obtain rfl : c = kSingleQuote := by simpa using hc
      have hinside : inSingle ≠ outside := by decide
      rw [@ih outside (by decide) rfl rfl, scanKey_skip (Or.inl hinside)]
      rfl
  | case6 single double c d rest hslash _ hc ih =>
    subst hsingle hdouble
    cases q with
    | escaped => exact absurd rfl hq
    | inSingle => simp at hc
    | outside =>
      obtain rfl : c = kDoubleQuote := by simpa using hc
      have hmark : kDoubleQuote ≠ ch ':' := by decide
      rw [@ih inDouble (by decide) rfl rfl, scanKey_skip (Or.inr hmark)]
      rfl
    | inDouble =>
      obtain rfl : c = kDoubleQuote := by simpa using hc
      have hinside : inDouble ≠ outside := by decide
      rw [@ih outside (by decide) rfl rfl, scanKey_skip (Or.inl hinside)]
      rfl
  | case7 single double c d rest _ _ _ hc =>
    subst hsingle hdouble
    cases q <;> simp_all [scanKey]
  | case8 single double c d rest hslash hs hd hc ih =>
    subst hsingle hdouble
    -- the byte is no mark and leaves the state as it is
    have hstep : q.step c = q := by
      cases q <;> simp_all [step]
    have hno : ¬(q = outside ∧ c = ch ':' ∧
      (d :: rest = [] ∨ (d :: rest).head? = some (ch ' '))) := by
      rintro ⟨rfl, rfl, hnil | hspace⟩
      · exact List.cons_ne_nil _ _ hnil
      · obtain rfl := Option.some.inj hspace
        exact absurd hc (by decide)
    rw [ih hq rfl rfl, scanKey_cons hno, hstep]

/-- **Comments are found with the automaton.** -/
theorem stripInlineComment_eq (s : Str) :
    stripInlineComment s = rstripSpaces (scanComment outside (ch ' ') s) :=
  congrArg rstripSpaces (beforeComment_eq (q := outside) nofun _ s)

/-- **Keys are found with the automaton.** -/
theorem splitKey_eq (s : Str) : splitKey s = scanKey outside s :=
  @splitKeyFrom_eq outside nofun s

/-! ### Lines in two parts -/

/-- The scanner for comments runs on where a hash sign after a space stands in the second part. -/
theorem scanComment_append {p : Str} {before : UInt8} (h : ¬str " #" <:+: before :: p)
    (q : QuoteState) (t : Str) :
    scanComment q before (p ++ t) =
      p ++ scanComment (q.run p) ((before :: p).getLast (List.cons_ne_nil _ _)) t := by
  induction p generalizing before q with
  | nil => rfl
  | cons c p ih =>
    have hno : ¬(q = outside ∧ c = ch '#' ∧ before = ch ' ') := by
      rintro ⟨-, rfl, rfl⟩
      exact h (List.prefix_append _ p).isInfix
    have htail : ¬str " #" <:+: c :: p := fun hinfix => h (List.infix_cons hinfix)
    rw [List.cons_append, scanComment_cons hno, ih htail]
    rfl

/-- The scanner for keys runs on where a colon before a space stands in the second part. -/
theorem scanKey_append {p : Str} {d : UInt8} (h : ¬str ": " <:+: p ++ [d]) (q : QuoteState)
    (t : Str) :
    scanKey q (p ++ d :: t) = (scanKey (q.run p) (d :: t)).map fun (k, v) => (p ++ k, v) := by
  induction p generalizing q with
  | nil => exact Option.map_id'.symm
  | cons c p ih =>
    have hno : ¬(q = outside ∧ c = ch ':' ∧
        (p ++ d :: t = [] ∨ (p ++ d :: t).head? = some (ch ' '))) := by
      rintro ⟨-, rfl, hnil | hspace⟩
      · exact List.append_ne_nil_of_right_ne_nil p (List.cons_ne_nil d t) hnil
      · refine h ?_
        cases p with
        | nil =>
          obtain rfl := Option.some.inj hspace
          exact List.infix_rfl
        | cons e p =>
          obtain rfl := Option.some.inj hspace
          exact (List.prefix_append (str ": ") (p ++ [d])).isInfix
    have htail : ¬str ": " <:+: p ++ [d] := fun hinfix => h (List.infix_cons hinfix)
    rw [List.cons_append, scanKey_cons hno, ih htail, Option.map_map]
    rfl

/-- A text without a key separator has none with a byte more, unless the two make one. -/
theorem noKey_concat {p : Str} {d : UInt8} (hp : ¬str ": " <:+: p)
    (h : d = ch ' ' → p.getLast? ≠ some (ch ':')) : ¬str ": " <:+: p ++ [d] := by
  intro hinfix
  rcases List.infix_concat_iff.mp hinfix with ⟨t, ht⟩ | hinfix
  · change t ++ ([ch ':'] ++ [ch ' ']) = p ++ [d] at ht
    rw [← List.append_assoc] at ht
    obtain ⟨rfl, hd⟩ := List.append_inj' ht rfl
    exact h (List.cons.inj hd).1.symm (by simp)
  · exact hp hinfix

/-- The key before a separator is split off exactly when its quotes are closed; otherwise what is
split off goes on behind the separator. -/
theorem splitKey_entry {k : Str} (hk : ¬str ": " <:+: k) (v : Str) :
    splitKey (k ++ ch ':' :: ch ' ' :: v) =
      if BalancedQuotes k then some (k, v.dropWhile (· == ch ' '))
      else (scanKey (outside.run (k ++ [ch ':'])) (ch ' ' :: v)).map
        fun (k', v) => (k ++ ch ':' :: k', v) := by
  rw [splitKey_eq, scanKey_append (noKey_concat hk fun h => absurd h (by decide))]
  split_ifs with hq
  · rw [scanKey, if_pos ⟨hq, rfl, Or.inr rfl⟩, List.dropWhile_cons_of_pos (by decide)]
    exact congrArg (fun k' => some (k', _)) (List.append_nil k)
  · rw [scanKey_skip (Or.inl hq), Option.map_map, run_append]
    rfl

/-! ### Texts a key scan passes over -/

/-- Every colon of the text is inside quotes. -/
def Passes : QuoteState → Str → Prop
  | _, [] => True
  | q, c :: s => (q ≠ outside ∨ c ≠ ch ':') ∧ Passes (q.step c) s

theorem Passes.append {q : QuoteState} {s t : Str} (hs : Passes q s) (ht : Passes (q.run s) t) :
    Passes q (s ++ t) := by
  induction s generalizing q with
  | nil => exact ht
  | cons c s ih => exact ⟨hs.1, ih hs.2 ht⟩

/-- The scanner for keys runs on over a text whose colons are inside quotes. -/
theorem Passes.scanKey {q : QuoteState} {p : Str} (hp : Passes q p) (t : Str) :
    scanKey q (p ++ t) = (scanKey (q.run p) t).map fun (k, v) => (p ++ k, v) := by
  induction p generalizing q with
  | nil => exact Option.map_id'.symm
  | cons c p ih =>
    rw [List.cons_append, scanKey_skip hp.1, ih hp.2, Option.map_map]
    rfl

/-- Every byte of the text that is no quote is inside quotes. -/
def Enclosed : QuoteState → Str → Prop
  | _, [] => True
  | q, c :: s => (q ≠ outside ∨ c = kSingleQuote ∨ c = kDoubleQuote) ∧ Enclosed (q.step c) s

namespace Enclosed

variable {q : QuoteState} {s t : Str}

theorem append (hs : Enclosed q s) (ht : Enclosed (q.run s) t) : Enclosed q (s ++ t) := by
  induction s generalizing q with
  | nil => exact ht
  | cons c s ih => exact ⟨hs.1, ih hs.2 ht⟩

theorem passes (hs : Enclosed q s) : Passes q s := by
  induction s generalizing q with
  | nil => trivial
  | cons c s ih =>
    refine ⟨hs.1.imp_right ?_, ih hs.2⟩
    rintro (rfl | rfl) <;> decide

/-- The scanner for comments runs on over a text whose hash signs are inside quotes. -/
theorem exists_scanComment (hs : Enclosed q s) (before : UInt8) (t : Str) :
    ∃ before', scanComment q before (s ++ t) = s ++ scanComment (q.run s) before' t := by
  induction s generalizing q before with
  | nil => exact ⟨before, rfl⟩
  | cons c s ih =>
    obtain ⟨before', hscan⟩ := ih hs.2 c
    have hno : ¬(q = outside ∧ c = ch '#' ∧ before = ch ' ') := by
      rintro ⟨rfl, rfl, -⟩
      exact absurd hs.1 (by decide)
    exact ⟨before', by rw [List.cons_append, scanComment_cons hno, hscan]; rfl⟩

end Enclosed

/-! ### Texts without a key -/

/-- Every colon of the text that is outside its quotes has a byte after it that is no space. -/
def NoKeyMark (s : Str) : Prop :=
  ∀ a b : Str, s = a ++ ch ':' :: b → BalancedQuotes a → b ≠ [] ∧ b.head? ≠ some (ch ' ')

theorem scanKey_eq_none_iff (q : QuoteState) (s : Str) :
    scanKey q s = none ↔ ∀ a b : Str, s = a ++ ch ':' :: b → q.run a = outside →
      b ≠ [] ∧ b.head? ≠ some (ch ' ') := by
  induction s generalizing q with
  | nil => exact iff_of_true rfl fun a b h => absurd h (by simp)
  | cons c s ih =>
    rw [scanKey]
    split_ifs with hmark
    · obtain ⟨rfl, rfl, hnext⟩ := hmark
      refine iff_of_false nofun fun h => ?_
      obtain ⟨hne, hspace⟩ := h [] s rfl rfl
      exact hnext.elim hne hspace
    · rw [Option.map_eq_none_iff, ih]
      constructor
      · rintro h (_ | ⟨e, a⟩) b heq hrun
        · obtain ⟨rfl, rfl⟩ := List.cons.inj heq
          exact ⟨fun hnil => hmark ⟨hrun, rfl, Or.inl hnil⟩,
            fun hspace => hmark ⟨hrun, rfl, Or.inr hspace⟩⟩
        · obtain ⟨rfl, rfl⟩ := List.cons.inj heq
          exact h a b rfl hrun
      · rintro h a b rfl hrun
        exact h (c :: a) b rfl hrun

end Papa.Util.Yaml
