import Mathlib.Data.List.Infix
import Mathlib.Data.List.TakeDrop
import Mathlib.Logic.Function.Basic
import Mathlib.Tactic.SplitIfs

/-!
# ECMAScript regular expressions over bytes

The grammar of the third edition of the language as C++ adopts it, and its backtracking semantics.
A matcher maps a position with its captures to the list of all ends it can reach, in the order in
which backtracking tries them. What depends on the locale, the bytes in a bracket expression and
whether `^` and `$` look at lines, is a parameter.

The grammar also takes a lone `]` or `}` for itself, as libraries do, and drops the restrictions by
lookahead, so that a text may have several readings; what is proved holds of each.

## Main definitions

* `EcmaRegex.Node`: syntax trees.
* `EcmaRegex.Derives`: the text of a pattern and its tree.
* `EcmaRegex.results`: the ends a tree reaches from a state.
* `EcmaRegex.found`: a match anywhere in a subject.

## Main results

* `EcmaRegex.results_rep`: repetition is the `RepeatMatcher` of the language.
* `EcmaRegex.exists_results_of_rep`: a repetition that must repeat starts with its body.
-/

namespace EcmaRegex

/-- The byte of an ASCII character. -/
def byte (c : Char) : UInt8 := c.toUInt8

/-- The bytes of an ASCII text. -/
def bytes (s : String) : List UInt8 := s.toList.map byte

/-! ### Syntax trees -/

/-- Assertions that look at the bytes around a position. -/
inductive Assertion
  | lineStart | lineEnd | wordBoundary | notWordBoundary

/-- Sets of bytes: `.`, the class escapes with their negations, and bracket expressions, which are
kept as text. -/
inductive ByteSet
  | any
  | digit (negated : Bool)
  | space (negated : Bool)
  | word (negated : Bool)
  | bracket (negated : Bool) (body : List UInt8)

/-- Syntax trees of patterns. -/
inductive Node
  | empty
  | seq (a b : Node)
  | alt (a b : Node)
  | char (c : UInt8)
  | set (k : ByteSet)
  | assertion (a : Assertion)
  | lookahead (positive : Bool) (a : Node)
  | group (index : ℕ) (a : Node)
  | backref (index : ℕ)
  | rep (min : ℕ) (max : Option ℕ) (greedy : Bool) (a : Node)

/-- The capture groups inside a tree. -/
def Node.groups : Node → List ℕ
  | .seq a b | .alt a b => a.groups ++ b.groups
  | .lookahead _ a | .rep _ _ _ a => a.groups
  | .group i a => i :: a.groups
  | _ => []

/-! ### The grammar -/

def IsDigit (c : UInt8) : Prop := byte '0' ≤ c ∧ c ≤ byte '9'

def IsLetter (c : UInt8) : Prop :=
  (byte 'a' ≤ c ∧ c ≤ byte 'z') ∨ (byte 'A' ≤ c ∧ c ≤ byte 'Z')

instance : DecidablePred IsDigit := fun _ => inferInstanceAs (Decidable (_ ∧ _))
instance : DecidablePred IsLetter := fun _ => inferInstanceAs (Decidable (_ ∨ _))

/-- The value of a hexadecimal digit. -/
def hexValue (c : UInt8) : Option ℕ :=
  if IsDigit c then some (c.toNat - 48)
  else if byte 'a' ≤ c ∧ c ≤ byte 'f' then some (c.toNat - 87)
  else if byte 'A' ≤ c ∧ c ≤ byte 'F' then some (c.toNat - 55)
  else none

/-- The text is a nonempty run of decimal digits. -/
def IsDecimal (ds : List UInt8) : Prop := ds ≠ [] ∧ ∀ d ∈ ds, IsDigit d

/-- The value of a run of decimal digits. -/
def decimalValue (ds : List UInt8) : ℕ := ds.foldl (fun n d => 10 * n + (d.toNat - 48)) 0

/-- The bytes that do not stand for themselves. -/
def syntaxBytes : List UInt8 := bytes "^$\\.*+?()[\x7b|"

/-- The body of a bracket expression: bytes, escapes, and the named elements `[:x:]`, `[.x.]` and
`[=x=]`. -/
inductive ClassBody : List UInt8 → Prop
  | nil : ClassBody []
  | plain {p : List UInt8} (c : UInt8) (hc : c ≠ byte '\\' ∧ c ≠ byte ']') (hp : ClassBody p) :
      ClassBody (c :: p)
  | escape {p : List UInt8} (e : UInt8) (hp : ClassBody p) : ClassBody (byte '\\' :: e :: p)
  | named {p : List UInt8} (d : UInt8) (name : List UInt8) (hd : d ∈ bytes ":.=")
      (hp : ClassBody p) :
      ClassBody (byte '[' :: d :: name ++ d :: byte ']' :: p)

/-- What may follow a backslash outside brackets, assertions aside. -/
inductive AtomEscape : List UInt8 → Node → Prop
  | null : AtomEscape [byte '0'] (.char 0)
  | backref {ds : List UInt8} (h : IsDecimal ds) : AtomEscape ds (.backref (decimalValue ds))
  | control {c d : UInt8}
      (h : (c, d) ∈ [(byte 'f', 12), (byte 'n', 10), (byte 'r', 13), (byte 't', 9),
        (byte 'v', 11)]) :
      AtomEscape [c] (.char d)
  | controlLetter {c : UInt8} (h : IsLetter c) : AtomEscape [byte 'c', c] (.char (c % 32))
  | hex {c d : UInt8} {m n : ℕ} (hc : hexValue c = some m) (hd : hexValue d = some n) :
      AtomEscape [byte 'x', c, d] (.char (.ofNat (16 * m + n)))
  | unicode {c d e f : UInt8} {m n : ℕ} (hc : (hexValue c).isSome) (hd : (hexValue d).isSome)
      (he : hexValue e = some m) (hf : hexValue f = some n) :
      AtomEscape [byte 'u', c, d, e, f] (.char (.ofNat (16 * m + n)))
  | identity {c : UInt8} (h : ¬ IsDigit c ∧ ¬ IsLetter c) : AtomEscape [c] (.char c)
  | set {c : UInt8} {k : ByteSet}
      (h : (c, k) ∈ [(byte 'd', .digit false), (byte 'D', .digit true), (byte 's', .space false),
        (byte 'S', .space true), (byte 'w', .word false), (byte 'W', .word true)]) :
      AtomEscape [c] (.set k)

/-- The text of an assertion. -/
inductive AssertionText : List UInt8 → Assertion → Prop
  | lineStart : AssertionText [byte '^'] .lineStart
  | lineEnd : AssertionText [byte '$'] .lineEnd
  | wordBoundary : AssertionText [byte '\\', byte 'b'] .wordBoundary
  | notWordBoundary : AssertionText [byte '\\', byte 'B'] .notWordBoundary

/-- The text of a quantifier without its lazy mark, and the least and greatest number of repeats. -/
inductive QuantifierPrefix : List UInt8 → ℕ → Option ℕ → Prop
  | star : QuantifierPrefix [byte '*'] 0 none
  | plus : QuantifierPrefix [byte '+'] 1 none
  | opt : QuantifierPrefix [byte '?'] 0 (some 1)
  | exact {ds : List UInt8} (h : IsDecimal ds) :
      QuantifierPrefix (byte '{' :: ds ++ [byte '}']) (decimalValue ds) (some (decimalValue ds))
  | atLeast {ds : List UInt8} (h : IsDecimal ds) :
      QuantifierPrefix (byte '{' :: ds ++ [byte ',', byte '}']) (decimalValue ds) none
  | between {ds es : List UInt8} (hd : IsDecimal ds) (he : IsDecimal es)
      (hle : decimalValue ds ≤ decimalValue es) :
      QuantifierPrefix (byte '{' :: ds ++ byte ',' :: es ++ [byte '}']) (decimalValue ds)
        (some (decimalValue es))

mutual

/-- Alternatives separated by `|`, between two counts of the capture groups opened so far. -/
inductive Disjunction : ℕ → List UInt8 → Node → ℕ → Prop
  | one {k k' : ℕ} {p : List UInt8} {a : Node} (ha : Alternative k p a k') : Disjunction k p a k'
  | alt {k k' k'' : ℕ} {p q : List UInt8} {a b : Node} (ha : Alternative k p a k')
      (hb : Disjunction k' q b k'') : Disjunction k (p ++ byte '|' :: q) (.alt a b) k''

/-- A sequence of terms. -/
inductive Alternative : ℕ → List UInt8 → Node → ℕ → Prop
  | empty {k : ℕ} : Alternative k [] .empty k
  | term {k k' k'' : ℕ} {p q : List UInt8} {a b : Node} (ha : Term k p a k')
      (hb : Alternative k' q b k'') : Alternative k (p ++ q) (.seq a b) k''

/-- An assertion, or an atom with at most one quantifier. -/
inductive Term : ℕ → List UInt8 → Node → ℕ → Prop
  | assertion {k : ℕ} {p : List UInt8} {a : Assertion} (h : AssertionText p a) :
      Term k p (.assertion a) k
  | atom {k k' : ℕ} {p : List UInt8} {a : Node} (h : Atom k p a k') : Term k p a k'
  | greedy {k k' min : ℕ} {p q : List UInt8} {a : Node} {max : Option ℕ} (h : Atom k p a k')
      (hq : QuantifierPrefix q min max) : Term k (p ++ q) (.rep min max true a) k'
  | lazy {k k' min : ℕ} {p q : List UInt8} {a : Node} {max : Option ℕ} (h : Atom k p a k')
      (hq : QuantifierPrefix q min max) : Term k (p ++ (q ++ [byte '?'])) (.rep min max false a) k'

/-- What a quantifier applies to. -/
inductive Atom : ℕ → List UInt8 → Node → ℕ → Prop
  | char {k : ℕ} {c : UInt8} (h : c ∉ syntaxBytes) : Atom k [c] (.char c) k
  | any {k : ℕ} : Atom k [byte '.'] (.set .any) k
  | escape {k : ℕ} {p : List UInt8} {a : Node} (h : AtomEscape p a) : Atom k (byte '\\' :: p) a k
  | bracket {k : ℕ} {p : List UInt8} (h : ClassBody p) (hp : p.head? ≠ some (byte '^')) :
      Atom k (byte '[' :: p ++ [byte ']']) (.set (.bracket false p)) k
  | negatedBracket {k : ℕ} {p : List UInt8} (h : ClassBody p) :
      Atom k (byte '[' :: byte '^' :: p ++ [byte ']']) (.set (.bracket true p)) k
  | group {k k' : ℕ} {p : List UInt8} {a : Node} (h : Disjunction (k + 1) p a k') :
      Atom k (byte '(' :: p ++ [byte ')']) (.group (k + 1) a) k'
  | nonCapturing {k k' : ℕ} {p : List UInt8} {a : Node} (h : Disjunction k p a k') :
      Atom k (byte '(' :: byte '?' :: byte ':' :: p ++ [byte ')']) a k'
  | lookahead {k k' : ℕ} {p : List UInt8} {a : Node} (h : Disjunction k p a k') :
      Atom k (byte '(' :: byte '?' :: byte '=' :: p ++ [byte ')']) (.lookahead true a) k'
  | negativeLookahead {k k' : ℕ} {p : List UInt8} {a : Node} (h : Disjunction k p a k') :
      Atom k (byte '(' :: byte '?' :: byte '!' :: p ++ [byte ')']) (.lookahead false a) k'

end

/-- The text is a pattern with the given tree. -/
def Derives (p : List UInt8) (a : Node) : Prop := ∃ k, Disjunction 0 p a k

/-! ### Matching -/

/-- What matching takes from the locale. -/
structure Traits where
  inBracket : (body : List UInt8) → (icase : Bool) → UInt8 → Bool
  multiline : Bool

/-- A position in the subject and the bounds of the groups captured so far. -/
structure State where
  pos : ℕ
  caps : ℕ → Option (ℕ × ℕ)

/-- Forget the captures of some groups. -/
def State.clear (groups : List ℕ) (x : State) : State :=
  { x with caps := fun i => if i ∈ groups then none else x.caps i }

@[simp] theorem State.clear_pos (groups : List ℕ) (x : State) : (x.clear groups).pos = x.pos := rfl

/-- Lower an ASCII letter. -/
def lower (c : UInt8) : UInt8 :=
  if byte 'A' ≤ c ∧ c ≤ byte 'Z' then c - byte 'A' + byte 'a' else c

/-- The byte that comparisons see. -/
def canonicalize (icase : Bool) : UInt8 → UInt8 := if icase then lower else id

def isWord (c : UInt8) : Bool := decide (IsDigit c) || decide (IsLetter c) || c == byte '_'

def isLineTerminator (c : UInt8) : Bool := c == 10 || c == 13

def isSpace (c : UInt8) : Bool := c == 32 || (9 ≤ c && c ≤ 13)

/-- The byte belongs to the set. -/
def ByteSet.has (T : Traits) (icase : Bool) : ByteSet → UInt8 → Bool
  | any, c => !isLineTerminator c
  | digit negated, c => decide (IsDigit c) != negated
  | space negated, c => isSpace c != negated
  | word negated, c => isWord c != negated
  | bracket negated body, c => T.inBracket body icase c != negated

/-- The repetition of `body` at a state, as the language defines it: a repeat beyond the required
ones must consume something, and each repeat forgets the captures inside. -/
def repeatFrom (body : State → List State) (groups : List ℕ) (greedy : Bool) :
    (fuel min : ℕ) → (max : Option ℕ) → State → List State
  | 0, _, _, _ => []
  | fuel + 1, min, max, x =>
    if max = some 0 then [x]
    else
      let more := (body (x.clear groups)).flatMap fun y =>
        if min = 0 ∧ y.pos = x.pos then []
        else repeatFrom body groups greedy fuel (min - 1) (max.map (· - 1)) y
      if min ≠ 0 then more else if greedy then more ++ [x] else x :: more

section Matching

variable (T : Traits) (icase : Bool) (s : List UInt8)

/-- Consume one byte of which the predicate holds. -/
def advance (p : UInt8 → Bool) (x : State) : List State :=
  match s[x.pos]? with
  | none => []
  | some d => if p d then [{ x with pos := x.pos + 1 }] else []

/-- The byte at a position is there and is a word byte. -/
def wordAt (i : ℕ) : Bool := s[i]?.any isWord

/-- The assertion holds at a position. -/
def Assertion.holds (i : ℕ) : Assertion → Bool
  | lineStart => i == 0 || (T.multiline && s[i - 1]?.any isLineTerminator)
  | lineEnd => i == s.length || (T.multiline && s[i]?.any isLineTerminator)
  | wordBoundary => (i != 0 && wordAt s (i - 1)) != wordAt s i
  | notWordBoundary => (i != 0 && wordAt s (i - 1)) == wordAt s i

/-- Consume the text between two positions once more. -/
def matchAgain (bounds : ℕ × ℕ) (x : State) : List State :=
  let text := (s.take bounds.2).drop bounds.1
  if ((s.drop x.pos).take text.length).map (canonicalize icase) = text.map (canonicalize icase) then
    [{ x with pos := x.pos + text.length }]
  else []

/-- The steps left to a repetition that needs `min` more repeats. -/
def repeatFuel (min : ℕ) (x : State) : ℕ := min + (s.length - x.pos) + 1

/-- The ends a tree reaches from a state, in the order of backtracking. -/
def results : Node → State → List State
  | .empty, x => [x]
  | .seq a b, x => (results a x).flatMap fun y => results b y
  | .alt a b, x => results a x ++ results b x
  | .char c, x => advance s (fun d => canonicalize icase c == canonicalize icase d) x
  | .set k, x => advance s (k.has T icase) x
  | .assertion a, x => if a.holds T s x.pos then [x] else []
  | .lookahead positive a, x =>
      match (results a x).head? with
      | some y => if positive then [{ x with caps := y.caps }] else []
      | none => if positive then [] else [x]
  | .group i a, x =>
      (results a x).map fun y => { y with caps := Function.update y.caps i (some (x.pos, y.pos)) }
  | .backref i, x =>
      match x.caps i with
      | none => [x]
      | some bounds => matchAgain icase s bounds x
  | .rep min max greedy a, x =>
      repeatFrom (fun y => results a y) a.groups greedy (repeatFuel s min x) min max x

/-- The pattern matches somewhere in the subject. -/
def found (a : Node) : Bool :=
  (List.range (s.length + 1)).any fun i => !(results T icase s a ⟨i, fun _ => none⟩).isEmpty

/-! ### Progress -/

/-- The end lies at the start or after it, and then within the subject. -/
def Progress (x y : State) : Prop := y.pos = x.pos ∨ (x.pos < y.pos ∧ y.pos ≤ s.length)

variable {s}

theorem Progress.trans {x y z : State} (hxy : Progress s x y) (hyz : Progress s y z) :
    Progress s x z := by
  rw [Progress] at *
  omega

theorem progress_of_mem_advance {p : UInt8 → Bool} {x y : State} (h : y ∈ advance s p x) :
    Progress s x y := by
  rw [advance] at h
  split at h
  case h_1 => cases h
  case h_2 d hd =>
    split_ifs at h with hp
    · have hlt : x.pos < s.length := (List.getElem?_eq_some_iff.mp hd).1
      rw [List.mem_singleton.mp h]
      exact Or.inr ⟨by simp, hlt⟩
    · cases h

theorem progress_of_mem_repeatFrom {body : State → List State} {groups : List ℕ} {greedy : Bool}
    (hbody : ∀ x, ∀ y ∈ body x, Progress s x y) :
    ∀ {fuel min : ℕ} {max : Option ℕ} {x y : State},
      y ∈ repeatFrom body groups greedy fuel min max x → Progress s x y := by
  intro fuel
  induction fuel with
  | zero => intro min max x y h; cases h
  | succ fuel ih =>
    intro min max x y h
    have hself : y ∈ [x] → Progress s x y := fun h => Or.inl (by rw [List.mem_singleton.mp h])
    have hmore : y ∈ (body (x.clear groups)).flatMap
        (fun z => if min = 0 ∧ z.pos = x.pos then []
          else repeatFrom body groups greedy fuel (min - 1) (max.map (· - 1)) z) →
        Progress s x y := by
      intro h
      obtain ⟨z, hz, hy⟩ := List.mem_flatMap.mp h
      split_ifs at hy
      · cases hy
      · exact Progress.trans (y := z) (hbody (x.clear groups) z hz) (ih hy)
    rw [repeatFrom] at h
    split_ifs at h
    · exact hself h
    · exact hmore h
    · rcases List.mem_append.mp h with h | h
      · exact hmore h
      · exact hself h
    · rcases List.mem_cons.mp h with h | h
      · exact hself (List.mem_singleton.mpr h)
      · exact hmore h

/-- Matching never moves backwards nor past the end. -/
theorem progress_of_mem_results {a : Node} {x y : State} (h : y ∈ results T icase s a x) :
    Progress s x y := by
  induction a generalizing x y with
  | empty => exact Or.inl (by rw [List.mem_singleton.mp h])
  | seq a b iha ihb =>
    obtain ⟨z, hz, hy⟩ := List.mem_flatMap.mp h
    exact (iha hz).trans (ihb hy)
  | alt a b iha ihb => exact (List.mem_append.mp h).elim iha ihb
  | char c => exact progress_of_mem_advance h
  | set k => exact progress_of_mem_advance h
  | assertion a =>
    rw [results] at h
    split_ifs at h
    · exact Or.inl (by rw [List.mem_singleton.mp h])
    · cases h
  | lookahead positive a _ =>
    rw [results] at h
    refine Or.inl ?_
    split at h <;> split_ifs at h
    · rw [List.mem_singleton.mp h]
    · cases h
    · cases h
    · rw [List.mem_singleton.mp h]
  | group i a ih =>
    obtain ⟨z, hz, rfl⟩ := List.mem_map.mp h
    have hprog : Progress s x z := ih hz
    exact hprog
  | backref i =>
    rw [results] at h
    split at h
    · exact Or.inl (by rw [List.mem_singleton.mp h])
    · rw [matchAgain] at h
      split_ifs at h with heq
      · have hlen := congrArg List.length heq
        simp only [List.length_map, List.length_take, List.length_drop] at hlen
        rw [List.mem_singleton.mp h, Progress]
        simp only [List.length_drop, List.length_take]
        omega
      · cases h
  | rep min max greedy a ih => exact progress_of_mem_repeatFrom (fun x y hy => ih hy) h

/-! ### Repetition -/

/-- Fuel beyond what a repetition can use makes no difference. -/
theorem repeatFrom_eq {body : State → List State} {groups : List ℕ} {greedy : Bool}
    (hbody : ∀ x, ∀ y ∈ body x, Progress s x y) :
    ∀ {f g min : ℕ} {max : Option ℕ} {x : State}, repeatFuel s min x ≤ f →
      repeatFuel s min x ≤ g →
      repeatFrom body groups greedy f min max x = repeatFrom body groups greedy g min max x := by
  intro f
  induction f with
  | zero => intro g min max x hf _; exact absurd hf (Nat.not_succ_le_zero _)
  | succ f ih =>
    intro g min max x hf hg
    obtain ⟨g, rfl⟩ : ∃ g', g = g' + 1 := ⟨g - 1, by rw [repeatFuel] at hg; omega⟩
    -- a required repeat lowers the count, an optional one moves on
    have hmore : ∀ y ∈ body (x.clear groups),
        (if min = 0 ∧ y.pos = x.pos then []
          else repeatFrom body groups greedy f (min - 1) (max.map (· - 1)) y) =
        if min = 0 ∧ y.pos = x.pos then []
          else repeatFrom body groups greedy g (min - 1) (max.map (· - 1)) y := by
      intro y hy
      split_ifs with h
      · rfl
      · have hprog := hbody _ y hy
        simp only [Progress, repeatFuel, State.clear_pos] at hprog hf hg
        exact ih (by rw [repeatFuel]; omega) (by rw [repeatFuel]; omega)
    rw [repeatFrom, repeatFrom, List.flatMap_congr hmore]

/-- **Repetition is the matcher the language defines**: it either stops or runs its body once and
goes on with one repeat less. -/
theorem results_rep (min : ℕ) (max : Option ℕ) (greedy : Bool) (a : Node) (x : State) :
    results T icase s (.rep min max greedy a) x =
      if max = some 0 then [x]
      else
        let more := (results T icase s a (x.clear a.groups)).flatMap fun y =>
          if min = 0 ∧ y.pos = x.pos then []
          else results T icase s (.rep (min - 1) (max.map (· - 1)) greedy a) y
        if min ≠ 0 then more else if greedy then more ++ [x] else x :: more := by
  have hbody : ∀ x, ∀ y ∈ results T icase s a x, Progress s x y :=
    fun _ _ hy => progress_of_mem_results T icase hy
  have hmore : ∀ y ∈ results T icase s a (x.clear a.groups),
      (if min = 0 ∧ y.pos = x.pos then []
        else repeatFrom (results T icase s a) a.groups greedy (min + (s.length - x.pos)) (min - 1)
          (max.map (· - 1)) y) =
      if min = 0 ∧ y.pos = x.pos then []
        else results T icase s (.rep (min - 1) (max.map (· - 1)) greedy a) y := by
    intro y hy
    split_ifs with h
    · rfl
    · have hprog := hbody _ y hy
      rw [Progress, State.clear_pos] at hprog
      exact repeatFrom_eq hbody (by rw [repeatFuel]; omega) le_rfl
  rw [results, repeatFuel, repeatFrom, List.flatMap_congr hmore]

/-- A repetition that must repeat starts with its body. -/
theorem exists_results_of_rep {min : ℕ} {max : Option ℕ} {greedy : Bool} {a : Node} {x y : State}
    (h : y ∈ results T icase s (.rep min max greedy a) x) (hmin : min ≠ 0) (hmax : max ≠ some 0) :
    ∃ z w, w.pos = x.pos ∧ z ∈ results T icase s a w := by
  rw [results_rep, if_neg hmax, if_pos hmin] at h
  obtain ⟨z, hz, -⟩ := List.mem_flatMap.mp h
  exact ⟨z, x.clear a.groups, rfl, hz⟩

/-- A match anywhere is a match from some position. -/
theorem found_iff (a : Node) :
    found T icase s a ↔ ∃ i, i ≤ s.length ∧ ∃ y, y ∈ results T icase s a ⟨i, fun _ => none⟩ := by
  simp only [found, List.any_eq_true, List.mem_range, Nat.lt_succ_iff, Bool.not_eq_true',
    List.isEmpty_eq_false_iff_exists_mem]

end Matching

end EcmaRegex
