import Mathlib.Data.List.Basic
import Mathlib.Tactic.SplitIfs
import Mathlib.Tactic.Tauto

/-!
# A JSON reader, byte by byte

The grammar of RFC 8259 as a machine that takes one byte at a time: the containers that are open,
with what has been read of them, and what may come next. A text is a JSON text when the machine
runs through it and has read one value. The machine has no way back, so what is read after a prefix
depends on the prefix through the state alone, and a text whose prefix it refuses is no JSON text.

Texts are bytes, and so are the strings of a value. In a string the bytes from `0x80` on stand for
themselves: whether they are UTF-8 is not asked, which an escape is written in. A number is its
literal.

## Main definitions

* `Json`: values.
* `Json.Reader`, `Json.Reader.step`, `Json.Reader.run`: the machine.
* `Json.parse`: the value of a JSON text.
* `Json.Reader.settle`: a number literal that may end here is ended.
* `Json.Reader.IsNumber`: number literals.

## Main results

* `Json.Reader.run_append`: the machine over a text in two parts.
* `Json.Reader.run_number`: the machine reads number literals.
* `Json.Reader.step_settle`: a number literal is ended by a byte that cannot continue it.
* `Json.Reader.completable_of_settle`, `Json.Reader.completable_value`: what the machine has not
  refused can be completed.
* `Json.Reader.parse_append_of_run_eq_none`: what it has refused cannot.
-/

/-- A JSON value. A number is the text of its literal, a string its bytes. -/
inductive Json
  | null
  | bool (b : Bool)
  | number (literal : List UInt8)
  | string (s : List UInt8)
  | array (items : List Json)
  | object (members : List (List UInt8 × Json))

namespace Json

/-! ### The machine -/

/-- An open container: what has been read of it, and the name of the member being read. -/
inductive Frame
  | array (items : List Json)
  | object (members : List (List UInt8 × Json)) (name : List UInt8)

/-- Where the reader is in a number literal. -/
inductive NumberPhase
  | minus | zero | int | point | fraction | e | sign | exponent
  deriving DecidableEq

/-- Where the reader is in an escape of a string: after the backslash, in the hexadecimal digits
with what they amount to and the high surrogate before them, or between two surrogates. -/
inductive Escape
  | none
  | start
  | hex (left value : ℕ) (high : Option ℕ)
  | low (high : ℕ)
  | lowStart (high : ℕ)

/-- What may come next. -/
inductive Mode
  /-- A value, or the end of an array that is still empty. -/
  | value (mayClose : Bool)
  /-- A comma or the end of the innermost container. -/
  | after
  /-- A member name, or the end of an object that is still empty. -/
  | name (mayClose : Bool)
  /-- The colon after a member name. -/
  | colon
  /-- The rest of a string. -/
  | text (isName : Bool) (s : List UInt8) (escape : Escape)
  /-- The rest of a number literal. -/
  | number (phase : NumberPhase) (literal : List UInt8)
  /-- The rest of `null`, `true` or `false`. -/
  | word (rest : List UInt8) (v : Json)
  /-- Nothing but whitespace. -/
  | done (v : Json)

/-- The state of the machine, the innermost container first. -/
structure Reader where
  mode : Mode
  frames : List Frame

namespace Reader

/-- Nothing has been read. -/
def start : Reader := ⟨.value false, []⟩

/-- A value is complete. -/
def supply (v : Json) : List Frame → Reader
  | [] => ⟨.done v, []⟩
  | .array items :: fs => ⟨.after, .array (items ++ [v]) :: fs⟩
  | .object members name :: fs => ⟨.after, .object (members ++ [(name, v)]) [] :: fs⟩

def isWhitespace (c : UInt8) : Bool := c == 0x20 || c == 0x09 || c == 0x0A || c == 0x0D

def isDigit (c : UInt8) : Bool := 0x30 ≤ c && c ≤ 0x39

/-- The innermost container ends with `]` or with `}`. -/
def close (c : UInt8) : List Frame → Option Reader
  | .array items :: fs => if c = 0x5D then some (supply (.array items) fs) else none
  | .object members _ :: fs => if c = 0x7D then some (supply (.object members) fs) else none
  | [] => none

/-- The first byte of a value. -/
def begin (c : UInt8) (fs : List Frame) : Option Reader :=
  if c = 0x22 then some ⟨.text false [] .none, fs⟩
  else if c = 0x7B then some ⟨.name true, .object [] [] :: fs⟩
  else if c = 0x5B then some ⟨.value true, .array [] :: fs⟩
  else if c = 0x2D then some ⟨.number .minus [c], fs⟩
  else if c = 0x30 then some ⟨.number .zero [c], fs⟩
  else if isDigit c then some ⟨.number .int [c], fs⟩
  else if c = 0x6E then some ⟨.word [0x75, 0x6C, 0x6C] .null, fs⟩
  else if c = 0x74 then some ⟨.word [0x72, 0x75, 0x65] (.bool true), fs⟩
  else if c = 0x66 then some ⟨.word [0x61, 0x6C, 0x73, 0x65] (.bool false), fs⟩
  else none

/-- The phase after one more byte of a number literal. -/
def nextPhase (p : NumberPhase) (c : UInt8) : Option NumberPhase :=
  match p with
  | .minus => if c = 0x30 then some .zero else if isDigit c then some .int else none
  | .zero => if c = 0x2E then some .point else if c = 0x65 ∨ c = 0x45 then some .e else none
  | .int =>
    if isDigit c then some .int else if c = 0x2E then some .point
    else if c = 0x65 ∨ c = 0x45 then some .e else none
  | .point => if isDigit c then some .fraction else none
  | .fraction =>
    if isDigit c then some .fraction else if c = 0x65 ∨ c = 0x45 then some .e else none
  | .e =>
    if c = 0x2B ∨ c = 0x2D then some .sign else if isDigit c then some .exponent else none
  | .sign => if isDigit c then some .exponent else none
  | .exponent => if isDigit c then some .exponent else none

/-- The literal may end here. -/
def NumberPhase.terminal (p : NumberPhase) : Bool :=
  p == .zero || p == .int || p == .fraction || p == .exponent

/-- The value of a hexadecimal digit. -/
def hexDigit (c : UInt8) : Option ℕ :=
  if isDigit c then some (c.toNat - 0x30)
  else if 0x61 ≤ c ∧ c ≤ 0x66 then some (c.toNat - 0x61 + 10)
  else if 0x41 ≤ c ∧ c ≤ 0x46 then some (c.toNat - 0x41 + 10)
  else none

/-- The byte that a two-character escape stands for. -/
def simpleEscape (c : UInt8) : Option UInt8 :=
  if c = 0x22 ∨ c = 0x5C ∨ c = 0x2F then some c
  else if c = 0x62 then some 0x08
  else if c = 0x66 then some 0x0C
  else if c = 0x6E then some 0x0A
  else if c = 0x72 then some 0x0D
  else if c = 0x74 then some 0x09
  else none

/-- The four digits of an escape are read. A low surrogate needs a high one before it. -/
def endHex (s : List UInt8) (value : ℕ) : Option ℕ → Option (List UInt8 × Escape)
  | some high =>
    if 0xDC00 ≤ value ∧ value < 0xE000 then
      some (s ++ String.utf8EncodeChar
        (Char.ofNat (0x10000 + (high - 0xD800) * 0x400 + (value - 0xDC00))), .none)
    else none
  | none =>
    if 0xD800 ≤ value ∧ value < 0xDC00 then some (s, .low value)
    else if 0xDC00 ≤ value ∧ value < 0xE000 then none
    else some (s ++ String.utf8EncodeChar (Char.ofNat value), .none)

/-- One more byte of a string, which is not its closing quotation mark. Whether the bytes from
`0x80` on are UTF-8 is not asked. -/
def textByte (c : UInt8) (s : List UInt8) : Escape → Option (List UInt8 × Escape)
  | .none =>
    if c = 0x5C then some (s, .start) else if c < 0x20 then none else some (s ++ [c], .none)
  | .start =>
    if c = 0x75 then some (s, .hex 3 0 none) else (simpleEscape c).map fun b => (s ++ [b], .none)
  | .hex left value high =>
    (hexDigit c).bind fun d =>
      if left = 0 then endHex s (value * 16 + d) high
      else some (s, .hex (left - 1) (value * 16 + d) high)
  | .low high => if c = 0x5C then some (s, .lowStart high) else none
  | .lowStart high => if c = 0x75 then some (s, .hex 3 0 (some high)) else none

/-- A string is complete: a member name, or a value. -/
def endText (isName : Bool) (s : List UInt8) (fs : List Frame) : Option Reader :=
  if isName then
    match fs with
    | .object members _ :: fs => some ⟨.colon, .object members s :: fs⟩
    | _ => none
  else some (supply (.string s) fs)

/-- After a comma: the next item of an array, or the next member of an object. -/
def comma : List Frame → Option Reader
  | .array items :: fs => some ⟨.value false, .array items :: fs⟩
  | .object members name :: fs => some ⟨.name false, .object members name :: fs⟩
  | [] => none

/-- A byte between tokens, after a complete value. -/
def stepBetween (c : UInt8) (r : Reader) : Option Reader :=
  match r.mode with
  | .after =>
    if isWhitespace c then some r else if c = 0x2C then comma r.frames else close c r.frames
  | .done _ => if isWhitespace c then some r else none
  | _ => none

/-- One byte. -/
def step (r : Reader) (c : UInt8) : Option Reader :=
  match r.mode with
  | .value mayClose =>
    if isWhitespace c then some r
    else if mayClose && c == 0x5D then close c r.frames
    else begin c r.frames
  | .after => stepBetween c r
  | .name mayClose =>
    if isWhitespace c then some r
    else if c = 0x22 then some ⟨.text true [] .none, r.frames⟩
    else if mayClose then close c r.frames else none
  | .colon =>
    if isWhitespace c then some r
    else if c = 0x3A then some ⟨.value false, r.frames⟩ else none
  | .text isName s .none =>
    if c = 0x22 then endText isName s r.frames
    else (textByte c s .none).map fun p => ⟨.text isName p.1 p.2, r.frames⟩
  | .text isName s escape =>
    (textByte c s escape).map fun p => ⟨.text isName p.1 p.2, r.frames⟩
  | .number phase literal =>
    match nextPhase phase c with
    | some phase => some ⟨.number phase (literal ++ [c]), r.frames⟩
    | none =>
      -- the literal ends before this byte
      if NumberPhase.terminal phase then stepBetween c (supply (.number literal) r.frames) else none
  | .word rest v =>
    match rest with
    | [] => none
    | [d] => if c = d then some (supply v r.frames) else none
    | d :: rest => if c = d then some ⟨.word rest v, r.frames⟩ else none
  | .done _ => stepBetween c r

/-- The machine over a text. -/
def run (r : Reader) : List UInt8 → Option Reader
  | [] => some r
  | c :: s => (step r c).bind fun r => run r s

/-- A number literal that may end here is ended. -/
def settle (r : Reader) : Reader :=
  match r.mode with
  | .number phase literal =>
    if NumberPhase.terminal phase then supply (.number literal) r.frames else r
  | _ => r

/-- The value read, at the end of the text. -/
def result (r : Reader) : Option Json :=
  match (settle r).mode with
  | .done v => some v
  | _ => none

end Reader

/-- The value of a JSON text. -/
def parse (s : List UInt8) : Option Json := (Reader.run .start s).bind Reader.result

namespace Reader

/-! ### Texts in parts -/

@[simp] theorem run_nil (r : Reader) : run r [] = some r := rfl

@[simp] theorem run_cons (r : Reader) (c : UInt8) (s : List UInt8) :
    run r (c :: s) = (step r c).bind fun r => run r s := rfl

/-- The machine over a text in two parts. -/
theorem run_append (r : Reader) (s t : List UInt8) :
    run r (s ++ t) = (run r s).bind fun r => run r t := by
  induction s generalizing r with
  | nil => rfl
  | cons c s ih =>
    rw [List.cons_append, run_cons, run_cons, Option.bind_assoc]
    exact congrArg _ (funext fun r => ih r)

/-- What is read so far does not change when the text goes on. -/
theorem run_append_of_run {r r' : Reader} {s : List UInt8} (h : run r s = some r')
    (t : List UInt8) : run r (s ++ t) = run r' t := by
  rw [run_append, h, Option.bind_some]

/-- A text that is refused does not become a JSON text by what follows. -/
theorem parse_append_of_run_eq_none {s : List UInt8} (h : run start s = none) (t : List UInt8) :
    parse (s ++ t) = none := by
  rw [parse, run_append, h]
  rfl

/-! ### The end of a number literal -/

/-- A byte that cannot continue a number literal and may follow a value. -/
def isBreak (c : UInt8) : Bool := isWhitespace c || c == 0x2C || c == 0x5D || c == 0x7D

theorem nextPhase_of_isBreak {c : UInt8} (hc : isBreak c) (p : NumberPhase) :
    nextPhase p c = none := by
  simp only [isBreak, isWhitespace, Bool.or_eq_true, beq_iff_eq] at hc
  rcases hc with (((((rfl | rfl) | rfl) | rfl) | rfl) | rfl) | rfl <;> cases p <;> rfl

theorem settle_supply (v : Json) (fs : List Frame) : settle (supply v fs) = supply v fs := by
  match fs with
  | [] => rfl
  | .array _ :: _ => rfl
  | .object _ _ :: _ => rfl

theorem step_supply (v : Json) (fs : List Frame) (c : UInt8) :
    step (supply v fs) c = stepBetween c (supply v fs) := by
  match fs with
  | [] => rfl
  | .array _ :: _ => rfl
  | .object _ _ :: _ => rfl

/-- A number literal is ended by a byte that cannot continue it. -/
theorem step_settle (r : Reader) {c : UInt8} (hc : isBreak c) : step (settle r) c = step r c := by
  obtain ⟨mode, fs⟩ := r
  cases mode with
  | number p literal =>
    by_cases h : NumberPhase.terminal p
    · have hsettle : settle ⟨.number p literal, fs⟩ = supply (.number literal) fs := if_pos h
      have hstep : step ⟨.number p literal, fs⟩ c = stepBetween c
          (supply (.number literal) fs) := by
        simp only [step, nextPhase_of_isBreak hc, h, if_true]
      rw [hsettle, hstep, step_supply]
    · simp only [settle, h, Bool.false_eq_true, if_false]
  | _ => rfl

/-- The same for a text that begins with such a byte. -/
theorem run_settle {r r' : Reader} {c : UInt8} {s : List UInt8} (hc : isBreak c)
    (h : run (settle r) (c :: s) = some r') : run r (c :: s) = some r' := by
  rwa [run_cons, step_settle r hc] at h

/-! ### Number literals -/

/-- The digits of a literal, one at least. -/
def IsDigits (ds : List UInt8) : Prop := ds ≠ [] ∧ ∀ c ∈ ds, isDigit c

/-- `int`: digits, with no zero before other digits. -/
def IsInt (ds : List UInt8) : Prop := IsDigits ds ∧ (ds.head? = some 0x30 → ds = [0x30])

/-- `[ frac ]`. -/
def IsFraction (s : List UInt8) : Prop := s = [] ∨ ∃ ds, s = 0x2E :: ds ∧ IsDigits ds

/-- `[ exp ]`, with a sign. -/
def IsExponent (s : List UInt8) : Prop :=
  s = [] ∨ ∃ c ds, s = 0x65 :: c :: ds ∧ (c = 0x2B ∨ c = 0x2D) ∧ IsDigits ds

/-- A number literal without a minus sign. -/
def IsUnsigned (s : List UInt8) : Prop :=
  ∃ i f x, s = i ++ f ++ x ∧ IsInt i ∧ IsFraction f ∧ IsExponent x

/-- A number literal. -/
def IsNumber (s : List UInt8) : Prop := IsUnsigned s ∨ ∃ t, s = 0x2D :: t ∧ IsUnsigned t

/-- More digits in a phase that digits leave unchanged. -/
theorem run_digits {p : NumberPhase} (hp : ∀ c, isDigit c → nextPhase p c = some p)
    {ds : List UInt8} (hds : ∀ c ∈ ds, isDigit c) (l : List UInt8) (fs : List Frame) :
    run ⟨.number p l, fs⟩ ds = some ⟨.number p (l ++ ds), fs⟩ := by
  induction ds generalizing l with
  | nil => rw [run_nil, List.append_nil]
  | cons c ds ih =>
    have hstep : step ⟨.number p l, fs⟩ c = some ⟨.number p (l ++ [c]), fs⟩ := by
      simp only [step, hp c (hds c List.mem_cons_self)]
    rw [run_cons, hstep, Option.bind_some, ih fun d hd => hds d (List.mem_cons_of_mem _ hd),
      List.append_assoc, List.singleton_append]

/-- Digits that lead to a phase that digits leave unchanged. -/
theorem run_isDigits {p p' : NumberPhase} (hp : ∀ c, isDigit c → nextPhase p c = some p')
    (hp' : ∀ c, isDigit c → nextPhase p' c = some p') {ds : List UInt8} (hds : IsDigits ds)
    (l : List UInt8) (fs : List Frame) :
    run ⟨.number p l, fs⟩ ds = some ⟨.number p' (l ++ ds), fs⟩ := by
  obtain ⟨hne, hds⟩ := hds
  obtain ⟨c, ds, rfl⟩ := List.exists_cons_of_ne_nil hne
  have hstep : step ⟨.number p l, fs⟩ c = some ⟨.number p' (l ++ [c]), fs⟩ := by
    simp only [step, hp c (hds c List.mem_cons_self)]
  rw [run_cons, hstep, Option.bind_some,
    run_digits hp' (fun d hd => hds d (List.mem_cons_of_mem _ hd)), List.append_assoc,
    List.singleton_append]

theorem nextPhase_digit {p : NumberPhase} (hp : p = .int ∨ p = .fraction ∨ p = .exponent)
    (c : UInt8) (hc : isDigit c) : nextPhase p c = some p := by
  rcases hp with rfl | rfl | rfl <;> exact if_pos hc

/-- The fraction of a literal. -/
theorem run_isFraction {p : NumberPhase} (hp : p = .zero ∨ p = .int) {s : List UInt8}
    (hs : IsFraction s) (l : List UInt8) (fs : List Frame) :
    ∃ p', (p' = .zero ∨ p' = .int ∨ p' = .fraction) ∧
      run ⟨.number p l, fs⟩ s = some ⟨.number p' (l ++ s), fs⟩ := by
  rcases hs with rfl | ⟨ds, rfl, hds⟩
  · exact ⟨p, by tauto, by rw [run_nil, List.append_nil]⟩
  · refine ⟨.fraction, by tauto, ?_⟩
    have hpoint : step ⟨.number p l, fs⟩ 0x2E = some ⟨.number .point (l ++ [0x2E]), fs⟩ := by
      rcases hp with rfl | rfl <;> rfl
    have hdigit : ∀ c, isDigit c → nextPhase .point c = some .fraction := fun c hc => if_pos hc
    rw [run_cons, hpoint, Option.bind_some,
      run_isDigits hdigit (nextPhase_digit (.inr (.inl rfl))) hds, List.append_assoc,
      List.singleton_append]

/-- The exponent of a literal. -/
theorem run_isExponent {p : NumberPhase} (hp : p = .zero ∨ p = .int ∨ p = .fraction)
    {s : List UInt8} (hs : IsExponent s) (l : List UInt8) (fs : List Frame) :
    ∃ p', NumberPhase.terminal p' ∧
      run ⟨.number p l, fs⟩ s = some ⟨.number p' (l ++ s), fs⟩ := by
  rcases hs with rfl | ⟨c, ds, rfl, hc, hds⟩
  · refine ⟨p, ?_, by rw [run_nil, List.append_nil]⟩
    rcases hp with rfl | rfl | rfl <;> rfl
  · refine ⟨.exponent, rfl, ?_⟩
    have he : step ⟨.number p l, fs⟩ 0x65 = some ⟨.number .e (l ++ [0x65]), fs⟩ := by
      rcases hp with rfl | rfl | rfl <;> rfl
    have hsign : step ⟨.number .e (l ++ [0x65]), fs⟩ c =
        some ⟨.number .sign (l ++ [0x65] ++ [c]), fs⟩ := by
      rcases hc with rfl | rfl <;> rfl
    have hdigit : ∀ c, isDigit c → nextPhase .sign c = some .exponent := fun c hc => if_pos hc
    rw [run_cons, he, Option.bind_some, run_cons, hsign, Option.bind_some,
      run_isDigits hdigit (nextPhase_digit (.inr (.inr rfl))) hds, List.append_assoc,
      List.append_assoc]
    rfl

/-- The digits before the point, after a first byte that is a digit or follows a minus sign. -/
theorem run_isInt {c : UInt8} {ds : List UInt8} (hi : IsInt (c :: ds)) (l : List UInt8)
    (fs : List Frame) :
    ∃ p, (p = .zero ∨ p = .int) ∧ (if c = 0x30 then NumberPhase.zero else .int) = p ∧
      run ⟨.number p l, fs⟩ ds = some ⟨.number p (l ++ ds), fs⟩ := by
  obtain ⟨⟨-, hds⟩, hzero⟩ := hi
  by_cases hc : c = 0x30
  · obtain rfl : ds = [] := by simpa [hc] using hzero
    exact ⟨.zero, Or.inl rfl, if_pos hc, by rw [run_nil, List.append_nil]⟩
  · exact ⟨.int, Or.inr rfl, if_neg hc, run_digits (nextPhase_digit (Or.inl rfl))
      (fun d hd => hds d (List.mem_cons_of_mem _ hd)) l fs⟩

/-- A number literal, where a value may begin. -/
theorem run_number {s : List UInt8} (hs : IsNumber s) (b : Bool) (fs : List Frame) :
    ∃ p, NumberPhase.terminal p ∧ run ⟨.value b, fs⟩ s = some ⟨.number p s, fs⟩ := by
  -- the rest of the literal after the first digit
  have hrest : ∀ {c : UInt8} {ds f x : List UInt8} (l : List UInt8), IsInt (c :: ds) →
      IsFraction f → IsExponent x → ∃ p, NumberPhase.terminal p ∧
        run ⟨.number (if c = 0x30 then .zero else .int) l, fs⟩ (ds ++ f ++ x) =
          some ⟨.number p (l ++ (ds ++ f ++ x)), fs⟩ := by
    intro c ds f x l hi hf hx
    obtain ⟨p₁, hp₁, heq, h₁⟩ := run_isInt hi l fs
    obtain ⟨p₂, hp₂, h₂⟩ := run_isFraction hp₁ hf (l ++ ds) fs
    obtain ⟨p₃, hp₃, h₃⟩ := run_isExponent hp₂ hx (l ++ ds ++ f) fs
    refine ⟨p₃, hp₃, ?_⟩
    rw [heq, List.append_assoc, run_append_of_run h₁, run_append_of_run h₂, h₃]
    simp only [List.append_assoc]
  have hdigit : ∀ {c : UInt8} {ds : List UInt8}, IsInt (c :: ds) → isDigit c := fun hi =>
    hi.1.2 _ List.mem_cons_self
  have hbegin : ∀ c, isDigit c → step ⟨.value b, fs⟩ c =
      some ⟨.number (if c = 0x30 then .zero else .int) [c], fs⟩ := by
    intro c hc
    have hne : ∀ d, isDigit d = false → (c == d) = false := fun d hd => by
      rw [beq_eq_false_iff_ne]
      rintro rfl
      rw [hc] at hd
      exact Bool.noConfusion hd
    have hne' : ∀ d, isDigit d = false → c ≠ d := fun d hd => beq_eq_false_iff_ne.mp (hne d hd)
    simp only [step, isWhitespace, begin, hc, hne 0x20 rfl, hne 0x09 rfl, hne 0x0A rfl,
      hne 0x0D rfl, hne 0x5D rfl, hne' 0x22 rfl, hne' 0x7B rfl, hne' 0x5B rfl, hne' 0x2D rfl,
      Bool.or_false, Bool.and_false, Bool.false_eq_true, if_false, if_true]
    split_ifs <;> rfl
  have hminus : ∀ c, isDigit c → step ⟨.number .minus [0x2D], fs⟩ c =
      some ⟨.number (if c = 0x30 then .zero else .int) [0x2D, c], fs⟩ := by
    intro c hc
    simp only [step, nextPhase, hc, if_true]
    split_ifs <;> rfl
  rcases hs with ⟨i, f, x, rfl, hi, hf, hx⟩ | ⟨t, rfl, i, f, x, rfl, hi, hf, hx⟩
  · obtain ⟨c, ds, rfl⟩ := List.exists_cons_of_ne_nil hi.1.1
    obtain ⟨p, hp, h⟩ := hrest [c] hi hf hx
    refine ⟨p, hp, ?_⟩
    rw [List.cons_append, List.cons_append, run_cons, hbegin c (hdigit hi), Option.bind_some, h]
    rfl
  · obtain ⟨c, ds, rfl⟩ := List.exists_cons_of_ne_nil hi.1.1
    obtain ⟨p, hp, h⟩ := hrest [0x2D, c] hi hf hx
    have hsign : step ⟨.value b, fs⟩ 0x2D = some ⟨.number .minus [0x2D], fs⟩ := by
      cases b <;> rfl
    refine ⟨p, hp, ?_⟩
    rw [run_cons, hsign, Option.bind_some, List.cons_append, List.cons_append, run_cons,
      hminus c (hdigit hi), Option.bind_some, h]
    rfl

/-! ### Completion -/

/-- The text read so far is the beginning of a JSON text. -/
def Completable (r : Reader) : Prop := ∃ rest v, (run r rest).bind result = some v

theorem Completable.of_run {r r' : Reader} {s : List UInt8} (h : run r s = some r')
    (hr : r'.Completable) : r.Completable := by
  obtain ⟨rest, v, hv⟩ := hr
  exact ⟨s ++ rest, v, by rw [run_append_of_run h, hv]⟩

/-- The containers that are open after a value can be closed, at once or with a closing bracket. -/
theorem exists_close (v : Json) (fs : List Frame) :
    ∃ rest u, (∀ c ∈ rest.head?, isBreak c) ∧ (run (supply v fs) rest).bind result = some u := by
  induction fs generalizing v with
  | nil => exact ⟨[], v, by simp, rfl⟩
  | cons f fs ih =>
    cases f with
    | array items =>
      obtain ⟨rest, u, -, hu⟩ := ih (.array (items ++ [v]))
      exact ⟨0x5D :: rest, u, by simp [isBreak], hu⟩
    | object members name =>
      obtain ⟨rest, u, -, hu⟩ := ih (.object (members ++ [(name, v)]))
      exact ⟨0x7D :: rest, u, by simp [isBreak], hu⟩

/-- After a complete value. -/
theorem completable_of_settle {r : Reader} {v : Json} {fs : List Frame}
    (h : settle r = supply v fs) : r.Completable := by
  obtain ⟨rest, u, hbreak, hu⟩ := exists_close v fs
  refine ⟨rest, u, ?_⟩
  cases rest with
  | nil =>
    rw [run_nil, Option.bind_some, result, settle_supply] at hu
    rw [run_nil, Option.bind_some, result, h]
    exact hu
  | cons c rest =>
    rwa [← h, run_cons, step_settle r (hbreak c rfl), ← run_cons] at hu

/-- In a container that is not empty. -/
theorem completable_after {r : Reader} {f : Frame} {fs : List Frame}
    (h : settle r = ⟨.after, f :: fs⟩) : r.Completable := by
  cases f with
  | array items =>
    have hclose : run r [0x5D] = some (supply (.array items) fs) :=
      run_settle (by decide) (by rw [h]; rfl)
    exact .of_run hclose (completable_of_settle (settle_supply _ fs))
  | object members name =>
    have hclose : run r [0x7D] = some (supply (.object members) fs) :=
      run_settle (by decide) (by rw [h]; rfl)
    exact .of_run hclose (completable_of_settle (settle_supply _ fs))

/-- Where a value may begin. -/
theorem completable_value (b : Bool) (fs : List Frame) : Completable ⟨.value b, fs⟩ := by
  have hnull : run ⟨.value b, fs⟩ [0x6E, 0x75, 0x6C, 0x6C] = some (supply .null fs) := by
    cases b <;> rfl
  exact .of_run hnull (completable_of_settle (settle_supply .null fs))

/-- In an object that is still empty. -/
theorem completable_name (members : List (List UInt8 × Json)) (name : List UInt8)
    (fs : List Frame) : Completable ⟨.name true, .object members name :: fs⟩ := by
  have hclose : run ⟨.name true, .object members name :: fs⟩ [0x7D] =
      some (supply (.object members) fs) := rfl
  exact .of_run hclose (completable_of_settle (settle_supply _ fs))

/-- What the machine has not refused, and could end, is a prefix of a JSON text. -/
theorem Completable.exists_parse {s : List UInt8} {r : Reader} (h : run start s = some r)
    (hr : r.Completable) : ∃ rest v, parse (s ++ rest) = some v := by
  obtain ⟨rest, v, hv⟩ := hr
  exact ⟨rest, v, by rw [parse, run_append_of_run h, hv]⟩

/-- Whitespace between tokens. -/
theorem run_whitespace {r : Reader} {s : List UInt8} (hs : ∀ c ∈ s, isWhitespace c)
    (hr : ∀ c, isWhitespace c → step r c = some r) : run r s = some r := by
  induction s with
  | nil => rfl
  | cons c s ih =>
    rw [run_cons, hr c (hs c List.mem_cons_self), Option.bind_some]
    exact ih fun d hd => hs d (List.mem_cons_of_mem _ hd)

end Reader

end Json
