import Papa.Exceptions
import Papa.Util.ToChars

/-!
# The streaming JSON writer

`json::Writer`: calls that open and close containers and write keys and scalars append to a stream
the text of a JSON document, compact or indented.

## Main definitions

* `Writer`: the members of a writer object, with the bytes written so far.
* `Writer.beginObject`, `Writer.endObject`, `Writer.beginArray`, `Writer.endArray`, `Writer.key`,
  `Writer.valueString`, ...: the member functions.
* `Call`, `Writer.exec`, `Writer.run`: sequences of calls.

## Main results

* `Writer.exec_out`: bytes are only added.
-/

namespace Papa.Util

/-- `Writer::Context`. -/
inductive Context
  | root | object | array
  deriving DecidableEq

/-- The members of a writer, and what its stream has received. The innermost container comes first
on the stack. -/
structure Writer where
  out : Str := []
  pretty : Bool
  stack : List Context := [.root]
  needComma : Bool := false
  awaitingValue : Bool := false
  depth : ℕ := 0

def kIndentSpaces : ℕ := 2

def kHex : Str := str "0123456789abcdef"

def invariantViolation {α : Type} (msg : Str) : Throws α := .error ⟨str "json::Writer: " ++ msg⟩

namespace Writer

/-- `out_->write`. -/
def write (w : Writer) (s : Str) : Writer := { w with out := w.out ++ s }

/-- What `newline_and_indent` writes. -/
def newlineText (w : Writer) : Str :=
  if w.pretty then ch '\n' :: List.replicate (w.depth * kIndentSpaces) (ch ' ') else []

def newlineAndIndent (w : Writer) : Writer := w.write w.newlineText

def emitSeparatorForValue (w : Writer) : Writer :=
  if w.awaitingValue then { w with awaitingValue := false }
  else if w.needComma then (w.write [ch ',']).newlineAndIndent
  -- first element in a container: indent only, no comma
  else if w.stack.head? ≠ some .root then w.newlineAndIndent
  else w

/-- Nothing is asked of a value at root level. -/
def startValue (w : Writer) : Throws Writer :=
  if w.stack.head? = some .object ∧ !w.awaitingValue then
    invariantViolation (str "expected key before value inside object")
  else pure w.emitSeparatorForValue

/-- The escape of a byte in a string. -/
def escapedByte (c : UInt8) : Str :=
  if c = ch '"' then str "\\\""
  else if c = ch '\\' then str "\\\\"
  else if c = 0x08 then str "\\b"
  else if c = 0x0C then str "\\f"
  else if c = ch '\n' then str "\\n"
  else if c = ch '\r' then str "\\r"
  else if c = ch '\t' then str "\\t"
  else if c < 0x20 then
    str "\\u00" ++ [kHex.getD ((c >>> 4) &&& 0xF).toNat 0, kHex.getD (c &&& 0xF).toNat 0]
  else [c]

/-- What `emit_escaped_string` writes. -/
def escapedString (s : Str) : Str := ch '"' :: (s.flatMap escapedByte ++ [ch '"'])

/-- A container begins. -/
def beginContainer (w : Writer) (bracket : Char) (context : Context) : Throws Writer := do
  let w := (← w.startValue).write [ch bracket]
  pure { w with stack := context :: w.stack, depth := w.depth + 1, needComma := false }

def beginObject (w : Writer) : Throws Writer := w.beginContainer '\x7b' .object

def beginArray (w : Writer) : Throws Writer := w.beginContainer '[' .array

/-- A container ends: a new line only when it had content. -/
def endContainer (w : Writer) (bracket : Char) : Writer :=
  let w := { w with depth := w.depth - 1 }
  let w := if w.needComma && w.pretty then w.newlineAndIndent else w
  let w := w.write [ch bracket]
  { w with stack := w.stack.tail, needComma := true }

def endObject (w : Writer) : Throws Writer :=
  if w.stack.length < 2 ∨ w.stack.head? ≠ some .object then
    invariantViolation (str "end_object without matching begin_object")
  else if w.awaitingValue then invariantViolation (str "end_object after key with no value")
  else pure (w.endContainer '\x7d')

def endArray (w : Writer) : Throws Writer :=
  if w.stack.length < 2 ∨ w.stack.head? ≠ some .array then
    invariantViolation (str "end_array without matching begin_array")
  else pure (w.endContainer ']')

/-- The writes of `key`. -/
def writeKey (w : Writer) (k : Str) : Writer :=
  let w := if w.needComma then (w.write [ch ',']).newlineAndIndent else w.newlineAndIndent
  let w := (w.write (escapedString k)).write [ch ':']
  if w.pretty then w.write [ch ' '] else w

def key (w : Writer) (k : Str) : Throws Writer :=
  if w.stack.head? ≠ some .object then invariantViolation (str "key emitted outside an object")
  else if w.awaitingValue then
    invariantViolation (str "two consecutive keys without an intervening value")
  else pure { w.writeKey k with awaitingValue := true }

/-- A scalar. -/
def value (w : Writer) (text : Str) : Throws Writer := do
  let w := (← w.startValue).write text
  pure { w with needComma := true }

def valueString (w : Writer) (v : Str) : Throws Writer := w.value (escapedString v)

def valueInt (w : Writer) (v : Int64) : Throws Writer := w.value (toCharsInt v.toInt)

def valueUint (w : Writer) (v : UInt64) : Throws Writer := w.value (toStr v.toNat)

/-- A number that is not finite is written as `null`. -/
def valueDouble (w : Writer) (v : UInt64) : Throws Writer :=
  w.value (if isFinite v then toCharsDouble v else str "null")

def valueBool (w : Writer) (v : Bool) : Throws Writer :=
  w.value (if v then str "true" else str "false")

def valueNull (w : Writer) : Throws Writer := w.value (str "null")

end Writer

/-! ### Sequences of calls -/

/-- The arguments of the functions that write a scalar. -/
inductive Scalar
  | string (v : Str)
  | int (v : Int64)
  | uint (v : UInt64)
  | double (bits : UInt64)
  | bool (v : Bool)
  | null

/-- A call of a member function. -/
inductive Call
  | beginObject | endObject | beginArray | endArray
  | key (k : Str)
  | value (v : Scalar)

namespace Writer

def exec (w : Writer) : Call → Throws Writer
  | .beginObject => w.beginObject
  | .endObject => w.endObject
  | .beginArray => w.beginArray
  | .endArray => w.endArray
  | .key k => w.key k
  | .value (.string v) => w.valueString v
  | .value (.int v) => w.valueInt v
  | .value (.uint v) => w.valueUint v
  | .value (.double v) => w.valueDouble v
  | .value (.bool v) => w.valueBool v
  | .value .null => w.valueNull

/-- The calls in order, none of which may throw. -/
def run (w : Writer) (calls : List Call) : Throws Writer := calls.foldlM exec w

end Writer

/-- The text of a scalar. -/
def Scalar.text : Scalar → Str
  | .string v => Writer.escapedString v
  | .int v => toCharsInt v.toInt
  | .uint v => toStr v.toNat
  | .double v => if isFinite v then toCharsDouble v else str "null"
  | .bool v => if v then str "true" else str "false"
  | .null => str "null"

namespace Writer

theorem exec_value (w : Writer) (v : Scalar) : w.exec (.value v) = w.value v.text := by
  cases v <;> rfl

/-! ### What the functions do -/

/-- The separator that `emit_separator_for_value` writes. -/
def separator (w : Writer) : Str :=
  if w.awaitingValue then []
  else if w.needComma then ch ',' :: w.newlineText
  else if w.stack.head? ≠ some .root then w.newlineText else []

theorem emitSeparatorForValue_eq (w : Writer) :
    w.emitSeparatorForValue = { w with out := w.out ++ w.separator, awaitingValue := false } := by
  obtain ⟨out, pretty, stack, needComma, awaitingValue, depth⟩ := w
  cases awaitingValue with
  | true => simp [emitSeparatorForValue, separator]
  | false =>
    simp only [emitSeparatorForValue, separator, Bool.false_eq_true, if_false]
    split_ifs
    · simp only [newlineAndIndent, write, List.append_assoc]
      rfl
    · rfl
    · simp only [List.append_nil]

/-- A value may begin when the innermost container is no object that waits for a key. -/
def MayBegin (w : Writer) : Prop := ¬(w.stack.head? = some .object ∧ !w.awaitingValue)

theorem startValue_eq_ok {w w' : Writer} : w.startValue = .ok w' ↔
    w.MayBegin ∧ w' = { w with out := w.out ++ w.separator, awaitingValue := false } := by
  rw [startValue, emitSeparatorForValue_eq, MayBegin]
  split_ifs with h
  · exact ⟨nofun, fun h' => absurd h h'.1⟩
  · exact ⟨fun h' => ⟨h, (Except.ok.inj h').symm⟩, fun h' => congrArg Except.ok h'.2.symm⟩

theorem beginContainer_eq_ok {w w' : Writer} {bracket : Char} {context : Context} :
    w.beginContainer bracket context = .ok w' ↔ w.MayBegin ∧
      w' = { w with out := w.out ++ w.separator ++ [ch bracket], stack := context :: w.stack,
                    needComma := false, awaitingValue := false, depth := w.depth + 1 } := by
  rw [beginContainer, bind_eq_ok]
  constructor
  · rintro ⟨u, hu, h⟩
    obtain ⟨hbegin, rfl⟩ := startValue_eq_ok.mp hu
    exact ⟨hbegin, (Except.ok.inj h).symm⟩
  · rintro ⟨hbegin, rfl⟩
    exact ⟨_, startValue_eq_ok.mpr ⟨hbegin, rfl⟩, rfl⟩

theorem value_eq_ok {w w' : Writer} {text : Str} : w.value text = .ok w' ↔ w.MayBegin ∧
    w' = { w with out := w.out ++ w.separator ++ text, needComma := true,
                  awaitingValue := false } := by
  rw [value, bind_eq_ok]
  constructor
  · rintro ⟨u, hu, h⟩
    obtain ⟨hbegin, rfl⟩ := startValue_eq_ok.mp hu
    exact ⟨hbegin, (Except.ok.inj h).symm⟩
  · rintro ⟨hbegin, rfl⟩
    exact ⟨_, startValue_eq_ok.mpr ⟨hbegin, rfl⟩, rfl⟩

/-- What is written before a closing bracket. -/
def closingText (w : Writer) : Str :=
  if w.needComma && w.pretty then newlineText { w with depth := w.depth - 1 } else []

theorem endContainer_eq (w : Writer) (bracket : Char) :
    w.endContainer bracket =
      { w with out := w.out ++ w.closingText ++ [ch bracket], stack := w.stack.tail,
               needComma := true, depth := w.depth - 1 } := by
  rw [endContainer, closingText]
  split_ifs with h
  · rfl
  · simp [write]

theorem endObject_eq_ok {w w' : Writer} : w.endObject = .ok w' ↔
    2 ≤ w.stack.length ∧ w.stack.head? = some .object ∧ w.awaitingValue = false ∧
      w' = w.endContainer '\x7d' := by
  rw [endObject]
  split_ifs with h₁ h₂
  · exact ⟨nofun, fun h => (h₁.elim (Nat.not_lt.mpr h.1) (absurd h.2.1)).elim⟩
  · exact ⟨nofun, fun h => by simp [h.2.2.1] at h₂⟩
  · rw [not_or, not_not] at h₁
    constructor
    · exact fun h => ⟨by omega, h₁.2, by simpa using h₂, (Except.ok.inj h).symm⟩
    · exact fun h => congrArg Except.ok h.2.2.2.symm

theorem endArray_eq_ok {w w' : Writer} : w.endArray = .ok w' ↔
    2 ≤ w.stack.length ∧ w.stack.head? = some .array ∧ w' = w.endContainer ']' := by
  rw [endArray]
  split_ifs with h
  · exact ⟨nofun, fun h' => (h.elim (Nat.not_lt.mpr h'.1) (absurd h'.2.1)).elim⟩
  · rw [not_or, not_not] at h
    constructor
    · exact fun h' => ⟨by omega, h.2, (Except.ok.inj h').symm⟩
    · exact fun h' => congrArg Except.ok h'.2.2.symm

/-- What a key writes. -/
def keyText (w : Writer) (k : Str) : Str :=
  (if w.needComma then [ch ','] else []) ++ w.newlineText ++ escapedString k ++ [ch ':'] ++
    (if w.pretty then [ch ' '] else [])

theorem writeKey_eq (w : Writer) (k : Str) :
    w.writeKey k = { w with out := w.out ++ w.keyText k } := by
  rw [writeKey, keyText]
  cases hc : w.needComma <;> cases hp : w.pretty <;>
    simp [write, newlineAndIndent, newlineText, hp, hc]

theorem key_eq_ok {w w' : Writer} {k : Str} : w.key k = .ok w' ↔
    w.stack.head? = some .object ∧ w.awaitingValue = false ∧
      w' = { w with out := w.out ++ w.keyText k, awaitingValue := true } := by
  rw [key, writeKey_eq]
  split_ifs with h₁ h₂
  · exact ⟨nofun, fun h => absurd h.1 h₁⟩
  · exact ⟨nofun, fun h => by simp [h.2.1] at h₂⟩
  · rw [not_not] at h₁
    constructor
    · exact fun h => ⟨h₁, by simpa using h₂, (Except.ok.inj h).symm⟩
    · exact fun h => congrArg Except.ok h.2.2.symm

/-- Bytes are only added. -/
theorem exec_out {w w' : Writer} {c : Call} (h : w.exec c = .ok w') :
    ∃ t, w'.out = w.out ++ t := by
  match c with
  | .beginObject | .beginArray =>
    obtain ⟨-, rfl⟩ := beginContainer_eq_ok.mp h
    exact ⟨_, List.append_assoc ..⟩
  | .endObject =>
    obtain ⟨-, -, -, rfl⟩ := endObject_eq_ok.mp h
    rw [endContainer_eq]
    exact ⟨_, List.append_assoc ..⟩
  | .endArray =>
    obtain ⟨-, -, rfl⟩ := endArray_eq_ok.mp h
    rw [endContainer_eq]
    exact ⟨_, List.append_assoc ..⟩
  | .key k =>
    obtain ⟨-, -, rfl⟩ := key_eq_ok.mp h
    exact ⟨_, rfl⟩
  | .value v =>
    rw [exec_value] at h
    obtain ⟨-, rfl⟩ := value_eq_ok.mp h
    exact ⟨_, List.append_assoc ..⟩

end Writer

end Papa.Util
