import Papa.Util.JsonWriter

/-!
# The text of the JSON writer

The calls of a writer describe a tree: a scalar, or a container between its two calls. As long as
one value at most is written at root level, the bytes written after any number of calls are the
beginning of a JSON text, and when every container is closed they are a JSON text whose value is
that of the tree. The proof runs the JSON reader along with the writer: between two calls it has
open what the writer has open, and has read the values that the calls so far describe. A second
value at root level is not refused, and the comma before it is what the reader refuses.

## Main definitions

* `Doc`, `Doc.calls`, `Doc.json`: trees, the calls that write them and their values.
* `Described`: the containers that calls leave open.
* `rootValues`: how many values calls write at root level.
* `Describes`: the state of the writer and of the reader after calls.

## Main results

* `run_escapedString`: a string is read back.
* `Describes.exec`: one call.
* `writer_text_iff`: the calls whose bytes are one JSON text.
-/

namespace Papa.Util

open Json.Reader (run_append_of_run settle supply run_cons run_nil isBreak)

/-! ### Trees -/

/-- What the calls of a writer describe. -/
inductive Doc
  | scalar (v : Scalar)
  | array (items : List Doc)
  | object (members : List (Str × Doc))

/-- The value of a scalar. -/
def Scalar.json : Scalar → Json
  | .string v => .string v
  | .int v => .number (toCharsInt v.toInt)
  | .uint v => .number (toStr v.toNat)
  | .double v => if isFinite v then .number (toCharsDouble v) else .null
  | .bool v => .bool v
  | .null => .null

/-- The calls that write a tree. -/
def Doc.calls : Doc → List Call
  | .scalar v => [.value v]
  | .array items => .beginArray :: (items.attach.flatMap fun d => d.1.calls) ++ [.endArray]
  | .object members =>
    .beginObject :: (members.attach.flatMap fun m => .key m.1.1 :: m.1.2.calls) ++ [.endObject]
decreasing_by
  · have := List.sizeOf_lt_of_mem d.2
    simp only [Doc.array.sizeOf_spec]
    omega
  · have h₁ := List.sizeOf_lt_of_mem m.2
    have h₂ : sizeOf m.1.2 < sizeOf m.1 := by
      obtain ⟨⟨k, d⟩, hm⟩ := m
      simp only [Prod.mk.sizeOf_spec]
      omega
    simp only [Doc.object.sizeOf_spec]
    omega

/-- The value of a tree. -/
def Doc.json : Doc → Json
  | .scalar v => v.json
  | .array items => .array (items.attach.map fun d => d.1.json)
  | .object members => .object (members.attach.map fun m => (m.1.1, m.1.2.json))
decreasing_by
  · have := List.sizeOf_lt_of_mem d.2
    simp only [Doc.array.sizeOf_spec]
    omega
  · have h₁ := List.sizeOf_lt_of_mem m.2
    have h₂ : sizeOf m.1.2 < sizeOf m.1 := by
      obtain ⟨⟨k, d⟩, hm⟩ := m
      simp only [Prod.mk.sizeOf_spec]
      omega
    simp only [Doc.object.sizeOf_spec]
    omega

/-- The calls of the members of an object. -/
def memberCalls (members : List (Str × Doc)) : List Call :=
  members.flatMap fun m => .key m.1 :: m.2.calls

theorem Doc.calls_array (items : List Doc) :
    (Doc.array items).calls = .beginArray :: items.flatMap Doc.calls ++ [.endArray] := by
  rw [Doc.calls, List.flatMap_subtype (g := Doc.calls) fun _ _ => rfl, List.unattach_attach]

theorem Doc.calls_object (members : List (Str × Doc)) :
    (Doc.object members).calls = .beginObject :: memberCalls members ++ [.endObject] := by
  rw [Doc.calls, List.flatMap_subtype (g := fun m => .key m.1 :: m.2.calls) fun _ _ => rfl,
    List.unattach_attach, memberCalls]

theorem Doc.json_array (items : List Doc) :
    (Doc.array items).json = .array (items.map Doc.json) := by
  rw [Doc.json, List.map_subtype (g := Doc.json) fun _ _ => rfl, List.unattach_attach]

theorem Doc.json_object (members : List (Str × Doc)) :
    (Doc.object members).json = .object (members.map fun m => (m.1, m.2.json)) := by
  rw [Doc.json, List.map_subtype (g := fun m => (m.1, m.2.json)) fun _ _ => rfl,
    List.unattach_attach]

/-! ### Strings and numbers read back -/

/-- The four digits of the escape of a control byte. -/
theorem textByte_control {c : UInt8} (hc : c < 0x20) (s : Str) :
    ∃ a b, kHex.getD ((c >>> 4) &&& 0xF).toNat 0 = a ∧ kHex.getD (c &&& 0xF).toNat 0 = b ∧
      Json.Reader.hexDigit a = some (c.toNat / 16) ∧ Json.Reader.hexDigit b = some (c.toNat % 16) ∧
      Json.Reader.endHex s c.toNat none = some (s ++ [c], .none) := by
  have hhex : ∀ n < 16, Json.Reader.hexDigit (kHex.getD n 0) = some n := by decide
  have hutf8 : ∀ n < 32, String.utf8EncodeChar (Char.ofNat n) = [UInt8.ofNat n] := by decide
  have hlt : c.toNat < 32 := UInt8.lt_iff_toNat_lt.mp hc
  have hhigh : ((c >>> 4) &&& 0xF).toNat = c.toNat / 16 := by
    have hmask : c.toNat >>> 4 &&& 15 = c.toNat >>> 4 % 16 := Nat.and_two_pow_sub_one_eq_mod _ 4
    have hshift : ((c >>> 4) &&& 0xF).toNat = c.toNat >>> 4 &&& 15 := by
      rw [UInt8.toNat_and, UInt8.toNat_shiftRight]
      rfl
    rw [hshift, hmask, Nat.shiftRight_eq_div_pow]
    omega
  have hlow : (c &&& 0xF).toNat = c.toNat % 16 := Nat.and_two_pow_sub_one_eq_mod c.toNat 4
  refine ⟨_, _, rfl, rfl, ?_, ?_, ?_⟩
  · rw [hhigh, hhex _ (by omega)]
  · rw [hlow, hhex _ (by omega)]
  · rw [Json.Reader.endHex, if_neg (by omega), if_neg (by omega), hutf8 _ hlt, UInt8.ofNat_toNat]

/-- A byte of a string is read back. -/
theorem run_escapedByte (isName : Bool) (s : Str) (fs : List Json.Frame) (c : UInt8) :
    Json.Reader.run ⟨.text isName s .none, fs⟩ (Writer.escapedByte c) =
      some ⟨.text isName (s ++ [c]) .none, fs⟩ := by
  rw [Writer.escapedByte]
  split_ifs with h₁ h₂ h₃ h₄ h₅ h₆ h₇ h₈
  · rw [h₁]
    rfl
  · rw [h₂]
    rfl
  · rw [h₃]
    rfl
  · rw [h₄]
    rfl
  · rw [h₅]
    rfl
  · rw [h₆]
    rfl
  · rw [h₇]
    rfl
  · obtain ⟨a, b, ha, hb, hx, hy, hend⟩ := textByte_control h₈ s
    have hopen : Json.Reader.run ⟨.text isName s .none, fs⟩ (str "\\u00") =
        some ⟨.text isName s (.hex 1 0 none), fs⟩ := rfl
    have hval : (0 * 16 + c.toNat / 16) * 16 + c.toNat % 16 = c.toNat := by omega
    rw [run_append_of_run hopen, ha, hb]
    simp only [run_cons, run_nil, Json.Reader.step, Json.Reader.textByte, hx, hy, Option.bind_some,
      Nat.succ_ne_zero, if_false, if_true, Nat.sub_self, Option.map_some, hval, hend]
  · have hquote : c ≠ 0x22 := h₁
    have hslash : c ≠ 0x5C := h₂
    simp only [run_cons, run_nil, Json.Reader.step, Json.Reader.textByte, hquote, hslash, h₈,
      if_false, Option.map_some, Option.bind_some]

/-- **A string is read back.** -/
theorem run_escapedString (isName : Bool) (s : Str) (fs : List Json.Frame) :
    Json.Reader.run ⟨.text isName [] .none, fs⟩ (s.flatMap Writer.escapedByte ++ [ch '"']) =
      Json.Reader.endText isName s fs := by
  have hbody : ∀ t, Json.Reader.run ⟨.text isName t .none, fs⟩ (s.flatMap Writer.escapedByte) =
      some ⟨.text isName (t ++ s) .none, fs⟩ := by
    induction s with
    | nil => exact fun t => by rw [List.flatMap_nil, run_nil, List.append_nil]
    | cons c s ih =>
      intro t
      rw [List.flatMap_cons, run_append_of_run (run_escapedByte isName t fs c), ih,
        List.append_assoc, List.singleton_append]
  rw [run_append_of_run (hbody []), List.nil_append]
  exact Option.bind_fun_some _

/-- A scalar is read back, up to the end of a number literal. -/
theorem run_scalar (v : Scalar) (b : Bool) (fs : List Json.Frame) :
    ∃ r, Json.Reader.run ⟨.value b, fs⟩ v.text = some r ∧ settle r = supply v.json fs := by
  have hnumber : ∀ t, Json.Reader.IsNumber t → ∃ r, Json.Reader.run ⟨.value b, fs⟩ t = some r ∧
      settle r = supply (.number t) fs := fun t ht => by
    obtain ⟨p, hp, hrun⟩ := Json.Reader.run_number ht b fs
    exact ⟨_, hrun, if_pos hp⟩
  have hnull : Json.Reader.run ⟨.value b, fs⟩ (str "null") = some (supply .null fs) := by
    cases b <;> rfl
  cases v with
  | string s =>
    refine ⟨supply (.string s) fs, ?_, Json.Reader.settle_supply _ _⟩
    have hquote : Json.Reader.step ⟨.value b, fs⟩ (ch '"') = some ⟨.text false [] .none, fs⟩ := by
      cases b <;> rfl
    rw [Scalar.text, Writer.escapedString, run_cons, hquote, Option.bind_some, run_escapedString]
    rfl
  | int n => exact hnumber _ (isNumber_toCharsInt _)
  | uint n => exact hnumber _ (Or.inl (isUnsigned_toStr _))
  | double bits =>
    rw [Scalar.text, Scalar.json]
    split_ifs with hfin
    · exact hnumber _ (isNumber_toCharsDouble hfin)
    · exact ⟨_, hnull, Json.Reader.settle_supply _ _⟩
  | bool v =>
    refine ⟨supply (.bool v) fs, ?_, Json.Reader.settle_supply _ _⟩
    cases v <;> cases b <;> rfl
  | null => exact ⟨_, hnull, Json.Reader.settle_supply _ _⟩

/-! ### What calls describe -/

/-- A container that is open, with what has been written of it. The key of an object is the one that
waits for its value, or whose value is being written. -/
inductive OpenDoc
  | array (items : List Doc)
  | object (members : List (Str × Doc)) (key : Option Str)

namespace OpenDoc

def context : OpenDoc → Context
  | .array _ => .array
  | .object _ _ => .object

/-- The calls so far. -/
def calls : OpenDoc → List Call
  | .array items => .beginArray :: items.flatMap Doc.calls
  | .object members key => .beginObject :: memberCalls members ++ (key.map Call.key).toList

/-- What the reader has read of it. -/
def frame : OpenDoc → Json.Frame
  | .array items => .array (items.map Doc.json)
  | .object members key => .object (members.map fun m => (m.1, m.2.json)) (key.getD [])

/-- The container as it is. -/
def close : OpenDoc → Doc
  | .array items => .array items
  | .object members _ => .object members

/-- A value may be written next. -/
def mayBegin : OpenDoc → Bool
  | .array _ => true
  | .object _ key => key.isSome

/-- A key waits for its value. -/
def awaiting : OpenDoc → Bool
  | .array _ => false
  | .object _ key => key.isSome

def isEmpty : OpenDoc → Bool
  | .array items => items.isEmpty
  | .object members _ => members.isEmpty

/-- The call that ends the container. -/
def endCall : OpenDoc → Call
  | .array _ => .endArray
  | .object _ _ => .endObject

/-- The closing bracket. -/
def bracket : OpenDoc → Char
  | .array _ => ']'
  | .object _ _ => '\x7d'

/-- One more value. -/
def add (d : Doc) : OpenDoc → OpenDoc
  | .array items => .array (items ++ [d])
  | .object members key => .object (members ++ [(key.getD [], d)]) none

theorem calls_add (d : Doc) {f : OpenDoc} (hf : f.mayBegin) :
    (f.add d).calls = f.calls ++ d.calls := by
  match f with
  | .array items => simp [add, calls]
  | .object members (some k) => simp [add, calls, memberCalls]

/-- The end of a container that waits for no value. -/
theorem calls_close {f : OpenDoc} (hf : f.awaiting = false) :
    f.close.calls = f.calls ++ [f.endCall] := by
  match f with
  | .array items => rw [close, Doc.calls_array, calls, endCall]
  | .object members none => simp [close, Doc.calls_object, calls, endCall]

theorem context_add (d : Doc) (f : OpenDoc) : (f.add d).context = f.context := by
  cases f <;> rfl

theorem awaiting_add (d : Doc) (f : OpenDoc) : (f.add d).awaiting = false := by
  cases f <;> rfl

theorem isEmpty_add (d : Doc) (f : OpenDoc) : (f.add d).isEmpty = false := by
  cases f <;> simp [add, isEmpty]

end OpenDoc

/-- The root value, if it is complete, and the containers that are open, innermost first. -/
structure Described where
  root : Option Doc
  frames : List OpenDoc

namespace Described

/-- The calls so far. -/
def calls (D : Described) : List Call :=
  (D.root.map Doc.calls).getD [] ++ D.frames.reverse.flatMap OpenDoc.calls

/-- One more value. -/
def add (d : Doc) (D : Described) : Described :=
  match D.frames with
  | [] => ⟨some d, []⟩
  | f :: fs => ⟨D.root, f.add d :: fs⟩

/-- What the reader has open. -/
def readerFrames (D : Described) : List Json.Frame := D.frames.map OpenDoc.frame

/-- The state of the reader. -/
def reader (D : Described) : Json.Reader :=
  match D.frames with
  | [] =>
    match D.root with
    | none => .start
    | some d => ⟨.done d.json, []⟩
  | f :: _ =>
    ⟨if f.awaiting then .value false
      else if f.isEmpty then (match f with | .array _ => .value true | .object _ _ => .name true)
      else .after, D.readerFrames⟩

/-- A value may be written next. -/
def mayBegin (D : Described) : Bool :=
  match D.frames with
  | [] => D.root.isNone
  | f :: _ => f.mayBegin

theorem calls_add (d : Doc) {D : Described} (hD : D.mayBegin) :
    (D.add d).calls = D.calls ++ d.calls := by
  obtain ⟨root, frames⟩ := D
  match frames with
  | [] =>
    obtain rfl : root = none := Option.isNone_iff_eq_none.mp hD
    simp [add, calls]
  | f :: fs =>
    have hf : f.mayBegin := hD
    simp [add, calls, f.calls_add d hf]

/-- The reader has read one more value. -/
theorem reader_add (d : Doc) {D : Described} (hD : D.mayBegin) :
    (D.add d).reader = supply d.json D.readerFrames := by
  obtain ⟨root, frames⟩ := D
  match frames with
  | [] => rfl
  | .array items :: fs =>
    simp [add, reader, OpenDoc.add, OpenDoc.awaiting, OpenDoc.isEmpty, readerFrames,
      OpenDoc.frame, supply]
  | .object members key :: fs =>
    simp [add, reader, OpenDoc.add, OpenDoc.awaiting, OpenDoc.isEmpty, readerFrames,
      OpenDoc.frame, supply]

end Described

/-! ### The writer and the reader -/

namespace Described

def awaiting (D : Described) : Bool := (D.frames.head?.map OpenDoc.awaiting).getD false

/-- Nothing precedes what is written next. -/
def isEmpty (D : Described) : Bool := (D.frames.head?.map OpenDoc.isEmpty).getD D.root.isNone

end Described

/-- The state of a writer after calls: what the calls describe, the members of the writer that go
with it, and the reader that has read the bytes written. -/
structure Describes (w : Writer) (calls : List Call) (D : Described) : Prop where
  calls_eq : D.calls = calls
  stack : w.stack = D.frames.map OpenDoc.context ++ [.root]
  awaiting : w.awaitingValue = D.awaiting
  needComma : w.awaitingValue = false → w.needComma = !D.isEmpty
  depth : w.depth = D.frames.length
  root : D.frames ≠ [] → D.root = none
  outer : ∀ f ∈ D.frames.tail, f.mayBegin
  reader : ∃ r, Json.Reader.run .start w.out = some r ∧ settle r = D.reader

/-- Before the first call. -/
theorem describes_start (pretty : Bool) :
    Describes { pretty } [] ⟨none, []⟩ where
  calls_eq := rfl
  stack := rfl
  awaiting := rfl
  needComma _ := rfl
  depth := rfl
  root h := absurd rfl h
  outer := nofun
  reader := ⟨.start, rfl, rfl⟩

theorem isWhitespace_newlineText (w : Writer) :
    ∀ c ∈ w.newlineText, Json.Reader.isWhitespace c := by
  intro c hc
  rw [Writer.newlineText] at hc
  split_ifs at hc
  · rcases List.mem_cons.mp hc with rfl | hc
    · rfl
    · rw [List.eq_of_mem_replicate hc]
      rfl
  · exact absurd hc List.not_mem_nil

/-- Where a value is expected, a new line changes nothing. -/
theorem run_newline_value (w : Writer) (b : Bool) (fs : List Json.Frame) :
    Json.Reader.run ⟨.value b, fs⟩ w.newlineText = some ⟨.value b, fs⟩ :=
  Json.Reader.run_whitespace (isWhitespace_newlineText w) fun _ hc => if_pos hc

theorem run_newline_name (w : Writer) (b : Bool) (fs : List Json.Frame) :
    Json.Reader.run ⟨.name b, fs⟩ w.newlineText = some ⟨.name b, fs⟩ :=
  Json.Reader.run_whitespace (isWhitespace_newlineText w) fun _ hc => if_pos hc

theorem run_newline_after (w : Writer) (fs : List Json.Frame) :
    Json.Reader.run ⟨.after, fs⟩ w.newlineText = some ⟨.after, fs⟩ :=
  Json.Reader.run_whitespace (isWhitespace_newlineText w) fun _ hc => if_pos hc

/-- A reader that waits for a value or a name has read no number literal that may go on. -/
theorem eq_of_settle_eq {r r' : Json.Reader} (h : settle r = r')
    (hmode : (∃ b, r'.mode = .value b) ∨ ∃ b, r'.mode = .name b) : r = r' := by
  obtain ⟨mode, fs⟩ := r
  cases mode with
  | number p l =>
    simp only [settle] at h
    split_ifs at h
    · subst h
      exfalso
      rcases fs with _ | ⟨_ | _, fs⟩ <;> rcases hmode with ⟨b, hb⟩ | ⟨b, hb⟩ <;>
        exact Json.Mode.noConfusion hb
    · exact h
  | _ => exact h

namespace Describes

variable {w : Writer} {calls : List Call} {D : Described}

theorem head?_stack (h : Describes w calls D) :
    w.stack.head? = some ((D.frames.head?.map OpenDoc.context).getD .root) := by
  rw [h.stack]
  cases D.frames <;> rfl

/-- The separator before a value is read. -/
theorem run_separator (h : Describes w calls D) (hw : w.MayBegin)
    (hroot : D.frames = [] → D.root = none) :
    D.mayBegin ∧ ∃ b, Json.Reader.run .start (w.out ++ w.separator) =
      some ⟨.value b, D.readerFrames⟩ := by
  have hhead := h.head?_stack
  have hawait := h.awaiting
  have hcomma := h.needComma
  obtain ⟨r, hr, hsettle⟩ := h.reader
  obtain ⟨root, frames⟩ := D
  rw [Writer.MayBegin] at hw
  rw [run_append_of_run hr, Writer.separator]
  cases frames with
  | nil =>
    obtain rfl : root = none := hroot rfl
    have hawait' : w.awaitingValue = false := hawait
    have hcomma' : w.needComma = false := hcomma hawait'
    have hr' : r = .start := eq_of_settle_eq hsettle (Or.inl ⟨false, rfl⟩)
    refine ⟨rfl, false, ?_⟩
    rw [hawait', hcomma', hhead, hr']
    rfl
  | cons f fs =>
    cases f with
    | array items =>
      cases items with
      | nil =>
        have hawait' : w.awaitingValue = false := hawait
        have hcomma' : w.needComma = false := hcomma hawait'
        have hr' : r = ⟨.value true, _⟩ := eq_of_settle_eq hsettle (Or.inl ⟨true, rfl⟩)
        refine ⟨rfl, true, ?_⟩
        rw [hawait', hcomma', hhead, hr']
        exact run_newline_value w true _
      | cons d items =>
        have hawait' : w.awaitingValue = false := hawait
        have hcomma' : w.needComma = true := hcomma hawait'
        refine ⟨rfl, false, ?_⟩
        rw [hawait', hcomma']
        refine Json.Reader.run_settle (by decide) ?_
        rw [hsettle]
        exact run_newline_value w false _
    | object members key =>
      cases key with
      | none =>
        have hawait' : w.awaitingValue = false := hawait
        exact absurd ⟨hhead, by rw [hawait']; rfl⟩ hw
      | some k =>
        have hawait' : w.awaitingValue = true := hawait
        have hr' : r = ⟨.value false, _⟩ := eq_of_settle_eq hsettle (Or.inl ⟨false, rfl⟩)
        refine ⟨rfl, false, ?_⟩
        rw [if_pos hawait', run_nil, hr']

/-- A value is complete where one may begin. -/
theorem of_add (hD : D.mayBegin) (d : Doc)
    (hstack : w.stack = D.frames.map OpenDoc.context ++ [.root])
    (hawait : w.awaitingValue = false) (hcomma : w.needComma = true)
    (hdepth : w.depth = D.frames.length) (hroot : D.frames ≠ [] → D.root = none)
    (houter : ∀ f ∈ D.frames.tail, f.mayBegin)
    (hreader : ∃ r, Json.Reader.run .start w.out = some r ∧
      settle r = supply d.json D.readerFrames) :
    Describes w (D.calls ++ d.calls) (D.add d) := by
  rw [← Described.reader_add d hD] at hreader
  rw [← Described.calls_add d hD]
  obtain ⟨root, frames⟩ := D
  match frames with
  | [] =>
    exact
      { calls_eq := rfl, stack := hstack, awaiting := hawait, needComma := fun _ => hcomma
        depth := hdepth, root := fun h => absurd rfl h, outer := nofun, reader := hreader }
  | f :: fs =>
    exact
      { calls_eq := rfl
        stack := hstack.trans (congrArg (· :: _) (f.context_add d).symm)
        awaiting := hawait.trans (f.awaiting_add d).symm
        needComma := fun _ => hcomma.trans (congrArg (! ·) (f.isEmpty_add d).symm)
        depth := hdepth
        root := fun _ => hroot (List.cons_ne_nil f fs)
        outer := houter
        reader := hreader }

/-- A scalar. -/
theorem value (h : Describes w calls D) {v : Scalar} {w' : Writer} (hw : w.value v.text = .ok w')
    (hroot : D.frames = [] → D.root = none) :
    Describes w' (calls ++ [.value v]) (D.add (.scalar v)) := by
  obtain ⟨hbegin, rfl⟩ := Writer.value_eq_ok.mp hw
  obtain ⟨hD, b, hrun⟩ := h.run_separator hbegin hroot
  obtain ⟨r, hr, hsettle⟩ := run_scalar v b D.readerFrames
  have hcalls : (Doc.scalar v).calls = [.value v] := by rw [Doc.calls]
  have hjson : (Doc.scalar v).json = v.json := by rw [Doc.json]
  rw [← hcalls, ← h.calls_eq]
  exact of_add hD _ h.stack rfl rfl h.depth h.root h.outer
    ⟨r, by rw [run_append_of_run hrun, hr], by rw [hsettle, hjson]⟩

/-- A container begins. -/
theorem beginContainer (h : Describes w calls D) {bracket : Char} {f : OpenDoc} {w' : Writer}
    (hw : w.beginContainer bracket f.context = .ok w') (hroot : D.frames = [] → D.root = none)
    (hf : bracket = '[' ∧ f = .array [] ∨ bracket = '\x7b' ∧ f = .object [] none) :
    Describes w' (calls ++ f.calls) ⟨D.root, f :: D.frames⟩ := by
  obtain ⟨hbegin, rfl⟩ := Writer.beginContainer_eq_ok.mp hw
  obtain ⟨hD, b, hrun⟩ := h.run_separator hbegin hroot
  have hnone : D.root = none := by
    by_cases hframes : D.frames = []
    · exact hroot hframes
    · exact h.root hframes
  have hempty : f.isEmpty = true ∧ f.awaiting = false := by
    rcases hf with ⟨-, rfl⟩ | ⟨-, rfl⟩ <;> exact ⟨rfl, rfl⟩
  exact
    { calls_eq := by simp [Described.calls, ← h.calls_eq]
      stack := congrArg (_ :: ·) h.stack
      awaiting := hempty.2.symm
      needComma := fun _ => congrArg (! ·) hempty.1.symm
      depth := congrArg (· + 1) h.depth
      root := fun _ => hnone
      outer := by
        intro g hg
        have houter := h.outer
        obtain ⟨root, frames⟩ := D
        match frames with
        | [] => exact nomatch hg
        | g' :: fs =>
          rcases List.mem_cons.mp hg with rfl | hg
          · exact hD
          · exact houter g hg
      reader := by
        rcases hf with ⟨rfl, rfl⟩ | ⟨rfl, rfl⟩
        · refine ⟨⟨.value true, .array [] :: D.readerFrames⟩, ?_, rfl⟩
          rw [run_append_of_run hrun]
          cases b <;> rfl
        · refine ⟨⟨.name true, .object [] [] :: D.readerFrames⟩, ?_, rfl⟩
          rw [run_append_of_run hrun]
          cases b <;> rfl }

/-- A container ends. -/
theorem endContainer {root : Option Doc} {f : OpenDoc} {fs : List OpenDoc}
    (h : Describes w calls ⟨root, f :: fs⟩) (hf : f.awaiting = false) :
    Describes (w.endContainer f.bracket) (calls ++ [f.endCall])
      (Described.add f.close ⟨root, fs⟩) := by
  have hD : Described.mayBegin ⟨root, fs⟩ := by
    cases fs with
    | nil => exact Option.isNone_iff_eq_none.mpr (h.root (List.cons_ne_nil _ _))
    | cons g fs => exact h.outer g List.mem_cons_self
  have hcalls : calls ++ [f.endCall] = Described.calls ⟨root, fs⟩ ++ f.close.calls := by
    rw [OpenDoc.calls_close hf, ← h.calls_eq]
    simp [Described.calls]
  have hawait : w.awaitingValue = false := h.awaiting.trans hf
  have hcomma : w.needComma = !f.isEmpty := h.needComma hawait
  have hnewline := run_newline_after { w with depth := w.depth - 1 }
  obtain ⟨r, hr, hsettle⟩ := h.reader
  rw [hcalls, Writer.endContainer_eq]
  refine of_add hD _ (by rw [h.stack]; rfl) hawait rfl (by rw [h.depth]; rfl)
    (fun _ => h.root (List.cons_ne_nil _ _)) (fun g hg => h.outer g (List.mem_of_mem_tail hg))
    ⟨supply f.close.json (fs.map OpenDoc.frame), ?_, Json.Reader.settle_supply _ _⟩
  rw [List.append_assoc, run_append_of_run hr, Writer.closingText, hcomma]
  cases f with
  | array items =>
    cases items with
    | nil =>
      have hr' : r = ⟨.value true, _⟩ := eq_of_settle_eq hsettle (Or.inl ⟨true, rfl⟩)
      rw [hr', OpenDoc.close, Doc.json_array]
      rfl
    | cons d items =>
      have hclose : Json.Reader.run ⟨.after, (OpenDoc.array (d :: items) :: fs).map OpenDoc.frame⟩
          [ch ']'] = some (supply (OpenDoc.array (d :: items)).close.json
            (fs.map OpenDoc.frame)) := by
        rw [OpenDoc.close, Doc.json_array]
        rfl
      cases hpretty : w.pretty with
      | false =>
        exact Json.Reader.run_settle (c := ch ']') (by decide) (by rw [hsettle]; exact hclose)
      | true =>
        have hrun := (run_append_of_run (hnewline _) _).trans hclose
        simp only [Writer.newlineText, hpretty, if_true, List.cons_append] at hrun ⊢
        exact Json.Reader.run_settle (by decide) (by rw [hsettle]; exact hrun)
  | object members key =>
    obtain rfl : key = none := Option.isNone_iff_eq_none.mp (Option.isSome_eq_false_iff.mp hf)
    cases members with
    | nil =>
      have hr' : r = ⟨.name true, _⟩ := eq_of_settle_eq hsettle (Or.inr ⟨true, rfl⟩)
      rw [hr', OpenDoc.close, Doc.json_object]
      rfl
    | cons m members =>
      have hclose : Json.Reader.run ⟨.after, (OpenDoc.object (m :: members) none :: fs).map
          OpenDoc.frame⟩ [ch '\x7d'] = some (supply (OpenDoc.object (m :: members) none).close.json
            (fs.map OpenDoc.frame)) := by
        rw [OpenDoc.close, Doc.json_object]
        rfl
      cases hpretty : w.pretty with
      | false =>
        exact Json.Reader.run_settle (c := ch '\x7d') (by decide) (by rw [hsettle]; exact hclose)
      | true =>
        have hrun := (run_append_of_run (hnewline _) _).trans hclose
        simp only [Writer.newlineText, hpretty, if_true, List.cons_append] at hrun ⊢
        exact Json.Reader.run_settle (by decide) (by rw [hsettle]; exact hrun)

/-- A key. -/
theorem key {root : Option Doc} {members : List (Str × Doc)} {fs : List OpenDoc}
    (h : Describes w calls ⟨root, .object members none :: fs⟩) (k : Str) :
    Describes { w with out := w.out ++ w.keyText k, awaitingValue := true } (calls ++ [.key k])
      ⟨root, .object members (some k) :: fs⟩ where
  calls_eq := by simp [Described.calls, OpenDoc.calls, ← h.calls_eq]
  stack := h.stack
  awaiting := rfl
  needComma := nofun
  depth := h.depth
  root _ := h.root (List.cons_ne_nil _ _)
  outer := h.outer
  reader := by
    have hcomma : w.needComma = !members.isEmpty := h.needComma (h.awaiting.trans rfl)
    obtain ⟨r, hr, hsettle⟩ := h.reader
    -- the key itself, where a name is expected
    have hkey : ∀ (b : Bool) (n : Str), Json.Reader.run
        ⟨.name b, .object (members.map fun m => (m.1, m.2.json)) n :: fs.map OpenDoc.frame⟩
        (w.newlineText ++ (Writer.escapedString k ++ ([ch ':'] ++
          if w.pretty then [ch ' '] else []))) =
        some ⟨.value false, .object (members.map fun m => (m.1, m.2.json)) k ::
          fs.map OpenDoc.frame⟩ := fun b n => by
      have hquote : Json.Reader.run ⟨.name b, .object (members.map fun m => (m.1, m.2.json)) n ::
          fs.map OpenDoc.frame⟩ (Writer.escapedString k) = some ⟨.colon,
            .object (members.map fun m => (m.1, m.2.json)) k :: fs.map OpenDoc.frame⟩ := by
        have hstep : ∀ fs, Json.Reader.step ⟨.name b, fs⟩ (ch '"') =
            some ⟨.text true [] .none, fs⟩ := fun fs => by cases b <;> rfl
        rw [Writer.escapedString, run_cons, hstep, Option.bind_some, run_escapedString]
        rfl
      rw [run_append_of_run (run_newline_name w b _), run_append_of_run hquote]
      cases w.pretty <;> rfl
    refine ⟨⟨.value false, .object (members.map fun m => (m.1, m.2.json)) k ::
      fs.map OpenDoc.frame⟩, ?_, rfl⟩
    simp only [run_append_of_run hr, Writer.keyText, List.append_assoc, hcomma]
    cases members with
    | nil =>
      have hr' : r = ⟨.name true, _⟩ := eq_of_settle_eq hsettle (Or.inr ⟨true, rfl⟩)
      rw [hr']
      exact hkey true []
    | cons m members =>
      refine Json.Reader.run_settle (by decide) ?_
      rw [hsettle]
      exact hkey false []

/-- The bytes are the beginning of a JSON text. -/
theorem exists_parse (h : Describes w calls D) :
    ∃ rest v, Json.parse (w.out ++ rest) = some v := by
  obtain ⟨r, hr, hsettle⟩ := h.reader
  refine Json.Reader.Completable.exists_parse hr ?_
  obtain ⟨root, frames⟩ := D
  match frames, root with
  | [], none =>
    have hr' : r = .start := eq_of_settle_eq hsettle (Or.inl ⟨false, rfl⟩)
    rw [hr']
    exact Json.Reader.completable_value false []
  | [], some d =>
    have hsettle : Json.Reader.settle r = Json.Reader.supply d.json [] := hsettle
    exact Json.Reader.completable_of_settle hsettle
  | .object members (some k) :: fs, _ =>
    have hr' : r = ⟨.value false, _⟩ := eq_of_settle_eq hsettle (Or.inl ⟨false, rfl⟩)
    rw [hr']
    exact Json.Reader.completable_value false _
  | .array [] :: fs, _ =>
    have hr' : r = ⟨.value true, _⟩ := eq_of_settle_eq hsettle (Or.inl ⟨true, rfl⟩)
    rw [hr']
    exact Json.Reader.completable_value true _
  | .object [] none :: fs, _ =>
    have hr' : r = ⟨.name true, _⟩ := eq_of_settle_eq hsettle (Or.inr ⟨true, rfl⟩)
    rw [hr']
    exact Json.Reader.completable_name _ _ _
  | .array (d :: items) :: fs, _ => exact Json.Reader.completable_after hsettle
  | .object (m :: members) none :: fs, _ => exact Json.Reader.completable_after hsettle

/-- When every container is closed, the bytes are the text of the tree that the calls describe. -/
theorem exists_doc (h : Describes w calls D) (hclosed : w.stack = [.root]) (hne : calls ≠ []) :
    ∃ d : Doc, calls = d.calls ∧ Json.parse w.out = some d.json := by
  have hstack := h.stack
  have hcalls := h.calls_eq
  obtain ⟨r, hr, hsettle⟩ := h.reader
  obtain ⟨root, frames⟩ := D
  match frames, root with
  | [], none => exact absurd hcalls.symm hne
  | [], some d =>
    refine ⟨d, by rw [← hcalls]; exact List.append_nil _, ?_⟩
    have hresult : r.result = some d.json := by rw [Json.Reader.result, hsettle]; rfl
    rw [Json.parse, hr, Option.bind_some, hresult]
  | f :: fs, _ =>
    rw [hclosed] at hstack
    have hlen := congrArg List.length hstack
    simp only [List.length_append, List.length_map, List.length_cons] at hlen
    omega

/-- A second value at root level begins with a comma, which no JSON text has there. -/
theorem run_second (h : Describes w calls D) (hframes : D.frames = []) (hroot : D.root ≠ none)
    (t : Str) : Json.Reader.run .start (w.out ++ w.separator ++ t) = none := by
  obtain ⟨root, frames⟩ := D
  obtain rfl : frames = [] := hframes
  obtain ⟨d, rfl⟩ := Option.ne_none_iff_exists'.mp hroot
  have hawait : w.awaitingValue = false := h.awaiting
  have hcomma : w.needComma = true := h.needComma hawait
  obtain ⟨r, hr, hsettle⟩ := h.reader
  have hsep : w.separator = ch ',' :: w.newlineText := by
    rw [Writer.separator, hawait, hcomma]
    rfl
  have hstep : Json.Reader.step r (ch ',') = none := by
    rw [← Json.Reader.step_settle r (by decide), hsettle]
    rfl
  rw [hsep, List.append_assoc, run_append_of_run hr, List.cons_append, run_cons, hstep]
  rfl

end Describes

/-! ### Runs -/

/-- The depth and the number of values at root level after one more call. -/
def rootStep (s : ℕ × ℕ) : Call → ℕ × ℕ
  | .beginObject | .beginArray => (s.1 + 1, if s.1 = 0 then s.2 + 1 else s.2)
  | .endObject | .endArray => (s.1 - 1, s.2)
  | .key _ => s
  | .value _ => (s.1, if s.1 = 0 then s.2 + 1 else s.2)

/-- How many values, scalars or containers, calls write at root level. -/
def rootValues (calls : List Call) : ℕ := (calls.foldl rootStep (0, 0)).2

theorem rootStep_mono (s : ℕ × ℕ) (c : Call) : s.2 ≤ (rootStep s c).2 := by
  cases c <;> simp only [rootStep] <;> (try split_ifs) <;> omega

/-- The number of values at root level that a described state stands for. -/
def Described.roots (D : Described) : ℕ := if D.frames = [] ∧ D.root = none then 0 else 1

/-- What holds of the writer after calls: they describe a tree as long as they write one value at
most at root level, and the reader has refused the bytes when they write more. -/
def Followed (w : Writer) (calls : List Call) : Prop :=
  (∃ D, Describes w calls D ∧ calls.foldl rootStep (0, 0) = (D.frames.length, D.roots)) ∨
    (2 ≤ rootValues calls ∧ Json.Reader.run .start w.out = none)

theorem Described.roots_add (d : Doc) (D : Described) : (D.add d).roots = 1 := by
  obtain ⟨root, frames⟩ := D
  cases frames <;> rfl

theorem Described.length_add (d : Doc) (D : Described) :
    (D.add d).frames.length = D.frames.length := by
  obtain ⟨root, frames⟩ := D
  cases frames <;> rfl

/-- A value that may be written at its place counts once at root level. -/
theorem Described.roots_of_free {D : Described} (hfree : D.frames = [] → D.root = none) :
    (if D.frames.length = 0 then D.roots + 1 else D.roots) = 1 := by
  obtain ⟨root, frames⟩ := D
  cases frames with
  | nil =>
    obtain rfl : root = none := hfree rfl
    rfl
  | cons f fs => rfl

/-- One call that begins a value. -/
theorem Followed.exec_value {w w' : Writer} {calls : List Call} {D : Described} {c : Call} {n : ℕ}
    (hD : Describes w calls D) (hroots : calls.foldl rootStep (0, 0) = (D.frames.length, D.roots))
    (hc : ∀ s, rootStep s c = (s.1 + n, if s.1 = 0 then s.2 + 1 else s.2))
    (hout : ∃ t, w'.out = w.out ++ w.separator ++ t)
    (hfree : (D.frames = [] → D.root = none) →
      ∃ D', Describes w' (calls ++ [c]) D' ∧ D'.frames.length = D.frames.length + n ∧
        D'.roots = 1) :
    Followed w' (calls ++ [c]) := by
  by_cases h : D.frames = [] → D.root = none
  · obtain ⟨D', hD', hlen, hone⟩ := hfree h
    refine Or.inl ⟨D', hD', ?_⟩
    rw [List.foldl_append, List.foldl_cons, List.foldl_nil, hroots, hc, hlen, hone,
      Described.roots_of_free h]
  · rw [Classical.not_imp] at h
    obtain ⟨t, ht⟩ := hout
    refine Or.inr ⟨?_, by rw [ht]; exact hD.run_second h.1 h.2 t⟩
    rw [rootValues, List.foldl_append, List.foldl_cons, List.foldl_nil, hroots, hc]
    simp [Described.roots, h.1, h.2]

/-- One call. -/
theorem Followed.exec {w w' : Writer} {calls : List Call} {c : Call} (h : Followed w calls)
    (hw : w.exec c = .ok w') : Followed w' (calls ++ [c]) := by
  rcases h with ⟨D, hD, hroots⟩ | ⟨htwo, hnone⟩
  swap
  · obtain ⟨t, ht⟩ := Writer.exec_out hw
    refine Or.inr ⟨?_, by rw [ht, Json.Reader.run_append, hnone]; rfl⟩
    rw [rootValues, List.foldl_append]
    exact htwo.trans (rootStep_mono _ c)
  have hhead := hD.head?_stack
  have hend : ∀ {f : OpenDoc} {fs : List OpenDoc}, D.frames = f :: fs → f.awaiting = false →
      w' = w.endContainer f.bracket → c = f.endCall → Followed w' (calls ++ [c]) := by
    rintro f fs hframes hawait rfl rfl
    obtain ⟨root, frames⟩ := D
    obtain rfl : frames = f :: fs := hframes
    refine Or.inl ⟨_, hD.endContainer hawait, ?_⟩
    rw [List.foldl_append, List.foldl_cons, List.foldl_nil, hroots, Described.roots_add,
      Described.length_add]
    cases f <;> rfl
  match c with
  | .beginObject =>
    refine Followed.exec_value (n := 1) hD hroots (fun s => rfl) ?_ fun hfree => ?_
    · obtain ⟨-, rfl⟩ := Writer.beginContainer_eq_ok.mp hw
      exact ⟨_, rfl⟩
    · exact ⟨_, hD.beginContainer (f := .object [] none) hw hfree (Or.inr ⟨rfl, rfl⟩), rfl, rfl⟩
  | .beginArray =>
    refine Followed.exec_value (n := 1) hD hroots (fun s => rfl) ?_ fun hfree => ?_
    · obtain ⟨-, rfl⟩ := Writer.beginContainer_eq_ok.mp hw
      exact ⟨_, rfl⟩
    · exact ⟨_, hD.beginContainer (f := .array []) hw hfree (Or.inl ⟨rfl, rfl⟩), rfl, rfl⟩
  | .value v =>
    rw [Writer.exec_value] at hw
    refine Followed.exec_value (n := 0) hD hroots (fun s => rfl) ?_ fun hfree => ?_
    · obtain ⟨-, rfl⟩ := Writer.value_eq_ok.mp hw
      exact ⟨_, rfl⟩
    · exact ⟨_, hD.value hw hfree, Described.length_add _ _, Described.roots_add _ _⟩
  | .endObject =>
    obtain ⟨-, hobject, hawait, heq⟩ := Writer.endObject_eq_ok.mp hw
    rw [hhead] at hobject
    match hframes : D.frames with
    | [] =>
      rw [hframes] at hobject
      exact Context.noConfusion (Option.some.inj hobject)
    | .array items :: fs =>
      rw [hframes] at hobject
      exact Context.noConfusion (Option.some.inj hobject)
    | .object members key :: fs =>
      refine hend hframes ?_ heq rfl
      rw [hD.awaiting, Described.awaiting, hframes] at hawait
      exact hawait
  | .endArray =>
    obtain ⟨-, harray, heq⟩ := Writer.endArray_eq_ok.mp hw
    rw [hhead] at harray
    match hframes : D.frames with
    | [] =>
      rw [hframes] at harray
      exact Context.noConfusion (Option.some.inj harray)
    | .array items :: fs => exact hend hframes rfl heq rfl
    | .object members key :: fs =>
      rw [hframes] at harray
      exact Context.noConfusion (Option.some.inj harray)
  | .key k =>
    obtain ⟨hobject, hawait, rfl⟩ := Writer.key_eq_ok.mp hw
    rw [hhead] at hobject
    obtain ⟨root, frames⟩ := D
    match frames with
    | [] => exact Context.noConfusion (Option.some.inj hobject)
    | .array items :: fs => exact Context.noConfusion (Option.some.inj hobject)
    | .object members (some k') :: fs =>
      rw [hD.awaiting] at hawait
      exact Bool.noConfusion hawait
    | .object members none :: fs =>
      refine Or.inl ⟨_, hD.key k, ?_⟩
      rw [List.foldl_append, hroots]
      rfl

/-- Any number of calls. -/
theorem Followed.run {w w' : Writer} {calls more : List Call} (h : Followed w calls)
    (hw : w.run more = .ok w') : Followed w' (calls ++ more) := by
  induction more generalizing w calls with
  | nil =>
    obtain rfl : w = w' := Except.ok.inj hw
    rwa [List.append_nil]
  | cons c more ih =>
    rw [Writer.run, List.foldlM_cons] at hw
    obtain ⟨u, hu, hw⟩ := bind_eq_ok.mp hw
    have htail := ih (h.exec hu) hw
    rwa [List.append_assoc, List.singleton_append] at htail

/-- **The calls whose bytes are one JSON text.** After calls none of which throws, compact or
indented, the bytes written are the beginning of a JSON text, and the text of the tree that the
calls describe once every container is closed, exactly when the calls write one value at most at
root level. -/
theorem writer_text_iff (pretty : Bool) (calls : List Call) (w : Writer)
    (hw : Writer.run { pretty } calls = .ok w) :
    ((∃ rest v, Json.parse (w.out ++ rest) = some v) ∧
      (w.stack = [.root] → calls ≠ [] →
        ∃ d : Doc, calls = d.calls ∧ Json.parse w.out = some d.json)) ↔
    rootValues calls ≤ 1 := by
  have hstart : Followed { pretty } [] := Or.inl ⟨_, describes_start pretty, rfl⟩
  have hrun : Followed w calls := hstart.run hw
  rcases hrun with ⟨D, hD, hroots⟩ | ⟨htwo, hnone⟩
  · refine ⟨fun _ => ?_, fun _ => ⟨hD.exists_parse, hD.exists_doc⟩⟩
    rw [rootValues, hroots, Described.roots]
    show (if D.frames = [] ∧ D.root = none then 0 else 1) ≤ 1
    split_ifs
    · exact Nat.zero_le 1
    · exact le_rfl
  · constructor
    · rintro ⟨⟨rest, v, hv⟩, -⟩
      rw [Json.Reader.parse_append_of_run_eq_none hnone] at hv
      exact nomatch hv
    · intro hone
      omega

theorem writer_text_iff_array :
    rootValues [.beginArray, .value (.uint 1), .endArray] ≤ 1 ∧
    ∃ w : Writer,
      Writer.run { pretty := false } [.beginArray, .value (.uint 1), .endArray] = .ok w ∧
      ∃ d : Doc, [Call.beginArray, .value (.uint 1), .endArray] = d.calls ∧
        Json.parse w.out = some d.json := by
  obtain ⟨w, hw, hstack⟩ : ∃ w : Writer,
      Writer.run { pretty := false } [.beginArray, .value (.uint 1), .endArray] = .ok w ∧
        w.stack = [.root] := ⟨_, rfl, rfl⟩
  have hone : rootValues [.beginArray, .value (.uint 1), .endArray] ≤ 1 := by decide
  have htext := (writer_text_iff false _ w hw).mpr hone
  exact ⟨hone, w, hw, htext.2 hstack (by simp)⟩

theorem exists_run_null_null : ∃ w : Writer,
    Writer.run { pretty := false } [.value .null, .value .null] = .ok w ∧
      w.out = str "null,null" ∧ Json.Reader.run .start w.out = none :=
  ⟨_, rfl, by decide +kernel, by decide +kernel⟩

/-- Two values at root level: no call throws, and the text `null,null` begins no JSON text. -/
theorem second_root_value_written :
    ∃ w : Writer, Writer.run { pretty := false } [.value .null, .value .null] = .ok w ∧
      w.out = str "null,null" ∧ ∀ rest, Json.parse (w.out ++ rest) = none := by
  obtain ⟨w, hw, hout, hnone⟩ := exists_run_null_null
  exact ⟨w, hw, hout, Json.Reader.parse_append_of_run_eq_none hnone⟩

end Papa.Util
