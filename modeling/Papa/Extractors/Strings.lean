import Mathlib.Algebra.Group.Nat.Defs
import Papa.Library.Runs
import Papa.Util.Text

/-!
# Strings of a buffer

The printable runs of a buffer are its strings, of bytes in one pass and of pairs of a byte and zero
in another one. A run is kept if it is long enough and does not begin in a region that is filled
with one byte. A pass keeps up to four million strings.

The pass over bytes looks at their number when a run ends inside the buffer, and not when the run
ends with it.

## Main definitions

* `isInRepeatFillRegion`, `extractAsciiStrings`, `extractUnicodeStrings`: the passes.
* `Lists`: the first strings of all, in ascending order.
* `Overflows`: the buffers whose last run is one string too many.

## Main results

* `asciiLoop_eq`, `unicodeLoop_eq`: the passes as functions of the runs.
* `kept_eq_take`, `length_kept_of_overflows`: what the pass over bytes keeps of the runs.
* `exact_iff`: when both passes return the first strings.
-/

namespace Papa.Extractors

open Runs (Run IsRun runs runsFrom)

/-! ### The passes -/

/-- Half of the window in which a fill is looked for. -/
def kHalfWindow : ℕ := 4096 / 2

def kRepeatFillBytes : List UInt8 := [0x00, 0xFE, 0xFF, 0x41]

/-- The most strings of one pass. -/
def kMaxStringsPerPass : ℕ := 2 ^ 22

/-- `range_is_all`. -/
def rangeIsAll (buf : List UInt8) (start stop : ℕ) (fill : UInt8) : Bool :=
  (List.range' start (stop - start)).all fun i => buf.getD i 0 == fill

/-- `is_in_repeat_fill_region`. -/
def isInRepeatFillRegion (buf : List UInt8) (offset : ℕ) : Bool :=
  if buf.isEmpty then false
  else if buf.length ≤ offset then false
  else
    let start := if offset > kHalfWindow then offset - kHalfWindow else 0
    let stop := min buf.length (offset + kHalfWindow)
    if start = stop then false else kRepeatFillBytes.any (rangeIsAll buf start stop)

/-- `is_ascii_printable` on a byte: a space up to a tilde, or a tab. -/
def isAsciiPrintable (c : UInt8) : Bool := (0x20 ≤ c && c ≤ 0x7E) || c == 0x09

/-- A string and its offset in the buffer. -/
structure ExtractedString where
  value : Str
  offset : ℕ
  deriving DecidableEq

section Passes

variable (buf : List UInt8) (minLen : ℕ)

/-- Add a run of bytes to the strings, if it is one. -/
def addAscii (runStart runLen : ℕ) (out : List ExtractedString) : List ExtractedString :=
  if minLen ≤ runLen ∧ ¬isInRepeatFillRegion buf runStart then
    out ++ [⟨(List.range runLen).map fun k => buf.getD (runStart + k) 0, runStart⟩]
  else out

/-- The loop over the bytes left, with the start of the run it is in. -/
def asciiLoop : List UInt8 → (i : ℕ) → (run : Option ℕ) → List ExtractedString →
    List ExtractedString
  | [], _, run, out =>
    match run with
    | none => out
    | some runStart => addAscii buf minLen runStart (buf.length - runStart) out
  | b :: rest, i, run, out =>
    if isAsciiPrintable b then asciiLoop rest (i + 1) (some (run.getD i)) out
    else
      match run with
      | none => asciiLoop rest (i + 1) none out
      | some runStart =>
        if kMaxStringsPerPass ≤ out.length then out
        else asciiLoop rest (i + 1) none (addAscii buf minLen runStart (i - runStart) out)

/-- `extract_ascii_strings`. -/
def extractAsciiStrings : List ExtractedString :=
  if buf.isEmpty ∨ minLen = 0 then [] else asciiLoop buf minLen buf 0 none []

/-- `flush`: add a run of pairs to the strings, if it is one. -/
def flush (runStart runUnits : ℕ) (out : List ExtractedString) : List ExtractedString :=
  if minLen ≤ runUnits ∧ out.length < kMaxStringsPerPass ∧ ¬isInRepeatFillRegion buf runStart then
    out ++ [⟨(List.range runUnits).map fun k => buf.getD (runStart + k * 2) 0, runStart⟩]
  else out

/-- The loop over the pairs left, with the start of the run it is in and the pairs in it. -/
def unicodeLoop : List UInt8 → (i : ℕ) → (run : Option (ℕ × ℕ)) → List ExtractedString →
    List ExtractedString
  | low :: high :: rest, i, run, out =>
    if high == 0 && isAsciiPrintable low then
      let (runStart, runUnits) := run.getD (i, 0)
      unicodeLoop rest (i + 2) (some (runStart, runUnits + 1)) out
    else
      match run with
      | none => unicodeLoop rest (i + 2) none out
      | some (runStart, runUnits) =>
        unicodeLoop rest (i + 2) none (flush buf minLen runStart runUnits out)
  | _, _, run, out =>
    match run with
    | none => out
    | some (runStart, runUnits) => flush buf minLen runStart runUnits out

/-- `extract_unicode_strings`. -/
def extractUnicodeStrings : List ExtractedString :=
  if buf.length < 2 ∨ minLen = 0 then [] else unicodeLoop buf minLen buf 0 none []

end Passes

/-! ### The strings of a buffer -/

section Spec

variable (buf : List UInt8) (minLen : ℕ)

/-- The printable bytes. -/
def asciiUnits : List Bool := buf.map isAsciiPrintable

/-- The pairs of a printable byte and zero, from the first byte on. -/
def unicodeUnits : List UInt8 → List Bool
  | low :: high :: rest => (high == 0 && isAsciiPrintable low) :: unicodeUnits rest
  | _ => []

/-- A run is a string if it is long enough and begins outside a region of one byte. -/
def keepsAscii (r : Run) : Bool :=
  decide (minLen ≤ r.stop - r.start) && !isInRepeatFillRegion buf r.start

def keepsUnicode (r : Run) : Bool :=
  decide (minLen ≤ r.stop - r.start) && !isInRepeatFillRegion buf (2 * r.start)

/-- The string of a run of bytes. -/
def asciiString (r : Run) : ExtractedString := ⟨(buf.drop r.start).take (r.stop - r.start), r.start⟩

/-- The string of a run of pairs: their first bytes. -/
def unicodeString (r : Run) : ExtractedString :=
  ⟨(List.range' r.start (r.stop - r.start)).map fun k => buf.getD (2 * k) 0, 2 * r.start⟩

end Spec

/-- Some strings are the first ones of all that come from maximal runs, in the order of the runs. -/
def Lists (us : List Bool) (keeps : Run → Bool) (string : Run → ExtractedString)
    (out : List ExtractedString) : Prop :=
  ∃ all : List Run, (∀ r, r ∈ all ↔ IsRun us r ∧ keeps r) ∧ all.Pairwise (·.start < ·.start) ∧
    out = (all.take kMaxStringsPerPass).map string

/-- Both passes return the first strings in ascending order, and no more than there may be. -/
structure Exact (buf : List UInt8) (minLen : ℕ) : Prop where
  ascii : Lists (asciiUnits buf) (keepsAscii buf minLen) (asciiString buf)
    (extractAsciiStrings buf minLen)
  ascii_ascending : (extractAsciiStrings buf minLen).Pairwise (·.offset < ·.offset)
  ascii_le : (extractAsciiStrings buf minLen).length ≤ kMaxStringsPerPass
  unicode : Lists (unicodeUnits buf) (keepsUnicode buf minLen) (unicodeString buf)
    (extractUnicodeStrings buf minLen)
  unicode_ascending : (extractUnicodeStrings buf minLen).Pairwise (·.offset < ·.offset)
  unicode_le : (extractUnicodeStrings buf minLen).length ≤ kMaxStringsPerPass

/-- The buffer ends in a string, the run before it is a string too, and with that one there are as
many strings as there may be. -/
def Overflows (buf : List UInt8) (minLen : ℕ) : Prop :=
  ∃ before a b, runs (asciiUnits buf) = before ++ [a, b] ∧ b.stop = buf.length ∧
    keepsAscii buf minLen a ∧ keepsAscii buf minLen b ∧
    (before.filter (keepsAscii buf minLen)).length + 1 = kMaxStringsPerPass

/-! ### The passes as functions of the runs -/

section Loops

variable {buf : List UInt8} {minLen : ℕ}

/-- The bytes of a run, one by one. -/
theorem map_getD_eq {start len : ℕ} (h : start + len ≤ buf.length) :
    (List.range len).map (fun k => buf.getD (start + k) 0) = (buf.drop start).take len := by
  refine List.ext_getElem (by simp; omega) fun i hi _ => ?_
  have hlt : i < len := by simpa using hi
  simp [List.getElem?_eq_getElem (show start + i < buf.length by omega)]

theorem addAscii_eq {start i : ℕ} (hi : i ≤ buf.length) (out : List ExtractedString) :
    addAscii buf minLen start (i - start) out =
      out ++ (if keepsAscii buf minLen ⟨start, i⟩ then [asciiString buf ⟨start, i⟩] else []) := by
  have hvalue : (List.range (i - start)).map (fun k => buf.getD (start + k) 0) =
      (buf.drop start).take (i - start) := by
    by_cases hle : start ≤ i
    · exact map_getD_eq (by omega)
    · rw [Nat.sub_eq_zero_of_le (by omega), List.take_zero]
      rfl
  rw [addAscii, hvalue]
  by_cases hkeeps : keepsAscii buf minLen ⟨start, i⟩
  · rw [if_pos hkeeps, if_pos (by simpa [keepsAscii] using hkeeps)]
    rfl
  · rw [if_neg hkeeps, if_neg (by simpa [keepsAscii] using hkeeps), List.append_nil]

/-- What the pass over bytes keeps of the runs, with a number of strings found before. A run that
ends with the buffer is kept whatever the number is. -/
def kept (n : ℕ) (keeps : Run → Bool) : List Run → (count : ℕ) → List Run
  | [], _ => []
  | r :: rs, count =>
    if r.stop = n then if keeps r then [r] else []
    else if kMaxStringsPerPass ≤ count then []
    else if keeps r then r :: kept n keeps rs (count + 1)
    else kept n keeps rs count

/-- **The pass over bytes** as a function of the runs. -/
theorem asciiLoop_eq {rest : List UInt8} {i : ℕ} (hi : i + rest.length = buf.length)
    (run : Option ℕ) (out : List ExtractedString) :
    asciiLoop buf minLen rest i run out = out ++ (kept buf.length (keepsAscii buf minLen)
      (runsFrom (rest.map isAsciiPrintable) i run) out.length).map (asciiString buf) := by
  induction rest generalizing i run out with
  | nil =>
    cases run with
    | none => exact (List.append_nil out).symm
    | some start =>
      have hend : i = buf.length := hi
      rw [asciiLoop, ← hend, addAscii_eq hend.le, List.map_nil, runsFrom, kept, if_pos rfl]
      split_ifs <;> rfl
  | cons b rest ih =>
    have hlt : i < buf.length := by
      rw [List.length_cons] at hi
      omega
    have hi' : i + 1 + rest.length = buf.length := by
      rw [List.length_cons] at hi
      omega
    cases run with
    | none =>
      rw [asciiLoop]
      by_cases hb : isAsciiPrintable b = true
      · rw [if_pos hb, List.map_cons, hb, runsFrom, ih hi']
      · rw [if_neg hb, List.map_cons, eq_false_of_ne_true hb, runsFrom, ih hi']
    | some start =>
      rw [asciiLoop]
      by_cases hb : isAsciiPrintable b = true
      · rw [if_pos hb, List.map_cons, hb, runsFrom, ih hi']
      · rw [if_neg hb, List.map_cons, eq_false_of_ne_true hb, runsFrom, kept,
          if_neg hlt.ne]
        split_ifs with hcap hkeeps
        · exact (List.append_nil out).symm
        · rw [ih hi', addAscii_eq hlt.le, if_pos hkeeps, List.length_append, List.append_assoc]
          rfl
        · rw [ih hi', addAscii_eq hlt.le, if_neg hkeeps, List.append_nil]

/-- Taking from a first part and what is left from a second one. -/
theorem take_append_take_rest {α : Type*} (l l' : List α) (n : ℕ) :
    l.take n ++ l'.take (n - (l.take n).length) = (l ++ l').take n := by
  rw [List.take_append, List.length_take]
  congr 2
  omega

/-- Adding a run of pairs, if it is a string and there is room for it. -/
theorem flush_eq {start u : ℕ} (out : List ExtractedString) :
    flush buf minLen (2 * start) (u - start) out =
      out ++ (([⟨start, u⟩].filter (keepsUnicode buf minLen)).take
        (kMaxStringsPerPass - out.length)).map (unicodeString buf) := by
  have hvalue : (List.range (u - start)).map (fun k => buf.getD (2 * start + k * 2) 0) =
      (List.range' start (u - start)).map fun k => buf.getD (2 * k) 0 := by
    rw [List.range'_eq_map_range, List.map_map]
    refine List.map_congr_left fun k _ => ?_
    rw [Function.comp_apply, Nat.mul_add, Nat.mul_comm k]
  rw [flush, hvalue]
  by_cases hkeeps : keepsUnicode buf minLen ⟨start, u⟩
  · rw [List.filter_cons_of_pos hkeeps, List.filter_nil]
    simp only [keepsUnicode, Bool.and_eq_true, decide_eq_true_eq, Bool.not_eq_true'] at hkeeps
    by_cases hroom : out.length < kMaxStringsPerPass
    · rw [if_pos ⟨hkeeps.1, hroom, by simp [hkeeps.2]⟩, List.take_of_length_le
        (by rw [List.length_singleton]; omega)]
      rfl
    · rw [if_neg fun h => hroom h.2.1, Nat.sub_eq_zero_of_le (not_lt.mp hroom), List.take_zero,
        List.map_nil, List.append_nil]
  · rw [List.filter_cons_of_neg hkeeps, List.filter_nil, List.take_nil, List.map_nil,
      List.append_nil, if_neg]
    rintro ⟨hlen, -, hfill⟩
    exact hkeeps (by simp [keepsUnicode, hlen, hfill])

/-- **The pass over pairs** as a function of the runs. -/
theorem unicodeLoop_eq {rest : List UInt8} {u : ℕ} {run : Option ℕ} (hrun : Runs.Early u run)
    (out : List ExtractedString) :
    unicodeLoop buf minLen rest (2 * u) (run.map fun s => (2 * s, u - s)) out =
      out ++ (((runsFrom (unicodeUnits rest) u run).filter (keepsUnicode buf minLen)).take
        (kMaxStringsPerPass - out.length)).map (unicodeString buf) := by
  induction rest using unicodeUnits.induct generalizing u run out with
  | case1 low high rest ih =>
    have hnext : 2 * u + 2 = 2 * (u + 1) := rfl
    cases run with
    | none =>
      rw [Option.map_none, unicodeLoop, unicodeUnits, hnext]
      by_cases hpair : (high == 0 && isAsciiPrintable low) = true
      · rw [if_pos hpair, hpair, runsFrom]
        refine Eq.trans ?_ (ih hrun.goOn out)
        have hunits : u + 1 - (none : Option ℕ).getD u = 0 + 1 := by
          rw [Option.getD_none, Nat.zero_add, Nat.add_sub_cancel_left]
        rw [Option.map_some, hunits]
        rfl
      · rw [if_neg hpair, eq_false_of_ne_true hpair, runsFrom]
        exact ih (Runs.early_none _) out
    | some start =>
      have hlt : start < u := hrun start rfl
      rw [Option.map_some, unicodeLoop, unicodeUnits, hnext]
      by_cases hpair : (high == 0 && isAsciiPrintable low) = true
      · rw [if_pos hpair, hpair, runsFrom]
        refine Eq.trans ?_ (ih hrun.goOn out)
        have hunits : u + 1 - (some start).getD u = u - start + 1 := Nat.succ_sub hlt.le
        rw [Option.map_some, hunits]
        rfl
      · rw [if_neg hpair, eq_false_of_ne_true hpair, runsFrom]
        refine (ih (Runs.early_none _) (flush buf minLen (2 * start) (u - start) out)).trans ?_
        rw [flush_eq, List.append_assoc, ← List.map_append, List.length_append, List.length_map,
          ← Nat.sub_sub, take_append_take_rest, ← List.filter_append]
        rfl
  | case2 rest hshort =>
    -- a byte alone at the end makes no unit
    rcases rest with _ | ⟨low, _ | ⟨high, rest⟩⟩
    · cases run with
      | none => simp [unicodeLoop, unicodeUnits, runsFrom]
      | some start => exact flush_eq out
    · cases run with
      | none => simp [unicodeLoop, unicodeUnits, runsFrom]
      | some start => exact flush_eq out
    · exact absurd rfl (hshort low high rest)

end Loops

/-! ### The runs that the pass over bytes keeps -/

section Kept

variable {n count : ℕ} {keeps : Run → Bool} {rs : List Run}

/-- The last run ends with the buffer and is a string, there are as many strings before it as there
may be, and the last one of them is the run before it. -/
def OneTooMany (n : ℕ) (keeps : Run → Bool) (rs : List Run) (count : ℕ) : Prop :=
  ∃ before b, rs = before ++ [b] ∧ b.stop = n ∧ keeps b ∧
    count + (before.filter keeps).length = kMaxStringsPerPass ∧
    ∀ a, before.getLast? = some a → keeps a

/-- A run that ends inside the buffer counts if it is a string. -/
theorem oneTooMany_cons_iff {r : Run} (hr : r.stop ≠ n) (hcount : count < kMaxStringsPerPass) :
    OneTooMany n keeps (r :: rs) count ↔
      OneTooMany n keeps rs (if keeps r then count + 1 else count) := by
  have hadd (before : List Run) : (if keeps r then count + 1 else count) +
      (before.filter keeps).length = count + ((r :: before).filter keeps).length := by
    rw [List.filter_cons]
    split_ifs
    · rw [List.length_cons]
      omega
    · rfl
  constructor
  · rintro ⟨before, b, heq, hstop, hb, hlen, hlast⟩
    match before with
    | [] =>
      obtain ⟨rfl, -⟩ := List.cons.inj heq
      exact absurd hstop hr
    | x :: before =>
      obtain ⟨rfl, rfl⟩ := List.cons.inj heq
      refine ⟨before, b, rfl, hstop, hb, (hadd before).trans hlen, fun a ha => hlast a ?_⟩
      rw [List.getLast?_cons, ha, Option.getD_some]
  · rintro ⟨before, b, rfl, hstop, hb, hlen, hlast⟩
    refine ⟨r :: before, b, rfl, hstop, hb, (hadd before).symm.trans hlen, fun a ha => ?_⟩
    rw [List.getLast?_cons] at ha
    cases hbefore : before.getLast? with
    | none =>
      -- the run alone makes up the number
      obtain rfl := List.getLast?_eq_none_iff.mp hbefore
      rw [hbefore, Option.getD_none, Option.some.injEq] at ha
      subst ha
      by_contra hkeeps
      rw [if_neg hkeeps] at hlen
      exact absurd hlen hcount.ne
    | some x =>
      rw [hbefore, Option.getD_some, Option.some.injEq] at ha
      exact hlast a (ha ▸ hbefore)

/-- A single run that ends with the buffer is one too many when there is no room for it. -/
theorem oneTooMany_singleton_iff {r : Run} (hr : r.stop = n) :
    OneTooMany n keeps [r] count ↔ keeps r ∧ count = kMaxStringsPerPass := by
  constructor
  · rintro ⟨before, b, heq, -, hb, hlen, -⟩
    have heq' : [] ++ [r] = before ++ [b] := heq
    obtain ⟨rfl, hbr⟩ := List.append_inj' heq' rfl
    cases hbr
    exact ⟨hb, hlen⟩
  · rintro ⟨hb, hlen⟩
    exact ⟨[], r, rfl, hr, hb, hlen, nofun⟩

/-- **What the pass over bytes keeps**: the first strings, unless the last run is one too many. -/
theorem kept_spec (hasc : rs.Pairwise (·.stop < ·.start))
    (hin : ∀ r ∈ rs, r.start < r.stop ∧ r.stop ≤ n) (hcount : count ≤ kMaxStringsPerPass) :
    (¬OneTooMany n keeps rs count →
      kept n keeps rs count = (rs.filter keeps).take (kMaxStringsPerPass - count)) ∧
    (OneTooMany n keeps rs count →
      (kept n keeps rs count).length = kMaxStringsPerPass - count + 1) := by
  induction rs generalizing count with
  | nil =>
    refine ⟨fun _ => by rw [kept, List.filter_nil, List.take_nil], ?_⟩
    rintro ⟨before, b, heq, -⟩
    exact absurd heq.symm (List.concat_ne_nil b before)
  | cons r rs ih =>
    obtain ⟨hafter, hasc⟩ := List.pairwise_cons.mp hasc
    have hin' : ∀ r ∈ rs, r.start < r.stop ∧ r.stop ≤ n := fun x hx =>
      hin x (List.mem_cons_of_mem _ hx)
    rw [kept]
    by_cases hstop : r.stop = n
    · -- no run comes after one that ends with the buffer
      have hrs : rs = [] := by
        refine List.eq_nil_iff_forall_not_mem.mpr fun x hx => ?_
        have := hafter x hx
        have := hin' x hx
        omega
      subst hrs
      rw [if_pos hstop, oneTooMany_singleton_iff hstop]
      by_cases hkeeps : keeps r
      · rw [if_pos hkeeps, List.filter_cons_of_pos hkeeps, List.filter_nil]
        refine ⟨fun h => ?_, fun ⟨_, heq⟩ => by rw [heq, Nat.sub_self]; rfl⟩
        have hne : count ≠ kMaxStringsPerPass := fun heq => h ⟨hkeeps, heq⟩
        rw [List.take_of_length_le]
        rw [List.length_singleton]
        omega
      · rw [if_neg hkeeps, List.filter_cons_of_neg hkeeps, List.filter_nil, List.take_nil]
        exact ⟨fun _ => rfl, fun h => absurd h.1 hkeeps⟩
    · rw [if_neg hstop]
      rcases hcount.lt_or_eq with hlt | rfl
      · rw [if_neg (not_le.mpr hlt), oneTooMany_cons_iff hstop hlt, List.filter_cons]
        by_cases hkeeps : keeps r
        · simp only [hkeeps, if_true]
          obtain ⟨hfirst, hover⟩ := ih hasc hin' hlt
          have hsub : kMaxStringsPerPass - count = kMaxStringsPerPass - (count + 1) + 1 := by omega
          rw [hsub, List.take_succ_cons, List.length_cons]
          exact ⟨fun h => congrArg _ (hfirst h), fun h => congrArg (· + 1) (hover h)⟩
        · simp only [hkeeps, Bool.false_eq_true, if_false]
          exact ih hasc hin' hcount
      · rw [if_pos le_rfl, Nat.sub_self, List.take_zero]
        refine ⟨fun _ => rfl, ?_⟩
        rintro ⟨before, b, heq, hb, -, hlen, hlast⟩
        have hnone : before.filter keeps = [] := List.eq_nil_of_length_eq_zero (by omega)
        match before with
        | [] =>
          obtain ⟨rfl, -⟩ := List.cons.inj heq
          exact absurd hb hstop
        | x :: before =>
          have ha := List.getLast?_eq_some_getLast (List.cons_ne_nil x before)
          have hmem := List.mem_of_getLast? ha
          exact absurd (hlast _ ha) (List.filter_eq_nil_iff.mp hnone _ hmem)

end Kept

/-! ### When the passes are exact -/

section Exact

variable {buf : List UInt8} {minLen : ℕ}

namespace Lists

variable {us : List Bool} {keeps : Run → Bool} {string : Run → ExtractedString}
  {out : List ExtractedString}

theorem length_le (h : Lists us keeps string out) : out.length ≤ kMaxStringsPerPass := by
  obtain ⟨all, -, -, rfl⟩ := h
  rw [List.length_map, List.length_take]
  exact min_le_left _ _

/-- The first strings ascend. -/
theorem pairwise (h : Lists us keeps string out)
    (hoffset : ∀ {r s : Run}, r.start < s.start → (string r).offset < (string s).offset) :
    out.Pairwise (·.offset < ·.offset) := by
  obtain ⟨all, -, hasc, rfl⟩ := h
  exact List.pairwise_map.mpr ((hasc.sublist (List.take_sublist ..)).imp hoffset)

/-- The runs are what the first strings are taken from. -/
theorem take_runs (us : List Bool) (keeps : Run → Bool) (string : Run → ExtractedString) :
    Lists us keeps string ((((runs us).filter keeps).take kMaxStringsPerPass).map string) := by
  refine ⟨(runs us).filter keeps, fun r => ?_, ?_, rfl⟩
  · rw [List.mem_filter, Runs.mem_runs_iff]
  · refine ((Runs.pairwise_runs us).filter _).imp_of_mem fun {a b} ha _ hab => ?_
    exact (Runs.mem_runs_iff.mp (List.mem_filter.mp ha).1).lt.trans hab

end Lists

/-- The pass over pairs is exact. -/
theorem lists_unicode (hmin : 0 < minLen) : Lists (unicodeUnits buf) (keepsUnicode buf minLen)
    (unicodeString buf) (extractUnicodeStrings buf minLen) := by
  have hloop : extractUnicodeStrings buf minLen = (((runs (unicodeUnits buf)).filter
      (keepsUnicode buf minLen)).take kMaxStringsPerPass).map (unicodeString buf) := by
    rw [extractUnicodeStrings]
    split_ifs with hshort
    · match buf, hshort.resolve_right hmin.ne' with
      | [], _ => rfl
      | [_], _ => rfl
    · exact unicodeLoop_eq (u := 0) (Runs.early_none 0) []
  rw [hloop]
  exact Lists.take_runs ..

theorem extractAsciiStrings_eq (hmin : 0 < minLen) : extractAsciiStrings buf minLen =
    (kept buf.length (keepsAscii buf minLen) (runs (asciiUnits buf)) 0).map (asciiString buf) := by
  rw [extractAsciiStrings]
  split_ifs with hempty
  · rw [List.isEmpty_iff.mp (hempty.resolve_right hmin.ne')]
    rfl
  · exact asciiLoop_eq (Nat.zero_add _) none []

/-- As many strings as there may be are more than none. -/
theorem overflows_iff : Overflows buf minLen ↔
    OneTooMany buf.length (keepsAscii buf minLen) (runs (asciiUnits buf)) 0 := by
  constructor
  · rintro ⟨before, a, b, heq, hstop, ha, hb, hlen⟩
    refine ⟨before ++ [a], b, by rw [heq, List.append_assoc]; rfl, hstop, hb, ?_, fun x hx => ?_⟩
    · rw [List.filter_append, List.filter_cons_of_pos ha, List.filter_nil, List.length_append,
        List.length_singleton, Nat.zero_add, hlen]
    · rw [List.getLast?_concat, Option.some.injEq] at hx
      exact hx ▸ ha
  · rintro ⟨before, b, heq, hstop, hb, hlen, hlast⟩
    rcases List.eq_nil_or_concat' before with rfl | ⟨before, a, rfl⟩
    · exact absurd hlen (by simp [kMaxStringsPerPass])
    · have ha := hlast a List.getLast?_concat
      refine ⟨before, a, b, by rw [heq, List.append_assoc]; rfl, hstop, ha, hb, ?_⟩
      rw [List.filter_append, List.filter_cons_of_pos ha, List.filter_nil, List.length_append,
        List.length_singleton, Nat.zero_add] at hlen
      exact hlen

/-- What the pass over bytes keeps of the runs of a buffer. -/
theorem kept_runs : (¬Overflows buf minLen →
      kept buf.length (keepsAscii buf minLen) (runs (asciiUnits buf)) 0 =
        ((runs (asciiUnits buf)).filter (keepsAscii buf minLen)).take kMaxStringsPerPass) ∧
    (Overflows buf minLen → (kept buf.length (keepsAscii buf minLen)
      (runs (asciiUnits buf)) 0).length = kMaxStringsPerPass + 1) := by
  rw [overflows_iff]
  refine kept_spec (Runs.pairwise_runs _) (fun r hr => ?_) (Nat.zero_le _)
  have hrun := Runs.mem_runs_iff.mp hr
  have hle := hrun.le
  rw [asciiUnits, List.length_map] at hle
  exact ⟨hrun.lt, hle⟩

/-- A buffer whose last run is one string too many has that one returned. -/
theorem not_exact_of_overflows (hmin : 0 < minLen) (h : Overflows buf minLen) :
    ¬Exact buf minLen := by
  intro hexact
  have hle := hexact.ascii_le
  rw [extractAsciiStrings_eq hmin, List.length_map, kept_runs.2 h] at hle
  exact absurd hle (Nat.not_succ_le_self _)

/-- **The passes are exact** unless the last run of bytes is one string too many. -/
theorem exact_iff (hmin : 0 < minLen) : Exact buf minLen ↔ ¬Overflows buf minLen := by
  refine ⟨fun hexact h => not_exact_of_overflows hmin h hexact, fun h => ?_⟩
  have hascii : Lists (asciiUnits buf) (keepsAscii buf minLen) (asciiString buf)
      (extractAsciiStrings buf minLen) := by
    rw [extractAsciiStrings_eq hmin, kept_runs.1 h]
    exact Lists.take_runs ..
  have hunicode : Lists (unicodeUnits buf) (keepsUnicode buf minLen) (unicodeString buf)
      (extractUnicodeStrings buf minLen) := lists_unicode hmin
  exact ⟨hascii, hascii.pairwise id, hascii.length_le, hunicode,
    hunicode.pairwise fun hlt => Nat.mul_lt_mul_of_pos_left hlt (by decide), hunicode.length_le⟩

/-- Not so many runs that one of them is one string too many. -/
theorem not_overflows_of_length_runs
    (h : (runs (asciiUnits buf)).length ≤ kMaxStringsPerPass) : ¬Overflows buf minLen := by
  rintro ⟨before, a, b, heq, -, -, -, hlen⟩
  have hle := List.length_filter_le (keepsAscii buf minLen) before
  rw [heq, List.length_append, List.length_cons, List.length_singleton] at h
  omega

/-- Two strings of bytes, one of which ends with the buffer, and one of pairs; and a buffer that is
all filled. -/
theorem exact_iff_abc :
    (let buf := str "abc" ++ [0x00] ++ str "de" ++ [0x01, 0x02] ++
      [0x66, 0x00, 0x67, 0x00, 0x68, 0x00] ++ [0x02] ++ str "defg"
    Exact buf 3 ∧ extractAsciiStrings buf 3 = [⟨str "abc", 0⟩, ⟨str "defg", 15⟩] ∧
      extractUnicodeStrings buf 3 = [⟨str "fgh", 8⟩]) ∧
    (let buf := str "AAAA"
    Exact buf 3 ∧ extractAsciiStrings buf 3 = []) := by
  refine ⟨⟨(exact_iff (by decide)).mpr ?_, by decide +kernel, by decide +kernel⟩,
    (exact_iff (by decide)).mpr ?_, by decide +kernel⟩
  · exact not_overflows_of_length_runs (by decide +kernel)
  · exact not_overflows_of_length_runs (by decide +kernel)

end Exact

/-! ### A buffer with one string too many -/

section Crowded

/-- A region of one byte has that byte everywhere. -/
theorem isInRepeatFillRegion_eq_false {buf : List UInt8} {offset : ℕ} {c : UInt8}
    (hc : buf[offset]? = some c) (hfill : c ∉ kRepeatFillBytes) :
    isInRepeatFillRegion buf offset = false := by
  obtain ⟨hlt, -⟩ := List.getElem?_eq_some_iff.mp hc
  have hempty : ¬buf.isEmpty := fun h => by
    rw [List.isEmpty_iff.mp h] at hlt
    exact absurd hlt (Nat.not_lt_zero _)
  rw [isInRepeatFillRegion, if_neg hempty, if_neg (not_le.mpr hlt)]
  have hstart : (if offset > kHalfWindow then offset - kHalfWindow else 0) ≤ offset := by
    split_ifs
    · exact Nat.sub_le ..
    · exact Nat.zero_le _
  generalize (if offset > kHalfWindow then offset - kHalfWindow else 0) = start at hstart
  have hstop : offset < min buf.length (offset + kHalfWindow) :=
    lt_min hlt (Nat.lt_add_of_pos_right (by decide))
  generalize min buf.length (offset + kHalfWindow) = stop at hstop
  dsimp only
  rw [if_neg (by omega), List.any_eq_false]
  intro fill hmem hall
  rw [rangeIsAll, List.all_eq_true] at hall
  have hbyte := eq_of_beq (hall offset (List.mem_range'_1.mpr (by omega)))
  rw [List.getD_eq_getElem?_getD, hc, Option.getD_some] at hbyte
  exact hfill (hbyte ▸ hmem)

/-- A number of letters with a zero after each, and one letter more. -/
def crowded (k : ℕ) : List UInt8 := (List.replicate k [0x61, 0x00]).flatten ++ [0x61]

theorem length_crowded (k : ℕ) : (crowded k).length = 2 * k + 1 := by
  rw [crowded, List.length_append, List.length_flatten, List.map_replicate, List.sum_replicate_nat,
    List.length_singleton, Nat.mul_comm 2]
  rfl

theorem asciiUnits_crowded (k : ℕ) :
    asciiUnits (crowded k) = (List.replicate k [true, false]).flatten ++ [true] := by
  rw [asciiUnits, crowded, List.map_append, List.map_flatten, List.map_replicate]
  rfl

/-- Every letter is a run. -/
theorem runsFrom_crowded (k i : ℕ) :
    runsFrom ((List.replicate k [true, false]).flatten ++ [true]) i none =
      (List.range (k + 1)).map fun j => ⟨i + 2 * j, i + 2 * j + 1⟩ := by
  induction k generalizing i with
  | zero => rfl
  | succ k ih =>
    rw [List.replicate_succ, List.flatten_cons, List.append_assoc, List.range_succ_eq_map,
      List.map_cons, List.map_map]
    refine congrArg₂ List.cons rfl ((ih (i + 1 + 1)).trans (List.map_congr_left fun j _ => ?_))
    rw [Function.comp_apply, Run.mk.injEq]
    omega

/-- Every run of letters is a string. -/
theorem keepsAscii_crowded {k : ℕ} {r : Run} (hr : r ∈ runs (asciiUnits (crowded k))) :
    keepsAscii (crowded k) 1 r := by
  have hrun := Runs.mem_runs_iff.mp hr
  have hfirst := hrun.all r.start le_rfl hrun.lt
  rw [asciiUnits, List.getElem?_map, Option.map_eq_some_iff] at hfirst
  obtain ⟨c, hc, hprintable⟩ := hfirst
  have hmem : c = 0x61 ∨ c = 0x00 := by
    have := List.mem_of_getElem? hc
    simp only [crowded, List.mem_append, List.mem_flatten, List.mem_replicate] at this
    rcases this with ⟨l, ⟨-, rfl⟩, hl⟩ | hl
    · simpa using hl
    · exact Or.inl (List.mem_singleton.mp hl)
  have hletter : c = 0x61 := hmem.resolve_right fun h => by
    rw [h] at hprintable
    exact absurd hprintable (by decide)
  have hfill := isInRepeatFillRegion_eq_false hc (by rw [hletter]; decide)
  have hlt := hrun.lt
  rw [keepsAscii, hfill, Bool.not_false, Bool.and_true, decide_eq_true_eq]
  omega

theorem overflows_crowded : Overflows (crowded kMaxStringsPerPass) 1 := by
  obtain ⟨k, hk⟩ : ∃ k, kMaxStringsPerPass = k + 1 := ⟨2 ^ 22 - 1, rfl⟩
  have hruns := runsFrom_crowded kMaxStringsPerPass 0
  rw [← asciiUnits_crowded] at hruns
  have hkeeps {r : Run} (hr : r ∈ runs (asciiUnits (crowded kMaxStringsPerPass))) :=
    keepsAscii_crowded hr
  rw [runs, hruns] at hkeeps
  have hrange : List.range (kMaxStringsPerPass + 1) = List.range k ++ [k, k + 1] := by
    rw [hk, List.range_succ, List.range_succ, List.append_assoc]
    rfl
  rw [hrange, List.map_append] at hruns hkeeps
  refine ⟨_, _, _, hruns, ?_, hkeeps (by simp), hkeeps (by simp), ?_⟩
  · rw [length_crowded, hk]
    exact congrArg (· + 1) (Nat.zero_add _)
  · rw [List.filter_eq_self.mpr fun r hr => hkeeps (List.mem_append_left _ hr), List.length_map,
      List.length_range, hk]

/-- The last letter is one string too many. -/
theorem not_exact_crowded : ¬Exact (crowded kMaxStringsPerPass) 1 :=
  not_exact_of_overflows Nat.one_pos overflows_crowded

end Crowded

end Papa.Extractors
