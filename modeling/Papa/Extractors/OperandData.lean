import Papa.Extractors.Recovered
import Papa.Extractors.Strings
import Papa.Pe.CappedReaders
import Papa.Viv.Entrypoints

/-!
# What an operand points to

An operand may be an address, or be read from one. A text that begins at the address is a feature of
the instruction, and so are the bytes there, if they can be read and are neither a text nor all
zero. At most 256 bytes are looked at. A text is of bytes and ends with a zero, or it is of pairs of
a byte and a zero and ends with a pair of zeros; both kinds end with what can be read as well.

## Main definitions

* `PeImage.probeReadable`.
* `readStringAtVa`, `extractString`, `extractBytes`.
* `IsAsciiText`, `IsWideText`: the texts at the beginning of a buffer.

## Main results

* `readStringAtVa_eq_some_iff`: which text is read.
* `mem_extractString_iff`, `mem_extractBytes_iff`: the texts and the bytes of an instruction.
-/

namespace Papa.Pe

/-- `probe_readable`. -/
def PeImage.probeReadable (image : PeImage) (rva n : ℕ) : Bool :=
  match image.sectionContainingRva .machine rva with
  | none => false
  | some s =>
    if s.characteristics &&& PeImage.kImageScnMemRead = 0 then false
    else if n > 2 ^ 64 - 1 - rva then false
    else rva + n ≤ s.virtualAddress.toNat + (max s.virtualSize s.rawSize).toNat

end Papa.Pe

namespace Papa.Extractors

open Emu Features Pe

/-! ### Texts -/

/-- The least number of characters of a text. -/
def kMinStringLength : ℕ := 4

/-- The most bytes looked at for a text. -/
def kStringProbeBytes : ℕ := 0x100

/-- The characters of the pairs before a pair of zeros or the end. There are none if a pair is not a
printable character. -/
def wideText : List UInt8 → Option Str
  | low :: high :: rest =>
    if low = 0 ∧ high = 0 then some []
    else if high ≠ 0 then none
    else if ¬isAsciiPrintable low then none
    else (wideText rest).map (low :: ·)
  | _ => some []

/-- `read_string_at_va`. -/
def readStringAtVa (image : PeImage) (va : UInt64) : Option Str :=
  let buf := image.readBytesCapped va kStringProbeBytes
  if buf = [] then none
  else
    let candidate := buf.takeWhile (· ≠ 0)
    if kMinStringLength ≤ candidate.length ∧ candidate.all isAsciiPrintable then some candidate
    else
      match wideText buf with
      | none => none
      | some units => if kMinStringLength ≤ units.length then some units else none

/-- A text of bytes at the beginning of a buffer. -/
structure IsAsciiText (buf : List UInt8) (s : Str) : Prop where
  long : kMinStringLength ≤ s.length
  printable : ∀ c ∈ s, isAsciiPrintable c
  ends : s = buf ∨ s ++ [0] <+: buf

/-- Every byte of a text with a zero after it. -/
def widen (s : Str) : List UInt8 := s.flatMap fun c => [c, 0]

/-- A text of pairs at the beginning of a buffer. -/
structure IsWideText (buf : List UInt8) (s : Str) : Prop where
  long : kMinStringLength ≤ s.length
  printable : ∀ c ∈ s, isAsciiPrintable c
  ends : widen s ++ [0, 0] <+: buf ∨ ∃ odd, odd.length < 2 ∧ buf = widen s ++ odd

/-! ### Bytes -/

/-- `all_zero`. -/
def allZero (buf : List UInt8) : Bool := buf.all (· == 0)

/-- `is_utf16le_printable`. -/
def isUtf16lePrintable : List UInt8 → Bool
  | [] => true
  | [_] => false
  | low :: high :: rest => high == 0 && isAsciiPrintable low && isUtf16lePrintable rest

/-- The most bytes of a feature. -/
def kMaxBytesFeatureSize : ℕ := 0x100

/-! ### The features -/

/-- `operand_target_va`. -/
def operandTargetVa (ins : Native.DecodedInsn) (op : DecodedOperand) : Option UInt64 :=
  match op.kind with
  | .imm => some op.imm
  | .immMem => some (asU64 op.disp)
  | .ripRel => some (ins.va + ins.length + asU64 op.disp)
  | _ => none

/-- `extract_string`. -/
def extractString (image : PeImage) (ins : Native.DecodedInsn) : List (FeatureValue × Address) :=
  ins.operands.filterMap fun op =>
    match operandTargetVa ins op with
    | none => none
    | some target =>
      if target < image.imageBase then none
      else
        match readStringAtVa image target with
        | none => none
        | some s =>
          if s.length < kMinStringLength then none
          else some (.string s, .absoluteVirtual ins.va)

/-- `extract_bytes`. -/
def extractBytes (image : PeImage) (ins : Native.DecodedInsn) : List (FeatureValue × Address) :=
  if ins.isCall then []
  else ins.operands.filterMap fun op =>
    match operandTargetVa ins op with
    | none => none
    | some va =>
      if va < image.imageBase then none
      else if ¬image.probeReadable (va - image.imageBase).toNat 1 then none
      else
        let buf := image.readBytesCapped va kMaxBytesFeatureSize
        if buf = [] then none
        else if allZero buf then none
        else if buf.all isAsciiPrintable then none
        else if isUtf16lePrintable buf then none
        else some (.bytes buf, .absoluteVirtual ins.va)

/-! ### Which text is read -/

section Text

variable {buf : List UInt8} {s : Str}

theorem ne_zero_of_isAsciiPrintable {c : UInt8} (h : isAsciiPrintable c) : c ≠ 0 := by
  rintro rfl
  exact absurd h (by decide)

/-- A text of bytes is what comes before the first zero. -/
theorem isAsciiText_iff : IsAsciiText buf s ↔
    s = buf.takeWhile (· ≠ 0) ∧ kMinStringLength ≤ s.length ∧ s.all isAsciiPrintable := by
  constructor
  · rintro ⟨hlong, hprintable, hends⟩
    refine ⟨?_, hlong, List.all_eq_true.mpr hprintable⟩
    have hall : ∀ c ∈ s, decide (c ≠ 0) = true :=
      fun c hc => decide_eq_true (ne_zero_of_isAsciiPrintable (hprintable c hc))
    rcases hends with rfl | ⟨rest, rfl⟩
    · exact (List.takeWhile_eq_self_iff.mpr hall).symm
    · rw [List.append_assoc, List.takeWhile_append_of_pos hall]
      simp
  · rintro ⟨rfl, hlong, hprintable⟩
    refine ⟨hlong, List.all_eq_true.mp hprintable, ?_⟩
    have hsplit := List.takeWhile_append_dropWhile (p := (· ≠ (0 : UInt8))) (l := buf)
    cases hdrop : buf.dropWhile (· ≠ 0) with
    | nil =>
      rw [hdrop, List.append_nil] at hsplit
      exact Or.inl hsplit
    | cons c rest =>
      have hzero := List.head?_dropWhile_not (· ≠ (0 : UInt8)) buf
      rw [hdrop] at hzero
      have hc : c = 0 := by simpa using hzero
      refine Or.inr ⟨rest, ?_⟩
      rw [List.append_assoc]
      rw [hdrop, hc] at hsplit
      exact hsplit

/-- A buffer begins with the pairs of a text, and after them the text ends. -/
def EndsWide (buf : List UInt8) (s : Str) : Prop :=
  widen s ++ [0, 0] <+: buf ∨ ∃ odd, odd.length < 2 ∧ buf = widen s ++ odd

theorem endsWide_nil_iff {low high : UInt8} {rest : List UInt8} :
    EndsWide (low :: high :: rest) [] ↔ low = 0 ∧ high = 0 := by
  constructor
  · rintro (⟨t, ht⟩ | ⟨odd, hodd, heq⟩)
    · injection ht with hlow ht
      injection ht with hhigh ht
      exact ⟨hlow.symm, hhigh.symm⟩
    · have hlength := congrArg List.length heq
      simp only [List.length_cons, widen, List.flatMap_nil, List.nil_append] at hlength
      omega
  · rintro ⟨rfl, rfl⟩
    exact Or.inl (List.prefix_append [0, 0] rest)

theorem endsWide_cons_iff {low high c : UInt8} {rest : List UInt8} :
    EndsWide (low :: high :: rest) (c :: s) ↔ c = low ∧ high = 0 ∧ EndsWide rest s := by
  simp only [EndsWide, widen, List.flatMap_cons, List.cons_append, List.nil_append,
    List.cons_prefix_cons, List.cons.injEq]
  constructor
  · rintro (⟨rfl, rfl, h⟩ | ⟨odd, hodd, rfl, rfl, h⟩)
    · exact ⟨rfl, rfl, Or.inl h⟩
    · exact ⟨rfl, rfl, Or.inr ⟨odd, hodd, h⟩⟩
  · rintro ⟨rfl, rfl, h | ⟨odd, hodd, h⟩⟩
    · exact Or.inl ⟨rfl, rfl, h⟩
    · exact Or.inr ⟨odd, hodd, rfl, rfl, h⟩

theorem endsWide_short (h : buf.length < 2) : EndsWide buf s ↔ s = [] := by
  cases s with
  | nil => exact iff_of_true (Or.inr ⟨buf, h, rfl⟩) rfl
  | cons c s =>
    refine iff_of_false (fun hends => ?_) (List.cons_ne_nil c s)
    rcases hends with hpre | ⟨odd, -, rfl⟩
    · have hle := hpre.length_le
      simp only [widen, List.flatMap_cons, List.length_append, List.length_cons] at hle
      omega
    · simp only [widen, List.flatMap_cons, List.length_append, List.length_cons] at h
      omega

/-- The characters of the pairs. -/
theorem wideText_eq_some_iff : wideText buf = some s ↔
    (∀ c ∈ s, isAsciiPrintable c) ∧ EndsWide buf s := by
  induction buf using wideText.induct generalizing s with
  | case1 low high rest hzero =>
    rw [wideText, if_pos hzero]
    cases s with
    | nil => simp [endsWide_nil_iff, hzero]
    | cons c s =>
      refine iff_of_false nofun fun ⟨hprintable, hends⟩ => ?_
      obtain ⟨rfl, -⟩ := endsWide_cons_iff.mp hends
      exact ne_zero_of_isAsciiPrintable (hprintable c List.mem_cons_self) hzero.1
  | case2 low high rest hzero hhigh =>
    rw [wideText, if_neg hzero, if_pos hhigh]
    refine iff_of_false nofun fun ⟨_, hends⟩ => hhigh ?_
    cases s with
    | nil => exact (endsWide_nil_iff.mp hends).2
    | cons c s => exact (endsWide_cons_iff.mp hends).2.1
  | case3 low high rest hzero hhigh hlow =>
    rw [wideText, if_neg hzero, if_neg hhigh, if_pos hlow]
    refine iff_of_false nofun fun ⟨hprintable, hends⟩ => ?_
    cases s with
    | nil => exact hzero (endsWide_nil_iff.mp hends)
    | cons c s =>
      obtain ⟨rfl, -⟩ := endsWide_cons_iff.mp hends
      exact hlow (hprintable c List.mem_cons_self)
  | case4 low high rest hzero hhigh hlow ih =>
    rw [wideText, if_neg hzero, if_neg hhigh, if_neg hlow, Option.map_eq_some_iff]
    constructor
    · rintro ⟨s, hs, rfl⟩
      obtain ⟨hprintable, hends⟩ := ih.mp hs
      exact ⟨List.forall_mem_cons.mpr ⟨not_not.mp hlow, hprintable⟩,
        endsWide_cons_iff.mpr ⟨rfl, not_not.mp hhigh, hends⟩⟩
    · rintro ⟨hprintable, hends⟩
      cases s with
      | nil => exact absurd (endsWide_nil_iff.mp hends) hzero
      | cons c s =>
        obtain ⟨rfl, -, hends⟩ := endsWide_cons_iff.mp hends
        exact ⟨s, ih.mpr ⟨(List.forall_mem_cons.mp hprintable).2, hends⟩, rfl⟩
  | case5 buf hshort =>
    have hlength : buf.length < 2 := by
      rcases buf with - | ⟨low, - | ⟨high, rest⟩⟩
      · exact Nat.zero_lt_two
      · exact Nat.one_lt_two
      · exact absurd rfl (hshort low high rest)
    rw [endsWide_short hlength, wideText]
    · constructor
      · intro h
        obtain rfl := Option.some.inj h
        exact ⟨nofun, rfl⟩
      · rintro ⟨-, rfl⟩
        rfl
    · exact hshort

/-- The texts of pairs. -/
theorem isWideText_iff :
    IsWideText buf s ↔ wideText buf = some s ∧ kMinStringLength ≤ s.length := by
  rw [wideText_eq_some_iff]
  exact ⟨fun h => ⟨⟨h.printable, h.ends⟩, h.long⟩, fun h => ⟨h.2, h.1.1, h.1.2⟩⟩

/-- A text of bytes is not one of pairs. -/
theorem IsAsciiText.not_isWideText {s' : Str} (h : IsAsciiText buf s) : ¬IsWideText buf s' := by
  intro h'
  obtain ⟨c, d, s, rfl⟩ : ∃ c d t, s = c :: d :: t := by
    rcases s with - | ⟨c, - | ⟨d, s⟩⟩
    · exact absurd h.long (by decide)
    · exact absurd h.long (by decide : ¬4 ≤ 1)
    · exact ⟨c, d, s, rfl⟩
  obtain ⟨c', s', rfl⟩ : ∃ c' t', s' = c' :: t' := by
    rcases s' with - | ⟨c', s'⟩
    · exact absurd h'.long (by decide)
    · exact ⟨c', s', rfl⟩
  obtain ⟨rest, rfl⟩ : ∃ rest, buf = c :: d :: rest := by
    rcases h.ends with rfl | ⟨rest, rfl⟩
    · exact ⟨s, rfl⟩
    · exact ⟨s ++ [0] ++ rest, rfl⟩
  have hzero := (endsWide_cons_iff.mp h'.ends).2.1
  have hd : d ∈ c :: d :: s := List.mem_cons_of_mem _ List.mem_cons_self
  exact ne_zero_of_isAsciiPrintable (h.printable d hd) hzero

end Text

/-! ### What an instruction refers to -/

section Features

variable {image : PeImage} {va : UInt64}

/-- The bytes looked at for a text. -/
def textBytes (image : PeImage) (va : UInt64) : List UInt8 :=
  image.longestAtRva (va - image.imageBase).toNat kStringProbeBytes

/-- **The text at an address** is one of bytes or of pairs. There is none at address zero. -/
theorem readStringAtVa_eq_some_iff (hva : image.imageBase ≤ va) (hzero : va ≠ 0) {s : Str} :
    readStringAtVa image va = some s ↔
      IsAsciiText (textBytes image va) s ∨ IsWideText (textBytes image va) s := by
  rw [readStringAtVa, PeImage.readBytesCapped_eq hva hzero, isAsciiText_iff, isWideText_iff,
    textBytes]
  dsimp only
  generalize image.longestAtRva (va - image.imageBase).toNat kStringProbeBytes = buf
  by_cases hnil : buf = []
  · subst hnil
    rw [if_pos rfl]
    refine iff_of_false nofun ?_
    rintro (⟨rfl, hlong, -⟩ | ⟨hwide, hlong⟩)
    · exact absurd hlong (by decide)
    · obtain rfl := Option.some.inj hwide
      exact absurd hlong (by decide)
  rw [if_neg hnil]
  by_cases hascii : kMinStringLength ≤ (buf.takeWhile (· ≠ 0)).length ∧
      (buf.takeWhile (· ≠ 0)).all isAsciiPrintable
  · have hnot : ¬IsWideText buf s :=
      (isAsciiText_iff.mpr ⟨rfl, hascii.1, hascii.2⟩).not_isWideText
    rw [isWideText_iff] at hnot
    rw [if_pos hascii, or_iff_left hnot]
    constructor
    · intro h
      obtain rfl := Option.some.inj h
      exact ⟨rfl, hascii⟩
    · rintro ⟨rfl, -⟩
      rfl
  · have hnot : ¬(s = buf.takeWhile (· ≠ 0) ∧ kMinStringLength ≤ s.length ∧
        s.all isAsciiPrintable) := by
      rintro ⟨rfl, h⟩
      exact hascii h
    rw [if_neg hascii, or_iff_right hnot]
    cases wideText buf with
    | none => exact iff_of_false nofun fun h => absurd h.1 nofun
    | some units =>
      dsimp only
      constructor
      · intro h
        split_ifs at h with hlong
        obtain rfl := Option.some.inj h
        exact ⟨rfl, hlong⟩
      · rintro ⟨h, hlong⟩
        obtain rfl := Option.some.inj h
        exact if_pos hlong

/-- A place in the image lies in a section that can be read. -/
def ReadableRva (image : PeImage) (rva : ℕ) : Prop :=
  ∃ sec, image.sectionContainingRva .machine rva = some sec ∧
    sec.characteristics &&& PeImage.kImageScnMemRead ≠ 0

theorem probeReadable_one_iff {rva : ℕ} :
    image.probeReadable rva 1 ↔ ReadableRva image rva := by
  rw [PeImage.probeReadable, ReadableRva]
  cases hsec : image.sectionContainingRva .machine rva with
  | none => simp
  | some sec =>
    have hin := List.find?_some hsec
    rw [Bool.and_eq_true, decide_eq_true_eq, decide_eq_true_eq] at hin
    have hva := sec.virtualAddress.toNat_lt
    have hsize := (max sec.virtualSize sec.rawSize).toNat_lt
    have hend : rva < sec.virtualAddress.toNat + (max sec.virtualSize sec.rawSize).toNat :=
      hin.2.trans_le (Nat.mod_le _ _)
    have hwrap : ¬1 > 2 ^ 64 - 1 - rva := by omega
    dsimp only
    rw [if_neg hwrap]
    simp [Nat.succ_le_of_lt hend]

/-- Bytes that are pairs of a printable character and a zero throughout. -/
theorem isUtf16lePrintable_iff {buf : List UInt8} :
    isUtf16lePrintable buf ↔ ∃ s, (∀ c ∈ s, isAsciiPrintable c) ∧ buf = widen s := by
  induction buf using isUtf16lePrintable.induct with
  | case1 => exact iff_of_true rfl ⟨[], nofun, rfl⟩
  | case2 c =>
    refine iff_of_false Bool.false_ne_true fun ⟨s, _, hs⟩ => ?_
    cases s with
    | nil => exact List.cons_ne_nil _ _ hs
    | cons d s => exact absurd (congrArg List.length hs) (by simp [widen])
  | case3 low high rest ih =>
    rw [isUtf16lePrintable, Bool.and_eq_true, Bool.and_eq_true, beq_iff_eq, ih]
    constructor
    · rintro ⟨⟨rfl, hlow⟩, s, hprintable, rfl⟩
      exact ⟨low :: s, List.forall_mem_cons.mpr ⟨hlow, hprintable⟩, rfl⟩
    · rintro ⟨s, hprintable, hs⟩
      cases s with
      | nil => exact absurd hs (List.cons_ne_nil _ _)
      | cons c s =>
        obtain ⟨hc, htail⟩ := List.forall_mem_cons.mp hprintable
        simp only [widen, List.flatMap_cons, List.cons_append, List.nil_append,
          List.cons.injEq] at hs
        obtain ⟨rfl, rfl, rfl⟩ := hs
        exact ⟨⟨rfl, hc⟩, s, htail, rfl⟩

/-- The bytes of an address that a feature is made of. -/
def dataBytes (image : PeImage) (va : UInt64) : List UInt8 :=
  image.longestAtRva (va - image.imageBase).toNat kMaxBytesFeatureSize

/-- An address lies in a section that can be read. -/
def Readable (image : PeImage) (va : UInt64) : Prop :=
  image.imageBase ≤ va ∧ ReadableRva image (va - image.imageBase).toNat

/-- Bytes that are no text and not all zero. -/
structure IsData (bytes : List UInt8) : Prop where
  nonzero : ∃ b ∈ bytes, b ≠ 0
  not_ascii : ∃ b ∈ bytes, ¬isAsciiPrintable b
  not_wide : ∀ s, (∀ c ∈ s, isAsciiPrintable c) → bytes ≠ widen s

theorem isData_iff {bytes : List UInt8} : IsData bytes ↔
    bytes ≠ [] ∧ ¬allZero bytes ∧ ¬bytes.all isAsciiPrintable ∧ ¬isUtf16lePrintable bytes := by
  have hzero : ¬allZero bytes ↔ ∃ b ∈ bytes, b ≠ 0 := by simp [allZero]
  have hascii : ¬bytes.all isAsciiPrintable ↔ ∃ b ∈ bytes, ¬isAsciiPrintable b := by simp
  rw [hzero, hascii, isUtf16lePrintable_iff]
  constructor
  · rintro ⟨hnonzero, hnot, hwide⟩
    have hne : bytes ≠ [] := by
      obtain ⟨b, hb, -⟩ := hnonzero
      exact List.ne_nil_of_mem hb
    exact ⟨hne, hnonzero, hnot, fun ⟨s, hs, heq⟩ => hwide s hs heq⟩
  · rintro ⟨-, hnonzero, hnot, hwide⟩
    exact ⟨hnonzero, hnot, fun s hs heq => hwide ⟨s, hs, heq⟩⟩

end Features

/-- **The texts of an instruction** are those that begin at an address an operand points to. -/
theorem mem_extractString_iff (image : PeImage) (ins : Native.DecodedInsn)
    (f : FeatureValue × Address) :
    f ∈ extractString image ins ↔ ∃ op ∈ ins.operands, ∃ va s,
      operandTargetVa ins op = some va ∧ image.imageBase ≤ va ∧ va ≠ 0 ∧
        (IsAsciiText (textBytes image va) s ∨ IsWideText (textBytes image va) s) ∧
        f = (.string s, .absoluteVirtual ins.va) := by
  rw [extractString, List.mem_filterMap]
  refine exists_congr fun op => and_congr_right fun _ => ?_
  cases operandTargetVa ins op with
  | none => simp
  | some va =>
    simp only [Option.some.injEq, exists_and_left, exists_eq_left']
    by_cases hva : va < image.imageBase
    · simp [hva]
    · rw [if_neg hva]
      have hle := UInt64.not_lt.mp hva
      by_cases hzero : va = 0
      · simp [hzero, readStringAtVa, PeImage.readBytesCapped]
      · have hread {s : Str} := readStringAtVa_eq_some_iff (s := s) hle hzero
        simp only [← hread, hle, hzero, ne_eq, not_false_eq_true, true_and]
        cases hs : readStringAtVa image va with
        | none => simp
        | some s =>
          have hlong : ¬s.length < kMinStringLength := by
            rcases hread.mp hs with h | h
            · exact Nat.not_lt.mpr h.long
            · exact Nat.not_lt.mpr h.long
          simp [hlong, eq_comm]

/-- **The bytes of an instruction** are the longest part of the file, up to 256 bytes, at an address
that an operand points to and that can be read, unless they are a text or all zero. A call has
none. -/
theorem mem_extractBytes_iff (image : PeImage) (ins : Native.DecodedInsn)
    (f : FeatureValue × Address) :
    f ∈ extractBytes image ins ↔ ins.isCall = false ∧ ∃ op ∈ ins.operands, ∃ va,
      operandTargetVa ins op = some va ∧ va ≠ 0 ∧ Readable image va ∧
        IsData (dataBytes image va) ∧
        f = (.bytes (dataBytes image va), .absoluteVirtual ins.va) := by
  rw [extractBytes]
  cases ins.isCall with
  | true => simp
  | false =>
    rw [if_neg Bool.false_ne_true, List.mem_filterMap, and_iff_right rfl]
    refine exists_congr fun op => and_congr_right fun _ => ?_
    cases operandTargetVa ins op with
    | none => simp
    | some va =>
      simp only [Option.some.injEq, exists_eq_left']
      by_cases hva : va < image.imageBase
      · have hnot : ¬Readable image va := fun h => UInt64.not_lt.mpr h.1 hva
        simp [hva, hnot]
      · rw [if_neg hva]
        have hle := UInt64.not_lt.mp hva
        have hreadable : image.probeReadable (va - image.imageBase).toNat 1 ↔
            Readable image va := by
          rw [probeReadable_one_iff, Readable, and_iff_right hle]
        by_cases hread : Readable image va
        · rw [if_neg (not_not.mpr (hreadable.mpr hread))]
          by_cases hzero : va = 0
          · simp [hzero, PeImage.readBytesCapped]
          · rw [PeImage.readBytesCapped_eq hle hzero, isData_iff, dataBytes]
            split_ifs with hnil hall hascii hwide
            · exact iff_of_false not_false fun h => h.2.2.1.1 hnil
            · exact iff_of_false not_false fun h => h.2.2.1.2.1 hall
            · exact iff_of_false not_false fun h => h.2.2.1.2.2.1 hascii
            · exact iff_of_false not_false fun h => h.2.2.1.2.2.2 hwide
            · exact ⟨fun h => ⟨hzero, hread, ⟨hnil, hall, hascii, hwide⟩,
                (Option.some.inj h).symm⟩, fun h => congrArg some h.2.2.2.symm⟩
        · rw [if_pos (mt hreadable.mp hread)]
          simp [hread]

end Papa.Extractors
