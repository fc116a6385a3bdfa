import Mathlib.Data.List.Dedup
import Papa.Pe.CappedReaders
import Papa.Viv.CfContext

/-!
# Where the discovery starts

The addresses that the discovery tries come from the image: its entry point, its exports and its
callbacks, the function table of a 64-bit image, the slots that are relocated, values of aligned
slots of data that lie in code, and places in the code that look like the start of a function.

## Main definitions

* `PeImage.vaIsExecutable`, `PeImage.readLeVa`: what the image tells of an address.
* `PeImage.entrypointSeeds`, `PeImage.relocPointerSites`, `PeImage.findPointerCandidates`.
* `PeImage.pdataFunctionBegins`: the function table of a 64-bit image.
* `findFunctionPrologues`: places that look like the start of a function.

## Main results

* `PeImage.mem_pdataFunctionBegins_iff`: the records before the first one that ends the scan.
* `mem_findFunctionPrologues_iff`: the places in the code.
-/

namespace Papa.Viv

open Papa.Pe

/-- Sort and drop repetitions. -/
def sortUnique (l : List VA) : List VA := (l.mergeSort (· ≤ ·)).dedup

@[simp] theorem mem_sortUnique {l : List VA} {va : VA} : va ∈ sortUnique l ↔ va ∈ l := by
  rw [sortUnique, List.mem_dedup, List.mem_mergeSort]

/-- The result ascends strictly. -/
theorem pairwise_sortUnique (l : List VA) : (sortUnique l).Pairwise (· < ·) := by
  have hsorted : (l.mergeSort (· ≤ ·)).Pairwise (· ≤ ·) := by
    have h := @List.pairwise_mergeSort VA (fun a b => decide (a ≤ b))
      (fun a b c hab hbc => decide_eq_true
        (UInt64.le_trans (of_decide_eq_true hab) (of_decide_eq_true hbc)))
      (fun a b => by
        rw [Bool.or_eq_true, decide_eq_true_iff, decide_eq_true_iff]
        exact UInt64.le_total a b) l
    exact h.imp of_decide_eq_true
  have hle : (sortUnique l).Pairwise (· ≤ ·) := hsorted.sublist (List.dedup_sublist _)
  have hnodup : (sortUnique l).Nodup := List.nodup_dedup _
  exact hle.imp₂ (fun a b => UInt64.lt_of_le_of_ne) hnodup

end Papa.Viv

namespace Papa.Pe.PeImage

open Papa.Viv

variable (img : PeImage)

/-! ### What the image tells of an address -/

/-- `kImageScnMemRead`. -/
def kImageScnMemRead : UInt32 := 0x40000000
/-- `kImageScnMemExecute`. -/
def kImageScnMemExecute : UInt32 := 0x20000000

/-- Whether an address is in an executable section. -/
def vaIsExecutable (va : VA) : Bool :=
  !(va < img.imageBase) &&
    (img.sectionContainingRva .machine (va - img.imageBase).toNat).any fun s =>
      s.characteristics &&& kImageScnMemExecute ≠ 0

/-- The number that the `n` bytes at an address are, the lowest first. -/
def readLeVa (va : VA) (n : ℕ) : Option UInt64 :=
  if va < img.imageBase then none
  else (img.bytesAtRva (va - img.imageBase).toNat n).map fun bytes => .ofNat (le bytes)

/-- Whether an address is in the image. -/
def vaInImage (va : VA) : Bool :=
  !(va < img.imageBase) && va - img.imageBase < img.sizeOfImage.toUInt64

/-! ### The seeds of the first passes -/

/-- What becomes of a record of the function table. -/
inductive PdataEntryKind
  | kSeed
  | kSkipChained
  | kStop
  deriving DecidableEq

/-- What becomes of a record, by the version and the flags of its unwind information. -/
def classifyPdataUnwind : Option UInt8 → PdataEntryKind
  | none => .kStop
  | some verflags =>
    if verflags &&& 0x07 ≠ 1 then .kStop
    else if (verflags >>> 3) &&& 0x04 ≠ 0 then .kSkipChained
    else .kSeed

/-- `kRuntimeFunctionSize`. -/
def kRuntimeFunctionSize : ℕ := 12
/-- `kMaxPdataEntries`. -/
def kMaxPdataEntries : ℕ := 2 ^ 22

/-- A record of the function table: where the function begins, and what becomes of it. -/
def pdataEntry (pdata : ParsedSection) (i : ℕ) : Option (VA × PdataEntryKind) :=
  (img.bytesAtRva (pdata.virtualAddress.toNat + i * kRuntimeFunctionSize)
    kRuntimeFunctionSize).map fun bytes =>
      let unwindRva := u32At bytes 8
      let verflags := if img.vaInImage (img.imageBase + unwindRva.toUInt64) then
        (img.bytesAtRva unwindRva.toNat 1).bind List.head? else none
      (img.imageBase + (u32At bytes 0).toUInt64, classifyPdataUnwind verflags)

/-- The records from the `i`-th on, up to one that cannot be read or ends the scan. -/
def pdataLoop (pdata : ParsedSection) : (todo i : ℕ) → List VA → List VA
  | 0, _, begins => begins
  | todo + 1, i, begins =>
    match img.pdataEntry pdata i with
    | none => begins
    | some (_, .kStop) => begins
    | some (_, .kSkipChained) => pdataLoop pdata todo (i + 1) begins
    | some (beginVa, .kSeed) =>
      pdataLoop pdata todo (i + 1) (if img.vaInImage beginVa then begins ++ [beginVa] else begins)

/-- How many records the file has room for. -/
def pdataCount (pdata : ParsedSection) : ℕ :=
  min (pdata.rawSize.toNat / kRuntimeFunctionSize)
    (min (img.readableBytesAtRva .machine pdata.virtualAddress.toNat / kRuntimeFunctionSize)
      kMaxPdataEntries)

/-- The first section with a name. -/
def sectionNamed (name : String) : Option ParsedSection :=
  img.sections.find? (·.name = str name)

/-- `pdata_function_begins`. -/
def pdataFunctionBegins : List VA :=
  if !img.is64bit then []
  else
    match img.sectionNamed ".pdata" with
    | none => []
    | some pdata => sortUnique (img.pdataLoop pdata (img.pdataCount pdata) 0 [])

variable {img} {pdata : ParsedSection} {va : VA}

/-- A record that does not end the scan. -/
def PdataGoesOn (img : PeImage) (pdata : ParsedSection) (i : ℕ) : Prop :=
  ∃ entry, img.pdataEntry pdata i = some entry ∧ entry.2 ≠ .kStop

theorem mem_pdataLoop_iff {todo i : ℕ} {begins : List VA} :
    va ∈ img.pdataLoop pdata todo i begins ↔ va ∈ begins ∨ ∃ k < todo,
      (∀ j < k, PdataGoesOn img pdata (i + j)) ∧ img.pdataEntry pdata (i + k) = some (va, .kSeed) ∧
        img.vaInImage va = true := by
  induction todo generalizing i begins with
  | zero => simp [pdataLoop]
  | succ todo ih =>
    -- The first record is this one, and the others are those of the rest of the scan.
    have hsplit {P : Prop} (hfirst : (img.pdataEntry pdata i = some (va, .kSeed) ∧
          img.vaInImage va = true) ↔ P) (hgo : PdataGoesOn img pdata i) :
        (∃ k < todo + 1, (∀ j < k, PdataGoesOn img pdata (i + j)) ∧
          img.pdataEntry pdata (i + k) = some (va, .kSeed) ∧ img.vaInImage va = true) ↔
        P ∨ ∃ k < todo, (∀ j < k, PdataGoesOn img pdata (i + 1 + j)) ∧
          img.pdataEntry pdata (i + 1 + k) = some (va, .kSeed) ∧ img.vaInImage va = true := by
      rw [← hfirst]
      constructor
      · rintro ⟨k, hk, hbefore, hentry⟩
        cases k with
        | zero => exact .inl hentry
        | succ k =>
          refine .inr ⟨k, Nat.lt_of_succ_lt_succ hk, fun j hj => ?_, ?_⟩
          · have hgoes := hbefore (j + 1) (Nat.succ_lt_succ hj)
            rwa [Nat.add_comm j 1, ← Nat.add_assoc] at hgoes
          · rwa [Nat.add_comm k 1, ← Nat.add_assoc] at hentry
      · rintro (hentry | ⟨k, hk, hbefore, hentry⟩)
        · exact ⟨0, Nat.succ_pos _, fun j hj => absurd hj (Nat.not_lt_zero j), hentry⟩
        · refine ⟨k + 1, Nat.succ_lt_succ hk, fun j hj => ?_, ?_⟩
          · cases j with
            | zero => exact hgo
            | succ j =>
              have hgoes := hbefore j (Nat.lt_of_succ_lt_succ hj)
              rwa [Nat.add_assoc, Nat.add_comm 1 j] at hgoes
          · rwa [Nat.add_assoc, Nat.add_comm 1 k] at hentry
    -- A record that ends the scan is at the start of every later one.
    have hends (hnot : ¬ PdataGoesOn img pdata i) : ¬ ∃ k < todo + 1,
        (∀ j < k, PdataGoesOn img pdata (i + j)) ∧
          img.pdataEntry pdata (i + k) = some (va, .kSeed) ∧ img.vaInImage va = true := by
      rintro ⟨k, hk, hbefore, hentry, -⟩
      cases k with
      | zero => exact hnot ⟨_, hentry, by simp⟩
      | succ k => exact hnot (hbefore 0 (Nat.succ_pos k))
    rw [pdataLoop]
    cases hentry : img.pdataEntry pdata i with
    | none =>
      have hnot : ¬ PdataGoesOn img pdata i := by
        rintro ⟨entry, heq, -⟩
        exact Option.some_ne_none entry (heq.symm.trans hentry)
      simp only [hends hnot, or_false]
    | some entry =>
      obtain ⟨beginVa, kind⟩ := entry
      cases kind with
      | kStop =>
        have hnot : ¬ PdataGoesOn img pdata i := by
          rintro ⟨entry, heq, hne⟩
          exact hne (congrArg Prod.snd (Option.some.inj (heq.symm.trans hentry)))
        simp only [hends hnot, or_false]
      | kSkipChained =>
        have hgo : PdataGoesOn img pdata i := ⟨_, hentry, by simp⟩
        have hfirst : (img.pdataEntry pdata i = some (va, .kSeed) ∧ img.vaInImage va = true) ↔
            False := by
          rw [hentry]
          simp
        rw [hsplit hfirst hgo, false_or]
        exact ih
      | kSeed =>
        have hgo : PdataGoesOn img pdata i := ⟨_, hentry, by simp⟩
        have hfirst : (img.pdataEntry pdata i = some (va, .kSeed) ∧ img.vaInImage va = true) ↔
            va = beginVa ∧ img.vaInImage beginVa = true := by
          rw [hentry]
          simp only [Option.some.injEq, Prod.mk.injEq, and_true]
          exact ⟨fun h => ⟨h.1.symm, h.1.symm ▸ h.2⟩, fun h => ⟨h.1.symm, h.1 ▸ h.2⟩⟩
        rw [hsplit hfirst hgo, ← or_assoc]
        refine ih.trans (or_congr_left ?_)
        split_ifs with hin
        · rw [List.mem_append, List.mem_singleton]
          exact or_congr_right (iff_of_eq (by rw [hin]; simp))
        · exact (or_iff_left fun h => hin h.2).symm

/-- **The function table** of a 64-bit image gives the functions of the records before the first one
that cannot be read or ends the scan, without those that continue another function, as long as the
file has room for them. -/
theorem mem_pdataFunctionBegins_iff (h64 : img.is64bit = true)
    (hpdata : img.sectionNamed ".pdata" = some pdata) :
    va ∈ img.pdataFunctionBegins ↔ ∃ k < img.pdataCount pdata,
      (∀ j < k, PdataGoesOn img pdata j) ∧ img.pdataEntry pdata k = some (va, .kSeed) ∧
        img.vaInImage va = true := by
  rw [pdataFunctionBegins, h64, hpdata]
  simp only [Bool.not_true, Bool.false_eq_true, if_false, mem_sortUnique]
  rw [mem_pdataLoop_iff]
  simp only [List.not_mem_nil, false_or, Nat.zero_add]

variable (img)

/-- The entry point, the exports that are not forwarded, the executable callbacks and the function
table. -/
def entrypointSeeds : List VA :=
  (if img.entryPointRva ≠ 0 then [img.imageBase + img.entryPointRva.toUInt64] else []) ++
    (img.exports.filter fun e => e.forwarder.isNone && e.va ≠ 0).map (·.va) ++
    img.tlsCallbacks.filter (fun cb => cb ≠ 0 && img.vaIsExecutable cb) ++
    img.pdataFunctionBegins

/-- `kRelBasedHighLow`. -/
def kRelBasedHighLow : UInt16 := 3
/-- `kRelBasedDir64`. -/
def kRelBasedDir64 : UInt16 := 10

/-- The slots that are relocated and hold an address. -/
def relocPointerSites : List VA :=
  (img.relocations.filter fun r => r.type = kRelBasedHighLow ∨ r.type = kRelBasedDir64).map
    fun r => img.imageBase + r.rva.toUInt64

/-! ### Values that lie in code -/

/-- Whether a value lies in an executable section. -/
def inExec (v : UInt64) : Bool :=
  img.sections.any fun s =>
    let base := img.imageBase + s.virtualAddress.toUInt64
    s.characteristics &&& kImageScnMemExecute ≠ 0 && base ≤ v &&
      v < base + s.virtualSize.toUInt64

/-- The value of a slot that is relocated. -/
def relocTarget (r : ParsedRelocation) : Option UInt64 :=
  let width := if r.type = kRelBasedHighLow then 4 else if r.type = kRelBasedDir64 then 8 else 0
  if width = 0 then none
  else (img.bytesAtRva r.rva.toNat width).map fun bytes => .ofNat (le bytes)

/-- The values of the aligned slots of some bytes. -/
def slotValues (width : ℕ) (bytes : List UInt8) : List UInt64 :=
  (List.range (bytes.length / width)).map fun k => .ofNat (le ((bytes.drop (k * width)).take width))

/-- The values of the slots of a section that can be read and is no code. -/
def dataValues (width : ℕ) (s : ParsedSection) : List UInt64 :=
  if s.characteristics &&& kImageScnMemRead = 0 ∨ s.characteristics &&& kImageScnMemExecute ≠ 0
    then []
  else ((img.bytesAtRva s.virtualAddress.toNat s.rawSize.toNat).map (slotValues width)).getD []

/-- The width of an address. -/
def pointerSize : ℕ := if img.is64bit then 8 else 4

/-- `find_pointer_candidates`. -/
def findPointerCandidates : List VA :=
  sortUnique ((img.relocations.filterMap img.relocTarget ++
    img.sections.flatMap (img.dataValues img.pointerSize)).filter img.inExec)

end Papa.Pe.PeImage

namespace Papa.Viv

/-! ### Places that look like the start of a function -/

/-- A return, or padding. -/
def isBoundaryByte (b : UInt8) : Bool := b = 0xC3 || b = 0xCC || b = 0x90

/-- Whether some code starts as functions of a 32-bit image do. -/
def isX86FunctionPrologue (b : List UInt8) : Bool :=
  3 ≤ b.length &&
    (b.take 3 = [0x55, 0x8B, 0xEC] || b.take 3 = [0x55, 0x89, 0xE5] ||
      b.take 3 = [0x56, 0x8B, 0xF1] || b.take 5 = [0x8B, 0xFF, 0x55, 0x8B, 0xEC] ||
      (8 ≤ b.length && b[0]? = some 0x6A && b[2]? = some 0x68 && b[7]? = some 0xE8))

/-- The places behind a boundary, which nothing covers, that look like the start of a function. -/
def findFunctionPrologues (code : List UInt8) (baseVa : VA) (covered : ℕ → Bool) : List VA :=
  ((List.range (code.length - 3)).filter fun i =>
    1 ≤ i && !covered i && (code[i - 1]?).any isBoundaryByte &&
      isX86FunctionPrologue (code.drop i)).map fun i => baseVa + .ofNat i

theorem mem_findFunctionPrologues_iff {code : List UInt8} {baseVa va : VA} {covered : ℕ → Bool} :
    va ∈ findFunctionPrologues code baseVa covered ↔ ∃ i, 1 ≤ i ∧ i + 3 < code.length ∧
      covered i = false ∧ (code[i - 1]?).any isBoundaryByte = true ∧
        isX86FunctionPrologue (code.drop i) = true ∧ va = baseVa + .ofNat i := by
  unfold findFunctionPrologues
  simp only [List.mem_map, List.mem_filter, List.mem_range, Bool.and_eq_true, decide_eq_true_eq,
    Bool.not_eq_true']
  constructor
  · rintro ⟨i, ⟨hlt, ⟨⟨hpos, hcovered⟩, hboundary⟩, hprologue⟩, rfl⟩
    exact ⟨i, hpos, by omega, hcovered, hboundary, hprologue, rfl⟩
  · rintro ⟨i, hpos, hlt, hcovered, hboundary, hprologue, rfl⟩
    exact ⟨i, ⟨by omega, ⟨⟨hpos, hcovered⟩, hboundary⟩, hprologue⟩, rfl⟩

end Papa.Viv
