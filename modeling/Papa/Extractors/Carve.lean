import Mathlib.Data.List.Range
import Mathlib.Data.Nat.Bitwise

/-!
# Carved PE files

Executables that are embedded in a file, each byte of them combined with one key by exclusive or,
are found in one pass over the positions. The first byte of a file is known, so a position has one
candidate key. The bytes at the position, the offset of the header and the signature at that offset
are decoded with it and compared. All sums of offsets are of 64 bits, and a read outside the buffer
has no result.

The search that the pass replaces decodes the whole buffer with every key and looks at every
position.

## Main definitions

* `Buffer`, `carvePeFiles`: the pass.
* `decode`, `isPeAt`, `bruteForce`: the search over all keys.

## Main results

* `carveAt_eq`: what is found at a position.
* `carvePeFiles_eq`: the pass is the search.
-/

namespace Papa.Extractors

/-! ### The pass -/

/-- The bytes of a buffer. An object has less than `2 ^ 63` of them. -/
structure Buffer where
  bytes : List UInt8
  length_lt : bytes.length < 2 ^ 63

namespace Buffer

variable (buf : Buffer)

/-- The number of bytes. -/
def size : UInt64 := UInt64.ofNat buf.bytes.length

/-- Read a byte. There is none outside the buffer. -/
def read (offset : UInt64) : Option UInt8 := buf.bytes[offset.toNat]?

end Buffer

/-- Four bytes as a number. -/
def le32 (b0 b1 b2 b3 : UInt8) : UInt32 :=
  b0.toUInt32 ||| (b1.toUInt32 <<< 8) ||| (b2.toUInt32 <<< 16) ||| (b3.toUInt32 <<< 24)

/-- `read_le_u32`. -/
def readLeU32 (buf : Buffer) (offset : UInt64) : Option UInt32 := do
  let b0 ← buf.read offset
  let b1 ← buf.read (offset + 1)
  let b2 ← buf.read (offset + 2)
  let b3 ← buf.read (offset + 3)
  return le32 b0 b1 b2 b3

/-- `xor_u32_key8`. -/
def xorU32Key8 (value : UInt32) (key : UInt8) : UInt32 :=
  let k := key.toUInt32
  let mask := k ||| (k <<< 8) ||| (k <<< 16) ||| (k <<< 24)
  value ^^^ mask

def kPeBigramSize : UInt64 := 2
def kPeLfanewSize : UInt64 := 4
def kPeSigSize : UInt64 := 4
def kAsciiM : UInt8 := 0x4D
def kAsciiZ : UInt8 := 0x5A
def kImageDosEofLfanewOffset : UInt64 := 0x3C
def kImageNtSignature : UInt32 := 0x00004550

/-- Whether there is a file at a position. -/
def carveAt (buf : Buffer) (pos : UInt64) : Option Bool := do
  let first ← buf.read pos
  let key := first ^^^ kAsciiM
  let second ← buf.read (pos + 1)
  if second ≠ kAsciiZ ^^^ key then return false
  let lfanewOff := pos + kImageDosEofLfanewOffset
  if lfanewOff + kPeLfanewSize > buf.size then return false
  let lfanewRaw ← readLeU32 buf lfanewOff
  let lfanew := xorU32Key8 lfanewRaw key
  let sigOff := pos + lfanew.toUInt64
  if sigOff + kPeSigSize > buf.size then return false
  let sigRaw ← readLeU32 buf sigOff
  let sig := xorU32Key8 sigRaw key
  return sig == kImageNtSignature

/-- The loop over the positions. It has no result after too many turns. -/
def carveLoop (buf : Buffer) : (turns : ℕ) → UInt64 → List UInt64 → Option (List UInt64)
  | 0, _, _ => none
  | turns + 1, pos, out =>
    if pos + kPeBigramSize ≤ buf.size then do
      let found ← carveAt buf pos
      carveLoop buf turns (pos + 1) (if found then out ++ [pos] else out)
    else some out

/-- `carve_pe_files`. -/
def carvePeFiles (buf : Buffer) : Option (List UInt64) :=
  if buf.size < kImageDosEofLfanewOffset + kPeLfanewSize then some []
  else carveLoop buf (buf.bytes.length + 1) 0 []

/-! ### The search over all keys -/

/-- Decode all bytes with a key. -/
def decode (key : UInt8) (bytes : List UInt8) : List UInt8 := bytes.map (· ^^^ key)

/-- The number at an offset inside the bytes. -/
def dwordAt (bytes : List UInt8) (offset : ℕ) : UInt32 :=
  le32 (bytes.getD offset 0) (bytes.getD (offset + 1) 0) (bytes.getD (offset + 2) 0)
    (bytes.getD (offset + 3) 0)

/-- Whether a file begins at a position of decoded bytes: it reads `MZ`, and the signature is at the
offset that stands at `0x3C`, all inside the bytes. -/
def isPeAt (bytes : List UInt8) (p : ℕ) : Bool :=
  bytes[p]? == some kAsciiM && bytes[p + 1]? == some kAsciiZ &&
    decide (p + 0x3C + 4 ≤ bytes.length) &&
    (let sigOff := p + (dwordAt bytes (p + 0x3C)).toNat
     decide (sigOff + 4 ≤ bytes.length) && dwordAt bytes sigOff == kImageNtSignature)

/-- The positions of files, decoded with one of the 256 keys. -/
def bruteForce (bytes : List UInt8) : List ℕ :=
  (List.range bytes.length).filter fun p =>
    (List.range 256).any fun key => isPeAt (decode (UInt8.ofNat key) bytes) p

/-! ### Decoded numbers -/

/-- The bits of a number are those of its bytes. -/
theorem testBit_le32 (b0 b1 b2 b3 : UInt8) {j : ℕ} (hj : j < 32) :
    (le32 b0 b1 b2 b3).toNat.testBit j =
      if j < 8 then b0.toNat.testBit j
      else if j < 16 then b1.toNat.testBit (j - 8)
      else if j < 24 then b2.toNat.testBit (j - 16)
      else b3.toNat.testBit (j - 24) := by
  have hlow (b : UInt8) {i : ℕ} (hi : 8 ≤ i) : b.toNat.testBit i = false :=
    Nat.testBit_lt_two_pow (Nat.lt_of_lt_of_le b.toNat_lt (Nat.pow_le_pow_right (by decide) hi))
  have hshift (b : UInt8) {k : ℕ} (hk : k < 32) :
      (b.toUInt32 <<< UInt32.ofNat k).toNat.testBit j =
        (decide (k ≤ j) && b.toNat.testBit (j - k)) := by
    have hk' : (UInt32.ofNat k).toNat = k := by
      rw [UInt32.toNat_ofNat', Nat.mod_eq_of_lt (by omega)]
    rw [UInt32.toNat_shiftLeft, hk', Nat.mod_eq_of_lt hk, Nat.testBit_mod_two_pow,
      decide_eq_true hj, Bool.true_and, Nat.testBit_shiftLeft]
    rfl
  have h8 : (b1.toUInt32 <<< (8 : UInt32)).toNat.testBit j = _ := hshift b1 (k := 8) (by decide)
  have h16 : (b2.toUInt32 <<< (16 : UInt32)).toNat.testBit j = _ := hshift b2 (k := 16) (by decide)
  have h24 : (b3.toUInt32 <<< (24 : UInt32)).toNat.testBit j = _ := hshift b3 (k := 24) (by decide)
  have h0 : b0.toUInt32.toNat.testBit j = b0.toNat.testBit j := rfl
  rw [le32, UInt32.toNat_or, UInt32.toNat_or, UInt32.toNat_or, Nat.testBit_or, Nat.testBit_or,
    Nat.testBit_or, h0, h8, h16, h24]
  -- one byte has the bit, the others end below it or begin above it
  split_ifs with hj8 hj16 hj24
  · rw [decide_eq_false (by omega), decide_eq_false (by omega), decide_eq_false (by omega)]
    simp
  · rw [hlow b0 (by omega), decide_eq_true (by omega), decide_eq_false (by omega),
      decide_eq_false (by omega)]
    simp
  · rw [hlow b0 (by omega), hlow b1 (by omega), decide_eq_true (by omega),
      decide_eq_true (by omega),
      decide_eq_false (by omega)]
    simp
  · rw [hlow b0 (by omega), hlow b1 (by omega), hlow b2 (by omega), decide_eq_true (by omega),
      decide_eq_true (by omega), decide_eq_true (by omega)]
    simp

/-- **A number is decoded** byte by byte. -/
theorem le32_xor (b0 b1 b2 b3 key : UInt8) :
    le32 (b0 ^^^ key) (b1 ^^^ key) (b2 ^^^ key) (b3 ^^^ key) =
      xorU32Key8 (le32 b0 b1 b2 b3) key := by
  have hmask : xorU32Key8 (le32 b0 b1 b2 b3) key =
      le32 b0 b1 b2 b3 ^^^ le32 key key key key := rfl
  refine UInt32.toNat_inj.mp (Nat.eq_of_testBit_eq fun j => ?_)
  by_cases hj : j < 32
  · rw [hmask, UInt32.toNat_xor, Nat.testBit_xor, testBit_le32 _ _ _ _ hj, testBit_le32 _ _ _ _ hj,
      testBit_le32 _ _ _ _ hj]
    simp only [UInt8.toNat_xor, Nat.testBit_xor]
    split_ifs <;> rfl
  · have hhigh (x : UInt32) : x.toNat.testBit j = false :=
      Nat.testBit_lt_two_pow (Nat.lt_of_lt_of_le x.toNat_lt
        (Nat.pow_le_pow_right (by decide) (not_lt.mp hj)))
    rw [hhigh, hhigh]

theorem getD_decode (key : UInt8) {bytes : List UInt8} {i : ℕ} (hi : i < bytes.length) :
    (decode key bytes).getD i 0 = bytes.getD i 0 ^^^ key := by
  rw [List.getD_eq_getElem?_getD, List.getD_eq_getElem?_getD, decode, List.getElem?_map,
    List.getElem?_eq_getElem hi]
  rfl

theorem dwordAt_decode (key : UInt8) {bytes : List UInt8} {offset : ℕ}
    (h : offset + 4 ≤ bytes.length) :
    dwordAt (decode key bytes) offset = xorU32Key8 (dwordAt bytes offset) key := by
  unfold dwordAt
  rw [getD_decode key (by omega), getD_decode key (by omega), getD_decode key (by omega),
    getD_decode key (by omega), le32_xor]

@[simp] theorem length_decode (key : UInt8) (bytes : List UInt8) :
    (decode key bytes).length = bytes.length := List.length_map _

/-! ### Offsets in the buffer -/

section Offsets

variable {buf : Buffer}

theorem toNat_size : buf.size.toNat = buf.bytes.length := by
  have hlt := buf.length_lt
  rw [Buffer.size, UInt64.toNat_ofNat', Nat.mod_eq_of_lt (by omega)]

theorem toNat_ofNat_of_lt {n : ℕ} (h : n < 2 ^ 64) : (UInt64.ofNat n).toNat = n := by
  rw [UInt64.toNat_ofNat', Nat.mod_eq_of_lt h]

/-- A sum of small offsets is compared with the size as it is. -/
theorem ofNat_add_le_size {n k : ℕ} (h : n + k < 2 ^ 64) :
    UInt64.ofNat n + UInt64.ofNat k ≤ buf.size ↔ n + k ≤ buf.bytes.length := by
  rw [← UInt64.ofNat_add, UInt64.le_iff_toNat_le, toNat_ofNat_of_lt h, toNat_size]

theorem read_ofNat {n : ℕ} (h : n < buf.bytes.length) :
    buf.read (UInt64.ofNat n) = some (buf.bytes.getD n 0) := by
  have hlt := buf.length_lt
  rw [Buffer.read, toNat_ofNat_of_lt (by omega), List.getElem?_eq_getElem h,
    List.getD_eq_getElem _ _ h]

/-- A number inside the buffer is read. -/
theorem readLeU32_ofNat {n : ℕ} (h : n + 4 ≤ buf.bytes.length) :
    readLeU32 buf (UInt64.ofNat n) = some (dwordAt buf.bytes n) := by
  have h1 : UInt64.ofNat n + 1 = UInt64.ofNat (n + 1) := (UInt64.ofNat_add n 1).symm
  have h2 : UInt64.ofNat n + 2 = UInt64.ofNat (n + 2) := (UInt64.ofNat_add n 2).symm
  have h3 : UInt64.ofNat n + 3 = UInt64.ofNat (n + 3) := (UInt64.ofNat_add n 3).symm
  rw [readLeU32, h1, h2, h3, read_ofNat (by omega), read_ofNat (by omega), read_ofNat (by omega),
    read_ofNat (by omega)]
  rfl

end Offsets

/-! ### The pass is the search -/

/-- **The key is unique**: the first byte tells it. -/
theorem eq_key_of_isPeAt {bytes : List UInt8} {p : ℕ} {key : UInt8} (hp : p < bytes.length)
    (h : isPeAt (decode key bytes) p) : key = bytes.getD p 0 ^^^ kAsciiM := by
  simp only [isPeAt, Bool.and_eq_true, beq_iff_eq] at h
  have hfirst := h.1.1.1
  rw [decode, List.getElem?_map, List.getElem?_eq_getElem hp] at hfirst
  have hm : bytes[p] ^^^ key = kAsciiM := Option.some.inj hfirst
  rw [List.getD_eq_getElem _ _ hp, ← hm, ← UInt8.xor_assoc, UInt8.xor_self, UInt8.zero_xor]

theorem any_key_eq {bytes : List UInt8} {p : ℕ} (hp : p < bytes.length) :
    ((List.range 256).any fun key => isPeAt (decode (UInt8.ofNat key) bytes) p) =
      isPeAt (decode (bytes.getD p 0 ^^^ kAsciiM) bytes) p := by
  rw [Bool.eq_iff_iff, List.any_eq_true]
  constructor
  · rintro ⟨n, -, hn⟩
    exact eq_key_of_isPeAt hp hn ▸ hn
  · intro h
    refine ⟨(bytes.getD p 0 ^^^ kAsciiM).toNat, List.mem_range.mpr (UInt8.toNat_lt _), ?_⟩
    rwa [UInt8.ofNat_toNat]

/-- The two bytes at a position, decoded with the candidate key. -/
theorem bigram_iff {bytes : List UInt8} {p : ℕ} (hp : p + 2 ≤ bytes.length) :
    ((decode (bytes.getD p 0 ^^^ kAsciiM) bytes)[p]? == some kAsciiM &&
        (decode (bytes.getD p 0 ^^^ kAsciiM) bytes)[p + 1]? == some kAsciiZ) =
      decide (bytes.getD (p + 1) 0 = kAsciiZ ^^^ (bytes.getD p 0 ^^^ kAsciiM)) := by
  have h0 : p < bytes.length := by omega
  have h1 : p + 1 < bytes.length := by omega
  have hfirst : bytes[p] ^^^ (bytes[p] ^^^ kAsciiM) = kAsciiM := by
    rw [← UInt8.xor_assoc, UInt8.xor_self, UInt8.zero_xor]
  have hsecond (x y k : UInt8) : x ^^^ k = y ↔ x = y ^^^ k := by
    constructor <;> rintro rfl <;> rw [UInt8.xor_assoc, UInt8.xor_self, UInt8.xor_zero]
  rw [Bool.eq_iff_iff]
  simp only [decode, List.getElem?_map, List.getElem?_eq_getElem h0, List.getElem?_eq_getElem h1,
    List.getD_eq_getElem _ _ h0, List.getD_eq_getElem _ _ h1, Option.map_some, hfirst, hsecond,
    beq_self_eq_true, Bool.true_and, beq_iff_eq, Option.some.injEq, decide_eq_true_eq]

/-- **What is found at a position.** No byte outside the buffer is read. -/
theorem carveAt_eq (buf : Buffer) {p : ℕ} (hp : p + 2 ≤ buf.bytes.length) :
    carveAt buf (UInt64.ofNat p) =
      some ((List.range 256).any fun key => isPeAt (decode (UInt8.ofNat key) buf.bytes) p) := by
  have hlt := buf.length_lt
  have hnext : UInt64.ofNat p + 1 = UInt64.ofNat (p + 1) := (UInt64.ofNat_add p 1).symm
  have hlfanew : UInt64.ofNat p + kImageDosEofLfanewOffset = UInt64.ofNat (p + 0x3C) :=
    (UInt64.ofNat_add p 0x3C).symm
  rw [any_key_eq (by omega)]
  generalize hkey : buf.bytes.getD p 0 ^^^ kAsciiM = key
  have hbigram := bigram_iff hp
  rw [hkey] at hbigram
  rw [isPeAt, hbigram]
  simp only [carveAt, hnext, hlfanew, read_ofNat (show p < buf.bytes.length by omega),
    read_ofNat (show p + 1 < buf.bytes.length by omega), Option.bind_eq_bind,
    Option.bind_some, hkey,
    length_decode]
  by_cases hz : buf.bytes.getD (p + 1) 0 = kAsciiZ ^^^ key
  · rw [if_neg (not_not.mpr hz), decide_eq_true hz, Bool.true_and]
    have hle : UInt64.ofNat (p + 0x3C) + kPeLfanewSize > buf.size ↔
        ¬p + 0x3C + 4 ≤ buf.bytes.length := by
      rw [gt_iff_lt, ← UInt64.not_le]
      exact not_congr (ofNat_add_le_size (k := 4) (by omega))
    by_cases hin : p + 0x3C + 4 ≤ buf.bytes.length
    · rw [if_neg (mt hle.mp (not_not.mpr hin)), decide_eq_true hin, Bool.true_and,
        readLeU32_ofNat hin, Option.bind_some, dwordAt_decode key hin]
      generalize xorU32Key8 (dwordAt buf.bytes (p + 0x3C)) key = lfanew
      have hlf := lfanew.toNat_lt
      have hsig : UInt64.ofNat p + lfanew.toUInt64 = UInt64.ofNat (p + lfanew.toNat) := by
        refine UInt64.toNat_inj.mp ?_
        rw [UInt64.toNat_add, UInt32.toNat_toUInt64, toNat_ofNat_of_lt (by omega),
          toNat_ofNat_of_lt (by omega), Nat.mod_eq_of_lt (by omega)]
      have hle' : UInt64.ofNat (p + lfanew.toNat) + kPeSigSize > buf.size ↔
          ¬p + lfanew.toNat + 4 ≤ buf.bytes.length := by
        rw [gt_iff_lt, ← UInt64.not_le]
        exact not_congr (ofNat_add_le_size (k := 4) (by omega))
      rw [hsig]
      by_cases hin' : p + lfanew.toNat + 4 ≤ buf.bytes.length
      · rw [if_neg (mt hle'.mp (not_not.mpr hin')), decide_eq_true hin', Bool.true_and,
          readLeU32_ofNat hin', Option.bind_some, dwordAt_decode key hin']
        rfl
      · rw [if_pos (hle'.mpr hin'), decide_eq_false hin', Bool.false_and]
        rfl
    · rw [if_pos (hle.mpr hin), decide_eq_false hin, Bool.false_and]
      rfl
  · rw [if_pos hz, decide_eq_false hz, Bool.false_and, Bool.false_and]
    rfl

/-- The positions of files from a position on. -/
def foundFrom (bytes : List UInt8) (p n : ℕ) : List ℕ :=
  (List.range' p n).filter fun p =>
    (List.range 256).any fun key => isPeAt (decode (UInt8.ofNat key) bytes) p

/-- The loop finds the files at the positions left. -/
theorem carveLoop_eq (buf : Buffer) {turns p n : ℕ} (hn : p + n + 1 = buf.bytes.length)
    (hturns : n < turns) (out : List UInt64) : carveLoop buf turns (UInt64.ofNat p) out =
      some (out ++ (foundFrom buf.bytes p n).map UInt64.ofNat) := by
  have hlt := buf.length_lt
  induction n generalizing turns p out with
  | zero =>
    obtain ⟨turns, rfl⟩ := Nat.exists_eq_succ_of_ne_zero (Nat.ne_of_gt hturns)
    have hstop : ¬UInt64.ofNat p + kPeBigramSize ≤ buf.size := fun h => by
      have := (ofNat_add_le_size (k := 2) (by omega)).mp h
      omega
    rw [Nat.succ_eq_add_one, carveLoop, if_neg hstop]
    exact congrArg some (List.append_nil out).symm
  | succ n ih =>
    obtain ⟨turns, rfl⟩ := Nat.exists_eq_succ_of_ne_zero (show turns ≠ 0 by omega)
    have hgo : UInt64.ofNat p + kPeBigramSize ≤ buf.size :=
      (ofNat_add_le_size (k := 2) (by omega)).mpr (by omega)
    have hnext : UInt64.ofNat p + 1 = UInt64.ofNat (p + 1) := (UInt64.ofNat_add p 1).symm
    rw [Nat.succ_eq_add_one, carveLoop, if_pos hgo, carveAt_eq buf (by omega), hnext]
    refine (ih (by omega) (by omega) _).trans (congrArg some ?_)
    rw [foundFrom, foundFrom, List.range'_succ, List.filter_cons]
    split_ifs
    · rw [List.map_cons, List.append_assoc]
      rfl
    · rfl

/-- A file has at least 64 bytes after its position. -/
theorem length_of_isPeAt {bytes : List UInt8} {p : ℕ} (h : isPeAt bytes p) :
    p + 0x40 ≤ bytes.length := by
  simp only [isPeAt, Bool.and_eq_true, decide_eq_true_eq] at h
  have := h.1.2
  omega

/-- **The pass over the positions is the search over all keys**, and its positions ascend. -/
theorem carvePeFiles_eq (buf : Buffer) :
    carvePeFiles buf = some ((bruteForce buf.bytes).map UInt64.ofNat) ∧
      ((bruteForce buf.bytes).map UInt64.ofNat).Pairwise (· < ·) := by
  have hlt := buf.length_lt
  have hsmall (hle : buf.bytes.length < 0x40) : bruteForce buf.bytes = [] := by
    refine List.filter_eq_nil_iff.mpr fun p _ hany => ?_
    obtain ⟨key, -, hpe⟩ := List.any_eq_true.mp hany
    have := length_of_isPeAt hpe
    rw [length_decode] at this
    omega
  constructor
  · have hsize : buf.size < kImageDosEofLfanewOffset + kPeLfanewSize ↔
        buf.bytes.length < 0x40 := by
      rw [UInt64.lt_iff_toNat_lt, toNat_size]
      rfl
    unfold carvePeFiles
    by_cases hle : buf.bytes.length < 0x40
    · rw [if_pos (hsize.mpr hle), hsmall hle]
      rfl
    · rw [if_neg (mt hsize.mp hle)]
      obtain ⟨n, hn⟩ : ∃ n, 0 + n + 1 = buf.bytes.length := ⟨buf.bytes.length - 1, by omega⟩
      have hloop := carveLoop_eq buf hn (show n < buf.bytes.length + 1 by omega) []
      refine hloop.trans ?_
      -- no file begins at the last byte
      have hlast : ((List.range 256).any fun key =>
          isPeAt (decode (UInt8.ofNat key) buf.bytes) n) = false := by
        rw [List.any_eq_false]
        intro key _ hpe
        have := length_of_isPeAt hpe
        rw [length_decode] at this
        omega
      have hfound : bruteForce buf.bytes = foundFrom buf.bytes 0 n := by
        have hrange : List.range buf.bytes.length = List.range' 0 n ++ [n] := by
          rw [← hn, Nat.zero_add, List.range_succ, List.range_eq_range']
        rw [bruteForce, foundFrom, hrange, List.filter_append, List.filter_singleton, hlast]
        exact List.append_nil _
      rw [hfound, List.nil_append]
  · refine List.pairwise_map.mpr ?_
    refine (List.pairwise_lt_range.filter _).imp_of_mem fun {a b} ha hb hab => ?_
    have hb' := List.mem_range.mp (List.mem_filter.mp hb).1
    rw [UInt64.lt_iff_toNat_lt, toNat_ofNat_of_lt (by omega), toNat_ofNat_of_lt (by omega)]
    exact hab

end Papa.Extractors
