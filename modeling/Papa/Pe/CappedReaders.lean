import Papa.Library.Search
import Papa.Pe.PeParser

/-!
# Readers with a cap

Four places of the program read as many bytes at an address as there are, up to a cap, over the
reader of an image, which gives all the bytes it is asked for or none. Each searches for a size that
can be read: one counts down from the cap, two bisect, and the one for signatures halves the cap.

## Main definitions

* `PeImage.bytesAtRva`: what the reader of an image returns.
* `PeImage.longestAtRva`: the longest part of it.
* `PeImage.readBytesCapped`, `PeImage.decodeInsnAt`, `PeImage.imageReader`, `PeImage.codeAt`: the
  four readers.

## Main results

* `PeImage.longestAtRva_isLongest`: no size that can be read is larger.
* `PeImage.cappedReaders_eq`: what the four readers read.
-/

namespace Papa.Pe.PeImage

open Search

variable (img : PeImage)

/-! ### The reader of an image -/

/-- The bytes of `readAtRva`, or nothing if it fails. -/
def bytesAtRva (rva n : ℕ) : Option (List UInt8) :=
  match img.readAtRva .machine rva n with
  | .ok s => some ((img.buffer.drop s.start).take s.size)
  | .error _ => none

/-- Whether `n` bytes can be read. -/
def canRead (rva n : ℕ) : Bool := (img.bytesAtRva rva n).isSome

/-- How many bytes of the file are left from the place of an address on. -/
def leftAtRva (rva : ℕ) : ℕ :=
  match img.rvaToFileOffset .machine rva with
  | some off => img.buffer.length - off
  | none => 0

/-- The bytes left in the file, at most `cap` of them. -/
def longestAtRva (rva cap : ℕ) : List UInt8 :=
  match img.rvaToFileOffset .machine rva with
  | some off => (img.buffer.drop off).take cap
  | none => []

/-! ### The readers -/

/-- `kMaxInsnBytes`. -/
def kMaxInsnBytes : ℕ := 15

/-- At most `cap` bytes at an address, found by bisection. -/
def readBytesCapped (va : UInt64) (cap : ℕ) : List UInt8 :=
  if va = 0 ∨ cap = 0 then []
  else if va < img.imageBase then []
  else
    let rva := (va - img.imageBase).toNat
    match img.bytesAtRva rva cap with
    | some bytes => bytes
    | none =>
      let lo := bisect (img.canRead rva) cap 0 cap
      if lo = 0 then [] else (img.bytesAtRva rva lo).getD []

section Decode

variable {ι : Type} (decode : List UInt8 → UInt64 → Expected ι)

/-- The instruction at an address for a walk along a chain of thunks. -/
def decodeInsnAt (va : UInt64) : Option ι :=
  if va < img.imageBase then none
  else
    let rva := (va - img.imageBase).toNat
    let r : Option (List UInt8) :=
      match img.bytesAtRva rva kMaxInsnBytes with
      | some bytes => some bytes
      | none =>
        let lo := bisect (img.canRead rva) kMaxInsnBytes 0 kMaxInsnBytes
        if lo = 0 then none else img.bytesAtRva rva lo
    match r with
    | some bytes => (decode bytes va).toOption
    | none => none

/-- The instruction at an address for the analysis of the image: `make_image_reader`. -/
def imageReader (va : UInt64) : Expected ι :=
  if va < img.imageBase then .error ⟨.outOfBounds, str "va below image base"⟩
  else
    let rva := (va - img.imageBase).toNat
    match (countdown (img.canRead rva) kMaxInsnBytes).bind (img.bytesAtRva rva) with
    | some (b :: bytes) => decode (b :: bytes) va
    | _ => .error ⟨.outOfBounds, str "no bytes at va"⟩

end Decode

/-- At most `maxLen` bytes at an address for the signatures, found by halving. -/
def codeAt (va : UInt64) (maxLen : ℕ) : List UInt8 :=
  if va < img.imageBase then []
  else
    let rva := (va - img.imageBase).toNat
    match img.bytesAtRva rva maxLen with
    | some bytes => bytes
    | none =>
      match halve (img.canRead rva) maxLen maxLen with
      | some cap => (img.bytesAtRva rva cap).getD []
      | none => []

/-! ### What can be read -/

variable {img} {rva : ℕ}

theorem bytesAtRva_of_none (h : img.rvaToFileOffset .machine rva = none) (n : ℕ) :
    img.bytesAtRva rva n = none := by
  rw [bytesAtRva, readAtRva, h]
  rfl

theorem bytesAtRva_of_some {off : ℕ} (h : img.rvaToFileOffset .machine rva = some off) (n : ℕ) :
    img.bytesAtRva rva n =
      if off ≤ img.buffer.length ∧ n ≤ img.buffer.length - off then
        some ((img.buffer.drop off).take n)
      else none := by
  rw [bytesAtRva, readAtRva, h]
  dsimp only
  rw [readAtFileOffset]
  by_cases hin : off ≤ img.buffer.length ∧ n ≤ img.buffer.length - off
  · rw [if_pos hin, if_neg (by omega)]
  · rw [if_neg hin, if_pos (by omega)]
    rfl

/-- What is read is the longest part of its size. -/
theorem bytesAtRva_eq_some {n : ℕ} {bytes : List UInt8} (h : img.bytesAtRva rva n = some bytes) :
    bytes = img.longestAtRva rva n := by
  rw [longestAtRva]
  cases hoff : img.rvaToFileOffset .machine rva with
  | none =>
    rw [bytesAtRva_of_none hoff] at h
    exact nomatch h
  | some off =>
    rw [bytesAtRva_of_some hoff] at h
    split_ifs at h
    exact (Option.some.inj h).symm

theorem bytesAtRva_of_canRead {n : ℕ} (h : img.canRead rva n) :
    img.bytesAtRva rva n = some (img.longestAtRva rva n) := by
  obtain ⟨bytes, hbytes⟩ := Option.isSome_iff_exists.mp h
  rw [hbytes, bytesAtRva_eq_some hbytes]

/-- A positive size can be read when that many bytes are left. -/
theorem canRead_iff {n : ℕ} (hn : 0 < n) : img.canRead rva n ↔ n ≤ img.leftAtRva rva := by
  rw [canRead, leftAtRva]
  cases hoff : img.rvaToFileOffset .machine rva with
  | none => simp [bytesAtRva_of_none hoff, Nat.ne_of_gt hn]
  | some off =>
    rw [bytesAtRva_of_some hoff]
    by_cases hin : off ≤ img.buffer.length ∧ n ≤ img.buffer.length - off
    · simp [hin]
    · rw [if_neg hin]
      exact iff_of_false nofun (by dsimp only; omega)

theorem canRead_mono (img : PeImage) (rva : ℕ) ⦃m n : ℕ⦄ (hle : m ≤ n) (h : img.canRead rva n) :
    img.canRead rva m := by
  rw [canRead] at h ⊢
  cases hoff : img.rvaToFileOffset .machine rva with
  | none =>
    rw [bytesAtRva_of_none hoff] at h
    exact nomatch h
  | some off =>
    rw [bytesAtRva_of_some hoff] at h ⊢
    by_cases hin : off ≤ img.buffer.length ∧ n ≤ img.buffer.length - off
    · rw [if_pos ⟨hin.1, hle.trans hin.2⟩]
      rfl
    · rw [if_neg hin] at h
      exact nomatch h

theorem length_longestAtRva (img : PeImage) (rva cap : ℕ) :
    (img.longestAtRva rva cap).length = min cap (img.leftAtRva rva) := by
  rw [longestAtRva, leftAtRva]
  cases img.rvaToFileOffset .machine rva with
  | none => simp
  | some off => simp

theorem longestAtRva_zero (img : PeImage) (rva : ℕ) : img.longestAtRva rva 0 = [] := by
  rw [← List.length_eq_zero_iff, length_longestAtRva, Nat.zero_min]

/-- More than is left is not there. -/
theorem longestAtRva_of_left_le {m n : ℕ} (hm : img.leftAtRva rva ≤ m)
    (hn : img.leftAtRva rva ≤ n) :
    img.longestAtRva rva m = img.longestAtRva rva n := by
  rw [leftAtRva] at hm hn
  rw [longestAtRva, longestAtRva]
  cases hoff : img.rvaToFileOffset .machine rva with
  | none => rfl
  | some off =>
    rw [hoff] at hm hn
    dsimp only at hm hn ⊢
    rw [List.take_of_length_le (by rwa [List.length_drop]),
      List.take_of_length_le (by rwa [List.length_drop])]

/-- **No size that can be read is larger**: what is read of any size up to the cap is a part of the
longest one from its beginning, and the longest one is read itself, unless it is empty. -/
theorem longestAtRva_isLongest (img : PeImage) (rva cap : ℕ) :
    (∀ n ≤ cap, ∀ bytes, img.bytesAtRva rva n = some bytes → bytes <+: img.longestAtRva rva cap) ∧
    (img.longestAtRva rva cap ≠ [] →
      img.bytesAtRva rva (img.longestAtRva rva cap).length = some (img.longestAtRva rva cap)) := by
  constructor
  · intro n hn bytes hbytes
    rw [bytesAtRva_eq_some hbytes, longestAtRva, longestAtRva]
    cases img.rvaToFileOffset .machine rva with
    | none => exact List.prefix_rfl
    | some off => exact List.take_prefix_take_left hn
  · intro hne
    have hpos := List.length_pos_iff.mpr hne
    have hlength := length_longestAtRva img rva cap
    rw [bytesAtRva_of_canRead ((canRead_iff hpos).mpr (by omega))]
    refine congrArg some ?_
    rcases Nat.le_total cap (img.leftAtRva rva) with hle | hle
    · rw [hlength, min_eq_left hle]
    · exact longestAtRva_of_left_le (by omega) hle

/-- The largest size that can be read gives the longest part. -/
theorem longestAtRva_findGreatest (img : PeImage) (rva cap : ℕ) :
    img.longestAtRva rva (Nat.findGreatest (fun n => img.canRead rva n) cap) =
      img.longestAtRva rva cap := by
  have hle := Nat.findGreatest_le (P := fun n => img.canRead rva n) cap
  rcases hle.eq_or_lt with heq | hlt
  · rw [heq]
  · have hnext := Nat.findGreatest_is_greatest (Nat.lt_succ_self _) hlt
    rw [canRead_iff (Nat.succ_pos _), not_le] at hnext
    exact longestAtRva_of_left_le (Nat.le_of_lt_succ hnext) (by omega)

theorem canRead_findGreatest {cap : ℕ}
    (h : Nat.findGreatest (fun n => img.canRead rva n) cap ≠ 0) :
    img.canRead rva (Nat.findGreatest (fun n => img.canRead rva n) cap) :=
  Nat.findGreatest_of_ne_zero rfl h

/-- The bisection up to a size that cannot be read. -/
theorem bisect_canRead {cap : ℕ} (h : img.bytesAtRva rva cap = none) (hcap : 0 < cap) :
    bisect (img.canRead rva) cap 0 cap = Nat.findGreatest (fun n => img.canRead rva n) cap :=
  bisect_eq (canRead_mono img rva) (by omega) hcap (Nat.le_refl _) (by simp) (by simp [canRead, h])

/-! ### What the readers read -/

section Readers

variable {va : UInt64} (hva : img.imageBase ≤ va)

include hva

/-- Bisection reads the longest part. -/
theorem readBytesCapped_eq (hzero : va ≠ 0) (cap : ℕ) :
    img.readBytesCapped va cap = img.longestAtRva (va - img.imageBase).toNat cap := by
  rw [readBytesCapped]
  by_cases hcap : cap = 0
  · rw [if_pos (Or.inr hcap), hcap, longestAtRva_zero]
  · rw [if_neg (by simp [hzero, hcap]), if_neg (UInt64.not_lt.mpr hva)]
    dsimp only
    cases hbytes : img.bytesAtRva (va - img.imageBase).toNat cap with
    | some bytes => exact bytesAtRva_eq_some hbytes
    | none =>
      dsimp only
      rw [bisect_canRead hbytes (Nat.pos_of_ne_zero hcap),
        ← longestAtRva_findGreatest img (va - img.imageBase).toNat cap]
      split_ifs with hlo
      · rw [hlo, longestAtRva_zero]
      · rw [bytesAtRva_of_canRead (canRead_findGreatest hlo)]
        rfl

variable {ι : Type} (decode : List UInt8 → UInt64 → Expected ι)

/-- So does the walk along thunks. -/
theorem decodeInsnAt_eq :
    img.decodeInsnAt decode va =
      if img.longestAtRva (va - img.imageBase).toNat kMaxInsnBytes = [] then none
      else (decode (img.longestAtRva (va - img.imageBase).toNat kMaxInsnBytes) va).toOption := by
  have hmax : 0 < kMaxInsnBytes := by decide
  rw [decodeInsnAt, if_neg (UInt64.not_lt.mpr hva)]
  dsimp only
  cases hbytes : img.bytesAtRva (va - img.imageBase).toNat kMaxInsnBytes with
  | some bytes =>
    have hne : img.longestAtRva (va - img.imageBase).toNat kMaxInsnBytes ≠ [] := by
      have hread : img.canRead (va - img.imageBase).toNat kMaxInsnBytes := by simp [canRead, hbytes]
      rw [← List.length_pos_iff, length_longestAtRva, min_eq_left ((canRead_iff hmax).mp hread)]
      exact hmax
    rw [if_neg hne, bytesAtRva_eq_some hbytes]
  | none =>
    dsimp only
    rw [bisect_canRead hbytes hmax,
      ← longestAtRva_findGreatest img (va - img.imageBase).toNat kMaxInsnBytes]
    by_cases hlo : Nat.findGreatest (fun n => img.canRead (va - img.imageBase).toNat n)
        kMaxInsnBytes = 0
    · rw [if_pos hlo, hlo, if_pos (longestAtRva_zero img _)]
    · have hread := canRead_findGreatest hlo
      have hne : img.longestAtRva (va - img.imageBase).toNat (Nat.findGreatest
          (fun n => img.canRead (va - img.imageBase).toNat n) kMaxInsnBytes) ≠ [] := by
        rw [← List.length_pos_iff, length_longestAtRva,
          min_eq_left ((canRead_iff (Nat.pos_of_ne_zero hlo)).mp hread)]
        exact Nat.pos_of_ne_zero hlo
      rw [if_neg hlo, if_neg hne, bytesAtRva_of_canRead hread]

/-- So does counting down. -/
theorem imageReader_eq :
    img.imageReader decode va =
      if img.longestAtRva (va - img.imageBase).toNat kMaxInsnBytes = [] then
        .error ⟨.outOfBounds, str "no bytes at va"⟩
      else decode (img.longestAtRva (va - img.imageBase).toNat kMaxInsnBytes) va := by
  rw [imageReader, if_neg (UInt64.not_lt.mpr hva)]
  dsimp only
  rw [countdown_eq (canRead_mono img _),
    ← longestAtRva_findGreatest img (va - img.imageBase).toNat kMaxInsnBytes]
  by_cases hzero : img.canRead (va - img.imageBase).toNat 0
  · have hread : img.canRead (va - img.imageBase).toNat
        (Nat.findGreatest (fun n => img.canRead (va - img.imageBase).toNat n) kMaxInsnBytes) := by
      by_cases hlo : Nat.findGreatest (fun n => img.canRead (va - img.imageBase).toNat n)
          kMaxInsnBytes = 0
      · rwa [hlo]
      · exact canRead_findGreatest hlo
    rw [if_pos hzero, Option.bind_some, bytesAtRva_of_canRead hread]
    cases img.longestAtRva (va - img.imageBase).toNat (Nat.findGreatest
        (fun n => img.canRead (va - img.imageBase).toNat n) kMaxInsnBytes) with
    | nil => rfl
    | cons b bytes => exact (if_neg (List.cons_ne_nil b bytes)).symm
  · -- nothing at all can be read
    have hnone : Nat.findGreatest (fun n => img.canRead (va - img.imageBase).toNat n)
        kMaxInsnBytes = 0 := by
      by_contra hlo
      exact hzero (canRead_mono img _ (Nat.zero_le _) (canRead_findGreatest hlo))
    rw [if_neg hzero, hnone, if_pos (longestAtRva_zero img _)]
    rfl

/-- Halving reads the longest part of the first half of the cap that is left. -/
theorem exists_codeAt_eq (maxLen : ℕ) :
    ∃ k, (∀ j < k, img.leftAtRva (va - img.imageBase).toNat < maxLen / 2 ^ j) ∧
      maxLen / 2 ^ k ≤ img.leftAtRva (va - img.imageBase).toNat ∧
      img.codeAt va maxLen = img.longestAtRva (va - img.imageBase).toNat (maxLen / 2 ^ k) := by
  rw [codeAt, if_neg (UInt64.not_lt.mpr hva)]
  dsimp only
  cases hbytes : img.bytesAtRva (va - img.imageBase).toNat maxLen with
  | some bytes =>
    refine ⟨0, nofun, ?_, ?_⟩
    · rcases Nat.eq_zero_or_pos maxLen with rfl | hpos
      · simp
      · rw [Nat.pow_zero, Nat.div_one]
        exact (canRead_iff hpos).mp (by simp [canRead, hbytes])
    · rw [Nat.pow_zero, Nat.div_one]
      exact bytesAtRva_eq_some hbytes
  | none =>
    obtain ⟨k, hfirst, hfound⟩ := exists_halve_eq (p := img.canRead (va - img.imageBase).toNat)
      (Nat.le_refl maxLen)
    refine ⟨k, fun j hj => ?_, ?_⟩
    · obtain ⟨hpos, hno⟩ := hfirst j hj
      rwa [canRead_iff hpos, not_le] at hno
    · obtain ⟨hpos, hread, hhalve⟩ | ⟨hzero, hhalve⟩ := hfound
      · refine ⟨(canRead_iff hpos).mp hread, ?_⟩
        dsimp only
        rw [hhalve]
        dsimp only
        rw [bytesAtRva_of_canRead hread]
        rfl
      · refine ⟨by omega, ?_⟩
        dsimp only
        rw [hhalve, hzero, longestAtRva_zero]

end Readers

/-- **What the readers with a cap read.** At an address of an image the readers that bisect or count
down read the longest part of the file that the reader of the image gives for any size up to their
cap, which is the cap or what is left in the file; the one that bisects reads nothing at address
zero, whatever is there. The reader for signatures reads the longest part for the first of the cap,
its half, its quarter and so on that is left, which is empty only if the cap is zero or nothing is
left. -/
theorem cappedReaders_eq (img : PeImage) {ι : Type} (decode : List UInt8 → UInt64 → Expected ι)
    {va : UInt64} (hva : img.imageBase ≤ va) :
    let rva := (va - img.imageBase).toNat
    (∀ cap, (img.longestAtRva rva cap).length = min cap (img.leftAtRva rva) ∧
      (∀ n ≤ cap, ∀ bytes, img.bytesAtRva rva n = some bytes →
        bytes <+: img.longestAtRva rva cap) ∧
      (img.longestAtRva rva cap ≠ [] → img.bytesAtRva rva (img.longestAtRva rva cap).length =
        some (img.longestAtRva rva cap))) ∧
    (∀ cap, img.readBytesCapped va cap = if va = 0 then [] else img.longestAtRva rva cap) ∧
    img.decodeInsnAt decode va =
      (if img.longestAtRva rva kMaxInsnBytes = [] then none
      else (decode (img.longestAtRva rva kMaxInsnBytes) va).toOption) ∧
    img.imageReader decode va =
      (if img.longestAtRva rva kMaxInsnBytes = [] then
        .error ⟨.outOfBounds, str "no bytes at va"⟩
      else decode (img.longestAtRva rva kMaxInsnBytes) va) ∧
    ∀ maxLen, (∃ k, (∀ j < k, img.leftAtRva rva < maxLen / 2 ^ j) ∧
        maxLen / 2 ^ k ≤ img.leftAtRva rva ∧
        img.codeAt va maxLen = img.longestAtRva rva (maxLen / 2 ^ k)) ∧
      (img.codeAt va maxLen = [] ↔ maxLen = 0 ∨ img.leftAtRva rva = 0) := by
  refine ⟨fun cap => ⟨length_longestAtRva img _ cap, longestAtRva_isLongest img _ cap⟩,
    fun cap => ?_, decodeInsnAt_eq hva decode, imageReader_eq hva decode, fun maxLen => ?_⟩
  · split_ifs with hzero
    · rw [readBytesCapped, if_pos (Or.inl hzero)]
    · exact readBytesCapped_eq hva hzero cap
  · obtain ⟨k, hfirst, hleft, hcode⟩ := exists_codeAt_eq hva maxLen
    refine ⟨⟨k, hfirst, hleft, hcode⟩, ?_⟩
    rw [hcode, ← List.length_eq_zero_iff, length_longestAtRva, min_eq_left hleft]
    cases k with
    | zero =>
      rw [Nat.pow_zero, Nat.div_one] at hleft ⊢
      omega
    | succ k =>
      -- the last number that is not left is one more than twice the first that is, at most
      have hlast := hfirst k (Nat.lt_succ_self k)
      have hhalf : maxLen / 2 ^ (k + 1) = maxLen / 2 ^ k / 2 := by
        rw [Nat.pow_succ, Nat.div_div_eq_div_mul]
      have hzero : maxLen = 0 → maxLen / 2 ^ k = 0 := by
        rintro rfl
        exact Nat.zero_div _
      omega

/-- The last six bytes of a file, of which halving reads four. -/
theorem cappedReaders_lastBytes :
    ∃ img : PeImage, parse .machine (fun _ _ => none) (importingFile 0x40) = .ok img ∧
      img.readBytesCapped 0x401040 8 = str "a.dll" ++ [0] ∧
      img.codeAt 0x401040 8 = str "a.dl" ∧
      ∀ decode : List UInt8 → UInt64 → Expected Unit,
        img.imageReader decode 0x401040 = decode (str "a.dll" ++ [0]) 0x401040 := by
  obtain ⟨img, himg, hbase, hlongest, hinsn, hcode⟩ :
      ∃ img : PeImage, parse .machine (fun _ _ => none) (importingFile 0x40) = .ok img ∧
        img.imageBase ≤ 0x401040 ∧
        img.longestAtRva (0x401040 - img.imageBase).toNat 8 = str "a.dll" ++ [0] ∧
        img.longestAtRva (0x401040 - img.imageBase).toNat kMaxInsnBytes = str "a.dll" ++ [0] ∧
        img.codeAt 0x401040 8 = str "a.dl" := by
    decide +kernel
  refine ⟨img, himg, ?_, hcode, fun decode => ?_⟩
  · have hread := (cappedReaders_eq img (fun _ _ => (.ok () : Expected Unit)) hbase).2.1 8
    rw [hread, if_neg (by decide), hlongest]
  · have hread := (cappedReaders_eq img decode hbase).2.2.2.1
    rw [hread, hinsn, if_neg (by decide)]

/-- Six bytes are left, of which halving reads four; and address zero is not read, though an image
that begins there has bytes at it. -/
theorem readers_differ :
    (∃ img : PeImage, parse .machine (fun _ _ => none) (importingFile 0x40) = .ok img ∧
      img.longestAtRva (0x401040 - img.imageBase).toNat 8 = str "a.dll" ++ [0] ∧
      img.codeAt 0x401040 8 = str "a.dl") ∧
    ∃ img : PeImage, parse .machine (fun _ _ => none) (importingFile 0) = .ok img ∧
      img.imageBase = 0 ∧ img.longestAtRva 0 2 = str "MZ" ∧ img.readBytesCapped 0 2 = [] := by
  decide +kernel

end Papa.Pe.PeImage
