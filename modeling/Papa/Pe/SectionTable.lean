import Papa.Pe.PeOffsets

/-!
# The section table

The format places the section table behind the optional header, whose size the file header tells.
The parser places it behind the data directories it read, of which there are at most sixteen, and
does not look at that size. The two places agree when the optional header holds nothing else.

## Main definitions

* `sectionTable`, `declaredSections`: the section table by the format.
* `directoriesEnd`: where the parser looks for it.
* `WellFormedFile`: what the format asks of the headers.

## Main results

* `parseHeaders_sections`: the sections the parser reads.
* `parse_sections_iff`: when they are those of the file.
-/

namespace Papa.Pe

variable {w : Arith} {lookupOrdinalName : OrdinalNames}

/-! ### The format -/

section Format

variable (buf : List UInt8)

/-- The place of the signature. -/
def eLfanew : ℕ := (u32At buf 60).toNat

/-- The number of section headers. -/
def numberOfSections : ℕ := (u16At buf (eLfanew buf + 6)).toNat

/-- The size the file header gives the optional header. -/
def sizeOfOptionalHeader : ℕ := (u16At buf (eLfanew buf + 20)).toNat

/-- The magic number of the optional header. -/
def optionalMagic : UInt16 := u16At buf (eLfanew buf + 24)

/-- The size of the optional header before the data directories. -/
def fixedSize : ℕ := if optionalMagic buf = 0x010B then 96 else 112

/-- The number of data directories, which is the last field before them. -/
def numberOfRvaAndSizes : ℕ := (u32At buf (eLfanew buf + 20 + fixedSize buf)).toNat

/-- The place of the section table. -/
def sectionTable : ℕ := eLfanew buf + 24 + sizeOfOptionalHeader buf

/-- The section header at a place. -/
def sectionAt (off : ℕ) : ParsedSection := decodeSection ((buf.drop off).take 40)

/-- The section headers from a place on. -/
def sectionsAt (off n : ℕ) : List ParsedSection :=
  (List.range n).map fun i => sectionAt buf (off + 40 * i)

/-- The sections of a file. -/
def declaredSections : List ParsedSection :=
  sectionsAt buf (sectionTable buf) (numberOfSections buf)

/-- The place behind the data directories that the parser reads. -/
def directoriesEnd : ℕ :=
  eLfanew buf + 24 + fixedSize buf + 8 * min (numberOfRvaAndSizes buf) 16

/-- The headers of a file are well-formed: the signatures are there, the optional header is one of
the two kinds and has room for its data directories, and the section table is in the file. -/
structure WellFormedFile : Prop where
  dosHeader : 64 ≤ buf.length
  dosSignature : u16At buf 0 = 0x5A4D
  eLfanew_lt : eLfanew buf < 2 ^ 31
  ntSignature : u32At buf (eLfanew buf) = 0x00004550
  magic : optionalMagic buf = 0x010B ∨ optionalMagic buf = 0x020B
  directories : fixedSize buf + 8 * numberOfRvaAndSizes buf ≤ sizeOfOptionalHeader buf
  sections : sectionTable buf + 40 * numberOfSections buf ≤ buf.length

/-- The headers at the place the parser looks at say the same as those of the file, and there are
not too many. -/
def SectionsAgree : Prop :=
  numberOfSections buf ≤ kMaxSectionsPerImage ∧
    ∀ i < numberOfSections buf,
      sectionAt buf (directoriesEnd buf + 40 * i) = sectionAt buf (sectionTable buf + 40 * i)

end Format

variable {buf : List UInt8}

@[simp] theorem length_sectionsAt (off n : ℕ) : (sectionsAt buf off n).length = n := by
  simp [sectionsAt]

theorem sectionsAt_succ (off n : ℕ) :
    sectionsAt buf off (n + 1) = sectionAt buf off :: sectionsAt buf (off + 40) n := by
  rw [sectionsAt, List.range_succ_eq_map, List.map_cons, List.map_map]
  refine congrArg _ (List.map_congr_left fun i _ => ?_)
  exact congrArg (sectionAt buf) (show off + 40 * (i + 1) = off + 40 + 40 * i by omega)

theorem sectionsAt_inj {off off' n : ℕ} :
    sectionsAt buf off n = sectionsAt buf off' n ↔
      ∀ i < n, sectionAt buf (off + 40 * i) = sectionAt buf (off' + 40 * i) := by
  simp [sectionsAt, List.map_inj_left]

theorem le_fixedSize (buf : List UInt8) : 96 ≤ fixedSize buf := by
  rw [fixedSize]
  split_ifs <;> omega

namespace WellFormedFile

variable (h : WellFormedFile buf)

include h

/-- The parser looks for the section table in the optional header or behind it. -/
theorem directoriesEnd_le : directoriesEnd buf ≤ sectionTable buf := by
  have hdirs := h.directories
  rw [directoriesEnd, sectionTable]
  omega

theorem directoriesEnd_le_length :
    directoriesEnd buf + 40 * numberOfSections buf ≤ buf.length :=
  (Nat.add_le_add_right h.directoriesEnd_le _).trans h.sections

end WellFormedFile

/-! ### Reading -/

/-- What is in the file can be read. -/
theorem readLe_whole {off n : ℕ} (h : off + n ≤ buf.length) :
    readLe buf ⟨0, buf.length⟩ off n = .ok (some ((buf.drop off).take n)) := by
  rw [readLe, if_neg (by dsimp only; omega), rawRead, Nat.zero_add, if_pos h]
  rfl

theorem take_drop_take_drop {off n k m : ℕ} (h : k + m ≤ n) :
    ((((buf.drop off).take n).drop k).take m) = (buf.drop (off + k)).take m := by
  rw [List.drop_take, List.take_take, List.drop_drop, Nat.min_eq_left (by omega)]

theorem u16At_field {off n k : ℕ} (h : k + 2 ≤ n) :
    u16At ((buf.drop off).take n) k = u16At buf (off + k) := by
  rw [u16At, take_drop_take_drop h, u16At]

theorem u32At_field {off n k : ℕ} (h : k + 4 ≤ n) :
    u32At ((buf.drop off).take n) k = u32At buf (off + k) := by
  rw [u32At, take_drop_take_drop h, u32At]

/-- The headers of a well-formed file are read as the format says. -/
theorem fileHeaders_wellFormed (h : WellFormedFile buf) :
    ∃ headers, fileHeaders .exact buf = .ok headers ∧
      headers.numDirs = numberOfRvaAndSizes buf ∧
      headers.dirOff = eLfanew buf + 24 + fixedSize buf ∧
      headers.numberOfSections = numberOfSections buf := by
  have hlen := h.directoriesEnd_le_length
  have hfixed := le_fixedSize buf
  rw [directoriesEnd] at hlen
  have hlfanew : (u32At ((buf.drop 0).take 64) 60).toNat = eLfanew buf := by
    rw [u32At_field (by omega), eLfanew]
  have hsig : u32At ((buf.drop (eLfanew buf)).take 4) 0 = 0x00004550 := by
    rw [u32At_field (by omega)]
    exact h.ntSignature
  have hcount : u16At ((buf.drop (eLfanew buf + 4)).take 20) 2 = u16At buf (eLfanew buf + 6) :=
    u16At_field (by omega)
  have hmagic : u16At ((buf.drop (eLfanew buf + 4 + 20)).take 2) 0 = optionalMagic buf :=
    u16At_field (by omega)
  rw [fileHeaders, readLe_whole (by have := h.dosHeader; omega), ok_bind]
  dsimp only
  rw [if_neg (by rw [u16At_field (by omega)]; exact not_not.mpr h.dosSignature), hlfanew,
    if_neg (by have := h.eLfanew_lt; omega), ntHeaders, readLe_whole (by omega), ok_bind]
  dsimp only
  rw [if_neg (not_not.mpr hsig), Arith.exact_u32, Arith.exact_u32, readLe_whole (by omega), ok_bind]
  dsimp only
  rw [readLe_whole (by omega), ok_bind]
  dsimp only
  rw [hmagic, hcount]
  rcases h.magic with hkind | hkind
  · have hsize : fixedSize buf = 96 := by rw [fixedSize, if_pos hkind]
    rw [if_pos hkind, optionalHeader32, readLe_whole (by omega), ok_bind]
    refine ⟨_, rfl, ?_, ?_, rfl⟩
    · dsimp only
      rw [numberOfRvaAndSizes, hsize, u32At_field (by omega)]
    · rw [hsize]
      rfl
  · have hne : optionalMagic buf ≠ 0x010B := by rw [hkind]; decide
    have hsize : fixedSize buf = 112 := by rw [fixedSize, if_neg hne]
    rw [if_neg hne, if_pos hkind, optionalHeader64, readLe_whole (by omega), ok_bind]
    refine ⟨_, rfl, ?_, ?_, rfl⟩
    · dsimp only
      rw [numberOfRvaAndSizes, hsize, u32At_field (by omega)]
    · rw [hsize]
      rfl

theorem dataDirectories_whole {off todo i : ℕ} (h : off + 8 * (i + todo) ≤ buf.length)
    (dirs : List DataDirectory) :
    ∃ dirs', dataDirectories .exact buf off todo i dirs = .ok dirs' := by
  induction todo generalizing i dirs with
  | zero => exact ⟨dirs, rfl⟩
  | succ todo ih =>
    rw [dataDirectories, Arith.exact_u64, Arith.exact_u64, readLe_whole (by omega), ok_bind]
    exact ih (by omega) _

theorem sectionHeaders_whole {off todo i : ℕ} (h : off + 40 * (i + todo) ≤ buf.length)
    (sections : List ParsedSection) :
    sectionHeaders .exact buf off todo i sections =
      .ok (sections ++ sectionsAt buf (off + 40 * i) todo) := by
  induction todo generalizing i sections with
  | zero => simp [sectionHeaders, sectionsAt, Pure.pure, Except.pure]
  | succ todo ih =>
    rw [sectionHeaders, Arith.exact_u64, Arith.exact_u64, readLe_whole (by omega), ok_bind]
    dsimp only
    rw [ih (by omega), sectionsAt_succ, List.append_assoc, List.singleton_append, sectionAt,
      Nat.mul_comm i 40, Nat.mul_add, ← Nat.add_assoc]

/-- The section headers the parser reads are those behind the data directories it read. -/
theorem parseHeaders_sections (h : WellFormedFile buf) :
    ∃ img dirs, parseHeaders .machine buf = .ok (img, dirs) ∧
      img.sections = sectionsAt buf (directoriesEnd buf)
        (min (numberOfSections buf) kMaxSectionsPerImage) := by
  obtain ⟨headers, hheaders, hnum, hoff, hcount⟩ := fileHeaders_wellFormed h
  have hlen := h.directoriesEnd_le_length
  have hmin : (if headers.numDirs > 16 then 16 else headers.numDirs) =
      min (numberOfRvaAndSizes buf) 16 := by
    rw [hnum]
    split_ifs <;> omega
  have hend : headers.dirOff + min (numberOfRvaAndSizes buf) 16 * 8 = directoriesEnd buf := by
    rw [hoff, directoriesEnd, Nat.mul_comm]
  obtain ⟨dirs, hdirs⟩ : ∃ dirs, dataDirectories .exact buf headers.dirOff
      (min (numberOfRvaAndSizes buf) 16) 0 [] = .ok dirs :=
    dataDirectories_whole (by omega) []
  have hsections : sectionHeaders .exact buf (directoriesEnd buf)
      (min (numberOfSections buf) kMaxSectionsPerImage) 0 [] =
        .ok ([] ++ sectionsAt buf (directoriesEnd buf)
          (min (numberOfSections buf) kMaxSectionsPerImage)) :=
    sectionHeaders_whole (by omega) []
  rw [parseHeaders_eq Arith.fits_machine, parseHeaders, hheaders, ok_bind]
  dsimp only
  rw [hmin, hdirs, ok_bind, Arith.exact_u32, Arith.exact_u32, hend, hcount, hsections]
  exact ⟨_, dirs, rfl, rfl⟩

/-- The sections of an image are those of the headers. -/
theorem parse_sections {img : PeImage} (h : parse w lookupOrdinalName buf = .ok img) :
    ∃ headers, parseHeaders w buf = .ok headers ∧ img.sections = headers.1.sections := by
  obtain ⟨headers, hheaders, h⟩ := bind_eq_ok.mp h
  obtain ⟨imports, -, h⟩ := bind_eq_ok.mp h
  obtain ⟨delayImports, -, h⟩ := bind_eq_ok.mp h
  obtain ⟨exports, -, h⟩ := bind_eq_ok.mp h
  obtain ⟨tlsCallbacks, -, h⟩ := bind_eq_ok.mp h
  obtain ⟨relocations, -, h⟩ := bind_eq_ok.mp h
  exact ⟨headers, hheaders, by rw [← Except.ok.inj h]⟩

/-! ### Agreement -/

/-- The parser reads the headers of a file, and the sections are those of the file. -/
def ReadsSections (buf : List UInt8) : Prop :=
  ∃ img dirs, parseHeaders .machine buf = .ok (img, dirs) ∧ img.sections = declaredSections buf

theorem sectionsAt_eq_declaredSections_iff :
    sectionsAt buf (directoriesEnd buf) (min (numberOfSections buf) kMaxSectionsPerImage) =
      declaredSections buf ↔ SectionsAgree buf := by
  rw [declaredSections, SectionsAgree, ← sectionsAt_inj]
  constructor
  · intro heq
    have hlen := congrArg List.length heq
    rw [length_sectionsAt, length_sectionsAt] at hlen
    rw [hlen] at heq
    exact ⟨hlen ▸ Nat.min_le_right _ _, heq⟩
  · rintro ⟨hle, heq⟩
    rwa [Nat.min_eq_left hle]

theorem readsSections_iff (h : WellFormedFile buf) : ReadsSections buf ↔ SectionsAgree buf := by
  obtain ⟨img, dirs, hread, hsections⟩ := parseHeaders_sections h
  rw [← sectionsAt_eq_declaredSections_iff, ← hsections]
  constructor
  · rintro ⟨img', dirs', hread', hdeclared⟩
    obtain ⟨rfl, -⟩ := Prod.mk.inj (Except.ok.inj (hread.symm.trans hread'))
    exact hdeclared
  · exact fun hdeclared => ⟨img, dirs, hread, hdeclared⟩

/-! ### The fields -/

section Fields

variable {buf' : List UInt8} {n k : ℕ}

theorem take_drop_congr {m : ℕ} (h : k + m ≤ n) (htake : buf'.take n = buf.take n) :
    (buf'.drop k).take m = (buf.drop k).take m := by
  have hin (l : List UInt8) : (l.drop k).take m = ((l.take n).drop k).take m := by
    rw [List.drop_take, List.take_take, Nat.min_eq_left (by omega)]
  rw [hin, htake, ← hin]

theorem u16At_congr (h : k + 2 ≤ n) (htake : buf'.take n = buf.take n) :
    u16At buf' k = u16At buf k := by
  rw [u16At, take_drop_congr h htake, u16At]

theorem u32At_congr (h : k + 4 ≤ n) (htake : buf'.take n = buf.take n) :
    u32At buf' k = u32At buf k := by
  rw [u32At, take_drop_congr h htake, u32At]

/-- The fields are those before the place where the parser looks for the section table. -/
structure SameFields (buf buf' : List UInt8) : Prop where
  eLfanew : eLfanew buf' = eLfanew buf
  dosSignature : u16At buf' 0 = u16At buf 0
  ntSignature : u32At buf' (Pe.eLfanew buf) = u32At buf (Pe.eLfanew buf)
  numberOfSections : numberOfSections buf' = numberOfSections buf
  sizeOfOptionalHeader : sizeOfOptionalHeader buf' = sizeOfOptionalHeader buf
  optionalMagic : optionalMagic buf' = optionalMagic buf
  fixedSize : fixedSize buf' = fixedSize buf
  numberOfRvaAndSizes : numberOfRvaAndSizes buf' = numberOfRvaAndSizes buf

theorem sameFields_of_take
    (htake : buf'.take (directoriesEnd buf) = buf.take (directoriesEnd buf)) :
    SameFields buf buf' := by
  have hfixed := le_fixedSize buf
  have hend : eLfanew buf + 24 + fixedSize buf ≤ directoriesEnd buf := Nat.le_add_right _ _
  have hlfanew : eLfanew buf' = eLfanew buf :=
    congrArg UInt32.toNat (u32At_congr (by omega) htake)
  have hmagic : optionalMagic buf' = optionalMagic buf := by
    rw [optionalMagic, hlfanew]
    exact u16At_congr (by omega) htake
  have hsize : fixedSize buf' = fixedSize buf := by rw [fixedSize, hmagic, fixedSize]
  exact {
    eLfanew := hlfanew
    dosSignature := u16At_congr (by omega) htake
    ntSignature := u32At_congr (by omega) htake
    numberOfSections := by
      rw [numberOfSections, hlfanew, u16At_congr (by omega) htake, numberOfSections]
    sizeOfOptionalHeader := by
      rw [sizeOfOptionalHeader, hlfanew, u16At_congr (by omega) htake, sizeOfOptionalHeader]
    optionalMagic := hmagic
    fixedSize := hsize
    numberOfRvaAndSizes := by
      rw [numberOfRvaAndSizes, hlfanew, hsize, u32At_congr (by omega) htake, numberOfRvaAndSizes] }

variable (hfields : SameFields buf buf')

include hfields

theorem SameFields.sectionTable_eq : sectionTable buf' = sectionTable buf := by
  rw [sectionTable, hfields.eLfanew, hfields.sizeOfOptionalHeader, sectionTable]

theorem SameFields.directoriesEnd_eq : directoriesEnd buf' = directoriesEnd buf := by
  rw [directoriesEnd, hfields.eLfanew, hfields.fixedSize, hfields.numberOfRvaAndSizes,
    directoriesEnd]

theorem SameFields.wellFormed (h : WellFormedFile buf) (hlen : buf'.length = buf.length) :
    WellFormedFile buf' where
  dosHeader := hlen ▸ h.dosHeader
  dosSignature := hfields.dosSignature.trans h.dosSignature
  eLfanew_lt := hfields.eLfanew ▸ h.eLfanew_lt
  ntSignature := by rw [hfields.eLfanew, hfields.ntSignature, h.ntSignature]
  magic := hfields.optionalMagic ▸ h.magic
  directories := by
    rw [hfields.fixedSize, hfields.numberOfRvaAndSizes, hfields.sizeOfOptionalHeader]
    exact h.directories
  sections := by
    rw [hfields.sectionTable_eq, hfields.numberOfSections, hlen]
    exact h.sections

end Fields

/-- A section has no name exactly when its header begins with a null byte. -/
theorem name_sectionAt_eq_nil_iff {off : ℕ} (h : off < buf.length) :
    (sectionAt buf off).name = [] ↔ buf[off] = 0 := by
  have hraw : ((buf.drop off).take 40).take 8 = buf[off] :: (buf.drop (off + 1)).take 7 := by
    rw [List.take_take, List.drop_eq_getElem_cons h]
    rfl
  rw [sectionAt, decodeSection, hraw, List.takeWhile_cons]
  split_ifs with hzero
  · simpa using hzero
  · simpa using hzero

/-- When the two places differ, the section table can be filled so that the parser reads something
else. -/
theorem exists_sections_disagree (h : WellFormedFile buf) (hpos : 0 < numberOfSections buf)
    (hlt : directoriesEnd buf < sectionTable buf) :
    ∃ buf' : List UInt8, buf'.length = buf.length ∧
      buf'.take (directoriesEnd buf) = buf.take (directoriesEnd buf) ∧ ¬SectionsAgree buf' := by
  have hsections := h.sections
  have htake : ((buf.set (directoriesEnd buf) 0).set (sectionTable buf) 1).take
      (directoriesEnd buf) = buf.take (directoriesEnd buf) := by
    rw [List.take_set_of_le hlt.le, List.take_set_of_le le_rfl]
  have hlen : ((buf.set (directoriesEnd buf) 0).set (sectionTable buf) 1).length = buf.length := by
    simp
  refine ⟨_, hlen, htake, fun hagree => ?_⟩
  have hfields := sameFields_of_take htake
  have hfirst := hagree.2 0 (hfields.numberOfSections ▸ hpos)
  rw [Nat.mul_zero, Nat.add_zero, Nat.add_zero, hfields.directoriesEnd_eq,
    hfields.sectionTable_eq] at hfirst
  have hname := congrArg (fun s : ParsedSection => s.name = []) hfirst
  rw [name_sectionAt_eq_nil_iff (by omega), name_sectionAt_eq_nil_iff (by omega)] at hname
  simp [hlt.ne'] at hname

/-- **The section table**: of a well-formed file the parser reads the headers, and the sections are
those of the file exactly when those behind the data directories it read say the same; what it
returns for the whole file has the same sections. The header fields make sure of it for every
section table exactly when there are no sections, or when there are at most 4096 and the optional
header ends with the data directories, of which there are at most sixteen. -/
theorem parse_sections_iff (lookupOrdinalName : OrdinalNames) (buf : List UInt8)
    (h : WellFormedFile buf) :
    (ReadsSections buf ↔ SectionsAgree buf) ∧
      (∀ img, parse .machine lookupOrdinalName buf = .ok img →
        (img.sections = declaredSections buf ↔ SectionsAgree buf)) ∧
      ((∀ buf', WellFormedFile buf' →
          buf'.take (directoriesEnd buf) = buf.take (directoriesEnd buf) → ReadsSections buf') ↔
        numberOfSections buf = 0 ∨ numberOfSections buf ≤ kMaxSectionsPerImage ∧
          sizeOfOptionalHeader buf = fixedSize buf + 8 * min (numberOfRvaAndSizes buf) 16) := by
  refine ⟨readsSections_iff h, fun img himg => ?_, fun hall => ?_, fun hfits buf' h' htake => ?_⟩
  · obtain ⟨⟨img', dirs'⟩, hread', heq⟩ := parse_sections himg
    obtain ⟨img'', dirs, hread, hsections⟩ := parseHeaders_sections h
    obtain ⟨rfl, -⟩ := Prod.mk.inj (Except.ok.inj (hread.symm.trans hread'))
    rw [heq, hsections]
    exact sectionsAt_eq_declaredSections_iff
  · rcases Nat.eq_zero_or_pos (numberOfSections buf) with hzero | hpos
    · exact .inl hzero
    · have hagree := (readsSections_iff h).mp (hall buf h rfl)
      refine .inr ⟨hagree.1, by_contra fun hne => ?_⟩
      have hle := h.directoriesEnd_le
      have hlt : directoriesEnd buf < sectionTable buf := by
        rw [directoriesEnd, sectionTable] at hle ⊢
        omega
      obtain ⟨buf', hlen, htake, hdisagree⟩ := exists_sections_disagree h hpos hlt
      have h' := (sameFields_of_take htake).wellFormed h hlen
      exact hdisagree ((readsSections_iff h').mp (hall buf' h' htake))
  · have hfields := sameFields_of_take htake
    refine (readsSections_iff h').mpr ?_
    rw [SectionsAgree, hfields.numberOfSections, hfields.directoriesEnd_eq, hfields.sectionTable_eq]
    rcases hfits with hzero | ⟨hle, hsize⟩
    · rw [hzero]
      exact ⟨Nat.zero_le _, fun i hi => absurd hi (Nat.not_lt_zero i)⟩
    · have heq : directoriesEnd buf = sectionTable buf := by
        rw [directoriesEnd, sectionTable, hsize]
        omega
      exact ⟨hle, fun i _ => by rw [heq]⟩

/-- A 32-bit file with no data directories, an optional header of some size, and one section. -/
def oneSection (size : ℕ) : List UInt8 :=
  [0x4D, 0x5A] ++ List.replicate 58 0 ++ [64, 0, 0, 0] ++ [0x50, 0x45, 0, 0] ++
    [0x4C, 0x01, 1, 0] ++ List.replicate 12 0 ++ [UInt8.ofNat size, 0, 0, 0] ++
    [0x0B, 0x01] ++ List.replicate (size - 2) 0 ++ str ".text" ++ List.replicate 35 0

theorem wellFormedFile_oneSection :
    WellFormedFile (oneSection 96) ∧ WellFormedFile (oneSection 0xE0) :=
  ⟨⟨by decide +kernel, by decide +kernel, by decide +kernel, by decide +kernel, by decide +kernel,
      by decide +kernel, by decide +kernel⟩,
    ⟨by decide +kernel, by decide +kernel, by decide +kernel, by decide +kernel, by decide +kernel,
      by decide +kernel, by decide +kernel⟩⟩

theorem parse_sections_iff_oneSection : ReadsSections (oneSection 96) :=
  (parse_sections_iff (fun _ _ => none) _ wellFormedFile_oneSection.1).1.mpr
    ⟨by decide +kernel, by decide +kernel⟩

/-- The usual 224 bytes of an optional header, of which the data directories take none: the parser
reads a section of zeros. -/
theorem parse_oneSection_padded :
    WellFormedFile (oneSection 0xE0) ∧ ¬ReadsSections (oneSection 0xE0) ∧
      ∃ img, parse .machine (fun _ _ => none) (oneSection 0xE0) = .ok img ∧
        img.sections ≠ declaredSections (oneSection 0xE0) := by
  have h := wellFormedFile_oneSection.2
  refine ⟨h, fun hreads => ?_, by decide +kernel⟩
  exact absurd ((readsSections_iff h).mp hreads).2 (by decide +kernel)

end Papa.Pe
