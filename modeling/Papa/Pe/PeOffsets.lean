import Papa.Pe.PeParser

/-!
# No offset wraps

Computed in the arithmetic of the machine, every offset of the parser is the one without a cut. The
fields of a file have at most 32 bits and the counts of the loops are small, so sums stay far below
2^64; the slots of the callbacks begin at a 64-bit address, but each one after the first follows one
that is mapped, and what is mapped lies below 2^33.

## Main results

* `PeImage.rvaToFileOffset_lt`: what is mapped.
* `parse_eq_exact`: the parser.
-/

namespace Papa.Pe

variable {w : Arith} {lookupOrdinalName : OrdinalNames} {img : PeImage}

namespace PeImage

theorem sectionContainingRva_eq (hw : w.Fits) (rva : ℕ) :
    img.sectionContainingRva w rva = img.sectionContainingRva .exact rva := by
  unfold sectionContainingRva
  congr 1
  funext s
  have hva := s.virtualAddress.toNat_lt
  have hsize := (max s.virtualSize s.rawSize).toNat_lt
  rw [hw.u64 (by omega), Arith.exact_u64]

/-- What is mapped lies below 2^33, in the image and in the file. -/
theorem rvaToFileOffset_lt {rva off : ℕ} (h : img.rvaToFileOffset .exact rva = some off) :
    rva < 2 ^ 33 ∧ off < 2 ^ 33 := by
  unfold rvaToFileOffset at h
  split at h
  · rename_i s hs
    have hin := List.find?_some hs
    rw [Bool.and_eq_true, decide_eq_true_iff, decide_eq_true_iff, Arith.exact_u64] at hin
    have hva := s.virtualAddress.toNat_lt
    have hsize := (max s.virtualSize s.rawSize).toNat_lt
    have hoff := s.rawOffset.toNat_lt
    have hraw := s.rawSize.toNat_lt
    dsimp only at h
    split_ifs at h with hdelta
    obtain rfl := Option.some.inj h
    rw [Arith.exact_u64]
    omega
  · split_ifs at h with hsmall
    obtain rfl := Option.some.inj h
    omega

theorem rvaToFileOffset_eq (hw : w.Fits) (rva : ℕ) :
    img.rvaToFileOffset w rva = img.rvaToFileOffset .exact rva := by
  unfold rvaToFileOffset
  rw [sectionContainingRva_eq hw]
  split
  · rename_i s hs
    have hoff := s.rawOffset.toNat_lt
    have hraw := s.rawSize.toNat_lt
    dsimp only
    split_ifs with hdelta
    · rfl
    · rw [hw.u64 (by omega), Arith.exact_u64]
  · rfl

theorem readAtRva_eq (hw : w.Fits) (rva n : ℕ) :
    img.readAtRva w rva n = img.readAtRva .exact rva n := by
  rw [readAtRva, readAtRva, rvaToFileOffset_eq hw]

theorem readableBytesAtRva_eq (hw : w.Fits) (rva : ℕ) :
    img.readableBytesAtRva w rva = img.readableBytesAtRva .exact rva := by
  rw [readableBytesAtRva, readableBytesAtRva, rvaToFileOffset_eq hw, sectionContainingRva_eq hw]

/-- A part of the file that was given out lies in the file. -/
theorem within_of_readAtRva {rva n : ℕ} {s : Span} (h : img.readAtRva w rva n = .ok s) :
    s.size = n ∧ s.start + s.size ≤ img.buffer.length := by
  unfold readAtRva at h
  split at h
  · exact nomatch h
  · unfold readAtFileOffset at h
    split_ifs at h with hout
    · exact nomatch h
    · obtain rfl := Except.ok.inj h
      rw [not_or, not_lt, not_lt] at hout
      exact ⟨rfl, by dsimp only; omega⟩

/-- What is read is mapped. -/
theorem rva_lt_of_readAtRva {rva n : ℕ} {s : Span} (h : img.readAtRva .exact rva n = .ok s) :
    rva < 2 ^ 33 := by
  unfold readAtRva at h
  split at h
  · exact nomatch h
  · rename_i off hoff
    exact (rvaToFileOffset_lt hoff).1

end PeImage

open PeImage

/-! ### Names and imports -/

theorem cstringLoop_eq (hw : w.Fits) {start : ℕ} (hstart : start < 2 ^ 33) {todo i : ℕ}
    (hi : i + todo ≤ 4096) (out : Str) :
    cstringLoop w img start todo i out = cstringLoop .exact img start todo i out := by
  induction todo generalizing i out with
  | zero => rfl
  | succ todo ih =>
    rw [cstringLoop, cstringLoop, hw.u64 (by omega), Arith.exact_u64]
    split_ifs with hend
    · rfl
    · refine bind_congr_ok fun c _ => ?_
      split_ifs
      · rfl
      · exact ih (by omega) _

theorem readCstringAtRva_eq (hw : w.Fits) (rva : ℕ) :
    readCstringAtRva w img rva = readCstringAtRva .exact img rva := by
  unfold readCstringAtRva
  rw [rvaToFileOffset_eq hw]
  split
  · rfl
  · rename_i start hstart
    rw [cstringLoop_eq hw (rvaToFileOffset_lt hstart).2 (by omega)]

theorem importItem_eq (hw : w.Fits) (dll : Str) (delayed : Bool) (iatVa entry : UInt64) :
    importItem w lookupOrdinalName img dll delayed iatVa entry =
      importItem .exact lookupOrdinalName img dll delayed iatVa entry := by
  unfold importItem
  have hhint := (entry &&& 0x7FFFFFFF).toNat_lt
  have hsmall : (entry &&& 0x7FFFFFFF).toNat ≤ 0x7FFFFFFF := by
    rw [UInt64.toNat_and]
    exact Nat.and_le_right
  dsimp only
  rw [hw.u64 (by omega), Arith.exact_u64, readCstringAtRva_eq hw]

theorem ptrSize_le (img : PeImage) : img.ptrSize ≤ 8 := by
  unfold PeImage.ptrSize
  split_ifs <;> omega

theorem importSlots_eq (hw : w.Fits) (dll : Str) (delayed : Bool) (iltRva iatRva : UInt32)
    {todo slot : ℕ} (hslot : slot + todo ≤ kMaxImportsPerDll) (out : List ParsedImport) :
    importSlots w lookupOrdinalName img dll delayed iltRva iatRva todo slot out =
      importSlots .exact lookupOrdinalName img dll delayed iltRva iatRva todo slot out := by
  induction todo generalizing slot out with
  | zero => rfl
  | succ todo ih =>
    have hptr := ptrSize_le img
    have hmul : slot * img.ptrSize ≤ slot * 8 := Nat.mul_le_mul_left slot hptr
    have hilt := iltRva.toNat_lt
    have hlt : slot < 2 ^ 16 :=
      Nat.lt_of_lt_of_le (Nat.lt_add_of_pos_right (Nat.succ_pos todo)) hslot
    rw [importSlots, importSlots, hw.u64 (n := slot * img.ptrSize) (by omega),
      hw.u64 (by omega), readAtRva_eq hw, Arith.exact_u64, Arith.exact_u64]
    refine bind_congr_ok fun bytes _ => bind_congr_ok fun raw _ => ?_
    match raw with
    | none => rfl
    | some raw =>
      dsimp only
      split_ifs
      · rfl
      · rw [importItem_eq hw]
        exact bind_congr_ok fun item _ => ih (by omega) _

theorem walkImportDescriptor_eq (hw : w.Fits) (desc : ImportDescriptor) (delayed : Bool)
    (out : List ParsedImport) :
    walkImportDescriptor w lookupOrdinalName img desc delayed out =
      walkImportDescriptor .exact lookupOrdinalName img desc delayed out := by
  unfold walkImportDescriptor
  rw [readCstringAtRva_eq hw]
  by_cases hname : desc.name = 0
  · rw [if_pos hname, if_pos hname]
  · rw [if_neg hname, if_neg hname]
    refine bind_congr_ok fun dllName _ => ?_
    dsimp only
    rw [importSlots_eq hw _ _ _ _ (Nat.zero_add _).le]

theorem importDescriptors_eq (hw : w.Fits) (dd : DataDirectory) {size : ℕ} (hsize : size ≤ 32)
    (detail : String) (delayed : Bool) (decode : List UInt8 → Option ImportDescriptor)
    {todo i : ℕ} (hi : i + todo ≤ kMaxImportDescriptors) (out : List ParsedImport) :
    importDescriptors w lookupOrdinalName img dd size detail delayed decode todo i out =
      importDescriptors .exact lookupOrdinalName img dd size detail delayed decode todo i out := by
  induction todo generalizing i out with
  | zero => rfl
  | succ todo ih =>
    have hmul : i * size ≤ i * 32 := Nat.mul_le_mul_left i hsize
    have hrva := dd.rva.toNat_lt
    have hlt : i < 2 ^ 14 := Nat.lt_of_lt_of_le (Nat.lt_add_of_pos_right (Nat.succ_pos todo)) hi
    rw [importDescriptors, importDescriptors, hw.u64 (n := i * size) (by omega),
      hw.u64 (by omega), readAtRva_eq hw, Arith.exact_u64, Arith.exact_u64]
    refine bind_congr_ok fun bytes _ => bind_congr_ok fun raw _ => ?_
    match raw with
    | none => rfl
    | some raw =>
      dsimp only
      cases decode raw with
      | none => rfl
      | some desc =>
        dsimp only
        rw [walkImportDescriptor_eq hw]
        exact bind_congr_ok fun out _ => ih (by omega) _

theorem parseImports_eq (hw : w.Fits) (dirs : List DataDirectory) :
    parseImports w lookupOrdinalName img dirs =
      parseImports .exact lookupOrdinalName img dirs := by
  unfold parseImports
  dsimp only
  rw [importDescriptors_eq hw _ (by omega) _ _ _ (Nat.zero_add _).le]

theorem parseDelayImports_eq (hw : w.Fits) (dirs : List DataDirectory) :
    parseDelayImports w lookupOrdinalName img dirs =
      parseDelayImports .exact lookupOrdinalName img dirs := by
  unfold parseDelayImports
  dsimp only
  rw [importDescriptors_eq hw _ (by omega) _ _ _ (Nat.zero_add _).le]

/-! ### Exports -/

theorem readRva_eq (hw : w.Fits) (rva n : ℕ) :
    readRva w img rva n = readRva .exact img rva n := by
  rw [readRva, readRva, readAtRva_eq hw]

theorem exportName_eq (hw : w.Fits) (edir : ExportDirectory) (funcCount : ℕ) {i : ℕ}
    (hi : i < kMaxExportsPerImage) (names : List Str) :
    exportName w img edir funcCount i names = exportName .exact img edir funcCount i names := by
  have hlt : i < 2 ^ 20 := hi
  have hnames := edir.addressOfNames.toNat_lt
  have hordinals := edir.addressOfNameOrdinals.toNat_lt
  unfold exportName
  rw [hw.u64 (n := i * 4) (by omega), hw.u64 (n := i * 2) (by omega), hw.u64 (by omega),
    hw.u64 (by omega), readRva_eq hw, readRva_eq hw]
  simp only [Arith.exact_u64, readCstringAtRva_eq hw]

theorem exportNames_eq (hw : w.Fits) (edir : ExportDirectory) (funcCount : ℕ) {todo i : ℕ}
    (hi : i + todo ≤ kMaxExportsPerImage) (names : List Str) :
    exportNames w img edir funcCount todo i names =
      exportNames .exact img edir funcCount todo i names := by
  induction todo generalizing i names with
  | zero => rfl
  | succ todo ih =>
    rw [exportNames, exportNames, exportName_eq hw _ _ (by omega)]
    exact bind_congr_ok fun names _ => ih (by omega) _

theorem exportFunction_eq (hw : w.Fits) (dd : DataDirectory) (edir : ExportDirectory)
    (names : List Str) {i : ℕ} (hi : i < kMaxExportsPerImage) :
    exportFunction w img dd edir names i = exportFunction .exact img dd edir names i := by
  have hlt : i < 2 ^ 20 := hi
  have hfunctions := edir.addressOfFunctions.toNat_lt
  have hrva := dd.rva.toNat_lt
  have hsize := dd.size.toNat_lt
  unfold exportFunction
  rw [hw.u64 (n := i * 4) (by omega), hw.u64 (by omega), readRva_eq hw]
  refine bind_congr_ok fun raw _ => ?_
  match raw with
  | none => rfl
  | some raw =>
    dsimp only
    rw [hw.u64 (n := dd.rva.toNat + dd.size.toNat) (by omega), Arith.exact_u64,
      readCstringAtRva_eq hw]

theorem exportFunctions_eq (hw : w.Fits) (dd : DataDirectory) (edir : ExportDirectory)
    (names : List Str) {todo i : ℕ} (hi : i + todo ≤ kMaxExportsPerImage)
    (out : List ParsedExport) :
    exportFunctions w img dd edir names todo i out =
      exportFunctions .exact img dd edir names todo i out := by
  induction todo generalizing i out with
  | zero => rfl
  | succ todo ih =>
    rw [exportFunctions, exportFunctions, exportFunction_eq hw _ _ _ (by omega)]
    exact bind_congr_ok fun peExp _ => ih (by omega) _

theorem exportCount_le (declared address : UInt32) :
    exportCount w img declared address ≤ kMaxExportsPerImage := Nat.min_le_right _ _

theorem parseExports_eq (hw : w.Fits) (dirs : List DataDirectory) :
    parseExports w img dirs = parseExports .exact img dirs := by
  have hcount (declared address : UInt32) :
      exportCount w img declared address = exportCount .exact img declared address := by
    rw [exportCount, exportCount, readableBytesAtRva_eq hw]
  unfold parseExports
  dsimp only
  split_ifs
  · rfl
  · rw [readAtRva_eq hw]
    refine bind_congr_ok fun dirBytes _ => bind_congr_ok fun raw _ => ?_
    match raw with
    | none => rfl
    | some raw =>
      dsimp only
      rw [hcount, hcount, exportNames_eq hw _ _ (by rw [Nat.zero_add]; exact exportCount_le _ _)]
      exact bind_congr_ok fun names _ =>
        exportFunctions_eq hw _ _ _ (by rw [Nat.zero_add]; exact exportCount_le _ _) _

/-! ### Thread-local storage -/

/-- A call whose error is handled returned what the call did. -/
theorem attempt_ok {α : Type} {m : Guarded α} {a : α} (h : attempt m = .ok (.ok a)) :
    m = .ok a := by
  match m with
  | .ok b =>
    cases h
    rfl
  | .error (.refused e) => exact nomatch h
  | .error .outside => exact nomatch h
  | .error .unfinished => exact nomatch h

/-- What a read of bytes at an address tells of the address. -/
theorem rva_lt_of_readRva {rva n : ℕ} {raw : List UInt8}
    (h : readRva .exact img rva n = .ok (some raw)) : rva < 2 ^ 33 := by
  obtain ⟨r, hr, hrest⟩ := bind_eq_ok.mp h
  match r with
  | .error e => exact nomatch hrest
  | .ok s => exact rva_lt_of_readAtRva (attempt_ok hr)

/-- Every slot after the first follows one that is mapped. -/
theorem tlsSlots_eq (hw : w.Fits) {callbacksRva todo i : ℕ} (hi : i + todo ≤ 256)
    (hslot : callbacksRva + i * img.ptrSize < 2 ^ 64) (callbacks : List UInt64) :
    tlsSlots w img callbacksRva todo i callbacks =
      tlsSlots .exact img callbacksRva todo i callbacks := by
  induction todo generalizing i callbacks with
  | zero => rfl
  | succ todo ih =>
    have hptr := ptrSize_le img
    rw [tlsSlots, tlsSlots, hw.u64 (n := i * img.ptrSize) (by omega), hw.u64 hslot, readRva_eq hw,
      Arith.exact_u64, Arith.exact_u64]
    refine bind_congr_ok fun raw hraw => ?_
    match raw with
    | none => rfl
    | some raw =>
      have hmapped := rva_lt_of_readRva hraw
      dsimp only
      split_ifs
      · rfl
      · exact ih (by omega) (by rw [Nat.succ_mul]; omega) _

theorem parseTlsCallbacks_eq (hw : w.Fits) (dirs : List DataDirectory) :
    parseTlsCallbacks w img dirs = parseTlsCallbacks .exact img dirs := by
  unfold parseTlsCallbacks
  dsimp only
  split_ifs
  · rfl
  all_goals
    rw [readAtRva_eq hw]
    refine bind_congr_ok fun bytes _ => bind_congr_ok fun raw _ => ?_
    match raw with
    | none => rfl
    | some raw =>
      dsimp only
      rw [tlsSlots_eq hw (by omega) (by rw [Nat.zero_mul]; exact UInt64.toNat_lt _)]

/-! ### Relocations -/

theorem relocEntries_eq (hw : w.Fits) (relbytes : Span) (pageRva : UInt32) {bodyEnd : ℕ}
    (hend : bodyEnd < 2 ^ 33) {fuel roff : ℕ} (hroff : roff < 2 ^ 34)
    (out : List ParsedRelocation) :
    relocEntries w img relbytes pageRva bodyEnd fuel roff out =
      relocEntries .exact img relbytes pageRva bodyEnd fuel roff out := by
  induction fuel generalizing roff out with
  | zero => rfl
  | succ fuel ih =>
    rw [relocEntries, relocEntries, hw.u64 (by omega), Arith.exact_u64]
    by_cases hin : roff + 2 ≤ bodyEnd
    · rw [if_pos hin, if_pos hin]
      refine bind_congr_ok fun raw _ => ?_
      match raw with
      | none => rfl
      | some raw =>
        dsimp only
        split_ifs
        · rfl
        · exact ih (by omega) _
    · rw [if_neg hin, if_neg hin]

theorem relocBlocks_eq (hw : w.Fits) {relbytes : Span} (hsize : relbytes.size < 2 ^ 32)
    {fuel pos : ℕ} (out : List ParsedRelocation) :
    relocBlocks w img relbytes fuel pos out = relocBlocks .exact img relbytes fuel pos out := by
  induction fuel generalizing pos out with
  | zero => rfl
  | succ fuel ih =>
    rw [relocBlocks, relocBlocks]
    by_cases hpos : pos ≥ relbytes.size
    · rw [if_pos hpos, if_pos hpos]
    rw [if_neg hpos, if_neg hpos, hw.u64 (n := pos + 4) (by omega),
      hw.u64 (n := pos + 8) (by omega), Arith.exact_u64, Arith.exact_u64]
    dsimp only
    split_ifs
    · rfl
    refine bind_congr_ok fun page _ => ?_
    match page with
    | none => rfl
    | some page =>
      refine bind_congr_ok fun chunk _ => ?_
      match chunk with
      | none => rfl
      | some chunk =>
        dsimp only
        have hchunk := (u32At chunk 0).toNat_lt
        split_ifs
        · rfl
        · rw [hw.u64 (n := pos + (u32At chunk 0).toNat) (by omega), Arith.exact_u64,
            relocEntries_eq hw _ _ (by omega) (by omega)]
          refine bind_congr_ok fun r _ => ?_
          split_ifs
          · rfl
          · exact ih _

theorem parseRelocations_eq (hw : w.Fits) (dirs : List DataDirectory) :
    parseRelocations w img dirs = parseRelocations .exact img dirs := by
  unfold parseRelocations
  dsimp only
  split_ifs
  · rfl
  rw [sectionContainingRva_eq hw, readAtRva_eq hw]
  refine bind_congr_ok fun r hr => ?_
  match r with
  | .error e => rfl
  | .ok relbytes =>
    have hsize := (within_of_readAtRva (attempt_ok hr)).1
    have hdir := (getDataDirectory dirs 5).size.toNat_lt
    refine relocBlocks_eq hw ?_ _
    rw [hsize]
    split
    · exact (Nat.min_le_left _ _).trans_lt hdir
    · exact hdir

/-! ### Headers -/

theorem optionalHeader32_eq (hw : w.Fits) (buf : List UInt8) (machine numberOfSections : UInt16)
    {optOff : ℕ} (h : optOff < 2 ^ 31 + 24) :
    optionalHeader32 w buf machine numberOfSections optOff =
      optionalHeader32 .exact buf machine numberOfSections optOff := by
  unfold optionalHeader32
  rw [hw.u32 (by omega), Arith.exact_u32]

theorem optionalHeader64_eq (hw : w.Fits) (buf : List UInt8) (machine numberOfSections : UInt16)
    {optOff : ℕ} (h : optOff < 2 ^ 31 + 24) :
    optionalHeader64 w buf machine numberOfSections optOff =
      optionalHeader64 .exact buf machine numberOfSections optOff := by
  unfold optionalHeader64
  rw [hw.u32 (by omega), Arith.exact_u32]

theorem ntHeaders_eq (hw : w.Fits) (buf : List UInt8) {ntOff : ℕ} (h : ntOff < 2 ^ 31) :
    ntHeaders w buf ntOff = ntHeaders .exact buf ntOff := by
  unfold ntHeaders
  rw [hw.u32 (n := ntOff + 4) (by omega), hw.u32 (n := ntOff + 4 + 20) (by omega),
    Arith.exact_u32, Arith.exact_u32]
  have hopt : ntOff + 4 + 20 < 2 ^ 31 + 24 := by omega
  dsimp only
  simp only [optionalHeader32_eq hw _ _ _ hopt, optionalHeader64_eq hw _ _ _ hopt]

theorem fileHeaders_eq (hw : w.Fits) (buf : List UInt8) :
    fileHeaders w buf = fileHeaders .exact buf := by
  unfold fileHeaders
  refine bind_congr_ok fun dos _ => ?_
  match dos with
  | none => rfl
  | some dos =>
    dsimp only
    split_ifs with hmz hrange
    · rfl
    · rfl
    · rw [not_or, not_le] at hrange
      exact ntHeaders_eq hw _ hrange.1

/-- The data directories begin right after the optional header. -/
theorem dirOff_lt_of_ntHeaders {buf : List UInt8} {ntOff : ℕ} {headers : FileHeaders}
    (h : ntHeaders .exact buf ntOff = .ok headers) : headers.dirOff < ntOff + 256 := by
  obtain ⟨sig, -, h⟩ := bind_eq_ok.mp h
  match sig with
  | none => exact nomatch h
  | some sig =>
    dsimp only at h
    split_ifs at h
    · exact nomatch h
    obtain ⟨fh, -, h⟩ := bind_eq_ok.mp h
    match fh with
    | none => exact nomatch h
    | some fh =>
      obtain ⟨optMagic, -, h⟩ := bind_eq_ok.mp h
      match optMagic with
      | none => exact nomatch h
      | some optMagic =>
        dsimp only at h
        split_ifs at h
        · obtain ⟨oh, -, h⟩ := bind_eq_ok.mp h
          match oh with
          | none => exact nomatch h
          | some oh =>
            obtain rfl := Except.ok.inj h
            simp only [Arith.exact_u32]
            omega
        · obtain ⟨oh, -, h⟩ := bind_eq_ok.mp h
          match oh with
          | none => exact nomatch h
          | some oh =>
            obtain rfl := Except.ok.inj h
            simp only [Arith.exact_u32]
            omega
        · exact nomatch h

theorem dirOff_lt_of_fileHeaders {buf : List UInt8} {headers : FileHeaders}
    (h : fileHeaders .exact buf = .ok headers) : headers.dirOff < 2 ^ 31 + 256 := by
  obtain ⟨dos, -, h⟩ := bind_eq_ok.mp h
  match dos with
  | none => exact nomatch h
  | some dos =>
    dsimp only at h
    split_ifs at h with hmz hrange
    · exact nomatch h
    · exact nomatch h
    · rw [not_or, not_le] at hrange
      have hdir := dirOff_lt_of_ntHeaders h
      omega

theorem dataDirectories_eq (hw : w.Fits) (buf : List UInt8) {dirOff : ℕ} (hoff : dirOff < 2 ^ 32)
    {todo i : ℕ} (hi : i + todo ≤ 16) (dirs : List DataDirectory) :
    dataDirectories w buf dirOff todo i dirs = dataDirectories .exact buf dirOff todo i dirs := by
  induction todo generalizing i dirs with
  | zero => rfl
  | succ todo ih =>
    rw [dataDirectories, dataDirectories, hw.u64 (n := i * 8) (by omega), hw.u64 (by omega),
      Arith.exact_u64, Arith.exact_u64]
    refine bind_congr_ok fun raw _ => ?_
    match raw with
    | none => rfl
    | some raw => exact ih (by omega) _

theorem sectionHeaders_eq (hw : w.Fits) (buf : List UInt8) {secOff : ℕ} (hoff : secOff < 2 ^ 32)
    {todo i : ℕ} (hi : i + todo ≤ kMaxSectionsPerImage) (sections : List ParsedSection) :
    sectionHeaders w buf secOff todo i sections =
      sectionHeaders .exact buf secOff todo i sections := by
  induction todo generalizing i sections with
  | zero => rfl
  | succ todo ih =>
    have hlt : i < 2 ^ 12 := Nat.lt_of_lt_of_le (Nat.lt_add_of_pos_right (Nat.succ_pos todo)) hi
    rw [sectionHeaders, sectionHeaders, hw.u64 (n := i * 40) (by omega), hw.u64 (by omega),
      Arith.exact_u64, Arith.exact_u64]
    refine bind_congr_ok fun raw _ => ?_
    match raw with
    | none => rfl
    | some raw => exact ih (by omega) _

theorem parseHeaders_eq (hw : w.Fits) (buf : List UInt8) :
    parseHeaders w buf = parseHeaders .exact buf := by
  unfold parseHeaders
  rw [fileHeaders_eq hw]
  refine bind_congr_ok fun headers hheaders => ?_
  have hdir := dirOff_lt_of_fileHeaders hheaders
  have hnum : (if headers.numDirs > 16 then 16 else headers.numDirs) ≤ 16 := by
    split_ifs <;> omega
  dsimp only
  rw [dataDirectories_eq hw _ (by omega) (by omega),
    hw.u32 (n := (if headers.numDirs > 16 then 16 else headers.numDirs) * 8) (by omega),
    hw.u32 (by omega), Arith.exact_u32, Arith.exact_u32,
    sectionHeaders_eq hw _ (by omega) (by rw [Nat.zero_add]; exact Nat.min_le_right _ _)]

/-- **No offset wraps**: the parser of the machine is the one that computes without a cut. -/
theorem parse_eq_exact (hw : w.Fits) (buf : List UInt8) :
    parse w lookupOrdinalName buf = parse .exact lookupOrdinalName buf := by
  simp only [parse, parseHeaders_eq hw, parseImports_eq hw, parseDelayImports_eq hw,
    parseExports_eq hw, parseTlsCallbacks_eq hw, parseRelocations_eq hw]

end Papa.Pe
