import Papa.Extractors.Carve
import Papa.Extractors.InsnFeatures
import Papa.Pe.PeParser

/-!
# The features of a file

The sections, the imports and the exports of an image are features of the file, and so are the files
and the texts in it. An export that is forwarded is an import as well. What a call is named by is
also what the file imports, so rules for files and rules for instructions know an import by the same
names.

## Main definitions

* `FileImage`: an image whose bytes fit into memory.
* `reformatForwardedExportName`: the name of a forwarded export.
* `extractFileFeatures`, `extractGlobalFeatures`: the features of a file.
* `IsForwardedName`: what a forwarded export is named as.

## Main results

* `reformatForwardedExportName_mem`: a forwarded export is named as an import is.
* `mem_extractFileFeatures_import`: which imports a file has.
* `exists_import_of_api`: a name of a call of an import is one of an import of the file.
* `extractFileFeatures_originatesAt`: the rules that can name the features of a file.
-/

namespace Papa.Extractors

open Emu Features Pe

/-! ### The features -/

/-- An image whose bytes fit into memory. -/
structure FileImage extends PeImage where
  length_lt : buffer.length < 2 ^ 63

/-- The bytes of an image. -/
def FileImage.rawBuffer (image : FileImage) : Buffer := ⟨image.buffer, image.length_lt⟩

/-- `reformat_forwarded_export_name`: the module is in lower case. -/
def reformatForwardedExportName (forwarder : Str) : Str :=
  match forwarder.rfind (ch '.') with
  | none => forwarder
  | some dot => (forwarder.take dot).map asciiLowerByte ++ ch '.' :: forwarder.drop (dot + 1)

section FileFeatures

variable (image : FileImage)

/-- `extract_file_format`. -/
def extractFileFormat : List (FeatureValue × Address) := [(.format (str "pe"), .noAddress)]

/-- `extract_file_section_names`. -/
def extractFileSectionNames : List (FeatureValue × Address) :=
  image.sections.filterMap fun sec =>
    if sec.name = [] then none
    else some (.section_ sec.name,
      .absoluteVirtual (image.imageBase + sec.virtualAddress.toUInt64))

/-- `extract_file_import_names`. -/
def extractFileImportNames : List (FeatureValue × Address) :=
  image.imports.flatMap fun imp =>
    let symbol := importSymbol imp
    if symbol = [] then []
    else (generateSymbols imp.dll symbol true).map fun variant =>
      (.import_ variant, .absoluteVirtual imp.iatVa)

/-- `extract_file_export_names`. -/
def extractFileExportNames : List (FeatureValue × Address) :=
  image.exports.flatMap fun exp =>
    (if exp.name = [] then [] else [(.export_ exp.name, .absoluteVirtual exp.va)]) ++
      match exp.forwarder with
      | none => []
      | some forwarder =>
        [makeCharacteristic "forwarded export" exp.va,
          (.import_ (reformatForwardedExportName forwarder), .absoluteVirtual exp.va)]

/-- The feature of a file in the file. -/
def embeddedPe (pos : UInt64) : FeatureValue × Address :=
  (.characteristic (str "embedded pe"), .fileOffset pos)

/-- `extract_file_embedded_pe`. It has no result if the search for files has none. The file at the
beginning is the image itself. -/
def extractFileEmbeddedPe : Option (List (FeatureValue × Address)) :=
  (carvePeFiles image.rawBuffer).map fun positions =>
    (positions.filter (· ≠ 0)).map embeddedPe

/-- `extract_file_strings`. -/
def extractFileStrings : List (FeatureValue × Address) :=
  (extractAsciiStrings image.buffer kMinStringLength ++
    extractUnicodeStrings image.buffer kMinStringLength).map fun s =>
      (.string s.value, .fileOffset (UInt64.ofNat s.offset))

/-- `extract_file_features`. -/
def extractFileFeatures : Option (List (FeatureValue × Address)) :=
  (extractFileEmbeddedPe image).map fun embedded =>
    extractFileFormat ++ extractFileSectionNames image ++ extractFileImportNames image ++
      extractFileExportNames image ++ embedded ++ extractFileStrings image

/-- The machine of 32 bits. -/
def kImageFileMachineI386 : UInt16 := 0x014C
/-- The machine of 64 bits. -/
def kImageFileMachineAmd64 : UInt16 := 0x8664

/-- `pe_arch`. -/
def peArch (machine : UInt16) : Option Str :=
  if machine = kImageFileMachineI386 then some (str "i386")
  else if machine = kImageFileMachineAmd64 then some (str "amd64")
  else none

/-- `extract_global_features`. -/
def extractGlobalFeatures : List (FeatureValue × Address) :=
  [(.os (str "windows"), .noAddress), (.format (str "pe"), .noAddress)] ++
    ((peArch image.machine).map fun arch => (FeatureValue.arch arch, Address.noAddress)).toList

end FileFeatures

/-! ### Forwarded exports -/

/-- A byte with its letter in lower case. -/
def IsLowerOf (c low : UInt8) : Prop :=
  if ch 'A' ≤ c ∧ c ≤ ch 'Z' then low = c + 0x20 else low = c

/-- What a forwarded export is named as: the module before the last point is in lower case. -/
inductive IsForwardedName : Str → Str → Prop
  | whole {forwarder : Str} (h : ch '.' ∉ forwarder) : IsForwardedName forwarder forwarder
  | dotted {module lower symbol : Str} (hlower : List.Forall₂ IsLowerOf module lower)
    (h : ch '.' ∉ symbol) :
    IsForwardedName (module ++ ch '.' :: symbol) (lower ++ ch '.' :: symbol)

/-- The last point of a text without one behind it. -/
theorem rfind_append_point {module symbol : Str} (h : ch '.' ∉ symbol) :
    Str.rfind (module ++ ch '.' :: symbol) (ch '.') = some module.length := by
  have hindex : (module ++ ch '.' :: symbol).reverse.findIdx? (· == ch '.') =
      some symbol.length := by
    have hno : symbol.reverse.findIdx? (· == ch '.') = none := by
      rw [List.findIdx?_eq_none_iff]
      intro c hc
      rw [beq_eq_false_iff_ne]
      rintro rfl
      exact h (List.mem_reverse.mp hc)
    rw [List.reverse_append, List.reverse_cons, List.append_assoc, List.findIdx?_append, hno]
    simp [List.findIdx?_cons]
  rw [Str.rfind, hindex, Option.map_some, List.length_append, List.length_cons]
  exact congrArg some (by omega)

/-- A text without points has no last one. -/
theorem rfind_eq_none {text : Str} (h : ch '.' ∉ text) : Str.rfind text (ch '.') = none := by
  rw [Str.rfind, Option.map_eq_none_iff, List.findIdx?_eq_none_iff]
  intro c hc
  rw [beq_eq_false_iff_ne]
  rintro rfl
  exact h (List.mem_reverse.mp hc)

/-- A text is one without points, or one behind its last point. -/
theorem exists_last_point (text : Str) : ch '.' ∉ text ∨
    ∃ module symbol, text = module ++ ch '.' :: symbol ∧ ch '.' ∉ symbol := by
  induction text with
  | nil => exact .inl List.not_mem_nil
  | cons c text ih =>
    rcases ih with hno | ⟨module, symbol, rfl, hsymbol⟩
    · by_cases hc : c = ch '.'
      · exact .inr ⟨[], text, hc ▸ rfl, hno⟩
      · exact .inl (List.not_mem_cons_of_ne_of_not_mem (Ne.symm hc) hno)
    · exact .inr ⟨c :: module, symbol, rfl, hsymbol⟩

/-- A letter in lower case differs in a bit that it has not. -/
theorem letter_or {c : UInt8} (h : c ≤ ch 'Z') (h' : ch 'A' ≤ c) : c ||| 0x20 = c + 0x20 := by
  have hletters : ∀ n ≤ (ch 'Z').toNat, (ch 'A').toNat ≤ n →
      UInt8.ofNat n ||| 0x20 = UInt8.ofNat n + 0x20 := by decide
  rw [← UInt8.ofNat_toNat (x := c)]
  exact hletters c.toNat h h'

theorem isLowerOf_iff {c low : UInt8} : IsLowerOf c low ↔ low = asciiLowerByte c := by
  rw [IsLowerOf, asciiLowerByte]
  split_ifs with hletter
  · rw [letter_or hletter.2 hletter.1]
  · rfl

theorem forall₂_isLowerOf_iff {text lower : Str} :
    List.Forall₂ IsLowerOf text lower ↔ lower = text.map asciiLowerByte := by
  have hpoint : IsLowerOf = fun c low => asciiLowerByte c = low :=
    funext₂ fun c low => propext (isLowerOf_iff.trans eq_comm)
  rw [hpoint, ← List.forall₂_map_left_iff, List.forall₂_eq_eq_eq, eq_comm]

/-- **The name of a forwarded export** has the module in lower case. -/
theorem eq_reformatForwardedExportName_iff {forwarder s : Str} :
    s = reformatForwardedExportName forwarder ↔ IsForwardedName forwarder s := by
  constructor
  · rintro rfl
    rcases exists_last_point forwarder with hno | ⟨module, symbol, rfl, hsymbol⟩
    · rw [reformatForwardedExportName, rfind_eq_none hno]
      exact .whole hno
    · rw [reformatForwardedExportName, rfind_append_point hsymbol]
      simpa using IsForwardedName.dotted (forall₂_isLowerOf_iff.mpr rfl) hsymbol
  · rintro (hno | ⟨hlower, hsymbol⟩)
    · rw [reformatForwardedExportName, rfind_eq_none hno]
    · rw [reformatForwardedExportName, rfind_append_point hsymbol]
      simp [forall₂_isLowerOf_iff.mp hlower]

/-- **A forwarded export** is named as an import of the same function is. -/
theorem reformatForwardedExportName_mem {module symbol : Str} (h : ch '.' ∉ symbol) :
    reformatForwardedExportName (module ++ ch '.' :: symbol) ∈
      generateSymbols (module.map asciiLowerByte) symbol true := by
  have heq : reformatForwardedExportName (module ++ ch '.' :: symbol) =
      dottedSymbol (module.map asciiLowerByte) symbol := by
    rw [reformatForwardedExportName, rfind_append_point h]
    simp [dottedSymbol]
  rw [heq]
  simp only [generateSymbols, if_true]
  split_ifs
  · exact List.mem_cons_self
  · exact List.mem_append_left _ List.mem_cons_self

/-! ### The imports of a file -/

section Imports

variable (image : FileImage) {f : FeatureValue × Address}

theorem mem_extractFileImportNames_iff : f ∈ extractFileImportNames image ↔
    ∃ imp ∈ image.imports, importSymbol imp ≠ [] ∧
      ∃ s ∈ generateSymbols imp.dll (importSymbol imp) true,
        f = (.import_ s, .absoluteVirtual imp.iatVa) := by
  rw [extractFileImportNames, List.mem_flatMap]
  refine exists_congr fun imp => and_congr_right fun _ => ?_
  by_cases hsymbol : importSymbol imp = []
  · simp [hsymbol]
  · simp [hsymbol, eq_comm]

theorem mem_extractFileExportNames_iff : f ∈ extractFileExportNames image ↔
    ∃ exp ∈ image.exports, (exp.name ≠ [] ∧ f = (.export_ exp.name, .absoluteVirtual exp.va)) ∨
      ∃ forwarder, exp.forwarder = some forwarder ∧
        (f = makeCharacteristic "forwarded export" exp.va ∨
          f = (.import_ (reformatForwardedExportName forwarder), .absoluteVirtual exp.va)) := by
  rw [extractFileExportNames, List.mem_flatMap]
  refine exists_congr fun exp => and_congr_right fun _ => ?_
  rw [List.mem_append]
  refine or_congr ?_ ?_
  · by_cases hname : exp.name = [] <;> simp [hname]
  · cases exp.forwarder <;> simp

/-- The search for files has a result. -/
theorem exists_carvePeFiles (buf : Buffer) : ∃ positions, carvePeFiles buf = some positions := by
  rw [carvePeFiles]
  split_ifs with hsmall
  · exact ⟨[], rfl⟩
  · have hne : buf.bytes.length ≠ 0 := by
      intro hzero
      rw [Buffer.size, hzero] at hsmall
      exact hsmall (by decide)
    obtain ⟨n, hn⟩ := Nat.exists_eq_succ_of_ne_zero hne
    exact ⟨_, carveLoop_eq buf (show 0 + n + 1 = buf.bytes.length by omega)
      (show n < buf.bytes.length + 1 by omega) []⟩

/-- The features of a file, kind by kind. -/
theorem exists_extractFileFeatures : ∃ out, ∃ embedded : List (FeatureValue × Address),
    extractFileFeatures image = some out ∧ (∀ f ∈ embedded, ∃ pos, f = embeddedPe pos) ∧
    ∀ f, f ∈ out ↔ f ∈ extractFileFormat ∨ f ∈ extractFileSectionNames image ∨
      f ∈ extractFileImportNames image ∨ f ∈ extractFileExportNames image ∨ f ∈ embedded ∨
      f ∈ extractFileStrings image := by
  obtain ⟨positions, hpositions⟩ := exists_carvePeFiles image.rawBuffer
  rw [extractFileFeatures, extractFileEmbeddedPe, hpositions]
  refine ⟨_, (positions.filter (· ≠ 0)).map embeddedPe, rfl, fun f hf => ?_, fun f => ?_⟩
  · obtain ⟨pos, -, rfl⟩ := List.mem_map.mp hf
    exact ⟨pos, rfl⟩
  · simp only [List.mem_append, or_assoc]

/-- **The imports of a file** are those of the image, in every spelling, and the functions that its
exports are forwarded to. -/
theorem mem_extractFileFeatures_import (image : FileImage) :
    ∃ out, extractFileFeatures image = some out ∧ ∀ s a, (.import_ s, a) ∈ out ↔
      (∃ imp ∈ image.imports, IsSpelling imp s ∧ a = .absoluteVirtual imp.iatVa) ∨
      ∃ exp ∈ image.exports, ∃ forwarder, exp.forwarder = some forwarder ∧
        IsForwardedName forwarder s ∧ a = .absoluteVirtual exp.va := by
  obtain ⟨out, embedded, hout, hembedded, hmem⟩ := exists_extractFileFeatures image
  simp only [isSpelling_iff, ← eq_reformatForwardedExportName_iff]
  refine ⟨out, hout, fun s a => (hmem _).trans ⟨?_, ?_⟩⟩
  · rintro (h | h | h | h | h | h)
    · simp [extractFileFormat] at h
    · obtain ⟨sec, -, hsec⟩ := List.mem_filterMap.mp h
      split_ifs at hsec
      cases Option.some.inj hsec
    · obtain ⟨imp, himp, hsymbol, s', hs', heq⟩ := (mem_extractFileImportNames_iff image).mp h
      obtain ⟨hs, rfl⟩ := Prod.mk.inj heq
      obtain rfl := FeatureValue.import_.inj hs
      exact Or.inl ⟨imp, himp, ⟨hsymbol, hs'⟩, rfl⟩
    · obtain ⟨exp, hexp, ⟨-, heq⟩ | ⟨forwarder, hforwarder, heq | heq⟩⟩ :=
        (mem_extractFileExportNames_iff image).mp h
      · cases heq
      · cases heq
      · obtain ⟨hs, rfl⟩ := Prod.mk.inj heq
        exact Or.inr ⟨exp, hexp, forwarder, hforwarder, FeatureValue.import_.inj hs, rfl⟩
    · obtain ⟨pos, heq⟩ := hembedded _ h
      cases heq
    · obtain ⟨x, -, heq⟩ := List.mem_map.mp h
      cases heq
  · rintro (⟨imp, himp, ⟨hsymbol, hs⟩, rfl⟩ | ⟨exp, hexp, forwarder, hforwarder, rfl, rfl⟩)
    · exact Or.inr (Or.inr (Or.inl ((mem_extractFileImportNames_iff image).mpr
        ⟨imp, himp, hsymbol, s, hs, rfl⟩)))
    · exact Or.inr (Or.inr (Or.inr (Or.inl ((mem_extractFileExportNames_iff image).mpr
        ⟨exp, hexp, Or.inr ⟨forwarder, hforwarder, Or.inr rfl⟩⟩))))

end Imports

/-! ### The names of calls -/

section Calls

variable {image : PeImage} {decode : List UInt8 → UInt64 → Expected Native.DecodedInsn}
  {row : ParsedImport}

theorem mem_imports_of_get? {va : UInt64}
    (h : AssocList.get? va (buildImportTable image) = some row) : row ∈ image.imports := by
  rw [get?_buildImportTable] at h
  exact List.mem_of_find?_eq_some h

/-- Thunks lead to an import of the image. -/
theorem mem_imports_of_leads {n : ℕ} {va : UInt64}
    (h : Leads image (buildImportTable image) decode n va row) : row ∈ image.imports := by
  induction h with
  | slot h => exact mem_imports_of_get? h
  | reads _ _ _ h => exact mem_imports_of_get? h
  | hop _ _ _ _ _ ih => exact ih

/-- What is called is an import of the image. -/
theorem mem_imports_of_callsApi {regs : RegisterTable} {fn : Cfg} {ins : Native.DecodedInsn}
    (h : CallsApi regs image (buildImportTable image) decode fn ins row) : row ∈ image.imports := by
  rcases h.2 with (⟨slot, -, hslot⟩ | ⟨-, target, -, n, -, hleads⟩) | ⟨-, slot, -, hslot⟩
  · exact mem_imports_of_get? hslot
  · exact mem_imports_of_leads hleads
  · exact mem_imports_of_get? hslot

/-- **A name of a call of an import** is one of the imports of the file, so what a rule for
instructions finds by its name a rule for files finds by the same name. -/
theorem exists_import_of_api (regs : RegisterTable) (image : FileImage)
    (decode : List UInt8 → UInt64 → Expected Native.DecodedInsn) (flirtName : UInt64 → Option Str)
    (fn : Native.Cfg) (index : ℕ) (bb : Native.BasicBlock) (ins : Native.DecodedInsn) :
    ∃ out file, extractInsnFeatures regs image.toPeImage (buildImportTable image.toPeImage) decode
        flirtName fn.toFunction index bb ins = some out ∧
      extractFileFeatures image = some file ∧
      ∀ s a, (.api s, a) ∈ out →
        CallsLibrary flirtName ins s ∨ ∃ slot, (.import_ s, .absoluteVirtual slot) ∈ file := by
  obtain ⟨out, hout, -, -, hapi⟩ := exists_byTag regs image.toPeImage
    (buildImportTable image.toPeImage) decode flirtName fn index bb ins
  obtain ⟨file, embedded, hfile, -, hmem⟩ := exists_extractFileFeatures image
  refine ⟨out, file, hout, hfile, fun s a hs => ?_⟩
  rcases (hapi _ rfl).mp hs with ⟨row, hrow, hf⟩ | ⟨s', hlibrary, heq⟩
  · obtain ⟨hsymbol, s', hs', heq⟩ := mem_apiVariants_iff.mp hf
    obtain ⟨hs, -⟩ := Prod.mk.inj heq
    obtain rfl := FeatureValue.api.inj hs
    refine Or.inr ⟨row.iatVa, (hmem _).mpr (Or.inr (Or.inr (Or.inl ?_)))⟩
    exact (mem_extractFileImportNames_iff image).mpr
      ⟨row, mem_imports_of_callsApi hrow, hsymbol, s, hs', rfl⟩
  · obtain ⟨hs, -⟩ := Prod.mk.inj heq
    obtain rfl := FeatureValue.api.inj hs
    exact Or.inl hlibrary

end Calls

/-! ### Where features can be named -/

section Scopes

open Rules

theorem originatesAt_file_of_tag {v : FeatureValue}
    (h : v.tag ∈ ([.import_, .export_, .section_] : List FeatureTag)) : OriginatesAt v .file := by
  refine originatesAt_of_mem_tags (fun t ht s hs => ?_) (by decide) h
  revert t
  cases s <;> first | decide | exact absurd hs (by decide)

theorem originatesAt_of_global {v : FeatureValue}
    (h : v.tag ∈ ([.os, .arch, .format, .string] : List FeatureTag)) :
    OriginatesAt v .instruction := by
  refine originatesAt_of_mem_tags (fun t ht s hs => ?_) (by decide) h
  revert t
  cases s <;> first | decide | exact absurd hs (by decide)

theorem originatesAt_of_mem_kFileOrigin {name : Str} (h : name ∈ kFileOrigin) :
    OriginatesAt (.characteristic name) .file := by
  refine originatesAt_characteristic (fun name hname s hs => ?_) h
  revert name
  cases s <;> first | decide | exact absurd hs (by decide)

/-- **What is extracted of a file** can be named by rules for files only, except for the texts and
what holds of the whole image, which every static rule can name. -/
theorem extractFileFeatures_originatesAt (image : FileImage) :
    ∃ out, extractFileFeatures image = some out ∧
      ∀ f ∈ out ++ extractGlobalFeatures image,
        if f.1.tag ∈ ([.os, .arch, .format, .string] : List FeatureTag) then
          OriginatesAt f.1 .instruction
        else OriginatesAt f.1 .file := by
  obtain ⟨out, embedded, hout, hembedded, hmem⟩ := exists_extractFileFeatures image
  refine ⟨out, hout, fun f hf => ?_⟩
  split_ifs with htag
  · exact originatesAt_of_global htag
  rcases List.mem_append.mp hf with hf | hf
  · rcases (hmem f).mp hf with h | h | h | h | h | h
    · obtain rfl := List.mem_singleton.mp h
      exact absurd (by decide) htag
    · obtain ⟨sec, -, hsec⟩ := List.mem_filterMap.mp h
      split_ifs at hsec
      obtain rfl := Option.some.inj hsec
      exact originatesAt_file_of_tag (by simp [FeatureValue.tag])
    · obtain ⟨imp, -, -, s, -, rfl⟩ := (mem_extractFileImportNames_iff image).mp h
      exact originatesAt_file_of_tag (by simp [FeatureValue.tag])
    · obtain ⟨exp, -, ⟨-, rfl⟩ | ⟨forwarder, -, rfl | rfl⟩⟩ :=
        (mem_extractFileExportNames_iff image).mp h
      · exact originatesAt_file_of_tag (by simp [FeatureValue.tag])
      · exact originatesAt_of_mem_kFileOrigin (by decide)
      · exact originatesAt_file_of_tag (by simp [FeatureValue.tag])
    · obtain ⟨pos, rfl⟩ := hembedded f h
      exact originatesAt_of_mem_kFileOrigin (by decide)
    · obtain ⟨x, -, rfl⟩ := List.mem_map.mp h
      exact absurd (by simp [FeatureValue.tag]) htag
  · refine absurd ?_ htag
    rcases List.mem_append.mp hf with hf | hf
    · rcases List.mem_pair.mp hf with rfl | rfl <;> simp [FeatureValue.tag]
    · obtain ⟨arch, -, rfl⟩ := Option.map_eq_some_iff.mp (Option.mem_toList.mp hf)
      simp [FeatureValue.tag]

end Scopes

end Papa.Extractors
