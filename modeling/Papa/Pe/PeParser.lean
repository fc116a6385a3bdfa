import Papa.Pe.PeImage

/-!
# The PE parser

The headers say where the section table is, the sections map addresses to places in the file, and
the data directories lead to the imports, the exports, the callbacks of thread-local storage and the
relocations. Every count and every address comes from the file; the walkers stop at a null entry, at
an error or at a limit of their own.

The names of ordinals are looked up in a table that the parser is given.

## Main definitions

* `walkImportDescriptor`, `parseImports`, `parseDelayImports`, `parseExports`, `parseTlsCallbacks`,
  `parseRelocations`.
* `parseHeaders`, `parse`.
-/

namespace Papa.Pe

/-- `kMaxExportsPerImage`. -/
def kMaxExportsPerImage : ℕ := 2 ^ 20
/-- `kMaxSectionsPerImage`. -/
def kMaxSectionsPerImage : ℕ := 2 ^ 12
/-- `kMaxImportDescriptors`. -/
def kMaxImportDescriptors : ℕ := 2 ^ 14
/-- `kMaxImportsPerDll`. -/
def kMaxImportsPerDll : ℕ := 2 ^ 16
/-- `kMaxRelocations`. -/
def kMaxRelocations : ℕ := 2 ^ 24

/-- The table of the names of ordinals, by DLL. -/
abbrev OrdinalNames := Str → UInt32 → Option Str

variable (w : Arith) (lookupOrdinalName : OrdinalNames) (img : PeImage)

/-! ### Names -/

/-- The characters of a string from a place on, at most `todo`. -/
def cstringLoop (start : ℕ) : (todo i : ℕ) → Str → Guarded Str
  | 0, _, _ => refuse .badPe "string exceeds max length"
  | todo + 1, i, out =>
    let pos := w.u64 (start + i)
    if pos ≥ img.buffer.length then refuse .badPe "unterminated string"
    else do
      let c ← rawRead img.buffer pos 1
      if c.getD 0 0 = 0 then pure out else cstringLoop start todo (i + 1) (out ++ c)

/-- The string at an address. -/
def readCstringAtRva (rva : ℕ) : Guarded Str :=
  match img.rvaToFileOffset w rva with
  | none => refuse .outOfBounds "string rva not mapped"
  | some start =>
    if start ≥ img.buffer.length then refuse .outOfBounds "string start past EOF"
    else cstringLoop w img start 4096 0 []

/-- A byte in lower case. -/
def asciiLowerByte (c : UInt8) : UInt8 := if ch 'A' ≤ c ∧ c ≤ ch 'Z' then c ||| 0x20 else c

/-- The suffixes of DLL names, in the order they are tried. -/
def kDllExtensions : List Str := [str ".dll", str ".drv", str ".so"]

/-- A DLL name in lower case and without its suffix. -/
def normalizeDllName (dll : Str) : Str :=
  let lower := dll.map asciiLowerByte
  match kDllExtensions.find? fun ext => ext.isSuffixOf lower with
  | some ext => lower.take (lower.length - ext.length)
  | none => lower

/-! ### Imports -/

/-- A data directory. -/
structure DataDirectory where
  rva : UInt32 := 0
  size : UInt32 := 0
  deriving DecidableEq

/-- The data directory of an index, empty when there are fewer. -/
def getDataDirectory (dirs : List DataDirectory) (idx : ℕ) : DataDirectory := dirs.getD idx {}

/-- An import descriptor. -/
structure ImportDescriptor where
  originalFirstThunk : UInt32
  name : UInt32
  firstThunk : UInt32

/-- The size of a pointer in the image. -/
def PeImage.ptrSize : ℕ := if img.is64bit then 8 else 4

/-- The flag of an import by ordinal. -/
def PeImage.ordinalFlag : UInt64 := if img.is64bit then 0x8000000000000000 else 0x80000000

/-- The symbol of an entry that is not null. -/
def importItem (dll : Str) (delayed : Bool) (iatVa entry : UInt64) : Guarded ParsedImport :=
  if entry &&& img.ordinalFlag ≠ 0 then
    let ordinal := (entry &&& 0xFFFF).toUInt32
    match lookupOrdinalName dll ordinal with
    | some name => pure { dll, name, ordinal, iatVa, delayed }
    | none => pure { dll, ordinal, iatVa, byOrdinal := true, delayed }
  else do
    let hintRva := (entry &&& 0x7FFFFFFF).toNat
    let name ← readCstringAtRva w img (w.u64 (hintRva + 2))
    pure { dll, name, iatVa, delayed }

/-- The slots of an import lookup table, at most `todo`. -/
def importSlots (dll : Str) (delayed : Bool) (iltRva iatRva : UInt32) :
    (todo slot : ℕ) → List ParsedImport → Guarded (List ParsedImport)
  | 0, _, out => pure out
  | todo + 1, slot, out => do
    let bytes ← img.readAtRva w (w.u64 (iltRva.toNat + w.u64 (slot * img.ptrSize))) img.ptrSize
    match ← readLe img.buffer bytes 0 img.ptrSize with
    | none => refuse .badPe "truncated ILT slot"
    | some raw =>
      let entry := u64At raw 0
      if entry = 0 then pure out
      else do
        let iatVa := img.imageBase + iatRva.toUInt64 + UInt64.ofNat (slot * img.ptrSize)
        let item ← importItem w lookupOrdinalName img dll delayed iatVa entry
        importSlots dll delayed iltRva iatRva todo (slot + 1) (out ++ [item])

/-- Append the symbols of one descriptor. -/
def walkImportDescriptor (desc : ImportDescriptor) (delayed : Bool) (out : List ParsedImport) :
    Guarded (List ParsedImport) :=
  if desc.name = 0 then pure out
  else do
    let dllName ← readCstringAtRva w img desc.name.toNat
    let iltRva := if desc.originalFirstThunk ≠ 0 then desc.originalFirstThunk else desc.firstThunk
    if iltRva = 0 then refuse .badPe "import descriptor missing ILT"
    else
      importSlots w lookupOrdinalName img (normalizeDllName dllName) delayed iltRva
        desc.firstThunk kMaxImportsPerDll 0 out

/-- The descriptors of a table: `size` is that of one, `decode` tells what it says, nothing for the
one that ends the table. -/
def importDescriptors (dd : DataDirectory) (size : ℕ) (detail : String) (delayed : Bool)
    (decode : List UInt8 → Option ImportDescriptor) :
    (todo i : ℕ) → List ParsedImport → Guarded (List ParsedImport)
  | 0, _, out => pure out
  | todo + 1, i, out => do
    let bytes ← img.readAtRva w (w.u64 (dd.rva.toNat + w.u64 (i * size))) size
    match ← readLe img.buffer bytes 0 size with
    | none => refuse .badPe detail
    | some raw =>
      match decode raw with
      | none => pure out
      | some desc => do
        let out ← walkImportDescriptor w lookupOrdinalName img desc delayed out
        importDescriptors dd size detail delayed decode todo (i + 1) out

/-- What an import descriptor says. -/
def decodeImportDescriptor (raw : List UInt8) : Option ImportDescriptor :=
  let desc : ImportDescriptor := ⟨u32At raw 0, u32At raw 12, u32At raw 16⟩
  if desc.originalFirstThunk = 0 ∧ desc.firstThunk = 0 ∧ desc.name = 0 then none else some desc

/-- What a delay-import descriptor says, as an import descriptor. -/
def decodeDelayImportDescriptor (raw : List UInt8) : Option ImportDescriptor :=
  let desc : ImportDescriptor := ⟨u32At raw 16, u32At raw 4, u32At raw 12⟩
  if desc.name = 0 ∧ desc.firstThunk = 0 then none else some desc

/-- The imports. -/
def parseImports (dirs : List DataDirectory) : Guarded (List ParsedImport) :=
  let dd := getDataDirectory dirs 1
  if dd.rva = 0 ∨ dd.size = 0 then pure []
  else importDescriptors w lookupOrdinalName img dd 20 "truncated import descriptor" false
    decodeImportDescriptor kMaxImportDescriptors 0 []

/-- The delay imports. A descriptor without a name adds nothing and does not end the table. -/
def parseDelayImports (dirs : List DataDirectory) : Guarded (List ParsedImport) :=
  let dd := getDataDirectory dirs 13
  if dd.rva = 0 ∨ dd.size = 0 then pure []
  else importDescriptors w lookupOrdinalName img dd 32 "truncated delay import" true
    decodeDelayImportDescriptor kMaxImportDescriptors 0 []

/-! ### Exports -/

/-- The export directory. -/
structure ExportDirectory where
  base : UInt32
  numberOfFunctions : UInt32
  numberOfNames : UInt32
  addressOfFunctions : UInt32
  addressOfNames : UInt32
  addressOfNameOrdinals : UInt32

/-- What an export directory says. -/
def decodeExportDirectory (raw : List UInt8) : ExportDirectory :=
  ⟨u32At raw 16, u32At raw 20, u32At raw 24, u32At raw 28, u32At raw 32, u32At raw 36⟩

/-- The `n` bytes at an address, or nothing when they cannot be read. -/
def readRva (rva n : ℕ) : Guarded (Option (List UInt8)) := do
  match ← attempt (img.readAtRva w rva n) with
  | .error _ => pure none
  | .ok bytes => readLe img.buffer bytes 0 n

/-- One name: it is kept under the function its ordinal tells. -/
def exportName (edir : ExportDirectory) (funcCount i : ℕ) (names : List Str) :
    Guarded (List Str) := do
  let nameRva ← readRva w img (w.u64 (edir.addressOfNames.toNat + w.u64 (i * 4))) 4
  let funcIdx ← readRva w img (w.u64 (edir.addressOfNameOrdinals.toNat + w.u64 (i * 2))) 2
  match nameRva, funcIdx with
  | some nameRva, some funcIdx =>
    if (u16At funcIdx 0).toNat ≥ funcCount then pure names
    else do
      match ← attempt (readCstringAtRva w img (u32At nameRva 0).toNat) with
      | .error _ => pure names
      | .ok s => pure (names.set (u16At funcIdx 0).toNat s)
  | _, _ => pure names

/-- The names, at most `todo`. -/
def exportNames (edir : ExportDirectory) (funcCount : ℕ) :
    (todo i : ℕ) → List Str → Guarded (List Str)
  | 0, _, names => pure names
  | todo + 1, i, names => do
    let names ← exportName w img edir funcCount i names
    exportNames edir funcCount todo (i + 1) names

/-- One function. An address in the export directory itself is that of a forwarder's name. -/
def exportFunction (dd : DataDirectory) (edir : ExportDirectory) (names : List Str) (i : ℕ) :
    Guarded (Option ParsedExport) := do
  match ← readRva w img (w.u64 (edir.addressOfFunctions.toNat + w.u64 (i * 4))) 4 with
  | none => pure none
  | some raw =>
    let funcRva := u32At raw 0
    if funcRva = 0 then pure none
    else
      let peExp : ParsedExport :=
        { name := names.getD i [], ordinal := edir.base + UInt32.ofNat i
          va := img.imageBase + funcRva.toUInt64 }
      if dd.rva ≤ funcRva ∧ funcRva.toNat < w.u64 (dd.rva.toNat + dd.size.toNat) then do
        match ← attempt (readCstringAtRva w img funcRva.toNat) with
        | .error _ => pure (some peExp)
        | .ok fwd => pure (some { peExp with forwarder := some fwd, va := 0 })
      else pure (some peExp)

/-- The functions, at most `todo`. -/
def exportFunctions (dd : DataDirectory) (edir : ExportDirectory) (names : List Str) :
    (todo i : ℕ) → List ParsedExport → Guarded (List ParsedExport)
  | 0, _, out => pure out
  | todo + 1, i, out => do
    let peExp ← exportFunction w img dd edir names i
    exportFunctions dd edir names todo (i + 1) (out ++ peExp.toList)

/-- A count of four-byte entries, clamped to what the file can supply and to the limit. -/
def exportCount (declared address : UInt32) : ℕ :=
  min (min declared.toNat (img.readableBytesAtRva w address.toNat / 4)) kMaxExportsPerImage

/-- The exports. -/
def parseExports (dirs : List DataDirectory) : Guarded (List ParsedExport) :=
  let dd := getDataDirectory dirs 0
  if dd.rva = 0 ∨ dd.size = 0 then pure []
  else do
    let dirBytes ← img.readAtRva w dd.rva.toNat 40
    match ← readLe img.buffer dirBytes 0 40 with
    | none => refuse .badPe "truncated export directory"
    | some raw =>
      let edir := decodeExportDirectory raw
      let funcCount := exportCount w img edir.numberOfFunctions edir.addressOfFunctions
      let nameCount := exportCount w img edir.numberOfNames edir.addressOfNames
      let names ← exportNames w img edir funcCount nameCount 0 (List.replicate funcCount [])
      exportFunctions w img dd edir names funcCount 0 []

/-! ### Thread-local storage -/

/-- The slots of the table of callbacks, at most `todo`. -/
def tlsSlots (callbacksRva : ℕ) : (todo i : ℕ) → List UInt64 → Guarded (List UInt64)
  | 0, _, callbacks => pure callbacks
  | todo + 1, i, callbacks => do
    match ← readRva w img (w.u64 (callbacksRva + w.u64 (i * img.ptrSize))) img.ptrSize with
    | none => pure callbacks
    | some raw =>
      let cb := u64At raw 0
      if cb = 0 then pure callbacks else tlsSlots callbacksRva todo (i + 1) (callbacks ++ [cb])

/-- The callbacks. -/
def parseTlsCallbacks (dirs : List DataDirectory) : Guarded (List UInt64) :=
  let dd := getDataDirectory dirs 9
  if dd.rva = 0 ∨ dd.size = 0 then pure []
  else do
    let size := if img.is64bit then 40 else 24
    let bytes ← img.readAtRva w dd.rva.toNat size
    match ← readLe img.buffer bytes 0 size with
    | none => refuse .badPe (if img.is64bit then "truncated tls64" else "truncated tls32")
    | some raw =>
      let callbacksVa := if img.is64bit then u64At raw 24 else (u32At raw 12).toUInt64
      if callbacksVa = 0 then pure []
      else if callbacksVa < img.imageBase then pure []
      else tlsSlots w img (callbacksVa - img.imageBase).toNat 256 0 []

/-! ### Relocations -/

/-- The entries of a block up to `bodyEnd`, and whether the limit was reached. -/
def relocEntries (relbytes : Span) (pageRva : UInt32) (bodyEnd : ℕ) :
    (fuel roff : ℕ) → List ParsedRelocation → Guarded (List ParsedRelocation × Bool)
  | 0, _, _ => .error .unfinished
  | fuel + 1, roff, out =>
    if w.u64 (roff + 2) ≤ bodyEnd then do
      match ← readLe img.buffer relbytes roff 2 with
      | none => pure (out, false)
      | some raw =>
        if out.length ≥ kMaxRelocations then pure (out, true)
        else
          let entry := u16At raw 0
          let reloc : ParsedRelocation := ⟨pageRva + (entry &&& 0x0fff).toUInt32, entry >>> 12⟩
          relocEntries relbytes pageRva bodyEnd fuel (w.u64 (roff + 2)) (out ++ [reloc])
    else pure (out, false)

/-- The blocks from a position on. -/
def relocBlocks (relbytes : Span) :
    (fuel pos : ℕ) → List ParsedRelocation → Guarded (List ParsedRelocation)
  | 0, _, _ => .error .unfinished
  | fuel + 1, pos, out =>
    if pos ≥ relbytes.size then pure out
    else
      let remaining := relbytes.size - pos
      if remaining < 8 then pure out
      else do
        match ← readLe img.buffer relbytes pos 4 with
        | none => pure out
        | some page =>
          match ← readLe img.buffer relbytes (w.u64 (pos + 4)) 4 with
          | none => pure out
          | some chunk =>
            let chunkSize := (u32At chunk 0).toNat
            if chunkSize = 0 ∨ chunkSize > remaining ∨ chunkSize < 8 then pure out
            else do
              let bodyEnd := w.u64 (pos + chunkSize)
              let (out, full) ← relocEntries w img relbytes (u32At page 0) bodyEnd
                (chunkSize + 1) (w.u64 (pos + 8)) out
              if full then pure out else relocBlocks relbytes fuel bodyEnd out

/-- The relocations. -/
def parseRelocations (dirs : List DataDirectory) : Guarded (List ParsedRelocation) :=
  let dd := getDataDirectory dirs 5
  if dd.rva = 0 ∨ dd.size = 0 then pure []
  else do
    let avail :=
      match img.sectionContainingRva w dd.rva.toNat with
      | some s =>
        let delta := dd.rva.toNat - s.virtualAddress.toNat
        min dd.size.toNat (if delta < s.rawSize.toNat then s.rawSize.toNat - delta else 0)
      | none => dd.size.toNat
    match ← attempt (img.readAtRva w dd.rva.toNat avail) with
    | .error _ => pure []
    | .ok relbytes => relocBlocks w img relbytes (relbytes.size + 1) 0 []

/-! ### Headers -/

/-- What the headers say before the data directories: the image without its tables, the declared
numbers of directories and of sections, and where the directories begin. -/
structure FileHeaders where
  image : PeImage
  numDirs : ℕ
  dirOff : ℕ
  numberOfSections : ℕ

/-- The optional header of a 32-bit image. -/
def optionalHeader32 (buf : List UInt8) (machine numberOfSections : UInt16) (optOff : ℕ) :
    Guarded FileHeaders := do
  match ← readLe buf ⟨0, buf.length⟩ optOff 96 with
  | none => refuse .badPe "PE32 optional header truncated"
  | some oh =>
    pure {
      image := { buffer := buf, machine, is64bit := false, imageBase := (u32At oh 28).toUInt64
                 entryPointRva := u32At oh 16, sizeOfImage := u32At oh 56 }
      numDirs := (u32At oh 92).toNat
      dirOff := w.u32 (optOff + 96)
      numberOfSections := numberOfSections.toNat }

/-- The optional header of a 64-bit image. -/
def optionalHeader64 (buf : List UInt8) (machine numberOfSections : UInt16) (optOff : ℕ) :
    Guarded FileHeaders := do
  match ← readLe buf ⟨0, buf.length⟩ optOff 112 with
  | none => refuse .badPe "PE32+ optional header truncated"
  | some oh =>
    pure {
      image := { buffer := buf, machine, is64bit := true, imageBase := u64At oh 24
                 entryPointRva := u32At oh 16, sizeOfImage := u32At oh 56 }
      numDirs := (u32At oh 108).toNat
      dirOff := w.u32 (optOff + 112)
      numberOfSections := numberOfSections.toNat }

/-- The headers from the place of the signature on. -/
def ntHeaders (buf : List UInt8) (ntOff : ℕ) : Guarded FileHeaders := do
  match ← readLe buf ⟨0, buf.length⟩ ntOff 4 with
  | none => refuse .badPe "NT header truncated"
  | some sig =>
    if u32At sig 0 ≠ 0x00004550 then refuse .notPe "missing PE signature"
    else do
      match ← readLe buf ⟨0, buf.length⟩ (w.u32 (ntOff + 4)) 20 with
      | none => refuse .badPe "file header truncated"
      | some fh => do
        let optOff := w.u32 (w.u32 (ntOff + 4) + 20)
        match ← readLe buf ⟨0, buf.length⟩ optOff 2 with
        | none => refuse .badPe "optional header truncated"
        | some optMagic =>
          if u16At optMagic 0 = 0x010B then
            optionalHeader32 w buf (u16At fh 0) (u16At fh 2) optOff
          else if u16At optMagic 0 = 0x020B then
            optionalHeader64 w buf (u16At fh 0) (u16At fh 2) optOff
          else refuse .badPe "unknown optional header magic"

/-- The headers of a file. -/
def fileHeaders (buf : List UInt8) : Guarded FileHeaders := do
  match ← readLe buf ⟨0, buf.length⟩ 0 64 with
  | none => refuse .notPe "buffer too small for DOS header"
  | some dos =>
    if u16At dos 0 ≠ 0x5A4D then refuse .notPe "missing MZ signature"
    else
      let eLfanew := (u32At dos 60).toNat
      -- As a signed number, `e_lfanew` is negative from 2^31 on.
      if eLfanew ≥ 2 ^ 31 ∨ eLfanew ≥ buf.length then refuse .badPe "e_lfanew out of range"
      else ntHeaders w buf eLfanew

/-- The data directories, `todo` of them. -/
def dataDirectories (buf : List UInt8) (dirOff : ℕ) :
    (todo i : ℕ) → List DataDirectory → Guarded (List DataDirectory)
  | 0, _, dirs => pure dirs
  | todo + 1, i, dirs => do
    match ← readLe buf ⟨0, buf.length⟩ (w.u64 (dirOff + w.u64 (i * 8))) 8 with
    | none => refuse .badPe "data directory truncated"
    | some raw => dataDirectories buf dirOff todo (i + 1) (dirs ++ [⟨u32At raw 0, u32At raw 4⟩])

/-- What a section header says. -/
def decodeSection (raw : List UInt8) : ParsedSection :=
  { name := (raw.take 8).takeWhile (· ≠ 0)
    virtualAddress := u32At raw 12
    virtualSize := u32At raw 8
    rawOffset := u32At raw 20
    rawSize := u32At raw 16
    characteristics := u32At raw 36 }

/-- The section headers, `todo` of them. -/
def sectionHeaders (buf : List UInt8) (secOff : ℕ) :
    (todo i : ℕ) → List ParsedSection → Guarded (List ParsedSection)
  | 0, _, sections => pure sections
  | todo + 1, i, sections => do
    match ← readLe buf ⟨0, buf.length⟩ (w.u64 (secOff + w.u64 (i * 40))) 40 with
    | none => refuse .badPe "section header truncated"
    | some raw => sectionHeaders buf secOff todo (i + 1) (sections ++ [decodeSection raw])

/-- The headers and the section table of a file: the image with its sections, and the data
directories. -/
def parseHeaders (buf : List UInt8) : Guarded (PeImage × List DataDirectory) := do
  let headers ← fileHeaders w buf
  let numDirs := if headers.numDirs > 16 then 16 else headers.numDirs
  let dirs ← dataDirectories w buf headers.dirOff numDirs 0 []
  let secOff := w.u32 (headers.dirOff + w.u32 (numDirs * 8))
  let numSections := min headers.numberOfSections kMaxSectionsPerImage
  let sections ← sectionHeaders w buf secOff numSections 0 []
  pure ({ headers.image with sections }, dirs)

/-- Parse a file. -/
def parse (buf : List UInt8) : Guarded PeImage := do
  let (img, dirs) ← parseHeaders w buf
  let imports ← parseImports w lookupOrdinalName img dirs
  let delayImports ← parseDelayImports w lookupOrdinalName img dirs
  let exports ← parseExports w img dirs
  let tlsCallbacks ← parseTlsCallbacks w img dirs
  let relocations ← parseRelocations w img dirs
  pure { img with imports := imports ++ delayImports, exports, tlsCallbacks, relocations }

/-! ### A file -/

/-- A file of 32 bits with one section, which holds an import by number and a block of relocations.
The third byte of its image base is given. -/
def importingFile (base : UInt8) : List UInt8 :=
  [0x4D, 0x5A] ++ List.replicate 58 0 ++ [64, 0, 0, 0] ++ [0x50, 0x45, 0, 0] ++
    -- the file header and the optional header
    [0x4C, 0x01, 1, 0] ++ List.replicate 12 0 ++ [0x90, 0, 0, 0] ++
    [0x0B, 0x01] ++ List.replicate 26 0 ++ [0, 0, base, 0] ++ List.replicate 24 0 ++
    [0, 0x20, 0, 0] ++ List.replicate 32 0 ++ [6, 0, 0, 0] ++
    -- the directories of the imports and of the relocations, and the header of the section
    List.replicate 8 0 ++ [0, 0x10, 0, 0, 0x28, 0, 0, 0] ++ List.replicate 24 0 ++
    [0x28, 0x10, 0, 0, 0x0C, 0, 0, 0] ++
    str ".data" ++ [0, 0, 0] ++ [0x46, 0, 0, 0, 0, 0x10, 0, 0, 0x46, 0, 0, 0, 0x10, 1, 0, 0] ++
    List.replicate 12 0 ++ [0x40, 0, 0, 0x40] ++
    -- the descriptor of the imports, the relocations, the slot of the import, the library's name
    [0x38, 0x10, 0, 0] ++ List.replicate 8 0 ++ [0x40, 0x10, 0, 0, 0x38, 0x10, 0, 0] ++
    List.replicate 20 0 ++ [0, 0x10, 0, 0, 0x0C, 0, 0, 0, 0x38, 0x30, 0, 0] ++
    List.replicate 4 0 ++ [5, 0, 0, 0x80] ++ List.replicate 4 0 ++ str "a.dll" ++ [0]

end Papa.Pe
