import Papa.Flirt.ByteCursor
import Papa.Flirt.FlirtTree

/-!
# The FLIRT reader

A signature file is a header, a library name and a body that may be compressed. The body is a tree
whose nodes say how many children they have; a node without children is followed by its modules,
which run on as long as a flag byte after each says that more follow.

The inflater is code outside the repository: a function from the compressed bytes to the chunks that
it hands to its callback and whether it ends well.

## Main definitions

* `parseHeader`, `parseNode`, `decompressInflate`.
* `parseSigBuffer`.
-/

namespace Papa.Flirt

open ByteReader

/-- A reader of a signature file. -/
abbrev SigReader (α : Type) := ByteReader PapaError α

/-- `make_error(ErrorKind::kFlirtTruncated, detail)`. -/
def truncated (detail : String) : PapaError := ⟨.flirtTruncated, str detail⟩

/-! ### The header -/

/-- The six bytes that every file begins with. -/
def kIdasgnMagic : List UInt8 := str "IDASGN"

/-- Whether this reader can parse a version. -/
def isSupportedVersion (v : UInt8) : Bool := 8 ≤ v && v ≤ 10

/-- The bytes of a header before the library name. -/
def headerSizeForVersion (version : UInt8) : ℕ :=
  if version ≥ 10 then 45 else if version ≥ 9 then 41 else if version ≥ 8 then 37 else 0

/-- The architecture of a byte. -/
def flirtArch (b : UInt8) : FlirtArch :=
  if b = 0 then .any else if b = 1 then .x86 else if b = 2 then .x64 else .other

/-- The fields of the header that follow the version. -/
def parseHeaderFields (version : UInt8) : SigReader FlirtHeader := do
  let arch ← failWith (truncated "arch") Cursor.readU8
  let fileTypes ← failWith (truncated "header body") Cursor.readU32Le
  let osTypes ← failWith (truncated "header body") Cursor.readU16Le
  let appTypes ← failWith (truncated "header body") Cursor.readU16Le
  let features ← failWith (truncated "header body") Cursor.readU16Le
  let oldNFunctions ← failWith (truncated "header body") Cursor.readU16Le
  let patternCrc16 ← failWith (truncated "header body") Cursor.readU16Le
  let ctype ← failWith (truncated "ctype") (Cursor.readBytes 12)
  let libraryNameLen ← failWith (truncated "ln_len/ctypes_crc16") Cursor.readU8
  let ctypesCrc16 ← failWith (truncated "ln_len/ctypes_crc16") Cursor.readU16Le
  let nFunctions ←
    (if version ≥ 9 then failWith (truncated "n_functions") Cursor.readU32Le else pure 0)
  let patternSize ←
    (if version ≥ 10 then failWith (truncated "v10 fields") Cursor.readU16Le else pure 0)
  let unknownV10 ←
    (if version ≥ 10 then failWith (truncated "v10 fields") Cursor.readU16Le else pure 0)
  let libraryName ←
    (if libraryNameLen > 0 then
      failWith (truncated "library_name body") (Cursor.readBytes libraryNameLen.toNat)
    else pure [])
  pure { version, arch := flirtArch arch, fileTypes, osTypes, appTypes, features, oldNFunctions,
         patternCrc16, ctype, libraryNameLen, ctypesCrc16, nFunctions, patternSize, unknownV10,
         libraryName }

/-- The header and the library name. -/
def parseHeader : SigReader FlirtHeader := do
  let magic ← failWith (truncated "header magic") (Cursor.readBytes 6)
  if magic ≠ kIdasgnMagic then
    fail ⟨.flirtBadMagic, str "first 6 bytes are not IDASGN"⟩
  else do
    let version ← failWith (truncated "version") Cursor.readU8
    if !isSupportedVersion version then
      fail ⟨.flirtUnsupportedVersion,
        str "version " ++ toStr version.toNat ++ str " is outside [8, 10]"⟩
    else parseHeaderFields version

/-! ### Modules -/

def kMorePublicNames : UInt8 := 0x01
def kTailBytes : UInt8 := 0x02
def kReferencedFunctions : UInt8 := 0x04
def kMoreModulesWithSameCrc : UInt8 := 0x08
def kMoreModules : UInt8 := 0x10
/-- The bytes of a name are not below this one. -/
def kNameTextFloor : UInt8 := 0x20
def kNameLocal : UInt8 := 0x02
def kNameNegativeOffset : UInt8 := 0x10

/-- A count or an offset: up to 15 bits before version 9, up to 32 bits from it on. -/
def readWord (version : UInt8) : Cursor UInt32 :=
  if version < 9 then do
    let v ← Cursor.readVle16
    pure v.toUInt32
  else Cursor.readVle32

/-- The mask of the wildcards of a segment. -/
def readVariantMask (length : UInt16) : Cursor UInt64 :=
  if length = 0 then pure 0
  else if length < 0x10 then do
    let v ← Cursor.readVle16
    pure v.toUInt64
  else do
    let v ← Cursor.readVle32
    pure v.toUInt64

/-- One turn of the loop over the characters of a name. The byte that ends the name is the flag byte
of the record. -/
def nameTurn (s : Str × UInt8) : SigReader ((Str × UInt8) ⊕ (Str × UInt8)) :=
  if s.2 ≥ kNameTextFloor then do
    let next ← failWith (truncated "name body") Cursor.readU8
    pure (.inl (s.1 ++ [s.2], next))
  else pure (.inr s)

/-- The flags of a name, when its first byte is a control byte, and its first character. -/
def readNameLead : SigReader (UInt8 × UInt8) := do
  let lead ← failWith (truncated "name lead") Cursor.readU8
  if lead < kNameTextFloor then do
    let first ← failWith (truncated "name first char") Cursor.readU8
    pure (lead, first)
  else pure (0, lead)

/-- One turn of the loop over the names of a module: from the last offset and the names so far. -/
def moduleNameTurn (version : UInt8) (s : ℤ × List FlirtName) :
    SigReader ((ℤ × List FlirtName) ⊕ (UInt8 × List FlirtName)) := do
  let relativeOffset ← failWith (truncated "name offset") (readWord version)
  let (nameFlags, first) ← readNameLead
  let (name, flags) ← loop nameTurn ([], first)
  let rel : ℤ := relativeOffset.toNat
  let offset := if nameFlags &&& kNameNegativeOffset ≠ 0 then s.1 - rel else s.1 + rel
  let type := if nameFlags &&& kNameLocal ≠ 0 then FlirtNameType.localName else .publicName
  let out := s.2 ++ [⟨offset, name, type⟩]
  if flags &&& kMorePublicNames = 0 then pure (.inr (flags, out)) else pure (.inl (offset, out))

/-- The names of a module, and the flag byte after them. -/
def parseModuleNames (version : UInt8) : SigReader (UInt8 × List FlirtName) :=
  loop (moduleNameTurn version) (0, [])

/-- The number of records of a list, which is 1 before version 8. -/
def readCount (version : UInt8) (detail : String) : SigReader UInt32 :=
  if version ≥ 8 then failWith (truncated detail) (readWord version) else pure 1

/-- The tail bytes of a module. -/
def parseTailBytes (version : UInt8) : SigReader (List FlirtTailByte) := do
  let count ← readCount version "tail count"
  repeatM (fun out => do
    let offset ← failWith (truncated "tail byte") (readWord version)
    let value ← failWith (truncated "tail byte") Cursor.readU8
    pure (out ++ [⟨offset, value⟩])) count.toNat []

/-- The length of the name of a referenced function. -/
def readReferenceLength : SigReader ℕ := do
  let sizeByte ← failWith (truncated "ref size") Cursor.readU8
  if sizeByte = 0 then do
    let real ← failWith (truncated "ref size ext") Cursor.readVle16
    pure real.toNat
  else pure sizeByte.toNat

/-- The referenced functions of a module. -/
def parseReferencedFunctions (version : UInt8) : SigReader (List FlirtReference) := do
  let count ← readCount version "ref count"
  repeatM (fun out => do
    let offset ← failWith (truncated "ref offset") (readWord version)
    let nameLen ← readReferenceLength
    let name ← repeatM (fun name => do
      let ch ← failWith (truncated "ref name") Cursor.readU8
      pure (name ++ [ch])) nameLen []
    pure (out ++ [⟨offset, name⟩])) count.toNat []

/-- One turn of the loop over the modules with one checksum. -/
def sameCrcTurn (version : UInt8) (crcLen : UInt8) (crc16 : UInt16) (out : List FlirtModule) :
    SigReader (List FlirtModule ⊕ (UInt8 × List FlirtModule)) := do
  let functionSize ← failWith (truncated "function size") (readWord version)
  let (flags, names) ← parseModuleNames version
  let tailBytes ← (if flags &&& kTailBytes ≠ 0 then parseTailBytes version else pure [])
  let references ←
    (if flags &&& kReferencedFunctions ≠ 0 then parseReferencedFunctions version else pure [])
  let out := out ++ [{ tailCrc16 := crc16, tailLength := crcLen.toUInt16, functionSize, names,
                       tailBytes, references }]
  if flags &&& kMoreModulesWithSameCrc = 0 then pure (.inr (flags, out)) else pure (.inl out)

/-- One turn of the loop over the checksums of a node. The checksum is stored with its high byte
first. -/
def leafModulesTurn (version : UInt8) (out : List FlirtModule) :
    SigReader (List FlirtModule ⊕ List FlirtModule) := do
  let crcLen ← failWith (truncated "crc length") Cursor.readU8
  let crcHi ← failWith (truncated "crc16") Cursor.readU8
  let crcLo ← failWith (truncated "crc16") Cursor.readU8
  let (flags, out) ←
    loop (sameCrcTurn version crcLen ((crcHi.toUInt16 <<< 8) ||| crcLo.toUInt16)) out
  if flags &&& kMoreModules = 0 then pure (.inr out) else pure (.inl out)

/-- The modules of a node. -/
def parseLeafModules (version : UInt8) : SigReader (List FlirtModule) :=
  loop (leafModulesTurn version) []

/-! ### Nodes -/

/-- Whether the mask makes a position of a segment a wildcard. -/
def maskBit (mask : UInt64) (bit : ℕ) : Bool := mask &&& (1 <<< UInt64.ofNat bit) ≠ 0

/-- The number of positions of a segment that are not wildcards. -/
def literalCount (mask : UInt64) (length : ℕ) : ℕ :=
  ((List.range length).filter fun bit => !maskBit mask bit).length

/-- A pattern that is being extended, and the next of the segment's bytes to take. -/
structure Segment where
  bytes : Vector UInt8 kMaxPatternLength
  wildcard : Vector Bool kMaxPatternLength
  nextLiteral : ℕ

/-- One position of a segment. -/
def segmentTurn {prefixLen length : ℕ} (h : prefixLen + length ≤ kMaxPatternLength) (mask : UInt64)
    (literals : List UInt8) (s : Segment) (p : Fin length) : Segment :=
  have hdst : prefixLen + p < kMaxPatternLength :=
    Nat.lt_of_lt_of_le (Nat.add_lt_add_left p.isLt prefixLen) h
  if maskBit mask (length - 1 - p) then
    { s with wildcard := s.wildcard.set (prefixLen + p) true hdst }
  else
    { s with
      bytes := s.bytes.set (prefixLen + p) (literals.getD s.nextLiteral 0) hdst
      nextLiteral := s.nextLiteral + 1 }

/-- The pattern of a child: its parent's and a segment. -/
def FlirtPattern.append (parent : FlirtPattern) {length : ℕ}
    (h : parent.length + length ≤ kMaxPatternLength) (mask : UInt64) (literals : List UInt8) :
    FlirtPattern :=
  let s := (List.finRange length).foldl (segmentTurn h mask literals)
    ⟨parent.bytes, parent.wildcard, 0⟩
  { bytes := s.bytes, wildcard := s.wildcard, length := parent.length + length, length_le := h }

/-- The length of a segment. -/
def readPatternLength (version : UInt8) : SigReader UInt16 :=
  if version < 10 then do
    let b ← failWith (truncated "pattern length") Cursor.readU8
    pure b.toUInt16
  else failWith (truncated "pattern length") Cursor.readVle16

/-- The pattern of the next child. -/
def parsePattern (version : UInt8) (parent : FlirtPattern) : SigReader FlirtPattern := do
  let length ← readPatternLength version
  if h : parent.length + length.toNat ≤ kMaxPatternLength then do
    let mask ← failWith (truncated "variant mask") (readVariantMask length)
    let literals ← failWith (truncated "pattern bytes")
      (Cursor.readBytes (literalCount mask length.toNat))
    pure (parent.append h mask literals)
  else fail ⟨.flirtBadNode, str "pattern exceeds max length"⟩

/-- A node at the depth `kMaxTreeDepth + 1 - levels`, whose accumulated pattern is `parent`. -/
def parseNode (version : UInt8) : (levels : ℕ) → FlirtPattern → SigReader FlirtNode
  | 0, _ => fail ⟨.flirtTooDeep, str "tree depth"⟩
  | levels + 1, parent => do
    let childCount ← failWith (truncated "child count") Cursor.readVle16
    if childCount = 0 then do
      let leafModules ← parseLeafModules version
      pure ⟨parent, [], leafModules⟩
    else do
      let children ← repeatM (fun children => do
        let pattern ← parsePattern version parent
        let child ← parseNode version levels pattern
        pure (children ++ [child])) childCount.toNat []
      pure ⟨parent, children, []⟩

/-! ### Files -/

/-- What the inflater hands over: the chunks it passes to its callback, and whether it ends well. -/
abbrev Inflater := List UInt8 → List (List UInt8) × Bool

/-- The callback: a chunk that would take the output over its limit is refused. -/
def putBuf (out : Option (List UInt8)) (chunk : List UInt8) : Option (List UInt8) :=
  out.bind fun out =>
    if out.length + chunk.length > kMaxDecompressedSize then none else some (out ++ chunk)

/-- Inflate a body. -/
def decompressInflate (tinfl : Inflater) (compressed : List UInt8) : Expected (List UInt8) :=
  if compressed = [] then .error ⟨.flirtBadCompressedStream, str "empty input"⟩
  else
    match (tinfl compressed).1.foldl putBuf (some []) with
    | none => .error ⟨.flirtBadCompressedStream, str "output exceeded size cap"⟩
    | some out =>
      if (tinfl compressed).2 then .ok out
      else .error ⟨.flirtBadCompressedStream, str "inflate failed"⟩

/-- The tree in a body. -/
def parseBody (hdr : FlirtHeader) (body : List UInt8) : Outcome PapaError FlirtTree :=
  (parseNode hdr.version (kMaxTreeDepth + 1) {} body 0).andThen fun root pos =>
    .done ⟨hdr, root⟩ pos

/-- Parse a signature file. The position of the result is that of the cursor in the body. -/
def parseSigBuffer (tinfl : Inflater) (sig : List UInt8) : Outcome PapaError FlirtTree :=
  (parseHeader sig 0).andThen fun hdr _ =>
    let bodyOffset := headerSizeForVersion hdr.version + hdr.libraryNameLen.toNat
    if bodyOffset > sig.length then .failed (truncated "body offset")
    else if hdr.isCompressed then
      match decompressInflate tinfl (sig.drop bodyOffset) with
      | .error e => .failed e
      | .ok inflated => parseBody hdr inflated
    else parseBody hdr (sig.drop bodyOffset)

end Papa.Flirt
