import Mathlib.Algebra.Group.Nat.Defs
import Mathlib.Data.Nat.Basic
import Mathlib.Data.List.Basic
import Papa.Exceptions

/-!
# PE images

A parsed image keeps the bytes of the file and what the parser found in them. Its readers map an
address relative to the image base to a place in the file, through the section that contains it or,
for small addresses that no section contains, directly, and check that what is asked for lies in the
file.

Every offset is computed in an arithmetic that is a parameter: the one of the machine, which cuts
sums to 32 or 64 bits, or the one without a cut. A look at a place that is not in the file, and a
loop that is cut off, end the computation in a way of their own, which no reader should come to.

## Main definitions

* `Arith`, `Stop`, `Guarded`: the arithmetic and the ends of a computation.
* `PeImage`, `PeImage.readAtRva`, `PeImage.rvaToFileOffset`, `readLe`.
-/

namespace Papa.Pe

/-! ### Computations over a file -/

/-- How sums are cut to 32 and to 64 bits. -/
structure Arith where
  u32 : ℕ → ℕ
  u64 : ℕ → ℕ

/-- The arithmetic of the source. -/
def Arith.machine : Arith := ⟨fun n => n % 2 ^ 32, fun n => n % 2 ^ 64⟩

/-- The arithmetic without a cut. -/
def Arith.exact : Arith := ⟨id, id⟩

@[simp] theorem Arith.exact_u32 (n : ℕ) : Arith.exact.u32 n = n := rfl

@[simp] theorem Arith.exact_u64 (n : ℕ) : Arith.exact.u64 n = n := rfl

/-- Numbers that fit are not cut. -/
structure Arith.Fits (w : Arith) : Prop where
  u32 : ∀ {n : ℕ}, n < 2 ^ 32 → w.u32 n = n
  u64 : ∀ {n : ℕ}, n < 2 ^ 64 → w.u64 n = n

theorem Arith.fits_machine : Arith.machine.Fits := ⟨Nat.mod_eq_of_lt, Nat.mod_eq_of_lt⟩

/-- How a computation ends without a value. -/
inductive Stop
  | refused (e : PapaError)
  /-- A place that is not in the file was looked at. -/
  | outside
  /-- A loop was cut off. -/
  | unfinished

/-- A computation over a file. -/
abbrev Guarded (α : Type) := Except Stop α

/-- Return an error. -/
def refuse {α : Type} (kind : ErrorKind) (detail : String) : Guarded α :=
  .error (.refused ⟨kind, str detail⟩)

/-- The result of a call whose error the caller handles. -/
def attempt {α : Type} : Guarded α → Guarded (Expected α)
  | .ok a => .ok (.ok a)
  | .error (.refused e) => .ok (.error e)
  | .error s => .error s

/-- The number that bytes are, the lowest first. -/
def le (l : List UInt8) : ℕ := l.foldr (fun b n => b.toNat + 256 * n) 0

def u16At (l : List UInt8) (k : ℕ) : UInt16 := .ofNat (le ((l.drop k).take 2))
def u32At (l : List UInt8) (k : ℕ) : UInt32 := .ofNat (le ((l.drop k).take 4))
def u64At (l : List UInt8) (k : ℕ) : UInt64 := .ofNat (le ((l.drop k).take 8))

/-- Look at the `n` bytes from a place. -/
def rawRead (buf : List UInt8) (off n : ℕ) : Guarded (List UInt8) :=
  if off + n ≤ buf.length then .ok ((buf.drop off).take n) else .error .outside

/-- A part of a file: where it begins and its size. -/
structure Span where
  start : ℕ
  size : ℕ

/-- Copy `n` bytes out of a part of a file, or nothing when they do not fit. -/
def readLe (buf : List UInt8) (s : Span) (off n : ℕ) : Guarded (Option (List UInt8)) :=
  if off > s.size ∨ n > s.size - off then .ok none
  else do
    let bytes ← rawRead buf (s.start + off) n
    pure (some bytes)

/-! ### Images -/

/-- A section: where it is in the image and in the file. -/
structure ParsedSection where
  name : Str
  virtualAddress : UInt32
  virtualSize : UInt32
  rawOffset : UInt32
  rawSize : UInt32
  characteristics : UInt32
  deriving DecidableEq

/-- An imported symbol and the address of its slot. -/
structure ParsedImport where
  dll : Str
  name : Str := []
  ordinal : UInt32 := 0
  iatVa : UInt64
  byOrdinal : Bool := false
  delayed : Bool
  deriving DecidableEq

/-- An exported symbol. -/
structure ParsedExport where
  name : Str
  ordinal : UInt32
  va : UInt64
  forwarder : Option Str := none
  deriving DecidableEq

/-- A base relocation. -/
structure ParsedRelocation where
  rva : UInt32
  type : UInt16
  deriving DecidableEq

/-- A parsed image. -/
structure PeImage where
  buffer : List UInt8
  machine : UInt16 := 0
  imageBase : UInt64 := 0
  entryPointRva : UInt32 := 0
  sizeOfImage : UInt32 := 0
  is64bit : Bool := false
  sections : List ParsedSection := []
  imports : List ParsedImport := []
  exports : List ParsedExport := []
  tlsCallbacks : List UInt64 := []
  relocations : List ParsedRelocation := []
  deriving DecidableEq

namespace PeImage

variable (w : Arith) (img : PeImage)

/-- A part of the file, when it lies in it. -/
def readAtFileOffset (off n : ℕ) : Guarded Span :=
  if off > img.buffer.length ∨ n > img.buffer.length - off then
    refuse .outOfBounds "file offset out of range"
  else .ok ⟨off, n⟩

/-- The first section that contains an address. -/
def sectionContainingRva (rva : ℕ) : Option ParsedSection :=
  img.sections.find? fun s =>
    s.virtualAddress.toNat ≤ rva &&
      rva < w.u64 (s.virtualAddress.toNat + (max s.virtualSize s.rawSize).toNat)

/-- The place in the file of an address. -/
def rvaToFileOffset (rva : ℕ) : Option ℕ :=
  match img.sectionContainingRva w rva with
  | some s =>
    let delta := rva - s.virtualAddress.toNat
    if delta ≥ s.rawSize.toNat then none else some (w.u64 (s.rawOffset.toNat + delta))
  | none => if rva < img.buffer.length ∧ rva < 0x1000 then some rva else none

/-- The `n` bytes at an address. Only the first is checked against the section. -/
def readAtRva (rva n : ℕ) : Guarded Span :=
  match img.rvaToFileOffset w rva with
  | none => refuse .outOfBounds "rva not mapped"
  | some off => img.readAtFileOffset off n

/-- How many bytes can be read from an address on. -/
def readableBytesAtRva (rva : ℕ) : ℕ :=
  match img.rvaToFileOffset w rva with
  | none => 0
  | some off =>
    if off ≥ img.buffer.length then 0
    else
      let avail := img.buffer.length - off
      match img.sectionContainingRva w rva with
      | none => avail
      | some s =>
        let delta := rva - s.virtualAddress.toNat
        if delta ≥ s.rawSize.toNat then 0 else min avail (s.rawSize.toNat - delta)

end PeImage

end Papa.Pe
