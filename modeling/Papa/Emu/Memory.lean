import Mathlib.Algebra.Group.Nat.Defs
import Mathlib.Data.List.Basic
import Papa.Library.AssocList

/-!
# Sandboxed memory

The emulated address space is a list of maps, views over the bytes of sections and of the stack that
are never written. A write goes to an overlay, a table of the bytes written so far, which takes no
new address once it is full. The state of the overlay can be saved and restored.

Addresses are of 64 bits, and so are the sums of an address and a size.

## Main definitions

* `Map`, `SandboxMemory`: the address space.
* `SandboxMemory.probe`, `SandboxMemory.readBytes`, `SandboxMemory.write`.
* `Map.Holds`: the addresses of a range are in a map, without a cut.

## Main results

* `SandboxMemory.probe_iff`: what a probe tells of a range that does not wrap.
* `SandboxMemory.probe_of_wraps`: of one that does.
-/

namespace Papa.Emu

/-- `kMemExec`. -/
def kMemExec : UInt32 := 1
/-- `kMemWrite`. -/
def kMemWrite : UInt32 := 2
/-- `kMemRead`. -/
def kMemRead : UInt32 := 4
/-- `kTaintByte`. -/
def kTaintByte : UInt8 := 0x61
/-- `kStackSize`. -/
def kStackSize : UInt64 := 0x8000
/-- `kStackFill`. -/
def kStackFill : UInt8 := 0xFE

/-- A backing map. -/
structure Map where
  base : UInt64
  size : UInt64
  perms : UInt32
  bytes : List UInt8
  isFill : Bool
  deriving DecidableEq

/-- The address space: its maps, the bytes written and how many addresses may be written. -/
structure SandboxMemory where
  maps : List Map := []
  overlay : List (UInt64 × UInt8) := []
  overlayCap : ℕ := 2 ^ 20

/-- The state of an overlay. -/
structure Snapshot where
  overlay : List (UInt64 × UInt8)

/-- The byte of a map at an address. -/
def backingByte (map : Map) (va : UInt64) : UInt8 :=
  if map.isFill then kStackFill else map.bytes.getD (va - map.base).toNat kStackFill

/-- Write bytes from an address on, until a new address does not fit. -/
def writeLoop (cap : ℕ) : (overlay : List (UInt64 × UInt8)) → (addr : UInt64) → List UInt8 →
    List (UInt64 × UInt8)
  | overlay, _, [] => overlay
  | overlay, addr, b :: bytes =>
    if (AssocList.get? addr overlay).isSome ∨ overlay.length < cap then
      writeLoop cap (AssocList.upsert addr b (fun _ => b) overlay) (addr + 1) bytes
    else overlay

/-- The number that bytes are, the lowest first, as far as it fits 64 bits. -/
def valueOfBytes (bytes : List UInt8) : UInt64 :=
  (bytes.take 8).foldr (fun b value => b.toUInt64 ||| value <<< 8) 0

/-- The lowest `size` bytes of a number. -/
def bytesOfValue (value : UInt64) (size : ℕ) : List UInt8 :=
  (List.range size).map fun i => (value >>> (8 * UInt64.ofNat i)).toUInt8

namespace SandboxMemory

variable (mem : SandboxMemory)

/-- Add a map over bytes. -/
def addMap (base : UInt64) (perms : UInt32) (bytes : List UInt8) : SandboxMemory :=
  { mem with maps := mem.maps ++ [⟨base, UInt64.ofNat bytes.length, perms, bytes, false⟩] }

/-- Add the stack in front of every map. -/
def initStack (base : UInt64) : SandboxMemory :=
  { mem with maps := ⟨base, kStackSize, kMemRead ||| kMemWrite, [], true⟩ :: mem.maps }

/-- The first map that an address is in. -/
def findMap (va : UInt64) : Option Map :=
  mem.maps.find? fun map => map.base ≤ va && va < map.base + map.size

/-- Whether a range is in one map that has a permission. -/
def probe (va size : UInt64) (perm : UInt32) : Bool :=
  match mem.findMap va with
  | none => false
  | some map => if va + size > map.base + map.size then false else map.perms &&& perm == perm

/-- Whether an address is in some map. -/
def isValidPointer (va : UInt64) : Bool := (mem.findMap va).isSome

/-- The byte at an address of a map: the one written, or that of the map. -/
def byteIn (map : Map) (va : UInt64) : UInt8 :=
  (AssocList.get? va mem.overlay).getD (backingByte map va)

/-- The bytes of a range, or a fill when it cannot be read. -/
def readBytes (va size : UInt64) : List UInt8 :=
  if mem.probe va size kMemRead then
    match mem.findMap va with
    | none => []
    | some map => (List.range size.toNat).map fun i => mem.byteIn map (va + UInt64.ofNat i)
  else List.replicate size.toNat kTaintByte

/-- The bytes from an address on, at most `maxLen` and up to the end of the map. -/
def readCode (va maxLen : UInt64) : List UInt8 :=
  match mem.findMap va with
  | none => []
  | some map =>
    if map.perms &&& kMemRead = 0 then []
    else (List.range (min maxLen (map.base + map.size - va)).toNat).map fun i =>
      mem.byteIn map (va + UInt64.ofNat i)

/-- The number at an address. -/
def readValue (va size : UInt64) : UInt64 := valueOfBytes (mem.readBytes va size)

/-- Write bytes, or nothing when the range cannot be written. -/
def write (va : UInt64) (bytes : List UInt8) : SandboxMemory :=
  if bytes.isEmpty then mem
  else if mem.probe va (UInt64.ofNat bytes.length) kMemWrite then
    { mem with overlay := writeLoop mem.overlayCap mem.overlay va bytes }
  else mem

/-- Write a number, of at most eight bytes. -/
def writeValue (va value : UInt64) (size : ℕ) : SandboxMemory :=
  mem.write va (bytesOfValue value size)

/-- Save the overlay. -/
def snapshot : Snapshot := ⟨mem.overlay⟩

/-- Go back to a saved overlay. -/
def restore (snap : Snapshot) : SandboxMemory := { mem with overlay := snap.overlay }

end SandboxMemory

/-! ### Ranges -/

/-- Every address of a range is in a map, sums taken without a cut. -/
def Map.Holds (map : Map) (va size : ℕ) : Prop :=
  ∀ a, va ≤ a → a < va + size → map.base.toNat ≤ a ∧ a < map.base.toNat + map.size.toNat

namespace SandboxMemory

variable {mem : SandboxMemory}

/-- A map that is found ends before 2^64. -/
theorem bounds_of_findMap {va : UInt64} {map : Map} (h : mem.findMap va = some map) :
    map.base.toNat ≤ va.toNat ∧ va.toNat < map.base.toNat + map.size.toNat ∧
      map.base.toNat + map.size.toNat < 2 ^ 64 := by
  have hin := List.find?_some h
  rw [Bool.and_eq_true, decide_eq_true_iff, decide_eq_true_iff, UInt64.le_iff_toNat_le,
    UInt64.lt_iff_toNat_lt, UInt64.toNat_add] at hin
  have hbase := map.base.toNat_lt
  have hsize := map.size.toNat_lt
  omega

/-- **A probe** of a range that does not wrap tells whether the map that is found holds it and has
the permission. -/
theorem probe_iff {va size : UInt64} (hwrap : va.toNat + size.toNat < 2 ^ 64) (perm : UInt32) :
    mem.probe va size perm = true ↔ ∃ map, mem.findMap va = some map ∧
      map.Holds va.toNat size.toNat ∧ map.perms &&& perm = perm := by
  unfold probe
  cases hmap : mem.findMap va with
  | none => simp
  | some map =>
    obtain ⟨hlow, hva, hend⟩ := bounds_of_findMap hmap
    have hsum : va + size > map.base + map.size ↔ ¬ map.Holds va.toNat size.toNat := by
      rw [gt_iff_lt, UInt64.lt_iff_toNat_lt, UInt64.toNat_add, UInt64.toNat_add,
        Nat.mod_eq_of_lt hwrap, Nat.mod_eq_of_lt hend, Map.Holds]
      constructor
      · intro hlt hall
        have := hall (va.toNat + size.toNat - 1) (by omega) (by omega)
        omega
      · intro hnot
        by_contra hle
        exact hnot fun a h₁ h₂ => ⟨Nat.le_trans hlow h₁, by omega⟩
    by_cases hholds : map.Holds va.toNat size.toNat
    · simp only [if_neg (hsum.not.mpr (not_not.mpr hholds)), beq_iff_eq, Option.some.injEq,
        exists_eq_left', hholds, true_and]
    · simp only [if_pos (hsum.mpr hholds), Bool.false_eq_true, Option.some.injEq, exists_eq_left',
        hholds, false_and]

/-- A range that wraps passes the probe of every map that has the permission, and none holds it. -/
theorem probe_of_wraps {va size : UInt64} (hwrap : 2 ^ 64 ≤ va.toNat + size.toNat) {perm : UInt32}
    {map : Map} (hmap : mem.findMap va = some map) (hperm : map.perms &&& perm = perm) :
    mem.probe va size perm = true ∧ ¬ map.Holds va.toNat size.toNat := by
  obtain ⟨hlow, hva, hend⟩ := bounds_of_findMap hmap
  have hsize := size.toNat_lt
  constructor
  · have hsum : ¬ va + size > map.base + map.size := by
      rw [gt_iff_lt, UInt64.lt_iff_toNat_lt, UInt64.toNat_add, UInt64.toNat_add]
      omega
    simp only [probe, hmap, if_neg hsum, hperm, beq_self_eq_true]
  · intro hall
    have := hall (2 ^ 64 - 1) (by omega) (by omega)
    omega

end SandboxMemory

end Papa.Emu
