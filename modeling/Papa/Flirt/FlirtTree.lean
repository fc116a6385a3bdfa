import Mathlib.Data.Int.Notation
import Mathlib.Data.List.FinRange
import Papa.Exceptions

/-!
# FLIRT signature trees

A signature file holds a tree of patterns. Every node has the pattern accumulated from the root, and
the nodes without children hold the modules. A pattern has at most 32 positions, each a byte or a
wildcard.

## Main definitions

* `FlirtPattern`, `FlirtPattern.matches`, `FlirtPattern.Extends`.
* `FlirtModule`, `FlirtNode`, `FlirtHeader`, `FlirtTree`.
* `FlirtNode.nodes`, `FlirtNode.depth`.
-/

namespace Papa.Flirt

/-- `kMaxPatternLength`. -/
def kMaxPatternLength : ℕ := 32
/-- `kMaxTreeDepth`. -/
def kMaxTreeDepth : ℕ := 64
/-- `kMaxDecompressedSize`. -/
def kMaxDecompressedSize : ℕ := 64 <<< 20

/-! ### Patterns -/

/-- A pattern: the positions before `length` are wildcards or bytes. -/
structure FlirtPattern where
  bytes : Vector UInt8 kMaxPatternLength := .replicate _ 0
  wildcard : Vector Bool kMaxPatternLength := .replicate _ false
  length : ℕ := 0
  length_le : length ≤ kMaxPatternLength := by exact Nat.zero_le _

namespace FlirtPattern

/-- The byte at a position. -/
def byteAt (p : FlirtPattern) (i : Fin p.length) : UInt8 :=
  p.bytes.get ⟨i, Nat.lt_of_lt_of_le i.isLt p.length_le⟩

/-- Whether a position is a wildcard. -/
def wildcardAt (p : FlirtPattern) (i : Fin p.length) : Bool :=
  p.wildcard.get ⟨i, Nat.lt_of_lt_of_le i.isLt p.length_le⟩

/-- Whether the first bytes of a buffer are those of the pattern. -/
def «matches» (p : FlirtPattern) (buf : List UInt8) : Bool :=
  if buf.length < p.length then false
  else (List.finRange p.length).all fun i => p.wildcardAt i || buf[i.val]? == some (p.byteAt i)

/-- The positions of one pattern are the first positions of another. -/
def Extends (p q : FlirtPattern) : Prop :=
  ∃ h : p.length ≤ q.length, ∀ i : Fin p.length,
    q.byteAt (i.castLE h) = p.byteAt i ∧ q.wildcardAt (i.castLE h) = p.wildcardAt i

end FlirtPattern

/-! ### Modules and nodes -/

/-- The type of a name. -/
inductive FlirtNameType
  | publicName
  | localName
  deriving DecidableEq

/-- A symbol at an offset from the start of a function. -/
structure FlirtName where
  offset : ℤ
  name : Str
  type : FlirtNameType
  deriving DecidableEq

/-- A byte that a function carries at an offset. -/
structure FlirtTailByte where
  offset : UInt32
  value : UInt8
  deriving DecidableEq

/-- A named function referenced at an offset. -/
structure FlirtReference where
  offset : UInt32
  name : Str
  deriving DecidableEq

/-- A module record. -/
structure FlirtModule where
  tailCrc16 : UInt16
  tailLength : UInt16
  functionSize : UInt32
  names : List FlirtName
  tailBytes : List FlirtTailByte
  references : List FlirtReference
  deriving DecidableEq

/-- A node of a tree: its pattern, its children and its modules. -/
inductive FlirtNode
  | mk (pattern : FlirtPattern) (children : List FlirtNode) (leafModules : List FlirtModule)

namespace FlirtNode

/-- The pattern of a node. -/
def pattern : FlirtNode → FlirtPattern
  | mk pattern _ _ => pattern

/-- The children of a node. -/
def children : FlirtNode → List FlirtNode
  | mk _ children _ => children

/-- The modules of a node. -/
def leafModules : FlirtNode → List FlirtModule
  | mk _ _ leafModules => leafModules

mutual

/-- The nodes of a tree, depth first. -/
def nodes : FlirtNode → List FlirtNode
  | mk pattern children leafModules => mk pattern children leafModules :: nodesOf children

/-- The nodes of some trees, depth first. -/
def nodesOf : List FlirtNode → List FlirtNode
  | [] => []
  | child :: children => child.nodes ++ nodesOf children

end

mutual

/-- How far below its root a tree goes. -/
def depth : FlirtNode → ℕ
  | mk _ children _ => depthOf children

/-- How far below a common parent some trees go. -/
def depthOf : List FlirtNode → ℕ
  | [] => 0
  | child :: children => max (child.depth + 1) (depthOf children)

end

theorem nodesOf_eq (children : List FlirtNode) : nodesOf children = children.flatMap nodes := by
  induction children with
  | nil => rfl
  | cons child children ih => rw [nodesOf, ih, List.flatMap_cons]

theorem depthOf_le {children : List FlirtNode} {n : ℕ} (h : ∀ c ∈ children, c.depth < n) :
    depthOf children ≤ n := by
  induction children with
  | nil => exact Nat.zero_le n
  | cons child children ih =>
    rw [List.forall_mem_cons] at h
    rw [depthOf]
    exact Nat.max_le.mpr ⟨h.1, ih h.2⟩

end FlirtNode

/-! ### Files -/

/-- The architecture of a signature file. -/
inductive FlirtArch
  | any
  | x86
  | x64
  | other
  deriving DecidableEq

/-- The header of a signature file. -/
structure FlirtHeader where
  version : UInt8
  arch : FlirtArch
  fileTypes : UInt32
  osTypes : UInt16
  appTypes : UInt16
  features : UInt16
  oldNFunctions : UInt16
  patternCrc16 : UInt16
  ctype : List UInt8
  libraryNameLen : UInt8
  ctypesCrc16 : UInt16
  nFunctions : UInt32
  patternSize : UInt16
  unknownV10 : UInt16
  libraryName : Str
  deriving DecidableEq

/-- Whether the body is compressed. -/
def FlirtHeader.isCompressed (hdr : FlirtHeader) : Bool := hdr.features &&& 0x0010 ≠ 0

/-- A parsed signature file. -/
structure FlirtTree where
  header : FlirtHeader
  root : FlirtNode

end Papa.Flirt
