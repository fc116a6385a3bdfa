import Mathlib.Algebra.Ring.Int.Defs
import Mathlib.Data.Int.Order.Basic
import Mathlib.Order.Lattice
import Papa.Util.Text

/-!
# Box tables

A table is drawn with box glyphs into a given width. A column is as wide as its widest line with a
space on each side. When the columns are too wide together, the widest ones are made narrower until
the budget is kept, and when they are narrower than a minimum, they are widened. A cell is broken
into lines at its newlines and between words, and a line that is too long is cut off with an
ellipsis.

An `int` is an integer here: no text comes near `2 ^ 31` columns. A cell is a list of characters
with their styles where the source keeps the two in parallel.

## Main definitions

* `Table`, `Cell`, `Run`: tables and their cells.
* `ratioDistribute`, `ratioReduce`, `collapse`, `computeColumnWidths`: the widths of columns.
* `words`, `divideLine`, `wrapCell`, `makeLine`: the lines of a cell.
* `emitRow`, `render`: the drawing.
-/

namespace Papa.Render.Tables

/-! ### Tables -/

/-- The style of a run of text. -/
inductive Style
  | kNone
  | kCyan
  deriving DecidableEq

/-- A run of text of one style. -/
structure Run where
  text : Str
  style : Style := .kNone
  deriving DecidableEq

/-- A column with its label in the header row. -/
structure Column where
  header : Str

/-- A cell, built from runs. -/
structure Cell where
  runs : List Run := []

/-- A plain text as a cell. -/
def Cell.ofText (text : Str) : Cell := ⟨[⟨text, .kNone⟩]⟩

/-- A table. -/
structure Table where
  columns : List Column
  rows : List (List Cell)
  showHeader : Bool := true
  minWidth : ℤ := 0

def kHorizontal : Str := [0xE2, 0x94, 0x80]
def kVertical : Str := [0xE2, 0x94, 0x82]
def kTopLeft : Str := [0xE2, 0x94, 0x8C]
def kTopCross : Str := [0xE2, 0x94, 0xAC]
def kTopRight : Str := [0xE2, 0x94, 0x90]
def kMidLeft : Str := [0xE2, 0x94, 0x9C]
def kMidCross : Str := [0xE2, 0x94, 0xBC]
def kMidRight : Str := [0xE2, 0x94, 0xA4]
def kBotLeft : Str := [0xE2, 0x94, 0x94]
def kBotCross : Str := [0xE2, 0x94, 0xB4]
def kBotRight : Str := [0xE2, 0x94, 0x98]
def kEllipsis : Str := [0xE2, 0x80, 0xA6]

/-- The escapes around cyan text. -/
def kCyanOn : Str := [0x1B, 0x5B, 0x33, 0x36, 0x6D]
def kReset : Str := [0x1B, 0x5B, 0x30, 0x6D]

/-- The spaces on the sides of a cell. -/
def kCellPadding : ℤ := 2

def kSpace : UInt8 := 0x20
def kNewline : UInt8 := 0x0A

/-- `is_space`. -/
def isSpace (c : UInt8) : Bool :=
  c == 0x20 || c == 0x09 || c == 0x0A || c == 0x0D || c == 0x0C || c == 0x0B

/-- `cell_len`. -/
def cellLen (s : Str) : ℤ := s.length

/-- `cell_plain`. -/
def cellPlain (cell : Cell) : Str := cell.runs.flatMap Run.text

/-- `cell_plain` and `cell_styles`: the characters of a cell with their styles. -/
def cellStyled (cell : Cell) : List (UInt8 × Style) :=
  cell.runs.flatMap fun run => run.text.map fun c => (c, run.style)

/-- The pieces of a text between newlines. -/
def hardLines {α : Type} (isNewline : α → Bool) : List α → List (List α)
  | [] => [[]]
  | c :: cs =>
    if isNewline c then [] :: hardLines isNewline cs
    else
      match hardLines isNewline cs with
      | [] => [[c]]
      | line :: lines => (c :: line) :: lines

/-- `longest_line`. -/
def longestLine (cell : Str) : ℤ :=
  (hardLines (· == kNewline) cell).foldl (fun best line => max best (cellLen line)) 0

/-! ### The widths of the columns -/

/-- `round_half_even`. -/
def roundHalfEven (num den : ℤ) : ℤ :=
  let quotient := num.tdiv den
  let twiceRemainder := 2 * num.tmod den
  if twiceRemainder < den then quotient
  else if twiceRemainder > den then quotient + 1
  else if quotient.tmod 2 = 0 then quotient else quotient + 1

/-- `ceil_div`. -/
def ceilDiv (num den : ℤ) : ℤ := (num + den - 1).tdiv den

/-- The loop of `ratio_distribute`. -/
def distributeLoop : (totalRatio totalRemaining : ℤ) → List ℤ → List ℤ
  | _, _, [] => []
  | totalRatio, totalRemaining, ratio :: ratios =>
    let distributed :=
      if totalRatio > 0 then ceilDiv (ratio * totalRemaining) totalRatio else totalRemaining
    distributed :: distributeLoop (totalRatio - ratio) (totalRemaining - distributed) ratios

/-- `ratio_distribute`. -/
def ratioDistribute (total : ℤ) (ratios : List ℤ) : List ℤ :=
  distributeLoop ratios.sum total ratios

/-- A place of `ratio_reduce`. -/
structure Slot where
  ratio : ℤ
  maximum : ℤ
  value : ℤ

/-- The loop of `ratio_reduce`. -/
def reduceLoop : (totalRatio totalRemaining : ℤ) → List Slot → List ℤ
  | _, _, [] => []
  | totalRatio, totalRemaining, slot :: slots =>
    if slot.ratio ≠ 0 ∧ totalRatio > 0 then
      let share := roundHalfEven (slot.ratio * totalRemaining) totalRatio
      let distributed := min slot.maximum share
      (slot.value - distributed) ::
        reduceLoop (totalRatio - slot.ratio) (totalRemaining - distributed) slots
    else slot.value :: reduceLoop totalRatio totalRemaining slots

/-- `ratio_reduce`: a place that cannot be reduced has no part in it. -/
def ratioReduce (total : ℤ) (slots : List Slot) : List ℤ :=
  let slots := slots.map fun slot => if slot.maximum = 0 then { slot with ratio := 0 } else slot
  let totalRatio := (slots.map Slot.ratio).sum
  if totalRatio = 0 then slots.map Slot.value else reduceLoop totalRatio total slots

/-- The loop that makes the widest columns narrower. It has no result after too many turns. -/
def collapse (maxWidth : ℤ) : (turns : ℕ) → (widths : List ℤ) → Option (List ℤ)
  | 0, _ => none
  | turns + 1, widths =>
    let total := widths.sum
    let excess := total - maxWidth
    if total > 0 ∧ excess > 0 then
      let maxCol := widths.max?.getD 0
      let secondMax := (widths.filter (· ≠ maxCol)).foldl max 0
      let colDiff := maxCol - secondMax
      let ratio (w : ℤ) : ℤ := if w = maxCol then 1 else 0
      if ¬widths.any (fun w => decide (ratio w ≠ 0)) ∨ colDiff = 0 then some widths
      else collapse maxWidth turns
        (ratioReduce excess (widths.map fun w => ⟨ratio w, min excess colDiff, w⟩))
    else some widths

/-- The natural width of a column: its widest line and the padding. -/
def naturalWidth (table : Table) (c : ℕ) (column : Column) : ℤ :=
  let measured := if table.showHeader then max 0 (longestLine column.header) else 0
  table.rows.foldl (fun measured row => max measured (longestLine (cellPlain (row.getD c {}))))
    measured + kCellPadding

/-- What the borders take. -/
def extraWidth (table : Table) : ℤ := 2 + table.columns.length - 1

/-- Widen columns to the minimum width. -/
def widen (table : Table) (maxWidth : ℤ) (widths : List ℤ) : List ℤ :=
  if table.minWidth ≠ 0 ∧ widths.sum < table.minWidth - extraWidth table then
    let target := min (table.minWidth - extraWidth table) maxWidth
    List.zipWith (· + ·) widths (ratioDistribute (target - widths.sum) widths)
  else widths

/-- `compute_column_widths`. -/
def computeColumnWidths (table : Table) (availableWidth : ℤ) : Option (List ℤ) := do
  let maxWidth := availableWidth - extraWidth table
  let widths := table.columns.mapIdx (naturalWidth table)
  let widths ←
    if widths.sum > maxWidth then do
      let widths ← collapse maxWidth (widths.sum.toNat + 1) widths
      if widths.sum > maxWidth then
        some (ratioReduce (widths.sum - maxWidth) (widths.map fun w => ⟨1, w, w⟩))
      else some widths
    else some widths
  return widen table maxWidth widths

/-! ### The lines of a cell -/

/-- A word with the place where it begins. -/
structure Word where
  start : ℕ
  text : Str

/-- `rstrip`. -/
def rstrip (s : Str) : Str := s.rdropWhile isSpace

/-- The loop of `words`: a word is what is not blank, with the blanks behind it, and the first word
with those before it. -/
def wordsFrom : (turns start : ℕ) → Str → List Word
  | 0, _, _ => []
  | turns + 1, start, s =>
    let rest := s.dropWhile isSpace
    if rest = [] then []
    else
      let behind := rest.dropWhile (!isSpace ·)
      let next := behind.dropWhile isSpace
      let length := s.length - next.length
      ⟨start, s.take length⟩ :: wordsFrom turns (start + length) next

/-- `words`. -/
def words (s : Str) : List Word := wordsFrom s.length 0 s

/-- The loop of `divide_line`. -/
def divideWords (width : ℤ) : (cellOffset : ℤ) → List Word → List ℕ
  | _, [] => []
  | cellOffset, w :: ws =>
    let wordLength := cellLen (rstrip w.text)
    let remaining := width - cellOffset
    if remaining ≥ wordLength then divideWords width (cellOffset + cellLen w.text) ws
    else if wordLength > width then
      (if w.start ≠ 0 then [w.start] else []) ++ divideWords width (cellLen w.text) ws
    else if cellOffset ≠ 0 ∧ w.start ≠ 0 then
      w.start :: divideWords width (cellLen w.text) ws
    else divideWords width cellOffset ws

/-- `divide_line`. -/
def divideLine (text : Str) (width : ℤ) : List ℕ := divideWords width 0 (words text)

/-- `runs_from`: characters of one style after each other make up a run. -/
def runsFrom : List (UInt8 × Style) → List Run
  | [] => []
  | (c, style) :: rest =>
    match runsFrom rest with
    | [] => [⟨[c], style⟩]
    | run :: runs =>
      if run.style = style then ⟨c :: run.text, style⟩ :: runs else ⟨[c], style⟩ :: run :: runs

/-- `make_line`. -/
def makeLine (piece : List (UInt8 × Style)) (width : ℤ) : List Run :=
  let piece := piece.rdropWhile fun c => isSpace c.1
  let len : ℤ := piece.length
  if len > width then runsFrom (piece.take (max 0 (width - 1)).toNat) ++ [⟨kEllipsis, .kNone⟩]
  else if width - len > 0 then
    runsFrom piece ++ [⟨List.replicate (width - len).toNat kSpace, .kNone⟩]
  else runsFrom piece

/-- A line cut at offsets. -/
def pieces {α : Type} (line : List α) : (prev : ℕ) → List ℕ → List (List α)
  | prev, [] => [line.drop prev]
  | prev, off :: offsets => (line.take off).drop prev :: pieces line off offsets

/-- The pieces that a cell is wrapped into. -/
def cellPieces (cell : Cell) (width : ℤ) : List (List (UInt8 × Style)) :=
  (hardLines (·.1 == kNewline) (cellStyled cell)).flatMap fun line =>
    pieces line 0 (divideLine (line.map Prod.fst) width)

/-- `wrap_cell`. -/
def wrapCell (cell : Cell) (width : ℤ) : List (List Run) :=
  (cellPieces cell width).map fun piece => makeLine piece width

/-! ### Drawing -/

/-- `border`. -/
def border (widths : List ℤ) (left cross right : Str) : Str :=
  left ++ ((widths.map fun w => (List.replicate w.toNat kHorizontal).flatten).intersperse
    cross).flatten ++ right ++ [kNewline]

/-- `emit_runs`. -/
def emitRuns (runs : List Run) (color : Bool) : Str :=
  runs.flatMap fun run =>
    if color ∧ run.style = .kCyan then kCyanOn ++ run.text ++ kReset else run.text

/-- Spaces in a number that is taken for an unsigned one: no text is long enough for one that is
negative, and an exception is thrown. -/
def blanks (count : ℤ) : Option Str :=
  if count < 0 then none else some (List.replicate count.toNat kSpace)

/-- A line of a row: of each cell its line, or blanks when it has no more. -/
def rowLine (color : Bool) (ln : ℕ) (cols : List (List (List Run) × ℤ)) : Option Str := do
  let bodies ← cols.mapM fun (lines, w) =>
    match lines[ln]? with
    | some runs => some (emitRuns runs color)
    | none => blanks (w - kCellPadding)
  return kVertical ++ (bodies.flatMap fun body => [kSpace] ++ body ++ [kSpace] ++ kVertical) ++
    [kNewline]

/-- `emit_row`. -/
def emitRow (cells : List Cell) (widths : List ℤ) (color : Bool) : Option Str := do
  let cols := (cells.zip widths).map fun (cell, w) => (wrapCell cell (w - kCellPadding), w)
  let height := cols.foldl (fun height col => max height col.1.length) 1
  let lines ← (List.range height).mapM fun ln => rowLine color ln cols
  return lines.flatten

/-- `render`. There is no result when it throws. -/
def render (table : Table) (availableWidth : ℤ) (color : Bool) : Option Str :=
  if table.columns = [] then some [kNewline]
  else do
    let widths ← computeColumnWidths table availableWidth
    let header ←
      if table.showHeader then do
        let row ← emitRow (table.columns.map fun column => .ofText column.header) widths color
        some (row ++ border widths kMidLeft kMidCross kMidRight)
      else some []
    let rows ← table.rows.mapM fun row => emitRow row widths color
    return border widths kTopLeft kTopCross kTopRight ++ header ++ rows.flatten ++
      border widths kBotLeft kBotCross kBotRight

end Papa.Render.Tables
