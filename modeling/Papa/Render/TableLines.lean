import Papa.Render.TableWidths

/-!
# The lines of a drawn table

A drawn table is measured as a terminal shows it: a byte that continues a character takes no column
and an escape takes none. A border is as wide as the widths of the columns say when none of them is
negative. A line of a row is as wide when each column has room for a character, or has two columns
of width and no text to show. In a narrower column an ellipsis is put that does not fit, or blanks
of a negative number are asked for.

## Main definitions

* `displayWidth`, `outputLines`: the lines of a text and their widths on a terminal.
* `AsciiTable`: a table of printable texts with a cell for each column.
* `Tidy`: a table is drawn, and all its lines have the width that the columns make up.
* `HasRoom`: the tables and widths where this is so.

## Main results

* `wordsFrom_succ`: the turns of the loop over the words suffice.
* `flatten_pieces_divideLine`: wrapping keeps a line.
* `emitRow_level_iff`: the rows that are as wide as their columns.
* `tidy_iff`: a table is tidy exactly when its columns have room.
-/

namespace Papa.Render.Tables

/-! ### What a terminal shows -/

/-- Where a terminal is in a line. -/
structure Cursor where
  inEscape : Bool
  column : ℤ
  deriving DecidableEq

/-- A byte on the terminal: an escape goes on to its letter, and a byte that continues a character
takes no column. -/
def Cursor.advance (cursor : Cursor) (b : UInt8) : Cursor :=
  if cursor.inEscape then { cursor with inEscape := b != 0x6D }
  else if b = 0x1B then { cursor with inEscape := true }
  else if 0x80 ≤ b ∧ b < 0xC0 then cursor
  else { cursor with column := cursor.column + 1 }

/-- The columns that a line takes on a terminal. -/
def displayWidth (line : Str) : ℤ := (line.foldl Cursor.advance ⟨false, 0⟩).column

/-- The lines of a text whose last line is ended. -/
def outputLines (out : Str) : List Str := (hardLines (· == kNewline) out).dropLast

/-- A text without a line end that takes `k` columns. -/
structure Shows (text : Str) (k : ℤ) : Prop where
  newline_notMem : kNewline ∉ text
  foldl_advance : ∀ column : ℤ, text.foldl Cursor.advance ⟨false, column⟩ = ⟨false, column + k⟩

namespace Shows

variable {text text' : Str} {k k' : ℤ}

theorem displayWidth_eq (h : Shows text k) : displayWidth text = k := by
  rw [displayWidth, h.foldl_advance, zero_add]

theorem nil : Shows [] 0 := ⟨List.not_mem_nil, fun column => by rw [List.foldl_nil, add_zero]⟩

theorem append (h : Shows text k) (h' : Shows text' k') : Shows (text ++ text') (k + k') where
  newline_notMem := by
    rw [List.mem_append, not_or]
    exact ⟨h.newline_notMem, h'.newline_notMem⟩
  foldl_advance column := by
    rw [List.foldl_append, h.foldl_advance, h'.foldl_advance, add_assoc]

theorem flatMap {α : Type} {f : α → Str} {w : α → ℤ} {xs : List α}
    (h : ∀ x ∈ xs, Shows (f x) (w x)) : Shows (xs.flatMap f) (xs.map w).sum := by
  induction xs with
  | nil => exact nil
  | cons x xs ih =>
    rw [List.forall_mem_cons] at h
    rw [List.flatMap_cons, List.map_cons, List.sum_cons]
    exact h.1.append (ih h.2)

/-- The bytes of printable characters. -/
theorem of_visible (h : ∀ b ∈ text, 0x20 ≤ b ∧ b ≤ 0x7E) : Shows text text.length := by
  induction text with
  | nil => exact nil
  | cons b text ih =>
    rw [List.forall_mem_cons] at h
    obtain ⟨hlow, hhigh⟩ := h.1
    have hb : Shows [b] 1 := by
      have hnewline : kNewline ≠ b := by
        rintro rfl
        exact absurd hlow (by decide)
      have hesc : b ≠ 0x1B := by
        rintro rfl
        exact absurd hlow (by decide)
      have hfirst : ¬(0x80 ≤ b ∧ b < 0xC0) := fun hcont =>
        absurd (hcont.1.trans hhigh) (by decide)
      refine ⟨by simpa using hnewline, fun column => ?_⟩
      rw [List.foldl_cons, List.foldl_nil, Cursor.advance, if_neg Bool.false_ne_true, if_neg hesc,
        if_neg hfirst]
    rw [List.length_cons, Nat.cast_add, Nat.cast_one, add_comm]
    exact hb.append (ih h.2)

theorem replicate (h : Shows text k) (n : ℕ) : Shows (List.replicate n text).flatten (n * k) := by
  have hall := flatMap (w := fun _ => k) fun x (hx : x ∈ List.replicate n text) =>
    (List.eq_of_mem_replicate hx ▸ h : Shows (id x) k)
  rw [List.map_const', List.length_replicate, List.sum_replicate, nsmul_eq_mul] at hall
  rwa [List.flatMap_id] at hall

end Shows

/-! ### Lines -/

section HardLines

variable {α : Type} {isNewline : α → Bool} {cs : List α}

theorem hardLines_ne_nil (isNewline : α → Bool) (cs : List α) : hardLines isNewline cs ≠ [] := by
  cases cs with
  | nil => exact List.cons_ne_nil _ _
  | cons c cs =>
    rw [hardLines]
    split_ifs
    · exact List.cons_ne_nil _ _
    · split <;> exact List.cons_ne_nil _ _

theorem hardLines_cons_newline {c : α} (h : isNewline c = true) :
    hardLines isNewline (c :: cs) = [] :: hardLines isNewline cs := by
  rw [hardLines, if_pos h]

theorem hardLines_cons {c : α} {line : List α} {lines : List (List α)} (h : isNewline c = false)
    (hcs : hardLines isNewline cs = line :: lines) :
    hardLines isNewline (c :: cs) = (c :: line) :: lines := by
  rw [hardLines, if_neg (Bool.not_eq_true _ ▸ h), hcs]

/-- A text up to its first line end is the first line. -/
theorem hardLines_append_cons {c : α} {body : List α} (hbody : ∀ x ∈ body, isNewline x = false)
    (h : isNewline c = true) :
    hardLines isNewline (body ++ c :: cs) = body :: hardLines isNewline cs := by
  induction body with
  | nil => exact hardLines_cons_newline h
  | cons x body ih =>
    rw [List.forall_mem_cons] at hbody
    exact hardLines_cons hbody.1 (ih hbody.2)

/-- The lines have the characters that do not end lines. -/
theorem mem_hardLines_iff {x : α} :
    (∃ line ∈ hardLines isNewline cs, x ∈ line) ↔ x ∈ cs ∧ isNewline x = false := by
  induction cs with
  | nil => simp [hardLines]
  | cons c cs ih =>
    obtain ⟨line, lines, hlines⟩ := List.exists_cons_of_ne_nil (hardLines_ne_nil isNewline cs)
    cases h : isNewline c with
    | true =>
      rw [hardLines_cons_newline h, List.exists_mem_cons_iff, ih, List.mem_cons, or_and_right]
      refine or_congr_left (iff_of_false List.not_mem_nil ?_)
      rintro ⟨rfl, hx⟩
      rw [h] at hx
      exact Bool.true_eq_false.mp hx
    | false =>
      rw [hlines, List.exists_mem_cons_iff] at ih
      rw [hardLines_cons h hlines, List.exists_mem_cons_iff, List.mem_cons, or_assoc, ih,
        List.mem_cons, or_and_right]
      refine or_congr_left ⟨fun hx => ⟨hx, hx ▸ h⟩, And.left⟩

end HardLines

/-- A text of whole lines, which take so many columns. -/
def Prints (out : Str) (widths : List ℤ) : Prop :=
  ∃ bodies, out = bodies.flatMap (· ++ [kNewline]) ∧ List.Forall₂ Shows bodies widths

namespace Prints

variable {out out' : Str} {widths widths' : List ℤ}

theorem nil : Prints [] [] := ⟨[], rfl, .nil⟩

theorem line {body : Str} {k : ℤ} (h : Shows body k) : Prints (body ++ [kNewline]) [k] :=
  ⟨[body], by simp, .cons h .nil⟩

theorem append (h : Prints out widths) (h' : Prints out' widths') :
    Prints (out ++ out') (widths ++ widths') := by
  obtain ⟨bodies, rfl, hbodies⟩ := h
  obtain ⟨bodies', rfl, hbodies'⟩ := h'
  exact ⟨bodies ++ bodies', List.flatMap_append.symm, List.rel_append hbodies hbodies'⟩

theorem map_displayWidth (h : Prints out widths) : (outputLines out).map displayWidth = widths := by
  obtain ⟨bodies, rfl, hbodies⟩ := h
  induction hbodies with
  | nil => rfl
  | @cons body k bodies widths hbody _ ih =>
    have hlines : hardLines (· == kNewline) (body ++ kNewline :: bodies.flatMap (· ++ [kNewline])) =
        body :: hardLines (· == kNewline) (bodies.flatMap (· ++ [kNewline])) :=
      hardLines_append_cons (fun x hx => beq_eq_false_iff_ne.2 fun heq =>
        hbody.newline_notMem (heq ▸ hx)) rfl
    rw [outputLines, List.flatMap_cons, List.append_assoc, List.singleton_append, hlines,
      List.dropLast_cons_of_ne_nil (hardLines_ne_nil _ _), List.map_cons, hbody.displayWidth_eq]
    exact congrArg (k :: ·) ih

/-- All lines of the text take `k` columns. -/
theorem forall_displayWidth_iff {k : ℤ} (h : Prints out widths) :
    (∀ line ∈ outputLines out, displayWidth line = k) ↔ ∀ w ∈ widths, w = k := by
  rw [← h.map_displayWidth, List.forall_mem_map]

end Prints

/-! ### Glyphs and styles -/

/-- The glyphs of a table are characters of three bytes. -/
theorem shows_glyph {b c : UInt8} (hb : 0x80 ≤ b ∧ b < 0xC0) (hc : 0x80 ≤ c ∧ c < 0xC0) :
    Shows [0xE2, b, c] 1 where
  newline_notMem := by
    have hne : ∀ d : UInt8, 0x80 ≤ d ∧ d < 0xC0 → kNewline ≠ d := by
      rintro d hd rfl
      exact absurd hd.1 (by decide)
    simp only [List.mem_cons, hne b hb, hne c hc, List.not_mem_nil, or_false]
    decide
  foldl_advance column := by
    have hcont : ∀ (d : UInt8) (column : ℤ), 0x80 ≤ d ∧ d < 0xC0 →
        Cursor.advance ⟨false, column⟩ d = ⟨false, column⟩ := by
      intro d column hd
      have hesc : d ≠ 0x1B := by
        rintro rfl
        exact absurd hd.1 (by decide)
      rw [Cursor.advance, if_neg Bool.false_ne_true, if_neg hesc, if_pos hd]
    rw [List.foldl_cons, List.foldl_cons, List.foldl_cons, List.foldl_nil]
    have hlead : Cursor.advance ⟨false, column⟩ 0xE2 = ⟨false, column + 1⟩ := rfl
    rw [hlead, hcont b _ hb, hcont c _ hc]

theorem shows_kHorizontal : Shows kHorizontal 1 := shows_glyph (by decide) (by decide)

theorem shows_kVertical : Shows kVertical 1 := shows_glyph (by decide) (by decide)

theorem shows_kEllipsis : Shows kEllipsis 1 := shows_glyph (by decide) (by decide)

theorem shows_kCyanOn : Shows kCyanOn 0 :=
  ⟨by decide, fun column => by simp [kCyanOn, Cursor.advance]⟩

theorem shows_kReset : Shows kReset 0 :=
  ⟨by decide, fun column => by simp [kReset, Cursor.advance]⟩

theorem shows_spaces (n : ℕ) : Shows (List.replicate n kSpace) n := by
  have hall : ∀ b ∈ List.replicate n kSpace, 0x20 ≤ b ∧ b ≤ 0x7E := fun b hb =>
    List.eq_of_mem_replicate hb ▸ (by decide)
  simpa using Shows.of_visible hall

theorem shows_space : Shows [kSpace] 1 := shows_spaces 1

/-! ### Borders -/

theorem shows_intersperse {cross : Str} (hcross : Shows cross 1) (w : ℤ) (ws : List ℤ) :
    Shows ((((w :: ws).map fun w => (List.replicate w.toNat kHorizontal).flatten).intersperse
      cross).flatten) (((w :: ws).map fun w => max w 0).sum + ws.length) := by
  have hpart : ∀ w : ℤ, Shows (List.replicate w.toNat kHorizontal).flatten (max w 0) := fun w => by
    have h := shows_kHorizontal.replicate w.toNat
    rwa [mul_one, Int.toNat_eq_max] at h
  induction ws generalizing w with
  | nil => simpa using hpart w
  | cons w' ws ih =>
    have hsplit : ((w :: w' :: ws).map fun w => max w 0).sum + ((w' :: ws).length : ℤ) =
        max w 0 + (1 + (((w' :: ws).map fun w => max w 0).sum + (ws.length : ℤ))) := by
      rw [List.map_cons, List.sum_cons, List.length_cons]
      push_cast
      ring
    rw [hsplit]
    exact (hpart w).append (hcross.append (ih w'))

/-- A border takes the widths that are not negative, and one column for each line of the box. -/
theorem prints_border {left cross right : Str} (hleft : Shows left 1) (hcross : Shows cross 1)
    (hright : Shows right 1) {widths : List ℤ} (hne : widths ≠ []) :
    Prints (border widths left cross right)
      [(widths.map fun w => max w 0).sum + widths.length + 1] := by
  obtain ⟨w, ws, rfl⟩ := List.exists_cons_of_ne_nil hne
  have hline := ((hleft.append (shows_intersperse hcross w ws)).append hright)
  have hsplit : ((w :: ws).map fun w => max w 0).sum + ((w :: ws).length : ℤ) + 1 =
      1 + (((w :: ws).map fun w => max w 0).sum + (ws.length : ℤ)) + 1 := by
    rw [List.length_cons]
    push_cast
    ring
  rw [hsplit]
  exact .line hline

/-! ### Lines of a cell -/

/-- A printable character, which takes a column. -/
def Visible (b : UInt8) : Prop := 0x20 ≤ b ∧ b ≤ 0x7E

instance (b : UInt8) : Decidable (Visible b) := inferInstanceAs (Decidable (0x20 ≤ b ∧ b ≤ 0x7E))

theorem shows_emitRuns {runs : List Run} (color : Bool)
    (h : ∀ run ∈ runs, ∀ b ∈ run.text, Visible b) :
    Shows (emitRuns runs color) (runs.flatMap Run.text).length := by
  induction runs with
  | nil => exact Shows.nil
  | cons run runs ih =>
    rw [List.forall_mem_cons] at h
    have htext := Shows.of_visible h.1
    rw [List.flatMap_cons, List.length_append, Nat.cast_add]
    refine Shows.append ?_ (ih h.2)
    beta_reduce
    split_ifs
    · simpa using (shows_kCyanOn.append htext).append shows_kReset
    · exact htext

theorem emitRuns_append (runs runs' : List Run) (color : Bool) :
    emitRuns (runs ++ runs') color = emitRuns runs color ++ emitRuns runs' color :=
  List.flatMap_append

theorem emitRuns_plain (text : Str) (color : Bool) : emitRuns [⟨text, .kNone⟩] color = text := by
  simp [emitRuns]

/-- Runs are made of the characters in turn. -/
theorem flatMap_text_runsFrom (xs : List (UInt8 × Style)) :
    (runsFrom xs).flatMap Run.text = xs.map Prod.fst := by
  induction xs with
  | nil => rfl
  | cons x xs ih =>
    obtain ⟨c, style⟩ := x
    rw [runsFrom, List.map_cons, ← ih]
    cases runsFrom xs with
    | nil => rfl
    | cons run runs =>
      simp only
      split_ifs <;> rfl

theorem shows_runsFrom {xs : List (UInt8 × Style)} (color : Bool) (h : ∀ x ∈ xs, Visible x.1) :
    Shows (emitRuns (runsFrom xs) color) xs.length := by
  have htext := flatMap_text_runsFrom xs
  have hvisible : ∀ run ∈ runsFrom xs, ∀ b ∈ run.text, Visible b := by
    intro run hrun b hb
    have hmem : b ∈ xs.map Prod.fst := htext ▸ List.mem_flatMap.2 ⟨run, hrun, hb⟩
    obtain ⟨x, hx, rfl⟩ := List.mem_map.1 hmem
    exact h x hx
  have hshows := shows_emitRuns color hvisible
  rwa [htext, List.length_map] at hshows

/-- What is left of a piece without the blanks at its end. -/
def stripped (piece : List (UInt8 × Style)) : List (UInt8 × Style) :=
  piece.rdropWhile fun c => isSpace c.1

/-- The columns that a piece takes in a column of `width`: an ellipsis is put in any case. -/
def pieceWidth (width : ℤ) (piece : List (UInt8 × Style)) : ℤ :=
  if (stripped piece).length > width then max 1 width else width

theorem le_pieceWidth (width : ℤ) (piece : List (UInt8 × Style)) :
    width ≤ pieceWidth width piece := by
  rw [pieceWidth]
  split_ifs
  exacts [le_max_right 1 width, le_rfl]

/-- A piece takes its width where there is room for a character, or no width and nothing to show. -/
theorem pieceWidth_eq_iff {width : ℤ} {piece : List (UInt8 × Style)} :
    pieceWidth width piece = width ↔ 1 ≤ width ∨ width = 0 ∧ stripped piece = [] := by
  have hlength : (stripped piece = []) ↔ (stripped piece).length = 0 := List.length_eq_zero_iff.symm
  rw [pieceWidth, hlength]
  split_ifs <;> omega

/-- A line that is cut off with an ellipsis or filled up with blanks. -/
theorem shows_fitted {line : List (UInt8 × Style)} (width : ℤ) (color : Bool)
    (h : ∀ x ∈ line, Visible x.1) :
    Shows (emitRuns (if line.length > width then
        runsFrom (line.take (max 0 (width - 1)).toNat) ++ [⟨kEllipsis, .kNone⟩]
      else if width - line.length > 0 then
        runsFrom line ++ [⟨List.replicate (width - line.length).toNat kSpace, .kNone⟩]
      else runsFrom line) color) (if line.length > width then max 1 width else width) := by
  split_ifs with hlong hshort
  · -- the ellipsis has the last column
    have hkeep := shows_runsFrom color
      fun x (hx : x ∈ line.take (max 0 (width - 1)).toNat) => h x (List.mem_of_mem_take hx)
    have hlength : ((line.take (max 0 (width - 1)).toNat).length : ℤ) + 1 = max 1 width := by
      rw [List.length_take]
      omega
    rw [emitRuns_append, emitRuns_plain, ← hlength]
    exact hkeep.append shows_kEllipsis
  · have hlength : (line.length : ℤ) + ((width - line.length).toNat : ℤ) = width := by omega
    have hpadded := (shows_runsFrom color h).append (shows_spaces (width - line.length).toNat)
    rwa [hlength, ← emitRuns_plain (List.replicate _ kSpace) color, ← emitRuns_append] at hpadded
  · have hfull : (line.length : ℤ) = width := by omega
    exact hfull ▸ shows_runsFrom color h

theorem shows_makeLine {piece : List (UInt8 × Style)} (width : ℤ) (color : Bool)
    (h : ∀ x ∈ piece, Visible x.1) :
    Shows (emitRuns (makeLine piece width) color) (pieceWidth width piece) :=
  shows_fitted width color fun x hx => h x ((List.rdropWhile_prefix _ piece).mem hx)

/-! ### Pieces of a cell -/

/-- A text of blanks. -/
def Blank (text : Str) : Prop := ∀ b ∈ text, isSpace b = true

instance (text : Str) : Decidable (Blank text) :=
  inferInstanceAs (Decidable (∀ b ∈ text, isSpace b = true))

theorem map_fst_cellStyled (cell : Cell) : (cellStyled cell).map Prod.fst = cellPlain cell := by
  rw [cellStyled, cellPlain, List.map_flatMap]
  exact List.flatMap_congr fun run _ => by rw [List.map_map]; exact List.map_id run.text

theorem pieces_ne_nil {α : Type} (line : List α) (prev : ℕ) (offsets : List ℕ) :
    pieces line prev offsets ≠ [] := by
  cases offsets <;> exact List.cons_ne_nil _ _

theorem mem_of_mem_pieces {α : Type} {line piece : List α} {prev : ℕ} {offsets : List ℕ} {x : α}
    (hpiece : piece ∈ pieces line prev offsets) (hx : x ∈ piece) : x ∈ line := by
  induction offsets generalizing prev with
  | nil =>
    rw [pieces, List.mem_singleton] at hpiece
    exact List.mem_of_mem_drop (hpiece ▸ hx)
  | cons off offsets ih =>
    rcases List.mem_cons.1 hpiece with rfl | hpiece
    · exact List.mem_of_mem_take (List.mem_of_mem_drop hx)
    · exact ih hpiece

/-- Wherever a line is cut, a character behind the last cut is in one of the next pieces. -/
theorem exists_mem_pieces {α : Type} {cs : List α} {prev i : ℕ} (offsets : List ℕ) {x : α}
    (hi : cs[i]? = some x) (hprev : prev ≤ i) :
    ∃ piece ∈ pieces cs prev offsets, x ∈ piece := by
  induction offsets generalizing prev with
  | nil =>
    refine ⟨cs.drop prev, List.mem_singleton_self _, ?_⟩
    exact List.mem_of_getElem? (i := i - prev)
      (by rwa [List.getElem?_drop, Nat.add_sub_of_le hprev])
  | cons off offsets ih =>
    rcases lt_or_ge i off with hlt | hge
    · refine ⟨_, List.mem_cons_self, List.mem_of_getElem? (i := i - prev) ?_⟩
      rwa [List.getElem?_drop, Nat.add_sub_of_le hprev, List.getElem?_take_of_lt hlt]
    · obtain ⟨piece, hpiece, hx⟩ := ih hge
      exact ⟨piece, List.mem_cons_of_mem _ hpiece, hx⟩

theorem exists_mem_pieces_iff {α : Type} {line : List α} {offsets : List ℕ} {x : α} :
    (∃ piece ∈ pieces line 0 offsets, x ∈ piece) ↔ x ∈ line := by
  constructor
  · rintro ⟨piece, hpiece, hx⟩
    exact mem_of_mem_pieces hpiece hx
  · intro hx
    obtain ⟨i, hi⟩ := List.mem_iff_getElem?.1 hx
    exact exists_mem_pieces offsets hi (Nat.zero_le i)

theorem cellPieces_ne_nil (cell : Cell) (width : ℤ) : cellPieces cell width ≠ [] := by
  obtain ⟨line, lines, hlines⟩ :=
    List.exists_cons_of_ne_nil (hardLines_ne_nil (·.1 == kNewline) (cellStyled cell))
  rw [cellPieces, hlines, List.flatMap_cons]
  exact List.append_ne_nil_of_left_ne_nil (pieces_ne_nil _ _ _) _

/-- The pieces of a cell have its characters but for the line ends. -/
theorem exists_mem_cellPieces_iff {cell : Cell} {width : ℤ} {x : UInt8 × Style} :
    (∃ piece ∈ cellPieces cell width, x ∈ piece) ↔ x ∈ cellStyled cell ∧ x.1 ≠ kNewline := by
  have hlines : (∃ line ∈ hardLines (·.1 == kNewline) (cellStyled cell), x ∈ line) ↔
      x ∈ cellStyled cell ∧ x.1 ≠ kNewline := by
    rw [mem_hardLines_iff, beq_eq_false_iff_ne]
  rw [← hlines]
  constructor
  · rintro ⟨piece, hpiece, hx⟩
    obtain ⟨line, hline, hpiece⟩ := List.mem_flatMap.1 hpiece
    exact ⟨line, hline, exists_mem_pieces_iff.1 ⟨piece, hpiece, hx⟩⟩
  · rintro ⟨line, hline, hx⟩
    obtain ⟨piece, hpiece, hx⟩ := exists_mem_pieces_iff.2 hx
    exact ⟨piece, List.mem_flatMap.2 ⟨line, hline, hpiece⟩, hx⟩

/-- Nothing of the pieces is shown exactly when the cell is blank. -/
theorem forall_stripped_eq_nil_iff {cell : Cell} (width : ℤ) :
    (∀ piece ∈ cellPieces cell width, stripped piece = []) ↔ Blank (cellPlain cell) := by
  simp only [stripped, List.rdropWhile_eq_nil_iff]
  constructor
  · intro hall b hb
    rw [← map_fst_cellStyled] at hb
    obtain ⟨x, hx, rfl⟩ := List.mem_map.1 hb
    by_cases hnewline : x.1 = kNewline
    · rw [hnewline]
      rfl
    · obtain ⟨piece, hpiece, hx⟩ := exists_mem_cellPieces_iff.2 ⟨hx, hnewline⟩
      exact hall piece hpiece x hx
  · intro hblank piece hpiece x hx
    have hmem := (exists_mem_cellPieces_iff.1 ⟨piece, hpiece, hx⟩).1
    exact hblank x.1 (map_fst_cellStyled cell ▸ List.mem_map_of_mem hmem)

/-! ### Where a line is cut -/

/-- What comes behind the first word is shorter than the text. -/
theorem length_behind_word_lt {s : Str} (h : s.dropWhile isSpace ≠ []) :
    (((s.dropWhile isSpace).dropWhile (!isSpace ·)).dropWhile isSpace).length < s.length := by
  have hhead := List.head_dropWhile_not isSpace h
  obtain ⟨c, rest, hrest⟩ := List.exists_cons_of_ne_nil h
  have hlen := (List.dropWhile_sublist isSpace (l := s)).length_le
  simp only [hrest, List.head_cons] at hhead
  rw [hrest] at hlen ⊢
  rw [List.dropWhile_cons_of_pos (by rw [hhead]; rfl)]
  have hnext := (List.dropWhile_sublist isSpace (l := rest.dropWhile (!isSpace ·))).length_le
  have hbehind := (List.dropWhile_sublist (!isSpace ·) (l := rest)).length_le
  rw [List.length_cons] at hlen
  omega

/-- As many turns as there are characters are enough for all words. -/
theorem wordsFrom_succ {turns : ℕ} (start : ℕ) {s : Str} (h : s.length ≤ turns) :
    wordsFrom (turns + 1) start s = wordsFrom turns start s := by
  induction turns generalizing start s with
  | zero =>
    rw [List.length_eq_zero_iff.1 (Nat.le_zero.1 h)]
    rfl
  | succ turns ih =>
    rw [wordsFrom, wordsFrom]
    by_cases hrest : s.dropWhile isSpace = []
    · simp only [if_pos hrest]
    · have hlt := length_behind_word_lt hrest
      simp only [if_neg hrest]
      rw [ih _ (by omega)]

/-- The words begin one after the other. -/
theorem wordsFrom_start (turns start : ℕ) (s : Str) :
    ((wordsFrom turns start s).map Word.start).Pairwise (· < ·) ∧
      ∀ w ∈ wordsFrom turns start s, start ≤ w.start ∧ w.start < start + s.length := by
  induction turns generalizing start s with
  | zero => exact ⟨.nil, fun _ hw => absurd hw List.not_mem_nil⟩
  | succ turns ih =>
    rw [wordsFrom]
    by_cases hrest : s.dropWhile isSpace = []
    · simp only [if_pos hrest]
      exact ⟨.nil, fun _ hw => absurd hw List.not_mem_nil⟩
    · have hlt := length_behind_word_lt hrest
      simp only [if_neg hrest]
      generalize ((s.dropWhile isSpace).dropWhile (!isSpace ·)).dropWhile isSpace = next at hlt ⊢
      obtain ⟨hpairwise, hall⟩ := ih (start + (s.length - next.length)) next
      rw [List.map_cons, List.pairwise_cons, List.forall_mem_map, List.forall_mem_cons]
      refine ⟨⟨fun w hw => ?_, hpairwise⟩, ⟨le_rfl, Nat.lt_add_of_pos_right (by omega)⟩,
        fun w hw => ?_⟩
      · have := (hall w hw).1
        simp only
        omega
      · have := hall w hw
        omega

/-- A line is cut in front of words. -/
theorem divideWords_sublist (width cellOffset : ℤ) (ws : List Word) :
    (divideWords width cellOffset ws).Sublist (ws.map Word.start) := by
  induction ws generalizing cellOffset with
  | nil => exact .refl _
  | cons w ws ih =>
    simp only [divideWords, List.map_cons]
    split_ifs
    · exact (ih _).cons _
    · exact (ih _).cons_cons _
    · exact (ih _).cons _
    · exact (ih _).cons_cons _
    · exact (ih _).cons _

theorem flatten_pieces {α : Type} {line : List α} {prev : ℕ} {offsets : List ℕ}
    (h : (prev :: offsets).Pairwise (· ≤ ·)) :
    (pieces line prev offsets).flatten = line.drop prev := by
  induction offsets generalizing prev with
  | nil => rw [pieces, List.flatten_singleton]
  | cons off offsets ih =>
    rw [List.pairwise_cons, List.forall_mem_cons] at h
    have hsplit : line.drop off = (line.drop prev).drop (off - prev) := by
      rw [List.drop_drop, Nat.add_sub_of_le h.1.1]
    rw [pieces, List.flatten_cons, ih h.2, List.drop_take, hsplit, List.take_append_drop]

/-- **Wrapping keeps a line:** the pieces put together are the line again. -/
theorem flatten_pieces_divideLine {α : Type} (line : List α) (text : Str) (width : ℤ) :
    (pieces line 0 (divideLine text width)).flatten = line := by
  have hsub := divideWords_sublist width 0 (words text)
  have hstarts := (wordsFrom_start text.length 0 text).1.sublist hsub
  refine (flatten_pieces (List.pairwise_cons.2 ⟨fun _ _ => Nat.zero_le _, ?_⟩)).trans List.drop_zero
  exact hstarts.imp Nat.le_of_lt

/-! ### Rows -/

section MapM

variable {α β : Type} {f : α → Option β} {xs : List α}

theorem mapM_eq_some_iff {ys : List β} :
    xs.mapM f = some ys ↔ List.Forall₂ (fun x y => f x = some y) xs ys := by
  induction xs generalizing ys with
  | nil => cases ys <;> simp
  | cons x xs ih =>
    rw [List.mapM_cons, Option.bind_eq_bind, Option.bind_eq_some_iff]
    constructor
    · rintro ⟨y, hy, hys⟩
      obtain ⟨ys', hys', heq⟩ := Option.bind_eq_some_iff.1 hys
      cases heq
      exact .cons hy (ih.1 hys')
    · rintro ⟨⟩
      rename_i y ys hy hys
      exact ⟨y, hy, Option.bind_eq_some_iff.2 ⟨ys, ih.2 hys, rfl⟩⟩

theorem exists_mapM_eq_some (h : ∀ x ∈ xs, ∃ y, f x = some y) : ∃ ys, xs.mapM f = some ys := by
  induction xs with
  | nil => exact ⟨[], rfl⟩
  | cons x xs ih =>
    rw [List.forall_mem_cons] at h
    obtain ⟨y, hy⟩ := h.1
    obtain ⟨ys, hys⟩ := ih h.2
    exact ⟨y :: ys, mapM_eq_some_iff.2 (.cons hy (mapM_eq_some_iff.1 hys))⟩

end MapM

/-- A character of a cell: printable ASCII or a line end. -/
def Printable (b : UInt8) : Prop := b = kNewline ∨ Visible b

instance (b : UInt8) : Decidable (Printable b) :=
  inferInstanceAs (Decidable (b = kNewline ∨ Visible b))

/-- What a cell has on a line of its row. -/
def cellBody (color : Bool) (ln : ℕ) (x : Cell × ℤ) : Option Str :=
  match (cellPieces x.1 (x.2 - kCellPadding))[ln]? with
  | some piece => some (emitRuns (makeLine piece (x.2 - kCellPadding)) color)
  | none => blanks (x.2 - kCellPadding)

/-- The columns that it takes. -/
def bodyWidth (ln : ℕ) (x : Cell × ℤ) : ℤ :=
  match (cellPieces x.1 (x.2 - kCellPadding))[ln]? with
  | some piece => pieceWidth (x.2 - kCellPadding) piece
  | none => x.2 - kCellPadding

/-- The columns that a line of a row takes. -/
def rowWidth (ln : ℕ) (row : List (Cell × ℤ)) : ℤ := (row.map fun x => bodyWidth ln x + 3).sum + 1

theorem le_bodyWidth (ln : ℕ) (x : Cell × ℤ) : x.2 - kCellPadding ≤ bodyWidth ln x := by
  rw [bodyWidth]
  split
  exacts [le_pieceWidth _ _, le_rfl]

theorem shows_cellBody {color : Bool} {ln : ℕ} {x : Cell × ℤ} {body : Str}
    (hx : ∀ b ∈ cellPlain x.1, Printable b) (h : cellBody color ln x = some body) :
    Shows body (bodyWidth ln x) := by
  rw [cellBody] at h
  rw [bodyWidth]
  split at h
  · rename_i piece hpiece
    obtain rfl := Option.some.inj h
    refine shows_makeLine _ color fun c hc => ?_
    obtain ⟨hmem, hnewline⟩ :=
      exists_mem_cellPieces_iff.1 ⟨piece, List.mem_of_getElem? hpiece, hc⟩
    have hplain : c.1 ∈ cellPlain x.1 := map_fst_cellStyled x.1 ▸ List.mem_map_of_mem hmem
    exact (hx c.1 hplain).resolve_left hnewline
  · rw [blanks] at h
    split_ifs at h with hneg
    obtain rfl := Option.some.inj h
    have hcast : ((x.2 - kCellPadding).toNat : ℤ) = x.2 - kCellPadding :=
      Int.toNat_of_nonneg (by omega)
    exact hcast ▸ shows_spaces _

theorem rowLine_eq (color : Bool) (ln : ℕ) (row : List (Cell × ℤ)) :
    rowLine color ln (row.map fun (cell, w) => (wrapCell cell (w - kCellPadding), w)) =
      (row.mapM (cellBody color ln)).map fun bodies =>
        kVertical ++ (bodies.flatMap fun body => [kSpace] ++ body ++ [kSpace] ++ kVertical) ++
          [kNewline] := by
  have hbody (body : Cell × ℤ → Option Str) (heq : ∀ x, body x = cellBody color ln x) :
      row.mapM body = row.mapM (cellBody color ln) := by
    rw [funext heq]
  rw [rowLine, List.mapM_map, Option.map_eq_bind]
  refine congrArg (· >>= _) (hbody _ fun x => ?_)
  simp only [Function.comp_apply, wrapCell, cellBody, List.getElem?_map]
  cases (cellPieces x.1 (x.2 - kCellPadding))[ln]? <;> rfl

theorem prints_rowLine {color : Bool} {ln : ℕ} {row : List (Cell × ℤ)} {line : Str}
    (hrow : ∀ x ∈ row, ∀ b ∈ cellPlain x.1, Printable b)
    (h : rowLine color ln (row.map fun (cell, w) => (wrapCell cell (w - kCellPadding), w)) =
      some line) : Prints line [rowWidth ln row] := by
  rw [rowLine_eq, Option.map_eq_some_iff] at h
  obtain ⟨bodies, hbodies, rfl⟩ := h
  rw [mapM_eq_some_iff] at hbodies
  have hcells : Shows (bodies.flatMap fun body => [kSpace] ++ body ++ [kSpace] ++ kVertical)
      (row.map fun x => bodyWidth ln x + 3).sum := by
    induction hbodies with
    | nil => exact Shows.nil
    | @cons x body row bodies hbody _ ih =>
      rw [List.forall_mem_cons] at hrow
      rw [List.flatMap_cons, List.map_cons, List.sum_cons]
      have hcell := ((shows_space.append (shows_cellBody hrow.1 hbody)).append
        shows_space).append shows_kVertical
      have hsplit : 1 + bodyWidth ln x + 1 + 1 = bodyWidth ln x + 3 := by ring
      exact (hsplit ▸ hcell).append (ih hrow.2)
  rw [rowWidth, add_comm]
  exact .line (shows_kVertical.append hcells)

theorem Prints.flatten {α : Type} {f : α → ℤ} {xs : List α} {outs : List Str}
    (h : List.Forall₂ (fun x out => Prints out [f x]) xs outs) :
    Prints outs.flatten (xs.map f) := by
  induction h with
  | nil => exact Prints.nil
  | cons hout _ ih => exact hout.append ih

/-- The number of lines of a row. -/
def rowHeight (row : List (Cell × ℤ)) : ℕ :=
  row.foldl (fun height x => max height (cellPieces x.1 (x.2 - kCellPadding)).length) 1

theorem length_cellPieces_le {row : List (Cell × ℤ)} {x : Cell × ℤ} (hx : x ∈ row) :
    (cellPieces x.1 (x.2 - kCellPadding)).length ≤ rowHeight row := by
  have h := (foldl_max_spec (row.map fun x => (cellPieces x.1 (x.2 - kCellPadding)).length) 1).2.1
  rw [List.foldl_map, List.forall_mem_map] at h
  exact h x hx

theorem emitRow_eq (cells : List Cell) (widths : List ℤ) (color : Bool) :
    emitRow cells widths color =
      ((List.range (rowHeight (cells.zip widths))).mapM fun ln => rowLine color ln
        ((cells.zip widths).map fun (cell, w) => (wrapCell cell (w - kCellPadding), w))).map
          List.flatten := by
  have hheight : ((cells.zip widths).map fun (cell, w) =>
      (wrapCell cell (w - kCellPadding), w)).foldl (fun height col => max height col.1.length) 1 =
        rowHeight (cells.zip widths) := by
    rw [List.foldl_map, rowHeight]
    simp only [wrapCell, List.length_map]
  simp only [emitRow, hheight, Option.map_eq_bind]
  rfl

theorem prints_emitRow {cells : List Cell} {widths : List ℤ} {color : Bool} {out : Str}
    (hcells : ∀ cell ∈ cells, ∀ b ∈ cellPlain cell, Printable b)
    (h : emitRow cells widths color = some out) :
    Prints out ((List.range (rowHeight (cells.zip widths))).map
      (rowWidth · (cells.zip widths))) := by
  rw [emitRow_eq, Option.map_eq_some_iff] at h
  obtain ⟨lines, hlines, rfl⟩ := h
  refine Prints.flatten ((mapM_eq_some_iff.1 hlines).imp fun ln line hline => ?_)
  exact prints_rowLine (fun x hx => hcells x.1 (List.of_mem_zip hx).1) hline

/-- What a line of the box takes with columns of these widths. -/
def boxWidth (widths : List ℤ) : ℤ := widths.sum + widths.length + 1

/-- A cell of a column that has room for a character, or of two columns with nothing to show. -/
def Fits (cell : Cell) (w : ℤ) : Prop := 3 ≤ w ∨ w = 2 ∧ Blank (cellPlain cell)

theorem sum_zip_eq_boxWidth {cells : List Cell} {widths : List ℤ}
    (hlen : cells.length = widths.length) :
    ((cells.zip widths).map fun x => x.2 - kCellPadding + 3).sum + 1 = boxWidth widths := by
  have hsum : ∀ ws : List ℤ, (ws.map fun w => w - kCellPadding + 3).sum = ws.sum + ws.length := by
    intro ws
    induction ws with
    | nil => rfl
    | cons w ws ih =>
      rw [List.map_cons, List.sum_cons, ih, List.sum_cons, List.length_cons, kCellPadding]
      push_cast
      ring
  have hzip : (cells.zip widths).map Prod.snd = widths := List.map_snd_zip hlen.ge
  rw [boxWidth, ← hsum]
  conv_rhs => rw [← hzip, List.map_map]
  rfl

/-- A line of a row is as wide as its columns exactly when each cell takes the width of its
column. -/
theorem rowWidth_eq_iff {ln : ℕ} {cells : List Cell} {widths : List ℤ}
    (hlen : cells.length = widths.length) :
    rowWidth ln (cells.zip widths) = boxWidth widths ↔
      ∀ x ∈ cells.zip widths, bodyWidth ln x = x.2 - kCellPadding := by
  rw [← sum_zip_eq_boxWidth hlen, rowWidth, add_left_inj]
  constructor
  · intro hsum x hx
    by_contra hne
    refine hsum.not_gt (List.sum_lt_sum _ _ (fun y _ => ?_) ⟨x, hx, ?_⟩)
    · exact Int.add_le_add_right (le_bodyWidth ln y) 3
    · exact Int.add_lt_add_right (lt_of_le_of_ne (le_bodyWidth ln x) (Ne.symm hne)) 3
  · intro hall
    exact congrArg List.sum (List.map_congr_left fun x hx => by rw [hall x hx])

theorem fits_of_forall_bodyWidth {x : Cell × ℤ}
    (h : ∀ ln < (cellPieces x.1 (x.2 - kCellPadding)).length, bodyWidth ln x = x.2 - kCellPadding) :
    Fits x.1 x.2 := by
  have hpieces : ∀ piece ∈ cellPieces x.1 (x.2 - kCellPadding),
      1 ≤ x.2 - kCellPadding ∨ x.2 - kCellPadding = 0 ∧ stripped piece = [] := by
    intro piece hpiece
    obtain ⟨ln, hln⟩ := List.mem_iff_getElem?.1 hpiece
    have hwidth := h ln (List.getElem?_eq_some_iff.1 hln).1
    rw [bodyWidth, hln] at hwidth
    exact pieceWidth_eq_iff.1 hwidth
  obtain ⟨piece, hpiece⟩ := List.exists_mem_of_ne_nil _ (cellPieces_ne_nil x.1 (x.2 - kCellPadding))
  rw [kCellPadding] at hpieces hpiece
  by_cases hroom : 3 ≤ x.2
  · exact .inl hroom
  · refine .inr ⟨?_, (forall_stripped_eq_nil_iff (x.2 - 2)).1 fun piece hpiece => ?_⟩
    · rcases hpieces piece hpiece with hpos | ⟨hzero, -⟩ <;> omega
    · exact ((hpieces piece hpiece).resolve_left (by omega)).2

theorem Fits.two_le {cell : Cell} {w : ℤ} (h : Fits cell w) : 2 ≤ w := by
  rcases h with h | ⟨h, -⟩ <;> omega

theorem Fits.bodyWidth_eq {x : Cell × ℤ} (h : Fits x.1 x.2) (ln : ℕ) :
    bodyWidth ln x = x.2 - kCellPadding := by
  rw [bodyWidth]
  split
  · rename_i piece hpiece
    refine pieceWidth_eq_iff.2 ?_
    rw [kCellPadding] at hpiece ⊢
    rcases h with hroom | ⟨htwo, hblank⟩
    · exact .inl (by omega)
    · exact .inr ⟨by omega,
        (forall_stripped_eq_nil_iff _).2 hblank piece (List.mem_of_getElem? hpiece)⟩
  · rfl

theorem Fits.exists_cellBody {x : Cell × ℤ} (h : Fits x.1 x.2) (color : Bool) (ln : ℕ) :
    ∃ body, cellBody color ln x = some body := by
  have htwo := h.two_le
  rw [cellBody]
  split
  · exact ⟨_, rfl⟩
  · rw [blanks, if_neg (by rw [kCellPadding]; omega)]
    exact ⟨_, rfl⟩

/-- All lines of a text have a width. -/
def Level (k : ℤ) (out : Str) : Prop := ∀ line ∈ outputLines out, displayWidth line = k

/-- **The rows that are as wide as their columns.** -/
theorem emitRow_level_iff {cells : List Cell} {widths : List ℤ} {color : Bool}
    (hlen : cells.length = widths.length)
    (hcells : ∀ cell ∈ cells, ∀ b ∈ cellPlain cell, Printable b) :
    (∃ out, emitRow cells widths color = some out ∧ Level (boxWidth widths) out) ↔
      ∀ x ∈ cells.zip widths, Fits x.1 x.2 := by
  constructor
  · rintro ⟨out, hout, hlevel⟩ x hx
    have hprints := prints_emitRow hcells hout
    rw [Level, hprints.forall_displayWidth_iff, List.forall_mem_map] at hlevel
    refine fits_of_forall_bodyWidth fun ln hln => ?_
    have hln' := List.mem_range.2 (hln.trans_le (length_cellPieces_le hx))
    exact (rowWidth_eq_iff hlen).1 (hlevel ln hln') x hx
  · intro hfits
    have hlines : ∀ ln ∈ List.range (rowHeight (cells.zip widths)), ∃ line, rowLine color ln
        ((cells.zip widths).map fun (cell, w) => (wrapCell cell (w - kCellPadding), w)) =
          some line := by
      intro ln _
      obtain ⟨bodies, hbodies⟩ :=
        exists_mapM_eq_some fun x hx => (hfits x hx).exists_cellBody color ln
      exact ⟨_, by rw [rowLine_eq, hbodies, Option.map_some]⟩
    obtain ⟨lines, hlines⟩ := exists_mapM_eq_some hlines
    have hout : emitRow cells widths color = some lines.flatten := by
      rw [emitRow_eq, hlines, Option.map_some]
    refine ⟨lines.flatten, hout, ?_⟩
    rw [Level, (prints_emitRow hcells hout).forall_displayWidth_iff, List.forall_mem_map]
    exact fun ln _ => (rowWidth_eq_iff hlen).2 fun x hx => (hfits x hx).bodyWidth_eq ln

/-! ### Tables -/

/-- A table of printable texts with a cell for each column. The labels of the columns are the cells
of the header row. -/
structure AsciiTable extends Table where
  one_cell_each : ∀ row ∈ rows, row.length = columns.length
  printable_header : ∀ column ∈ columns, ∀ b ∈ column.header, Printable b
  printable_cell : ∀ row ∈ rows, ∀ cell ∈ row, ∀ b ∈ cellPlain cell, Printable b

/-- The rows that are drawn: the labels and the rows of the table. -/
def drawnRows (table : Table) : List (List Cell) :=
  (if table.showHeader then [table.columns.map fun column => .ofText column.header] else []) ++
    table.rows

/-- The width of a table: the columns and the lines of the box. Without columns there is no box. -/
def tableWidth (widths : List ℤ) : ℤ := if widths = [] then 0 else boxWidth widths

/-- **A table is tidy** when its widths are found, it is drawn without an exception, all its lines
have the width that the columns make up, and that is not more than there is when there are three
columns for each column of the table. -/
def Tidy (table : Table) (availableWidth : ℤ) (color : Bool) : Prop :=
  ∃ widths out, computeColumnWidths table availableWidth = some widths ∧
    render table availableWidth color = some out ∧ Level (tableWidth widths) out ∧
      (3 * table.columns.length ≤ budget table availableWidth →
        tableWidth widths ≤ availableWidth)

/-- Column `c` has nothing to show. -/
def ColumnBlank (table : Table) (c : ℕ) : Prop :=
  (table.showHeader → ∀ column, table.columns[c]? = some column → Blank column.header) ∧
    ∀ row ∈ table.rows, Blank (cellPlain (row.getD c {}))

/-- **The columns of a table have room:** for a character each, or two columns each with nothing to
show in those that are left with two. A box with no rows only has to have columns that are not
negative. -/
def HasRoom (table : Table) (availableWidth : ℤ) : Prop :=
  table.columns = [] ∨
    (drawnRows table = [] ∧
      (0 ≤ budget table availableWidth ∨ table.minWidth ≤ extraWidth table)) ∨
    ((naturalWidths table).map (min · 3)).sum ≤ budget table availableWidth ∨
    (2 * table.columns.length ≤ budget table availableWidth ∧
      ∀ c, (squeezed (budget table availableWidth) (naturalWidths table))[c]? = some true →
        ColumnBlank table c)

/-- A text without lines that are longer than zero is of line ends. -/
theorem blank_of_longestLine_le {text : Str} (h : longestLine text ≤ 0) : Blank text := by
  intro b hb
  cases hnewline : b == kNewline with
  | true =>
    rw [eq_of_beq hnewline]
    rfl
  | false =>
    have hlines : ∃ line ∈ hardLines (· == kNewline) text, b ∈ line :=
      mem_hardLines_iff.2 ⟨hb, hnewline⟩
    obtain ⟨line, hline, hmem⟩ := hlines
    have hmax := (foldl_max_spec ((hardLines (· == kNewline) text).map cellLen) 0).2.1
    rw [List.foldl_map, List.forall_mem_map] at hmax
    have hlength := (hmax line hline).trans h
    have hpos := List.length_pos_of_mem hmem
    rw [cellLen] at hlength
    omega

theorem length_of_mem_drawnRows (table : AsciiTable) :
    ∀ row ∈ drawnRows table.toTable, row.length = table.columns.length := by
  intro row hrow
  rcases List.mem_append.1 hrow with hheader | hrow
  · split_ifs at hheader
    · rw [List.mem_singleton.1 hheader, List.length_map]
    · exact absurd hheader List.not_mem_nil
  · exact table.one_cell_each row hrow

theorem printable_of_mem_drawnRows (table : AsciiTable) :
    ∀ row ∈ drawnRows table.toTable, ∀ cell ∈ row, ∀ b ∈ cellPlain cell, Printable b := by
  intro row hrow cell hcell b hb
  rcases List.mem_append.1 hrow with hheader | hrow
  · split_ifs at hheader
    · rw [List.mem_singleton.1 hheader] at hcell
      obtain ⟨column, hcolumn, rfl⟩ := List.mem_map.1 hcell
      exact table.printable_header column hcolumn b (by simpa [cellPlain, Cell.ofText] using hb)
    · exact absurd hheader List.not_mem_nil
  · exact table.printable_cell row hrow cell hcell b hb

/-- A column that needs no room for a character has nothing to show. -/
theorem columnBlank_of_naturalWidth {table : Table} {c : ℕ}
    (h : (naturalWidths table)[c]? = some 2) : ColumnBlank table c := by
  obtain ⟨column, hcolumn, hwidth⟩ := Option.map_eq_some_iff.1 (List.getElem?_mapIdx ▸ h)
  obtain ⟨-, hheader, hrows⟩ := naturalWidth_spec table c column
  rw [hwidth] at hheader hrows
  refine ⟨fun hshow column' hcolumn' => ?_, fun row hrow => ?_⟩
  · obtain rfl := Option.some.inj (hcolumn'.symm.trans hcolumn)
    exact blank_of_longestLine_le (by have := hheader hshow; rw [kCellPadding] at this; omega)
  · exact blank_of_longestLine_le (by have := hrows row hrow; rw [kCellPadding] at this; omega)

theorem getD_eq_of_getElem? {row : List Cell} {c : ℕ} {cell : Cell} (h : row[c]? = some cell) :
    row.getD c {} = cell := by
  rw [List.getD_eq_getElem?_getD, h, Option.getD_some]

/-- A column has nothing to show when no drawn row has. -/
theorem columnBlank_iff (table : Table) {c : ℕ} (hc : c < table.columns.length) :
    ColumnBlank table c ↔ ∀ row ∈ drawnRows table, Blank (cellPlain (row.getD c {})) := by
  have hcolumn := List.getElem?_eq_getElem hc
  rw [ColumnBlank, drawnRows, List.forall_mem_append]
  refine and_congr_left fun _ => ?_
  cases table.showHeader with
  | false => simp
  | true => simp [hcolumn, cellPlain, Cell.ofText]

/-- The rows fit when the columns do. -/
theorem forall_fits_iff (table : AsciiTable) {widths : List ℤ}
    (hlen : widths.length = table.columns.length) (hne : drawnRows table.toTable ≠ []) :
    (∀ row ∈ drawnRows table.toTable, ∀ x ∈ row.zip widths, Fits x.1 x.2) ↔
      ∀ c w, widths[c]? = some w → 3 ≤ w ∨ w = 2 ∧ ColumnBlank table.toTable c := by
  constructor
  · intro hall c w hw
    have hc : c < table.columns.length := hlen ▸ (List.getElem?_eq_some_iff.1 hw).1
    have hrow : ∀ row ∈ drawnRows table.toTable, Fits (row.getD c {}) w := by
      intro row hrow
      have hlt : c < row.length := length_of_mem_drawnRows table row hrow ▸ hc
      have hcell := List.getElem?_eq_getElem hlt
      have hzip : (row.zip widths)[c]? = some (row[c], w) :=
        List.getElem?_zip_eq_some.2 ⟨hcell, hw⟩
      have hmem := List.mem_of_getElem? hzip
      exact getD_eq_of_getElem? hcell ▸ hall row hrow _ hmem
    by_cases hroom : 3 ≤ w
    · exact .inl hroom
    · obtain ⟨row, hmem⟩ := List.exists_mem_of_ne_nil _ hne
      refine .inr ⟨((hrow row hmem).resolve_left hroom).1, (columnBlank_iff _ hc).2 ?_⟩
      exact fun row hmem => ((hrow row hmem).resolve_left hroom).2
  · intro hall row hrow x hx
    obtain ⟨c, hc⟩ := List.mem_iff_getElem?.1 hx
    obtain ⟨hcell, hw⟩ := List.getElem?_zip_eq_some.1 hc
    have hlt : c < table.columns.length := hlen ▸ (List.getElem?_eq_some_iff.1 hw).1
    refine (hall c x.2 hw).imp_right fun h => ⟨h.1, ?_⟩
    have hblank := (columnBlank_iff _ hlt).1 h.2 row hrow
    rwa [getD_eq_of_getElem? hcell] at hblank

/-! ### Drawing -/

/-- A text of whole lines. -/
def Whole (out : Str) : Prop := ∃ ks, Prints out ks

section Level

variable {k : ℤ} {out out' : Str}

theorem Whole.append (h : Whole out) (h' : Whole out') : Whole (out ++ out') := by
  obtain ⟨ks, h⟩ := h
  obtain ⟨ks', h'⟩ := h'
  exact ⟨ks ++ ks', h.append h'⟩

theorem level_append_iff (h : Whole out) (h' : Whole out') :
    Level k (out ++ out') ↔ Level k out ∧ Level k out' := by
  obtain ⟨ks, h⟩ := h
  obtain ⟨ks', h'⟩ := h'
  rw [Level, Level, Level, (h.append h').forall_displayWidth_iff, h.forall_displayWidth_iff,
    h'.forall_displayWidth_iff, List.forall_mem_append]

theorem whole_nil : Whole [] := ⟨[], Prints.nil⟩

theorem level_nil : Level k [] := fun _ hline => absurd hline List.not_mem_nil

theorem whole_flatten {α : Type} {f : α → Option Str} {xs : List α} {outs : List Str}
    (hwhole : ∀ x ∈ xs, ∀ out, f x = some out → Whole out)
    (h : List.Forall₂ (fun x out => f x = some out) xs outs) : Whole outs.flatten := by
  induction h with
  | nil => exact whole_nil
  | cons hout _ ih =>
    rw [List.forall_mem_cons] at hwhole
    exact (hwhole.1 _ hout).append (ih hwhole.2)

/-- Texts after one another have a width when each of them has. -/
theorem mapM_level_iff {α : Type} {f : α → Option Str} {xs : List α}
    (hwhole : ∀ x ∈ xs, ∀ out, f x = some out → Whole out) :
    (∃ outs, xs.mapM f = some outs ∧ Level k outs.flatten) ↔
      ∀ x ∈ xs, ∃ out, f x = some out ∧ Level k out := by
  simp only [mapM_eq_some_iff]
  induction xs with
  | nil => exact iff_of_true ⟨[], .nil, level_nil⟩ fun _ hx => absurd hx List.not_mem_nil
  | cons x xs ih =>
    rw [List.forall_mem_cons] at hwhole ⊢
    rw [← ih hwhole.2]
    constructor
    · rintro ⟨outs, houts, hlevel⟩
      cases houts with
      | @cons _ out _ outs hout houts =>
        rw [List.flatten_cons,
          level_append_iff (hwhole.1 out hout) (whole_flatten hwhole.2 houts)] at hlevel
        exact ⟨⟨out, hout, hlevel.1⟩, outs, houts, hlevel.2⟩
    · rintro ⟨⟨out, hout, hlevel⟩, outs, houts, hlevels⟩
      refine ⟨out :: outs, .cons hout houts, ?_⟩
      exact (level_append_iff (hwhole.1 out hout) (whole_flatten hwhole.2 houts)).2
        ⟨hlevel, hlevels⟩

end Level

/-- A border has the width of the box when no column is negative. -/
theorem level_border_iff {widths : List ℤ} {left cross right : Str} (hleft : Shows left 1)
    (hcross : Shows cross 1) (hright : Shows right 1) (hne : widths ≠ []) :
    Level (boxWidth widths) (border widths left cross right) ↔ ∀ w ∈ widths, 0 ≤ w := by
  rw [Level, (prints_border hleft hcross hright hne).forall_displayWidth_iff,
    List.forall_mem_singleton, boxWidth, add_left_inj, add_left_inj]
  constructor
  · intro hsum w hw
    by_contra hneg
    have hlt := List.sum_lt_sum (l := widths) id (fun w => max w 0) (fun w _ => le_max_left w 0)
      ⟨w, hw, by simpa using hneg⟩
    rw [List.map_id] at hlt
    exact hlt.ne' hsum
  · intro hall
    conv_rhs => rw [← List.map_id widths]
    exact congrArg List.sum (List.map_congr_left fun w hw => max_eq_left (hall w hw))

theorem whole_border {widths : List ℤ} {left cross right : Str} (hleft : Shows left 1)
    (hcross : Shows cross 1) (hright : Shows right 1) (hne : widths ≠ []) :
    Whole (border widths left cross right) :=
  ⟨_, prints_border hleft hcross hright hne⟩

section Render

variable {table : Table} {availableWidth : ℤ} {color : Bool} {widths : List ℤ}

/-- The row of the labels. -/
def headerCells (table : Table) : List Cell := table.columns.map fun column => .ofText column.header

theorem forall_mem_drawnRows {P : List Cell → Prop} :
    (∀ row ∈ drawnRows table, P row) ↔
      (table.showHeader → P (headerCells table)) ∧ ∀ row ∈ table.rows, P row := by
  rw [drawnRows, List.forall_mem_append]
  refine and_congr_left fun _ => ?_
  cases table.showHeader <;> simp [headerCells]

/-- The labels and the border below them. -/
def headerPart (table : Table) (widths : List ℤ) (color : Bool) : Option Str :=
  if table.showHeader then
    (emitRow (headerCells table) widths color).map
      (· ++ border widths kMidLeft kMidCross kMidRight)
  else some []

/-- What `render` puts together, once the widths are found. -/
theorem render_eq_some_iff {out : Str} (hne : table.columns ≠ [])
    (hwidths : computeColumnWidths table availableWidth = some widths) :
    render table availableWidth color = some out ↔ ∃ header rows,
      headerPart table widths color = some header ∧
      (table.rows.mapM fun row => emitRow row widths color) = some rows ∧
      border widths kTopLeft kTopCross kTopRight ++ header ++ rows.flatten ++
        border widths kBotLeft kBotCross kBotRight = out := by
  rw [render, if_neg hne, hwidths, Option.bind_eq_bind, Option.bind_some, headerPart, headerCells]
  cases table.showHeader <;> simp [Option.bind_eq_some_iff]

/-- The labels are as wide as the box, and so is the border below them, or there are none. -/
theorem headerPart_level_iff (hne : widths ≠ []) (hnonneg : ∀ w ∈ widths, 0 ≤ w)
    (hwhole : table.showHeader →
      ∀ out, emitRow (headerCells table) widths color = some out → Whole out) :
    (∃ header, headerPart table widths color = some header ∧ Level (boxWidth widths) header) ↔
      (table.showHeader → ∃ out, emitRow (headerCells table) widths color = some out ∧
        Level (boxWidth widths) out) := by
  have hborder : Whole (border widths kMidLeft kMidCross kMidRight) :=
    whole_border (shows_glyph (by decide) (by decide)) (shows_glyph (by decide) (by decide))
      (shows_glyph (by decide) (by decide)) hne
  have hlevel : Level (boxWidth widths) (border widths kMidLeft kMidCross kMidRight) :=
    (level_border_iff (shows_glyph (by decide) (by decide)) (shows_glyph (by decide) (by decide))
      (shows_glyph (by decide) (by decide)) hne).2 hnonneg
  rw [headerPart]
  cases hshow : table.showHeader with
  | false => exact iff_of_true ⟨[], rfl, level_nil⟩ nofun
  | true =>
    simp only [if_true, true_imp_iff, Option.map_eq_some_iff]
    constructor
    · rintro ⟨header, ⟨out, hout, rfl⟩, h⟩
      exact ⟨out, hout, ((level_append_iff (hwhole hshow out hout) hborder).1 h).1⟩
    · rintro ⟨out, hout, h⟩
      exact ⟨_, ⟨out, hout, rfl⟩,
        (level_append_iff (hwhole hshow out hout) hborder).2 ⟨h, hlevel⟩⟩

theorem whole_of_headerPart (hne : widths ≠ []) (hwhole : table.showHeader →
    ∀ out, emitRow (headerCells table) widths color = some out → Whole out) {header : Str}
    (h : headerPart table widths color = some header) : Whole header := by
  rw [headerPart] at h
  split_ifs at h with hshow
  · obtain ⟨out, hout, rfl⟩ := Option.map_eq_some_iff.1 h
    exact (hwhole hshow out hout).append (whole_border (shows_glyph (by decide) (by decide))
      (shows_glyph (by decide) (by decide)) (shows_glyph (by decide) (by decide)) hne)
  · exact Option.some.inj h ▸ whole_nil

/-- The table is as wide as the box when its borders and its rows are. -/
theorem render_level_iff (hne : table.columns ≠ []) (hlen : widths ≠ [])
    (hwidths : computeColumnWidths table availableWidth = some widths)
    (hwhole : ∀ row ∈ drawnRows table, ∀ out, emitRow row widths color = some out → Whole out) :
    (∃ out, render table availableWidth color = some out ∧ Level (boxWidth widths) out) ↔
      (∀ w ∈ widths, 0 ≤ w) ∧ ∀ row ∈ drawnRows table,
        ∃ out, emitRow row widths color = some out ∧ Level (boxWidth widths) out := by
  simp only [render_eq_some_iff hne hwidths]
  rw [forall_mem_drawnRows] at hwhole ⊢
  have hglyphs : Shows kTopLeft 1 ∧ Shows kTopCross 1 ∧ Shows kTopRight 1 ∧
      Shows kBotLeft 1 ∧ Shows kBotCross 1 ∧ Shows kBotRight 1 := by
    refine ⟨?_, ?_, ?_, ?_, ?_, ?_⟩ <;> exact shows_glyph (by decide) (by decide)
  obtain ⟨htl, htc, htr, hbl, hbc, hbr⟩ := hglyphs
  have htop := whole_border htl htc htr hlen
  have hbottom := whole_border hbl hbc hbr hlen
  constructor
  · rintro ⟨out, ⟨header, rows, hheader, hrows, rfl⟩, hlevel⟩
    have hheader' := whole_of_headerPart hlen hwhole.1 hheader
    have hrows' := whole_flatten hwhole.2 (mapM_eq_some_iff.1 hrows)
    rw [level_append_iff ((htop.append hheader').append hrows') hbottom,
      level_append_iff (htop.append hheader') hrows', level_append_iff htop hheader',
      level_border_iff htl htc htr hlen] at hlevel
    obtain ⟨⟨⟨hnonneg, hlabels⟩, hlevels⟩, -⟩ := hlevel
    exact ⟨hnonneg, (headerPart_level_iff hlen hnonneg hwhole.1).1 ⟨header, hheader, hlabels⟩,
      (mapM_level_iff hwhole.2).1 ⟨rows, hrows, hlevels⟩⟩
  · rintro ⟨hnonneg, hlabels, hlevels⟩
    obtain ⟨header, hheader, hlabels⟩ := (headerPart_level_iff hlen hnonneg hwhole.1).2 hlabels
    obtain ⟨rows, hrows, hlevels⟩ := (mapM_level_iff hwhole.2).2 hlevels
    have hheader' := whole_of_headerPart hlen hwhole.1 hheader
    have hrows' := whole_flatten hwhole.2 (mapM_eq_some_iff.1 hrows)
    refine ⟨_, ⟨header, rows, hheader, hrows, rfl⟩, ?_⟩
    rw [level_append_iff ((htop.append hheader').append hrows') hbottom,
      level_append_iff (htop.append hheader') hrows', level_append_iff htop hheader',
      level_border_iff htl htc htr hlen, level_border_iff hbl hbc hbr hlen]
    exact ⟨⟨⟨hnonneg, hlabels⟩, hlevels⟩, hnonneg⟩

end Render

/-- **A table is tidy exactly when its columns have room.** -/
theorem tidy_iff (table : AsciiTable) (availableWidth : ℤ) (color : Bool) :
    Tidy table.toTable availableWidth color ↔ HasRoom table.toTable availableWidth := by
  obtain ⟨widths, hwidths, houtcome⟩ := exists_computeColumnWidths table.toTable availableWidth
  have hlen := houtcome.length_eq
  have hextra := extraWidth_eq table.toTable
  rcases eq_or_ne table.columns [] with hnil | hne
  · have hwnil : widths = [] := List.length_eq_zero_iff.1 (by rw [hlen, hnil, List.length_nil])
    refine iff_of_true ⟨widths, [kNewline], hwidths, if_pos hnil, ?_, fun hroom => ?_⟩ (.inl hnil)
    · rw [tableWidth, if_pos hwnil]
      exact List.forall_mem_singleton.2 rfl
    · rw [hnil, List.length_nil, budget, hextra, hnil, List.length_nil] at hroom
      rw [tableWidth, if_pos hwnil]
      omega
  have hpos : 0 < table.columns.length := List.length_pos_iff.2 hne
  have hwne : widths ≠ [] := List.ne_nil_of_length_pos (hlen ▸ hpos)
  have htidy : Tidy table.toTable availableWidth color ↔
      ∃ out, render table.toTable availableWidth color = some out ∧
        Level (boxWidth widths) out := by
    constructor
    · rintro ⟨widths', out, hwidths', hout, hlevel, -⟩
      obtain rfl := Option.some.inj (hwidths.symm.trans hwidths')
      rw [tableWidth, if_neg hwne] at hlevel
      exact ⟨out, hout, hlevel⟩
    · rintro ⟨out, hout, hlevel⟩
      refine ⟨widths, out, hwidths, hout, ?_⟩
      rw [tableWidth, if_neg hwne]
      refine ⟨hlevel, fun hroom => ?_⟩
      have hsum := (houtcome.keeps (by omega)).2
      rw [budget, hextra] at hsum
      rw [boxWidth, hlen]
      omega
  have hrows : (∀ row ∈ drawnRows table.toTable,
      ∃ out, emitRow row widths color = some out ∧ Level (boxWidth widths) out) ↔
        ∀ row ∈ drawnRows table.toTable, ∀ x ∈ row.zip widths, Fits x.1 x.2 :=
    forall₂_congr fun row hrow => emitRow_level_iff
      ((length_of_mem_drawnRows table row hrow).trans hlen.symm)
      (printable_of_mem_drawnRows table row hrow)
  rw [htidy, render_level_iff hne hwne hwidths fun row hrow out hout =>
    ⟨_, prints_emitRow (printable_of_mem_drawnRows table row hrow) hout⟩, hrows, HasRoom,
    or_iff_right hne]
  rcases eq_or_ne (drawnRows table.toTable) [] with hnone | hsome
  · -- a box without rows
    have hsum := List.sum_nonneg
      (forall_mem_map_min (s := 3) (@naturalWidths_nonneg table.toTable) (by omega))
    rw [houtcome.nonneg_iff hne, hnone]
    constructor
    · exact fun h => .inl ⟨rfl, h.1⟩
    · rintro (⟨-, h⟩ | h | ⟨h, -⟩)
      · exact ⟨h, fun _ hrow => absurd hrow List.not_mem_nil⟩
      · exact ⟨.inl (by omega), fun _ hrow => absurd hrow List.not_mem_nil⟩
      · exact ⟨.inl (by omega), fun _ hrow => absurd hrow List.not_mem_nil⟩
  · rw [forall_fits_iff table hlen hsome, or_iff_right fun h => hsome h.1,
      ← houtcome.fits_iff hne fun c => columnBlank_of_naturalWidth]
    refine and_iff_right_of_imp fun hfits w hw => ?_
    obtain ⟨c, hc⟩ := List.mem_iff_getElem?.1 hw
    rcases hfits c w hc with h | ⟨h, -⟩ <;> omega

/-- A table of a cell of two lines beside an empty one. -/
def twoLines : AsciiTable where
  columns := [⟨[]⟩, ⟨[]⟩]
  rows := [[.ofText [0x41, kNewline, 0x42], {}]]
  showHeader := false
  one_cell_each := by decide
  printable_header := by decide
  printable_cell := by decide

/-- In three columns nothing is left for the two columns of the table, and a negative number of
blanks is asked for beside the second line. -/
theorem not_tidy_twoLines : ¬Tidy twoLines.toTable 3 false := by
  rintro ⟨widths, out, -, hrender, -⟩
  have hthrows : render twoLines.toTable 3 false = none := by decide
  rw [hthrows] at hrender
  exact Option.some_ne_none out hrender.symm

end Papa.Render.Tables
