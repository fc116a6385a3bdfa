import Papa.Util.YamlKey

/-!
# Block scalars

The value of a block scalar comes from its header and the lines of its body: the lines are joined in
the style of the header, and its chomping says how many of the line breaks at the end are kept. The
parser takes the chomping from the first plus or minus sign on the line, which may stand in the key;
it counts what follows the last line break of the text as one more blank line; and where it folds
lines it loses the break before a blank line at the end.

## Main definitions

* `Papa.Util.Yaml.blockValue`: the value of a block scalar.
* `Papa.Util.Yaml.chompingSeen`, `Papa.Util.Yaml.breaksSeen`: the chomping and the line breaks the
  parser sees.
* `Papa.Util.Yaml.ReadsBlock`: a block scalar is read as its value.
* `Papa.Util.Yaml.ChompsAsHeader`: the keys, headers and bodies whose line breaks at the end are
  those of the header.

## Main results

* `Papa.Util.Yaml.blockText_eq`: the text the parser gives a block scalar.
* `Papa.Util.Yaml.readsBlock_iff`: which block scalars are read as their value.
-/

namespace Papa.Util.Yaml

/-! ### Values of block scalars -/

/-- How the lines of a block scalar are joined. -/
inductive BlockStyle
  | literal
  | folded
  deriving DecidableEq

/-- The line breaks at the end of a block scalar that are kept: one, none or all. -/
inductive Chomping
  | clip
  | strip
  | keep
  deriving DecidableEq

/-- The byte of a style. -/
def BlockStyle.mark : BlockStyle → UInt8
  | literal => ch '|'
  | folded => ch '>'

/-- The byte of a chomping, if it has one. -/
def Chomping.mark : Chomping → Option UInt8
  | clip => none
  | strip => some (ch '-')
  | keep => some (ch '+')

/-- How many of the line breaks at the end are kept. -/
def Chomping.kept : Chomping → ℕ → ℕ
  | clip, breaks => min 1 breaks
  | strip, _ => 0
  | keep, breaks => breaks

/-- The header of a block scalar. -/
def blockHeader (style : BlockStyle) (chomping : Chomping) : Str :=
  style.mark :: chomping.mark.toList

/-- The lines of a body up to the last one that is not blank. -/
def bodyContent (body : List Str) : List Str := body.rdropWhile List.isEmpty

/-- The number of blank lines at the end of a body. -/
def trailingBlanks (body : List Str) : ℕ := (body.rtakeWhile List.isEmpty).length

/-- Folded lines: a space stands for the break between two lines, and a blank line for a break. -/
def foldText : List Str → Str
  | [] => []
  | [line] => line
  | line :: next :: rest =>
    line ++ (if line.isEmpty then [10] else if next.isEmpty then [] else [ch ' ']) ++
      foldText (next :: rest)

/-- The lines of a body joined in a style, without the line breaks at the end. -/
def BlockStyle.joined : BlockStyle → List Str → Str
  | literal, body => List.intercalate [10] (bodyContent body)
  | folded, body => foldText (bodyContent body)

/-- The number of line breaks at the end of a body: the one that ends its last line with content,
and those of the blank lines after that. -/
def trailingBreaks (body : List Str) : ℕ :=
  (if bodyContent body = [] then 0 else 1) + trailingBlanks body

/-- The value of a block scalar. -/
def blockValue (style : BlockStyle) (chomping : Chomping) (body : List Str) : Str :=
  style.joined body ++ List.replicate (chomping.kept (trailingBreaks body)) 10

/-! ### The lines of a body -/

/-- A body is blank, or its content ends with a line that is not blank. -/
theorem body_cases (body : List Str) :
    (bodyContent body = [] ∧ body = List.replicate (trailingBlanks body) []) ∨
    ∃ lines line, line ≠ [] ∧ bodyContent body = lines ++ [line] ∧
      body = lines ++ line :: List.replicate (trailingBlanks body) [] := by
  induction body using List.reverseRecOn with
  | nil => exact Or.inl ⟨rfl, rfl⟩
  | append_singleton body line ih =>
    by_cases hline : line = []
    · subst hline
      have hcontent : bodyContent (body ++ [[]]) = bodyContent body :=
        List.rdropWhile_concat_pos _ _ _ rfl
      have hblanks : trailingBlanks (body ++ [[]]) = trailingBlanks body + 1 := by
        rw [trailingBlanks, List.rtakeWhile_concat_pos _ _ _ rfl, List.length_append]
        rfl
      rw [hcontent, hblanks, List.replicate_succ']
      refine ih.imp (fun ⟨hnil, heq⟩ => ⟨hnil, congrArg (· ++ [[]]) heq⟩) ?_
      rintro ⟨lines, last, hlast, hlines, heq⟩
      refine ⟨lines, last, hlast, hlines, ?_⟩
      rw [← List.cons_append, ← List.append_assoc, ← heq]
    · have hfull : ¬line.isEmpty := by simpa using hline
      have hblanks : trailingBlanks (body ++ [line]) = 0 := by
        rw [trailingBlanks, List.rtakeWhile_concat_neg _ _ _ hfull]
        rfl
      refine Or.inr ⟨body, line, hline, List.rdropWhile_concat_neg _ _ _ hfull, ?_⟩
      rw [hblanks]
      rfl

/-- A blank line more at the end does not change the content. -/
theorem bodyContent_concat_nil (body : List Str) : bodyContent (body ++ [[]]) = bodyContent body :=
  List.rdropWhile_concat_pos _ _ _ rfl

/-! ### The text the parser makes -/

/-- The line breaks at the end of the lines as the parser joins them: when it folds them, the break
of the last line with content is lost to a blank line after it. -/
def breaksSeen : BlockStyle → List Str → ℕ
  | .literal, raws => trailingBreaks raws
  | .folded, raws =>
    if bodyContent raws = [] then trailingBlanks raws else max 1 (trailingBlanks raws)

theorem flatMap_break {content : List Str} (h : content ≠ []) :
    content.flatMap (· ++ [10]) = List.intercalate [10] content ++ [10] := by
  induction content with
  | nil => exact absurd rfl h
  | cons line content ih =>
    cases content with
    | nil => simp
    | cons next content =>
      rw [List.flatMap_cons, ih (List.cons_ne_nil _ _)]
      simp [List.intercalate]

theorem flatMap_break_blank (n : ℕ) :
    (List.replicate n ([] : Str)).flatMap (· ++ [10]) = List.replicate n 10 := by
  induction n with
  | zero => rfl
  | succ n ih => rw [List.replicate_succ, List.flatMap_cons, ih]; rfl

/-- What the folding loop adds for the lines that follow, with a space pending or not. -/
def foldRest : Bool → List Str → Str
  | pending, [] => if pending then [ch ' '] else []
  | pending, raw :: raws =>
    if raw.isEmpty then 10 :: foldRest false raws
    else (if pending then [ch ' '] else []) ++ raw ++ foldRest true raws

theorem breakLastSpace_concat (out : Str) :
    breakLastSpace (out ++ [ch ' ']) = some (out ++ [10]) := by
  simp [breakLastSpace]

theorem breakLastSpace_eq_none {out : Str} (h : out.getLast? ≠ some (ch ' ')) :
    breakLastSpace out = none := by
  simp [breakLastSpace, h]

theorem foldl_foldLine (raws : List Str) (out : Str) :
    raws.foldl foldLine (out ++ [ch ' ']) = out ++ foldRest true raws ∧
    (out.getLast? ≠ some (ch ' ') → raws.foldl foldLine out = out ++ foldRest false raws) := by
  induction raws generalizing out with
  | nil => exact ⟨rfl, fun _ => (List.append_nil out).symm⟩
  | cons raw raws ih =>
    have hbreak : (out ++ [10]).getLast? ≠ some (ch ' ') := by
      rw [List.getLast?_concat]
      decide
    rw [List.foldl_cons, List.foldl_cons]
    by_cases hraw : raw.isEmpty
    · rw [foldLine, foldLine, if_pos hraw, if_pos hraw, breakLastSpace_concat, foldRest, foldRest,
        if_pos hraw, if_pos hraw]
      refine ⟨?_, fun hout => ?_⟩
      · rw [Option.getD_some, (ih (out ++ [10])).2 hbreak, List.append_assoc]
        rfl
      · rw [breakLastSpace_eq_none hout, Option.getD_none, (ih (out ++ [10])).2 hbreak,
          List.append_assoc]
        rfl
    · rw [foldLine, foldLine, if_neg hraw, if_neg hraw, foldRest, foldRest, if_neg hraw,
        if_neg hraw]
      refine ⟨?_, fun hout => ?_⟩
      · rw [(ih _).1]
        simp
      · rw [(ih _).1]
        simp

theorem foldRest_blank (n : ℕ) :
    foldRest false (List.replicate n []) = List.replicate n 10 := by
  induction n with
  | zero => rfl
  | succ n ih => exact congrArg (10 :: ·) ih

/-- Folded lines, and the breaks or the pending space after them. -/
theorem foldRest_content {line : Str} (hline : line ≠ []) (lines : List Str) (n : ℕ) :
    ∀ pending, foldRest pending (lines ++ line :: List.replicate n []) =
      (if pending && !((lines ++ [line]).headD []).isEmpty then [ch ' '] else []) ++
        foldText (lines ++ [line]) ++ if n = 0 then [ch ' '] else List.replicate n 10 := by
  have hfull : ¬line.isEmpty := by simpa using hline
  induction lines with
  | nil =>
    intro pending
    rw [List.nil_append, List.nil_append, foldRest, if_neg hfull]
    cases n with
    | zero => simp [foldText, foldRest, hline]
    | succ n =>
      rw [List.replicate_succ, foldRest, if_pos rfl, foldRest_blank]
      simp [foldText, hline, List.replicate_succ]
  | cons first lines ih =>
    intro pending
    obtain ⟨next, rest, hnext⟩ := List.exists_cons_of_ne_nil
      (List.append_ne_nil_of_right_ne_nil lines (List.cons_ne_nil line []))
    rw [List.cons_append, List.cons_append, foldRest, hnext, foldText]
    rw [hnext] at ih
    by_cases hfirst : first.isEmpty
    · rw [if_pos hfirst, ih]
      simp [List.isEmpty_iff.mp hfirst]
    · rw [if_neg hfirst, ih]
      cases pending <;> by_cases hempty : next = [] <;> simp [hempty, hfirst]

/-- Joined lines: their content in the style, and the line breaks the parser sees after it. -/
theorem joinLines_eq (style : BlockStyle) (raws : List Str) :
    joinLines style.mark raws = style.joined raws ++ List.replicate (breaksSeen style raws) 10 := by
  cases style with
  | literal =>
    change raws.flatMap (· ++ [10]) = List.intercalate [10] (bodyContent raws) ++
      List.replicate (trailingBreaks raws) 10
    rw [trailingBreaks]
    rcases body_cases raws with ⟨hnil, hraws⟩ | ⟨lines, line, -, hcontent, hraws⟩
    · rw [hnil, if_pos rfl, Nat.zero_add]
      conv_lhs => rw [hraws, flatMap_break_blank]
      rfl
    · have hne : lines ++ [line] ≠ [] := List.append_ne_nil_of_right_ne_nil _ nofun
      rw [hcontent, if_neg hne, Nat.add_comm, List.replicate_succ]
      conv_lhs => rw [hraws, List.append_cons, List.flatMap_append, flatMap_break hne,
        flatMap_break_blank, List.append_assoc]
      rfl
  | folded =>
    change (breakLastSpace (raws.foldl foldLine [])).getD (raws.foldl foldLine []) = _
    have hfold : raws.foldl foldLine [] = foldRest false raws := (foldl_foldLine raws []).2 nofun
    rw [hfold, BlockStyle.joined, breaksSeen]
    rcases body_cases raws with ⟨hnil, hraws⟩ | ⟨lines, line, hline, hcontent, hraws⟩
    · have hbreaks :
          (List.replicate (trailingBlanks raws) (10 : UInt8)).getLast? ≠ some (ch ' ') := by
        rw [List.getLast?_replicate]
        split_ifs <;> decide
      rw [hnil, if_pos rfl]
      conv_lhs => rw [hraws, foldRest_blank, breakLastSpace_eq_none hbreaks]
      rfl
    · have hne : lines ++ [line] ≠ [] := List.append_ne_nil_of_right_ne_nil _ nofun
      have hrest := foldRest_content hline lines (trailingBlanks raws) false
      rw [← hraws] at hrest
      rw [hrest, hcontent, if_neg hne]
      change (breakLastSpace (foldText (lines ++ [line]) ++ _)).getD
        (foldText (lines ++ [line]) ++ _) = _
      cases trailingBlanks raws with
      | zero =>
        rw [if_pos rfl, breakLastSpace_concat]
        rfl
      | succ n =>
        have hbreak : (foldText (lines ++ [line]) ++ List.replicate (n + 1) 10).getLast? ≠
            some (ch ' ') := by
          rw [List.replicate_succ', ← List.append_assoc, List.getLast?_concat]
          decide
        rw [if_neg (Nat.succ_ne_zero n), breakLastSpace_eq_none hbreak,
          Nat.max_eq_right (Nat.succ_pos n)]
        rfl

theorem intercalate_concat (lines : List Str) (line : Str) :
    ∃ text, List.intercalate [10] (lines ++ [line]) = text ++ line := by
  induction lines with
  | nil => exact ⟨[], List.intercalate_singleton⟩
  | cons first lines ih =>
    obtain ⟨text, htext⟩ := ih
    refine ⟨first ++ [10] ++ text, ?_⟩
    rw [List.cons_append, List.intercalate_cons_of_ne_nil
      (List.append_ne_nil_of_right_ne_nil _ (List.cons_ne_nil _ _)), htext, ← List.append_assoc]

theorem foldText_concat (lines : List Str) (line : Str) :
    ∃ text, foldText (lines ++ [line]) = text ++ line := by
  induction lines with
  | nil => exact ⟨[], rfl⟩
  | cons first lines ih =>
    obtain ⟨text, htext⟩ := ih
    obtain ⟨next, rest, hnext⟩ := List.exists_cons_of_ne_nil
      (List.append_ne_nil_of_right_ne_nil lines (List.cons_ne_nil line []))
    rw [List.cons_append]
    rw [hnext] at htext ⊢
    exact ⟨_, by rw [foldText, htext, ← List.append_assoc]⟩

/-- Joined content ends with the last byte of its last line. -/
theorem joined_getLast {style : BlockStyle} {body : List Str} (hbreak : ∀ line ∈ body, 10 ∉ line) :
    (style.joined body).getLast? ≠ some 10 := by
  rcases body_cases body with ⟨hnil, -⟩ | ⟨lines, line, hline, hcontent, hbody⟩
  · cases style <;> rw [BlockStyle.joined, hnil] <;> exact nofun
  · have hlast : line.getLast? ≠ some 10 := fun h =>
      hbreak line (by rw [hbody]; simp) (List.mem_of_getLast? h)
    -- what is joined before the last line stays in front of it
    have hend : ∃ text, style.joined body = text ++ line := by
      cases style with
      | literal =>
        rw [BlockStyle.joined, hcontent]
        exact intercalate_concat lines line
      | folded =>
        rw [BlockStyle.joined, hcontent]
        exact foldText_concat lines line
    obtain ⟨text, htext⟩ := hend
    rw [htext, List.getLast?_append]
    rw [List.getLast?_eq_some_getLast hline] at hlast ⊢
    exact hlast

theorem chompLines_eq {text : Str} (htext : text.getLast? ≠ some 10) (chomping : Chomping) (n : ℕ) :
    chompLines chomping.mark (text ++ List.replicate n 10) =
      text ++ List.replicate (chomping.kept n) 10 := by
  have hbody : (text ++ List.replicate n 10).rdropWhile (· == 10) = text := by
    induction n with
    | zero =>
      rw [List.replicate_zero, List.append_nil, List.rdropWhile_eq_self_iff]
      intro hne h
      exact htext (by rw [List.getLast?_eq_getLast_of_ne_nil hne, eq_of_beq h])
    | succ n ih =>
      rw [List.replicate_succ', ← List.append_assoc, List.rdropWhile_concat_pos _ _ _ rfl, ih]
  rw [chompLines, hbody]
  cases chomping with
  | strip => exact (List.append_nil text).symm
  | keep => rfl
  | clip =>
    have hstrip : ¬(Chomping.clip.mark == some (ch '-')) := by decide
    have hkeep : ¬(Chomping.clip.mark == some (ch '+')) := by decide
    rw [if_neg hstrip, if_neg hkeep, Chomping.kept]
    cases n with
    | zero =>
      rw [List.replicate_zero, List.append_nil, if_neg (by simpa using htext)]
      exact (List.append_nil text).symm
    | succ n =>
      rw [List.replicate_succ', ← List.append_assoc, List.getLast?_concat,
        if_pos (beq_self_eq_true _), Nat.min_eq_left (Nat.succ_pos n)]
      rfl

/-! ### The lines under a key -/

/-- The lines of a body under a key at column `indent`: lines of a text, those with content all
deeper than the key and at one column. -/
structure BlockBody (indent : ℕ) (body : List Line) : Prop where
  noBreak : ∀ ln ∈ body, 10 ∉ ln.payload
  column : ∃ n, indent < n ∧ ∀ ln ∈ body, ln.payload ≠ [] → ln.indent = n

/-- What follows a body: a line with content that is no deeper than the key, what is left of the
text after its last line break, or nothing where the text ends with the last line of the body. -/
inductive BlockEnd (indent : ℕ) (body : List Line) : List Line → Prop
  | next {ln : Line} {rest : List Line} (hne : ln.payload ≠ []) (hle : ln.indent ≤ indent) :
    BlockEnd indent body (ln :: rest)
  | final {ln : Line} (h : ln.payload = []) : BlockEnd indent body [ln]
  | eof (h : ∀ ln ∈ body.getLast?, ln.payload ≠ []) : BlockEnd indent body []

/-- The body is followed by what is left of the text after its last line break. -/
def isFinal (tail : List Line) : Bool := tail.head?.any Line.isBlank

/-- The lines of a body as the parser sees them: what is left of the text after its last line break
is one more of them. -/
def linesSeen (body : List Str) (final : Bool) : List Str := if final then body ++ [[]] else body

theorem blockLines_eq {indent : ℕ} {body tail : List Line} (hbody : BlockBody indent body)
    (htail : BlockEnd indent body tail) :
    blockLines indent none (body ++ tail) =
      (linesSeen (body.map Line.payload) (isFinal tail), tail.dropWhile Line.isBlank) := by
  obtain ⟨n, hn, hindent⟩ := hbody.column
  have hend (blockIndent : Option ℕ) : blockLines indent blockIndent tail =
      (linesSeen [] (isFinal tail), tail.dropWhile Line.isBlank) := by
    cases htail with
    | next hne hle =>
      have hfull : ¬Line.isBlank _ := fun h => hne (List.isEmpty_iff.mp h)
      rw [blockLines, if_neg hfull, if_pos (by simp [hle]), List.dropWhile_cons_of_neg hfull]
      simp [linesSeen, isFinal, hfull]
    | final h =>
      have hblank : Line.isBlank _ := List.isEmpty_iff.mpr h
      rw [blockLines, if_pos hblank, List.dropWhile_cons_of_pos hblank]
      simp [linesSeen, isFinal, hblank, blockLines]
    | eof => rfl
  suffices hlines : ∀ blockIndent, (blockIndent = none ∨ blockIndent = some n) →
      blockLines indent blockIndent (body ++ tail) =
        (linesSeen (body.map Line.payload) (isFinal tail), tail.dropWhile Line.isBlank) from
    hlines none (Or.inl rfl)
  clear hbody htail
  induction body with
  | nil => exact fun blockIndent _ => hend blockIndent
  | cons ln body ih =>
    obtain ⟨hln, hindent⟩ := List.forall_mem_cons.mp hindent
    have hcons (payload : Str) (lines : List Str) : payload :: linesSeen lines (isFinal tail) =
        linesSeen (payload :: lines) (isFinal tail) := by
      rw [linesSeen, linesSeen]
      split_ifs <;> rfl
    intro blockIndent hb
    rw [List.cons_append, blockLines]
    by_cases hblank : ln.isBlank
    · rw [if_pos hblank, ih hindent blockIndent hb, List.map_cons, List.isEmpty_iff.mp hblank]
      exact congrArg (·, _) (hcons [] _)
    · have hcolumn := hln fun h => hblank (List.isEmpty_iff.mpr h)
      have hget : blockIndent.getD ln.indent = n := by
        rcases hb with rfl | rfl
        · exact hcolumn
        · rfl
      have hstop : ¬(ln.indent ≤ indent || ln.indent < blockIndent.getD ln.indent) := by
        rw [hget, hcolumn]
        simp [hn]
      rw [if_neg hblank, if_neg hstop, hget, ih hindent (some n) (Or.inr rfl)]
      exact congrArg (·, _) (hcons _ _)

/-! ### The header -/

/-- The chomping the parser sees on the line of a header: that of the first sign in the key, if
there is one. -/
def chompingSeen (k : Str) (chomping : Chomping) : Chomping :=
  match k.find? fun c => c == ch '-' || c == ch '+' with
  | some c => if c = ch '-' then .strip else .keep
  | none => chomping

theorem find?_chomping (k : Str) (style : BlockStyle) (chomping : Chomping) :
    ((k ++ ch ':' :: ch ' ' :: blockHeader style chomping).find?
      fun c => c == ch '-' || c == ch '+') = (chompingSeen k chomping).mark := by
  have hheader : ((ch ':' :: ch ' ' :: blockHeader style chomping).find?
      fun c => c == ch '-' || c == ch '+') = chomping.mark := by
    cases style <;> cases chomping <;> decide
  rw [List.find?_append, hheader, chompingSeen]
  cases hfind : k.find? fun c => c == ch '-' || c == ch '+' with
  | none => rfl
  | some c =>
    have hsign := List.find?_some hfind
    simp only [Bool.or_eq_true, beq_iff_eq] at hsign
    rcases hsign with rfl | rfl <;> rfl

/-- **The text of a block scalar**: its joined lines, and the line breaks the parser sees as far as
the chomping it sees keeps them. -/
theorem blockText_eq {raws : List Str} (hraws : ∀ line ∈ raws, 10 ∉ line) (k : Str)
    (style : BlockStyle) (chomping : Chomping) :
    blockText (k ++ ch ':' :: ch ' ' :: blockHeader style chomping) style.mark raws =
      style.joined raws ++
        List.replicate ((chompingSeen k chomping).kept (breaksSeen style raws)) 10 := by
  rw [blockText, find?_chomping, joinLines_eq, chompLines_eq (joined_getLast hraws)]

/-! ### Where the line breaks are those of the header -/

/-- All line breaks at the end are to be kept and are: literal lines do not end the text, and folded
ones end it or have no blank line behind them. -/
def KeepsAll (style : BlockStyle) (body : List Str) (final : Bool) : Prop :=
  match style with
  | .literal => final = false
  | .folded =>
    if bodyContent body = [] then final = false else final = true ∨ trailingBlanks body = 0

/-- All line breaks at the end are kept where one is to be: there are no more. -/
def KeepsOne (style : BlockStyle) (body : List Str) (final : Bool) : Prop :=
  match style with
  | .literal => final = false ∧ trailingBreaks body ≤ 1
  | .folded =>
    if bodyContent body = [] then final = false ∧ trailingBlanks body ≤ 1
    else trailingBlanks body = 0 ∨ trailingBlanks body = 1 ∧ final = false

/-- The line breaks at the end are those of the header. Without a sign in the key they are if they
are stripped, if one is kept of a body with lines or of one that does not end the text, and if all
are kept where that keeps them; a key whose first sign is a minus strips them all, and one whose
first sign is a plus keeps them all. -/
def ChompsAsHeader (k : Str) (style : BlockStyle) (chomping : Chomping) (body : List Str)
    (final : Bool) : Prop :=
  match k.find? fun c => c == ch '-' || c == ch '+' with
  | none =>
    match chomping with
    | .strip => True
    | .clip => body ≠ [] ∨ final = false
    | .keep => KeepsAll style body final
  | some c =>
    if c = ch '-' then chomping = .strip ∨ body = []
    else
      match chomping with
      | .strip => body = [] ∧ final = false
      | .clip => KeepsOne style body final
      | .keep => KeepsAll style body final

theorem eq_nil_iff_bodyContent (body : List Str) :
    body = [] ↔ bodyContent body = [] ∧ trailingBlanks body = 0 := by
  constructor
  · rintro rfl
    exact ⟨rfl, rfl⟩
  · rintro ⟨hnil, hblanks⟩
    rcases body_cases body with ⟨-, heq⟩ | ⟨lines, line, -, hcontent, -⟩
    · rw [heq, hblanks]
      rfl
    · exact absurd (hcontent.symm.trans hnil)
        (List.append_ne_nil_of_right_ne_nil _ (List.cons_ne_nil _ _))

theorem trailingBlanks_linesSeen (body : List Str) (final : Bool) :
    trailingBlanks (linesSeen body final) = trailingBlanks body + final.toNat := by
  cases final with
  | false => rfl
  | true =>
    rw [linesSeen, if_pos rfl, trailingBlanks, List.rtakeWhile_concat_pos _ _ _ rfl,
      List.length_append]
    rfl

theorem bodyContent_linesSeen (body : List Str) (final : Bool) :
    bodyContent (linesSeen body final) = bodyContent body := by
  cases final with
  | false => rfl
  | true => exact bodyContent_concat_nil body

/-- **The line breaks at the end are those of the header** exactly where the key, the header and the
body say so. -/
theorem chompsAsHeader_iff (k : Str) (style : BlockStyle) (chomping : Chomping) (body : List Str)
    (final : Bool) :
    (chompingSeen k chomping).kept (breaksSeen style (linesSeen body final)) =
        chomping.kept (trailingBreaks body) ↔ ChompsAsHeader k style chomping body final := by
  have hliteral : breaksSeen .literal (linesSeen body final) =
      trailingBreaks body + final.toNat := by
    rw [breaksSeen, trailingBreaks, trailingBreaks, bodyContent_linesSeen,
      trailingBlanks_linesSeen, Nat.add_assoc]
  have hfolded : breaksSeen .folded (linesSeen body final) =
      if bodyContent body = [] then trailingBlanks body + final.toNat
      else max 1 (trailingBlanks body + final.toNat) := by
    rw [breaksSeen, bodyContent_linesSeen, trailingBlanks_linesSeen]
  have hfinal : final = false ↔ final.toNat = 0 := by cases final <;> decide
  have hfinal' : final = true ↔ final.toNat = 1 := by cases final <;> decide
  have hle : final.toNat ≤ 1 := Bool.toNat_le final
  have hbreaks := eq_nil_iff_bodyContent body
  have hstrip : (Chomping.strip).kept (breaksSeen style (linesSeen body final)) = 0 := rfl
  unfold chompingSeen ChompsAsHeader
  cases k.find? fun c => c == ch '-' || c == ch '+' with
  | none =>
    cases chomping with
    | strip => exact iff_of_true rfl trivial
    | clip =>
      cases style <;> simp only [Chomping.kept, hliteral, hfolded, trailingBreaks, ne_eq, hbreaks,
        hfinal] <;> split_ifs with h <;> simp only [h, true_and, false_and, not_false_eq_true,
        true_or, iff_true] <;> omega
    | keep =>
      cases style <;> simp only [Chomping.kept, hliteral, hfolded, trailingBreaks, KeepsAll,
        hfinal, hfinal'] <;> split_ifs with h <;> omega
  | some c =>
    dsimp only
    split_ifs with hc
    · cases chomping <;> simp only [Chomping.kept, trailingBreaks, hbreaks, reduceCtorEq,
        false_or, true_or] <;> split_ifs with h <;> simp [h] <;> omega
    · cases chomping with
      | strip =>
        cases style <;> simp only [Chomping.kept, hliteral, hfolded, trailingBreaks, hbreaks,
          hfinal] <;> split_ifs with h <;> simp only [h, true_and, false_and, iff_false] <;> omega
      | clip =>
        cases style <;> simp only [Chomping.kept, hliteral, hfolded, trailingBreaks, KeepsOne,
          hfinal] <;> split_ifs with h <;> omega
      | keep =>
        cases style <;> simp only [Chomping.kept, hliteral, hfolded, trailingBreaks, KeepsAll,
          hfinal, hfinal'] <;> split_ifs with h <;> omega

/-- A block scalar with the given key, header and body is read as its value, in a block mapping and
in one that starts on a dash line, whatever lines follow. -/
def ReadsBlock (indent : ℕ) (k : Str) (style : BlockStyle) (chomping : Chomping)
    (body tail : List Line) : Prop :=
  ∀ (value : ValueParser) (ln : Line) (fuel : ℕ) (entries : List (Str × Node)) (after : List Line),
    ln.indent = indent → ln.payload = k ++ ch ':' :: ch ' ' :: blockHeader style chomping →
    (mappingLoop value indent fuel (tail.dropWhile Line.isBlank) = .ok (entries, after) →
      ∃ name line column, mappingLoop value indent (fuel + 1) (ln :: (body ++ tail)) =
        .ok ((name, .scalar (blockValue style chomping (body.map Line.payload)) line column) ::
          entries, after)) ∧
    (compactLoop value indent fuel (tail.dropWhile Line.isBlank) = .ok (entries, after) →
      ∃ name line column, compactLoop value indent (fuel + 1) (ln :: (body ++ tail)) =
        .ok ((name, .scalar (blockValue style chomping (body.map Line.payload)) line column) ::
          entries, after))

section Reads

variable {indent : ℕ} {k : Str} {body tail : List Line} (hbody : BlockBody indent body)
  (htail : BlockEnd indent body tail) (style : BlockStyle) (chomping : Chomping)

include hbody htail

/-- The value of the entry is the text of the lines the parser sees. -/
theorem entryValue_block (value : ValueParser) {ln : Line}
    (hln : ln.payload = k ++ ch ':' :: ch ' ' :: blockHeader style chomping) (keySize : ℕ) :
    entryValue value indent ln keySize (blockHeader style chomping) (body ++ tail) =
      .ok (.scalar (style.joined (body.map Line.payload) ++
        List.replicate ((chompingSeen k chomping).kept
          (breaksSeen style (linesSeen (body.map Line.payload) (isFinal tail)))) 10)
        ln.lineNo (ln.indent + 1), tail.dropWhile Line.isBlank) := by
  have hheader : ¬((blockHeader style chomping).isEmpty ||
      isCommentOnly (blockHeader style chomping)) ∧
      isBlockHeader (blockHeader style chomping) ∧
      (blockHeader style chomping).headD 0 = style.mark := by
    cases style <;> cases chomping <;> decide
  have hraws : ∀ line ∈ linesSeen (body.map Line.payload) (isFinal tail), 10 ∉ line := by
    intro line hline
    rw [linesSeen] at hline
    split_ifs at hline
    · rcases List.mem_append.mp hline with hmem | hmem
      · obtain ⟨ln, hln, rfl⟩ := List.mem_map.mp hmem
        exact hbody.noBreak ln hln
      · obtain rfl := List.mem_singleton.mp hmem
        exact List.not_mem_nil
    · obtain ⟨ln, hln, rfl⟩ := List.mem_map.mp hline
      exact hbody.noBreak ln hln
  have hjoined : style.joined (linesSeen (body.map Line.payload) (isFinal tail)) =
      style.joined (body.map Line.payload) := by
    rw [linesSeen]
    split_ifs
    · cases style <;> simp only [BlockStyle.joined, bodyContent_concat_nil]
    · rfl
  rw [entryValue]
  dsimp only
  rw [if_neg hheader.1, if_pos hheader.2.1, blockLines_eq hbody htail, hln, hheader.2.2]
  dsimp only
  rw [blockText_eq hraws, hjoined]

/-- **Which block scalars are read as their value.** The key has to be one the loops split off and
must not start with a dash; and the line breaks at the end have to be those of the header, as the
first sign in the key, the header, the blank lines at the end of the body and the end of the text
tell. -/
theorem readsBlock_iff (hk : IsKeyText k) :
    ReadsBlock indent k style chomping body tail ↔
      k.head? ≠ some (ch '-') ∧ BalancedQuotes k ∧
        ChompsAsHeader k style chomping (body.map Line.payload) (isFinal tail) := by
  rw [← chompsAsHeader_iff]
  obtain ⟨a, s, hcons, hhash⟩ := hk.exists_cons
  have hpayload {ln : Line}
      (hln : ln.payload = k ++ ch ':' :: ch ' ' :: blockHeader style chomping) :
      ln.payload = a :: (s ++ ch ':' :: ch ' ' :: blockHeader style chomping) := by
    rw [hln, hcons]
    rfl
  have hheader : (blockHeader style chomping).dropWhile (· == ch ' ') = blockHeader style chomping ∧
      ∀ c ∈ blockHeader style chomping, c ≠ kSingleQuote ∧ c ≠ kDoubleQuote := by
    cases style <;> cases chomping <;> decide
  have hdash : k.head? ≠ some (ch '-') ↔ a ≠ ch '-' := by simp [hcons]
  rw [hdash]
  constructor
  · intro h
    let ln : Line := ⟨1, indent, k ++ ch ':' :: ch ' ' :: blockHeader style chomping⟩
    have hln : ln.payload = k ++ ch ':' :: ch ' ' :: blockHeader style chomping := rfl
    obtain ⟨name, line, column, hread⟩ :=
      (h (fun _ _ => .ok (.empty, [])) ln 0 [] (tail.dropWhile Line.isBlank) rfl rfl).1 rfl
    have hno (rest : List Line) :
        (Except.ok ([], rest) : Expected (List (Str × Node) × List Line)) ≠
        mappingLoop (fun _ _ => .ok (.empty, [])) indent (0 + 1) (ln :: (body ++ tail)) :=
      fun heq => nomatch (Prod.mk.inj (Except.ok.inj (heq.trans hread))).1
    have ha : a ≠ ch '-' := by
      rintro rfl
      -- the loop stops at a dash
      refine hno (ln :: (body ++ tail)) ?_
      rw [mappingLoop, skipBlankAndComment_cons (hpayload hln) hhash]
      dsimp only
      rw [if_neg (Nat.lt_irrefl indent), if_neg (Nat.lt_irrefl indent),
        if_pos (by simp [hpayload hln])]
    have hloop := mappingLoop_cons (hpayload hln) hhash ha (fun _ _ => .ok (.empty, [])) 0
      (body ++ tail)
    have hquotes : BalancedQuotes k := by
      by_contra hquotes
      rw [hln, hk.splitKey_eq_none hquotes hheader.2] at hloop
      exact hno _ hloop.symm
    refine ⟨ha, hquotes, ?_⟩
    obtain ⟨name', hname⟩ := hk.exists_mappingKey ln.lineNo (ln.indent + 1)
    rw [hln, hk.splitKey_eq hquotes, hheader.1] at hloop
    dsimp only at hloop
    rw [hname, ok_bind, entryValue_block hbody htail style chomping _ hln, ok_bind] at hloop
    have heq := Prod.mk.inj (Except.ok.inj (hloop.symm.trans hread))
    have hscalar := (Node.scalar.inj (Prod.mk.inj (List.cons.inj heq.1).1).2).1
    have hbreaks := congrArg List.length (List.append_cancel_left hscalar)
    rwa [List.length_replicate, List.length_replicate] at hbreaks
  · rintro ⟨ha, hquotes, hbreaks⟩ value ln fuel entries after rfl hln
    obtain ⟨name, hname⟩ := hk.exists_mappingKey ln.lineNo (ln.indent + 1)
    have hentry := entryValue_block hbody htail style chomping value hln
    rw [hbreaks] at hentry
    refine ⟨fun hrest => ⟨name, ln.lineNo, ln.indent + 1, ?_⟩,
      fun hrest => ⟨k, ln.lineNo, ln.indent + 1, ?_⟩⟩
    · rw [mappingLoop_cons (hpayload hln) hhash ha, hln, hk.splitKey_eq hquotes, hheader.1]
      dsimp only
      rw [hname, ok_bind, hentry, ok_bind, hrest]
      rfl
    · rw [compactLoop_cons (hpayload hln) hhash ha, hln, hk.splitKey_eq hquotes, hheader.1]
      dsimp only
      rw [hentry, ok_bind, hrest]
      rfl

end Reads

/-- A literal block scalar between two entries. -/
theorem readsBlock_description :
    ReadsBlock 0 (str "description") .literal .clip [⟨2, 2, str "x"⟩] [⟨3, 0, str "name: y"⟩] := by
  have hk : IsKeyText (str "description") :=
    Or.inl ⟨⟨_, _, rfl, by decide, by decide, by decide⟩, by decide⟩
  have hbody : BlockBody 0 [⟨2, 2, str "x"⟩] := ⟨by decide, 2, by decide, by decide⟩
  have htail : BlockEnd 0 [⟨2, 2, str "x"⟩] [⟨3, 0, str "name: y"⟩] := .next (by decide) (by decide)
  exact (readsBlock_iff hbody htail .literal .clip hk).mpr
    ⟨by decide, by decide, Or.inl (List.cons_ne_nil _ _)⟩

/-- A hyphen in the key strips the line break, the end of the text adds one to those that are kept,
and folding loses the one before a blank line. -/
theorem block_value_changed :
    parse (str "key: |\n  x\n") = .ok (.mapping [(str "key", .scalar (str "x\n") 1 1)] 1 1) ∧
    parse (str "my-key: |\n  x\n") = .ok (.mapping [(str "my-key", .scalar (str "x") 1 1)] 1 1) ∧
    parse (str "key: |+\n  x\n") = .ok (.mapping [(str "key", .scalar (str "x\n\n") 1 1)] 1 1) ∧
    parse (str "key: >+\n  x\n\na: y\n") = .ok (.mapping [(str "key", .scalar (str "x\n") 1 1),
      (str "a", .scalar (str "y") 4 4)] 1 1) ∧
    blockValue .literal .keep [str "x"] = str "x\n" ∧
    blockValue .folded .keep [str "x", []] = str "x\n\n" ∧
    ¬ReadsBlock 0 (str "my-key") .literal .clip [⟨2, 2, str "x"⟩] [⟨3, 0, []⟩] := by
  refine ⟨rfl, rfl, rfl, rfl, rfl, rfl, fun h => ?_⟩
  let ln : Line := ⟨1, 0, str "my-key: |"⟩
  obtain ⟨name, line, column, hread⟩ := (h (fun _ _ => .ok (.empty, [])) ln 0 [] [] rfl rfl).1 rfl
  have hloop : mappingLoop (fun _ _ => .ok (.empty, [])) 0 1 [ln, ⟨2, 2, str "x"⟩, ⟨3, 0, []⟩] =
      .ok ([(str "my-key", .scalar (str "x") 1 1)], []) := rfl
  have heq := Prod.mk.inj (Except.ok.inj (hloop.symm.trans hread))
  have hvalue : str "x" = blockValue .literal .clip [str "x"] :=
    (Node.scalar.inj (Prod.mk.inj (List.cons.inj heq.1).1).2).1
  exact absurd hvalue (by decide)

end Papa.Util.Yaml
