import Papa.Util.Yaml

/-!
# The nesting of value parses

The parser counts the value parses it is inside of: `DepthGuard` adds one for the time of a parse
and takes it back on every exit path, and at the bound a parse is refused. This is the parser with
that counter. All its loops and its recursion run on fuel and give no result without it, so that a
result is one the parser reaches by itself.

## Main definitions

* `Papa.Util.Yaml.Frames`, `Papa.Util.Yaml.ParserRun`: the counter, and runs that change it.
* `Papa.Util.Yaml.parseRun`: the parser on fuel.
* `Papa.Util.Yaml.Node.depth`: the nesting of a document tree.

## Main results

* `Papa.Util.Yaml.Returns.bind`: runs in a row.
* `Papa.Util.Yaml.parse_bounded`: the parser ends, its nesting and that of its trees are bounded.
-/

namespace Papa.Util.Yaml

/-! ### Runs -/

/-- The value parses the parser is inside of, the most it was inside of, and whether one was
refused. -/
structure Frames where
  depth : ℕ := 0
  deepest : ℕ := 0
  refused : Bool := false

/-- A run of the parser, which gives nothing when it is out of fuel. -/
abbrev ParserRun := ExceptT PapaError (StateT Frames Option)

/-- The fuel is spent. -/
def outOfFuel {α : Type} : ParserRun α := fun _ => none

/-- A computation that does not look at the counter. -/
def ofExpected {α : Type} (x : Expected α) : ParserRun α := fun s => some (x, s)

/-- A value parse at the bound. -/
def refuse {α : Type} (e : PapaError) : ParserRun α := fun s =>
  some (.error e, { s with refused := true })

/-- A value parse inside its guard, which is left on every exit path. -/
def withGuard {α : Type} (x : ParserRun α) : ParserRun α := fun s =>
  let depth := s.depth + 1
  match x { s with depth := depth, deepest := max s.deepest depth } with
  | none => none
  | some (r, s') => some (r, { s' with depth := s'.depth - 1 })

/-- A value parse: the counter is tested first, and the parse runs inside its guard. -/
def guarded {α : Type} (e : PapaError) (x : ParserRun α) : ParserRun α := fun s =>
  if kMaxNestingDepth ≤ s.depth then refuse e s else withGuard x s

/-- A value parser as a run. -/
abbrev ValueRun := ℕ → List Line → ParserRun (Node × List Line)

/-! ### The parser -/

/-- `entryValue` as a run. -/
def entryValueRun (value : ValueRun) (indent : ℕ) (ln : Line) (keySize : ℕ) (v : Str)
    (rest : List Line) : ParserRun (Node × List Line) :=
  let column := ln.indent + 1
  if v.isEmpty || isCommentOnly v then value (indent + 1) rest
  else if isBlockHeader v then
    let (raws, after) := blockLines indent none rest
    ofExpected (.ok (.scalar (blockText ln.payload (v.headD 0) raws) ln.lineNo column, after))
  else do
    let text ← ofExpected (inlineScalar v ln.lineNo (column + keySize + 2))
    pure (.scalar text ln.lineNo (column + keySize + 2), rest)

/-- `compactLoop` as a run. -/
def compactLoopRun (value : ValueRun) (mapIndent : ℕ) :
    (fuel : ℕ) → List Line → ParserRun (List (Str × Node) × List Line)
  | 0, _ => outOfFuel
  | fuel + 1, lines =>
    match skipBlankAndComment lines with
    | [] => pure ([], [])
    | nx :: rest =>
      if nx.indent != mapIndent || nx.payload.isEmpty || nx.payload.head? == some (ch '-') then
        pure ([], nx :: rest)
      else
        match splitKey nx.payload with
        | none => pure ([], nx :: rest)
        | some (k, v) => do
          let (node, rest) ← entryValueRun value mapIndent nx k.length v rest
          let (entries, rest) ← compactLoopRun value mapIndent fuel rest
          pure ((k, node) :: entries, rest)

/-- `firstEntry` as a run. -/
def firstEntryRun (value : ValueRun) (mapIndent : ℕ) (ln : Line) (k v : Str) (rest : List Line) :
    ParserRun (Node × List Line) :=
  let column := mapIndent + 1 + k.length + 2
  if !v.isEmpty && !isCommentOnly v then do
    let text ← ofExpected (inlineScalar v ln.lineNo column)
    pure (.scalar text ln.lineNo column, rest)
  else value (mapIndent + 1) rest

/-- `sequenceItem` as a run. -/
def sequenceItemRun (value : ValueRun) (fuel : ℕ) (ln : Line) (rest : List Line) :
    ParserRun (Node × List Line) :=
  let content := ln.payload.drop 2
  let column := ln.indent + 1
  if content.isEmpty then value (ln.indent + 1) rest
  else
    match splitKey content with
    | some (k, v) => do
      let (node, rest) ← firstEntryRun value (ln.indent + 2) ln k v rest
      let (entries, rest) ← compactLoopRun value (ln.indent + 2) fuel rest
      pure (.mapping ((k, node) :: entries) ln.lineNo column, rest)
    | none => do
      let text ← ofExpected (inlineScalar content ln.lineNo (column + 2))
      pure (.scalar text ln.lineNo (column + 2), rest)

/-- `sequenceLoop` as a run. -/
def sequenceLoopRun (value : ValueRun) (indent : ℕ) :
    (fuel : ℕ) → List Line → ParserRun (List Node × List Line)
  | 0, _ => outOfFuel
  | fuel + 1, lines =>
    match skipBlankAndComment lines with
    | [] => pure ([], [])
    | ln :: rest =>
      if ln.indent < indent then pure ([], ln :: rest)
      else if indent < ln.indent then
        ofExpected (.error
          (yamlErr ln.lineNo (ln.indent + 1) (str "unexpected indent inside sequence")))
      else if !ln.isDash then pure ([], ln :: rest)
      else do
        let (item, rest) ← sequenceItemRun value fuel ln rest
        let (items, rest) ← sequenceLoopRun value indent fuel rest
        pure (item :: items, rest)

/-- `mappingLoop` as a run. -/
def mappingLoopRun (value : ValueRun) (indent : ℕ) :
    (fuel : ℕ) → List Line → ParserRun (List (Str × Node) × List Line)
  | 0, _ => outOfFuel
  | fuel + 1, lines =>
    match skipBlankAndComment lines with
    | [] => pure ([], [])
    | ln :: rest =>
      if ln.indent < indent then pure ([], ln :: rest)
      else if indent < ln.indent then
        ofExpected (.error
          (yamlErr ln.lineNo (ln.indent + 1) (str "unexpected indent inside mapping")))
      else if ln.payload.isEmpty || ln.payload.head? == some (ch '-') then pure ([], ln :: rest)
      else
        match splitKey ln.payload with
        | none => pure ([], ln :: rest)
        | some (k, v) => do
          let key ← ofExpected (mappingKey k ln.lineNo (ln.indent + 1))
          let (node, rest) ← entryValueRun value indent ln key.length v rest
          let (entries, rest) ← mappingLoopRun value indent fuel rest
          pure ((key, node) :: entries, rest)

/-- `parseValue` as a run. -/
def valueRun : (fuel : ℕ) → ValueRun
  | 0, _, _ => outOfFuel
  | fuel + 1, indent, lines =>
    let lineNo := (lines.head?.map Line.lineNo).getD 0
    guarded (yamlErr lineNo 1 (str "nesting is too deep"))
      (match skipBlankAndComment lines with
      | [] => pure (.empty, [])
      | ln :: rest =>
        if ln.isDash && indent ≤ ln.indent + 1 then do
          let (items, rest) ← sequenceLoopRun (valueRun fuel) ln.indent fuel (ln :: rest)
          pure (.sequence items ln.lineNo (ln.indent + 1), rest)
        else if ln.indent < indent then pure (.empty, ln :: rest)
        else if ln.payload.isEmpty then pure (.empty, rest)
        else if (splitKey ln.payload).isSome then do
          let (entries, rest) ← mappingLoopRun (valueRun fuel) ln.indent fuel (ln :: rest)
          pure (.mapping entries ln.lineNo (ln.indent + 1), rest)
        else
          ofExpected (.error (yamlErr ln.lineNo (ln.indent + 1)
            (str "expected a sequence, mapping, or scalar value"))))

/-- `parse` as a run. -/
def parseRun (fuel : ℕ) (text : Str) : ParserRun Node := do
  let lines ← ofExpected (tokenizeLines text)
  match skipSeparators lines with
  | [] => pure .empty
  | ln :: rest => do
    let (root, rest) ← valueRun fuel ln.indent (ln :: rest)
    match skipSeparators rest with
    | [] => pure root
    | ln :: _ => ofExpected (.error
        (yamlErr ln.lineNo (ln.indent + 1) (str "extra content after document end")))

/-! ### What a run returns -/

/-- Inside of `depth` value parses the run returns the given result. It is inside of as many
afterwards, was never inside of more than the bound, and fails if a value parse was refused. -/
def Returns {α : Type} (depth : ℕ) (x : ParserRun α) (r : Expected α) : Prop :=
  ∀ s : Frames, s.depth = depth → s.deepest ≤ kMaxNestingDepth → s.refused = false →
    ∃ s', x s = some (r, s') ∧ s'.depth = depth ∧ s'.deepest ≤ kMaxNestingDepth ∧
      (s'.refused = true → ∃ e, r = .error e)

namespace Returns

variable {α β : Type} {depth : ℕ}

theorem ofExpected (r : Expected α) : Returns depth (Yaml.ofExpected r) r :=
  fun s hdepth hdeepest hrefused => ⟨s, rfl, hdepth, hdeepest, by simp [hrefused]⟩

theorem pure (a : α) : Returns depth (Pure.pure a) (.ok a) := Returns.ofExpected (.ok a)

/-- Runs in a row: the second one is reached only when the first one returned a value, and then no
value parse was refused. -/
theorem bind {x : ParserRun α} {r : Expected α} (hx : Returns depth x r) {f : α → ParserRun β}
    {g : α → Expected β} (hf : ∀ a, r = .ok a → Returns depth (f a) (g a)) :
    Returns depth (x >>= f) (r >>= g) := by
  intro s hdepth hdeepest hrefused
  obtain ⟨s', hrun, hdepth', hdeepest', hrefused'⟩ := hx s hdepth hdeepest hrefused
  cases r with
  | error e =>
    refine ⟨s', ?_, hdepth', hdeepest', fun _ => ⟨e, rfl⟩⟩
    change Option.bind (x s) _ = _
    rw [hrun]
    rfl
  | ok a =>
    have hnot : s'.refused = false := by
      by_contra h
      obtain ⟨e, he⟩ := hrefused' (by simpa using h)
      exact nomatch he
    obtain ⟨s'', hrun', hrest⟩ := hf a rfl s' hdepth' hdeepest' hnot
    refine ⟨s'', ?_, hrest⟩
    change Option.bind (x s) _ = _
    rw [hrun]
    exact hrun'

theorem ite {c : Prop} [Decidable c] {x y : ParserRun α} {r r' : Expected α}
    (hx : Returns depth x r) (hy : Returns depth y r') :
    Returns depth (if c then x else y) (if c then r else r') := by
  split_ifs
  · exact hx
  · exact hy

end Returns

/-! ### Loops -/

/-- What does not change from one number on is its value there. -/
theorem eq_of_succ_eq {α : Type*} {f : ℕ → α} {m : ℕ} (h : ∀ n, m ≤ n → f (n + 1) = f n) {n : ℕ}
    (hn : m ≤ n) : f n = f m := by
  induction n, hn using Nat.le_induction with
  | base => rfl
  | succ n hn ih => rw [h n hn, ih]

section Loops

variable {run : ValueRun} {value : ValueParser} {depth n : ℕ} (hvalue : value.Consumes)
  (hrun : ∀ indent lines, lines.length ≤ n → Returns depth (run indent lines) (value indent lines))

include hrun

theorem returns_entryValue {rest : List Line} (hrest : rest.length ≤ n) (indent : ℕ) (ln : Line)
    (keySize : ℕ) (v : Str) : Returns depth (entryValueRun run indent ln keySize v rest)
      (entryValue value indent ln keySize v rest) :=
  Returns.ite (hrun _ _ hrest) (Returns.ite (Returns.ofExpected _)
    ((Returns.ofExpected _).bind fun _ _ => Returns.pure _))

theorem returns_firstEntry {rest : List Line} (hrest : rest.length ≤ n) (mapIndent : ℕ) (ln : Line)
    (k v : Str) : Returns depth (firstEntryRun run mapIndent ln k v rest)
      (firstEntry value mapIndent ln k v rest) :=
  Returns.ite ((Returns.ofExpected _).bind fun _ _ => Returns.pure _) (hrun _ _ hrest)

include hvalue

theorem returns_compactLoop {fuel : ℕ} {lines : List Line} (hlines : lines.length ≤ n)
    (hfuel : lines.length < fuel) (mapIndent : ℕ) :
    Returns depth (compactLoopRun run mapIndent fuel lines)
      (compactLoop value mapIndent fuel lines) := by
  induction fuel generalizing lines with
  | zero => exact absurd hfuel (Nat.not_lt_zero _)
  | succ fuel ih =>
    have hskip := (skipBlankAndComment_suffix lines).length_le
    rw [compactLoopRun, compactLoop]
    cases hcontent : skipBlankAndComment lines with
    | nil => exact Returns.pure _
    | cons nx rest =>
      rw [hcontent, List.length_cons] at hskip
      refine Returns.ite (Returns.pure _) ?_
      cases hkey : splitKey nx.payload with
      | none => exact Returns.pure _
      | some entry =>
        refine (returns_entryValue hrun (by omega) _ _ _ _).bind fun entry hnode => ?_
        obtain ⟨node, rest'⟩ := entry
        have hle := (hvalue.entryValue hnode).length_le
        exact (ih (by omega) (by omega)).bind fun _ _ => Returns.pure _

theorem returns_sequenceItem {fuel : ℕ} {rest : List Line} (hrest : rest.length ≤ n)
    (hfuel : rest.length < fuel) (ln : Line) :
    Returns depth (sequenceItemRun run fuel ln rest) (sequenceItem value ln rest) := by
  refine Returns.ite (hrun _ _ hrest) ?_
  cases hkey : splitKey (ln.payload.drop 2) with
  | none => exact (Returns.ofExpected _).bind fun _ _ => Returns.pure _
  | some entry =>
    refine (returns_firstEntry hrun hrest _ _ _ _).bind fun ⟨node, rest'⟩ hnode => ?_
    have hle := (hvalue.firstEntry hnode).length_le
    have hloop := returns_compactLoop hvalue hrun (by omega : rest'.length ≤ n)
      (by omega : rest'.length < fuel) (ln.indent + 2)
    -- the fuel of the loop of the source is the number of lines
    have henough : compactLoop value (ln.indent + 2) fuel rest' =
        compactLoop value (ln.indent + 2) rest'.length rest' :=
      eq_of_succ_eq (f := fun fuel => compactLoop value (ln.indent + 2) fuel rest')
        (fun _ hn => compactLoop_succ hvalue hn) (by omega)
    rw [henough] at hloop
    exact hloop.bind fun _ _ => Returns.pure _

theorem returns_sequenceLoop {fuel : ℕ} {lines : List Line} (hlines : lines.length ≤ n)
    (hfuel : lines.length < fuel) (indent : ℕ) :
    Returns depth (sequenceLoopRun run indent fuel lines)
      (sequenceLoop value indent fuel lines) := by
  induction fuel generalizing lines with
  | zero => exact absurd hfuel (Nat.not_lt_zero _)
  | succ fuel ih =>
    have hskip := (skipBlankAndComment_suffix lines).length_le
    rw [sequenceLoopRun, sequenceLoop]
    cases hcontent : skipBlankAndComment lines with
    | nil => exact Returns.pure _
    | cons ln rest =>
      rw [hcontent, List.length_cons] at hskip
      refine Returns.ite (Returns.pure _) (Returns.ite (Returns.ofExpected _)
        (Returns.ite (Returns.pure _) ?_))
      refine (returns_sequenceItem hvalue hrun (by omega) (by omega) ln).bind
        fun entry hitem => ?_
      obtain ⟨item, rest'⟩ := entry
      have hle := (hvalue.sequenceItem hitem).length_le
      exact (ih (by omega) (by omega)).bind fun _ _ => Returns.pure _

theorem returns_mappingLoop {fuel : ℕ} {lines : List Line} (hlines : lines.length ≤ n)
    (hfuel : lines.length < fuel) (indent : ℕ) :
    Returns depth (mappingLoopRun run indent fuel lines) (mappingLoop value indent fuel lines) := by
  induction fuel generalizing lines with
  | zero => exact absurd hfuel (Nat.not_lt_zero _)
  | succ fuel ih =>
    have hskip := (skipBlankAndComment_suffix lines).length_le
    rw [mappingLoopRun, mappingLoop]
    cases hcontent : skipBlankAndComment lines with
    | nil => exact Returns.pure _
    | cons ln rest =>
      rw [hcontent, List.length_cons] at hskip
      refine Returns.ite (Returns.pure _) (Returns.ite (Returns.ofExpected _)
        (Returns.ite (Returns.pure _) ?_))
      cases hkey : splitKey ln.payload with
      | none => exact Returns.pure _
      | some entry =>
        refine (Returns.ofExpected _).bind fun key _ => ?_
        refine (returns_entryValue hrun (by omega) _ _ _ _).bind fun entry hnode => ?_
        obtain ⟨node, rest'⟩ := entry
        have hle := (hvalue.entryValue hnode).length_le
        exact (ih (by omega) (by omega)).bind fun _ _ => Returns.pure _

end Loops

/-! ### Value parses -/

/-- At the bound a value parse is refused. -/
theorem Returns.refused {α : Type} (e : PapaError) (x : ParserRun α) :
    Returns kMaxNestingDepth (guarded e x) (.error e) := by
  intro s hs hdeepest _
  refine ⟨{ s with refused := true }, ?_, hs, hdeepest, fun _ => ⟨e, rfl⟩⟩
  rw [guarded, if_pos (by omega)]
  rfl

/-- Below the bound it runs inside its guard. -/
theorem Returns.guarded {α : Type} {depth : ℕ} (hdepth : depth < kMaxNestingDepth) (e : PapaError)
    {x : ParserRun α} {r : Expected α} (hx : Returns (depth + 1) x r) :
    Returns depth (Yaml.guarded e x) r := by
  intro s hs hdeepest hrefused
  have hmax : max s.deepest (s.depth + 1) ≤ kMaxNestingDepth := max_le hdeepest (by omega)
  obtain ⟨s', hrun, hs', hdeepest', hrefused'⟩ := hx
    { s with depth := s.depth + 1, deepest := max s.deepest (s.depth + 1) }
    (congrArg (· + 1) hs) hmax hrefused
  have hback : s'.depth - 1 = depth := by omega
  refine ⟨{ s' with depth := s'.depth - 1 }, ?_, hback, hdeepest', hrefused'⟩
  rw [Yaml.guarded, if_neg (by omega), withGuard, hrun]

/-- A value parse inside of `depth` others has the levels up to the bound left. -/
theorem returns_value {levels depth fuel : ℕ} (hlevels : depth + levels = kMaxNestingDepth)
    (indent : ℕ) {lines : List Line} (hfuel : lines.length + levels < fuel) :
    Returns depth (valueRun fuel indent lines) (parseValue levels indent lines) := by
  induction levels generalizing depth fuel indent lines with
  | zero =>
    obtain ⟨fuel, rfl⟩ : ∃ n, fuel = n + 1 := ⟨fuel - 1, by omega⟩
    obtain rfl : depth = kMaxNestingDepth := hlevels
    exact Returns.refused _ _
  | succ levels ih =>
    obtain ⟨fuel, rfl⟩ : ∃ n, fuel = n + 1 := ⟨fuel - 1, by omega⟩
    have hvalue := parseValue_suffix levels
    have hrun (indent : ℕ) (lines' : List Line) (hlines : lines'.length ≤ lines.length) :
        Returns (depth + 1) (valueRun fuel indent lines') (parseValue levels indent lines') :=
      ih (by omega) indent (by omega)
    refine Returns.guarded (by omega) _ ?_
    rw [parseValue]
    have hskip := (skipBlankAndComment_suffix lines).length_le
    cases hcontent : skipBlankAndComment lines with
    | nil => exact Returns.pure _
    | cons ln rest =>
      rw [hcontent] at hskip
      -- the fuel of the loops of the source is the number of lines
      have hsequence : sequenceLoop (parseValue levels) ln.indent fuel (ln :: rest) =
          sequenceLoop (parseValue levels) ln.indent (ln :: rest).length (ln :: rest) :=
        eq_of_succ_eq (f := fun fuel => sequenceLoop (parseValue levels) ln.indent fuel
          (ln :: rest))
          (fun _ hn => sequenceLoop_succ hvalue hn) (by omega)
      have hmapping : mappingLoop (parseValue levels) ln.indent fuel (ln :: rest) =
          mappingLoop (parseValue levels) ln.indent (ln :: rest).length (ln :: rest) :=
        eq_of_succ_eq (f := fun fuel => mappingLoop (parseValue levels) ln.indent fuel (ln :: rest))
          (fun _ hn => mappingLoop_succ hvalue hn) (by omega)
      refine Returns.ite ?_ (Returns.ite (Returns.pure _) (Returns.ite (Returns.pure _)
        (Returns.ite ?_ (Returns.ofExpected _))))
      · rw [parseSequence, ← hsequence]
        exact (returns_sequenceLoop hvalue hrun hskip (by omega) _).bind fun _ _ => Returns.pure _
      · rw [parseMapping, ← hmapping]
        exact (returns_mappingLoop hvalue hrun hskip (by omega) _).bind fun _ _ => Returns.pure _

/-! ### Documents -/

theorem length_of_mapM {ε α β : Type} {f : α → Except ε β} {l : List α} {out : List β}
    (h : l.mapM f = .ok out) : out.length = l.length := by
  induction l generalizing out with
  | nil =>
    obtain rfl := Except.ok.inj h
    rfl
  | cons a l ih =>
    rw [List.mapM_cons] at h
    obtain ⟨b, -, h⟩ := bind_eq_ok.mp h
    obtain ⟨bs, hbs, h⟩ := bind_eq_ok.mp h
    obtain rfl := Except.ok.inj h
    rw [List.length_cons, List.length_cons, ih hbs]

/-- With the lines of a text and the levels of the bound as fuel the parser returns. -/
theorem returns_parse {text : Str} {fuel : ℕ}
    (hfuel : (text.splitOn 10).length + kMaxNestingDepth < fuel) :
    Returns 0 (parseRun fuel text) (parse text) := by
  refine (Returns.ofExpected _).bind fun lines hlines => ?_
  have hlength : lines.length = (text.splitOn 10).length := by
    rw [length_of_mapM hlines, List.length_zipIdx]
  rw [parseDocument]
  have hskip : (skipSeparators lines).length ≤ lines.length := (List.dropWhile_suffix _).length_le
  cases hcontent : skipSeparators lines with
  | nil => exact Returns.pure _
  | cons ln rest =>
    rw [hcontent] at hskip
    refine (returns_value (Nat.zero_add _) ln.indent (by omega)).bind fun ⟨root, rest'⟩ _ => ?_
    dsimp only
    cases skipSeparators rest' with
    | nil => exact Returns.pure _
    | cons ln' rest'' => exact Returns.ofExpected _

/-! ### Trees -/

mutual

/-- The nesting of a tree: the nodes on its longest path. -/
def Node.depth : Node → ℕ
  | .scalar _ _ _ => 1
  | .sequence items _ _ => itemsDepth items + 1
  | .mapping entries _ _ => entriesDepth entries + 1

/-- The nesting of the items of a sequence. -/
def itemsDepth : List Node → ℕ
  | [] => 0
  | item :: items => max item.depth (itemsDepth items)

/-- The nesting of the values of a mapping. -/
def entriesDepth : List (Str × Node) → ℕ
  | [] => 0
  | (_, node) :: entries => max node.depth (entriesDepth entries)

end

/-- A parser whose trees are nested at most so deep. -/
def ValueParser.Yields (value : ValueParser) (n : ℕ) : Prop :=
  ∀ indent lines node after, value indent lines = .ok (node, after) → node.depth ≤ n

theorem Node.depth_scalar (text : Str) (line column : ℕ) : (scalar text line column).depth = 1 := by
  rw [Node.depth]

namespace ValueParser.Yields

variable {value : ValueParser} {n : ℕ} (hvalue : value.Yields n) (hn : 1 ≤ n)
  {lines after : List Line} {ln : Line}

include hvalue hn

theorem entryValue {indent keySize : ℕ} {v : Str} {node : Node}
    (h : entryValue value indent ln keySize v lines = .ok (node, after)) : node.depth ≤ n := by
  unfold Yaml.entryValue at h
  split_ifs at h with hempty hblock
  · exact hvalue _ _ _ _ h
  · obtain ⟨rfl, -⟩ := Prod.mk.inj (Except.ok.inj h)
    rwa [Node.depth_scalar]
  · obtain ⟨text, -, h⟩ := bind_eq_ok.mp h
    obtain ⟨rfl, -⟩ := Prod.mk.inj (Except.ok.inj h)
    rwa [Node.depth_scalar]

theorem firstEntry {indent : ℕ} {k v : Str} {node : Node}
    (h : firstEntry value indent ln k v lines = .ok (node, after)) : node.depth ≤ n := by
  unfold Yaml.firstEntry at h
  split_ifs at h with hinline
  · obtain ⟨text, -, h⟩ := bind_eq_ok.mp h
    obtain ⟨rfl, -⟩ := Prod.mk.inj (Except.ok.inj h)
    rwa [Node.depth_scalar]
  · exact hvalue _ _ _ _ h

theorem compactLoop {mapIndent fuel : ℕ} {entries : List (Str × Node)}
    (h : compactLoop value mapIndent fuel lines = .ok (entries, after)) :
    entriesDepth entries ≤ n := by
  induction fuel generalizing lines entries with
  | zero =>
    obtain ⟨rfl, -⟩ := Prod.mk.inj (Except.ok.inj h)
    simp [entriesDepth]
  | succ fuel ih =>
    obtain ⟨rfl, -⟩ | ⟨ln, rest, k, v, node, rest', entries', -, hentry, hloop, rfl⟩ :=
      compactLoop_cases h
    · simp [entriesDepth]
    · rw [entriesDepth]
      exact max_le (hvalue.entryValue hn hentry) (ih hloop)

theorem mappingLoop {indent fuel : ℕ} {entries : List (Str × Node)}
    (h : mappingLoop value indent fuel lines = .ok (entries, after)) :
    entriesDepth entries ≤ n := by
  induction fuel generalizing lines entries with
  | zero =>
    obtain ⟨rfl, -⟩ := Prod.mk.inj (Except.ok.inj h)
    simp [entriesDepth]
  | succ fuel ih =>
    obtain ⟨rfl, -⟩ | ⟨ln, rest, key, v, node, rest', entries', -, hentry, hloop, rfl⟩ :=
      mappingLoop_cases h
    · simp [entriesDepth]
    · rw [entriesDepth]
      exact max_le (hvalue.entryValue hn hentry) (ih hloop)

/-- A mapping that starts behind a dash adds a level of its own. -/
theorem sequenceItem {node : Node} (h : sequenceItem value ln lines = .ok (node, after)) :
    node.depth ≤ n + 1 := by
  unfold Yaml.sequenceItem at h
  extract_lets content column at h
  split_ifs at h with hempty
  · exact (hvalue _ _ _ _ h).trans (Nat.le_succ n)
  · split at h
    · obtain ⟨⟨first, rest⟩, hfirst, h⟩ := bind_eq_ok.mp h
      obtain ⟨⟨entries, rest'⟩, hloop, h⟩ := bind_eq_ok.mp h
      obtain ⟨rfl, -⟩ := Prod.mk.inj (Except.ok.inj h)
      rw [Node.depth, entriesDepth]
      exact Nat.succ_le_succ (max_le (hvalue.firstEntry hn hfirst) (hvalue.compactLoop hn hloop))
    · obtain ⟨text, -, h⟩ := bind_eq_ok.mp h
      obtain ⟨rfl, -⟩ := Prod.mk.inj (Except.ok.inj h)
      rw [Node.depth_scalar]
      exact Nat.le_add_left 1 n

theorem sequenceLoop {indent fuel : ℕ} {items : List Node}
    (h : sequenceLoop value indent fuel lines = .ok (items, after)) : itemsDepth items ≤ n + 1 := by
  induction fuel generalizing lines items with
  | zero =>
    obtain ⟨rfl, -⟩ := Prod.mk.inj (Except.ok.inj h)
    simp [itemsDepth]
  | succ fuel ih =>
    obtain ⟨rfl, -⟩ | ⟨ln, rest, item, rest', items', -, hitem, hloop, rfl⟩ :=
      sequenceLoop_cases h
    · simp [itemsDepth]
    · rw [itemsDepth]
      exact max_le (hvalue.sequenceItem hn hitem) (ih hloop)

end ValueParser.Yields

/-- A level of value parses adds at most two levels to a tree: a sequence, and the mapping behind
its dash. -/
theorem parseValue_yields (levels : ℕ) : (parseValue levels).Yields (2 * levels + 1) := by
  induction levels with
  | zero => exact fun _ _ _ _ h => nomatch h
  | succ levels ih =>
    intro indent lines node after h
    have hpositive : 1 ≤ 2 * levels + 1 := Nat.le_add_left 1 _
    unfold parseValue at h
    split at h
    · obtain ⟨rfl, -⟩ := Prod.mk.inj (Except.ok.inj h)
      rw [Node.empty, Node.depth_scalar]
      omega
    · next ln rest hrest =>
      split_ifs at h with hdash hleft hempty hkey
      · obtain ⟨⟨items, rest'⟩, hloop, h⟩ := bind_eq_ok.mp h
        obtain ⟨rfl, -⟩ := Prod.mk.inj (Except.ok.inj h)
        have hitems := ih.sequenceLoop hpositive hloop
        rw [Node.depth]
        omega
      · obtain ⟨rfl, -⟩ := Prod.mk.inj (Except.ok.inj h)
        rw [Node.empty, Node.depth_scalar]
        omega
      · obtain ⟨rfl, -⟩ := Prod.mk.inj (Except.ok.inj h)
        rw [Node.empty, Node.depth_scalar]
        omega
      · obtain ⟨⟨entries, rest'⟩, hloop, h⟩ := bind_eq_ok.mp h
        obtain ⟨rfl, -⟩ := Prod.mk.inj (Except.ok.inj h)
        have hentries := ih.mappingLoop hpositive hloop
        rw [Node.depth]
        omega

theorem parse_depth_le {text : Str} {node : Node} (h : parse text = .ok node) :
    node.depth ≤ 2 * kMaxNestingDepth + 1 := by
  obtain ⟨lines, -, h⟩ := bind_eq_ok.mp h
  unfold parseDocument at h
  split at h
  · obtain rfl := Except.ok.inj h
    rw [Node.empty, Node.depth_scalar]
    omega
  · obtain ⟨⟨root, rest⟩, hroot, h⟩ := bind_eq_ok.mp h
    dsimp only at h
    split at h
    · obtain rfl := Except.ok.inj h
      exact parseValue_yields _ _ _ _ _ hroot
    · exact nomatch h

/-- **The parser ends, and its nesting is bounded.** With any fuel above the number of lines and the
bound the run returns what the parser does, inside of no value parse at the end and of at most
`kMaxNestingDepth` at any time; a text whose parse was refused at the bound is an error; and no tree
is nested deeper than twice the bound and one. -/
theorem parse_bounded (text : Str) :
    (∀ fuel, (text.splitOn 10).length + kMaxNestingDepth < fuel →
      ∃ frames : Frames, parseRun fuel text {} = some (parse text, frames) ∧
        frames.depth = 0 ∧ frames.deepest ≤ kMaxNestingDepth ∧
        (frames.refused = true → ∃ e, parse text = .error e)) ∧
    ∀ node, parse text = .ok node → node.depth ≤ 2 * kMaxNestingDepth + 1 :=
  ⟨fun _ hfuel => returns_parse hfuel {} rfl (Nat.zero_le _) rfl, fun _ => parse_depth_le⟩

end Papa.Util.Yaml
