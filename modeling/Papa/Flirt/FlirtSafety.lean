import Papa.Flirt.FlirtReader

/-!
# What the FLIRT reader accepts

The reader is regular: whatever the file, it ends with a tree or an error without looking outside
the buffer, the tree depends only on the bytes consumed, and a file that is cut off before the end
of the tree is refused. In a tree that is accepted every pattern extends the one above it, and the
modules are on the nodes without children.

## Main definitions

* `FlirtNode.Good`: what holds of every node that is accepted.

## Main results

* `regular_parseHeader`, `regular_parseNode`.
* `parseNode_spec`: the tree.
* `parseSigBuffer_safe`: files.
-/

namespace Papa.Flirt

open ByteReader Cursor

/-! ### The reader is regular -/

theorem regular_parseHeaderFields (version : UInt8) : Regular (parseHeaderFields version) := by
  refine (regular_readU8.failWith _).bind fun arch => ?_
  refine (regular_readU32Le.failWith _).bind fun fileTypes => ?_
  refine (regular_readU16Le.failWith _).bind fun osTypes => ?_
  refine (regular_readU16Le.failWith _).bind fun appTypes => ?_
  refine (regular_readU16Le.failWith _).bind fun features => ?_
  refine (regular_readU16Le.failWith _).bind fun oldNFunctions => ?_
  refine (regular_readU16Le.failWith _).bind fun patternCrc16 => ?_
  refine ((regular_readBytes 12).failWith _).bind fun ctype => ?_
  refine (regular_readU8.failWith _).bind fun libraryNameLen => ?_
  refine (regular_readU16Le.failWith _).bind fun ctypesCrc16 => ?_
  refine (Regular.ite (fun _ => regular_readU32Le.failWith _) fun _ => Regular.pure _).bind
    fun nFunctions => ?_
  refine (Regular.ite (fun _ => regular_readU16Le.failWith _) fun _ => Regular.pure _).bind
    fun patternSize => ?_
  refine (Regular.ite (fun _ => regular_readU16Le.failWith _) fun _ => Regular.pure _).bind
    fun unknownV10 => ?_
  exact (Regular.ite (fun _ => (regular_readBytes _).failWith _) fun _ => Regular.pure _).bind
    fun libraryName => Regular.pure _

theorem regular_parseHeader : Regular parseHeader := by
  refine ((regular_readBytes 6).failWith _).bind fun magic => ?_
  refine Regular.ite (fun _ => Regular.fail _) fun _ => ?_
  refine (regular_readU8.failWith _).bind fun version => ?_
  exact Regular.ite (fun _ => Regular.fail _) fun _ => regular_parseHeaderFields version

theorem regular_readWord (version : UInt8) : Regular (readWord version) :=
  Regular.ite (fun _ => regular_readVle16.bind fun _ => Regular.pure _) fun _ => regular_readVle32

theorem consumes_readWord (version : UInt8) : Consumes (readWord version) := by
  unfold readWord
  split_ifs
  · exact consumes_readVle16.bind regular_readVle16 fun _ => Regular.pure _
  · exact consumes_readVle32

theorem regular_readVariantMask (length : UInt16) : Regular (readVariantMask length) :=
  Regular.ite (fun _ => Regular.pure _) fun _ =>
    Regular.ite (fun _ => regular_readVle16.bind fun _ => Regular.pure _) fun _ =>
      regular_readVle32.bind fun _ => Regular.pure _

theorem regular_nameTurn (s : Str × UInt8) : Regular (nameTurn s) :=
  Regular.ite (fun _ => (regular_readU8.failWith _).bind fun _ => Regular.pure _) fun _ =>
    Regular.pure _

theorem advances_nameTurn : Advances nameTurn := by
  intro s s' buf pos q hpos hdone
  unfold nameTurn at hdone
  split_ifs at hdone
  · exact (consumes_readU8.failWith _).bind (regular_readU8.failWith _) (fun _ => Regular.pure _)
      hpos hdone
  · cases hdone

theorem regular_readNameLead : Regular readNameLead :=
  (regular_readU8.failWith _).bind fun _ =>
    Regular.ite (fun _ => (regular_readU8.failWith _).bind fun _ => Regular.pure _) fun _ =>
      Regular.pure _

theorem regular_moduleNameTurn (version : UInt8) (s : ℤ × List FlirtName) :
    Regular (moduleNameTurn version s) ∧ Consumes (moduleNameTurn version s) := by
  refine ((regular_readWord version).failWith _).bind_of_consumes
    ((consumes_readWord version).failWith _) fun relativeOffset => ?_
  refine regular_readNameLead.bind fun lead => ?_
  refine (Regular.loop regular_nameTurn advances_nameTurn _).bind fun name => ?_
  exact Regular.ite (fun _ => Regular.pure _) fun _ => Regular.pure _

theorem regular_parseModuleNames (version : UInt8) : Regular (parseModuleNames version) :=
  Regular.loop (fun s => (regular_moduleNameTurn version s).1)
    (Consumes.advances fun s => (regular_moduleNameTurn version s).2) _

theorem regular_readCount (version : UInt8) (detail : String) :
    Regular (readCount version detail) :=
  Regular.ite (fun _ => (regular_readWord version).failWith _) fun _ => Regular.pure _

theorem regular_parseTailBytes (version : UInt8) : Regular (parseTailBytes version) := by
  refine (regular_readCount version _).bind fun count => Regular.repeatM (fun out => ?_) _ _
  refine ((regular_readWord version).failWith _).bind fun offset => ?_
  exact (regular_readU8.failWith _).bind fun value => Regular.pure _

theorem regular_readReferenceLength : Regular readReferenceLength :=
  (regular_readU8.failWith _).bind fun _ =>
    Regular.ite (fun _ => (regular_readVle16.failWith _).bind fun _ => Regular.pure _) fun _ =>
      Regular.pure _

theorem regular_parseReferencedFunctions (version : UInt8) :
    Regular (parseReferencedFunctions version) := by
  refine (regular_readCount version _).bind fun count => Regular.repeatM (fun out => ?_) _ _
  refine ((regular_readWord version).failWith _).bind fun offset => ?_
  refine regular_readReferenceLength.bind fun nameLen => ?_
  refine (Regular.repeatM (fun name => ?_) _ _).bind fun name => Regular.pure _
  exact (regular_readU8.failWith _).bind fun ch => Regular.pure _

theorem regular_sameCrcTurn (version crcLen : UInt8) (crc16 : UInt16) (out : List FlirtModule) :
    Regular (sameCrcTurn version crcLen crc16 out) ∧
      Consumes (sameCrcTurn version crcLen crc16 out) := by
  refine ((regular_readWord version).failWith _).bind_of_consumes
    ((consumes_readWord version).failWith _) fun functionSize => ?_
  refine (regular_parseModuleNames version).bind fun names => ?_
  refine (Regular.ite (fun _ => regular_parseTailBytes version) fun _ => Regular.pure _).bind
    fun tailBytes => ?_
  refine (Regular.ite (fun _ => regular_parseReferencedFunctions version)
    fun _ => Regular.pure _).bind fun references => ?_
  exact Regular.ite (fun _ => Regular.pure _) fun _ => Regular.pure _

theorem regular_leafModulesTurn (version : UInt8) (out : List FlirtModule) :
    Regular (leafModulesTurn version out) ∧ Consumes (leafModulesTurn version out) := by
  refine (regular_readU8.failWith _).bind_of_consumes (consumes_readU8.failWith _) fun crcLen => ?_
  refine (regular_readU8.failWith _).bind fun crcHi => ?_
  refine (regular_readU8.failWith _).bind fun crcLo => ?_
  refine (Regular.loop (fun s => (regular_sameCrcTurn version crcLen _ s).1)
    (Consumes.advances fun s => (regular_sameCrcTurn version crcLen _ s).2) out).bind
    fun modules => ?_
  exact Regular.ite (fun _ => Regular.pure _) fun _ => Regular.pure _

theorem regular_parseLeafModules (version : UInt8) : Regular (parseLeafModules version) :=
  Regular.loop (fun s => (regular_leafModulesTurn version s).1)
    (Consumes.advances fun s => (regular_leafModulesTurn version s).2) _

theorem regular_parsePattern (version : UInt8) (parent : FlirtPattern) :
    Regular (parsePattern version parent) := by
  refine Regular.bind (Regular.ite (fun _ => (regular_readU8.failWith _).bind fun _ =>
    Regular.pure _) fun _ => regular_readVle16.failWith _) fun length => ?_
  split_ifs
  · refine ((regular_readVariantMask length).failWith _).bind fun mask => ?_
    exact ((regular_readBytes _).failWith _).bind fun literals => Regular.pure _
  · exact Regular.fail _

theorem regular_parseNode (version : UInt8) (levels : ℕ) (parent : FlirtPattern) :
    Regular (parseNode version levels parent) := by
  induction levels generalizing parent with
  | zero => exact Regular.fail _
  | succ levels ih =>
    refine (regular_readVle16.failWith _).bind fun childCount =>
      Regular.ite (fun _ => ?_) fun _ => ?_
    · exact (regular_parseLeafModules version).bind fun leafModules => Regular.pure _
    · refine (Regular.repeatM (fun children => ?_) _ _).bind fun children => Regular.pure _
      refine (regular_parsePattern version parent).bind fun pattern => ?_
      exact (ih pattern).bind fun child => Regular.pure _

/-! ### The tree -/

namespace FlirtPattern

theorem Extends.refl (p : FlirtPattern) : p.Extends p := ⟨Nat.le_refl _, fun _ => ⟨rfl, rfl⟩⟩

/-- The turns of a segment leave the positions before it alone. -/
theorem segmentTurn_foldl {prefixLen length : ℕ} (h : prefixLen + length ≤ kMaxPatternLength)
    (mask : UInt64) (literals : List UInt8) (ps : List (Fin length)) (s : Segment)
    (i : Fin kMaxPatternLength) (hi : i < prefixLen) :
    (ps.foldl (segmentTurn h mask literals) s).bytes.get i = s.bytes.get i ∧
      (ps.foldl (segmentTurn h mask literals) s).wildcard.get i = s.wildcard.get i := by
  induction ps generalizing s with
  | nil => exact ⟨rfl, rfl⟩
  | cons p ps ih =>
    have hne : prefixLen + p.val ≠ i.val := by omega
    have hturn : (segmentTurn h mask literals s p).bytes.get i = s.bytes.get i ∧
        (segmentTurn h mask literals s p).wildcard.get i = s.wildcard.get i := by
      unfold segmentTurn
      dsimp only
      split_ifs
      · exact ⟨rfl, Vector.getElem_set_ne (by omega) i.isLt hne⟩
      · exact ⟨Vector.getElem_set_ne (by omega) i.isLt hne, rfl⟩
    rw [List.foldl_cons, (ih _).1, (ih _).2]
    exact hturn

/-- The pattern of a child extends its parent's. -/
theorem extends_append (parent : FlirtPattern) {length : ℕ}
    (h : parent.length + length ≤ kMaxPatternLength) (mask : UInt64) (literals : List UInt8) :
    parent.Extends (parent.append h mask literals) := by
  refine ⟨Nat.le_add_right _ _, fun i => ?_⟩
  exact segmentTurn_foldl h mask literals (List.finRange length) ⟨parent.bytes, parent.wildcard, 0⟩
    ⟨i, Nat.lt_of_lt_of_le i.isLt parent.length_le⟩ i.isLt

end FlirtPattern

/-- What holds of every node: the patterns of its children extend its own, and it has modules only
when it has no children. -/
structure FlirtNode.Good (node : FlirtNode) : Prop where
  extends_child : ∀ child ∈ node.children, node.pattern.Extends child.pattern
  children_eq_nil : node.leafModules ≠ [] → node.children = []

theorem parsePattern_spec {version : UInt8} {parent pattern : FlirtPattern} {buf : List UInt8}
    {pos q : ℕ} (hdone : parsePattern version parent buf pos = .done pattern q) :
    parent.Extends pattern := by
  obtain ⟨length, r, -, hrest⟩ := bind_eq_done.mp hdone
  by_cases h : parent.length + length.toNat ≤ kMaxPatternLength
  · rw [dif_pos h] at hrest
    obtain ⟨mask, r₁, -, hrest⟩ := bind_eq_done.mp hrest
    obtain ⟨literals, r₂, -, hrest⟩ := bind_eq_done.mp hrest
    cases hrest
    exact parent.extends_append h mask literals
  · rw [dif_neg h] at hrest
    exact nomatch hrest

/-- A node that is accepted has the pattern accumulated so far, and below it no more levels than are
left, all of them good. -/
theorem parseNode_spec {version : UInt8} {levels : ℕ} {parent : FlirtPattern} {buf : List UInt8}
    {pos q : ℕ} {node : FlirtNode}
    (hdone : parseNode version levels parent buf pos = .done node q) :
    node.pattern = parent ∧ node.depth < levels ∧ ∀ n ∈ node.nodes, n.Good := by
  induction levels generalizing parent buf pos q node with
  | zero => exact nomatch hdone
  | succ levels ih =>
    obtain ⟨childCount, r, -, hrest⟩ := bind_eq_done.mp hdone
    by_cases hleaf : childCount = 0
    · rw [if_pos hleaf] at hrest
      obtain ⟨leafModules, r₁, -, hrest⟩ := bind_eq_done.mp hrest
      cases hrest
      refine ⟨rfl, Nat.succ_pos _, fun n hn => ?_⟩
      obtain rfl := List.mem_singleton.mp hn
      exact ⟨fun child hchild => absurd hchild List.not_mem_nil, fun _ => rfl⟩
    · rw [if_neg hleaf] at hrest
      obtain ⟨children, r₁, hchildren, hrest⟩ := bind_eq_done.mp hrest
      cases hrest
      have hall : ∀ c ∈ children,
          parent.Extends c.pattern ∧ c.depth < levels ∧ ∀ n ∈ c.nodes, n.Good := by
        refine repeatM_induct (P := fun children => ∀ c ∈ children,
          parent.Extends c.pattern ∧ c.depth < levels ∧ ∀ n ∈ c.nodes, n.Good)
          (fun {s s' buf pos q} hs hturn => ?_)
          (fun c hc => absurd hc List.not_mem_nil) hchildren
        obtain ⟨pattern, r₂, hpattern, hturn⟩ := bind_eq_done.mp hturn
        obtain ⟨child, r₃, hchild, hturn⟩ := bind_eq_done.mp hturn
        cases hturn
        intro c hc
        rcases List.mem_append.mp hc with hc | hc
        · exact hs c hc
        · obtain rfl := List.mem_singleton.mp hc
          obtain ⟨heq, hdepth, hgood⟩ := ih hchild
          exact ⟨heq ▸ parsePattern_spec hpattern, hdepth, hgood⟩
      refine ⟨rfl, Nat.lt_succ_of_le (FlirtNode.depthOf_le fun c hc => (hall c hc).2.1),
        fun n hn => ?_⟩
      rcases List.mem_cons.mp hn with rfl | hn
      · exact ⟨fun child hchild => (hall child hchild).1, fun hne => absurd rfl hne⟩
      · rw [FlirtNode.nodesOf_eq] at hn
        obtain ⟨c, hc, hn⟩ := List.mem_flatMap.mp hn
        exact (hall c hc).2.2 n hn

/-! ### Files -/

/-- The body of a file: it ends with a tree or an error. -/
theorem parseBody_within (hdr : FlirtHeader) (body : List UInt8) :
    (∃ e, parseBody hdr body = .failed e) ∨ ∃ tree pos, parseBody hdr body = .done tree pos ∧
      pos ≤ body.length := by
  unfold parseBody
  rcases (regular_parseNode hdr.version (kMaxTreeDepth + 1) {}).within (Nat.zero_le body.length)
    with ⟨e, he⟩ | ⟨root, pos, hroot, -, hle⟩
  · exact Or.inl ⟨e, by rw [he]; rfl⟩
  · exact Or.inr ⟨⟨hdr, root⟩, pos, by rw [hroot]; rfl, hle⟩

theorem parseBody_spec {hdr : FlirtHeader} {body : List UInt8} {tree : FlirtTree} {pos : ℕ}
    (h : parseBody hdr body = .done tree pos) : tree.header = hdr ∧
      tree.root.depth ≤ kMaxTreeDepth ∧ ∀ n ∈ tree.root.nodes, n.Good := by
  obtain ⟨root, q, hroot, hrest⟩ := Outcome.andThen_eq_done.mp h
  cases hrest
  obtain ⟨-, hdepth, hgood⟩ := parseNode_spec hroot
  exact ⟨rfl, Nat.le_of_lt_succ hdepth, hgood⟩

/-- The part of a body that a tree was read from. -/
theorem parseBody_prefix {hdr : FlirtHeader} {body : List UInt8} {tree : FlirtTree} {pos : ℕ}
    (h : parseBody hdr body = .done tree pos) : pos ≤ body.length ∧
      (∀ r ≥ pos, ∀ rest, parseBody hdr (body.take r ++ rest) = .done tree pos) ∧
      ∀ n < pos, ∃ e, parseBody hdr (body.take n) = .failed e := by
  obtain ⟨root, q, hroot, hrest⟩ := Outcome.andThen_eq_done.mp h
  cases hrest
  have hregular := regular_parseNode hdr.version (kMaxTreeDepth + 1) {}
  refine ⟨(hregular.le_length (Nat.zero_le _) hroot).2, fun r hr rest => ?_, fun n hn => ?_⟩
  · rw [parseBody, hregular.done_take (Nat.zero_le _) hroot hr]
    rfl
  · obtain ⟨e, he⟩ := hregular.truncate (Nat.zero_le _) hroot (Nat.zero_le n) hn
    exact ⟨e, by rw [parseBody, he]; rfl⟩

/-- Where the body of a file begins. -/
def FlirtHeader.bodyOffset (hdr : FlirtHeader) : ℕ :=
  headerSizeForVersion hdr.version + hdr.libraryNameLen.toNat

theorem parseSigBuffer_of_header {tinfl : Inflater} {sig : List UInt8} {hdr : FlirtHeader}
    {headerEnd : ℕ} (h : parseHeader sig 0 = .done hdr headerEnd) : parseSigBuffer tinfl sig =
      if hdr.bodyOffset > sig.length then .failed (truncated "body offset")
      else if hdr.isCompressed then
        match decompressInflate tinfl (sig.drop hdr.bodyOffset) with
        | .error e => .failed e
        | .ok inflated => parseBody hdr inflated
      else parseBody hdr (sig.drop hdr.bodyOffset) := by
  rw [parseSigBuffer, h]
  rfl

/-- A file whose body is not compressed: the prefix that decides. -/
theorem parseSigBuffer_prefix {tinfl : Inflater} {sig : List UInt8} {hdr : FlirtHeader}
    {headerEnd : ℕ} {tree : FlirtTree} {pos : ℕ} (hheader : parseHeader sig 0 = .done hdr headerEnd)
    (hplain : hdr.isCompressed = false) (hoffset : hdr.bodyOffset ≤ sig.length)
    (hbody : parseBody hdr (sig.drop hdr.bodyOffset) = .done tree pos) :
    ∃ c ≤ sig.length,
      (∀ rest, parseSigBuffer tinfl (sig.take c ++ rest) = .done tree pos) ∧
      ∀ n < c, ∃ e, parseSigBuffer tinfl (sig.take n) = .failed e := by
  obtain ⟨hpos, hextend, htruncate⟩ := parseBody_prefix hbody
  have hend := (regular_parseHeader.le_length (Nat.zero_le _) hheader).2
  rw [List.length_drop] at hpos
  obtain ⟨c, hc⟩ : ∃ c, max headerEnd (hdr.bodyOffset + pos) = c := ⟨_, rfl⟩
  have hcle : c ≤ sig.length := by omega
  refine ⟨c, hcle, fun rest => ?_, fun n hn => ?_⟩
  · have hlen : hdr.bodyOffset ≤ (sig.take c).length := by rw [List.length_take]; omega
    have hdrop : (sig.take c ++ rest).drop hdr.bodyOffset =
        (sig.drop hdr.bodyOffset).take (c - hdr.bodyOffset) ++ rest := by
      rw [List.drop_append_of_le_length hlen, List.drop_take]
    rw [parseSigBuffer_of_header (regular_parseHeader.done_take (Nat.zero_le _) hheader
      (by omega : headerEnd ≤ c) rest), if_neg (by rw [List.length_append]; omega), hplain,
      if_neg Bool.false_ne_true, hdrop]
    exact hextend _ (by omega) rest
  · rcases Nat.lt_or_ge n headerEnd with hlt | hge
    · obtain ⟨e, he⟩ := regular_parseHeader.truncate (Nat.zero_le _) hheader (Nat.zero_le n) hlt
      exact ⟨e, by rw [parseSigBuffer, he]; rfl⟩
    · have hcut := regular_parseHeader.done_take (Nat.zero_le _) hheader hge []
      rw [List.append_nil] at hcut
      rw [parseSigBuffer_of_header hcut, hplain, if_neg Bool.false_ne_true]
      by_cases hout : hdr.bodyOffset > (sig.take n).length
      · exact ⟨_, if_pos hout⟩
      · rw [if_neg hout, List.drop_take]
        rw [List.length_take] at hout
        exact htruncate _ (by omega)

/-- **What the reader does with a file.** Whatever the file and the inflater, the reader ends with
an error or a tree, never outside the buffer and never cut off. The tree is at most `kMaxTreeDepth`
deep, its patterns are at most `kMaxPatternLength` long and extend those above them, and its modules
are on nodes without children. When the body is not compressed, what was consumed is a prefix of the
file: whatever follows it the result is the same, and a file cut off within it is refused. -/
theorem parseSigBuffer_safe (tinfl : Inflater) (sig : List UInt8) :
    (∃ e, parseSigBuffer tinfl sig = .failed e) ∨
      ∃ tree pos, parseSigBuffer tinfl sig = .done tree pos ∧
        tree.root.depth ≤ kMaxTreeDepth ∧
        (∀ node ∈ tree.root.nodes, node.pattern.length ≤ kMaxPatternLength ∧
          (∀ child ∈ node.children, node.pattern.Extends child.pattern) ∧
          (node.leafModules ≠ [] → node.children = [])) ∧
        (tree.header.isCompressed = false → ∃ c ≤ sig.length,
          (∀ rest, parseSigBuffer tinfl (sig.take c ++ rest) = .done tree pos) ∧
          ∀ n < c, ∃ e, parseSigBuffer tinfl (sig.take n) = .failed e) := by
  rcases regular_parseHeader.within (Nat.zero_le sig.length)
    with ⟨e, he⟩ | ⟨hdr, headerEnd, hheader, -⟩
  · exact Or.inl ⟨e, by rw [parseSigBuffer, he]; rfl⟩
  by_cases hoffset : hdr.bodyOffset > sig.length
  · exact Or.inl ⟨_, by rw [parseSigBuffer_of_header hheader, if_pos hoffset]⟩
  -- The body is the rest of the file, or what the inflater makes of it.
  have hbody : (∃ e, parseSigBuffer tinfl sig = .failed e) ∨
      ∃ body, parseSigBuffer tinfl sig = parseBody hdr body ∧
        (hdr.isCompressed = false → body = sig.drop hdr.bodyOffset) := by
    rw [parseSigBuffer_of_header hheader, if_neg hoffset]
    cases hcompressed : hdr.isCompressed with
    | true =>
      rw [if_pos rfl]
      cases decompressInflate tinfl (sig.drop hdr.bodyOffset) with
      | error e => exact Or.inl ⟨e, rfl⟩
      | ok inflated => exact Or.inr ⟨inflated, rfl, fun h => absurd h.symm Bool.false_ne_true⟩
    | false => exact Or.inr ⟨_, if_neg Bool.false_ne_true, fun _ => rfl⟩
  rcases hbody with hfailed | ⟨body, heq, hplain⟩
  · exact Or.inl hfailed
  rw [heq]
  rcases parseBody_within hdr body with hfailed | ⟨tree, pos, hdone, -⟩
  · exact Or.inl hfailed
  obtain ⟨hhdr, hdepth, hgood⟩ := parseBody_spec hdone
  refine Or.inr ⟨tree, pos, hdone, hdepth, fun node hnode => ?_, fun h => ?_⟩
  · exact ⟨node.pattern.length_le, (hgood node hnode).extends_child,
      (hgood node hnode).children_eq_nil⟩
  · rw [hhdr] at h
    rw [hplain h] at hdone
    exact parseSigBuffer_prefix hheader h (not_lt.mp hoffset) hdone

end Papa.Flirt
