import Papa.Flirt.FlirtSafety

/-!
# The FLIRT matcher

A function is matched by going down the tree while the patterns match its bytes. Since the pattern
of a child extends its parent's, nothing is lost where a pattern fails: the modules found are the
modules of the whole tree, depth first, whose own pattern, checksum and tail bytes match.

## Main definitions

* `flirtCrc16`, `moduleVerifies`, `collectMatching`, `nodeMatches`.
* `matchFlirt`, `matchFlirtModules`.
* `FlirtNode.leaves`, `Accepts`: the modules of a tree, and what it is for one to match.

## Main results

* `collectMatching_eq`, `nodeMatches_iff`: trees whose patterns extend those above them.
* `matchFlirtModules_spec`: the trees that the reader accepts.
-/

namespace Papa.Flirt

/-! ### The matcher -/

/-- `kCrc16Polynomial`. -/
def kCrc16Polynomial : UInt16 := 0x8408

/-- One bit of the checksum. -/
def crc16Bit (crc : UInt16) : UInt16 :=
  let shifted := crc >>> 1
  if crc &&& 1 ≠ 0 then shifted ^^^ kCrc16Polynomial else shifted

/-- The checksum of FLAIR, complemented and with its bytes swapped. -/
def flirtCrc16 (data : List UInt8) : UInt16 :=
  let crc := data.foldl (fun crc byte => Nat.iterate crc16Bit 8 (crc ^^^ byte.toUInt16)) 0xFFFF
  let inverted := ~~~crc
  (inverted <<< 8) ||| (inverted >>> 8)

/-- Whether the checksum and the tail bytes of a module are those of a function. -/
def moduleVerifies (module : FlirtModule) (functionBytes : List UInt8) : Bool :=
  let tailLength := module.tailLength.toNat
  if functionBytes.length < kMaxPatternLength + tailLength then false
  else if
      flirtCrc16 ((functionBytes.drop kMaxPatternLength).take tailLength) ≠ module.tailCrc16 then
    false
  else module.tailBytes.all fun tb =>
    functionBytes[kMaxPatternLength + tailLength + tb.offset.toNat]? == some tb.value

mutual

/-- Collect the modules of a tree that match. A node whose pattern fails prunes its subtree. -/
def collectMatching (functionBytes : List UInt8) : FlirtNode → List FlirtModule → List FlirtModule
  | .mk pattern children leafModules, out =>
    if pattern.matches functionBytes then
      collectMatchingOf functionBytes children
        (out ++ leafModules.filter fun module => moduleVerifies module functionBytes)
    else out

/-- Collect the modules of some trees that match. -/
def collectMatchingOf (functionBytes : List UInt8) :
    List FlirtNode → List FlirtModule → List FlirtModule
  | [], out => out
  | child :: children, out =>
    collectMatchingOf functionBytes children (collectMatching functionBytes child out)

end

mutual

/-- Whether a module of a tree matches. -/
def nodeMatches (functionBytes : List UInt8) : FlirtNode → Bool
  | .mk pattern children leafModules =>
    if pattern.matches functionBytes then
      (leafModules.any fun module => moduleVerifies module functionBytes) ||
        nodeMatchesOf functionBytes children
    else false

/-- Whether a module of some trees matches. -/
def nodeMatchesOf (functionBytes : List UInt8) : List FlirtNode → Bool
  | [] => false
  | child :: children => nodeMatches functionBytes child || nodeMatchesOf functionBytes children

end

/-- Whether a function matches a module of a file. -/
def matchFlirt (tree : FlirtTree) (functionBytes : List UInt8) : Bool :=
  nodeMatches functionBytes tree.root

/-- The modules of a file that match a function. -/
def matchFlirtModules (tree : FlirtTree) (functionBytes : List UInt8) : List FlirtModule :=
  collectMatching functionBytes tree.root []

/-! ### The modules of a tree -/

mutual

/-- The modules of a tree, depth first, each with the pattern of its node. -/
def FlirtNode.leaves : FlirtNode → List (FlirtPattern × FlirtModule)
  | .mk pattern children leafModules =>
    (leafModules.map fun module => (pattern, module)) ++ leavesOf children

/-- The modules of some trees, depth first. -/
def FlirtNode.leavesOf : List FlirtNode → List (FlirtPattern × FlirtModule)
  | [] => []
  | child :: children => child.leaves ++ leavesOf children

end

/-- The first bytes of a function are those of a pattern. -/
def FlirtPattern.Matches (p : FlirtPattern) (span : List UInt8) : Prop :=
  p.length ≤ span.length ∧
    ∀ i : Fin p.length, p.wildcardAt i = true ∨ span[i.val]? = some (p.byteAt i)

/-- The pattern, the checksum and the tail bytes of a module are those of a function. -/
def Accepts (span : List UInt8) (leaf : FlirtPattern × FlirtModule) : Prop :=
  leaf.1.Matches span ∧
    kMaxPatternLength + leaf.2.tailLength.toNat ≤ span.length ∧
    flirtCrc16 ((span.drop kMaxPatternLength).take leaf.2.tailLength.toNat) = leaf.2.tailCrc16 ∧
    ∀ tb ∈ leaf.2.tailBytes,
      span[kMaxPatternLength + leaf.2.tailLength.toNat + tb.offset.toNat]? = some tb.value

instance (p : FlirtPattern) (span : List UInt8) : Decidable (p.Matches span) :=
  inferInstanceAs (Decidable (_ ∧ _))

instance (span : List UInt8) (leaf : FlirtPattern × FlirtModule) : Decidable (Accepts span leaf) :=
  inferInstanceAs (Decidable (_ ∧ _))

theorem FlirtPattern.matches_eq (p : FlirtPattern) (span : List UInt8) :
    p.matches span = decide (p.Matches span) := by
  rw [Bool.eq_iff_iff, decide_eq_true_iff, FlirtPattern.matches, FlirtPattern.Matches]
  split_ifs with h
  · simp only [false_iff, not_and]
    omega
  · simp only [List.all_eq_true, List.mem_finRange, true_implies, Bool.or_eq_true, beq_iff_eq,
      not_lt.mp h, true_and]

/-- What a pattern matches is matched by the patterns it extends. -/
theorem FlirtPattern.Extends.matches_of_matches {p q : FlirtPattern} (h : p.Extends q)
    {span : List UInt8} (hq : q.Matches span) : p.Matches span := by
  obtain ⟨hle, hat⟩ := h
  refine ⟨hle.trans hq.1, fun i => ?_⟩
  rw [← (hat i).1, ← (hat i).2]
  exact hq.2 (i.castLE hle)

theorem moduleVerifies_eq (pattern : FlirtPattern) (module : FlirtModule) (span : List UInt8) :
    Accepts span (pattern, module) ↔ pattern.Matches span ∧ moduleVerifies module span = true := by
  refine and_congr_right fun _ => ?_
  simp only [moduleVerifies]
  split_ifs with hlen hcrc
  · simp only [iff_false]
    omega
  · simp only [iff_false]
    exact fun h => hcrc h.2.1
  · simp only [List.all_eq_true, beq_iff_eq]
    exact ⟨fun h => h.2.2, fun h => ⟨not_lt.mp hlen, not_not.mp hcrc, h⟩⟩

/-! ### Nothing is pruned that matches -/

/-- A proof about a tree from one about its children. -/
theorem FlirtNode.induct {P : FlirtNode → Prop}
    (h : ∀ pattern children leafModules, (∀ c ∈ children, P c) →
      P (.mk pattern children leafModules))
    (node : FlirtNode) : P node :=
  match node with
  | .mk pattern children leafModules =>
    h pattern children leafModules fun c _ => FlirtNode.induct h c
termination_by sizeOf node
decreasing_by
  rename_i hc
  have := List.sizeOf_lt_of_mem hc
  simp only [FlirtNode.mk.sizeOf_spec]
  omega

theorem FlirtNode.leavesOf_eq (children : List FlirtNode) :
    leavesOf children = children.flatMap leaves := by
  induction children with
  | nil => rfl
  | cons child children ih => rw [leavesOf, ih, List.flatMap_cons]

theorem FlirtPattern.Extends.trans {p q r : FlirtPattern} (h : p.Extends q) (h' : q.Extends r) :
    p.Extends r := by
  obtain ⟨hle, hat⟩ := h
  obtain ⟨hle', hat'⟩ := h'
  exact ⟨hle.trans hle', fun i => ⟨((hat' (i.castLE hle)).1).trans (hat i).1,
    ((hat' (i.castLE hle)).2).trans (hat i).2⟩⟩

/-- The nodes below a child are below its parent. -/
theorem FlirtNode.mem_nodes_of_child {pattern : FlirtPattern} {children : List FlirtNode}
    {leafModules : List FlirtModule} {c n : FlirtNode} (hc : c ∈ children) (hn : n ∈ c.nodes) :
    n ∈ (FlirtNode.mk pattern children leafModules).nodes := by
  rw [FlirtNode.nodes, FlirtNode.nodesOf_eq]
  exact List.mem_cons_of_mem _ (List.mem_flatMap.mpr ⟨c, hc, hn⟩)

/-- The pattern of every module below a node extends the node's. -/
theorem FlirtNode.extends_leaf (node : FlirtNode) (h : ∀ n ∈ node.nodes, n.Good) :
    ∀ leaf ∈ node.leaves, node.pattern.Extends leaf.1 := by
  induction node using FlirtNode.induct with
  | h pattern children leafModules ih =>
    intro leaf hleaf
    rw [FlirtNode.leaves, FlirtNode.leavesOf_eq] at hleaf
    rcases List.mem_append.mp hleaf with hleaf | hleaf
    · obtain ⟨module, -, rfl⟩ := List.mem_map.mp hleaf
      exact FlirtPattern.Extends.refl pattern
    · obtain ⟨c, hc, hleaf⟩ := List.mem_flatMap.mp hleaf
      have hchild := ih c hc (fun n hn => h n (mem_nodes_of_child hc hn)) leaf hleaf
      exact ((h _ List.mem_cons_self).extends_child c hc).trans hchild

section Collect

variable {span : List UInt8}

/-- The modules of a node whose pattern matches. -/
theorem filter_accepts_own {pattern : FlirtPattern} (h : pattern.Matches span)
    (leafModules : List FlirtModule) :
    (leafModules.map fun module => (pattern, module)).filter (fun l => Accepts span l) =
      (leafModules.filter fun module => moduleVerifies module span).map
        fun module => (pattern, module) := by
  rw [List.filter_map]
  congr 1
  refine List.filter_congr fun module _ => ?_
  rw [Function.comp_apply, Bool.eq_iff_iff, decide_eq_true_iff, moduleVerifies_eq]
  exact and_iff_right h

/-- A node whose pattern fails has no module below it that matches. -/
theorem not_accepts_of_not_matches {node : FlirtNode} (hgood : ∀ n ∈ node.nodes, n.Good)
    (h : ¬node.pattern.Matches span) : ∀ leaf ∈ node.leaves, ¬Accepts span leaf :=
  fun leaf hleaf haccepts =>
    h ((node.extends_leaf hgood leaf hleaf).matches_of_matches haccepts.1)

theorem collectMatchingOf_eq {children : List FlirtNode}
    (h : ∀ c ∈ children, ∀ out, collectMatching span c out =
      out ++ (c.leaves.filter fun l => Accepts span l).map Prod.snd) (out : List FlirtModule) :
    collectMatchingOf span children out =
      out ++ ((FlirtNode.leavesOf children).filter fun l => Accepts span l).map Prod.snd := by
  induction children generalizing out with
  | nil => exact (List.append_nil out).symm
  | cons child children ih =>
    rw [List.forall_mem_cons] at h
    rw [collectMatchingOf, h.1, ih h.2, FlirtNode.leavesOf, List.filter_append, List.map_append,
      List.append_assoc]

/-- What is collected from a tree is the modules of the whole tree that match. -/
theorem collectMatching_eq (node : FlirtNode) (hgood : ∀ n ∈ node.nodes, n.Good)
    (out : List FlirtModule) : collectMatching span node out =
      out ++ (node.leaves.filter fun l => Accepts span l).map Prod.snd := by
  induction node using FlirtNode.induct generalizing out with
  | h pattern children leafModules ih =>
    rw [collectMatching, FlirtPattern.matches_eq]
    by_cases hmatches : pattern.Matches span
    · rw [if_pos (decide_eq_true hmatches), collectMatchingOf_eq fun c hc out =>
        ih c hc (fun n hn => hgood n (FlirtNode.mem_nodes_of_child hc hn)) out]
      rw [FlirtNode.leaves, List.filter_append, filter_accepts_own hmatches, List.map_append,
        List.map_map, List.append_assoc]
      congr 2
      exact (List.map_id _).symm
    · have hnone : (FlirtNode.mk pattern children leafModules).leaves.filter
          (fun l => Accepts span l) = [] :=
        List.filter_eq_nil_iff.mpr fun leaf hleaf => by
          simpa using not_accepts_of_not_matches hgood hmatches leaf hleaf
      rw [if_neg (by simpa using hmatches), hnone, List.map_nil, List.append_nil]

theorem nodeMatchesOf_iff {children : List FlirtNode}
    (h : ∀ c ∈ children, nodeMatches span c = true ↔ ∃ leaf ∈ c.leaves, Accepts span leaf) :
    nodeMatchesOf span children = true ↔
      ∃ leaf ∈ FlirtNode.leavesOf children, Accepts span leaf := by
  induction children with
  | nil => simp [nodeMatchesOf, FlirtNode.leavesOf]
  | cons child children ih =>
    rw [List.forall_mem_cons] at h
    rw [nodeMatchesOf, Bool.or_eq_true, h.1, ih h.2, FlirtNode.leavesOf]
    simp only [List.mem_append, or_and_right, exists_or]

/-- A tree matches when one of its modules does. -/
theorem nodeMatches_iff (node : FlirtNode) (hgood : ∀ n ∈ node.nodes, n.Good) :
    nodeMatches span node = true ↔ ∃ leaf ∈ node.leaves, Accepts span leaf := by
  induction node using FlirtNode.induct with
  | h pattern children leafModules ih =>
    rw [nodeMatches, FlirtPattern.matches_eq]
    by_cases hmatches : pattern.Matches span
    · rw [if_pos (decide_eq_true hmatches), Bool.or_eq_true, nodeMatchesOf_iff fun c hc =>
        ih c hc fun n hn => hgood n (FlirtNode.mem_nodes_of_child hc hn)]
      have hown : (∃ leaf ∈ leafModules.map fun module => (pattern, module), Accepts span leaf) ↔
          ∃ module ∈ leafModules, moduleVerifies module span = true := by
        simp only [List.mem_map, exists_exists_and_eq_and, moduleVerifies_eq, hmatches, true_and]
      simp only [FlirtNode.leaves, List.mem_append, or_and_right, exists_or, List.any_eq_true, hown]
    · rw [if_neg (by simpa using hmatches)]
      refine ⟨fun h => absurd h Bool.false_ne_true, fun ⟨leaf, hleaf, haccepts⟩ => ?_⟩
      exact absurd haccepts (not_accepts_of_not_matches hgood hmatches leaf hleaf)

end Collect

/-- **What the matcher returns.** For every file that the reader accepts and every function, the
modules returned are, depth first, those of the whole tree whose own pattern, checksum and tail
bytes match the function, and a match is reported exactly when there is one. -/
theorem matchFlirtModules_spec {tinfl : Inflater} {sig : List UInt8} {tree : FlirtTree} {pos : ℕ}
    (h : parseSigBuffer tinfl sig = .done tree pos) (span : List UInt8) :
    matchFlirtModules tree span =
        (tree.root.leaves.filter fun leaf => Accepts span leaf).map Prod.snd ∧
      (matchFlirt tree span = true ↔ matchFlirtModules tree span ≠ []) := by
  have hgood : ∀ n ∈ tree.root.nodes, n.Good := by
    rcases parseSigBuffer_safe tinfl sig with ⟨e, he⟩ | ⟨tree', pos', hdone, -, hall, -⟩
    · exact nomatch h.symm.trans he
    · cases h.symm.trans hdone
      exact fun n hn => ⟨(hall n hn).2.1, (hall n hn).2.2⟩
  have hcollect : collectMatching span tree.root [] = _ := collectMatching_eq tree.root hgood []
  rw [List.nil_append] at hcollect
  refine ⟨hcollect, ?_⟩
  rw [matchFlirt, nodeMatches_iff tree.root hgood, matchFlirtModules, hcollect, Ne,
    List.map_eq_nil_iff, List.filter_eq_nil_iff]
  simp only [decide_eq_true_eq, not_forall, not_not, exists_prop]

/-- A file of version 8 with two modules: `a` for what begins with the byte `55`, and `b` for what
begins with `90`. -/
def twoModulesSig : List UInt8 :=
  str "IDASGN" ++ [8, 1] ++ List.replicate 29 0 ++
    [2, 1, 0, 0x55, 0, 0, 0, 0, 0, 0, 97, 0, 1, 0, 0x90, 0, 0, 0, 0, 0, 0, 98, 0]

/-- A function that begins with the byte `55` is the module `a`, and the tree is pruned at `b`. -/
theorem matchFlirtModules_spec_twoModules : ∃ tree pos,
    parseSigBuffer (fun _ => ([], false)) twoModulesSig = .done tree pos ∧
      tree.root.leaves.map (fun leaf => leaf.2.names.map (·.name)) = [[str "a"], [str "b"]] ∧
      matchFlirtModules tree (0x55 :: List.replicate 31 0) = (tree.root.leaves.filter fun leaf =>
        Accepts (0x55 :: List.replicate 31 0) leaf).map Prod.snd ∧
      matchFlirt tree (0x55 :: List.replicate 31 0) = true ∧
      (matchFlirtModules tree (0x55 :: List.replicate 31 0)).map (fun module =>
        module.names.map (·.name)) = [[str "a"]] := by
  obtain ⟨tree, pos, h, hleaves, hnames⟩ : ∃ tree pos,
      parseSigBuffer (fun _ => ([], false)) twoModulesSig = .done tree pos ∧
        tree.root.leaves.map (fun leaf => leaf.2.names.map (·.name)) = [[str "a"], [str "b"]] ∧
        (matchFlirtModules tree (0x55 :: List.replicate 31 0)).map (fun module =>
          module.names.map (·.name)) = [[str "a"]] :=
    ⟨_, _, rfl, by decide +kernel, by decide +kernel⟩
  obtain ⟨hmodules, hmatch⟩ := matchFlirtModules_spec h (0x55 :: List.replicate 31 0)
  refine ⟨tree, pos, h, hleaves, hmodules, hmatch.mpr fun hnil => ?_, hnames⟩
  rw [hnil] at hnames
  exact absurd hnames (List.cons_ne_nil _ _).symm

end Papa.Flirt
