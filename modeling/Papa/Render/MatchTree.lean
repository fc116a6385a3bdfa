import Papa.Render.ResultDocument

/-!
# The depth of match trees

The recursion of the match tree steps from a result to its children and to the results spliced in
below it. The depth limit shows in a tree exactly when a chain of that many steps leads to a result
that has something to splice in. A tree the limit does not show in is the one any larger limit
gives, and no result occurs in it below itself.

## Main definitions

* `below`, `Chain`: one step of the recursion, and several.
* `Expands`: a result the depth limit matters for.
* `CutFree`: the tree is that of every larger limit.

## Main results

* `cutFree_iff`: when the limit does not show.
* `not_chain_self`: no result is below itself.
-/

namespace Papa.Render

open Features Engine Rules

section Chains

variable (rs : RuleSet) (results : MatchResults) (order : AddressSort)

/-- The results whose trees stand below a result. -/
def below (x : Result) : List Result := x.children ++ spliced rs results order x

/-- A number of steps from a result to one below it. -/
inductive Chain : ℕ → Result → Result → Prop
  | nil (x : Result) : Chain 0 x x
  | cons {n : ℕ} {x y z : Result} (hy : y ∈ below rs results order x) (h : Chain n y z) :
      Chain (n + 1) x z

/-- Something is spliced in at a result, or it shows as a subscope. -/
def Expands (x : Result) : Prop :=
  ∃ name, matchedName x = some name ∧
    (spliced rs results order x ≠ [] ∨
      ∃ rule, rs.find name = some rule ∧ rule.info.isSubscopeRule)

/-- With any number of levels more the tree is the same. -/
def CutFree (todo : ℕ) (x : Result) : Prop :=
  ∀ limit, todo ≤ limit → buildFrom rs results order limit x = buildFrom rs results order todo x

end Chains

variable {rs : RuleSet} {results : MatchResults} {order : AddressSort}

/-! ### One level of a tree -/

theorem plainNode_eq (x : Result) (children : List MatchNode) :
    plainNode order x children = { plainNode order x [] with children } := by
  unfold plainNode
  dsimp only
  split_ifs <;> rfl

theorem rewriteSubscope_eq (name : Str) (node : MatchNode) (children : List MatchNode) :
    rewriteSubscope rs name { node with children } =
      { rewriteSubscope rs name node with children } := by
  unfold rewriteSubscope
  split
  · rfl
  · split_ifs <;> rfl

/-- What a result shows as where things are spliced in. -/
def shownNode (rs : RuleSet) (order : AddressSort) (x : Result) : MatchNode :=
  match matchedName x with
  | none => plainNode order x []
  | some name => rewriteSubscope rs name (plainNode order x [])

theorem spliced_eq_nil {x : Result} (h : matchedName x = none) :
    spliced rs results order x = [] := by
  rw [spliced, h]

theorem buildCutAll_eq (l : List Result) : buildCutAll order l = l.map (buildCut order) := by
  induction l with
  | nil => rfl
  | cons x l ih => rw [buildCutAll, ih, List.map_cons]

theorem buildFrom_zero (x : Result) :
    buildFrom rs results order 0 x = { plainNode order x [] with
      children := x.children.map (buildFrom rs results order 0) } := by
  obtain ⟨success, node, children, locations⟩ := x
  rw [buildFrom, buildCut, buildCutAll_eq, plainNode_eq]
  rfl

theorem buildFrom_succ (todo : ℕ) (x : Result) :
    buildFrom rs results order (todo + 1) x = { shownNode rs order x with
      children := (below rs results order x).map (buildFrom rs results order todo) } := by
  rw [buildFrom, shownNode, below]
  dsimp only
  cases hname : matchedName x with
  | none =>
    dsimp only
    rw [spliced_eq_nil hname, List.append_nil, plainNode_eq]
  | some name =>
    dsimp only
    rw [plainNode_eq, rewriteSubscope_eq, List.map_append]

theorem isFeature_plainNode {x : Result} {name : Str} (h : matchedName x = some name) :
    (plainNode order x []).isFeature := by
  unfold matchedName at h
  split at h
  next f hf =>
    unfold plainNode fillNode
    rw [hf]
    dsimp only
    split_ifs <;> rfl
  · exact nomatch h

/-! ### Where the limit matters -/

/-- A result the limit does not matter for. -/
theorem shownNode_of_not_expands {x : Result} (h : ¬Expands rs results order x) :
    shownNode rs order x = plainNode order x [] ∧ below rs results order x = x.children := by
  rw [shownNode, below]
  cases hname : matchedName x with
  | none => exact ⟨rfl, by rw [spliced_eq_nil hname, List.append_nil]⟩
  | some name =>
    have hspliced : spliced rs results order x = [] :=
      by_contra fun hne => h ⟨name, hname, .inl hne⟩
    refine ⟨?_, by rw [hspliced, List.append_nil]⟩
    dsimp only
    rw [rewriteSubscope]
    cases hfind : rs.find name with
    | none => rfl
    | some rule => exact if_neg fun hsub => h ⟨name, hname, .inr ⟨rule, hfind, hsub⟩⟩

/-- One level more shows what is spliced in. -/
theorem not_expands_of_eq {x : Result} {todo : ℕ}
    (h : buildFrom rs results order (todo + 1) x = buildFrom rs results order 0 x) :
    ¬Expands rs results order x := by
  rintro ⟨name, hname, hexpands⟩
  rw [buildFrom_succ, buildFrom_zero] at h
  rcases hexpands with hspliced | ⟨rule, hfind, hsub⟩
  · have hlength := congrArg (fun node : MatchNode => node.children.length) h
    simp only [below, List.length_map, List.length_append] at hlength
    exact hspliced (List.eq_nil_of_length_eq_zero (by omega))
  · have hkind := congrArg MatchNode.isFeature h
    simp only [shownNode, hname, rewriteSubscope, hfind, if_pos hsub] at hkind
    exact absurd (hkind.trans (isFeature_plainNode hname)) Bool.false_ne_true

/-- A tree the limit does not show in, level by level. -/
theorem CutFree.of_mem_below {todo : ℕ} {x y : Result}
    (h : CutFree rs results order (todo + 1) x) (hy : y ∈ below rs results order x) :
    CutFree rs results order todo y := by
  intro limit hle
  have heq := congrArg MatchNode.children (h (limit + 1) (Nat.succ_le_succ hle))
  rw [buildFrom_succ, buildFrom_succ] at heq
  exact List.map_inj_left.mp heq y hy

theorem CutFree.not_expands {x : Result} (h : CutFree rs results order 0 x) :
    ¬Expands rs results order x :=
  not_expands_of_eq (h 1 (Nat.zero_le 1))

theorem CutFree.zero_of_mem_below {x y : Result} (h : CutFree rs results order 0 x)
    (hy : y ∈ below rs results order x) : CutFree rs results order 0 y := by
  intro limit _
  have hbelow := (shownNode_of_not_expands h.not_expands).2
  have heq := congrArg MatchNode.children (h (limit + 1) (Nat.zero_le _))
  rw [buildFrom_succ, buildFrom_zero, hbelow] at heq
  exact List.map_inj_left.mp heq y (hbelow ▸ hy)

theorem not_expands_of_cutFree {todo n : ℕ} {x y : Result} (h : CutFree rs results order todo x)
    (hchain : Chain rs results order n x y) (hle : todo ≤ n) : ¬Expands rs results order y := by
  induction hchain generalizing todo with
  | nil x =>
    obtain rfl := Nat.le_zero.mp hle
    exact h.not_expands
  | @cons n x y z hy hchain ih =>
    cases todo with
    | zero => exact ih (h.zero_of_mem_below hy) (Nat.zero_le n)
    | succ todo => exact ih (h.of_mem_below hy) (Nat.le_of_succ_le_succ hle)

theorem cutFree_of_not_expands {todo : ℕ} {x : Result}
    (h : ∀ n y, todo ≤ n → Chain rs results order n x y → ¬Expands rs results order y) :
    CutFree rs results order todo x := by
  have hstep {todo n : ℕ} {x y z : Result} (hy : y ∈ below rs results order x)
      (h : ∀ n y, todo + 1 ≤ n → Chain rs results order n x y → ¬Expands rs results order y)
      (hle : todo ≤ n) (hz : Chain rs results order n y z) : ¬Expands rs results order z :=
    h (n + 1) z (Nat.succ_le_succ hle) (.cons hy hz)
  intro limit
  induction limit generalizing todo x with
  | zero =>
    intro hle
    rw [Nat.le_zero.mp hle]
  | succ limit ih =>
    intro hle
    cases todo with
    | succ todo =>
      rw [buildFrom_succ, buildFrom_succ]
      refine congrArg (fun children => { shownNode rs order x with children }) ?_
      exact List.map_congr_left fun y hy =>
        ih (fun n z hle => hstep hy h hle) (Nat.le_of_succ_le_succ hle)
    | zero =>
      -- without a limit to spare nothing is spliced in, and only the children are left
      obtain ⟨hshown, hbelow⟩ := shownNode_of_not_expands (h 0 x le_rfl (.nil x))
      rw [buildFrom_succ, buildFrom_zero, hshown, hbelow]
      refine congrArg (fun children => { plainNode order x [] with children }) ?_
      refine List.map_congr_left fun y hy => ih (fun n z _ hz => ?_) (Nat.zero_le limit)
      exact h (n + 1) z (Nat.zero_le _) (.cons (hbelow ▸ hy) hz)

/-- **The limit does not show in a tree** exactly when no chain of that many steps leads to a result
with something to splice in. -/
theorem cutFree_iff {todo : ℕ} {x : Result} :
    CutFree rs results order todo x ↔
      ∀ n y, todo ≤ n → Chain rs results order n x y → ¬Expands rs results order y :=
  ⟨fun h _ _ hle hchain => not_expands_of_cutFree h hchain hle, cutFree_of_not_expands⟩

/-! ### Cycles -/

theorem Chain.append {n m : ℕ} {x y z : Result} (h : Chain rs results order n x y)
    (h' : Chain rs results order m y z) : Chain rs results order (n + m) x z := by
  induction h with
  | nil x => rwa [Nat.zero_add]
  | cons hy _ ih =>
    rw [Nat.add_right_comm]
    exact .cons hy (ih h')

theorem Chain.repeat {n : ℕ} {x : Result} (h : Chain rs results order n x x) (k : ℕ) :
    Chain rs results order (k * n) x x := by
  induction k with
  | zero =>
    rw [Nat.zero_mul]
    exact .nil x
  | succ k ih =>
    rw [Nat.succ_mul]
    exact ih.append h

/-- A chain goes through a result with something to splice in, or it gets to a smaller result with
each step. -/
theorem Chain.expands_or_sizeOf {n : ℕ} {x z : Result} (h : Chain rs results order n x z) :
    (∃ i j y, Chain rs results order i x y ∧ Expands rs results order y ∧
      Chain rs results order j y z) ∨ sizeOf z + n ≤ sizeOf x := by
  induction h with
  | nil x => exact .inr le_rfl
  | @cons n x y z hy h ih =>
    by_cases hx : Expands rs results order x
    · exact .inl ⟨0, n + 1, x, .nil x, hx, .cons hy h⟩
    · rcases ih with ⟨i, j, w, hi, hw, hj⟩ | hsize
      · exact .inl ⟨i + 1, j, w, .cons hy hi, hw, hj⟩
      · rw [(shownNode_of_not_expands hx).2] at hy
        have hchild : sizeOf y < sizeOf x := by
          obtain ⟨success, node, children, locations⟩ := x
          have hlt : sizeOf y < sizeOf children := List.sizeOf_lt_of_mem hy
          simp only [Result.mk.sizeOf_spec]
          omega
        exact .inr (by omega)

/-- **No result is below itself** in a tree the limit does not show in. -/
theorem not_chain_self {todo i n : ℕ} {x y : Result} (h : CutFree rs results order todo x)
    (hy : Chain rs results order i x y) : ¬Chain rs results order (n + 1) y y := by
  intro hcycle
  rcases hcycle.expands_or_sizeOf with ⟨j, k, z, hj, hz, hk⟩ | hsize
  · -- going round often enough makes the chain long
    have hround : Chain rs results order (todo * (n + 1)) y y := hcycle.repeat todo
    have hlong := hy.append (hround.append hj)
    refine not_expands_of_cutFree h hlong ?_ hz
    have hle : todo * 1 ≤ todo * (n + 1) := Nat.mul_le_mul_left _ (by omega)
    omega
  · omega

end Papa.Render
