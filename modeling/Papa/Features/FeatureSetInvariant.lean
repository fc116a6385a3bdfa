import Papa.Features.Matching

/-!
# The invariant of feature sets

A feature set grows by insertions, batches and merges. Whatever the order of the calls, no two keys
are equal and every key has a location, so the indices list every string and every byte pattern
exactly once, and a scan of an index finds what a search of all keys finds. A merge visits the
features of the other set in an order of its own.

## Main definitions

* `Papa.Features.FeatureSet.addPtr`, `Papa.Features.FeatureSet.addAllPtrs`,
  `Papa.Features.FeatureSet.addAllMoved`: insertions of features behind pointers that may be null.
* `Papa.Features.FeatureSet.Built`: the sets that calls build from empty sets.
* `Papa.Features.FeatureSet.Invariant`: distinct keys with locations.
* `Papa.Features.FeatureSet.bruteForce`: the search of all keys.

## Main results

* `Papa.Features.FeatureSet.Built.invariant`: the invariant holds of every set that is built.
* `Papa.Features.FeatureSet.locations_emplaceAll`: a merge is the union of the locations.
* `Papa.Features.Feature.evaluate_eq_bruteForce`: a scan is a search of all keys.
-/

namespace Papa.Features

open AssocList Engine

namespace FeatureSet

/-! ### Calls -/

/-- `add`, which drops a null pointer. -/
def addPtr (fs : FeatureSet) (f : Option Feature) (a : Address) : FeatureSet :=
  match f with
  | none => fs
  | some f => fs.add f a

/-- `add_all` over a batch shared with the caller. -/
def addAllPtrs (fs : FeatureSet) (batch : List (Option Feature × Address)) : FeatureSet :=
  batch.foldl (fun fs p => fs.addPtr p.1 p.2) fs

/-- `add_all` over a batch the caller hands over: the set, and the batch with its pointers moved
out. -/
def addAllMoved (fs : FeatureSet) :
    List (Option Feature × Address) → FeatureSet × List (Option Feature × Address)
  | [] => (fs, [])
  | (f, a) :: batch =>
    let (fs, rest) := addAllMoved (fs.addPtr f a) batch
    (fs, (none, a) :: rest)

/-- The loop of `merge_in` over the entries of the other set in its order of iteration. -/
def emplaceAll (fs : FeatureSet) (entries : List (Feature × Finset Address)) : FeatureSet :=
  entries.foldl (fun fs e => fs.emplace e.1 e.2) fs

/-- The sets that a sequence of calls builds from empty sets. -/
inductive Built : FeatureSet → Prop
  | empty : Built .empty
  | add {fs : FeatureSet} (h : Built fs) (f : Option Feature) (a : Address) : Built (fs.addPtr f a)
  | addAll {fs : FeatureSet} (h : Built fs) (batch : List (Option Feature × Address)) :
      Built (fs.addAllPtrs batch)
  | addAllMoved {fs : FeatureSet} (h : Built fs) (batch : List (Option Feature × Address)) :
      Built (fs.addAllMoved batch).1
  | mergeIn {fs other : FeatureSet} (h : Built fs) (h' : Built other)
      {order : List (Feature × Finset Address)} (horder : order.Perm other.entries) :
      Built (fs.emplaceAll order)

/-- Both forms of `add_all` build the same set. -/
theorem addAllMoved_fst (fs : FeatureSet) (batch : List (Option Feature × Address)) :
    (fs.addAllMoved batch).1 = fs.addAllPtrs batch := by
  induction batch generalizing fs with
  | nil => rfl
  | cons p batch ih => exact ih (fs.addPtr p.1 p.2)

/-! ### The invariant -/

/-- The features a set holds. -/
def keys (fs : FeatureSet) : List Feature := fs.entries.map Prod.fst

/-- No two keys are equal, and every key has a location. -/
structure Invariant (fs : FeatureSet) : Prop where
  distinct : fs.keys.Pairwise fun f g => ¬f == g
  located : ∀ e ∈ fs.entries, e.2.Nonempty

theorem Invariant.emplace {fs : FeatureSet} (h : fs.Invariant) (f : Feature)
    {locs : Finset Address} (hlocs : locs.Nonempty) : (fs.emplace f locs).Invariant where
  distinct := by
    change ((upsert f ∅ (· ∪ locs) fs.entries).map Prod.fst).Pairwise _
    rw [keys_upsert]
    split_ifs with hf
    · exact h.distinct
    · refine List.pairwise_append.mpr ⟨h.distinct, List.pairwise_singleton _ _, ?_⟩
      intro g hg f' hf' heq
      cases List.mem_singleton.mp hf'
      obtain ⟨e, he, rfl⟩ := List.mem_map.mp hg
      exact hf ((has_iff fs f).mpr ⟨e, he, heq⟩)
  located := by
    intro e he
    rcases mem_upsert he with he | rfl | ⟨v, -, -, hv⟩
    · exact h.located e he
    · exact hlocs.mono Finset.subset_union_right
    · exact hv ▸ hlocs.mono Finset.subset_union_right

theorem Invariant.emplaceAll {fs : FeatureSet} (h : fs.Invariant)
    {entries : List (Feature × Finset Address)} (hentries : ∀ e ∈ entries, e.2.Nonempty) :
    (fs.emplaceAll entries).Invariant := by
  induction entries generalizing fs with
  | nil => exact h
  | cons e entries ih =>
    exact ih (h.emplace e.1 (hentries e List.mem_cons_self))
      fun e' he' => hentries e' (List.mem_cons_of_mem _ he')

theorem Invariant.addPtr {fs : FeatureSet} (h : fs.Invariant) (f : Option Feature) (a : Address) :
    (fs.addPtr f a).Invariant := by
  cases f with
  | none => exact h
  | some f => exact h.emplace f (Finset.singleton_nonempty a)

theorem Invariant.addAllPtrs {fs : FeatureSet} (h : fs.Invariant)
    (batch : List (Option Feature × Address)) : (fs.addAllPtrs batch).Invariant := by
  induction batch generalizing fs with
  | nil => exact h
  | cons p batch ih => exact ih (h.addPtr p.1 p.2)

/-- **The invariant holds of every set that calls build.** -/
theorem Built.invariant {fs : FeatureSet} (h : Built fs) : fs.Invariant := by
  induction h with
  | empty => exact ⟨List.Pairwise.nil, nofun⟩
  | add _ f a ih => exact ih.addPtr f a
  | addAll _ batch ih => exact ih.addAllPtrs batch
  | addAllMoved _ batch ih => exact addAllMoved_fst _ batch ▸ ih.addAllPtrs batch
  | mergeIn _ _ horder ih ih' =>
    exact ih.emplaceAll fun e he => ih'.located e (horder.mem_iff.mp he)

/-! ### Lookups -/

/-- The locations of a feature, none when it is absent. -/
def locations (fs : FeatureSet) (f : Feature) : Finset Address := (fs.find f).getD ∅

theorem locations_emplace (fs : FeatureSet) (f g : Feature) (locs : Finset Address) :
    (fs.emplace f locs).locations g =
      fs.locations g ∪ if f == g then locs else ∅ := by
  rw [locations, find_emplace]
  split_ifs with h
  · rw [find_congr h, Option.getD_some, locations]
  · rw [Finset.union_empty, locations]

theorem mem_locations_emplaceAll (fs : FeatureSet) (entries : List (Feature × Finset Address))
    (g : Feature) (a : Address) :
    a ∈ (fs.emplaceAll entries).locations g ↔
      a ∈ fs.locations g ∨ ∃ e ∈ entries, e.1 == g ∧ a ∈ e.2 := by
  induction entries generalizing fs with
  | nil => simp [emplaceAll]
  | cons e entries ih =>
    change a ∈ ((fs.emplace e.1 e.2).emplaceAll entries).locations g ↔ _
    rw [ih, locations_emplace, Finset.mem_union, or_assoc]
    refine or_congr_right ?_
    rw [List.exists_mem_cons_iff]
    refine or_congr_left ?_
    split_ifs with h <;> simp [h]

theorem mem_locations_iff {fs : FeatureSet} (h : fs.Invariant) (g : Feature) (a : Address) :
    a ∈ fs.locations g ↔ ∃ e ∈ fs.entries, e.1 == g ∧ a ∈ e.2 := by
  constructor
  · intro ha
    rw [locations] at ha
    cases hfind : fs.find g with
    | none => simp [hfind] at ha
    | some locs =>
      obtain ⟨f, hmem, hf⟩ := exists_mem_of_get?_eq_some hfind
      exact ⟨(f, locs), hmem, hf, by simpa [hfind] using ha⟩
  · rintro ⟨e, he, heq, ha⟩
    rw [locations, ← find_congr heq, find, get?_eq_some_of_mem h.distinct he]
    exact ha

/-- **A merge is the union of the locations**, whatever the order of iteration. -/
theorem locations_emplaceAll (fs : FeatureSet) {other : FeatureSet} (h : other.Invariant)
    {order : List (Feature × Finset Address)} (horder : order.Perm other.entries) (g : Feature) :
    (fs.emplaceAll order).locations g = fs.locations g ∪ other.locations g := by
  ext a
  rw [mem_locations_emplaceAll, Finset.mem_union, mem_locations_iff h]
  simp only [horder.mem_iff]

/-! ### Scans -/

/-- The search of all keys: whether one is a hit, and the locations of every hit. -/
def bruteForce (fs : FeatureSet) (hit : Feature → Bool) : Bool × Finset Address :=
  (fs.keys.any hit,
    fs.entries.foldr (fun e locs => if hit e.1 then e.2 ∪ locs else locs) ∅)

theorem mem_bruteForce {fs : FeatureSet} {hit : Feature → Bool} {a : Address} :
    a ∈ (fs.bruteForce hit).2 ↔ ∃ e ∈ fs.entries, hit e.1 ∧ a ∈ e.2 := by
  rw [bruteForce]
  induction fs.entries with
  | nil => simp
  | cons e entries ih =>
    rw [List.foldr_cons, List.exists_mem_cons_iff, ← ih]
    split_ifs with h <;> simp [h]

/-- The index of a tag, as the source keeps it for strings and byte patterns. -/
theorem strings_eq_filter (fs : FeatureSet) : fs.strings = fs.keys.filter (·.tag = .string) :=
  fs.strings_eq

theorem bytesFeatures_eq_filter (fs : FeatureSet) :
    fs.bytesFeatures = fs.keys.filter (·.tag = .bytes) :=
  fs.bytesFeatures_eq

/-- A key of the set stands in the keys of its tag exactly once, however it is compared. -/
theorem Invariant.countP_eq_one {fs : FeatureSet} (h : fs.Invariant) {f : Feature}
    (hf : f ∈ fs.keys) : (fs.keys.filter (·.tag = f.tag)).countP (· == f) = 1 := by
  have hdistinct := h.distinct
  have hcount (keys : List Feature) (hkeys : keys.Pairwise fun f g => ¬f == g) (hf : f ∈ keys) :
      keys.countP (· == f) = 1 := by
    induction keys with
    | nil => exact absurd hf List.not_mem_nil
    | cons g keys ih =>
      obtain ⟨hhead, htail⟩ := List.pairwise_cons.mp hkeys
      rcases List.mem_cons.mp hf with rfl | hf
      · rw [List.countP_cons, if_pos BEq.rfl, List.countP_eq_zero.mpr]
        exact fun g hg heq => hhead g hg (BEq.symm heq)
      · rw [List.countP_cons, if_neg (hhead f hf), ih htail hf]
  exact hcount _ (hdistinct.sublist List.filter_sublist)
    (List.mem_filter.mpr ⟨hf, decide_eq_true rfl⟩)

section Scan

variable {fs : FeatureSet} {hit : Feature → Bool} {t : FeatureTag}

theorem mem_scan {l : List Feature} {a : Address} :
    a ∈ (scan fs false hit l).2 ↔ ∃ f ∈ l, hit f ∧ a ∈ fs.locations f := by
  induction l with
  | nil => simp [scan]
  | cons f l ih =>
    rw [scan, List.exists_mem_cons_iff, ← ih]
    cases hit f <;> simp [locations]

/-- The scan of the keys of a tag in full mode is the search of all keys for hits of that tag. -/
theorem scan_eq_bruteForce (h : fs.Invariant) :
    scan fs false hit (fs.keys.filter (·.tag = t)) =
      fs.bruteForce fun f => decide (f.tag = t) && hit f := by
  refine Prod.ext ?_ (Finset.ext fun a => ?_)
  · rw [scan_fst, List.any_filter]
    rfl
  · rw [mem_scan, mem_bruteForce]
    constructor
    · rintro ⟨f, hf, hhit, ha⟩
      obtain ⟨hkey, htag⟩ := List.mem_filter.mp hf
      obtain ⟨e, he, rfl⟩ := List.mem_map.mp hkey
      refine ⟨e, he, by rw [htag, hhit]; rfl, ?_⟩
      rwa [locations, find, get?_eq_some_of_mem h.distinct he] at ha
    · rintro ⟨e, he, hhit, ha⟩
      obtain ⟨htag, hhit⟩ := Bool.and_eq_true_iff.mp hhit
      refine ⟨e.1, List.mem_filter.mpr ⟨List.mem_map_of_mem he, htag⟩, hhit, ?_⟩
      rwa [locations, find, get?_eq_some_of_mem h.distinct he]

/-- In short-circuit mode a scan that hits gives the locations of one hit. -/
theorem scan_true {l : List Feature} (h : (scan fs true hit l).1) :
    ∃ f ∈ l, hit f ∧ (scan fs true hit l).2 = fs.locations f := by
  induction l with
  | nil => exact nomatch h
  | cons f l ih =>
    rw [scan] at h ⊢
    cases hf : hit f with
    | true => exact ⟨f, List.mem_cons_self, hf, rfl⟩
    | false =>
      rw [hf] at h
      obtain ⟨g, hg, hhit, hlocs⟩ := ih h
      exact ⟨g, List.mem_cons_of_mem _ hg, hhit, hlocs⟩

end Scan

end FeatureSet

namespace Feature

/-- The keys a substring, a regular expression or a byte pattern looks for. -/
def scanHit (E : RegexEngine) (f : Feature) (key : Feature) : Bool :=
  match f.value with
  | .substring value => decide (key.tag = .string) && substringHit value key
  | .regex literal =>
    let lit := parseRegexLiteral literal
    E.compiles lit.pattern lit.caseInsensitive && (decide (key.tag = .string) && regexHit E lit key)
  | .bytes value => decide (key.tag = .bytes) && bytesHit value key
  | _ => false

/-- The kinds of feature that scan an index. -/
def Scans (f : Feature) : Prop := f.tag = .substring ∨ f.tag = .regex ∨ f.tag = .bytes

variable {E : RegexEngine} {f : Feature} {fs : FeatureSet}

/-- A feature that scans either cannot hit anything or scans the keys of one tag. -/
theorem scan_cases (h : f.Scans) (fs : FeatureSet) :
    (scanHit E f = (fun _ => false) ∧ ∀ sc, f.evaluate E fs sc = { node := .feature f }) ∨
    ∃ t hit, scanHit E f = (fun key => decide (key.tag = t) && hit key) ∧
      ∀ sc, f.evaluate E fs sc =
        scanResult f (scan fs sc hit (fs.keys.filter (·.tag = t))) := by
  obtain ⟨v, description, object⟩ := f
  cases v
  case substring value =>
    exact Or.inr ⟨.string, substringHit value, rfl, fun sc => by rw [evaluate, fs.strings_eq]; rfl⟩
  case bytes value =>
    exact Or.inr ⟨.bytes, bytesHit value, rfl, fun sc => by
      rw [evaluate, fs.bytesFeatures_eq]; rfl⟩
  case regex literal =>
    cases hok : E.compiles (parseRegexLiteral literal).pattern
      (parseRegexLiteral literal).caseInsensitive
    · exact Or.inl ⟨funext fun key => by simp [scanHit, hok], fun sc => by simp [evaluate, hok]⟩
    · exact Or.inr ⟨.string, regexHit E (parseRegexLiteral literal),
        funext fun key => by simp [scanHit, hok],
        fun sc => by simp [evaluate, hok, fs.strings_eq, FeatureSet.keys]⟩
  all_goals rcases h with h | h | h <;> cases h

/-- **A scan is a search of all keys.** -/
theorem evaluate_eq_bruteForce (hfs : fs.Invariant) (h : f.Scans) :
    (f.evaluate E fs false).success = (fs.bruteForce (scanHit E f)).1 ∧
      (f.evaluate E fs false).locations = (fs.bruteForce (scanHit E f)).2 := by
  rcases scan_cases (E := E) h fs with ⟨hhit, heval⟩ | ⟨t, hit, hhit, heval⟩
  · rw [hhit, heval]
    refine ⟨?_, ?_⟩
    · simp [FeatureSet.bruteForce]
    · refine (Finset.eq_empty_of_forall_notMem fun a ha => ?_).symm
      obtain ⟨e, -, hfalse, -⟩ := FeatureSet.mem_bruteForce.mp ha
      exact Bool.false_ne_true hfalse
  · rw [hhit, heval, FeatureSet.scan_eq_bruteForce hfs]
    exact ⟨rfl, rfl⟩

/-- A scan that stops at its first hit succeeds when a search of all keys does, with the locations
of one hit. -/
theorem evaluate_true_of_scans (hfs : fs.Invariant) (h : f.Scans) :
    (f.evaluate E fs true).success = (fs.bruteForce (scanHit E f)).1 ∧
      ((f.evaluate E fs true).success →
        ∃ e ∈ fs.entries, scanHit E f e.1 ∧ (f.evaluate E fs true).locations = e.2) := by
  refine ⟨?_, fun hsuccess => ?_⟩
  · rw [evaluate_success, ← f.evaluate_success E fs false, (evaluate_eq_bruteForce hfs h).1]
  · rcases scan_cases (E := E) h fs with ⟨-, heval⟩ | ⟨t, hit, hhit, heval⟩
    · rw [heval] at hsuccess
      exact nomatch hsuccess
    · rw [heval] at hsuccess ⊢
      obtain ⟨key, hkey, hkeyHit, hlocs⟩ := FeatureSet.scan_true hsuccess
      obtain ⟨hmem, htag⟩ := List.mem_filter.mp hkey
      obtain ⟨e, he, rfl⟩ := List.mem_map.mp hmem
      refine ⟨e, he, hhit ▸ Bool.and_eq_true_iff.mpr ⟨htag, hkeyHit⟩, ?_⟩
      change (scan fs true hit _).2 = e.2
      rw [hlocs, FeatureSet.locations, FeatureSet.find, get?_eq_some_of_mem hfs.distinct he]
      rfl

end Feature

namespace FeatureSet

/-- **The representation of feature sets.** In every set that calls build, the indices hold no two
equal features and exactly the string and the byte keys, each once; every key has a location; a
merge with another such set, in any order of iteration, is the union of the keys and of the
locations at every key; and the scans of substrings, regular expressions and byte patterns succeed
when a search of all keys does, with the locations it finds, or with those of one hit when they stop
at the first. -/
theorem Built.representation {fs : FeatureSet} (h : Built fs) :
    (fs.strings.Pairwise fun f g => ¬f == g) ∧
    (fs.bytesFeatures.Pairwise fun f g => ¬f == g) ∧
    (∀ f, f ∈ fs.strings ↔ f ∈ fs.keys ∧ f.tag = .string) ∧
    (∀ f, f ∈ fs.bytesFeatures ↔ f ∈ fs.keys ∧ f.tag = .bytes) ∧
    (∀ f ∈ fs.keys, f.tag = .string → fs.strings.countP (· == f) = 1) ∧
    (∀ f ∈ fs.keys, f.tag = .bytes → fs.bytesFeatures.countP (· == f) = 1) ∧
    (∀ e ∈ fs.entries, e.2.Nonempty) ∧
    (∀ other, Built other → ∀ order, order.Perm other.entries → ∀ g,
      ((fs.emplaceAll order).has g ↔ fs.has g ∨ other.has g) ∧
      (fs.emplaceAll order).locations g = fs.locations g ∪ other.locations g) ∧
    ∀ (E : RegexEngine) (f : Feature), f.Scans →
      (f.matchesSet E fs = (fs.bruteForce (f.scanHit E)).1) ∧
      ((f.evaluate E fs false).success = (fs.bruteForce (f.scanHit E)).1 ∧
        (f.evaluate E fs false).locations = (fs.bruteForce (f.scanHit E)).2) ∧
      ((f.evaluate E fs true).success = (fs.bruteForce (f.scanHit E)).1 ∧
        ((f.evaluate E fs true).success →
          ∃ e ∈ fs.entries, f.scanHit E e.1 ∧ (f.evaluate E fs true).locations = e.2)) := by
  have hinv := h.invariant
  have hindex (t : FeatureTag) (f : Feature) :
      f ∈ fs.keys.filter (·.tag = t) ↔ f ∈ fs.keys ∧ f.tag = t := by
    rw [List.mem_filter, decide_eq_true_iff]
  refine ⟨?_, ?_, ?_, ?_, ?_, ?_, hinv.located, fun other hother order horder g => ⟨?_, ?_⟩,
    fun E f hf => ⟨?_, ?_, ?_⟩⟩
  · exact fs.strings_eq_filter ▸ hinv.distinct.sublist List.filter_sublist
  · exact fs.bytesFeatures_eq_filter ▸ hinv.distinct.sublist List.filter_sublist
  · exact fs.strings_eq_filter ▸ hindex .string
  · exact fs.bytesFeatures_eq_filter ▸ hindex .bytes
  · exact fun f hf htag => fs.strings_eq_filter ▸ htag ▸ hinv.countP_eq_one hf
  · exact fun f hf htag => fs.bytesFeatures_eq_filter ▸ htag ▸ hinv.countP_eq_one hf
  · rw [emplaceAll, has_foldl_emplace, or_comm, has_iff other]
    simp only [horder.mem_iff]
  · exact locations_emplaceAll fs hother.invariant horder g
  · rw [← f.evaluate_success E fs false, (Feature.evaluate_eq_bruteForce hinv hf).1]
  · exact Feature.evaluate_eq_bruteForce hinv hf
  · exact Feature.evaluate_true_of_scans hinv hf

/-- Two sets that both hold one string, merged in the reverse of the order of insertion. -/
theorem representation_overlap :
    let text (s : String) : Feature := { value := .string (str s) }
    let fs := FeatureSet.empty.addAllPtrs [(some (text "a"), .noAddress), (none, .noAddress)]
    let other := (FeatureSet.empty.addPtr (some (text "b")) (.fileOffset 1)).addPtr
      (some { text "a" with object := 1 }) (.fileOffset 2)
    (fs.emplaceAll other.entries.reverse).strings.Pairwise fun f g => ¬f == g := by
  intro text fs other
  have hfs : Built fs := .addAll .empty _
  have hother : Built other := .add (.add .empty _ _) _ _
  exact (Built.representation (.mergeIn hfs hother (List.reverse_perm other.entries))).1

end FeatureSet

end Papa.Features
