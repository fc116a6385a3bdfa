import Papa.Features.ApiSymbols
import Papa.Features.Matching
import Papa.Rules.Leaf

/-!
# The spelling of API leaves

A rule may name an imported function by any of its spellings. The leaf drops what comes before the
point of a spelling with exactly one, taking it for a library, unless the spelling is qualified or
an ordinal. So a leaf matches a call under every spelling but one: a symbol that has one point
itself, named without its library.

## Main definitions

* `Papa.Rules.ApiLeafMatches`: a leaf is true on the features of a call.

## Main results

* `Papa.Rules.apiLeafMatches_iff`: which spellings match.
-/

namespace Papa.Rules

open Features Pe

/-! ### The leaf -/

/-- A text in which the separator of descriptions does not occur has no description. -/
theorem findInlineDescSep_eq_none_of_findStr {s : Str} (h : s.findStr (str " = ") = none) :
    findInlineDescSep s = none := by
  have hloop (inDq inSq : Bool) : findInlineDescSepFrom inDq inSq s = none := by
    fun_induction findInlineDescSepFrom inDq inSq s with
    | case1 => rfl
    | case2 _ _ c rest _ ih | case3 _ _ c rest _ _ ih | case5 _ _ c rest _ _ _ ih =>
      have hrest : Str.findStr rest (str " = ") = none := by
        rw [Str.findStr] at h
        split_ifs at h
        exact Option.map_eq_none_iff.mp h
      rw [ih hrest]
      rfl
    | case4 _ _ c rest _ _ hsep =>
      simp only [Bool.and_eq_true, beq_iff_eq] at hsep
      have hprefix : (str " = ").isPrefixOf (c :: rest) := by
        rw [hsep.1.2]
        exact hsep.2
      rw [Str.findStr, if_pos hprefix] at h
      cases h
  exact hloop false false

/-- The leaf of a spelling is the API it leaves after its library. -/
theorem buildFeatureLeaf_api {v : Str} (hsep : v.findStr (str " = ") = none) (htrim : v.trim = v)
    (description : Str) (line column : ℕ) :
    buildFeatureLeaf (str "api") v description line column =
      .ok { value := .api (trimDllPart v), description := description } := by
  have hsplit : splitLeafDescription v description = (v, description) := by
    rw [splitLeafDescription, splitInlineDescription, findInlineDescSep_eq_none_of_findStr hsep,
      htrim]
    simp
  rw [buildFeatureLeaf, hsplit]
  rfl

/-- The leaf of a spelling is true on the features of a call to an import. -/
def ApiLeafMatches (E : RegexEngine) (imp : ParsedImport) (addrVa : UInt64) (v : Str) : Prop :=
  ∀ (description : Str) (line column : ℕ) (sc : Bool), ∃ f,
    buildFeatureLeaf (str "api") v description line column = .ok f ∧
      (f.evaluate E (FeatureSet.empty.addAll (emitApiVariants imp addrVa)) sc).success

/-- The leaf is true when what it leaves of its spelling is a spelling of the import. -/
theorem apiLeafMatches_iff_mem {E : RegexEngine} {imp : ParsedImport} {addrVa : UInt64} {v : Str}
    (hsep : v.findStr (str " = ") = none) (htrim : v.trim = v) :
    ApiLeafMatches E imp addrVa v ↔ importSymbol imp ≠ [] ∧
      trimDllPart v ∈ generateSymbols imp.dll (importSymbol imp) true := by
  have hhas (description : Str) :
      (Feature.matchesSet E { value := .api (trimDllPart v), description := description }
        (FeatureSet.empty.addAll (emitApiVariants imp addrVa))) ↔
      importSymbol imp ≠ [] ∧ trimDllPart v ∈ generateSymbols imp.dll (importSymbol imp) true := by
    rw [Feature.matchesSet_of_lookupOnly rfl, FeatureSet.has_addAll, FeatureSet.has_empty]
    simp only [Bool.false_eq_true, or_false]
    rw [emitApiVariants]
    split_ifs with hempty
    · simp [List.isEmpty_iff.mp hempty]
    · have hne : importSymbol imp ≠ [] := fun h => hempty (List.isEmpty_iff.mpr h)
      rw [and_iff_right hne]
      constructor
      · rintro ⟨p, hp, heq⟩
        obtain ⟨w, hw, rfl⟩ := List.mem_map.mp hp
        rcases (Feature.beq_iff _ _).mp heq with h | h
        · have hvalue := congrArg Feature.value h
          exact FeatureValue.api.inj hvalue ▸ hw
        · cases h
          exact hw
      · exact fun hw => ⟨_, List.mem_map_of_mem hw,
          (Feature.beq_iff _ _).mpr (Or.inr (.rest _ ⟨nofun, nofun⟩))⟩
  constructor
  · intro h
    obtain ⟨f, hf, hsuccess⟩ := h [] 0 0 true
    rw [buildFeatureLeaf_api hsep htrim] at hf
    cases hf
    rw [Feature.evaluate_success] at hsuccess
    exact (hhas []).mp hsuccess
  · intro h description line column sc
    refine ⟨_, buildFeatureLeaf_api hsep htrim description line column, ?_⟩
    rw [Feature.evaluate_success]
    exact (hhas description).mpr h

/-! ### The library of a spelling -/

/-- The leaf takes what comes before the point of a spelling for its library. -/
def DropsLibrary (v : Str) : Prop :=
  v.count (ch '.') = 1 ∧ v.findStr (str "::") = none ∧ v.findStr (str ".#") = none

theorem trimDllPart_of_not_dropsLibrary {v : Str} (h : ¬DropsLibrary v) : trimDllPart v = v := by
  rw [trimDllPart]
  split_ifs with hordinal hdrop
  · rfl
  · refine absurd ⟨hdrop.1, ?_, ?_⟩ h
    · exact Option.isNone_iff_eq_none.mp hdrop.2
    · exact Option.not_isSome_iff_eq_none.mp hordinal
  · rfl

theorem trimDllPart_of_dropsLibrary {v : Str} (h : DropsLibrary v) :
    ∃ library symbol, v = dottedSymbol library symbol ∧ ch '.' ∉ library ∧ ch '.' ∉ symbol ∧
      trimDllPart v = symbol := by
  obtain ⟨hcount, hqualified, hordinal⟩ := h
  have hmem : ch '.' ∈ v := List.count_pos_iff.mp (by omega)
  obtain ⟨library, symbol, rfl, hlibrary⟩ := List.eq_append_cons_of_mem hmem
  have hsymbol : ch '.' ∉ symbol := by
    rw [List.count_append, List.count_cons_self] at hcount
    exact List.count_eq_zero.mp (by omega)
  refine ⟨library, symbol, rfl, hlibrary, hsymbol, ?_⟩
  rw [trimDllPart, if_neg (by rw [hordinal]; exact Bool.false_ne_true),
    if_pos ⟨hcount, by rw [hqualified]; rfl⟩, Str.find_append_cons hlibrary, Option.getD_some]
  simp [List.drop_append]

/-- Two ways to read a text as a library, a point and a symbol agree when neither library has a
point. -/
theorem dottedSymbol_inj {library library' symbol symbol' : Str}
    (h : dottedSymbol library symbol = dottedSymbol library' symbol') (hl : ch '.' ∉ library)
    (hl' : ch '.' ∉ library') : library = library' ∧ symbol = symbol' := by
  have hfind := congrArg (Str.find · (ch '.')) h
  simp only [dottedSymbol, Str.find_append_cons hl, Str.find_append_cons hl',
    Option.some_inj] at hfind
  obtain ⟨hlib, hsym⟩ := List.append_inj h hfind
  exact ⟨hlib, (List.cons.inj hsym).2⟩

/-- **Which spellings match.** A leaf with a spelling of an import is true on the features of a call
to it, whatever its description, unless the import has no symbol, or the spelling is one without
the library that the leaf takes for one with a library: it has exactly one point, is not qualified
and is no ordinal. -/
theorem apiLeafMatches_iff (E : RegexEngine) (imp : ParsedImport) (addrVa : UInt64) (v : Str)
    (hv : v ∈ generateSymbols imp.dll (importSymbol imp) true)
    (hsep : v.findStr (str " = ") = none) (htrim : v.trim = v) :
    ApiLeafMatches E imp addrVa v ↔ importSymbol imp ≠ [] ∧
      ¬(v ∈ generateSymbols imp.dll (importSymbol imp) false ∧ DropsLibrary v) := by
  rw [apiLeafMatches_iff_mem hsep htrim]
  refine and_congr_right fun _ => ?_
  obtain ⟨w, hw, hform⟩ := mem_generateSymbols.mp hv
  by_cases hdrop : DropsLibrary v
  · obtain ⟨library, symbol, hlibrary, hnolib, hnosym, htrimmed⟩ :=
      trimDllPart_of_dropsLibrary hdrop
    rw [htrimmed, and_iff_left hdrop]
    rcases hform with rfl | rfl
    · -- without its library, every other spelling still has the point
      refine iff_of_false (fun hsymbol => ?_) (not_not_intro hw)
      obtain ⟨w', hw', hform'⟩ := mem_generateSymbols.mp hsymbol
      rcases hform' with rfl | rfl
      · have hcount := count_of_mem_generateSymbols hw'
        rw [← count_of_mem_generateSymbols hw, hdrop.1] at hcount
        exact hnosym (List.count_pos_iff.mp (by omega))
      · exact hnosym (List.mem_append_right _ List.mem_cons_self)
    · have hcount := hdrop.1
      rw [dottedSymbol, List.count_append, List.count_cons_self] at hcount
      have hdll : ch '.' ∉ imp.dll := List.count_eq_zero.mp (by omega)
      obtain ⟨-, rfl⟩ := dottedSymbol_inj hlibrary hdll hnolib
      refine iff_of_true (mem_generateSymbols.mpr ⟨w, hw, Or.inl rfl⟩) fun hmem => ?_
      have hwcount := count_of_mem_generateSymbols hw
      rw [← count_of_mem_generateSymbols hmem, hdrop.1] at hwcount
      exact hnosym (List.count_pos_iff.mp (by omega))
  · rw [trimDllPart_of_not_dropsLibrary hdrop]
    exact iff_of_true hv fun h => hdrop h.2

/-- A call to `kernel32.CreateFileA` under the spelling without the suffix. -/
theorem apiLeafMatches_createFile :
    let E : RegexEngine := ⟨fun _ _ => true, fun _ _ _ => false⟩
    let imp : ParsedImport :=
      { dll := str "kernel32", name := str "CreateFileA", iatVa := 0, delayed := false }
    ApiLeafMatches E imp 0 (str "kernel32.CreateFile") := by
  intro E imp
  refine (apiLeafMatches_iff E imp 0 _ (by decide +kernel) (by decide +kernel)
    (by decide +kernel)).mpr ⟨by decide +kernel, ?_⟩
  exact fun h => absurd h.1 (by decide +kernel)

/-- A symbol with a point, named without its library, does not match a call to it. -/
theorem dotted_symbol_not_matched :
    let imp : ParsedImport :=
      { dll := str "mylib", name := str "Unit.Init", iatVa := 0, delayed := false }
    let v := str "Unit.Init"
    v ∈ generateSymbols imp.dll (importSymbol imp) true ∧ v.findStr (str " = ") = none ∧
      v.trim = v ∧ ∀ E, ¬ApiLeafMatches E imp 0 v := by
  intro imp v
  have hv : v ∈ generateSymbols imp.dll (importSymbol imp) true := by decide +kernel
  refine ⟨hv, by decide +kernel, by decide +kernel, fun E h => ?_⟩
  have hmem := ((apiLeafMatches_iff_mem (by decide +kernel) (by decide +kernel)).mp h).2
  exact absurd hmem (by decide +kernel)

end Papa.Rules
