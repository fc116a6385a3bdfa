import Papa.Features.FeatureSet
import Papa.Pe.PeImage

/-!
# The spellings of imported functions

A call to an imported function is an API feature under every spelling a rule may use: with the
library or without it, and with the suffix that tells the character set or without it. An import by
ordinal is spelled by its number after a hash sign.

## Main definitions

* `Papa.Features.generateSymbols`: the spellings of a symbol.
* `Papa.Features.emitApiVariants`: the features of a call to an import.
* `Papa.Features.IsSpelling`: what an import is spelled as.

## Main results

* `Papa.Features.mem_generateSymbols`: the spellings with the library are those without it, and
  these after the library and a point.
* `Papa.Features.isSpelling_iff`: the spellings of the symbol of an import are those of the import.
-/

namespace Papa.Features

open Pe

/-- A symbol without its suffix for a character set, if it has one. -/
def stripAwSuffix (symbol : Str) : Option Str :=
  if symbol.length < 2 then none
  else if symbol.getLast? = some (ch 'A') ∨ symbol.getLast? = some (ch 'W') then
    some symbol.dropLast
  else none

/-- A symbol after its library and a point. -/
def dottedSymbol (dll symbol : Str) : Str := dll ++ ch '.' :: symbol

/-- The spellings of a symbol of a library. -/
def generateSymbols (dll symbol : Str) (includeDll : Bool) : List Str :=
  let form (s : Str) : List Str := (if includeDll then [dottedSymbol dll s] else []) ++ [s]
  if symbol.head? = some (ch '#') then form symbol
  else form symbol ++
    match stripAwSuffix symbol with
    | some base => if base.isEmpty then [] else form base
    | none => []

/-- The symbol of an import. -/
def importSymbol (imp : ParsedImport) : Str :=
  if imp.byOrdinal then ch '#' :: toStr imp.ordinal.toNat else imp.name

/-- The API features of a call to an import. -/
def emitApiVariants (imp : ParsedImport) (addrVa : UInt64) : List (Feature × Address) :=
  let symbol := importSymbol imp
  if symbol.isEmpty then []
  else (generateSymbols imp.dll symbol true).map fun v =>
    ({ value := .api v }, .absoluteVirtual addrVa)

/-- **The spellings with the library** are those without it, and these after the library. -/
theorem mem_generateSymbols {dll symbol v : Str} :
    v ∈ generateSymbols dll symbol true ↔
      ∃ w ∈ generateSymbols dll symbol false, v = w ∨ v = dottedSymbol dll w := by
  simp only [generateSymbols, if_true, Bool.false_eq_true, if_false, List.nil_append]
  by_cases hordinal : symbol.head? = some (ch '#')
  · rw [if_pos hordinal, if_pos hordinal]
    simp [or_comm]
  · rw [if_neg hordinal, if_neg hordinal]
    cases stripAwSuffix symbol with
    | none => simp [or_comm]
    | some base =>
      cases base with
      | nil => simp [or_comm]
      | cons c cs => simp [or_assoc, or_comm, or_left_comm]

/-- A symbol without the letter for a character set. -/
theorem stripAwSuffix_eq_some_iff {symbol w : Str} : stripAwSuffix symbol = some w ∧ w ≠ [] ↔
    w ≠ [] ∧ (symbol = w ++ [ch 'A'] ∨ symbol = w ++ [ch 'W']) := by
  rw [stripAwSuffix, and_comm]
  refine and_congr_right fun hne => ⟨fun h => ?_, fun h => ?_⟩
  · split_ifs at h with hlength hlast
    obtain rfl := Option.some.inj h
    exact hlast.imp (fun hA => (List.dropLast_append_getLast? _ hA).symm)
      fun hW => (List.dropLast_append_getLast? _ hW).symm
  · have hpos := List.length_pos_iff.mpr hne
    rcases h with rfl | rfl
    · rw [if_neg (by rw [List.length_append, List.length_singleton]; omega),
        if_pos (.inl List.getLast?_concat), List.dropLast_concat]
    · rw [if_neg (by rw [List.length_append, List.length_singleton]; omega),
        if_pos (.inr List.getLast?_concat), List.dropLast_concat]

/-- The spellings of a symbol without the library: the symbol, and what comes before the letter for
a character set if the symbol is no number. -/
theorem mem_generateSymbols_false_iff {dll symbol w : Str} :
    w ∈ generateSymbols dll symbol false ↔ w = symbol ∨
      symbol.head? ≠ some (ch '#') ∧ stripAwSuffix symbol = some w ∧ w ≠ [] := by
  simp only [generateSymbols, Bool.false_eq_true, if_false, List.nil_append]
  by_cases hhash : symbol.head? = some (ch '#')
  · simp [hhash]
  · rw [if_neg hhash, List.mem_append, List.mem_singleton]
    refine or_congr_right ?_
    cases stripAwSuffix symbol with
    | none => simp
    | some base =>
      rw [and_iff_right hhash, Option.some.injEq]
      by_cases hbase : base = []
      · subst hbase
        simp
      · dsimp only
        rw [List.isEmpty_eq_false_iff.mpr hbase, if_neg Bool.false_ne_true, List.mem_singleton]
        exact ⟨fun h => ⟨h.symm, h ▸ hbase⟩, fun h => h.1.symm⟩

/-- A spelling without the library is the symbol, or what comes before its last byte, a letter. -/
theorem mem_generateSymbols_false {dll symbol w : Str} (h : w ∈ generateSymbols dll symbol false) :
    w = symbol ∨ symbol = w ++ [ch 'A'] ∨ symbol = w ++ [ch 'W'] :=
  (mem_generateSymbols_false_iff.mp h).imp_right
    fun ⟨_, hstem⟩ => (stripAwSuffix_eq_some_iff.mp hstem).2

/-- Every spelling without the library has the points of the symbol. -/
theorem count_of_mem_generateSymbols {dll symbol w : Str}
    (h : w ∈ generateSymbols dll symbol false) : w.count (ch '.') = symbol.count (ch '.') := by
  rcases mem_generateSymbols_false h with rfl | rfl | rfl
  · rfl
  · rw [List.count_append]; rfl
  · rw [List.count_append]; rfl

/-- A name of an import: its number after a hash sign, its name, or what comes before the letter for
a character set that its name ends with. -/
inductive IsImportName (imp : ParsedImport) : Str → Prop
  | ordinal (hordinal : imp.byOrdinal) : IsImportName imp (ch '#' :: toStr imp.ordinal.toNat)
  | name (hordinal : ¬imp.byOrdinal) (hne : imp.name ≠ []) : IsImportName imp imp.name
  | stem {w : Str} {c : UInt8} (hordinal : ¬imp.byOrdinal) (hname : imp.name = w ++ [c])
    (hc : c = ch 'A' ∨ c = ch 'W') (hne : w ≠ []) (hhash : w.head? ≠ some (ch '#')) :
    IsImportName imp w

/-- What an import is spelled as: one of its names, on its own or after the library and a point. -/
def IsSpelling (imp : ParsedImport) (s : Str) : Prop :=
  ∃ w, IsImportName imp w ∧ (s = w ∨ s = imp.dll ++ ch '.' :: w)

/-- **The names of an import** are the spellings of its symbol without the library. -/
theorem isImportName_iff {imp : ParsedImport} {w : Str} : IsImportName imp w ↔
    importSymbol imp ≠ [] ∧ w ∈ generateSymbols imp.dll (importSymbol imp) false := by
  rw [mem_generateSymbols_false_iff, stripAwSuffix_eq_some_iff, importSymbol]
  constructor
  · rintro (hordinal | ⟨hordinal, hne⟩ | ⟨hordinal, hname, hc, hne, hhash⟩)
    · simp [hordinal]
    · simpa [hordinal] using hne
    · rw [if_neg hordinal, hname, List.head?_append_of_ne_nil _ hne]
      exact ⟨List.concat_ne_nil _ _,
        .inr ⟨hhash, hne, hc.imp (congrArg (w ++ [·])) (congrArg (w ++ [·]))⟩⟩
  · by_cases hordinal : imp.byOrdinal
    · rw [if_pos hordinal]
      rintro ⟨-, rfl | ⟨hhash, -⟩⟩
      · exact .ordinal hordinal
      · exact absurd rfl hhash
    · rw [if_neg hordinal]
      rintro ⟨hsymbol, rfl | ⟨hhash, hne, hname⟩⟩
      · exact .name hordinal hsymbol
      · obtain ⟨c, hc, hname⟩ : ∃ c, (c = ch 'A' ∨ c = ch 'W') ∧ imp.name = w ++ [c] :=
          hname.elim (fun h => ⟨_, .inl rfl, h⟩) fun h => ⟨_, .inr rfl, h⟩
        refine .stem hordinal hname hc hne fun h => hhash ?_
        rw [hname, List.head?_append_of_ne_nil _ hne, h]

/-- **The spellings of an import** are those of its symbol. -/
theorem isSpelling_iff {imp : ParsedImport} {s : Str} : IsSpelling imp s ↔
    importSymbol imp ≠ [] ∧ s ∈ generateSymbols imp.dll (importSymbol imp) true := by
  rw [mem_generateSymbols, IsSpelling]
  simp only [isImportName_iff, dottedSymbol, and_assoc, exists_and_left]

end Papa.Features
