import Papa.Pe.PeOffsets

/-!
# The PE parser is safe

Whatever the file, the parser refuses it or returns an image: it looks at no place outside the file
and none of its loops is cut off. The tables of what it returns are within their limits.

## Main definitions

* `Ends`: a computation refuses or returns a value with a property.

## Main results

* `ends_parse`: without a cut.
* `parse_safe`: on the machine.
-/

namespace Papa.Pe

/-! ### Computations that refuse or return -/

/-- A computation refuses, or it returns a value with a property. -/
def Ends {α : Type} (m : Guarded α) (P : α → Prop) : Prop :=
  match m with
  | .ok a => P a
  | .error s => ∃ e, s = .refused e

namespace Ends

variable {α β : Type} {m : Guarded α} {P Q : α → Prop} {R : β → Prop}

theorem pure {a : α} (h : P a) : Ends (pure a) P := h

theorem refuse (kind : ErrorKind) (detail : String) : Ends (refuse kind detail) P := ⟨_, rfl⟩

theorem bind {f : α → Guarded β} (hm : Ends m Q) (hf : ∀ a, Q a → Ends (f a) R) :
    Ends (m >>= f) R := by
  match m, hm with
  | .ok a, ha => exact hf a ha
  | .error _, he => exact he

theorem imp (hm : Ends m Q) (h : ∀ a, Q a → P a) : Ends m P := by
  match m, hm with
  | .ok a, ha => exact h a ha
  | .error _, he => exact he

theorem ite {c : Prop} [Decidable c] {m' : Guarded α} (h : c → Ends m P) (h' : ¬c → Ends m' P) :
    Ends (if c then m else m') P := by
  split_ifs with hc
  · exact h hc
  · exact h' hc

/-- The caller of a call whose error it handles gets the error, or what the call tells. -/
theorem attempt (hm : Ends m Q) : Ends (attempt m) fun r => ∀ a, r = .ok a → Q a := by
  match m, hm with
  | .ok a, ha =>
    rintro b hb
    obtain rfl := Except.ok.inj hb
    exact ha
  | .error _, ⟨e, he⟩ =>
    subst he
    exact fun _ hb => nomatch hb

end Ends

/-- A part of a file lies in it. -/
def Span.Within (s : Span) (buf : List UInt8) : Prop := s.start + s.size ≤ buf.length

theorem within_whole (buf : List UInt8) : Span.Within ⟨0, buf.length⟩ buf := (Nat.zero_add _).le

/-- Nothing is copied out of a part of a file but what lies in it. -/
theorem ends_readLe {buf : List UInt8} {s : Span} (hs : s.Within buf) (off n : ℕ) :
    Ends (readLe buf s off n) fun _ => True := by
  unfold Span.Within at hs
  unfold readLe
  refine .ite (fun _ => .pure trivial) fun hin => ?_
  rw [not_or, not_lt, not_lt] at hin
  rw [rawRead, if_pos (by omega)]
  exact .pure trivial

variable {lookupOrdinalName : OrdinalNames} {img : PeImage}

theorem ends_readAtRva (img : PeImage) (rva n : ℕ) :
    Ends (img.readAtRva .exact rva n) fun s => s.Within img.buffer := by
  cases h : img.readAtRva .exact rva n with
  | ok s => exact (PeImage.within_of_readAtRva h).2
  | error s =>
    unfold PeImage.readAtRva PeImage.readAtFileOffset at h
    split at h
    · exact ⟨_, (Except.error.inj h).symm⟩
    · split_ifs at h
      · exact ⟨_, (Except.error.inj h).symm⟩

/-! ### Names and imports -/

theorem ends_cstringLoop (start todo i : ℕ) (out : Str) :
    Ends (cstringLoop .exact img start todo i out) fun _ => True := by
  induction todo generalizing i out with
  | zero => exact .refuse _ _
  | succ todo ih =>
    rw [cstringLoop, Arith.exact_u64]
    refine .ite (fun _ => .refuse _ _) fun hend => ?_
    rw [rawRead, if_pos (by omega)]
    exact .ite (fun _ => .pure trivial) fun _ => ih _ _

theorem ends_readCstringAtRva (img : PeImage) (rva : ℕ) :
    Ends (readCstringAtRva .exact img rva) fun _ => True := by
  unfold readCstringAtRva
  split
  · exact .refuse _ _
  · exact .ite (fun _ => .refuse _ _) fun _ => ends_cstringLoop _ _ _ _

theorem ends_importItem (dll : Str) (delayed : Bool) (iatVa entry : UInt64) :
    Ends (importItem .exact lookupOrdinalName img dll delayed iatVa entry) fun _ => True := by
  unfold importItem
  refine .ite (fun _ => ?_) fun _ =>
    (ends_readCstringAtRva _ _).bind fun _ _ => .pure trivial
  dsimp only
  split <;> exact .pure trivial

/-- What the slots add is at most one symbol for each slot. -/
theorem ends_importSlots (dll : Str) (delayed : Bool) (iltRva iatRva : UInt32) (todo slot : ℕ)
    (out : List ParsedImport) :
    Ends (importSlots .exact lookupOrdinalName img dll delayed iltRva iatRva todo slot out)
      fun out' => ∃ added, out' = out ++ added ∧ added.length ≤ todo := by
  induction todo generalizing slot out with
  | zero => exact ⟨[], (List.append_nil _).symm, Nat.le_refl _⟩
  | succ todo ih =>
    refine (ends_readAtRva _ _ _).bind fun bytes hbytes => ?_
    refine (ends_readLe hbytes _ _).bind fun raw _ => ?_
    match raw with
    | none => exact .refuse _ _
    | some raw =>
      refine .ite (fun _ => .pure ⟨[], (List.append_nil _).symm, Nat.zero_le _⟩) fun _ => ?_
      refine (ends_importItem _ _ _ _).bind fun item _ => (ih _ _).imp ?_
      rintro _ ⟨added, rfl, hlen⟩
      exact ⟨item :: added, List.append_assoc _ _ _, Nat.succ_le_succ hlen⟩

/-- One descriptor adds at most `kMaxImportsPerDll` symbols. -/
theorem ends_walkImportDescriptor (desc : ImportDescriptor) (delayed : Bool)
    (out : List ParsedImport) :
    Ends (walkImportDescriptor .exact lookupOrdinalName img desc delayed out)
      fun out' => ∃ added, out' = out ++ added ∧ added.length ≤ kMaxImportsPerDll := by
  refine .ite (fun _ => .pure ⟨[], (List.append_nil _).symm, Nat.zero_le _⟩) fun _ => ?_
  refine (ends_readCstringAtRva _ _).bind fun dllName _ => ?_
  exact .ite (fun _ => .refuse _ _) fun _ => ends_importSlots _ _ _ _ _ _ _

theorem ends_importDescriptors (dd : DataDirectory) (size : ℕ) (detail : String) (delayed : Bool)
    (decode : List UInt8 → Option ImportDescriptor) (todo i : ℕ) (out : List ParsedImport) :
    Ends (importDescriptors .exact lookupOrdinalName img dd size detail delayed decode todo i out)
      fun _ => True := by
  induction todo generalizing i out with
  | zero => exact .pure trivial
  | succ todo ih =>
    refine (ends_readAtRva _ _ _).bind fun bytes hbytes => ?_
    refine (ends_readLe hbytes _ _).bind fun raw _ => ?_
    match raw with
    | none => exact .refuse _ _
    | some raw =>
      dsimp only
      cases decode raw with
      | none => exact .pure trivial
      | some desc => exact (ends_walkImportDescriptor _ _ _).bind fun out _ => ih _ _

theorem ends_parseImports (dirs : List DataDirectory) :
    Ends (parseImports .exact lookupOrdinalName img dirs) fun _ => True :=
  .ite (fun _ => .pure trivial) fun _ => ends_importDescriptors _ _ _ _ _ _ _ _

theorem ends_parseDelayImports (dirs : List DataDirectory) :
    Ends (parseDelayImports .exact lookupOrdinalName img dirs) fun _ => True :=
  .ite (fun _ => .pure trivial) fun _ => ends_importDescriptors _ _ _ _ _ _ _ _

/-! ### Exports and thread-local storage -/

theorem ends_readRva (img : PeImage) (rva n : ℕ) :
    Ends (readRva .exact img rva n) fun _ => True := by
  refine (ends_readAtRva _ _ _).attempt.bind fun r hr => ?_
  match r with
  | .error _ => exact .pure trivial
  | .ok bytes => exact ends_readLe (hr bytes rfl) _ _

theorem ends_exportName (edir : ExportDirectory) (funcCount i : ℕ) (names : List Str) :
    Ends (exportName .exact img edir funcCount i names) fun _ => True := by
  refine (ends_readRva _ _ _).bind fun nameRva _ => (ends_readRva _ _ _).bind fun funcIdx _ => ?_
  match nameRva, funcIdx with
  | none, _ => exact .pure trivial
  | some _, none => exact .pure trivial
  | some nameRva, some funcIdx =>
    refine .ite (fun _ => .pure trivial) fun _ => ?_
    refine (ends_readCstringAtRva _ _).attempt.bind fun s _ => ?_
    match s with
    | .error _ => exact .pure trivial
    | .ok s => exact .pure trivial

theorem ends_exportNames (edir : ExportDirectory) (funcCount todo i : ℕ) (names : List Str) :
    Ends (exportNames .exact img edir funcCount todo i names) fun _ => True := by
  induction todo generalizing i names with
  | zero => exact .pure trivial
  | succ todo ih => exact (ends_exportName _ _ _ _).bind fun names _ => ih _ _

theorem ends_exportFunction (dd : DataDirectory) (edir : ExportDirectory) (names : List Str)
    (i : ℕ) : Ends (exportFunction .exact img dd edir names i) fun _ => True := by
  refine (ends_readRva _ _ _).bind fun raw _ => ?_
  match raw with
  | none => exact .pure trivial
  | some raw =>
    refine .ite (fun _ => .pure trivial) fun _ => ?_
    refine .ite (fun _ => ?_) fun _ => .pure trivial
    refine (ends_readCstringAtRva _ _).attempt.bind fun fwd _ => ?_
    match fwd with
    | .error _ => exact .pure trivial
    | .ok fwd => exact .pure trivial

/-- There is at most one export for each function. -/
theorem ends_exportFunctions (dd : DataDirectory) (edir : ExportDirectory) (names : List Str)
    (todo i : ℕ) (out : List ParsedExport) :
    Ends (exportFunctions .exact img dd edir names todo i out)
      fun out' => out'.length ≤ out.length + todo := by
  induction todo generalizing i out with
  | zero => exact Nat.le_refl _
  | succ todo ih =>
    refine (ends_exportFunction _ _ _ _).bind fun peExp _ => (ih _ _).imp fun out' hout' => ?_
    have hone : peExp.toList.length ≤ 1 := by cases peExp <;> simp
    rw [List.length_append] at hout'
    omega

theorem ends_parseExports (dirs : List DataDirectory) :
    Ends (parseExports .exact img dirs) fun out => out.length ≤ kMaxExportsPerImage := by
  refine .ite (fun _ => .pure (Nat.zero_le _)) fun _ => ?_
  refine (ends_readAtRva _ _ _).bind fun dirBytes hbytes => ?_
  refine (ends_readLe hbytes _ _).bind fun raw _ => ?_
  match raw with
  | none => exact .refuse _ _
  | some raw =>
    refine (ends_exportNames _ _ _ _ _).bind fun names _ =>
      (ends_exportFunctions _ _ _ _ _ _).imp fun out hout => ?_
    rw [List.length_nil, Nat.zero_add] at hout
    exact hout.trans (exportCount_le _ _)

/-- There is at most one callback for each slot. -/
theorem ends_tlsSlots (callbacksRva todo i : ℕ) (callbacks : List UInt64) :
    Ends (tlsSlots .exact img callbacksRva todo i callbacks)
      fun out => out.length ≤ callbacks.length + todo := by
  induction todo generalizing i callbacks with
  | zero => exact Nat.le_refl _
  | succ todo ih =>
    refine (ends_readRva _ _ _).bind fun raw _ => ?_
    match raw with
    | none => exact .pure (Nat.le_add_right _ _)
    | some raw =>
      refine .ite (fun _ => .pure (Nat.le_add_right _ _)) fun _ => (ih _ _).imp fun out hout => ?_
      rw [List.length_append, List.length_singleton] at hout
      omega

theorem ends_parseTlsCallbacks (dirs : List DataDirectory) :
    Ends (parseTlsCallbacks .exact img dirs) fun out => out.length ≤ 256 := by
  refine .ite (fun _ => .pure (Nat.zero_le _)) fun _ => ?_
  refine (ends_readAtRva _ _ _).bind fun bytes hbytes => ?_
  refine (ends_readLe hbytes _ _).bind fun raw _ => ?_
  match raw with
  | none => exact .refuse _ _
  | some raw =>
    refine .ite (fun _ => .pure (Nat.zero_le _)) fun _ => ?_
    refine .ite (fun _ => .pure (Nat.zero_le _)) fun _ => (ends_tlsSlots _ _ _ _).imp ?_
    intro out hout
    rwa [List.length_nil, Nat.zero_add] at hout

/-! ### Relocations -/

/-- Every entry brings the walk two bytes further, so the walk of a block ends. -/
theorem ends_relocEntries {relbytes : Span} (hrel : relbytes.Within img.buffer) (pageRva : UInt32)
    {bodyEnd fuel roff : ℕ} (hpos : 0 < fuel) (hfuel : bodyEnd < roff + fuel)
    {out : List ParsedRelocation} (hout : out.length ≤ kMaxRelocations) :
    Ends (relocEntries .exact img relbytes pageRva bodyEnd fuel roff out)
      fun r => r.1.length ≤ kMaxRelocations := by
  induction fuel generalizing roff out with
  | zero => exact absurd hpos (lt_irrefl 0)
  | succ fuel ih =>
    refine .ite (fun hin => ?_) fun _ => .pure hout
    rw [Arith.exact_u64] at hin
    refine (ends_readLe hrel _ _).bind fun raw _ => ?_
    match raw with
    | none => exact .pure hout
    | some raw =>
      refine .ite (fun _ => .pure hout) fun hfull => ?_
      refine ih (by omega) (by rw [Arith.exact_u64]; omega) ?_
      rw [List.length_append, List.length_singleton]
      omega

/-- Every block brings the walk at least eight bytes further, so the walk ends. -/
theorem ends_relocBlocks {relbytes : Span} (hrel : relbytes.Within img.buffer) {fuel pos : ℕ}
    (hpos : 0 < fuel) (hfuel : relbytes.size < pos + fuel) {out : List ParsedRelocation}
    (hout : out.length ≤ kMaxRelocations) :
    Ends (relocBlocks .exact img relbytes fuel pos out)
      fun out' => out'.length ≤ kMaxRelocations := by
  induction fuel generalizing pos out with
  | zero => exact absurd hpos (lt_irrefl 0)
  | succ fuel ih =>
    refine .ite (fun _ => .pure hout) fun hin => ?_
    refine .ite (fun _ => .pure hout) fun hrest => ?_
    refine (ends_readLe hrel _ _).bind fun page _ => ?_
    match page with
    | none => exact .pure hout
    | some page =>
      refine (ends_readLe hrel _ _).bind fun chunk _ => ?_
      match chunk with
      | none => exact .pure hout
      | some chunk =>
        refine .ite (fun _ => .pure hout) fun hchunk => ?_
        rw [not_or, not_or, not_lt, not_lt] at hchunk
        refine (ends_relocEntries hrel _ (Nat.succ_pos _) ?_ hout).bind fun r hr => ?_
        · simp only [Arith.exact_u64]
          omega
        · refine .ite (fun _ => .pure hr) fun _ => ih (by omega) ?_ hr
          rw [Arith.exact_u64]
          omega

theorem ends_parseRelocations (dirs : List DataDirectory) :
    Ends (parseRelocations .exact img dirs) fun out => out.length ≤ kMaxRelocations := by
  refine .ite (fun _ => .pure (Nat.zero_le _)) fun _ => ?_
  refine (ends_readAtRva _ _ _).attempt.bind fun r hr => ?_
  match r with
  | .error _ => exact .pure (Nat.zero_le _)
  | .ok relbytes =>
    exact ends_relocBlocks (hr relbytes rfl) (Nat.succ_pos _) (by omega) (Nat.zero_le _)

/-! ### Headers and files -/

theorem ends_optionalHeader32 (buf : List UInt8) (machine numberOfSections : UInt16)
    (optOff : ℕ) :
    Ends (optionalHeader32 .exact buf machine numberOfSections optOff) fun _ => True := by
  refine (ends_readLe (within_whole buf) _ _).bind fun oh _ => ?_
  match oh with
  | none => exact .refuse _ _
  | some oh => exact .pure trivial

theorem ends_optionalHeader64 (buf : List UInt8) (machine numberOfSections : UInt16)
    (optOff : ℕ) :
    Ends (optionalHeader64 .exact buf machine numberOfSections optOff) fun _ => True := by
  refine (ends_readLe (within_whole buf) _ _).bind fun oh _ => ?_
  match oh with
  | none => exact .refuse _ _
  | some oh => exact .pure trivial

theorem ends_ntHeaders (buf : List UInt8) (ntOff : ℕ) :
    Ends (ntHeaders .exact buf ntOff) fun _ => True := by
  refine (ends_readLe (within_whole buf) _ _).bind fun sig _ => ?_
  match sig with
  | none => exact .refuse _ _
  | some sig =>
    refine .ite (fun _ => .refuse _ _) fun _ => ?_
    refine (ends_readLe (within_whole buf) _ _).bind fun fh _ => ?_
    match fh with
    | none => exact .refuse _ _
    | some fh =>
      refine (ends_readLe (within_whole buf) _ _).bind fun optMagic _ => ?_
      match optMagic with
      | none => exact .refuse _ _
      | some optMagic =>
        exact .ite (fun _ => ends_optionalHeader32 _ _ _ _) fun _ =>
          .ite (fun _ => ends_optionalHeader64 _ _ _ _) fun _ => .refuse _ _

theorem ends_fileHeaders (buf : List UInt8) : Ends (fileHeaders .exact buf) fun _ => True := by
  refine (ends_readLe (within_whole buf) _ _).bind fun dos _ => ?_
  match dos with
  | none => exact .refuse _ _
  | some dos =>
    exact .ite (fun _ => .refuse _ _) fun _ =>
      .ite (fun _ => .refuse _ _) fun _ => ends_ntHeaders _ _

theorem ends_dataDirectories (buf : List UInt8) (dirOff todo i : ℕ) (dirs : List DataDirectory) :
    Ends (dataDirectories .exact buf dirOff todo i dirs) fun _ => True := by
  induction todo generalizing i dirs with
  | zero => exact .pure trivial
  | succ todo ih =>
    refine (ends_readLe (within_whole buf) _ _).bind fun raw _ => ?_
    match raw with
    | none => exact .refuse _ _
    | some raw => exact ih _ _

/-- There is one section for each header. -/
theorem ends_sectionHeaders (buf : List UInt8) (secOff todo i : ℕ)
    (sections : List ParsedSection) :
    Ends (sectionHeaders .exact buf secOff todo i sections)
      fun out => out.length = sections.length + todo := by
  induction todo generalizing i sections with
  | zero => exact rfl
  | succ todo ih =>
    refine (ends_readLe (within_whole buf) _ _).bind fun raw _ => ?_
    match raw with
    | none => exact .refuse _ _
    | some raw =>
      refine (ih _ _).imp fun out hout => ?_
      rw [List.length_append, List.length_singleton] at hout
      omega

theorem ends_parseHeaders (buf : List UInt8) :
    Ends (parseHeaders .exact buf) fun r => r.1.sections.length ≤ kMaxSectionsPerImage := by
  refine (ends_fileHeaders buf).bind fun headers _ => ?_
  refine (ends_dataDirectories _ _ _ _ _).bind fun dirs _ => ?_
  refine (ends_sectionHeaders _ _ _ _ _).bind fun sections hlen => .pure ?_
  rw [List.length_nil, Nat.zero_add] at hlen
  exact hlen.trans_le (Nat.min_le_right _ _)

/-- The tables of an image are within their limits. -/
structure PeImage.Limited (img : PeImage) : Prop where
  sections : img.sections.length ≤ kMaxSectionsPerImage
  exports : img.exports.length ≤ kMaxExportsPerImage
  relocations : img.relocations.length ≤ kMaxRelocations
  tlsCallbacks : img.tlsCallbacks.length ≤ 256

theorem ends_parse (buf : List UInt8) :
    Ends (parse .exact lookupOrdinalName buf) PeImage.Limited := by
  refine (ends_parseHeaders buf).bind fun r hsections => ?_
  obtain ⟨img, dirs⟩ := r
  refine (ends_parseImports dirs).bind fun imports _ => ?_
  refine (ends_parseDelayImports dirs).bind fun delayImports _ => ?_
  refine (ends_parseExports dirs).bind fun exports hexports => ?_
  refine (ends_parseTlsCallbacks dirs).bind fun tlsCallbacks htls => ?_
  refine (ends_parseRelocations dirs).bind fun relocations hrelocations => ?_
  exact .pure ⟨hsections, hexports, hrelocations, htls⟩

/-- **The parser is safe**: whatever the file, no offset depends on how sums that do not fit are
cut; the parser refuses the file or returns an image without having looked outside the file and with
every loop at its end; the tables of the image are within their limits, and so is what one
descriptor adds to the imports. -/
theorem parse_safe (lookupOrdinalName : OrdinalNames) (buf : List UInt8) :
    (∀ w : Arith, w.Fits → parse w lookupOrdinalName buf = parse .exact lookupOrdinalName buf) ∧
      Ends (parse .machine lookupOrdinalName buf) PeImage.Limited ∧
      ∀ (img : PeImage) (desc : ImportDescriptor) (delayed : Bool) (out : List ParsedImport),
        Ends (walkImportDescriptor .machine lookupOrdinalName img desc delayed out)
          fun out' => ∃ added, out' = out ++ added ∧ added.length ≤ kMaxImportsPerDll := by
  refine ⟨fun w hw => parse_eq_exact hw buf, ?_, fun img desc delayed out => ?_⟩
  · rw [parse_eq_exact Arith.fits_machine]
    exact ends_parse buf
  · rw [walkImportDescriptor_eq Arith.fits_machine]
    exact ends_walkImportDescriptor _ _ _

/-- The file is parsed with its section and its tables. -/
theorem parse_safe_importingFile :
    parse .machine (fun _ _ => none) (importingFile 0x40) =
        parse .exact (fun _ _ => none) (importingFile 0x40) ∧
      ∃ img : PeImage, parse .machine (fun _ _ => none) (importingFile 0x40) = .ok img ∧
        img.sections.map (·.name) = [str ".data"] ∧
        img.imports = [{ dll := str "a", ordinal := 5, iatVa := 0x401038, byOrdinal := true,
                         delayed := false }] ∧
        img.relocations = [⟨0x1038, 3⟩, ⟨0x1000, 0⟩] :=
  ⟨(parse_safe _ _).1 _ Arith.fits_machine, by decide +kernel⟩

end Papa.Pe
