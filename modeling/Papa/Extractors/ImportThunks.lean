import Papa.Extractors.Recovered
import Papa.Library.AssocList
import Papa.Pe.CappedReaders

/-!
# Calls of imported functions

An imported function is called through its slot. The call reads the slot itself, or it leads to a
thunk that does: the address that is called is followed over unconditional branches, each of which
may stand behind an `endbr`, until one of them reads a slot or an address is the one of a slot. At
most five addresses are looked at.

## Main definitions

* `buildImportTable`: the imports by their slots.
* `resolveDirectCallImport`: the import that a branch calls.
* `Leads`: the addresses from which thunks lead to an import.

## Main results

* `get?_buildImportTable`: of several imports with one slot the first is called.
* `resolveDirectCallImport_spec`: which import a branch calls.
-/

namespace Papa.Extractors

open Emu Pe

/-! ### The table -/

/-- The imports by the addresses of their slots. -/
abbrev ImportTable := List (UInt64 × ParsedImport)

/-- `build_import_table`: an import without a slot is left out, and the first one with a slot keeps
it. -/
def buildImportTable (image : PeImage) : ImportTable :=
  image.imports.foldl (fun table row =>
    if row.iatVa = 0 then table else AssocList.upsert row.iatVa row id table) []

/-- **The import of a slot** is the first one with the slot. -/
theorem get?_buildImportTable (image : PeImage) (va : UInt64) :
    AssocList.get? va (buildImportTable image) =
      image.imports.find? fun row => row.iatVa ≠ 0 ∧ row.iatVa = va := by
  have hfold (rows : List ParsedImport) (table : ImportTable) :
      AssocList.get? va (rows.foldl (fun table row =>
          if row.iatVa = 0 then table else AssocList.upsert row.iatVa row id table) table) =
        (AssocList.get? va table).or
          (rows.find? fun row => row.iatVa ≠ 0 ∧ row.iatVa = va) := by
    induction rows generalizing table with
    | nil => exact (Option.or_none).symm
    | cons row rows ih =>
      rw [List.foldl_cons, ih, List.find?_cons]
      by_cases hzero : row.iatVa = 0
      · rw [if_pos hzero]
        simp [hzero]
      · rw [if_neg hzero, AssocList.get?_upsert]
        by_cases hva : row.iatVa = va
        · subst hva
          cases AssocList.get? row.iatVa table <;> simp [hzero]
        · simp [hva]
  rw [buildImportTable, hfold, AssocList.get?_nil, Option.none_or]

/-! ### Thunks -/

/-- The first bytes of `endbr32` and `endbr64`. -/
def kEndbranchBytes : List UInt8 := [0xF3, 0x0F, 0x1E]

/-- The length of an `endbr`. -/
def kEndbranchSkipLen : UInt64 := 4

/-- The most addresses looked at. -/
def kThunkChainDepthDelta : ℕ := 5

/-- `has_endbranch_prefix`: whether an `endbr` is at an address. Its last byte is not looked at, but
must be there. -/
def hasEndbranch (image : PeImage) (va : UInt64) : Bool :=
  if va < image.imageBase then false
  else
    match image.bytesAtRva (va - image.imageBase).toNat kEndbranchSkipLen.toNat with
    | none => false
    | some bytes => kEndbranchBytes.isPrefixOf bytes

section Resolve

variable (image : PeImage) (imports : ImportTable)
  (decode : List UInt8 → UInt64 → Expected Native.DecodedInsn)

/-- The place of the branch of a thunk. -/
def branchVa (va : UInt64) : UInt64 :=
  if hasEndbranch image va then va + kEndbranchSkipLen else va

/-- The loop over the thunks. -/
def followThunks : (hops : ℕ) → UInt64 → Option ParsedImport
  | 0, _ => none
  | hops + 1, target =>
    match AssocList.get? target imports with
    | some row => some row
    | none =>
      match image.decodeInsnAt decode (branchVa image target) with
      | none => none
      | some d =>
        if (¬d.isJump ∧ ¬d.isCall) ∨ d.isConditional ∨ d.operands = [] then none
        else
          let thunkOp := d.operand 0
          match thunkOp.kind with
          | .ripRel => AssocList.get? (d.va + d.length + asU64 thunkOp.disp) imports
          | .immMem => AssocList.get? (asU64 thunkOp.disp) imports
          | .pcRel =>
            match d.branchTarget with
            | none => none
            | some target => followThunks hops target
          | _ => none

/-- `resolve_direct_call_import`. -/
def resolveDirectCallImport (ins : Native.DecodedInsn) : Option ParsedImport :=
  if ins.operands = [] then none
  else
    let op0 := ins.operand 0
    match op0.kind with
    | .immMem => AssocList.get? (asU64 op0.disp) imports
    | .ripRel => AssocList.get? (ins.va + ins.length + asU64 op0.disp) imports
    | .pcRel =>
      match ins.branchTarget with
      | none => none
      | some target => followThunks image imports decode kThunkChainDepthDelta target
    | _ => none

/-! ### Where thunks lead -/

/-- The slot that an instruction reads its target from. -/
def slotVa (ins : Native.DecodedInsn) : Option UInt64 :=
  let op0 := ins.operand 0
  match op0.kind with
  | .immMem => some (asU64 op0.disp)
  | .ripRel => some (ins.va + ins.length + asU64 op0.disp)
  | _ => none

/-- The branch of a thunk. It is not conditional. -/
def thunkAt (va : UInt64) : Option Native.DecodedInsn :=
  (image.decodeInsnAt decode (branchVa image va)).filter fun d =>
    (d.isJump || d.isCall) && !d.isConditional

/-- So many branches lead from an address to one that is a slot, or to a thunk that reads one. -/
inductive Leads : ℕ → UInt64 → ParsedImport → Prop
  | slot {va : UInt64} {row : ParsedImport} (h : AssocList.get? va imports = some row) :
      Leads 0 va row
  | reads {va slot : UInt64} {d : Native.DecodedInsn} {row : ParsedImport}
      (hno : AssocList.get? va imports = none) (hd : thunkAt image decode va = some d)
      (hslot : slotVa d = some slot) (h : AssocList.get? slot imports = some row) : Leads 0 va row
  | hop {n : ℕ} {va target : UInt64} {d : Native.DecodedInsn} {row : ParsedImport}
      (hno : AssocList.get? va imports = none) (hd : thunkAt image decode va = some d)
      (hkind : (d.operand 0).kind = .pcRel) (htarget : d.branchTarget = some target)
      (h : Leads n target row) : Leads (n + 1) va row

/-- An instruction calls an import: it reads its slot, or it goes to where fewer than five branches
lead to the slot, or to a thunk that reads it. -/
def CallsImport (ins : Native.DecodedInsn) (row : ParsedImport) : Prop :=
  (∃ slot, slotVa ins = some slot ∧ AssocList.get? slot imports = some row) ∨
    ((ins.operand 0).kind = .pcRel ∧ ∃ target, ins.branchTarget = some target ∧
      ∃ n < kThunkChainDepthDelta, Leads image imports decode n target row)

variable {image imports decode} {va : UInt64} {row : ParsedImport}

/-- An instruction without operands reads no slot. -/
theorem slotVa_of_operands_eq_nil {ins : Native.DecodedInsn} (h : ins.operands = []) :
    slotVa ins = none ∧ (ins.operand 0).kind ≠ .pcRel := by
  have hoperand : ins.operand 0 = {} := by rw [DecodedInsn.operand, h, List.getD_nil]
  rw [slotVa, hoperand]
  exact ⟨rfl, nofun⟩

theorem slotVa_of_kind_pcRel {ins : Native.DecodedInsn} (h : (ins.operand 0).kind = .pcRel) :
    slotVa ins = none := by
  rw [slotVa, h]

theorem isBranch_iff (d : Native.DecodedInsn) :
    ((d.isJump || d.isCall) && !d.isConditional) = true ↔
      ¬((¬d.isJump ∧ ¬d.isCall) ∨ d.isConditional) := by
  cases d.isJump <;> cases d.isCall <;> cases d.isConditional <;> simp

/-- **A turn of the loop.** -/
theorem followThunks_succ (hops : ℕ) (hno : AssocList.get? va imports = none) :
    followThunks image imports decode (hops + 1) va = some row ↔
      ∃ d, thunkAt image decode va = some d ∧
        ((∃ slot, slotVa d = some slot ∧ AssocList.get? slot imports = some row) ∨
          ((d.operand 0).kind = .pcRel ∧ ∃ target, d.branchTarget = some target ∧
            followThunks image imports decode hops target = some row)) := by
  rw [followThunks, hno, thunkAt]
  dsimp only
  cases hdecode : image.decodeInsnAt decode (branchVa image va) with
  | none => simp
  | some d =>
    dsimp only
    rw [Option.filter_some]
    by_cases hbranch : ((d.isJump || d.isCall) && !d.isConditional) = true
    · rw [if_pos hbranch]
      simp only [Option.some.injEq, exists_eq_left']
      have hnot := (isBranch_iff d).mp hbranch
      by_cases hoperands : d.operands = []
      · obtain ⟨hslot, hkind⟩ := slotVa_of_operands_eq_nil hoperands
        simp [hoperands, hslot, hkind]
      · have hgo : ¬((¬d.isJump ∧ ¬d.isCall) ∨ d.isConditional ∨ d.operands = []) := by tauto
        rw [if_neg hgo, slotVa]
        cases (d.operand 0).kind <;> cases d.branchTarget <;> simp
    · have hnot := mt (isBranch_iff d).mpr hbranch
      have hskip : (¬d.isJump ∧ ¬d.isCall) ∨ d.isConditional ∨ d.operands = [] := by tauto
      rw [if_neg hbranch, if_pos hskip]
      simp

/-- **What the loop finds** is where fewer branches lead than it looks at addresses. -/
theorem followThunks_eq_some_iff {hops : ℕ} :
    followThunks image imports decode hops va = some row ↔
      ∃ n < hops, Leads image imports decode n va row := by
  induction hops generalizing va with
  | zero => simp [followThunks]
  | succ hops ih =>
    cases hslot : AssocList.get? va imports with
    | some row' =>
      rw [followThunks, hslot]
      constructor
      · intro h
        exact ⟨0, Nat.succ_pos _, .slot (hslot.trans h)⟩
      · rintro ⟨n, -, hleads⟩
        cases hleads with
        | slot h => exact hslot.symm.trans h
        | reads hno => exact nomatch hno.symm.trans hslot
        | hop hno => exact nomatch hno.symm.trans hslot
    | none =>
      rw [followThunks_succ hops hslot]
      constructor
      · rintro ⟨d, hd, ⟨slot, hread, hrow⟩ | ⟨hkind, target, htarget, hrest⟩⟩
        · exact ⟨0, Nat.succ_pos _, .reads hslot hd hread hrow⟩
        · obtain ⟨n, hn, hleads⟩ := ih.mp hrest
          exact ⟨n + 1, Nat.succ_lt_succ hn, .hop hslot hd hkind htarget hleads⟩
      · rintro ⟨n, hn, hleads⟩
        cases hleads with
        | slot h => exact nomatch hslot.symm.trans h
        | reads _ hd hread hrow => exact ⟨_, hd, Or.inl ⟨_, hread, hrow⟩⟩
        | hop _ hd hkind htarget hleads =>
          have hrest := ih.mpr ⟨_, Nat.lt_of_succ_lt_succ hn, hleads⟩
          exact ⟨_, hd, Or.inr ⟨hkind, _, htarget, hrest⟩⟩

/-- Thunks lead to one import. -/
theorem Leads.unique {m n : ℕ} {row' : ParsedImport} (h : Leads image imports decode m va row)
    (h' : Leads image imports decode n va row') : m = n ∧ row = row' := by
  induction h generalizing n with
  | slot h =>
    cases h' with
    | slot h' => exact ⟨rfl, Option.some.inj (h.symm.trans h')⟩
    | reads hno => exact nomatch hno.symm.trans h
    | hop hno => exact nomatch hno.symm.trans h
  | reads hno hd hslot h =>
    cases h' with
    | slot h' => exact nomatch hno.symm.trans h'
    | reads _ hd' hslot' h' =>
      obtain rfl := Option.some.inj (hd.symm.trans hd')
      obtain rfl := Option.some.inj (hslot.symm.trans hslot')
      exact ⟨rfl, Option.some.inj (h.symm.trans h')⟩
    | hop _ hd' hkind =>
      obtain rfl := Option.some.inj (hd.symm.trans hd')
      exact nomatch (slotVa_of_kind_pcRel hkind).symm.trans hslot
  | hop hno hd hkind htarget _ ih =>
    cases h' with
    | slot h' => exact nomatch hno.symm.trans h'
    | reads _ hd' hslot' =>
      obtain rfl := Option.some.inj (hd.symm.trans hd')
      exact nomatch (slotVa_of_kind_pcRel hkind).symm.trans hslot'
    | hop _ hd' _ htarget' h' =>
      obtain rfl := Option.some.inj (hd.symm.trans hd')
      obtain rfl := Option.some.inj (htarget.symm.trans htarget')
      obtain ⟨rfl, hrow⟩ := ih h'
      exact ⟨rfl, hrow⟩

/-- What is resolved is the import that is called. -/
theorem resolveDirectCallImport_eq_some_iff {ins : Native.DecodedInsn} :
    resolveDirectCallImport image imports decode ins = some row ↔
      CallsImport image imports decode ins row := by
  rw [resolveDirectCallImport, CallsImport]
  by_cases hoperands : ins.operands = []
  · obtain ⟨hslot, hkind⟩ := slotVa_of_operands_eq_nil hoperands
    simp [hoperands, hslot, hkind]
  · simp only [if_neg hoperands, ← followThunks_eq_some_iff, slotVa]
    cases (ins.operand 0).kind <;> cases ins.branchTarget <;> simp

end Resolve

/-- **The import that a branch calls** is resolved, and nothing else is: the import whose slot it
reads, or the one to whose slot thunks lead from its target, if they are fewer than five besides the
one that reads the slot. Of the imports with one slot it is the first. -/
theorem resolveDirectCallImport_spec (image : PeImage)
    (decode : List UInt8 → UInt64 → Expected Native.DecodedInsn) (ins : Native.DecodedInsn) :
    (∀ row, resolveDirectCallImport image (buildImportTable image) decode ins = some row ↔
      CallsImport image (buildImportTable image) decode ins row) ∧
    (∀ n target row, (ins.operand 0).kind = .pcRel → ins.branchTarget = some target →
      Leads image (buildImportTable image) decode n target row →
        resolveDirectCallImport image (buildImportTable image) decode ins =
          if n < kThunkChainDepthDelta then some row else none) ∧
    ∀ slot, AssocList.get? slot (buildImportTable image) =
      image.imports.find? fun row => row.iatVa ≠ 0 ∧ row.iatVa = slot := by
  refine ⟨fun row => resolveDirectCallImport_eq_some_iff,
    fun n target row hkind htarget hleads => ?_,
    get?_buildImportTable image⟩
  split_ifs with hn
  · exact resolveDirectCallImport_eq_some_iff.mpr (Or.inr ⟨hkind, target, htarget, n, hn, hleads⟩)
  · refine Option.eq_none_iff_forall_ne_some.mpr fun row' hrow' => ?_
    rcases resolveDirectCallImport_eq_some_iff.mp hrow' with
      ⟨slot, hslot, -⟩ | ⟨-, target', htarget', m, hm, hleads'⟩
    · exact nomatch (slotVa_of_kind_pcRel hkind).symm.trans hslot
    · obtain rfl := Option.some.inj (htarget.symm.trans htarget')
      obtain ⟨rfl, -⟩ := hleads.unique hleads'
      exact hn hm

end Papa.Extractors
