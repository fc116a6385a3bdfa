import Papa.Util.FromChars

/-!
# COM classes and interfaces

## Main definitions

* `Papa.Rules.bytesLe`: the sixteen bytes of a braced GUID.
* `Papa.Rules.comTable`, `Papa.Rules.lookupCom`: the tables and their lookup.

## Main results

* `Papa.Rules.lookupCom_eq_some_iff`: the lookup finds the entry with the name.
-/

namespace Papa.Rules

open Util

/-- The two tables. -/
inductive ComKind
  | class_ | interface_
  deriving DecidableEq

/-- Where the two digits of each byte start in the text of a GUID: the first three fields are
stored with their low byte first. -/
def kHexOffset : List ℕ := [7, 5, 3, 1, 12, 10, 17, 15, 20, 22, 25, 27, 29, 31, 33, 35]

/-- The sixteen bytes of a braced GUID, or `none` on a malformed one. -/
def bytesLe (guid : Str) : Option (List UInt8) :=
  if guid.length ≠ 38 ∨ guid[0]? ≠ some (ch '\x7b') ∨ guid[37]? ≠ some (ch '\x7d') ∨
      ∃ at_ ∈ [9, 14, 19, 24], guid[at_]? ≠ some (ch '-') then none
  else kHexOffset.mapM fun at_ => do
    let hi ← guid[at_]?.bind hexNibble
    let lo ← guid[at_ + 1]?.bind hexNibble
    pure (UInt8.ofNat (hi * 16 + lo))

/-- One row of the tables. -/
structure ComEntry where
  name : Str
  guidString : Str
  guidBytes : List UInt8
  deriving DecidableEq

/-- The row of a name and its GUID. -/
def comEntry (name guid : String) : ComEntry where
  name := str name
  guidString := str guid
  guidBytes := (bytesLe (str guid)).getD []

def kClasses : List ComEntry :=
  [comEntry "BackgroundCopyManager" "\x7b4991d34b-80a1-4291-83b6-3328366b9097\x7d",
    comEntry "CVidCapClassManager" "\x7b860bb310-5d01-11d0-bd3b-00a0c911ce86\x7d",
    comEntry "CWaveinClassManager" "\x7b33d9a762-90c8-11d0-bd43-00a0c911ce86\x7d",
    comEntry "ShellDesktop" "\x7b00021400-0000-0000-c000-000000000046\x7d",
    comEntry "ShellLink" "\x7b00021401-0000-0000-c000-000000000046\x7d",
    comEntry "SystemDeviceEnum" "\x7b62be5d10-60eb-11d0-bd3b-00a0c911ce86\x7d",
    comEntry "TaskScheduler" "\x7b0f87369f-a4e5-4cfc-bd3e-73e6154572dd\x7d",
    comEntry "WbemLocator" "\x7b4590f811-1d3a-11d0-891f-00aa004b2e24\x7d",
    comEntry "WshShell" "\x7b72c24dd5-d70a-438b-8a42-98424b88afb8\x7d"]

def kInterfaces : List ComEntry :=
  [comEntry "IBackgroundCopyManager" "\x7b5ce34c0d-0dc9-4c1f-897c-daa1b78cee7c\x7d",
    comEntry "ICreateDevEnum" "\x7b29840822-5b84-11d0-bd3b-00a0c911ce86\x7d",
    comEntry "IDispatch" "\x7b00020400-0000-0000-c000-000000000046\x7d",
    comEntry "IShellLinkA" "\x7b000214ee-0000-0000-c000-000000000046\x7d",
    comEntry "IShellLinkW" "\x7b000214f9-0000-0000-c000-000000000046\x7d",
    comEntry "IUnknown" "\x7b00000000-0000-0000-c000-000000000046\x7d",
    comEntry "IWbemLocator" "\x7bdc12a687-737f-11cf-884d-00aa004b2e24\x7d"]

/-- The table of a kind, sorted by name. -/
def comTable : ComKind → List ComEntry
  | .class_ => kClasses
  | .interface_ => kInterfaces

/-- Look a name up: the first entry that is not below it, as `std::lower_bound` finds it in a
sorted table, if that has the name. -/
def lookupCom (kind : ComKind) (name : Str) : Option ComEntry :=
  ((comTable kind).find? fun entry => !decide (entry.name < name)).filter (·.name == name)

/-- Both tables are sorted, without repeated names. -/
theorem comTable_sorted (kind : ComKind) :
    (comTable kind).Pairwise fun a b => a.name < b.name := by
  cases kind <;> decide +kernel

/-- Every GUID of the tables is well-formed. -/
theorem comTable_guidBytes (kind : ComKind) :
    ∀ entry ∈ comTable kind, bytesLe entry.guidString = some entry.guidBytes := by
  cases kind <;> decide +kernel

/-- **The lookup finds the entry with the name**, because the table is sorted. -/
theorem lookupCom_eq_some_iff {kind : ComKind} {name : Str} {entry : ComEntry} :
    lookupCom kind name = some entry ↔ entry ∈ comTable kind ∧ entry.name = name := by
  have hsorted := comTable_sorted kind
  unfold lookupCom
  generalize comTable kind = table at hsorted ⊢
  induction table with
  | nil => simp
  | cons first table ih =>
    obtain ⟨hfirst, hsorted⟩ := List.pairwise_cons.mp hsorted
    by_cases hlt : first.name < name
    · rw [List.find?_cons_of_neg (by simpa using hlt)]
      refine (ih hsorted).trans ?_
      rw [List.mem_cons]
      constructor
      · exact fun ⟨hmem, hname⟩ => ⟨Or.inr hmem, hname⟩
      · rintro ⟨rfl | hmem, hname⟩
        · exact absurd hname hlt.ne
        · exact ⟨hmem, hname⟩
    · rw [List.find?_cons_of_pos (by simpa using hlt), Option.filter_eq_some_iff, List.mem_cons,
        Option.some.injEq, beq_iff_eq]
      constructor
      · exact fun ⟨h, hname⟩ => ⟨Or.inl h.symm, hname⟩
      · rintro ⟨h | hmem, hname⟩
        · exact ⟨h.symm, hname⟩
        · exact absurd (hname ▸ hfirst entry hmem) hlt

end Papa.Rules
