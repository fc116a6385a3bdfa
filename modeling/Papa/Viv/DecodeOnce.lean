import Papa.Viv.Discovery
import Papa.Viv.LocationCover

/-!
# The gate that decodes once

The driver makes functions and pointers. It defines a location for every instruction that a flow
decodes and for every pointer, each time after a lookup denied the address, and never removes one.
The lookup tells of every byte of a location exactly as long as no new location leaves a gap behind
the start of an older one: an instruction that is decoded before another one, from the middle of
that one's bytes, hides the bytes behind it.

## Main definitions

* `LocationCall`, `LocationDb.replay`: the calls of a table, and the table after them.
* `Gated`: every call defines a location at an address that no lookup finds.
* `Driver`, `Driver.Runs`: the calls of the driver.

## Main results

* `Driver.gated_of_runs`: the driver keeps to the gate.
* `getLocation_complete_iff`: when lookups tell of every byte, in all states of a run.
-/

namespace Papa.Viv

variable {ι : Type}

/-! ### Calls of a table -/

/-- A call that changes the locations. -/
inductive LocationCall
  | add (va : VA) (size : UInt64) (type : LocType)
  | del (va : VA)
  deriving DecidableEq

namespace LocationDb

/-- `del_location`. -/
def delLocation (va : VA) (db : LocationDb) : LocationDb := db.filter (·.va ≠ va)

/-- The locations after a call. -/
def apply : LocationCall → LocationDb → LocationDb
  | .add va size type, db => db.addLocation va size type
  | .del va, db => db.delLocation va

/-- The locations after calls, the last first. -/
def replay (calls : List LocationCall) : LocationDb := calls.foldr apply []

theorem sorted_replay (calls : List LocationCall) : Sorted (replay calls) := by
  induction calls with
  | nil => exact .nil
  | cons call calls ih =>
    cases call with
    | add va size type => exact ih.addLocation
    | del va => exact List.Pairwise.sublist List.filter_sublist ih

end LocationDb

open LocationDb

/-- Calls that define locations only, each at an address that no lookup finds. -/
inductive Gated : List LocationCall → Prop
  | nil : Gated []
  | add {va : VA} {size : UInt64} {type : LocType} {past : List LocationCall}
      (hfree : (replay past).getLocation va = none) (h : Gated past) :
      Gated (.add va size type :: past)

/-- A lookup finds a location at every byte that was ever defined. -/
def FindsDefined (past : List LocationCall) : Prop :=
  ∀ va size type, .add va size type ∈ past →
    ∀ v, (⟨va, size, type⟩ : Location).Contains v → ((replay past).getLocation v).isSome

variable {calls past : List LocationCall}

theorem Gated.of_suffix (h : Gated calls) (hsuffix : past <:+ calls) : Gated past := by
  induction h with
  | nil => exact List.suffix_nil.mp hsuffix ▸ .nil
  | add hfree h ih =>
    obtain rfl | hsuffix := List.suffix_cons_iff.mp hsuffix
    · exact .add hfree h
    · exact ih hsuffix

/-- **The lookup after calls**: it tells of every byte that was defined, as long as no call left a
gap. -/
theorem Gated.complete (h : Gated calls)
    (hgap : ∀ va size type past, .add va size type :: past <:+ calls →
      (replay past).LeavesNoGap va size) :
    (replay calls).Complete ∧ FindsDefined calls := by
  induction h with
  | nil =>
    refine ⟨fun va => iff_of_false nofun ?_, fun _ _ _ hmem => absurd hmem List.not_mem_nil⟩
    rintro ⟨loc, hloc, -⟩
    exact absurd hloc List.not_mem_nil
  | @add va size type past hfree h ih =>
    obtain ⟨hcomplete, hfinds⟩ := ih fun va size type past hsuffix =>
      hgap va size type past (hsuffix.trans (List.suffix_cons _ _))
    have hadd : (replay (.add va size type :: past)).Complete :=
      (hgap va size type past List.suffix_rfl).complete (sorted_replay past) hcomplete hfree
    refine ⟨hadd, fun va' size' type' hmem v hcontains => (hadd v).mpr ?_⟩
    have hiff {loc : Location} : loc ∈ replay (.add va size type :: past) ↔
        loc = ⟨va, size, type⟩ ∨ loc ∈ replay past ∧ loc.va ≠ va :=
      mem_addLocation_iff (sorted_replay past)
    rcases List.mem_cons.mp hmem with heq | hmem
    · obtain ⟨rfl, rfl, rfl⟩ := LocationCall.add.inj heq
      exact ⟨_, hiff.mpr (.inl rfl), hcontains⟩
    · obtain ⟨loc, hloc, hin⟩ := (hcomplete v).mp (hfinds va' size' type' hmem v hcontains)
      refine ⟨loc, hiff.mpr (.inr ⟨hloc, fun hva => ?_⟩), hin⟩
      -- A location with the start of the new one would have been found there.
      have hself : (replay past).Claimed va := ⟨loc, hloc, hva ▸ UInt64.le_refl _, by
        have hle := UInt64.le_iff_toNat_le.mp hin.1
        have hlt := hin.2
        rw [hva] at hle hlt ⊢
        omega⟩
      exact Option.isSome_iff_ne_none.mp ((hcomplete va).mpr hself) hfree

/-! ### The driver -/

/-- A discovery with the calls of its table of locations, the last first, which are kept for the
statements only. -/
structure Logged (ι : Type) where
  disc : Discovery ι := {}
  calls : List LocationCall := []

namespace Logged

/-- Define a location. -/
def addLocation (va : VA) (size : UInt64) (type : LocType) (x : Logged ι) : Logged ι where
  disc := { x.disc with locations := x.disc.locations.addLocation va size type }
  calls := .add va size type :: x.calls

end Logged

/-- The callbacks, with a log of the locations that they define. -/
def Callbacks.logged (cb : Callbacks (Discovery ι) ι) : Callbacks (Logged ι) ι where
  read va x := ((cb.read va x.disc).1, { x with disc := (cb.read va x.disc).2 })
  isExec va x := ((cb.isExec va x.disc).1, { x with disc := (cb.isExec va x.disc).2 })
  isDefined va x := ((cb.isDefined va x.disc).1, { x with disc := (cb.isDefined va x.disc).2 })
  onOpcode va op branches x :=
    { disc := cb.onOpcode va op branches x.disc, calls := .add va op.length .kOp :: x.calls }
  onFunction va x := { x with disc := cb.onFunction va x.disc }
  resolveJt window x :=
    ((cb.resolveJt window x.disc).1, { x with disc := (cb.resolveJt window x.disc).2 })
  isNoReturnCall op x :=
    ((cb.isNoReturnCall op x.disc).1, { x with disc := (cb.isNoReturnCall op x.disc).2 })
  onBranchTable fromVa caseVa x := { x with disc := cb.onBranchTable fromVa caseVa x.disc }

/-- What the driver is given. -/
structure Driver (ι : Type) where
  read : VA → Option (DecodedInsn ι)
  isExec : VA → Bool
  resolveJt : List (DecodedInsn ι) → Option JumpTableTargets
  isProbablyCode : VA → Bool
  readPtr : VA → Option VA
  ptrSize : UInt64
  apiNoReturn : DecodedInsn ι → Bool

namespace Driver

/-- A call of the driver. -/
inductive Call
  | makeFunction (va : VA)
  | makePointer (site : VA) (follow : Bool)

variable (driver : Driver ι)

/-- The callbacks of the context. -/
def callbacks : Callbacks (Logged ι) ι :=
  (Discovery.callbacks driver.read driver.isExec driver.resolveJt driver.apiNoReturn).logged

/-- `make_function`. -/
def makeFunction (fuel : ℕ) (va : VA) (s : CodeFlowContext (Logged ι)) :
    Option (CodeFlowContext (Logged ι)) := CodeFlowContext.addEntryPoint driver.callbacks fuel va s

/-- `analyze_pointer`. -/
def analyzePointer (va : VA) (d : Discovery ι) : Option LocType :=
  if (d.locations.getLocation va).isSome then none
  else if driver.isProbablyCode va then some .kOp
  else none

/-- `follow_pointer`. -/
def followPointer (fuel : ℕ) (target : VA) (s : CodeFlowContext (Logged ι)) :
    Option (CodeFlowContext (Logged ι)) :=
  if driver.analyzePointer target s.ext.disc = some .kOp then driver.makeFunction fuel target s
  else some s

/-- `make_pointer`. -/
def makePointer (fuel : ℕ) (site : VA) (follow : Bool) (s : CodeFlowContext (Logged ι)) :
    Option (CodeFlowContext (Logged ι)) :=
  if (s.ext.disc.locations.getLocation site).isSome then some s
  else
    match driver.readPtr site with
    | none => some s
    | some target =>
      let s := { s with ext := s.ext.addLocation site driver.ptrSize .kPointer }
      if follow then driver.followPointer fuel target s else some s

/-- One call. -/
def run (fuel : ℕ) (s : CodeFlowContext (Logged ι)) : Call → Option (CodeFlowContext (Logged ι))
  | .makeFunction va => driver.makeFunction fuel va s
  | .makePointer site follow => driver.makePointer fuel site follow s

/-- The states after sequences of calls, each of which returned. -/
inductive Runs : List Call → CodeFlowContext (Logged ι) → Prop
  | nil : Runs [] { ext := {} }
  | call {cs : List Call} {s s' : CodeFlowContext (Logged ι)} (fuel : ℕ) (c : Call) (h : Runs cs s)
      (hcall : driver.run fuel s c = some s') : Runs (cs ++ [c]) s'

end Driver

/-- The log tells the locations, and the calls keep to the gate. -/
structure Logged.Inv (x : Logged ι) : Prop where
  gated : Gated x.calls
  locations_eq : x.disc.locations = replay x.calls

namespace Logged

variable {x : Logged ι}

/-- A discovery with the same locations. -/
theorem Inv.of_locations_eq (h : Inv x) {d : Discovery ι}
    (heq : d.locations = x.disc.locations) : Inv { x with disc := d } :=
  ⟨h.gated, heq.trans h.locations_eq⟩

theorem Inv.addLocation (h : Inv x) {va : VA} {size : UInt64} {type : LocType}
    (hfree : x.disc.locations.getLocation va = none) : Inv (x.addLocation va size type) where
  gated := .add (h.locations_eq ▸ hfree) h.gated
  locations_eq := congrArg (LocationDb.addLocation va size type ·) h.locations_eq

end Logged

theorem Discovery.locations_onFunction (read : VA → Option (DecodedInsn ι))
    (apiNoReturn : DecodedInsn ι → Bool) (va : VA) (d : Discovery ι) :
    (d.onFunction read apiNoReturn va).locations = d.locations := by
  unfold Discovery.onFunction
  split_ifs
  · rfl
  · dsimp only
    split_ifs
    · rfl
    · rfl

namespace Driver

variable (driver : Driver ι)

/-- The callbacks keep to the gate: a flow decodes an instruction where the lookup finds nothing. -/
theorem keeps_inv :
    CodeFlowContext.Keeps driver.callbacks fun x x' : Logged ι => x.Inv → x'.Inv where
  refl _ := id
  trans h h' := h' ∘ h
  read _ _ := id
  isExec _ _ := id
  isDefined _ _ := id
  onFunction va x h := h.of_locations_eq (Discovery.locations_onFunction _ _ va x.disc)
  resolveJt _ _ := id
  isNoReturnCall _ _ := id
  onBranchTable _ _ _ h := h.of_locations_eq rfl
  onOpcode va x op hfree _ h := by
    have hadd : (x.addLocation va op.length .kOp).Inv :=
      h.addLocation (Option.isSome_eq_false_iff.mp hfree |> Option.isNone_iff_eq_none.mp)
    exact ⟨hadd.gated, hadd.locations_eq⟩

variable {driver} {cs : List Call} {s s' : CodeFlowContext (Logged ι)}

theorem inv_makeFunction {fuel : ℕ} {va : VA} (h : s.ext.Inv)
    (hrun : driver.makeFunction fuel va s = some s') : s'.ext.Inv :=
  driver.keeps_inv.addEntryPoint hrun h

theorem inv_followPointer {fuel : ℕ} {target : VA} (h : s.ext.Inv)
    (hrun : driver.followPointer fuel target s = some s') : s'.ext.Inv := by
  unfold followPointer at hrun
  split_ifs at hrun
  · exact inv_makeFunction h hrun
  · exact Option.some.inj hrun ▸ h

theorem inv_makePointer {fuel : ℕ} {site : VA} {follow : Bool} (h : s.ext.Inv)
    (hrun : driver.makePointer fuel site follow s = some s') : s'.ext.Inv := by
  unfold makePointer at hrun
  by_cases hdefined : (s.ext.disc.locations.getLocation site).isSome = true
  · rw [if_pos hdefined] at hrun
    exact Option.some.inj hrun ▸ h
  · rw [if_neg hdefined] at hrun
    cases hread : driver.readPtr site with
    | none =>
      rw [hread] at hrun
      exact Option.some.inj hrun ▸ h
    | some target =>
      rw [hread] at hrun
      have hadd : (s.ext.addLocation site driver.ptrSize .kPointer).Inv :=
        h.addLocation (Option.not_isSome_iff_eq_none.mp hdefined)
      dsimp only at hrun
      split_ifs at hrun
      · exact inv_followPointer (s := { s with
          ext := s.ext.addLocation site driver.ptrSize .kPointer }) hadd hrun
      · exact Option.some.inj hrun ▸ hadd

/-- **The driver keeps to the gate.** -/
theorem inv_of_runs (h : driver.Runs cs s) : s.ext.Inv := by
  induction h with
  | nil => exact ⟨.nil, rfl⟩
  | call fuel c _ hcall ih =>
    cases c with
    | makeFunction va => exact inv_makeFunction ih hcall
    | makePointer site follow => exact inv_makePointer ih hcall

end Driver

/-- **Lookups tell of every byte** that is in a location, and so the gate of every byte that was
ever decoded, in all states of a run of the driver, if and only if no instruction or pointer of the
run left a gap when it was defined. -/
theorem getLocation_complete_iff {driver : Driver ι} {cs : List Driver.Call}
    {s : CodeFlowContext (Logged ι)} (hrun : driver.Runs cs s) :
    s.ext.disc.locations = replay s.ext.calls ∧
    ((∀ past, past <:+ s.ext.calls → (replay past).Complete ∧ FindsDefined past) ↔
      ∀ va size type past, .add va size type :: past <:+ s.ext.calls →
        (replay past).LeavesNoGap va size) := by
  have hinv := Driver.inv_of_runs hrun
  refine ⟨hinv.locations_eq, fun hcomplete va size type past hsuffix => ?_, fun hgap past hsuffix =>
    (hinv.gated.of_suffix hsuffix).complete fun va size type past' hsuffix' =>
      hgap va size type past' (hsuffix'.trans hsuffix)⟩
  exact (hcomplete _ hsuffix).1.leavesNoGap (sorted_replay past)

/-! ### Instructions that overlap -/

/-- `mov eax, 0xFFFFFFC3` at `0x1000`, the second byte of which is a return, and a return. -/
def overlapReader (va : VA) : Option (DecodedInsn Unit) :=
  if va = 0x1000 then some ⟨va, 5, [.reg, .imm], false, false, false, false, none, true, ()⟩
  else if va = 0x1001 ∨ va = 0x1005 then
    some ⟨va, 1, [], false, false, false, true, none, false, ()⟩
  else none

/-- A driver over these instructions. -/
def overlapDriver : Driver Unit where
  read := overlapReader
  isExec _ := true
  resolveJt _ := none
  isProbablyCode _ := false
  readPtr _ := none
  ptrSize := 4
  apiNoReturn _ := false

/-- A function from the first instruction on. -/
theorem exists_run_inOrder : ∃ s, overlapDriver.Runs [.makeFunction 0x1000] s ∧
    s.ext.calls = [.add 0x1005 1 .kOp, .add 0x1000 5 .kOp] := by
  have hrun : (overlapDriver.run 8 { ext := {} } (.makeFunction 0x1000)).any (fun s =>
      s.ext.calls = [.add 0x1005 1 .kOp, .add 0x1000 5 .kOp]) = true := by
    decide +kernel
  obtain ⟨s, hs, hcalls⟩ := (Option.any_eq_true _ _).mp hrun
  exact ⟨s, .call 8 _ .nil hs, of_decide_eq_true hcalls⟩

theorem getLocation_complete_iff_inOrder : ∃ s, overlapDriver.Runs [.makeFunction 0x1000] s ∧
    s.ext.calls = [.add 0x1005 1 .kOp, .add 0x1000 5 .kOp] ∧
    s.ext.disc.locations = replay s.ext.calls ∧
    ((∀ past, past <:+ s.ext.calls → (replay past).Complete ∧ FindsDefined past) ↔
      ∀ va size type past, .add va size type :: past <:+ s.ext.calls →
        (replay past).LeavesNoGap va size) := by
  obtain ⟨s, hs, hcalls⟩ := exists_run_inOrder
  exact ⟨s, hs, hcalls, getLocation_complete_iff hs⟩

/-- **A byte of a decoded instruction is not found** when an instruction in its middle was decoded
before it. -/
theorem getLocation_overlap : ∃ s,
    overlapDriver.Runs [.makeFunction 0x1001, .makeFunction 0x1000] s ∧
    ¬ s.ext.disc.locations.Complete := by
  have hrun : ((overlapDriver.run 8 { ext := {} } (.makeFunction 0x1001)).bind fun s =>
      overlapDriver.run 8 s (.makeFunction 0x1000)).any (fun s =>
        s.ext.disc.locations.any (fun loc => loc.va = 0x1000 ∧ loc.size = 5) ∧
          (s.ext.disc.locations.getLocation 0x1002).isNone) = true := by
    decide +kernel
  obtain ⟨s, hs, hfound⟩ := (Option.any_eq_true _ _).mp hrun
  obtain ⟨s₁, hs₁, hs₂⟩ := Option.bind_eq_some_iff.mp hs
  obtain ⟨hany, hnone⟩ := of_decide_eq_true hfound
  obtain ⟨loc, hloc, heq⟩ := List.any_eq_true.mp hany
  obtain ⟨hva, hsize⟩ := of_decide_eq_true heq
  refine ⟨s, .call 8 _ (.call 8 _ .nil hs₁) hs₂, fun hcomplete => ?_⟩
  have hcontains : loc.Contains 0x1002 := by
    unfold Location.Contains
    rw [hva, hsize]
    decide
  have hsome := (hcomplete 0x1002).mpr ⟨loc, hloc, hcontains⟩
  rw [Option.isNone_iff_eq_none.mp hnone] at hsome
  exact nomatch hsome

end Papa.Viv
