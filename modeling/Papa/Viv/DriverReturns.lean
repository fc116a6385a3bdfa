import Papa.Library.Fuelled
import Papa.Viv.CfSimulation
import Papa.Viv.CfTermination
import Papa.Viv.DecodeOnce

/-!
# Every call of the driver returns

The driver's `is_defined` asks its table of locations, and once a lookup finds an address it finds
it in every later state: a new location is at an address that no lookup finds, so it starts behind
the byte a lookup stops at, or before the location found there. So the driver knows every address
that was decoded, and its calls return by the same argument as those of callbacks that keep a list
of these addresses. Such a list is added to the state of the callbacks, and taken off again.

## Main definitions

* `Callbacks.listed`: callbacks with a list of the addresses that were passed to `on_opcode`.
* `CodeFlowContext.Remembers`: what is defined stays defined, and a decoded address is defined.
* `Driver.ReadsForward`: instructions with bytes, which do not run past the last address.

## Main results

* `CodeFlowContext.Remembers.exists_addEntryPoint`.
* `Driver.run_returns`: a call of the driver returns.
-/

namespace Papa.Viv

variable {σ ι : Type}

/-! ### Callbacks that list the addresses -/

/-- The callbacks, with a list of the addresses that were passed to `on_opcode`, which are defined
as well. -/
def Callbacks.listed (cb : Callbacks σ ι) : Callbacks (σ × List VA) ι where
  read va z := ((cb.read va z.1).1, (cb.read va z.1).2, z.2)
  isExec va z := ((cb.isExec va z.1).1, (cb.isExec va z.1).2, z.2)
  isDefined va z := ((cb.isDefined va z.1).1 || decide (va ∈ z.2), (cb.isDefined va z.1).2, z.2)
  onOpcode va op branches z := (cb.onOpcode va op branches z.1, va :: z.2)
  onFunction va z := (cb.onFunction va z.1, z.2)
  resolveJt window z := ((cb.resolveJt window z.1).1, (cb.resolveJt window z.1).2, z.2)
  isNoReturnCall op z := ((cb.isNoReturnCall op z.1).1, (cb.isNoReturnCall op z.1).2, z.2)
  onBranchTable fromVa caseVa z := (cb.onBranchTable fromVa caseVa z.1, z.2)

namespace CodeFlowContext

theorem records_listed (cb : Callbacks σ ι) : Records cb.listed Prod.snd where
  onOpcode _ _ _ _ := rfl
  read _ _ := rfl
  isExec _ _ := rfl
  isDefined _ _ := rfl
  onFunction _ _ := rfl
  resolveJt _ _ := rfl
  isNoReturnCall _ _ := rfl
  onBranchTable _ _ _ := rfl
  isDefined_of_mem _ _ hmem := Bool.or_eq_true_iff.mpr (.inr (decide_eq_true hmem))

/-- The invariant stays, and so does what is defined. -/
def Retains (Inv : σ → Prop) (defined : σ → VA → Prop) (x x' : σ) : Prop :=
  Inv x → Inv x' ∧ ∀ va, defined x va → defined x' va

/-- Callbacks that remember what is defined, in the states with the invariant. -/
structure Remembers (cb : Callbacks σ ι) (Inv : σ → Prop) (defined : σ → VA → Prop) : Prop where
  retains : Keeps cb (Retains Inv defined)
  isDefined_iff : ∀ va x, (cb.isDefined va x).1 = true ↔ defined x va
  onOpcode : ∀ va x op, Inv x → (cb.isDefined va x).1 = false →
    (cb.read va (cb.isDefined va x).2).1 = some op →
    defined (cb.onOpcode va op (getBranches op) (cb.read va (cb.isDefined va x).2).2) va

/-- What holds of a context between outermost calls. -/
structure Idle (s : CodeFlowContext σ) : Prop where
  functions_le : s.functions.length ≤ kMaxFunctionsPerImage
  blocked_nodup : s.blockedRecursion.Nodup
  cfBlocks : s.cfBlocks = []

variable {cb : Callbacks σ ι} {Inv : σ → Prop} {defined : σ → VA → Prop}

namespace Remembers

variable (h : Remembers cb Inv defined)

include h

/-- The list tells nothing that the callbacks do not know. -/
theorem simulates_listed : Simulates cb.listed cb fun z x =>
    z.1 = x ∧ Inv x ∧ ∀ va ∈ z.2, defined x va := by
  have hkeep (z : σ × List VA) {x' : σ} (hz : Inv z.1 ∧ ∀ va ∈ z.2, defined z.1 va)
      (hretains : Retains Inv defined z.1 x') : x' = x' ∧ Inv x' ∧ ∀ va ∈ z.2, defined x' va :=
    ⟨rfl, (hretains hz.1).1, fun va hva => (hretains hz.1).2 va (hz.2 va hva)⟩
  constructor
  · rintro va z _ ⟨rfl, hz⟩
    exact ⟨rfl, hkeep z hz (h.retains.read va z.1)⟩
  · rintro va z _ ⟨rfl, hz⟩
    exact ⟨rfl, hkeep z hz (h.retains.isExec va z.1)⟩
  · rintro va z _ ⟨rfl, hz⟩
    refine ⟨?_, hkeep z hz (h.retains.isDefined va z.1)⟩
    by_cases hmem : va ∈ z.2
    · show _ = (_ || decide (va ∈ z.2))
      rw [(h.isDefined_iff va z.1).mpr (hz.2 va hmem), Bool.true_or]
    · show _ = (_ || decide (va ∈ z.2))
      rw [decide_eq_false hmem, Bool.or_false]
  · rintro va z _ ⟨rfl, hz⟩
    exact hkeep z hz (h.retains.onFunction va z.1)
  · rintro window z _ ⟨rfl, hz⟩
    exact ⟨rfl, hkeep z hz (h.retains.resolveJt window z.1)⟩
  · rintro op z _ ⟨rfl, hz⟩
    exact ⟨rfl, hkeep z hz (h.retains.isNoReturnCall op z.1)⟩
  · rintro fromVa caseVa z _ ⟨rfl, hz⟩
    exact hkeep z hz (h.retains.onBranchTable fromVa caseVa z.1)
  · rintro va z _ op ⟨rfl, hz⟩ hfalse hread
    have hfree : (cb.isDefined va z.1).1 = false := (Bool.or_eq_false_iff.mp hfalse).1
    obtain ⟨heq, hinv, hlist⟩ := hkeep z hz (h.retains.onOpcode va z.1 op hfree hread)
    refine ⟨rfl, hinv, List.forall_mem_cons.mpr ⟨?_, hlist⟩⟩
    exact h.onOpcode va z.1 op hz.1 hfree hread

/-- **A call of a context returns** when its callbacks remember what is defined. -/
theorem exists_addEntryPoint {s : CodeFlowContext σ} (hs : Inv s.ext) (hidle : Idle s) (va : VA) :
    Fuelled.Returns (fun fuel => addEntryPoint cb fuel va s) fun s' =>
      Idle s' ∧ Inv s'.ext ∧ ∀ v, defined s.ext v → defined s'.ext v := by
  have hready : Ready Prod.snd (s.withExt (s.ext, ([] : List VA))) :=
    ⟨List.nodup_nil, hidle.functions_le, hidle.blocked_nodup⟩
  have hdepth : (s.withExt (s.ext, ([] : List VA))).cfBlocks.length < kMaxDescentDepth :=
    (congrArg List.length hidle.cfBlocks).trans_lt (Nat.zero_lt_succ _)
  obtain ⟨t, hret, hafter, -⟩ :=
    addEntryPoint_terminates (records_listed cb) va (s.withExt (s.ext, [])) hready hdepth
  obtain ⟨fuel₀, hret⟩ := hret _ (unfolds_addEntryPoint cb.listed)
  have hrelated : (s.withExt (s.ext, ([] : List VA))).ext.1 = s.ext ∧ Inv s.ext ∧
      ∀ va ∈ (s.withExt (s.ext, ([] : List VA))).ext.2, defined s.ext va :=
    ⟨rfl, hs, fun _ hmem => absurd hmem List.not_mem_nil⟩
  have hcall (fuel : ℕ) (hge : fuel ≥ fuel₀) :
      addEntryPoint cb fuel va s = some (t.withExt t.ext.1) := by
    have hlisted := hret fuel hge fuel₀ (Nat.le_refl _)
    obtain ⟨y, ⟨rfl, -⟩, hrun⟩ := h.simulates_listed.addEntryPoint hrelated hlisted
    exact hrun
  refine ⟨t.withExt t.ext.1, ⟨?_, h.retains.addEntryPoint (hcall fuel₀ (Nat.le_refl _)) hs⟩,
    fuel₀, hcall⟩
  exact ⟨hafter.ready.functions_le, hafter.ready.blocked_nodup,
    hafter.cfBlocks.trans hidle.cfBlocks⟩

end Remembers

end CodeFlowContext

/-! ### Lookups that go on finding -/

namespace LocationDb

variable {db : LocationDb} {va v : VA} {size : UInt64} {type : LocType}

/-- **What a lookup finds it finds later**: a new location, at an address that no lookup finds, is
not the nearest one of an address that is in its nearest location. -/
theorem isSome_getLocation_addLocation (h : Sorted db) (hfree : db.getLocation va = none)
    (hfound : (db.getLocation v).isSome) :
    ((db.addLocation va size type).getLocation v).isSome := by
  obtain ⟨loc, hloc⟩ := Option.isSome_iff_exists.mp hfound
  obtain ⟨hnearest, hlt⟩ := (getLocation_eq_some_iff h).mp hloc
  have hbetween : ¬ (loc.va ≤ va ∧ va ≤ v) := by
    rintro ⟨hle, hle'⟩
    have hva : Nearest db va loc := ⟨hnearest.mem, hle, fun other hother hother' =>
      hnearest.last other hother (UInt64.le_trans hother' hle')⟩
    have hsome := isSome_of_nearest h hva (UInt64.lt_of_le_of_lt hle' hlt)
    exact Option.isSome_iff_ne_none.mp hsome hfree
  have hne : loc.va ≠ va := by
    rintro rfl
    exact hbetween ⟨UInt64.le_refl _, hnearest.le⟩
  have hlast : ∀ other ∈ db.addLocation va size type, other.va ≤ v → other.va ≤ loc.va := by
    intro other hother hle
    obtain rfl | ⟨hother, -⟩ := (mem_addLocation_iff h).mp hother
    · by_contra hnot
      exact hbetween ⟨UInt64.le_of_lt (UInt64.not_le.mp hnot), hle⟩
    · exact hnearest.last other hother hle
  have hmem : loc ∈ db.addLocation va size type :=
    (mem_addLocation_iff h).mpr (.inr ⟨hnearest.mem, hne⟩)
  exact isSome_of_nearest h.addLocation ⟨hmem, hnearest.le, hlast⟩ hlt

/-- A new location with an end is found at its start. -/
theorem isSome_getLocation_addLocation_self (h : Sorted db) (hlt : va < va + size) :
    ((db.addLocation va size type).getLocation va).isSome := by
  have hmem : (⟨va, size, type⟩ : Location) ∈ db.addLocation va size type :=
    (mem_addLocation_iff h).mpr (.inl rfl)
  exact Option.isSome_iff_exists.mpr ⟨_, getLocation_self h.addLocation hmem hlt⟩

end LocationDb

/-! ### The driver -/

namespace Logged

/-- A lookup finds an address. -/
def Defined (x : Logged ι) (va : VA) : Prop := (x.disc.locations.getLocation va).isSome = true

variable {x : Logged ι} {va : VA}

theorem Inv.sorted (h : Inv x) : x.disc.locations.Sorted :=
  h.locations_eq ▸ LocationDb.sorted_replay x.calls

theorem retains_of_locations_eq {d : Discovery ι} (h : d.locations = x.disc.locations) :
    CodeFlowContext.Retains Inv Defined x { x with disc := d } := by
  refine fun hx => ⟨hx.of_locations_eq h, fun v hv => ?_⟩
  show (d.locations.getLocation v).isSome = true
  exact h ▸ hv

/-- A location where no lookup finds one. -/
theorem retains_addLocation (size : UInt64) (type : LocType)
    (hfree : x.disc.locations.getLocation va = none) :
    CodeFlowContext.Retains Inv Defined x (x.addLocation va size type) := fun hx =>
  ⟨hx.addLocation hfree, fun _ hv =>
    LocationDb.isSome_getLocation_addLocation hx.sorted hfree hv⟩

end Logged

namespace Driver

variable (driver : Driver ι)

/-- The instructions that are read have bytes, and end before the last address does. -/
def ReadsForward : Prop := ∀ va op, driver.read va = some op → va < va + op.length

/-- The callbacks of the driver keep the gate and what is defined. -/
theorem keeps_retains :
    CodeFlowContext.Keeps driver.callbacks (CodeFlowContext.Retains Logged.Inv Logged.Defined) where
  refl _ hx := ⟨hx, fun _ hv => hv⟩
  trans h h' hx := ⟨(h' (h hx).1).1, fun v hv => (h' (h hx).1).2 v ((h hx).2 v hv)⟩
  read _ _ := Logged.retains_of_locations_eq rfl
  isExec _ _ := Logged.retains_of_locations_eq rfl
  isDefined _ _ := Logged.retains_of_locations_eq rfl
  onFunction va x := Logged.retains_of_locations_eq (Discovery.locations_onFunction _ _ va x.disc)
  resolveJt _ _ := Logged.retains_of_locations_eq rfl
  isNoReturnCall _ _ := Logged.retains_of_locations_eq rfl
  onBranchTable _ _ _ := Logged.retains_of_locations_eq rfl
  onOpcode va x op hfree _ hx := by
    have hfree : x.disc.locations.getLocation va = none :=
      Option.isNone_iff_eq_none.mp (Option.isSome_eq_false_iff.mp hfree)
    obtain ⟨hinv, hdefined⟩ :=
      Logged.retains_addLocation op.length .kOp hfree hx
    exact ⟨⟨hinv.gated, hinv.locations_eq⟩, hdefined⟩

variable {driver}

theorem remembers (hreader : driver.ReadsForward) :
    CodeFlowContext.Remembers driver.callbacks Logged.Inv Logged.Defined where
  retains := driver.keeps_retains
  isDefined_iff _ _ := Iff.rfl
  onOpcode va _ op hx _ hread :=
    LocationDb.isSome_getLocation_addLocation_self hx.sorted (hreader va op hread)

variable {cs : List Call} {s s' : CodeFlowContext (Logged ι)}

/-- What holds between the calls of the driver. -/
structure Between (s : CodeFlowContext (Logged ι)) : Prop where
  idle : s.Idle
  inv : s.ext.Inv

/-- What a call of the driver leaves. -/
def After (s s' : CodeFlowContext (Logged ι)) : Prop :=
  Between s' ∧ ∀ v, s.ext.Defined v → s'.ext.Defined v

theorem After.trans {s'' : CodeFlowContext (Logged ι)} (h : After s s') (h' : After s' s'') :
    After s s'' := ⟨h'.1, fun v hv => h'.2 v (h.2 v hv)⟩

variable (hreader : driver.ReadsForward)

include hreader

theorem makeFunction_returns (hs : Between s) (va : VA) :
    Fuelled.Returns (fun fuel => driver.makeFunction fuel va s) (After s) := by
  refine ((remembers hreader).exists_addEntryPoint hs.inv hs.idle va).mono fun s' h => ?_
  exact ⟨⟨h.1, h.2.1⟩, h.2.2⟩

theorem followPointer_returns (hs : Between s) (target : VA) :
    Fuelled.Returns (fun fuel => driver.followPointer fuel target s) (After s) := by
  unfold followPointer
  split_ifs
  · exact makeFunction_returns hreader hs target
  · exact .pure ⟨hs, fun _ hv => hv⟩

theorem makePointer_returns (hs : Between s) (site : VA) (follow : Bool) :
    Fuelled.Returns (fun fuel => driver.makePointer fuel site follow s) (After s) := by
  unfold makePointer
  by_cases hdefined : (s.ext.disc.locations.getLocation site).isSome = true
  · simp only [if_pos hdefined]
    exact .pure ⟨hs, fun _ hv => hv⟩
  · simp only [if_neg hdefined]
    cases driver.readPtr site with
    | none => exact .pure ⟨hs, fun _ hv => hv⟩
    | some target =>
      obtain ⟨hinv, hfound⟩ := Logged.retains_addLocation driver.ptrSize .kPointer
        (Option.not_isSome_iff_eq_none.mp hdefined) hs.inv
      have hadd : After s { s with ext := s.ext.addLocation site driver.ptrSize .kPointer } :=
        ⟨⟨⟨hs.idle.functions_le, hs.idle.blocked_nodup, hs.idle.cfBlocks⟩, hinv⟩, hfound⟩
      dsimp only
      split_ifs
      · exact (followPointer_returns hreader hadd.1 target).mono fun _ h => hadd.trans h
      · exact .pure hadd

/-- **A call of the driver returns.** -/
theorem run_returns (hs : Between s) (c : Call) :
    Fuelled.Returns (fun fuel => driver.run fuel s c) (After s) := by
  cases c with
  | makeFunction va => exact makeFunction_returns hreader hs va
  | makePointer site follow => exact makePointer_returns hreader hs site follow

end Driver

end Papa.Viv
