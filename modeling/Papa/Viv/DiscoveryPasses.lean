import Papa.Viv.EntriesDecoded

/-!
# The passes of the discovery

A pass makes functions of addresses it is given or computes from the tables. Some passes run again
until they find nothing new. What a pass did with an address is settled for good: the address is
defined, cannot be read, or is left because the image has as many functions as it may have. So the
pass that tries its candidates until none is new ends, since it tries each address once, and leaves
no candidate of the final tables that looks like code.

## Main definitions

* `Driver.runEntrypoints`, `Driver.runRelocations`, `Driver.runEmucode`, `Driver.runCalling`,
  `Driver.runFuncentries`: the passes.
* `Driver.Done`: what is settled of an address.
* `Driver.Leads`, `Driver.Onward`: calls with their origins, and what they do.
* `Driver.Rounds`: passes that each made a function.

## Main results

* `Driver.runEmucode_returns`, `Driver.runCalling_returns`, `Driver.runFuncentries_returns`.
-/

namespace Papa.Viv

variable {ι : Type}

namespace Driver

open CodeFlowContext

variable (driver : Driver ι)

/-! ### The passes -/

/-- `run_entrypoints`. -/
def runEntrypoints (fuel : ℕ) (entries : List VA) (s : CodeFlowContext (Logged ι)) :
    Option (CodeFlowContext (Logged ι)) :=
  entries.foldlM (fun s va => driver.makeFunction fuel va s) s

/-- `run_relocations`. -/
def runRelocations (fuel : ℕ) (relocSites : List VA) (s : CodeFlowContext (Logged ι)) :
    Option (CodeFlowContext (Logged ι)) :=
  relocSites.foldlM (fun s site => driver.makePointer fuel site true s) s

/-- Make a function of each address where no location is, and tell whether one was made. -/
def makeUndefined (fuel : ℕ) (vas : List VA) (r : CodeFlowContext (Logged ι) × Bool) :
    Option (CodeFlowContext (Logged ι) × Bool) :=
  vas.foldlM (fun r va =>
    if (r.1.ext.disc.locations.getLocation va).isSome then some r
    else (driver.makeFunction fuel va r.1).map (·, true)) r

/-- The candidates that look like code, of those that were not tried before, and what was tried. -/
def tryCandidates (d : Discovery ι) (candidates tried : List VA) : List VA × List VA :=
  candidates.foldl (fun r va =>
    if va ∈ r.2 then r
    else (if driver.analyzePointer va d = some .kOp then r.1 ++ [va] else r.1, va :: r.2))
    ([], tried)

/-- A turn of `run_emucode`. -/
def emucodeTurn (collectCandidates : Discovery ι → List VA) (fuel : ℕ)
    (r : List VA × CodeFlowContext (Logged ι)) :
    Option ((List VA × CodeFlowContext (Logged ι)) ⊕ CodeFlowContext (Logged ι)) :=
  let docode := driver.tryCandidates r.2.ext.disc (collectCandidates r.2.ext.disc) r.1
  if docode.1 = [] then some (.inr r.2)
  else (driver.makeUndefined fuel (docode.1.mergeSort (· ≤ ·)) (r.2, false)).map fun made =>
    .inl (docode.2, made.1)

/-- `run_emucode`. -/
def runEmucode (collectCandidates : Discovery ι → List VA) (fuel : ℕ)
    (s : CodeFlowContext (Logged ι)) : Option (CodeFlowContext (Logged ι)) :=
  Fuelled.loop (driver.emucodeTurn collectCandidates) fuel ([], s)

/-- `run_funcentries`, with the passes that are left. -/
def runFuncentries (collectPrologues : Discovery ι → List VA) (fuel : ℕ) :
    (passes : ℕ) → CodeFlowContext (Logged ι) → Option (CodeFlowContext (Logged ι))
  | 0, s => some s
  | passes + 1, s =>
    (driver.makeUndefined fuel (collectPrologues s.ext.disc) (s, false)).bind fun r =>
      if r.2 then runFuncentries collectPrologues fuel passes r.1 else some r.1

/-- Emulate a function that was not emulated before and make functions of its targets. -/
def emulateFunction (discoverTargets : VA → List VA) (fuel : ℕ)
    (r : List VA × CodeFlowContext (Logged ι) × Bool) (fva : VA) :
    Option (List VA × CodeFlowContext (Logged ι) × Bool) :=
  if fva ∈ r.1 then some r
  else (driver.makeUndefined fuel (discoverTargets fva) r.2).map (fva :: r.1, ·)

/-- `run_calling`, with the passes that are left and the functions that were emulated. -/
def runCalling (discoverTargets : VA → List VA) (fuel : ℕ) :
    (passes : ℕ) → List VA → CodeFlowContext (Logged ι) → Option (CodeFlowContext (Logged ι))
  | 0, _, s => some s
  | passes + 1, emulated, s =>
    (s.ext.disc.functionEntries.foldlM (driver.emulateFunction discoverTargets fuel)
      (emulated, s, false)).bind fun r =>
        if r.2.2 then runCalling discoverTargets fuel passes r.1 r.2.1 else some r.2.1

/-! ### Between the calls -/

/-- What is settled of an address: it is defined, or cannot be read, or the image has as many
functions as it may have. -/
def Done (s : CodeFlowContext (Logged ι)) (va : VA) : Prop :=
  driver.Settled s va ∨ kMaxFunctionsPerImage ≤ s.functions.length

variable {driver} {cs cs' : List Call} {s s' s'' : CodeFlowContext (Logged ι)}

theorem Settled.done {va : VA} (h : driver.Settled s va) : driver.Done s va := .inl h

theorem done_of_isSome {va : VA} (h : (s.ext.disc.locations.getLocation va).isSome = true) :
    driver.Done s va := .inl (.inl h)

theorem makeFunction_mono {fuel fuel' : ℕ} (hle : fuel ≤ fuel') {va : VA}
    (hrun : driver.makeFunction fuel va s = some s') :
    driver.makeFunction fuel' va s = some s' := addEntryPoint_mono hle hrun

theorem followPointer_mono {fuel fuel' : ℕ} (hle : fuel ≤ fuel') {target : VA}
    (hrun : driver.followPointer fuel target s = some s') :
    driver.followPointer fuel' target s = some s' := by
  unfold followPointer at hrun ⊢
  split_ifs at hrun ⊢
  · exact makeFunction_mono hle hrun
  · exact hrun

/-- More fuel gives the same result. -/
theorem run_mono {fuel fuel' : ℕ} (hle : fuel ≤ fuel') {c : Call}
    (hrun : driver.run fuel s c = some s') : driver.run fuel' s c = some s' := by
  cases c with
  | makeFunction va => exact makeFunction_mono hle hrun
  | makePointer site follow =>
    replace hrun : driver.makePointer fuel site follow s = some s' := hrun
    show driver.makePointer fuel' site follow s = some s'
    unfold makePointer at hrun ⊢
    by_cases hdefined : (s.ext.disc.locations.getLocation site).isSome = true
    · rw [if_pos hdefined] at hrun ⊢
      exact hrun
    · rw [if_neg hdefined] at hrun ⊢
      cases hptr : driver.readPtr site with
      | none =>
        rw [hptr] at hrun
        exact hrun
      | some target =>
        rw [hptr] at hrun
        dsimp only at hrun ⊢
        split_ifs at hrun ⊢
        · exact followPointer_mono hle hrun
        · exact hrun

theorem between_of_runs (hreader : driver.ReadsForward) (h : driver.Runs cs s) : Between s := by
  induction h with
  | nil => exact ⟨⟨Nat.zero_le _, List.nodup_nil, rfl⟩, .nil, rfl⟩
  | call fuel c _ hcall ih =>
    exact ((run_returns hreader ih c).of_eq fun _ hle => run_mono hle hcall).1

theorem step_followPointer {fuel : ℕ} {target : VA} (h : Inv (fun _ => False) s)
    (hrun : driver.followPointer fuel target s = some s') : Step (fun _ => False) s s' := by
  unfold followPointer at hrun
  split_ifs at hrun
  · exact (enters_addEntryPoint _ fuel).fresh h hrun
  · obtain rfl := Option.some.inj hrun
    exact .refl h

/-- A call forgets no function. -/
theorem step_run {fuel : ℕ} {c : Call} (h : Inv (fun _ => False) s)
    (hrun : driver.run fuel s c = some s') : Step (fun _ => False) s s' := by
  cases c with
  | makeFunction va => exact (enters_addEntryPoint _ fuel).fresh h hrun
  | makePointer site follow =>
    replace hrun : driver.makePointer fuel site follow s = some s' := hrun
    unfold makePointer at hrun
    by_cases hdefined : (s.ext.disc.locations.getLocation site).isSome = true
    · rw [if_pos hdefined] at hrun
      obtain rfl := Option.some.inj hrun
      exact .refl h
    · rw [if_neg hdefined] at hrun
      cases hptr : driver.readPtr site with
      | none =>
        rw [hptr] at hrun
        obtain rfl := Option.some.inj hrun
        exact .refl h
      | some target =>
        rw [hptr] at hrun
        have hadd := h.step_ext (s.ext.addLocation site driver.ptrSize .kPointer) s.noflow
        dsimp only at hrun
        split_ifs at hrun
        · exact hadd.trans (step_followPointer hadd.inv hrun)
        · obtain rfl := Option.some.inj hrun
          exact hadd

theorem reports_of_runs (h : driver.Runs cs s) : Inv (fun _ => False) s := by
  induction h with
  | nil =>
    have hnil : CodeFlowContext.Runs driver.callbacks {} [] { ext := {} } := .nil
    exact hnil.inv
  | call fuel c _ hcall ih => exact (step_run ih hcall).inv

theorem Done.of_run (hreader : driver.ReadsForward) (h : driver.Runs cs s) {fuel : ℕ} {c : Call}
    (hrun : driver.run fuel s c = some s') {va : VA} (hdone : driver.Done s va) :
    driver.Done s' va := by
  rcases hdone with hsettled | hfull
  · obtain ⟨⟨-, hdefined⟩, -⟩ := settles_run hreader hrun (inv_of_runs h)
    exact .inl (hsettled.imp_left (hdefined va))
  · have hsubset := (step_run (reports_of_runs h) hrun).functions
    have hle := ((reports_of_runs h).nodup.subperm hsubset).length_le
    exact .inr (hfull.trans hle)

/-- An address of which a function was made is settled. -/
theorem done_of_makeFunction (hreader : driver.ReadsForward) (h : driver.Runs cs s) {fuel : ℕ}
    {va : VA} (hrun : driver.makeFunction fuel va s = some s') : driver.Done s' va := by
  have hcall : driver.run fuel s (.makeFunction va) = some s' := hrun
  rcases settled_of_addEntryPoint (remembers hreader) (fun _ _ => rfl) (inv_of_runs h) hrun with
    hfull | hmem | hsettled
  · exact Done.of_run hreader h hcall (.inr hfull)
  · exact Done.of_run hreader h hcall (defined_of_mem_functions hreader h va hmem).done
  · exact .inl hsettled

/-- Calls that lead from a state to another, each with an origin in the state it is made in. -/
inductive Leads (driver : Driver ι) (origin : CodeFlowContext (Logged ι) → Call → Prop)
    (s : CodeFlowContext (Logged ι)) : List Call → CodeFlowContext (Logged ι) → Prop
  | refl : Leads driver origin s [] s
  | call {calls : List Call} {t u : CodeFlowContext (Logged ι)} (fuel : ℕ) {c : Call}
      (h : Leads driver origin s calls t) (hc : origin t c) (hcall : driver.run fuel t c = some u) :
      Leads driver origin s (calls ++ [c]) u

/-- A state of a run that goes on to another. -/
def Before (driver : Driver ι) (t u : CodeFlowContext (Logged ι)) : Prop :=
  (∃ cs, driver.Runs cs t) ∧ ∃ calls, Leads driver (fun _ _ => True) t calls u

/-- What some calls with origins do: nothing that is settled is lost. -/
structure Onward (driver : Driver ι) (origin : CodeFlowContext (Logged ι) → Call → Prop)
    (s : CodeFlowContext (Logged ι)) (calls : List Call) (s' : CodeFlowContext (Logged ι)) :
    Prop where
  leads : Leads driver origin s calls s'
  done : ∀ va, driver.Done s va → driver.Done s' va

section Leads

variable {origin : CodeFlowContext (Logged ι) → Call → Prop} {calls calls' : List Call}

theorem Leads.runs (h : Leads driver origin s calls s') (hs : driver.Runs cs s) :
    driver.Runs (cs ++ calls) s' := by
  induction h with
  | refl => rwa [List.append_nil]
  | call fuel _ _ hcall ih =>
    rw [← List.append_assoc]
    exact .call fuel _ ih hcall

theorem Leads.trans (h : Leads driver origin s calls s') (h' : Leads driver origin s' calls' s'') :
    Leads driver origin s (calls ++ calls') s'' := by
  induction h' with
  | refl => rwa [List.append_nil]
  | call fuel _ hc hcall ih =>
    rw [← List.append_assoc]
    exact .call fuel ih hc hcall

theorem Leads.mono {origin' : CodeFlowContext (Logged ι) → Call → Prop}
    (h : Leads driver origin s calls s') (himp : ∀ t c, origin t c → origin' t c) :
    Leads driver origin' s calls s' := by
  induction h with
  | refl => exact .refl
  | call fuel _ hc hcall ih => exact .call fuel ih (himp _ _ hc) hcall

theorem Leads.before (h : Leads driver origin s calls s') (hs : driver.Runs cs s) :
    Before driver s s' := ⟨⟨cs, hs⟩, calls, h.mono fun _ _ _ => trivial⟩

theorem Before.trans (h : Before driver s s') (h' : Before driver s' s'') :
    Before driver s s'' := by
  obtain ⟨hruns, calls, hleads⟩ := h
  obtain ⟨-, calls', hleads'⟩ := h'
  exact ⟨hruns, calls ++ calls', hleads.trans hleads'⟩

namespace Onward

theorem refl (s : CodeFlowContext (Logged ι)) : Onward driver origin s [] s :=
  ⟨.refl, fun _ hdone => hdone⟩

theorem trans (h : Onward driver origin s calls s') (h' : Onward driver origin s' calls' s'') :
    Onward driver origin s (calls ++ calls') s'' :=
  ⟨h.leads.trans h'.leads, fun va hdone => h'.done va (h.done va hdone)⟩

theorem mono {origin' : CodeFlowContext (Logged ι) → Call → Prop}
    (h : Onward driver origin s calls s') (himp : ∀ t c, origin t c → origin' t c) :
    Onward driver origin' s calls s' := ⟨h.leads.mono himp, h.done⟩

end Onward

end Leads

/-- Passes each of which made functions, of addresses where no location was and that it had
collected from the tables at its start. -/
inductive Rounds (driver : Driver ι) (collect : Discovery ι → List VA) :
    ℕ → CodeFlowContext (Logged ι) → CodeFlowContext (Logged ι) → Prop
  | refl (s : CodeFlowContext (Logged ι)) : Rounds driver collect 0 s s
  | round {n : ℕ} {s t u : CodeFlowContext (Logged ι)} {calls : List Call}
      (hleads : Leads driver (fun t c => ∃ va ∈ collect s.ext.disc,
        t.ext.disc.locations.getLocation va = none ∧ c = .makeFunction va) s calls t)
      (hne : calls ≠ []) (h : Rounds driver collect n t u) : Rounds driver collect (n + 1) s u

/-! ### One call, and a list of addresses -/

section Calls

variable (hreader : driver.ReadsForward) {origin : CodeFlowContext (Logged ι) → Call → Prop}

include hreader

theorem call_returns (h : driver.Runs cs s) {c : Call} (hc : origin s c) :
    Fuelled.Returns (fun fuel => driver.run fuel s c) (Onward driver origin s [c]) := by
  obtain ⟨s', -, fuel₀, hfuel⟩ := run_returns hreader (between_of_runs hreader h) c
  have hcall := hfuel fuel₀ (Nat.le_refl _)
  exact ⟨s', ⟨.call fuel₀ .refl hc hcall, fun _ hdone => hdone.of_run hreader h hcall⟩, fuel₀,
    hfuel⟩

theorem makeFunction_onward (h : driver.Runs cs s) {va : VA} (hva : origin s (.makeFunction va)) :
    Fuelled.Returns (fun fuel => driver.makeFunction fuel va s) fun s' =>
      Onward driver origin s [.makeFunction va] s' ∧ driver.Done s' va := by
  obtain ⟨s', honward, fuel₀, hfuel⟩ := call_returns hreader h hva
  exact ⟨s', ⟨honward, done_of_makeFunction hreader h (hfuel fuel₀ (Nat.le_refl _))⟩, fuel₀, hfuel⟩

variable (origin) in
/-- **The entries** are settled after their pass. -/
theorem runEntrypoints_returns (h : driver.Runs cs s) {entries : List VA}
    (horigin : ∀ u, ∀ va ∈ entries, origin u (.makeFunction va)) :
    Fuelled.Returns (fun fuel => driver.runEntrypoints fuel entries s) fun s' =>
      (∃ calls, Onward driver origin s calls s') ∧ ∀ va ∈ entries, driver.Done s' va := by
  have hstart : ∀ va ∈ ([] : List VA), driver.Done s va := fun _ hva => absurd hva List.not_mem_nil
  refine Fuelled.Returns.foldlM _ (I := fun pre t => (∃ calls, Onward driver origin s calls t) ∧
    ∀ va ∈ pre, driver.Done t va) (fun pre va t hva ht => ?_) ⟨⟨[], .refl s⟩, hstart⟩
  obtain ⟨⟨calls, honward⟩, hdone⟩ := ht
  refine (makeFunction_onward hreader (honward.leads.runs h) (horigin t va hva)).mono fun u hu => ?_
  refine ⟨⟨_, honward.trans hu.1⟩, fun v hv => ?_⟩
  rcases List.mem_append.mp hv with hv | hv
  · exact hu.1.done v (hdone v hv)
  · exact List.mem_singleton.mp hv ▸ hu.2

variable (origin) in
theorem runRelocations_returns (h : driver.Runs cs s) {relocSites : List VA}
    (horigin : ∀ u, ∀ site ∈ relocSites, origin u (.makePointer site true)) :
    Fuelled.Returns (fun fuel => driver.runRelocations fuel relocSites s) fun s' =>
      ∃ calls, Onward driver origin s calls s' := by
  refine Fuelled.Returns.foldlM _ (I := fun _ t => ∃ calls, Onward driver origin s calls t)
    (fun pre site t hsite ht => ?_) ⟨[], .refl s⟩
  obtain ⟨calls, honward⟩ := ht
  refine (call_returns hreader (honward.leads.runs h) (horigin t site hsite)).mono fun u hu => ?_
  exact ⟨_, honward.trans hu⟩

omit hreader in
/-- What a list of addresses leaves: some calls, none if no function was made. -/
structure Made (driver : Driver ι) (origin : CodeFlowContext (Logged ι) → Call → Prop)
    (s : CodeFlowContext (Logged ι)) (added : Bool) (calls : List Call)
    (r : CodeFlowContext (Logged ι) × Bool) : Prop where
  onward : Onward driver origin s calls r.1
  unmade : r.2 = false → added = false ∧ r.1 = s
  made : r.2 = true → added = true ∨ calls ≠ []

omit hreader in
theorem Made.trans {added : Bool} {calls calls' : List Call}
    {r r' : CodeFlowContext (Logged ι) × Bool} (h : Made driver origin s added calls r)
    (h' : Made driver origin r.1 r.2 calls' r') :
    Made driver origin s added (calls ++ calls') r' := by
  refine ⟨h.onward.trans h'.onward, fun hfalse => ?_, fun htrue => ?_⟩
  · obtain ⟨hadded, heq⟩ := h'.unmade hfalse
    exact ⟨(h.unmade hadded).1, heq.trans (h.unmade hadded).2⟩
  · rcases h'.made htrue with hadded | hne
    · exact (h.made hadded).imp_right fun hne hnil => hne (List.append_eq_nil_iff.mp hnil).1
    · exact .inr fun hnil => hne (List.append_eq_nil_iff.mp hnil).2

omit hreader in
theorem Made.refl (r : CodeFlowContext (Logged ι) × Bool) :
    Made driver origin r.1 r.2 [] r := ⟨.refl r.1, fun hfalse => ⟨hfalse, rfl⟩, .inl⟩

variable (origin) in
/-- **A list of addresses** is settled when functions were made of the undefined ones. -/
theorem makeUndefined_returns {r : CodeFlowContext (Logged ι) × Bool} (h : driver.Runs cs r.1)
    {vas : List VA} (horigin : ∀ u, Before driver r.1 u → ∀ va ∈ vas,
      u.ext.disc.locations.getLocation va = none → origin u (.makeFunction va)) :
    Fuelled.Returns (fun fuel => driver.makeUndefined fuel vas r) fun r' =>
      (∃ calls, Made driver origin r.1 r.2 calls r') ∧ ∀ va ∈ vas, driver.Done r'.1 va := by
  have hstart : ∀ va ∈ ([] : List VA), driver.Done r.1 va :=
    fun _ hva => absurd hva List.not_mem_nil
  refine Fuelled.Returns.foldlM _ (I := fun pre t => (∃ calls, Made driver origin r.1 r.2 calls t) ∧
    ∀ va ∈ pre, driver.Done t.1 va) (fun pre va t hva ht => ?_) ⟨⟨[], .refl r⟩, hstart⟩
  obtain ⟨⟨calls, hmade⟩, hdone⟩ := ht
  have happend {u : CodeFlowContext (Logged ι)} (hpre : ∀ v ∈ pre, driver.Done u v)
      (hva : driver.Done u va) : ∀ v ∈ pre ++ [va], driver.Done u v := fun v hv =>
    (List.mem_append.mp hv).elim (hpre v) fun hv => List.mem_singleton.mp hv ▸ hva
  by_cases hdefined : (t.1.ext.disc.locations.getLocation va).isSome = true
  · simp only [if_pos hdefined]
    exact .pure ⟨⟨calls, hmade⟩, happend hdone (done_of_isSome hdefined)⟩
  · simp only [if_neg hdefined, Option.map_eq_bind]
    have horigin := horigin t.1 (hmade.onward.leads.before h) va hva
      (Option.not_isSome_iff_eq_none.mp hdefined)
    refine (makeFunction_onward hreader (hmade.onward.leads.runs h) horigin).bind fun u hu => ?_
    have hmakes : Made driver origin t.1 t.2 [.makeFunction va] (u, true) :=
      ⟨hu.1, fun hfalse => absurd hfalse Bool.false_ne_true.symm,
        fun _ => .inr (List.cons_ne_nil _ _)⟩
    exact .pure ⟨⟨_, hmade.trans hmakes⟩, happend (fun v hv => hu.1.done v (hdone v hv)) hu.2⟩

end Calls

/-! ### Candidates that look like code -/

theorem analyzePointer_eq_kOp {va : VA} {d : Discovery ι}
    (h : driver.analyzePointer va d = some .kOp) : driver.isProbablyCode va = true := by
  unfold analyzePointer at h
  split_ifs at h with hdefined hcode
  exact hcode

theorem done_of_analyzePointer {va : VA}
    (h : ¬ driver.analyzePointer va s.ext.disc = some .kOp) :
    driver.Done s va ∨ driver.isProbablyCode va = false := by
  by_cases hdefined : (s.ext.disc.locations.getLocation va).isSome = true
  · exact .inl (done_of_isSome hdefined)
  · refine .inr (Bool.eq_false_iff.mpr fun hcode => h ?_)
    rw [analyzePointer, if_neg hdefined, if_pos hcode]

/-- What trying candidates leaves: those that look like code, and what was tried. -/
structure Tries (driver : Driver ι) (d : Discovery ι) (candidates : List VA)
    (r r' : List VA × List VA) : Prop where
  nodup : r.2.Nodup → r'.2.Nodup
  length_le : r.2.length + r'.1.length ≤ r'.2.length + r.1.length
  tried : ∀ va, va ∈ r'.2 ↔ va ∈ r.2 ∨ va ∈ candidates
  code : ∀ va ∈ r'.1, va ∈ r.1 ∨ va ∈ candidates ∧ driver.analyzePointer va d = some .kOp
  kept : ∀ va ∈ r.1, va ∈ r'.1
  other : ∀ va ∈ candidates, va ∉ r.2 → va ∈ r'.1 ∨ ¬ driver.analyzePointer va d = some .kOp

section Tries

variable {d : Discovery ι} {candidates candidates' : List VA} {r r' r'' : List VA × List VA}

theorem Tries.refl (r : List VA × List VA) : Tries driver d [] r r where
  nodup := id
  length_le := Nat.le_refl _
  tried va := by rw [or_iff_left (List.not_mem_nil)]
  code _ hva := .inl hva
  kept _ hva := hva
  other _ hva := absurd hva List.not_mem_nil

theorem Tries.trans (h : Tries driver d candidates r r') (h' : Tries driver d candidates' r' r'') :
    Tries driver d (candidates ++ candidates') r r'' where
  nodup hnodup := h'.nodup (h.nodup hnodup)
  length_le := by
    have hle := h.length_le
    have hle' := h'.length_le
    omega
  tried va := by rw [h'.tried, h.tried, List.mem_append, or_assoc]
  code va hva := by
    rcases h'.code va hva with hva | ⟨hcandidate, hlooks⟩
    · exact (h.code va hva).imp_right (And.imp_left (List.mem_append_left _))
    · exact .inr ⟨List.mem_append_right _ hcandidate, hlooks⟩
  kept va hva := h'.kept va (h.kept va hva)
  other va hva hnew := by
    by_cases hcandidate : va ∈ candidates
    · exact (h.other va hcandidate hnew).imp_left (h'.kept va)
    · refine h'.other va ((List.mem_append.mp hva).resolve_left hcandidate) fun htried => ?_
      exact ((h.tried va).mp htried).elim hnew hcandidate

/-- One candidate. -/
theorem tries_singleton (va : VA) (r : List VA × List VA) :
    Tries driver d [va] r (if va ∈ r.2 then r
      else (if driver.analyzePointer va d = some .kOp then r.1 ++ [va] else r.1, va :: r.2)) := by
  by_cases hmem : va ∈ r.2
  · rw [if_pos hmem]
    refine ⟨id, Nat.le_refl _, fun v => ?_, fun _ hv => .inl hv, fun _ hv => hv,
      fun v hv hnew => ?_⟩
    · rw [List.mem_singleton, or_iff_left_of_imp fun heq => heq ▸ hmem]
    · exact absurd (List.mem_singleton.mp hv ▸ hmem) hnew
  · rw [if_neg hmem]
    have hnodup (h : r.2.Nodup) : (va :: r.2).Nodup := List.nodup_cons.mpr ⟨hmem, h⟩
    have htried (v : VA) : v ∈ va :: r.2 ↔ v ∈ r.2 ∨ v ∈ [va] := by
      rw [List.mem_cons, List.mem_singleton, or_comm]
    by_cases hlooks : driver.analyzePointer va d = some .kOp
    · rw [if_pos hlooks]
      refine ⟨hnodup, ?_, htried, fun v hv => ?_, fun v hv => List.mem_append_left _ hv,
        fun v hv _ => .inl (List.mem_append_right _ hv)⟩
      · simp only [List.length_cons, List.length_append, List.length_nil]
        omega
      · refine (List.mem_append.mp hv).imp_right fun hv => ⟨hv, ?_⟩
        exact List.mem_singleton.mp hv ▸ hlooks
    · rw [if_neg hlooks]
      refine ⟨hnodup, ?_, htried, fun _ hv => .inl hv, fun _ hv => hv, fun v hv _ => .inr ?_⟩
      · simp only [List.length_cons]
        omega
      · exact List.mem_singleton.mp hv ▸ hlooks

variable (driver) in
theorem tries_foldl (d : Discovery ι) (candidates : List VA) (r : List VA × List VA) :
    Tries driver d candidates r (candidates.foldl (fun r va =>
      if va ∈ r.2 then r
      else (if driver.analyzePointer va d = some .kOp then r.1 ++ [va] else r.1, va :: r.2))
      r) := by
  induction candidates generalizing r with
  | nil => exact .refl r
  | cons va candidates ih => exact (tries_singleton va r).trans (ih _)

variable (driver) in
theorem tries_tryCandidates (d : Discovery ι) (candidates tried : List VA) :
    Tries driver d candidates ([], tried) (driver.tryCandidates d candidates tried) :=
  tries_foldl driver d candidates ([], tried)

end Tries

/-! ### Passes that run again -/

section Fixpoints

variable (hreader : driver.ReadsForward) {origin : CodeFlowContext (Logged ι) → Call → Prop}

include hreader

variable (origin) in
/-- **The candidates** are settled or do not look like code: the pass ends, and what it leaves is
true of all candidates of the tables it leaves, also of those that appeared while it ran. -/
theorem runEmucode_returns (h : driver.Runs cs s) (collectCandidates : Discovery ι → List VA)
    (horigin : ∀ t u, Before driver t u → ∀ va ∈ collectCandidates t.ext.disc,
      driver.isProbablyCode va = true → origin u (.makeFunction va)) :
    Fuelled.Returns (fun fuel => driver.runEmucode collectCandidates fuel s) fun s' =>
      (∃ calls, Onward driver origin s calls s') ∧
        ∀ va ∈ collectCandidates s'.ext.disc,
          driver.Done s' va ∨ driver.isProbablyCode va = false := by
  have hstart : ∀ va ∈ ([] : List VA), driver.Done s va ∨ driver.isProbablyCode va = false :=
    fun _ hva => absurd hva List.not_mem_nil
  refine Fuelled.Returns.loop (fun r => 2 ^ 64 - r.1.length)
    (I := fun r => r.1.Nodup ∧ (∃ calls, Onward driver origin s calls r.2) ∧
      ∀ va ∈ r.1, driver.Done r.2 va ∨ driver.isProbablyCode va = false)
    (fun r hr => ?_) ⟨List.nodup_nil, ⟨[], .refl s⟩, hstart⟩
  obtain ⟨tried, t⟩ := r
  obtain ⟨hnodup, ⟨calls, honward⟩, htried⟩ := hr
  have htries := tries_tryCandidates driver t.ext.disc (collectCandidates t.ext.disc) tried
  unfold emucodeTurn
  dsimp only
  generalize driver.tryCandidates t.ext.disc (collectCandidates t.ext.disc) tried = docode
    at htries
  have hnodup' := htries.nodup hnodup
  -- What was tried and did not look like code is settled before the functions are made.
  have hothers : ∀ va ∈ docode.2, va ∉ docode.1 →
      driver.Done t va ∨ driver.isProbablyCode va = false := fun va hva hnot => by
    by_cases hmem : va ∈ tried
    · exact htried va hmem
    · have hcandidate := ((htries.tried va).mp hva).resolve_left hmem
      exact done_of_analyzePointer ((htries.other va hcandidate hmem).resolve_left hnot)
  by_cases hnone : docode.1 = []
  · simp only [if_pos hnone]
    refine .pure ⟨⟨calls, honward⟩, fun va hva => ?_⟩
    exact hothers va ((htries.tried va).mpr (.inr hva)) (hnone ▸ List.not_mem_nil)
  · simp only [if_neg hnone, Option.map_eq_bind]
    have hcode : ∀ u, Before driver t u → ∀ va ∈ docode.1.mergeSort (· ≤ ·),
        u.ext.disc.locations.getLocation va = none → origin u (.makeFunction va) := by
      intro u hu va hva _
      obtain hnil | ⟨hmem, hlooks⟩ := htries.code va (List.mem_mergeSort.mp hva)
      · exact absurd hnil List.not_mem_nil
      · exact horigin t u hu va hmem (analyzePointer_eq_kOp hlooks)
    refine (makeUndefined_returns hreader origin (r := (t, false))
      (honward.leads.runs h) hcode).bind
      fun u hu => .pure ⟨⟨hnodup', ?_, fun va hva => ?_⟩, ?_⟩
    · obtain ⟨⟨calls', hmade⟩, -⟩ := hu
      exact ⟨_, honward.trans hmade.onward⟩
    · obtain ⟨⟨calls', hmade⟩, hdone⟩ := hu
      by_cases hmem : va ∈ docode.1
      · exact .inl (hdone va (List.mem_mergeSort.mpr hmem))
      · exact (hothers va hva hmem).imp_left (hmade.onward.done va)
    · have hle := length_le_of_nodup hnodup'
      have hpos := List.length_pos_iff.mpr hnone
      have hlength := htries.length_le
      simp only [List.length_nil] at hlength
      show 2 ^ 64 - docode.2.length < 2 ^ 64 - tried.length
      omega

variable (origin) in
/-- **The prologues** are settled, or every pass made a function. -/
theorem runFuncentries_returns (h : driver.Runs cs s) (collectPrologues : Discovery ι → List VA)
    (horigin : ∀ t u, Before driver t u → ∀ va ∈ collectPrologues t.ext.disc,
      origin u (.makeFunction va)) (passes : ℕ) :
    Fuelled.Returns (fun fuel => driver.runFuncentries collectPrologues fuel passes s) fun s' =>
      (∃ calls, Onward driver origin s calls s') ∧
        ((∀ va ∈ collectPrologues s'.ext.disc, driver.Done s' va) ∨
          Rounds driver collectPrologues passes s s') := by
  induction passes generalizing cs s with
  | zero => exact .pure ⟨⟨[], .refl s⟩, .inr (.refl s)⟩
  | succ passes ih =>
    refine (makeUndefined_returns hreader (fun u c => Before driver s u ∧
        ∃ va ∈ collectPrologues s.ext.disc, u.ext.disc.locations.getLocation va = none ∧
          c = .makeFunction va) (r := (s, false)) h
      fun u hu va hva hfree => ⟨hu, va, hva, hfree, rfl⟩).bind fun r hr => ?_
    obtain ⟨⟨calls, hmade⟩, hdone⟩ := hr
    have honward : Onward driver origin s calls r.1 := by
      refine hmade.onward.mono ?_
      rintro u _ ⟨hu, va, hva, -, rfl⟩
      exact horigin s u hu va hva
    by_cases hadded : r.2 = true
    · simp only [if_pos hadded]
      refine (ih (hmade.onward.leads.runs h)).mono fun s' hs' => ?_
      obtain ⟨⟨calls', honward'⟩, hend⟩ := hs'
      refine ⟨⟨calls ++ calls', honward.trans honward'⟩, hend.imp_right fun hrounds => ?_⟩
      have hne := (hmade.made hadded).resolve_left Bool.false_ne_true
      exact .round (hmade.onward.leads.mono fun _ _ hc => hc.2) hne hrounds
    · simp only [if_neg hadded]
      have heq : r.1 = s := (hmade.unmade (Bool.eq_false_iff.mpr hadded)).2
      exact .pure ⟨⟨calls, honward⟩, .inl fun va hva => hdone va (heq ▸ hva)⟩

theorem emulateFunction_returns {discoverTargets : VA → List VA}
    {r : List VA × CodeFlowContext (Logged ι) × Bool} (h : driver.Runs cs r.2.1) (fva : VA)
    (horigin : ∀ u, Before driver r.2.1 u → ∀ va ∈ discoverTargets fva, origin u (.makeFunction va))
    (hemulated : ∀ f ∈ r.1, ∀ va ∈ discoverTargets f, driver.Done r.2.1 va) :
    Fuelled.Returns (fun fuel => driver.emulateFunction discoverTargets fuel r fva) fun r' =>
      (∃ calls, Made driver origin r.2.1 r.2.2 calls r'.2) ∧ (∀ f ∈ r.1, f ∈ r'.1) ∧ fva ∈ r'.1 ∧
        ∀ f ∈ r'.1, ∀ va ∈ discoverTargets f, driver.Done r'.2.1 va := by
  unfold emulateFunction
  by_cases hmem : fva ∈ r.1
  · simp only [if_pos hmem]
    exact .pure ⟨⟨[], .refl r.2⟩, fun _ hf => hf, hmem, hemulated⟩
  · simp only [if_neg hmem, Option.map_eq_bind]
    refine (makeUndefined_returns hreader _ (r := r.2) h
      fun u hu va hva _ => horigin u hu va hva).bind fun u hu => ?_
    obtain ⟨⟨calls, hmade⟩, hdone⟩ := hu
    refine .pure ⟨⟨calls, hmade⟩, fun _ hf => List.mem_cons_of_mem _ hf, List.mem_cons_self,
      List.forall_mem_cons.mpr ⟨hdone, fun f hf va hva => ?_⟩⟩
    exact hmade.onward.done va (hemulated f hf va hva)

variable (origin) in
/-- **The targets of calls** of all functions that are reported are settled, or every pass made a
function. -/
theorem runCalling_returns (discoverTargets : VA → List VA)
    (horigin : ∀ t u, Before driver t u → ∀ fva ∈ t.ext.disc.functionEntries,
      ∀ va ∈ discoverTargets fva, origin u (.makeFunction va)) (passes : ℕ)
    (emulated : List VA) (h : driver.Runs cs s)
    (hemulated : ∀ f ∈ emulated, ∀ va ∈ discoverTargets f, driver.Done s va) :
    Fuelled.Returns (fun fuel => driver.runCalling discoverTargets fuel passes emulated s) fun s' =>
      ∃ calls, Onward driver origin s calls s' ∧
        ((∀ f ∈ s'.ext.disc.functionEntries, ∀ va ∈ discoverTargets f, driver.Done s' va) ∨
          passes ≤ calls.length) := by
  induction passes generalizing cs s emulated with
  | zero => exact .pure ⟨[], .refl s, .inr (Nat.zero_le _)⟩
  | succ passes ih =>
    have hstart : ∀ f ∈ ([] : List VA), f ∈ emulated := fun _ hf => absurd hf List.not_mem_nil
    have hpass := Fuelled.Returns.foldlM (driver.emulateFunction discoverTargets)
      (l := s.ext.disc.functionEntries) (s := (emulated, s, false))
      (I := fun pre r => (∃ calls, Made driver origin s false calls r.2) ∧ (∀ f ∈ pre, f ∈ r.1) ∧
        ∀ f ∈ r.1, ∀ va ∈ discoverTargets f, driver.Done r.2.1 va)
      (fun pre fva r hfva hr => ?_) ⟨⟨[], .refl (s, false)⟩, hstart, hemulated⟩
    · refine hpass.bind fun r hr => ?_
      obtain ⟨⟨calls, hmade⟩, hentries, hdone⟩ := hr
      by_cases hadded : r.2.2 = true
      · simp only [if_pos hadded]
        refine (ih _ (hmade.onward.leads.runs h) hdone).mono fun s' hs' => ?_
        obtain ⟨calls', honward, hend⟩ := hs'
        refine ⟨calls ++ calls', hmade.onward.trans honward, hend.imp_right fun hle => ?_⟩
        have hne := (hmade.made hadded).resolve_left Bool.false_ne_true
        have hpos := List.length_pos_iff.mpr hne
        rw [List.length_append]
        omega
      · simp only [if_neg hadded]
        have heq : r.2.1 = s := (hmade.unmade (Bool.eq_false_iff.mpr hadded)).2
        refine .pure ⟨calls, hmade.onward, .inl fun f hf => hdone f (hentries f ?_)⟩
        exact heq ▸ hf
    · obtain ⟨⟨calls, hmade⟩, hpre, hdone⟩ := hr
      have hbefore := hmade.onward.leads.before h
      refine (emulateFunction_returns hreader (hmade.onward.leads.runs h) fva
        (fun u hu => horigin s u (hbefore.trans hu) fva hfva) hdone).mono fun u hu => ?_
      obtain ⟨⟨calls', hmade'⟩, hsub, hmem, hdone'⟩ := hu
      refine ⟨⟨_, hmade.trans hmade'⟩, fun f hf => ?_, hdone'⟩
      rcases List.mem_append.mp hf with hf | hf
      · exact hsub f (hpre f hf)
      · exact List.mem_singleton.mp hf ▸ hmem

end Fixpoints

end Driver

end Papa.Viv
