import Mathlib.Data.List.ReduceOption
import Papa.Capabilities.Program
import Papa.Rules.MatchCycle

/-!
# The direct meaning of subscopes

The units of a program are the worlds in which the rules of the corpus, with their subscopes still
in place, are read: a leaf is looked up in the set the unit ends with, and a subscope holds where
its inner tree holds at some contained unit of its scope. Extraction and the passes of the analysis
compute this meaning, unless a rule of the corpus is dropped or names get in each other's way.

## Main definitions

* `Papa.Capabilities.Program.frame`: the units of a program as worlds.
* `Papa.Capabilities.Program.meaning`: where a rule holds directly.
* `Papa.Capabilities.Private`: a rule whose name nothing else injects.
* `Papa.Capabilities.Separated`: the condition under which a rule keeps its meaning.

## Main results

* `Papa.Capabilities.has_outcome_unit`: the name of a rule is in the set of a unit exactly when the
  rule is recorded at a contained unit.
* `Papa.Capabilities.meansRule`: a synthetic name means its rule.
* `Papa.Capabilities.findStaticCapabilities_meaning`.
-/

namespace Papa.Capabilities

open Features Features.Extractors Engine Rules

section Frame

variable (E : RegexEngine) (rs : RuleSet) (P : Program)

/-- The units of a program as worlds, each with the set its match ends with. -/
def Program.frame : Frame CodeUnit where
  leaf u f := f.matchesSet E (u.outcome E rs P).1
  count u f := (u.outcome E rs P).1.count f
  within := CodeUnit.within P

/-- The units of a scope in a program. -/
def Program.units (scope : Scope) : List CodeUnit := CodeUnit.file.within P scope

/-- The addresses of the units of its scope where a rule holds directly, in order. -/
def Program.meaning (r : Rule) : List Address :=
  ((P.units r.scope).filter fun u => r.statement.sat (P.frame E rs) u).map (CodeUnit.addr P)

/-- The units a unit contains, whatever their scope. -/
def CodeUnit.contained : CodeUnit → List CodeUnit
  | file => file :: P.functions.flatMap fun f => function f :: f.blocks.flatMap fun b =>
      basicBlock b :: b.insns.map instruction
  | function f => function f :: f.blocks.flatMap fun b => basicBlock b :: b.insns.map instruction
  | basicBlock b => basicBlock b :: b.insns.map instruction
  | instruction i => [instruction i]

variable {E rs P}

/-- On a tree without subscopes the direct meaning is the truth on the set of the unit. -/
theorem sat_frame {s : Statement} (hfree : s.SubscopeFree) (u : CodeUnit) :
    s.sat (P.frame E rs) u = s.holds E (u.outcome E rs P).1 :=
  Statement.sat_congr hfree (fun _ _ => rfl) fun _ _ => rfl

theorem mem_within_iff {u w : CodeUnit} {scope : Scope} :
    w ∈ u.within P scope ↔ w ∈ u.contained P ∧ w.scope = scope := by
  cases u <;> cases scope <;> cases w <;>
    simp [CodeUnit.within, CodeUnit.contained, CodeUnit.scope]

/-- The match of a unit runs at its scope and records at its address. -/
theorem outcome_unit (u : CodeUnit) :
    ∃ fs, u.outcome E rs P = outcome E rs u.scope fs (u.addr P) := by
  cases u <;> exact ⟨_, rfl⟩

end Frame

/-! ### What a match records -/

section Recorded

variable {E : RegexEngine} {rs : RuleSet} {scope : Scope} {fs : FeatureSet} {addr : Address}

theorem entries_outcome (h : rs.Built) (name : Str) :
    entries name (outcome E rs scope fs addr).2 =
      (((matchSystem E addr).run (rs.rulesByScope scope) fs).2.filter fun p =>
        p.1.name == name).map fun p => (addr, p.2) := by
  rw [outcome_eq E h, entries, get?_recordAll]
  rfl

theorem entries_outcome_ne_nil_iff (h : rs.Built) (name : Str) :
    entries name (outcome E rs scope fs addr).2 ≠ [] ↔
      ∃ p ∈ ((matchSystem E addr).run (rs.rulesByScope scope) fs).2, p.1.name = name := by
  rw [entries_outcome h, ne_eq, List.map_eq_nil_iff, List.filter_eq_nil_iff]
  simp

/-- Rules that fired are rules of the scope. -/
theorem mem_rules_of_fired (h : rs.Built) {p : Rule × Result}
    (hp : p ∈ ((matchSystem E addr).run (rs.rulesByScope scope) fs).2) :
    p.1 ∈ rs.rules ∧ p.1.scope = scope :=
  h.mem_rulesByScope_iff.mp
    ((RuleSystem.run_sublist _ _ _).subset (List.mem_map_of_mem hp))

/-- A rule is recorded at its own scope only. -/
theorem entries_outcome_of_scope_ne (h : rs.Built) {q : Rule} (hq : q ∈ rs.rules)
    (hscope : q.scope ≠ scope) : entries q.name (outcome E rs scope fs addr).2 = [] := by
  by_contra hne
  obtain ⟨p, hp, hname⟩ := (entries_outcome_ne_nil_iff h q.name).mp hne
  obtain ⟨hrules, hpscope⟩ := mem_rules_of_fired h hp
  exact hscope (h.indexed.eq_of_name hrules hq hname ▸ hpscope)

/-- A rule that misses no dependency is recorded once where it holds on the final set, and nowhere
else. -/
theorem addrs_outcome (h : rs.Built) {q : Rule} (hq : q ∈ rs.rules) (hscope : q.scope = scope)
    (hself : ¬q.SelfReferring) (hordered : q.ReferencesOrdered rs.rules) :
    (entries q.name (outcome E rs scope fs addr).2).map Prod.fst =
      if q.statement.holds E (outcome E rs scope fs addr).1 then [addr] else [] := by
  have hmem : q ∈ rs.rulesByScope scope := h.mem_rulesByScope_iff.mpr ⟨hq, hscope⟩
  have hrun := h.exists_mem_run_iff hmem hself hordered E fs addr
  rw [← h.exists_mem_run_name_iff hmem] at hrun
  set fired := ((matchSystem E addr).run (rs.rulesByScope scope) fs).2 with hfired
  have hnodup : (fired.map fun p => p.1.name).Nodup := by
    have hnames : ((rs.rulesByScope scope).map Rule.name).Nodup :=
      (h.nodup_rulesByScope scope).map_on fun r hr r' hr' =>
        h.indexed.eq_of_name (h.mem_rulesByScope_iff.mp hr).1 (h.mem_rulesByScope_iff.mp hr').1
    have hsub := ((matchSystem E addr).run_sublist (rs.rulesByScope scope) fs).map Rule.name
    rw [List.map_map] at hsub
    exact hsub.nodup hnames
  have hcount : (fired.filter fun p => p.1.name == q.name).length =
      if q.name ∈ fired.map (fun p => p.1.name) then 1 else 0 := by
    have hone : (fired.map fun p => p.1.name).count q.name =
        if q.name ∈ fired.map (fun p => p.1.name) then 1 else 0 := hnodup.count
    rwa [List.count, List.countP_map, List.countP_eq_length_filter] at hone
  have hfinal : (outcome E rs scope fs addr).1 =
      ((matchSystem E addr).run (rs.rulesByScope scope) fs).1 := by
    rw [outcome_eq E h]
  rw [entries_outcome h, List.map_map, hfinal, ← hfired]
  change (fired.filter _).map (fun _ => addr) = _
  have hrun := (List.mem_map (f := fun p : Rule × Result => p.1.name)).trans hrun
  rw [List.map_const', hcount]
  by_cases hex : q.name ∈ fired.map (fun p => p.1.name)
  · rw [if_pos hex, if_pos (hrun.mp hex)]
    rfl
  · rw [if_neg hex, if_neg fun hholds => hex (hrun.mpr hholds)]
    rfl

end Recorded

/-! ### The names in the set of a unit -/

/-- The rule is in the corpus and nothing else injects its name. -/
structure Private (rs : RuleSet) (q : Rule) : Prop where
  mem : q ∈ rs.rules
  not_namespace : ∀ d ∈ rs.rules, q.name ∉ d.namespaceHierarchy

/-- No feature of the batch is a match feature of the name. -/
def Unlisted (name : Str) (batch : List FeatureWithAddress) : Prop :=
  ∀ p ∈ batch, p.1.value ≠ .matchedRule name

/-- No feature of the program is a match feature of the name. -/
structure Program.Unlisted (P : Program) (name : Str) : Prop where
  globals : Capabilities.Unlisted name P.globals
  file : Capabilities.Unlisted name P.fileFeatures
  functions : ∀ f ∈ P.functions, Capabilities.Unlisted name f.features
  blocks : ∀ f ∈ P.functions, ∀ b ∈ f.blocks, Capabilities.Unlisted name b.features
  insns : ∀ f ∈ P.functions, ∀ b ∈ f.blocks, ∀ i ∈ b.insns, Capabilities.Unlisted name i.features

section Names

variable {E : RegexEngine} {rs : RuleSet} {P : Program} {q : Rule}

theorem has_addAll_of_unlisted {name : Str} {batch : List FeatureWithAddress}
    (hbatch : Unlisted name batch) (fs : FeatureSet) :
    (fs.addAll batch).has (Feature.matchedRule name) = fs.has (Feature.matchedRule name) := by
  rw [Bool.eq_iff_iff, FeatureSet.has_addAll, or_iff_right]
  rintro ⟨p, hp, hkey⟩
  exact hbatch p hp ((Feature.matchedRule_beq_iff name p.1).mp (BEq.symm hkey))

theorem has_mergeSets (sets : List FeatureSet) (g : Feature) :
    (mergeSets sets).has g ↔ ∃ fs ∈ sets, fs.has g := by
  have hfold (init : FeatureSet) :
      (sets.foldl FeatureSet.mergeIn init).has g ↔ init.has g ∨ ∃ fs ∈ sets, fs.has g := by
    induction sets generalizing init with
    | nil => simp
    | cons fs sets ih =>
      rw [List.foldl_cons, ih, FeatureSet.has_mergeIn, List.exists_mem_cons_iff]
      tauto
  rw [mergeSets, hfold]
  simp

/-- A match adds a private name exactly when it records its rule. -/
theorem has_outcome (h : rs.Built) (hq : Private rs q) (scope : Scope) (fs : FeatureSet)
    (addr : Address) :
    (outcome E rs scope fs addr).1.has (Feature.matchedRule q.name) ↔
      fs.has (Feature.matchedRule q.name) ∨
        entries q.name (outcome E rs scope fs addr).2 ≠ [] := by
  rw [entries_outcome_ne_nil_iff h, outcome_eq E h, has_run_matchSystem]
  refine or_congr_right (exists_congr fun p => and_congr_right fun hp => ?_)
  rw [Rule.injectedNames, List.mem_cons, eq_comm]
  exact or_iff_left (hq.not_namespace p.1 (mem_rules_of_fired h hp).1)

theorem injectMatchFeatures_cons (fs : FeatureSet) (e : Str × List (Address × Result))
    (results : MatchResults) :
    injectMatchFeatures fs rs (e :: results) =
      injectMatchFeatures (match rs.find e.1 with
        | none => fs
        | some rule => indexRuleMatches fs rule (e.2.map Prod.fst)) rs results := rfl

/-- Injection at the file scope adds a private name exactly when its rule is recorded. -/
theorem has_injectMatchFeatures (h : rs.Built) (hq : Private rs q) {results : MatchResults}
    (hnodup : (results.map Prod.fst).Nodup) (fs : FeatureSet) :
    (injectMatchFeatures fs rs results).has (Feature.matchedRule q.name) ↔
      fs.has (Feature.matchedRule q.name) ∨ entries q.name results ≠ [] := by
  induction results generalizing fs with
  | nil => simp [injectMatchFeatures, entries]
  | cons e results ih =>
    obtain ⟨hnot, hnodup⟩ := List.nodup_cons.mp hnodup
    rw [injectMatchFeatures_cons, ih hnodup]
    have hentry : (match rs.find e.1 with
        | none => fs
        | some rule => indexRuleMatches fs rule (e.2.map Prod.fst)).has
          (Feature.matchedRule q.name) ↔
        fs.has (Feature.matchedRule q.name) ∨ (e.1 = q.name ∧ e.2 ≠ []) := by
      cases hfind : rs.find e.1 with
      | none =>
        have hne : e.1 ≠ q.name := fun heq =>
          h.indexed.get?_byName_eq_none_iff.mp hfind q hq.mem heq.symm
        simp [hne]
      | some rule =>
        obtain ⟨hrule, hname⟩ := h.indexed.get?_byName_iff.mp hfind
        rw [has_indexRuleMatches, or_comm]
        refine or_congr_right ?_
        simp only [ne_eq, List.map_eq_nil_iff, Rule.injectedNames, List.mem_cons,
          Feature.matchedRule, FeatureValue.matchedRule.injEq, exists_eq_right']
        rw [and_comm, hname, eq_comm, or_iff_left (hq.not_namespace rule hrule)]
    rw [hentry, or_assoc, entries_cons]
    refine or_congr_right ?_
    by_cases hname : e.1 = q.name
    · rw [← hname, entries_eq_nil hnot, if_pos BEq.rfl]
      simp
    · simp [hname]

/-- Matching an instruction adds a private name exactly when it records the rule. -/
theorem has_outcome_insn (h : rs.Built) (hq : Private rs q) (hP : P.Unlisted q.name) {i : Insn}
    (hi : Unlisted q.name i.features) :
    (i.outcome E rs P).1.has (Feature.matchedRule q.name) ↔
      entries q.name (i.outcome E rs P).2 ≠ [] := by
  refine (has_outcome h hq _ _ _).trans (or_iff_right ?_)
  rw [has_addAll_of_unlisted hP.globals, has_addAll_of_unlisted hi]
  exact Bool.false_ne_true

theorem has_outcome_block (h : rs.Built) (hq : Private rs q) (hP : P.Unlisted q.name) {b : Block}
    (hb : Unlisted q.name b.features) (hinsns : ∀ i ∈ b.insns, Unlisted q.name i.features) :
    (b.outcome E rs P).1.has (Feature.matchedRule q.name) ↔
      ∃ w ∈ (CodeUnit.basicBlock b).contained P, entries q.name (w.outcome E rs P).2 ≠ [] := by
  refine (has_outcome h hq _ _ _).trans ?_
  rw [has_addAll_of_unlisted hP.globals, has_addAll_of_unlisted hb, has_mergeSets,
    CodeUnit.contained, List.exists_mem_cons_iff, or_comm]
  refine or_congr_right ?_
  simp only [List.mem_map, exists_exists_and_eq_and]
  exact exists_congr fun i => and_congr_right fun hi => has_outcome_insn h hq hP (hinsns i hi)

theorem has_outcome_function (h : rs.Built) (hq : Private rs q) (hP : P.Unlisted q.name) {f : Func}
    (hf : f ∈ P.functions) :
    (f.outcome E rs P).1.has (Feature.matchedRule q.name) ↔
      ∃ w ∈ (CodeUnit.function f).contained P, entries q.name (w.outcome E rs P).2 ≠ [] := by
  refine (has_outcome h hq _ _ _).trans ?_
  rw [has_addAll_of_unlisted hP.globals, has_addAll_of_unlisted (hP.functions f hf),
    has_mergeSets, CodeUnit.contained, List.exists_mem_cons_iff, or_comm]
  refine or_congr_right ?_
  simp only [List.mem_map, exists_exists_and_eq_and, List.mem_flatMap]
  constructor
  · rintro ⟨b, hb, hhas⟩
    obtain ⟨w, hw, hne⟩ :=
      (has_outcome_block h hq hP (hP.blocks f hf b hb) (hP.insns f hf b hb)).mp hhas
    exact ⟨w, ⟨b, hb, hw⟩, hne⟩
  · rintro ⟨w, ⟨b, hb, hw⟩, hne⟩
    exact ⟨b, hb,
      (has_outcome_block h hq hP (hP.blocks f hf b hb) (hP.insns f hf b hb)).mpr ⟨w, hw, hne⟩⟩

end Names

/-! ### What the analysis records -/

section Units

variable {E : RegexEngine} {rs : RuleSet} {P : Program} {q : Rule}

/-- What is recorded below the file for a name, unit by unit. -/
theorem entries_program (h : rs.Built) (name : Str) :
    entries name (P.fnResults E rs) =
        (P.units .function).flatMap (fun u => entries name (u.outcome E rs P).2) ∧
      entries name (P.bbResults E rs) =
        (P.units .basicBlock).flatMap (fun u => entries name (u.outcome E rs P).2) ∧
      entries name (P.insnResults E rs) =
        (P.units .instruction).flatMap (fun u => entries name (u.outcome E rs P).2) := by
  have hfn (f : Func) : ((f.outcome E rs P).2.map Prod.fst).Nodup := nodup_outcome E h _ _ _
  have hbb (b : Block) : ((b.outcome E rs P).2.map Prod.fst).Nodup := nodup_outcome E h _ _ _
  have hinsn (i : Insn) : ((i.outcome E rs P).2.map Prod.fst).Nodup := nodup_outcome E h _ _ _
  have hmerge {α : Type} (l : List α) (g : α → MatchResults)
      (hg : ∀ a, ((g a).map Prod.fst).Nodup) :
      entries name (mergeResults (l.map g)) = l.flatMap fun a => entries name (g a) := by
    rw [entries_mergeResults (by simpa using fun a _ => hg a), List.flatMap_map]
  refine ⟨?_, ?_, ?_⟩
  · rw [Program.fnResults, hmerge _ _ hfn, Program.units, CodeUnit.within, List.flatMap_map]
    rfl
  · rw [Program.bbResults, hmerge _ _ fun f => nodup_mergeResults _]
    simp only [hmerge _ _ hbb, Program.units, CodeUnit.within, List.flatMap_assoc,
      List.flatMap_map]
    rfl
  · rw [Program.insnResults, hmerge _ _ fun f => nodup_mergeResults _]
    simp only [hmerge _ _ fun b => nodup_mergeResults _, hmerge _ _ hinsn, Program.units,
      CodeUnit.within, List.flatMap_assoc, List.flatMap_map]
    rfl

/-- The units of a program are those of its four scopes. -/
theorem mem_contained_file_iff {w : CodeUnit} : w ∈ CodeUnit.file.contained P ↔
    w ∈ P.units .file ∨ w ∈ P.units .function ∨ w ∈ P.units .basicBlock ∨
      w ∈ P.units .instruction := by
  simp only [Program.units, mem_within_iff, ← and_or_left]
  refine (and_iff_left ?_).symm
  cases w <;> simp [CodeUnit.scope]

theorem contained_subset {u : CodeUnit} (hu : u ∈ CodeUnit.file.contained P) :
    u.contained P ⊆ CodeUnit.file.contained P := by
  intro w hw
  simp only [CodeUnit.contained, List.mem_cons, List.mem_flatMap, List.mem_map] at hu
  rcases hu with rfl | ⟨f, hf, rfl | ⟨b, hb, rfl | ⟨i, hi, rfl⟩⟩⟩
  · exact hw
  · exact List.mem_cons_of_mem _ (List.mem_flatMap.mpr ⟨f, hf, hw⟩)
  · exact List.mem_cons_of_mem _ (List.mem_flatMap.mpr
      ⟨f, hf, List.mem_cons_of_mem _ (List.mem_flatMap.mpr ⟨b, hb, hw⟩)⟩)
  · rw [CodeUnit.contained, List.mem_singleton] at hw
    rw [hw]
    exact List.mem_cons_of_mem _ (List.mem_flatMap.mpr ⟨f, hf, List.mem_cons_of_mem _
      (List.mem_flatMap.mpr ⟨b, hb, List.mem_cons_of_mem _ (List.mem_map_of_mem hi)⟩)⟩)

/-- The set of the file starts with a private name exactly when the rule is recorded below. -/
theorem has_fileSet (h : rs.Built) (hq : Private rs q) (hP : P.Unlisted q.name) :
    (P.fileSet E rs).has (Feature.matchedRule q.name) ↔
      ∃ w, (w ∈ P.units .function ∨ w ∈ P.units .basicBlock ∨ w ∈ P.units .instruction) ∧
        entries q.name (w.outcome E rs P).2 ≠ [] := by
  obtain ⟨hfn, hbb, hinsn⟩ := entries_program (E := E) (P := P) h q.name
  have hrecorded (scope : Scope) :
      (P.units scope).flatMap (fun u => entries q.name (u.outcome E rs P).2) ≠ [] ↔
        ∃ w, w ∈ P.units scope ∧ entries q.name (w.outcome E rs P).2 ≠ [] := by
    rw [ne_eq, List.flatMap_eq_nil_iff]
    push Not
    rfl
  have hempty : ((FeatureSet.empty.addAll P.fileFeatures).addAll P.globals).has
      (Feature.matchedRule q.name) = false := by
    rw [has_addAll_of_unlisted hP.globals, has_addAll_of_unlisted hP.file]
    rfl
  have hset : (P.fileSet E rs).has (Feature.matchedRule q.name) ↔
      ((entries q.name (P.fnResults E rs) ≠ [] ∨ entries q.name (P.bbResults E rs) ≠ []) ∨
        entries q.name (P.insnResults E rs) ≠ []) := by
    refine (has_injectMatchFeatures h hq (nodup_mergeResults _) _).trans (or_congr_left ?_)
    refine (has_injectMatchFeatures h hq (nodup_mergeResults _) _).trans (or_congr_left ?_)
    refine (has_injectMatchFeatures h hq (nodup_mergeResults _) _).trans (or_iff_right ?_)
    rw [hempty]
    exact Bool.false_ne_true
  rw [hset, hfn, hbb, hinsn, hrecorded, hrecorded, hrecorded, or_assoc, ← exists_or, ← exists_or]
  exact exists_congr fun w => by rw [or_and_right, or_and_right]

/-- **The name of a rule is in the set of a unit** exactly when the rule is recorded at a unit it
contains. -/
theorem has_outcome_unit (h : rs.Built) (hq : Private rs q) (hP : P.Unlisted q.name) {u : CodeUnit}
    (hu : u ∈ CodeUnit.file.contained P) :
    (u.outcome E rs P).1.has (Feature.matchedRule q.name) ↔
      ∃ w ∈ u.contained P, entries q.name (w.outcome E rs P).2 ≠ [] := by
  simp only [CodeUnit.contained, List.mem_cons, List.mem_flatMap, List.mem_map] at hu
  rcases hu with rfl | ⟨f, hf, rfl | ⟨b, hb, rfl | ⟨i, hi, rfl⟩⟩⟩
  · refine (has_outcome h hq _ _ _).trans ?_
    rw [has_fileSet h hq hP]
    simp only [mem_contained_file_iff, or_and_right, exists_or]
    rw [or_comm]
    refine or_congr_left ?_
    simp [Program.units, CodeUnit.within, CodeUnit.outcome]
  · exact has_outcome_function h hq hP hf
  · exact has_outcome_block h hq hP (hP.blocks f hf b hb) (hP.insns f hf b hb)
  · refine (has_outcome_insn h hq hP (hP.insns f hf b hb i hi)).trans ?_
    simp [CodeUnit.contained, CodeUnit.outcome]

end Units

/-! ### Extraction and the passes keep the meaning -/

/-- A rule of the corpus that references neither itself nor a rule that may come after it. -/
structure Settled (rs : RuleSet) (q : Rule) : Prop where
  mem : q ∈ rs.rules
  not_self : ¬q.SelfReferring
  ordered : q.ReferencesOrdered rs.rules

section Meaning

variable {E : RegexEngine} {rs : RuleSet} {P : Program} {q : Rule}

/-- A settled rule is recorded at a unit of its scope where it holds. -/
theorem addrs_unit (h : rs.Built) (hq : Settled rs q) {u : CodeUnit} (hu : u.scope = q.scope) :
    (entries q.name (u.outcome E rs P).2).map Prod.fst =
      if q.statement.sat (P.frame E rs) u then [u.addr P] else [] := by
  rw [sat_frame (h.subscopeFree q hq.mem)]
  obtain ⟨fs, heq⟩ := @outcome_unit E rs P u
  rw [heq]
  exact addrs_outcome h hq.mem hu.symm hq.not_self hq.ordered

theorem entries_unit_of_scope_ne (h : rs.Built) (hq : q ∈ rs.rules) {u : CodeUnit}
    (hu : u.scope ≠ q.scope) : entries q.name (u.outcome E rs P).2 = [] := by
  obtain ⟨fs, heq⟩ := @outcome_unit E rs P u
  rw [heq]
  exact entries_outcome_of_scope_ne h hq hu.symm

/-- **A synthetic name means its rule** at every unit of the program. -/
theorem meansRule (h : rs.Built) (hq : Settled rs q) (hprivate : Private rs q)
    (hP : P.Unlisted q.name) :
    MeansRule (P.frame E rs) {u | u ∈ CodeUnit.file.contained P} q := by
  intro u hu
  change (Feature.matchedRule q.name).matchesSet E (u.outcome E rs P).1 =
    (u.within P q.scope).any fun w => q.statement.sat (P.frame E rs) w
  rw [Feature.matchesSet_of_lookupOnly rfl, Bool.eq_iff_iff, has_outcome_unit h hprivate hP hu,
    List.any_eq_true]
  refine exists_congr fun w => ?_
  rw [mem_within_iff, and_assoc]
  refine and_congr_right fun _ => ?_
  by_cases hscope : w.scope = q.scope
  · have haddrs := addrs_unit (E := E) (P := P) h hq hscope
    rw [ne_eq, ← List.map_eq_nil_iff (f := Prod.fst), haddrs, and_iff_right hscope]
    by_cases hsat : q.statement.sat (P.frame E rs) w
    · rw [if_pos hsat]
      exact iff_of_true (List.cons_ne_nil _ _) hsat
    · rw [if_neg hsat]
      exact iff_of_false (fun hne => hne rfl) hsat
  · rw [entries_unit_of_scope_ne h hq.mem hscope]
    exact iff_of_false (fun hne => hne rfl) fun hand => hscope hand.1

/-- The units contained in a unit of the program are units of the program. -/
theorem withinClosed : WithinClosed (P.frame E rs) {u | u ∈ CodeUnit.file.contained P} :=
  fun _ hu _ _ hw => contained_subset hu (mem_within_iff.mp hw).1

/-- What the units of a scope record for a settled rule. -/
theorem addrs_units (h : rs.Built) (hq : Settled rs q) (scope : Scope) :
    ((P.units scope).flatMap fun u => entries q.name (u.outcome E rs P).2).map Prod.fst =
      if scope = q.scope then
        ((P.units scope).filter fun u => q.statement.sat (P.frame E rs) u).map (CodeUnit.addr P)
      else [] := by
  have hscope : ∀ u ∈ P.units scope, u.scope = scope := fun u hu => (mem_within_iff.mp hu).2
  rw [List.map_flatMap]
  generalize P.units scope = units at hscope
  split_ifs with heq
  · induction units with
    | nil => rfl
    | cons u units ih =>
      have htail := ih fun w hw => hscope w (List.mem_cons_of_mem _ hw)
      rw [List.flatMap_cons, htail, addrs_unit h hq ((hscope u List.mem_cons_self).trans heq),
        List.filter_cons]
      split_ifs <;> rfl
  · rw [List.flatMap_eq_nil_iff]
    intro u hu
    rw [entries_unit_of_scope_ne h hq.mem (by rwa [hscope u hu])]
    rfl

end Meaning

/-- The rule without its subscopes and the synthetic rules it spawns, as the corpus holds them. -/
def ruleParts (r : Rule) : List Rule :=
  ((extractSubscopes r).1 :: (extractSubscopes r).2).map optimizeRule

/-- Nothing gets in the way of the names of a rule: every reference in it, inner trees included, is
borne by some rule, references neither its own tree nor a namespace of a rule that may come after
it, and neither a namespace nor a feature of the program is one of its synthetic names. -/
structure Separated (rules : List (Option Rule)) (rs : RuleSet) (P : Program) (r : Rule) :
    Prop where
  resolved : ∀ q ∈ ruleParts r, Resolved (prepare rules.reduceOption) q
  not_self : ∀ q ∈ ruleParts r, ¬q.SelfReferring
  ordered : ∀ q ∈ ruleParts r, q.ReferencesOrdered rs.rules
  not_namespace : ∀ q ∈ (extractSubscopes r).2, ∀ d ∈ rs.rules, q.name ∉ d.namespaceHierarchy
  unlisted : ∀ q ∈ (extractSubscopes r).2, P.Unlisted q.name

section Main

variable {rules : List (Option Rule)} {rs : RuleSet} {r : Rule} {P : Program}

theorem ruleParts_subset (hr : some r ∈ rules) :
    ∀ q ∈ ruleParts r, q ∈ prepare rules.reduceOption := by
  have hmem : r ∈ rules.reduceOption := List.reduceOption_mem_iff.mpr hr
  intro q hq
  obtain ⟨p, hp, rfl⟩ := List.mem_map.mp hq
  refine List.mem_map_of_mem ?_
  rcases List.mem_cons.mp hp with rfl | hp
  · exact List.mem_append_left _ (List.mem_map_of_mem (f := fun r => (extractSubscopes r).1) hmem)
  · exact List.mem_append_right _ (List.mem_flatMap.mpr ⟨r, hmem, hp⟩)

theorem settled_of_mem_ruleParts (h : RuleSet.fromRules rules = .ok rs) (hr : some r ∈ rules)
    (hsep : Separated rules rs P r) {q : Rule} (hq : q ∈ ruleParts r) : Settled rs q :=
  ⟨(RuleSet.mem_rules_of_fromRules h).mpr ⟨ruleParts_subset hr q hq, hsep.resolved q hq⟩,
    hsep.not_self q hq, hsep.ordered q hq⟩

/-- The rule the corpus holds has the direct meaning of the rule it was made from. -/
theorem sat_extracted (h : RuleSet.fromRules rules = .ok rs) (hr : some r ∈ rules)
    (hsep : Separated rules rs P r) (E : RegexEngine) {u : CodeUnit}
    (hu : u ∈ CodeUnit.file.contained P) :
    (optimizeRule (extractSubscopes r).1).statement.sat (P.frame E rs) u =
      r.statement.sat (P.frame E rs) u := by
  have hbuilt := RuleSet.built_of_fromRules h
  refine (sat_optimize (P.frame E rs) u _).trans ?_
  refine sat_extractSubscopesIn withinClosed r.statement r.name 0 (fun q hq => ?_) hu
  have hpart : optimizeRule q ∈ ruleParts r :=
    List.mem_map_of_mem (List.mem_cons_of_mem _ hq)
  have hsettled := settled_of_mem_ruleParts h hr hsep hpart
  have hmeans := meansRule (E := E) hbuilt hsettled
    ⟨hsettled.mem, hsep.not_namespace q hq⟩ (hsep.unlisted q hq)
  intro w hw
  refine (hmeans w hw).trans ?_
  simp only [optimizeRule, sat_optimize]
  rfl

/-- **Extraction and the passes keep the meaning of subscopes.** On every program without library
functions and in every run of the workers, a rule whose names nothing gets in the way of is recorded
exactly at the units of its scope where it holds directly, in their order. -/
theorem findStaticCapabilities_meaning (h : RuleSet.fromRules rules = .ok rs) (hr : some r ∈ rules)
    (E : RegexEngine) (P : Program) (hsep : Separated rules rs P r)
    {cachedFileFeatures : Option (List FeatureWithAddress)}
    (hcached : ∀ features ∈ cachedFileFeatures, features = P.fileFeatures)
    {hardwareConcurrency threads : UInt32}
    {run : (n : ℕ) → (body : ℕ → Throws FunctionSlot) → RunOutcome}
    (hrun : WorkersRun hardwareConcurrency threads run) :
    ∃ caps, findStaticCapabilities E rs P.extractor cachedFileFeatures run = .ok caps ∧
      (entries r.name caps.allMatches).map Prod.fst = P.meaning E rs r := by
  have hbuilt := RuleSet.built_of_fromRules h
  obtain ⟨caps, hcaps, hentries⟩ := findStaticCapabilities_program E P hbuilt hcached hrun
  refine ⟨caps, hcaps, ?_⟩
  have hsettled : Settled rs (optimizeRule (extractSubscopes r).1) :=
    settled_of_mem_ruleParts h hr hsep List.mem_cons_self
  obtain ⟨hfn, hbb, hinsn⟩ := entries_program (E := E) (P := P) hbuilt r.name
  have hfile : entries r.name (CodeUnit.file.outcome E rs P).2 =
      (P.units .file).flatMap fun u => entries r.name (u.outcome E rs P).2 :=
    (List.flatMap_singleton ..).symm
  have hunits := addrs_units (E := E) (P := P) hbuilt hsettled
  have hsat : (P.units r.scope).filter
      (fun u => (optimizeRule (extractSubscopes r).1).statement.sat (P.frame E rs) u) =
      (P.units r.scope).filter fun u => r.statement.sat (P.frame E rs) u :=
    List.filter_congr fun u hu => sat_extracted h hr hsep E (mem_within_iff.mp hu).1
  change ∀ scope, ((P.units scope).flatMap fun u => entries r.name (u.outcome E rs P).2).map
    Prod.fst = if scope = r.scope then _ else [] at hunits
  rw [hentries, hfile, hfn, hbb, hinsn, Program.meaning, ← hsat]
  simp only [List.map_append, hunits]
  cases hscope : r.scope <;> simp [Program.units, CodeUnit.within]

end Main

section Examples

/-- A function of one block of one instruction, each with features. -/
def Program.small (func block insn : List Feature) : Program where
  base := .fileOffset 0
  globals := []
  fileFeatures := []
  functions :=
    [{ addr := .fileOffset 1
       features := func.map fun f => (f, .fileOffset 1)
       blocks :=
        [{ addr := .fileOffset 2
           features := block.map fun f => (f, .fileOffset 2)
           insns :=
            [{ addr := .fileOffset 3, features := insn.map fun f => (f, .fileOffset 3) }] }] }]

/-- A negated subscope beside a subscope inside a subscope. -/
theorem findStaticCapabilities_meaning_nested :
    let x : Feature := { value := .api (str "x") }
    let y : Feature := { value := .api (str "y") }
    let r := Rule.plain (str "r") .function none
      (.and [some (.not (.subscope .instruction (.feature y))),
        some (.subscope .basicBlock (.someOf 1 [some (.subscope .instruction (.feature x))]))])
    let P := Program.small [y] [] [x]
    ∃ rs run caps, RuleSet.fromRules [some r] = .ok rs ∧ WorkersRun 8 4 run ∧
      findStaticCapabilities noRegex rs P.extractor none run = .ok caps ∧
      (entries r.name caps.allMatches).map Prod.fst = [.fileOffset 1] := by
  intro x y r P
  obtain ⟨rs, h, hns, hmeaning⟩ : ∃ rs, RuleSet.fromRules [some r] = .ok rs ∧
      (∀ d ∈ rs.rules, d.namespaceHierarchy = []) ∧
      P.meaning noRegex rs r = [.fileOffset 1] := by
    decide +kernel
  have hruns n body := exists_runs (resolveWorkerCount 8 4 n).toNat n body
  choose ran run hrun using hruns
  have hworkers : WorkersRun 8 4 run := fun n body => ⟨ran n body, hrun n body⟩
  have hlisted (name : Str) (f : Feature) (hf : f.value = .api (str "x") ∨ f.value = .api (str "y"))
      (a : Address) : Unlisted name [(f, a)] := by
    intro p hp
    rw [List.mem_singleton.mp hp]
    rcases hf with hf | hf <;> rw [hf] <;> exact nofun
  have hsep : Separated [some r] rs P r := by
    refine ⟨by decide +kernel, by decide +kernel, fun q _ ref _ _ d hd _ hspace => ?_,
      fun q _ d hd => ?_, fun q _ => ⟨?_, ?_, ?_, ?_, ?_⟩⟩
    · rw [hns d hd] at hspace
      cases hspace
    · rw [hns d hd]
      exact List.not_mem_nil
    · exact fun p hp => absurd hp List.not_mem_nil
    · exact fun p hp => absurd hp List.not_mem_nil
    · simpa [P, Program.small] using hlisted q.name y (Or.inr rfl) (.fileOffset 1)
    · simp [P, Program.small, Unlisted]
    · simpa [P, Program.small] using hlisted q.name x (Or.inl rfl) (.fileOffset 3)
  have hcached : ∀ features ∈ (none : Option (List FeatureWithAddress)),
      features = P.fileFeatures := nofun
  obtain ⟨caps, hcaps, hrecorded⟩ :=
    findStaticCapabilities_meaning h List.mem_cons_self noRegex P hsep hcached hworkers
  exact ⟨rs, run, caps, h, hworkers, hcaps, hrecorded.trans hmeaning⟩

/-- The recorded addresses differ from the direct meaning in five ways: a rule with a reference that
nobody bears is dropped, a rule that references itself is decided before its name is injected, a
rule may come before one that bears its reference as a namespace, and an ancestor of a namespace or
a match feature of the program may be a synthetic name. -/
theorem not_meaning_kept :
    let x : Feature := { value := .api (str "x") }
    let y : Feature := { value := .api (str "y") }
    let ref (name : String) : Statement := .feature (Feature.matchedRule (str name))
    let inner : Statement := .subscope .instruction (.feature x)
    let dropped := Rule.plain (str "r") .function none
      (.or [some inner, some (.not (ref "missing"))])
    let selfish := Rule.plain (str "r") .function none
      (.and [some (.not inner), some (.not (ref "r"))])
    let early := Rule.plain (str "a") .function none (.or [some inner, some (ref "b")])
    let bearer := Rule.plain (str "z") .function (some (str "b")) (.feature y)
    let named := Rule.plain (str "b") .file none (.feature x)
    let parent := Rule.plain (str "r") .function none inner
    let spacious := Rule.plain (str "a") .function (some (str "r/0/z")) (.feature y)
    let P := Program.small [y] [] []
    let differs (rules : List (Option Rule)) (P : Program) (r : Rule)
        (recorded meaning : List Address) : Prop :=
      ∃ rs, RuleSet.fromRules rules = .ok rs ∧ ∃ caps,
        findStaticCapabilities noRegex rs P.extractor none runAlone = .ok caps ∧
        (entries r.name caps.allMatches).map Prod.fst = recorded ∧
        P.meaning noRegex rs r = meaning
    differs [some dropped] P dropped [] [.fileOffset 1] ∧
    differs [some selfish] P selfish [.fileOffset 1] [] ∧
    differs [some early, some bearer, some named] P early [] [.fileOffset 1] ∧
    differs [some parent, some spacious] P parent [.fileOffset 1] [] ∧
    differs [some parent] (Program.small [Feature.matchedRule (str "r/0")] [] []) parent
      [.fileOffset 1] [] := by
  decide +kernel

end Examples

end Papa.Capabilities
