import Mathlib.Data.List.ReduceOption
import Papa.Capabilities.Recorded
import Papa.Rules.ParserScopes

/-!
# Rules without a static scope

A rule may mark the static pipeline as unsupported. The parser then leaves its static scope absent,
which is also how it leaves that of a rule that declares none, and the static pipeline reads an
absent scope as that of functions. So such a rule is evaluated like any rule of function scope,
unless the corpus drops it for one of its references.

## Main definitions

* `Papa.Rules.DeclaresUnsupported`: the metadata of a document marks the static scope unsupported.
* `Papa.Capabilities.NeverEvaluated`: the static pipeline takes no notice of a name.

## Main results

* `Papa.Rules.staticScope_of_declaresUnsupported`.
* `Papa.Capabilities.neverEvaluated_iff`.
-/

namespace Papa.Rules

open Features Engine Util
open Util.Yaml (Node)

/-! ### Declarations -/

/-- The static scope an entry of `meta.scopes` declares, if any. -/
def staticDeclaration : Str × Node → List Str
  | (key, .scalar text _ _) => if key = str "static" then [text] else []
  | _ => []

/-- The static scopes an entry of `meta` declares. -/
def entryDeclarations : Str × Node → List Str
  | (key, .scalar text _ _) => if key = str "scope" then [text] else []
  | (key, .mapping entries _ _) =>
    if key = str "scopes" then entries.flatMap staticDeclaration else []
  | (_, .sequence _ _ _) => []

/-- The entries of `meta` in a document. -/
def metaEntries (yamlText : Str) : List (Str × Node) :=
  match Yaml.parse yamlText with
  | .error _ => []
  | .ok root =>
    match (root.find (str "rule")).bind (Node.find (str "meta")) with
    | some (.mapping entries _ _) => entries
    | _ => []

/-- The metadata declares a static scope, and the declaration that counts, the last one, marks it
unsupported. -/
def DeclaresUnsupported (yamlText : Str) : Prop :=
  ((metaEntries yamlText).flatMap entryDeclarations).getLast?.map Str.trim =
    some (str "unsupported")

instance (yamlText : Str) : Decidable (DeclaresUnsupported yamlText) :=
  inferInstanceAs (Decidable (_ = _))

/-- The scope of a name that is accepted. -/
def scopeOf (text : Str) : Option Scope := (parseScopeName text).toOption.join

/-- The static scope after several declarations. -/
def declare (init : Option Scope) (texts : List Str) : Option Scope :=
  texts.foldl (fun _ text => scopeOf text) init

theorem declare_of_getLast?_unsupported (init : Option Scope) {texts : List Str}
    (h : texts.getLast?.map Str.trim = some (str "unsupported")) : declare init texts = none := by
  obtain ⟨text, hlast, htrim⟩ := Option.map_eq_some_iff.mp h
  obtain ⟨front, rfl⟩ := List.getLast?_eq_some_iff.mp hlast
  rw [declare, List.foldl_append]
  have hparse : parseScopeName text = .ok none := by
    unfold parseScopeName
    rw [htrim]
    decide +kernel
  change scopeOf text = none
  rw [scopeOf, hparse]
  rfl

theorem scalarOr_eq_ok {detail text : Str} {node : Node} (h : scalarOr detail node = .ok text) :
    ∃ line column, node = .scalar text line column := by
  cases node with
  | scalar text' line column =>
    cases h
    exact ⟨line, column, rfl⟩
  | sequence => exact nomatch h
  | mapping => exact nomatch h

theorem scopeOf_eq {text : Str} {scope : Option Scope} (h : parseScopeName text = .ok scope) :
    scopeOf text = scope := by
  rw [scopeOf, h]
  rfl

theorem staticScope_scopesEntry {out out' : Scopes} {entry : Str × Node}
    (h : scopesEntry out entry = .ok out') :
    out'.staticScope = declare out.staticScope (staticDeclaration entry) := by
  obtain ⟨text, htext, h⟩ := bind_eq_ok.mp h
  obtain ⟨scope, hscope, h⟩ := bind_eq_ok.mp h
  obtain ⟨line, column, hval⟩ := scalarOr_eq_ok htext
  obtain ⟨key, val⟩ := entry
  obtain rfl : val = .scalar text line column := hval
  dsimp only at h
  rw [staticDeclaration]
  split_ifs at h ⊢ with hstatic hdynamic
  · cases h
    exact (scopeOf_eq hscope).symm
  · cases h
    rfl
  · exact nomatch h

theorem declare_flatMap {α : Type} (init : Option Scope) (l : List α) (f : α → List Str) :
    declare init (l.flatMap f) = l.foldl (fun scope a => declare scope (f a)) init :=
  List.foldl_flatMap

theorem staticScope_foldlM_scopesEntry {out out' : Scopes} {entries : List (Str × Node)}
    (h : entries.foldlM scopesEntry out = .ok out') :
    out'.staticScope = declare out.staticScope (entries.flatMap staticDeclaration) := by
  have hstep := fun out entry out' h => @staticScope_scopesEntry out out' entry h
  exact (foldl_of_foldlM_ok hstep h).trans (declare_flatMap _ _ _).symm

/-- An entry of `meta` under another key leaves the scopes. -/
theorem scopes_metaEntry {out out' : RuleMeta} {key : Str} {val : Node}
    (h : metaEntry out (key, val) = .ok out') (hscope : key ≠ str "scope")
    (hscopes : key ≠ str "scopes") : out'.scopes = out.scopes := by
  unfold metaEntry at h
  dsimp only at h
  split at h
  · obtain ⟨text, -, h⟩ := bind_eq_ok.mp h
    cases h
    rfl
  split at h
  · obtain ⟨text, -, h⟩ := bind_eq_ok.mp h
    cases h
    split
    · rfl
    · rfl
  split at h
  · obtain ⟨text, -, h⟩ := bind_eq_ok.mp h
    cases h
    rfl
  split at h
  · obtain ⟨text, -, h⟩ := bind_eq_ok.mp h
    cases h
    rfl
  split at h
  · obtain ⟨text, -, h⟩ := bind_eq_ok.mp h
    cases h
    rfl
  split at h
  · obtain ⟨text, -, h⟩ := bind_eq_ok.mp h
    cases h
    rfl
  split at h
  · obtain ⟨text, -, h⟩ := bind_eq_ok.mp h
    cases h
    rfl
  split at h
  · obtain ⟨text, -, h⟩ := bind_eq_ok.mp h
    cases h
    rfl
  split at h
  · obtain ⟨text, -, h⟩ := bind_eq_ok.mp h
    cases h
    rfl
  cases h
  rfl

theorem staticScope_metaEntry {out out' : RuleMeta} {entry : Str × Node}
    (h : metaEntry out entry = .ok out') :
    out'.scopes.staticScope = declare out.scopes.staticScope (entryDeclarations entry) := by
  obtain ⟨key, val⟩ := entry
  by_cases hscope : key = str "scope"
  · subst hscope
    have hname : str "scope" ≠ str "name" := by decide
    have hspace : str "scope" ≠ str "namespace" := by decide
    unfold metaEntry at h
    dsimp only at h
    rw [if_neg hname, if_neg hspace, if_pos rfl] at h
    obtain ⟨text, htext, hrest⟩ := bind_eq_ok.mp h
    obtain ⟨scope, hparse, hout⟩ := bind_eq_ok.mp hrest
    obtain ⟨line, column, rfl⟩ := scalarOr_eq_ok htext
    cases hout
    exact (scopeOf_eq hparse).symm
  · by_cases hscopes : key = str "scopes"
    · subst hscopes
      have hname : str "scopes" ≠ str "name" := by decide
      have hspace : str "scopes" ≠ str "namespace" := by decide
      unfold metaEntry at h
      dsimp only at h
      rw [if_neg hname, if_neg hspace, if_neg hscope, if_pos rfl] at h
      cases val with
      | mapping entries line column =>
        obtain ⟨scopes, hloop, h⟩ := bind_eq_ok.mp h
        cases h
        exact staticScope_foldlM_scopesEntry hloop
      | scalar => exact nomatch h
      | sequence => exact nomatch h
    · have hnone : entryDeclarations (key, val) = [] := by
        cases val with
        | mapping => exact if_neg hscopes
        | scalar => exact if_neg hscope
        | sequence => rfl
      rw [scopes_metaEntry h hscope hscopes, hnone]
      rfl

/-- The metadata has the static scope that its declarations leave. -/
theorem staticScope_parseMeta {ruleNode : Node} {out info : RuleMeta}
    (h : parseMeta ruleNode out = .ok info) :
    ∃ entries line column, ruleNode.find (str "meta") = some (.mapping entries line column) ∧
      info.scopes.staticScope =
        declare out.scopes.staticScope (entries.flatMap entryDeclarations) := by
  unfold parseMeta at h
  split at h
  · exact nomatch h
  · next metaNode hmeta =>
    split at h
    · next entries line column =>
      obtain ⟨out', hloop, h⟩ := bind_eq_ok.mp h
      split_ifs at h
      · exact nomatch h
      · cases h
        refine ⟨entries, line, column, hmeta, ?_⟩
        have hstep := fun out entry out' h => @staticScope_metaEntry out out' entry h
        exact (foldl_of_foldlM_ok hstep hloop).trans (declare_flatMap _ _ _).symm
    · exact nomatch h

/-- **A rule that marks the static pipeline as unsupported has no static scope.** -/
theorem staticScope_of_declaresUnsupported {yamlText sourcePath : Str} {r : Rule}
    (h : RuleParser.parse yamlText sourcePath = .ok r) (hun : DeclaresUnsupported yamlText) :
    r.info.scopes.staticScope = none := by
  obtain ⟨root, ruleNode, _, hroot, hrule, hmeta, -, -⟩ := RuleParser.parse_ok h
  obtain ⟨entries, line, column, hfind, hscope⟩ := staticScope_parseMeta hmeta
  have hentries : metaEntries yamlText = entries := by
    rw [metaEntries, hroot]
    dsimp only
    rw [hrule, Option.bind_some, hfind]
  rw [DeclaresUnsupported, hentries] at hun
  rw [hscope]
  exact declare_of_getLast?_unsupported _ hun

end Papa.Rules

namespace Papa.Rules

open Features Engine

/-! ### The prepared form of a rule -/

/-- A rule as it stands in the prepared list. -/
def prepareRule (r : Rule) : Rule := optimizeRule (extractSubscopes r).1

theorem prepareRule_mem {rules : List Rule} {r : Rule} (h : r ∈ rules) :
    prepareRule r ∈ prepare rules :=
  List.mem_map_of_mem (List.mem_append_left _ (List.mem_map_of_mem h))

/-- The references of a prepared rule are borne in the prepared list exactly when those it makes
outside its subscopes are: the other ones name the synthetic rules of its subscopes. -/
theorem resolved_prepareRule_iff {rules : List Rule} {r : Rule} (h : r ∈ rules) :
    Resolved (prepare rules) (prepareRule r) ↔
      ∀ ref ∈ collectMatchRefs r.statement, Bears (prepare rules) ref := by
  have hrefs (ref : Str) : ref ∈ collectMatchRefs (prepareRule r).statement ↔
      ref ∈ collectMatchRefs (extractSubscopesIn r.statement r.name 0).1 :=
    mem_collectMatchRefs_optimize
  constructor
  · intro hres ref href
    exact hres ref ((hrefs ref).mpr (mem_extract_of_mem_collectMatchRefs r.name 0 href))
  · intro hbears ref href
    rcases mem_collectMatchRefs_extractSubscopesIn r.name 0 ((hrefs ref).mp href) with
      href | ⟨q, hq, rfl⟩
    · exact hbears ref href
    · have hspawned : q ∈ extractSubscopeRules rules :=
        List.mem_append_right _ (List.mem_flatMap.mpr ⟨r, h, hq⟩)
      exact ⟨optimizeRule q, List.mem_map_of_mem hspawned, List.mem_cons_self⟩

end Papa.Rules

namespace Papa.Capabilities

open Features Features.Extractors Engine Rules

/-- The static pipeline takes no notice of a name: no scope lists a rule of that name, and neither a
match nor an analysis records one. -/
def NeverEvaluated (rs : RuleSet) (name : Str) : Prop :=
  (∀ scope, ∀ q ∈ rs.rulesByScope scope, q.name ≠ name) ∧
  (∀ E scope fs addr o, rs.match_ E scope fs addr = .ok o → name ∉ o.2.map Prod.fst) ∧
  ∀ (φ β ι : Type) (E : RegexEngine) (extractor : StaticFeatureExtractor φ β ι) cachedFileFeatures
    hardwareConcurrency threads run caps, WorkersRun hardwareConcurrency threads run →
    findStaticCapabilities E rs extractor cachedFileFeatures run = .ok caps →
    name ∉ caps.allMatches.map Prod.fst

/-- Nothing takes notice of a name that no rule of the corpus has. -/
theorem neverEvaluated_of_forall_ne {rs : RuleSet} (h : rs.Built) {name : Str}
    (hname : ∀ q ∈ rs.rules, q.name ≠ name) : NeverEvaluated rs name := by
  have hrecorded {E : RegexEngine} {results : MatchResults} (hres : Recorded E rs results) :
      name ∉ results.map Prod.fst := by
    intro hmem
    obtain ⟨e, he, rfl⟩ := List.mem_map.mp hmem
    obtain ⟨r, hr, hne, -⟩ := hres e he
    exact hname r hr hne
  refine ⟨fun scope q hq => hname q (h.mem_rulesByScope_iff.mp hq).1, ?_, ?_⟩
  · exact fun E scope fs addr o ho => hrecorded (recorded_match h ho)
  · exact fun φ β ι E extractor cached hw threads run caps hrun hcaps =>
      hrecorded (findStaticCapabilities_recorded h hrun hcaps)

/-- **A rule that marks the static pipeline as unsupported** is left out of it exactly when the
corpus drops the rule, for a reference that nobody bears. -/
theorem neverEvaluated_iff {yamlText sourcePath : Str} {r : Rule}
    (hparse : RuleParser.parse yamlText sourcePath = .ok r) (hun : DeclaresUnsupported yamlText)
    {rules : List (Option Rule)} {rs : RuleSet} (hr : some r ∈ rules)
    (h : RuleSet.fromRules rules = .ok rs) :
    NeverEvaluated rs r.name ↔
      ¬∀ ref ∈ collectMatchRefs r.statement, Bears (prepare rules.reduceOption) ref := by
  have hbuilt := RuleSet.built_of_fromRules h
  obtain ⟨ix, hindexed, -⟩ := RuleSet.fromRules_ok h
  have hmem : r ∈ rules.reduceOption := List.reduceOption_mem_iff.mpr hr
  have hprepared := prepareRule_mem hmem
  rw [← resolved_prepareRule_iff hmem]
  constructor
  · intro hnever hres
    -- the rule is kept, and its absent scope is read as that of functions
    have hkept : prepareRule r ∈ rs.rules :=
      (RuleSet.mem_rules_of_fromRules h).mpr ⟨hprepared, hres⟩
    have hscope : (prepareRule r).scope = .function :=
      congrArg (·.getD kDefaultStaticScope) (staticScope_of_declaresUnsupported hparse hun)
    exact hnever.1 .function _ (hbuilt.mem_rulesByScope_iff.mpr ⟨hkept, hscope⟩) rfl
  · intro hres
    refine neverEvaluated_of_forall_ne hbuilt fun q hq hname => ?_
    obtain ⟨hq, hqres⟩ := (RuleSet.mem_rules_of_fromRules h).mp hq
    obtain rfl : q = prepareRule r := hindexed.eq_of_name hq hprepared hname
    exact hres hqres

/-- A corpus that drops an unsupported rule with a dangling reference. -/
theorem neverEvaluated_iff_dropped :
    ∃ r rs, RuleParser.parse (document ["rule:", "  meta:", "    name: a", "    scopes:",
        "      static: unsupported", "  features:", "    - match: b"]) [] = .ok r ∧
      RuleSet.fromRules [some r] = .ok rs ∧ NeverEvaluated rs r.name := by
  obtain ⟨r, hparse, hun, hrefs⟩ : ∃ r, RuleParser.parse (document ["rule:", "  meta:",
      "    name: a", "    scopes:", "      static: unsupported", "  features:", "    - match: b"])
      [] = .ok r ∧ DeclaresUnsupported (document ["rule:", "  meta:", "    name: a",
        "    scopes:", "      static: unsupported", "  features:", "    - match: b"]) ∧
      (RuleSet.fromRules [some r]).isOk ∧
      ¬∀ ref ∈ collectMatchRefs r.statement, ∃ q ∈ prepare [r], ref ∈ q.injectedNames := by
    decide +kernel
  obtain ⟨rs, h⟩ := Expected.exists_ok hrefs.1
  exact ⟨r, rs, hparse, h, (neverEvaluated_iff hparse hun List.mem_cons_self h).mpr hrefs.2⟩

/-- An unsupported rule in the list of functions, which a function with its feature matches. -/
theorem not_neverEvaluated_unsupported :
    ∃ r rs, RuleParser.parse (document ["rule:", "  meta:", "    name: a", "    scopes:",
        "      static: unsupported", "  features:", "    - api: x"]) [] = .ok r ∧
      DeclaresUnsupported (document ["rule:", "  meta:", "    name: a", "    scopes:",
        "      static: unsupported", "  features:", "    - api: x"]) ∧
      RuleSet.fromRules [some r] = .ok rs ∧ ¬NeverEvaluated rs r.name := by
  obtain ⟨r, hparse, hun, rs, h, o, ho, hmem⟩ : ∃ r, RuleParser.parse (document ["rule:",
      "  meta:", "    name: a", "    scopes:", "      static: unsupported", "  features:",
      "    - api: x"]) [] = .ok r ∧
      DeclaresUnsupported (document ["rule:", "  meta:", "    name: a", "    scopes:",
        "      static: unsupported", "  features:", "    - api: x"]) ∧
      ∃ rs, RuleSet.fromRules [some r] = .ok rs ∧
        ∃ o, rs.match_ noRegex .function
          (FeatureSet.empty.add { value := .api (str "x") } .noAddress) .noAddress = .ok o ∧
          r.name ∈ o.2.map Prod.fst := by
    decide +kernel
  exact ⟨r, rs, hparse, hun, h, fun hnever => hnever.2.1 _ _ _ _ o ho hmem⟩

end Papa.Capabilities
