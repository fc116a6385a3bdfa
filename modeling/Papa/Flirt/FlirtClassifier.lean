import Papa.Flirt.FlirtTree

/-!
# The FLIRT classifier

A function is a library function when a module that matches its bytes is satisfied by its
references: every named one must lead to a function that is itself classified with that name. The
classifier goes down these references with a cache, in which it notes that an address is none before
it looks at its references, so that a cycle ends, and gives up at a depth.

## Main definitions

* `FunctionContext`, `FlirtClassifier`: what the classifier knows of the program.
* `FlirtClassifier.classify`: the classifier.
* `FlirtClassifier.settle`: a classification without the cache.

## Main results

* `FlirtClassifier.classifyAt_of_settle`: what the cache remembers is right as long as no reference
  is given up.
* `FlirtClassifier.classify_transparent`: the cache is not seen.
-/

namespace Papa.Flirt

/-! ### The program -/

/-- A reference emitted by an instruction, to code or to data. -/
structure FlirtXref where
  target : UInt64
  isCode : Bool

/-- The view of the program the classifier needs. -/
structure FunctionContext where
  codeAt : UInt64 → ℕ → List UInt8
  xrefFrom : UInt64 → Option FlirtXref
  isFunctionEntry : UInt64 → Bool

/-- The bytes of a function that are matched. -/
def kMatchWindow : ℕ := 0x200

/-- The bound on chains of references. -/
def kMaxClassifyDepth : ℕ := 64

/-- The names of the addresses classified so far. -/
abbrev Cache := UInt64 → Option (Option Str)

/-- A classifier: the modules that match given bytes, the program, what is told of a match, and the
names that are known already. -/
structure FlirtClassifier (σ : Type) where
  «matcher» : List UInt8 → List (Option FlirtModule)
  context : FunctionContext
  onMatch : Option (UInt64 → FlirtModule → σ → σ) := none
  libraryLookup : Option (UInt64 → σ → Option Str) := none

/-- The cache and the workspace that matches are told to. -/
structure ClassifierState (σ : Type) where
  cache : Cache := fun _ => none
  workspace : σ

/-- The name a module gives to the function at its entry. -/
def matchName (module : FlirtModule) : Option Str :=
  (module.names.find? fun n => n.offset == 0).map FlirtName.name

/-! ### The loops -/

section Loops

variable {m : Type → Type} [Monad m]

/-- Whether the references of a module at an address are those of the program. A named one is
resolved by `resolve`. -/
def referencesSatisfied (context : FunctionContext) (resolve : UInt64 → m (Option Str))
    (va : UInt64) : List FlirtReference → m Bool
  | [] => pure true
  | ref :: references =>
    match context.xrefFrom (va + ref.offset.toUInt64) with
    | none => pure false
    | some xref =>
      if ref.name = str "." then
        if xref.isCode then pure false else referencesSatisfied context resolve va references
      else if !xref.isCode then pure false
      else do
        let targetName ← resolve xref.target
        if targetName = some ref.name then referencesSatisfied context resolve va references
        else pure false

/-- The name of the satisfied modules with the first of them, if there is one, or nothing when two
of them disagree. -/
def bestMatch (satisfied : FlirtModule → m Bool) :
    List (Option FlirtModule) → Option (Str × FlirtModule) →
      m (Option (Option (Str × FlirtModule)))
  | [], best => pure (some best)
  | none :: modules, best => bestMatch satisfied modules best
  | some module :: modules, best => do
    if !(← satisfied module) then bestMatch satisfied modules best
    else
      match matchName module with
      | none => bestMatch satisfied modules best
      | some name =>
        match best with
        | none => bestMatch satisfied modules (some (name, module))
        | some (result, winner) =>
          if result ≠ name then pure none else bestMatch satisfied modules (some (result, winner))

end Loops

/-! ### The classifier -/

namespace FlirtClassifier

variable {σ : Type} (c : FlirtClassifier σ)

/-- Note a name in the cache. -/
def remember (va : UInt64) (name : Option Str) : StateM (ClassifierState σ) Unit :=
  modify fun s => { s with cache := Function.update s.cache va (some name) }

/-- The name a reference is compared with. -/
def resolve (classify : UInt64 → StateM (ClassifierState σ) (Option Str)) (target : UInt64) :
    StateM (ClassifierState σ) (Option Str) := do
  let targetName ← classify target
  match c.libraryLookup with
  | none => pure targetName
  | some libraryLookup => return libraryLookup target (← get).workspace

/-- Note the names of a match at other offsets than the entry. -/
def rememberNames (va : UInt64) : List FlirtName → Cache → Cache
  | [], cache => cache
  | named :: names, cache =>
    rememberNames va names <|
      if named.offset ≠ 0 then
        Function.update cache (va + UInt64.ofInt named.offset) (some (some named.name))
      else cache

/-- A match names the functions at the other offsets of its module too, and is told of. -/
def announce (va : UInt64) (winner : FlirtModule) : StateM (ClassifierState σ) Unit := do
  modify fun s => { s with cache := rememberNames va winner.names s.cache }
  match c.onMatch with
  | none => pure ()
  | some onMatch => modify fun s => { s with workspace := onMatch va winner s.workspace }

/-- The classification of an address by its bytes, once it is noted as none. -/
def classifyBytes (classify : UInt64 → StateM (ClassifierState σ) (Option Str)) (va : UInt64)
    (bytes : List UInt8) : StateM (ClassifierState σ) (Option Str) := do
  let satisfied (module : FlirtModule) :=
    referencesSatisfied c.context (c.resolve classify) va module.references
  match ← bestMatch satisfied (c.matcher bytes) none with
  | none => pure none
  | some best => do
    match best with
    | none => pure ()
    | some (_, winner) => c.announce va winner
    remember va (best.map Prod.fst)
    pure (best.map Prod.fst)

/-- The classification of an address with `levels` levels left to the bound. -/
def classifyAt : (levels : ℕ) → UInt64 → StateM (ClassifierState σ) (Option Str)
  | 0, va => do return ((← get).cache va).getD none
  | levels + 1, va => do
    match (← get).cache va with
    | some name => pure name
    | none =>
      if !c.context.isFunctionEntry va then pure none
      else do
        remember va none
        let bytes := c.context.codeAt va kMatchWindow
        if bytes.isEmpty then pure none
        else c.classifyBytes (classifyAt levels) va bytes

/-- The library name of the function at an address. -/
def classify (va : UInt64) : StateM (ClassifierState σ) (Option Str) :=
  c.classifyAt kMaxClassifyDepth va

/-- The classification of an address without a cache, which gives nothing when a chain of references
is longer than `n`. -/
def settle : (n : ℕ) → UInt64 → Option (Option Str)
  | 0, va => if c.context.isFunctionEntry va then none else some none
  | n + 1, va =>
    if !c.context.isFunctionEntry va then some none
    else
      let bytes := c.context.codeAt va kMatchWindow
      if bytes.isEmpty then some none
      else do
        let satisfied (module : FlirtModule) :=
          referencesSatisfied c.context (settle n) va module.references
        let best ← bestMatch satisfied (c.matcher bytes) none
        pure (best.bind (·.map Prod.fst))

end FlirtClassifier

/-! ### Relations between two monads -/

/-- A relation between the computations of two monads that sequencing keeps. -/
structure MonadRelation (m n : Type → Type) [Monad m] [Monad n] where
  Rel {α : Type} : m α → n α → Prop
  pure {α : Type} (a : α) : Rel (Pure.pure a) (Pure.pure a)
  bind {α β : Type} {x : m α} {y : n α} {f : α → m β} {g : α → n β} :
    Rel x y → (∀ a, Rel (f a) (g a)) → Rel (x >>= f) (y >>= g)

namespace MonadRelation

variable {m n : Type → Type} [Monad m] [Monad n] (R : MonadRelation m n)

/-- Related ways to classify a target give related answers for a module. -/
theorem referencesSatisfied {context : FunctionContext} {resolve : UInt64 → m (Option Str)}
    {resolve' : UInt64 → n (Option Str)} (h : ∀ target, R.Rel (resolve target) (resolve' target))
    (va : UInt64) (references : List FlirtReference) :
    R.Rel (Flirt.referencesSatisfied context resolve va references)
      (Flirt.referencesSatisfied context resolve' va references) := by
  induction references with
  | nil => exact R.pure true
  | cons ref references ih =>
    simp only [Flirt.referencesSatisfied]
    cases context.xrefFrom (va + ref.offset.toUInt64) with
    | none => exact R.pure false
    | some xref =>
      simp only
      split
      · split
        · exact R.pure false
        · exact ih
      · split
        · exact R.pure false
        · refine R.bind (h xref.target) fun targetName => ?_
          split
          · exact ih
          · exact R.pure false

/-- Related answers for the modules give related matches. -/
theorem bestMatch {satisfied : FlirtModule → m Bool} {satisfied' : FlirtModule → n Bool}
    (h : ∀ module, R.Rel (satisfied module) (satisfied' module))
    (modules : List (Option FlirtModule)) (best : Option (Str × FlirtModule)) :
    R.Rel (Flirt.bestMatch satisfied modules best) (Flirt.bestMatch satisfied' modules best) := by
  induction modules generalizing best with
  | nil => exact R.pure (some best)
  | cons module modules ih =>
    cases module with
    | none => exact ih best
    | some module =>
      refine R.bind (h module) fun isSatisfied => ?_
      split
      · exact ih best
      · cases matchName module with
        | none => exact ih best
        | some name =>
          cases best with
          | none => exact ih _
          | some best =>
            simp only
            split
            · exact R.pure none
            · exact ih _

end MonadRelation

/-- What one computation gives, the other gives too. -/
def optionOrder : MonadRelation Option Option where
  Rel x y := ∀ a, x = some a → y = some a
  pure a b h := h
  bind {α β x y f g} hxy hfg b h := by
    obtain ⟨a, ha, hb⟩ := Option.bind_eq_some_iff.1 h
    exact Option.bind_eq_some_iff.2 ⟨a, hxy a ha, hfg a b hb⟩

/-- The winner is one of the modules. -/
theorem mem_of_bestMatch {satisfied : FlirtModule → Option Bool}
    {modules : List (Option FlirtModule)} {best : Option (Str × FlirtModule)} {name : Str}
    {winner : FlirtModule}
    (h : bestMatch satisfied modules best = some (some (some (name, winner)))) :
    some winner ∈ modules ∨ best = some (name, winner) := by
  induction modules generalizing best with
  | nil =>
    simp only [bestMatch, Option.pure_def, Option.some.injEq] at h
    exact .inr h
  | cons module modules ih =>
    have later {best' : Option (Str × FlirtModule)}
        (h' : bestMatch satisfied modules best' = some (some (some (name, winner))))
        (hbest : best' = some (name, winner) →
          some winner ∈ module :: modules ∨ best = some (name, winner)) :
        some winner ∈ module :: modules ∨ best = some (name, winner) :=
      (ih h').elim (fun hmem => .inl (List.mem_cons_of_mem _ hmem)) hbest
    cases module with
    | none => exact later h .inr
    | some module =>
      obtain ⟨isSatisfied, -, h⟩ := Option.bind_eq_some_iff.1 h
      split at h
      · exact later h .inr
      · split at h
        · exact later h .inr
        · rename_i named _
          cases best with
          | none =>
            refine later h fun heq => .inl ?_
            obtain ⟨rfl, rfl⟩ := by simpa using heq
            exact List.mem_cons_self
          | some best =>
            simp only at h
            split at h
            · cases h
            · exact later h .inr

/-! ### The classification without a cache -/

namespace FlirtClassifier

variable {σ : Type} {c : FlirtClassifier σ}

/-- With one level more, every classification that ended still ends, with the same name. -/
theorem settle_succ (n : ℕ) :
    ∀ va, optionOrder.Rel (c.settle n va) (c.settle (n + 1) va) := by
  induction n with
  | zero =>
    intro va name h
    rw [settle] at h
    split at h
    · cases h
    · rename_i hentry
      rw [settle, if_pos (by simpa using hentry), h]
  | succ n ih =>
    intro va
    rw [settle, settle]
    split
    · exact fun name h => h
    · dsimp only
      split
      · exact fun name h => h
      · refine optionOrder.bind (optionOrder.bestMatch (fun module => ?_) _ _) fun best => ?_
        · exact optionOrder.referencesSatisfied ih va module.references
        · exact optionOrder.pure _

/-- A classification that ended has the same name with more levels. -/
theorem settle_mono {n k : ℕ} (hle : n ≤ k) {va : UInt64} {name : Option Str}
    (h : c.settle n va = some name) : c.settle k va = some name := by
  induction k, hle using Nat.le_induction with
  | base => exact h
  | succ k _ ih => exact settle_succ k va name ih

theorem settle_eq_none {n k : ℕ} (hle : n ≤ k) {va : UInt64} (h : c.settle k va = none) :
    c.settle n va = none :=
  Option.eq_none_iff_forall_ne_some.2 fun _ hname =>
    Option.some_ne_none _ ((settle_mono hle hname).symm.trans h)

variable (c) in
/-- The classification of an address without a cache ends with a name. -/
def Settles (va : UInt64) (name : Option Str) : Prop :=
  ∃ n, c.settle n va = some name

theorem Settles.eq_of_settle {va : UInt64} {name name' : Option Str} (h : c.Settles va name)
    {n : ℕ} (h' : c.settle n va = some name') : name' = name := by
  obtain ⟨k, hk⟩ := h
  have := settle_mono (le_max_left n k) h'
  rw [settle_mono (le_max_right n k) hk] at this
  exact (Option.some.inj this).symm

/-! ### The cache -/

variable (c) in
/-- What a cache says of the addresses that are not being classified right now is right. -/
def Sound (pending : UInt64 → Prop) (cache : Cache) : Prop :=
  ∀ va name, cache va = some name → ¬pending va → c.Settles va name

/-- A cache says all that another does. -/
def Keeps (cache cache' : Cache) : Prop :=
  ∀ va name, cache va = some name → cache' va = some name

variable (c) in
/-- A computation with a sound cache gives what one without a cache gives, when that ends. The cache
stays sound and forgets nothing. -/
def Follows (pending : UInt64 → Prop) {α : Type} (x : StateM (ClassifierState σ) α)
    (y : Option α) : Prop :=
  ∀ s a, y = some a → c.Sound pending s.cache →
    (x s).1 = a ∧ c.Sound pending (x s).2.cache ∧ Keeps s.cache (x s).2.cache

variable (c) in
/-- Sequencing keeps `Follows`. -/
def following (pending : UInt64 → Prop) : MonadRelation (StateM (ClassifierState σ)) Option where
  Rel := c.Follows pending
  pure a s b h hs := ⟨Option.some.inj h, hs, fun _ _ h => h⟩
  bind {α β x y f g} hxy hfg s b h hs := by
    obtain ⟨a, ha, hb⟩ := Option.bind_eq_some_iff.1 h
    obtain ⟨hval, hsound, hkeeps⟩ := hxy s a ha hs
    obtain ⟨hval', hsound', hkeeps'⟩ := hfg a (x s).2 b hb hsound
    subst hval
    exact ⟨hval', hsound', fun va name h => hkeeps' va name (hkeeps va name h)⟩

/-- A classifier that nothing is told to and that asks nobody, whose modules name only the functions
at their entries. -/
structure Plain (c : FlirtClassifier σ) : Prop where
  onMatch : c.onMatch = none
  libraryLookup : c.libraryLookup = none
  names : ∀ bytes, ∀ module, some module ∈ c.matcher bytes → ∀ n ∈ module.names, n.offset = 0

theorem rememberNames_eq (va : UInt64) {names : List FlirtName} (h : ∀ n ∈ names, n.offset = 0)
    (cache : Cache) : rememberNames va names cache = cache := by
  induction names with
  | nil => rfl
  | cons named names ih =>
    rw [rememberNames, if_neg (by simpa using h named List.mem_cons_self)]
    exact ih fun n hn => h n (List.mem_cons_of_mem _ hn)

/-- A winner that names nothing but the function at its entry changes nothing. -/
theorem announce_eq (hplain : c.Plain) {winner : FlirtModule}
    (hnames : ∀ n ∈ winner.names, n.offset = 0) (va : UInt64) (s : ClassifierState σ) :
    c.announce va winner s = ((), s) := by
  have hcache : { s with cache := rememberNames va winner.names s.cache } = s := by
    rw [rememberNames_eq va hnames]
  unfold announce
  rw [hplain.onMatch]
  exact congrArg (Prod.mk ()) hcache

/-- Once an address is classified, its entry must be right too. -/
theorem Sound.settled {pending : UInt64 → Prop} {cache : Cache} {va : UInt64}
    (h : c.Sound (fun w => pending w ∨ w = va) cache)
    (hva : ∀ name, cache va = some name → c.Settles va name) : c.Sound pending cache := by
  intro w name hw hpending
  by_cases heq : w = va
  · exact heq ▸ hva name (heq ▸ hw)
  · exact h w name hw fun hor => hor.elim hpending heq

/-- What is noted of an address is not expected to be right while it is classified. -/
theorem Sound.update {pending : UInt64 → Prop} {cache : Cache} {va : UInt64}
    (h : c.Sound pending cache) (name : Option Str) :
    c.Sound (fun w => pending w ∨ w = va) (Function.update cache va (some name)) := by
  intro w name' hw hpending
  rw [Function.update_of_ne fun heq => hpending (.inr heq)] at hw
  exact h w name' hw fun hp => hpending (.inl hp)

/-- Once an address is classified, its name is noted. -/
theorem Sound.noted {pending : UInt64 → Prop} {cache : Cache} {va : UInt64}
    (h : c.Sound (fun w => pending w ∨ w = va) cache) {name : Option Str}
    (hname : c.Settles va name) : c.Sound pending (Function.update cache va (some name)) := by
  intro w name' hw hpending
  by_cases heq : w = va
  · subst heq
    rw [Function.update_self] at hw
    exact Option.some.inj hw ▸ hname
  · rw [Function.update_of_ne heq] at hw
    exact h w name' hw fun hor => hor.elim hpending heq

/-- What is noted of an address the cache did not know takes nothing away. -/
theorem Keeps.update {cache cache' : Cache} (h : Keeps cache cache') {va : UInt64}
    (hva : cache va = none) (name : Option (Option Str)) :
    Keeps cache (Function.update cache' va name) := by
  intro w name' hw
  have hne : w ≠ va := fun heq => Option.some_ne_none name' (hw.symm.trans (heq ▸ hva))
  rw [Function.update_of_ne hne]
  exact h w name' hw

theorem Keeps.of_update {cache cache' : Cache} {va : UInt64} (hva : cache va = none)
    {name : Option Str} (h : Keeps (Function.update cache va (some name)) cache') :
    Keeps cache cache' := by
  intro w name' hw
  have hne : w ≠ va := fun heq => Option.some_ne_none name' (hw.symm.trans (heq ▸ hva))
  exact h w name' ((Function.update_of_ne hne ..).trans hw)

/-! ### The classification with a cache -/

theorem classifyAt_of_cached {levels : ℕ} {va : UInt64} {s : ClassifierState σ}
    {name : Option Str} (h : s.cache va = some name) : c.classifyAt levels va s = (name, s) := by
  cases levels with
  | zero => exact congrArg (fun entry => (Option.getD entry none, s)) h
  | succ levels =>
    show (match s.cache va with
      | some name => (pure name : StateM (ClassifierState σ) (Option Str))
      | none => _) s = _
    rw [h]
    rfl

theorem classifyAt_of_not_entry {levels : ℕ} {va : UInt64} {s : ClassifierState σ}
    (hcache : s.cache va = none) (hentry : ¬c.context.isFunctionEntry va) :
    c.classifyAt levels va s = (none, s) := by
  cases levels with
  | zero => exact congrArg (fun entry => (Option.getD entry none, s)) hcache
  | succ levels =>
    show (match s.cache va with
      | some name => (pure name : StateM (ClassifierState σ) (Option Str))
      | none => _) s = _
    rw [hcache]
    simp only [Bool.eq_false_iff.2 hentry]
    rfl

theorem settle_of_not_entry {va : UInt64} (h : ¬c.context.isFunctionEntry va) (n : ℕ) :
    c.settle n va = some none := by
  cases n with
  | zero => rw [settle, if_neg h]
  | succ n => rw [settle, if_pos (by simpa using h)]

theorem resolve_eq (h : c.libraryLookup = none)
    (classify : UInt64 → StateM (ClassifierState σ) (Option Str)) (target : UInt64) :
    c.resolve classify target = classify target := by
  unfold resolve
  rw [h]
  rfl

theorem classifyAt_of_entry {levels : ℕ} {va : UInt64} {s : ClassifierState σ}
    (hcache : s.cache va = none) (hentry : c.context.isFunctionEntry va) :
    c.classifyAt (levels + 1) va s =
      (if (c.context.codeAt va kMatchWindow).isEmpty then pure none
       else c.classifyBytes (c.classifyAt levels) va (c.context.codeAt va kMatchWindow))
        { s with cache := Function.update s.cache va (some none) } := by
  show (match s.cache va with
    | some name => (pure name : StateM (ClassifierState σ) (Option Str))
    | none => _) s = _
  rw [hcache]
  simp only [hentry]
  rfl

theorem settle_of_entry {va : UInt64} (hentry : c.context.isFunctionEntry va) (n : ℕ) :
    c.settle (n + 1) va =
      if (c.context.codeAt va kMatchWindow).isEmpty then some none
      else (bestMatch
        (fun module => referencesSatisfied c.context (c.settle n) va module.references)
        (c.matcher (c.context.codeAt va kMatchWindow)) none).bind
          fun best => some (best.bind (·.map Prod.fst)) := by
  rw [settle, hentry]
  rfl

/-- The cache after a match. -/
def noteMatch (va : UInt64) : Option (Option (Str × FlirtModule)) → Cache → Cache
  | none, cache => cache
  | some best, cache => Function.update cache va (some (best.map Prod.fst))

/-- A name in a sound cache is the one that is found without the cache. -/
theorem follows_of_cached {n levels : ℕ} {pending : UInt64 → Prop} {va : UInt64}
    {s : ClassifierState σ} {name known : Option Str}
    (hpending : ∀ w, pending w → c.settle n w = none) (hsettle : c.settle n va = some name)
    (hsound : c.Sound pending s.cache) (hcache : s.cache va = some known) :
    (c.classifyAt levels va s).1 = name ∧ c.Sound pending (c.classifyAt levels va s).2.cache ∧
      Keeps s.cache (c.classifyAt levels va s).2.cache := by
  have hfree : ¬pending va :=
    fun hva => Option.some_ne_none name (hsettle.symm.trans (hpending va hva))
  rw [classifyAt_of_cached hcache]
  exact ⟨((hsound va known hcache hfree).eq_of_settle hsettle).symm, hsound, fun _ _ h => h⟩

/-- What the classification by bytes does with a match that names the function at its entry only. -/
theorem classifyBytes_eq (hplain : c.Plain)
    (classify : UInt64 → StateM (ClassifierState σ) (Option Str)) (va : UInt64)
    (bytes : List UInt8) {s s' : ClassifierState σ} {best : Option (Option (Str × FlirtModule))}
    (hmatch : bestMatch (fun module => referencesSatisfied c.context (c.resolve classify) va
      module.references) (c.matcher bytes) none s = (best, s'))
    (hwinner : ∀ name winner, best = some (some (name, winner)) → some winner ∈ c.matcher bytes) :
    c.classifyBytes classify va bytes s =
      (best.bind (·.map Prod.fst), { s' with cache := noteMatch va best s'.cache }) := by
  unfold classifyBytes
  simp only [bind, StateT.bind, hmatch]
  match best with
  | none => rfl
  | some none => rfl
  | some (some (name, winner)) =>
    have hannounce := announce_eq hplain (hplain.names bytes winner (hwinner name winner rfl)) va s'
    simp only [StateT.bind]
    rw [hannounce]
    rfl

/-- The classification by bytes, from a cache that notes the address as none, when the references
are classified as they are without a cache. -/
theorem classifyBytes_of_settle (hplain : c.Plain) {n levels : ℕ} {pending : UInt64 → Prop}
    {va : UInt64}
    (hfollows : ∀ target, c.Follows (fun w => pending w ∨ w = va) (c.classifyAt levels target)
      (c.settle n target))
    (hentry : c.context.isFunctionEntry va)
    (hbytes : ¬(c.context.codeAt va kMatchWindow).isEmpty) {name : Option Str}
    (hsettle : c.settle (n + 1) va = some name) {s : ClassifierState σ}
    (hsound : c.Sound pending s.cache) (hcache : s.cache va = none) :
    ∃ s', c.classifyBytes (c.classifyAt levels) va (c.context.codeAt va kMatchWindow)
        { s with cache := Function.update s.cache va (some none) } = (name, s') ∧
      c.Sound pending s'.cache ∧ Keeps s.cache s'.cache := by
  have hname : c.Settles va name := ⟨n + 1, hsettle⟩
  rw [settle_of_entry hentry, if_neg hbytes] at hsettle
  obtain ⟨best, hbest, hvalue⟩ := Option.bind_eq_some_iff.1 hsettle
  obtain rfl := Option.some.inj hvalue
  -- the match with the cache is the match without it
  have hresolve (target : UInt64) : (c.following fun w => pending w ∨ w = va).Rel
      (c.resolve (c.classifyAt levels) target) (c.settle n target) := by
    rw [resolve_eq hplain.libraryLookup]
    exact hfollows target
  have hmatch := (c.following fun w => pending w ∨ w = va).bestMatch
    (fun module => (c.following _).referencesSatisfied hresolve va module.references)
    (c.matcher (c.context.codeAt va kMatchWindow)) none
    { s with cache := Function.update s.cache va (some none) } best hbest (hsound.update none)
  obtain ⟨hsame, hsound', hkeeps⟩ := hmatch
  refine ⟨_, classifyBytes_eq hplain _ va _ (Prod.ext hsame rfl) ?_, ?_, ?_⟩
  · rintro name winner rfl
    exact (mem_of_bestMatch hbest).resolve_right nofun
  · cases best with
    | none =>
      -- the entry that was noted first is still there, and it is right
      have hva := hkeeps va none (Function.update_self ..)
      exact hsound'.settled fun known hknown => Option.some.inj (hva.symm.trans hknown) ▸ hname
    | some best => exact hsound'.noted hname
  · cases best with
    | none => exact Keeps.of_update hcache hkeeps
    | some best => exact (Keeps.of_update hcache hkeeps).update hcache _

/-- **Memoised classification.** Where the classification without a cache ends, the one with a
cache gives the same name. The addresses that are being classified are not among those it looks
at. -/
theorem classifyAt_of_settle (hplain : c.Plain) (n : ℕ) :
    ∀ {levels : ℕ}, n ≤ levels → ∀ {pending : UInt64 → Prop},
      (∀ va, pending va → c.settle n va = none) →
      ∀ va, c.Follows pending (c.classifyAt levels va) (c.settle n va) := by
  induction n with
  | zero =>
    intro levels _ pending hpending va s name hsettle hsound
    cases hcache : s.cache va with
    | some known => exact follows_of_cached hpending hsettle hsound hcache
    | none =>
      rw [settle] at hsettle
      split at hsettle
      · cases hsettle
      · rename_i hentry
        rw [classifyAt_of_not_entry hcache hentry]
        exact ⟨Option.some.inj hsettle, hsound, fun _ _ h => h⟩
  | succ n ih =>
    intro levels hle pending hpending va s name hsettle hsound
    cases hcache : s.cache va with
    | some known => exact follows_of_cached hpending hsettle hsound hcache
    | none =>
      have hpending' (w : UInt64) (hw : pending w) : c.settle n w = none :=
        settle_eq_none n.le_succ (hpending w hw)
      cases hfewer : c.settle n va with
      | some name' =>
        -- the classification ends with fewer levels already
        obtain rfl : name' = name :=
          Option.some.inj ((settle_mono n.le_succ hfewer).symm.trans hsettle)
        exact ih (by omega) hpending' va s name' hfewer hsound
      | none =>
        obtain ⟨levels, rfl⟩ : ∃ l, levels = l + 1 := ⟨levels - 1, by omega⟩
        have hentry : c.context.isFunctionEntry va := by
          by_contra hentry
          exact Option.some_ne_none _ ((settle_of_not_entry hentry n).symm.trans hfewer)
        rw [classifyAt_of_entry hcache hentry]
        split
        · rename_i hbytes
          have hname : name = none := by
            rw [settle_of_entry hentry, if_pos hbytes] at hsettle
            exact (Option.some.inj hsettle).symm
          subst hname
          have hsound' : c.Sound (fun w => pending w ∨ w = va) s.cache :=
            fun w known hw hfree => hsound w known hw (hfree ∘ Or.inl)
          exact ⟨rfl, hsound'.noted ⟨n + 1, hsettle⟩, Keeps.update (fun _ _ h => h) hcache _⟩
        · rename_i hbytes
          have hfollows : ∀ target, c.Follows (fun w => pending w ∨ w = va)
              (c.classifyAt levels target) (c.settle n target) :=
            ih (by omega) fun w hw => hw.elim (hpending' w) (· ▸ hfewer)
          obtain ⟨s', hrun, hsound', hkeeps⟩ :=
            classifyBytes_of_settle hplain hfollows hentry hbytes hsettle hsound hcache
          rw [hrun]
          exact ⟨rfl, hsound', hkeeps⟩

/-- One call, from a cache in which everything is right. -/
theorem classify_of_settle (hplain : c.Plain) {va : UInt64} {name : Option Str}
    (hsettle : c.settle kMaxClassifyDepth va = some name) {s : ClassifierState σ}
    (hsound : c.Sound (fun _ => False) s.cache) :
    (c.classify va s).1 = name ∧ c.Sound (fun _ => False) (c.classify va s).2.cache := by
  have hfollows : c.Follows (fun _ => False) (c.classifyAt kMaxClassifyDepth va) _ :=
    classifyAt_of_settle hplain kMaxClassifyDepth le_rfl (fun _ h => h.elim) va
  obtain ⟨hname, hsound', -⟩ := hfollows s name hsettle hsound
  exact ⟨hname, hsound'⟩

/-- Calls one after the other, from a cache in which everything is right. -/
theorem mapM_classify_of_settle (hplain : c.Plain) {vas : List UInt64} {names : List (Option Str)}
    (hsettle : List.Forall₂ (fun va name => c.settle kMaxClassifyDepth va = some name) vas names)
    {s : ClassifierState σ} (hsound : c.Sound (fun _ => False) s.cache) :
    (vas.mapM c.classify s).1 = names ∧
      c.Sound (fun _ => False) (vas.mapM c.classify s).2.cache := by
  induction hsettle generalizing s with
  | nil => exact ⟨rfl, hsound⟩
  | @cons va name vas names hva _ ih =>
    obtain ⟨hname, hsound'⟩ := classify_of_settle hplain hva hsound
    obtain ⟨hnames, hsound''⟩ := ih hsound'
    rw [List.mapM_cons]
    exact ⟨congrArg₂ List.cons hname hnames, hsound''⟩

/-- **The cache is not seen** by calls whose references are neither cyclic nor too long a chain:
every call gives the name that it gives with a fresh cache, and every entry the calls leave is the
name that is found without a cache. -/
theorem classify_transparent (c : FlirtClassifier σ) (hplain : c.Plain) (workspace : σ)
    (vas : List UInt64) (h : ∀ va ∈ vas, (c.settle kMaxClassifyDepth va).isSome) :
    (vas.mapM c.classify { workspace }).1 =
        vas.map (fun va => (c.classify va { workspace }).1) ∧
      ∀ va name, (vas.mapM c.classify { workspace }).2.cache va = some name →
        c.Settles va name := by
  have hfresh : c.Sound (fun _ => False) ({ workspace } : ClassifierState σ).cache :=
    fun _ _ hknown => nomatch hknown
  have hsettle : List.Forall₂ (fun va name => c.settle kMaxClassifyDepth va = some name) vas
      (vas.map fun va => (c.classify va { workspace }).1) := by
    rw [List.forall₂_map_right_iff, List.forall₂_same]
    intro va hva
    obtain ⟨name, hname⟩ := Option.isSome_iff_exists.1 (h va hva)
    rw [(classify_of_settle hplain hname hfresh).1, hname]
  obtain ⟨hnames, hsound⟩ := mapM_classify_of_settle hplain hsettle hfresh
  exact ⟨hnames, fun va name hva => hsound va name hva nofun⟩

/-- Functions named `f` at the addresses up to the last. Each refers to the one at `next`, in its
only module or, when it has two, in the first of them. -/
def referring (last : UInt64) (next : UInt64 → UInt64) (hasTwo : UInt64 → Bool) :
    FlirtClassifier Unit where
  «matcher» bytes := bytes.flatMap fun byte =>
    let module (references : List FlirtReference) : FlirtModule :=
      { tailCrc16 := 0, tailLength := 0, functionSize := 1, names := [⟨0, str "f", .publicName⟩],
        tailBytes := [], references }
    some (module [⟨0, str "f"⟩]) :: if hasTwo byte.toUInt64 then [some (module [])] else []
  context :=
    { codeAt := fun va _ => [va.toUInt8]
      xrefFrom := fun va => some ⟨next va, true⟩
      isFunctionEntry := fun va => va ≤ last }

theorem plain_referring (last : UInt64) (next : UInt64 → UInt64) (hasTwo : UInt64 → Bool) :
    (referring last next hasTwo).Plain where
  onMatch := rfl
  libraryLookup := rfl
  names bytes module hmem n hn := by
    simp only [referring, List.mem_flatMap, List.mem_cons] at hmem
    obtain ⟨byte, -, hmem | hmem⟩ := hmem
    · cases hmem
      simp at hn
      exact hn ▸ rfl
    · split at hmem
      · cases hmem with
        | head =>
          simp at hn
          exact hn ▸ rfl
        | tail _ hmem => cases hmem
      · cases hmem

theorem classify_transparent_two :
    ([0, 1, 0].mapM (referring 1 (· + 1) (· == 1)).classify { workspace := () }).1 =
        [0, 1, 0].map (fun va => ((referring 1 (· + 1) (· == 1)).classify va
          { workspace := () }).1) ∧
      ∀ va name, ([0, 1, 0].mapM (referring 1 (· + 1) (· == 1)).classify
          { workspace := () }).2.cache va = some name →
        (referring 1 (· + 1) (· == 1)).Settles va name :=
  classify_transparent (referring 1 (· + 1) (· == 1)) (plain_referring ..) () [0, 1, 0] <|
    List.forall_mem_cons.mpr ⟨by decide, List.forall_mem_cons.mpr
      ⟨by decide, List.forall_mem_singleton.mpr (by decide)⟩⟩

/-- A call leaves a name out of a cycle, or out of a chain that it follows too far, as none. The
next call is given that none, where it would find the name by itself. -/
theorem cache_seen :
    ((referring 1 (1 - ·) (· == 0)).Plain ∧
      ([0, 1].mapM (referring 1 (1 - ·) (· == 0)).classify { workspace := () }).1 =
        [some (str "f"), none] ∧
      ((referring 1 (1 - ·) (· == 0)).classify 1 { workspace := () }).1 = some (str "f")) ∧
    ((referring 64 (· + 1) (· == 64)).Plain ∧
      ([0, 1].mapM (referring 64 (· + 1) (· == 64)).classify { workspace := () }).1 =
        [none, none] ∧
      ((referring 64 (· + 1) (· == 64)).classify 1 { workspace := () }).1 = some (str "f")) :=
  ⟨⟨plain_referring .., by decide +kernel⟩, plain_referring .., by decide +kernel⟩

end FlirtClassifier

end Papa.Flirt
