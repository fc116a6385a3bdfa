import Papa.Exceptions
import Papa.Features.Feature

/-!
# Static feature extractors

An extractor walks a program as functions, basic blocks and instructions and lists the features of
each, every one with the address where it occurs. Its methods are pure and may throw.

## Main definitions

* `Papa.Features.Extractors.FunctionHandle`, `Papa.Features.Extractors.BBHandle`,
  `Papa.Features.Extractors.InsnHandle`.
* `Papa.Features.Extractors.StaticFeatureExtractor`.
-/

namespace Papa.Features.Extractors

/-- A feature with the address where it occurs. -/
abbrev FeatureWithAddress := Feature × Address

/-- A recovered function: the address matches are recorded at, and what the backend keeps. -/
structure FunctionHandle (φ : Type) where
  addr : Address
  inner : φ

/-- A basic block of a function. -/
structure BBHandle (β : Type) where
  addr : Address
  inner : β

/-- An instruction of a basic block. -/
structure InsnHandle (ι : Type) where
  addr : Address
  inner : ι

/-- A feature extractor whose backend keeps `φ`, `β` and `ι` in its handles. -/
structure StaticFeatureExtractor (φ β ι : Type) where
  getBaseAddress : Throws Address
  extractGlobalFeatures : Throws (List FeatureWithAddress)
  extractFileFeatures : Throws (List FeatureWithAddress)
  getFunctions : Throws (List (FunctionHandle φ))
  extractFunctionFeatures : FunctionHandle φ → Throws (List FeatureWithAddress)
  getBasicBlocks : FunctionHandle φ → Throws (List (BBHandle β))
  extractBasicBlockFeatures : FunctionHandle φ → BBHandle β → Throws (List FeatureWithAddress)
  getInstructions : FunctionHandle φ → BBHandle β → Throws (List (InsnHandle ι))
  extractInsnFeatures : FunctionHandle φ → BBHandle β → InsnHandle ι →
    Throws (List FeatureWithAddress)
  isLibraryFunction : Address → Throws Bool := fun _ => .ok false

end Papa.Features.Extractors
