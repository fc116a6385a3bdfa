import Mathlib.Data.Set.Basic

/-!
# Dangling references

Items bear names and reference names. A pass that drops every item with a reference that no item
bears may take away the last bearers of a reference of an item it keeps. The items whose references
break down that way, however far, are the dangling ones, and one pass leaves no dangling reference
exactly when every dangling item has itself a reference that no item bears.

## Main definitions

* `Dangling.Broken`: an item with a reference that no item bears.
* `Dangling.Dangles`: an item with a reference all of whose bearers dangle.
* `Dangling.Closed`: items whose references are all borne among them.

## Main results

* `Dangling.closed_iff`: when dropping the broken items leaves a closed set.
* `Dangling.subset_of_closed`: no closed set has a dangling item.
-/

namespace Dangling

variable {α κ : Type*} (bears refs : α → Set κ) (items : Set α)

/-- An item with a reference that no item bears. -/
def Broken (a : α) : Prop := ∃ n ∈ refs a, ∀ b ∈ items, n ∉ bears b

/-- An item with a reference all of whose bearers dangle, as they do if there are none. -/
inductive Dangles : α → Prop
  | intro {a : α} {n : κ} (hn : n ∈ refs a) (h : ∀ b ∈ items, n ∈ bears b → Dangles b) : Dangles a

/-- Every reference of an item of the set is borne by an item of the set. -/
def Closed (kept : Set α) : Prop := ∀ a ∈ kept, ∀ n ∈ refs a, ∃ b ∈ kept, n ∈ bears b

variable {bears refs items}

theorem Broken.dangles {a : α} (h : Broken bears refs items a) : Dangles bears refs items a := by
  obtain ⟨n, hn, hnone⟩ := h
  exact .intro hn fun b hb hbears => absurd hbears (hnone b hb)

/-- No closed set of items has a dangling one. -/
theorem subset_of_closed {kept : Set α} (hsub : kept ⊆ items) (hclosed : Closed bears refs kept) :
    kept ⊆ {a ∈ items | ¬Dangles bears refs items a} := by
  refine fun a ha => ⟨hsub ha, fun hdangles => ?_⟩
  induction hdangles with
  | intro hn _ ih =>
    obtain ⟨b, hb, hbears⟩ := hclosed _ ha _ hn
    exact ih b (hsub hb) hbears hb

/-- **Dropping the broken items** leaves a closed set exactly when no other item dangles. -/
theorem closed_iff : Closed bears refs {a ∈ items | ¬Broken bears refs items a} ↔
    ∀ a ∈ items, Dangles bears refs items a → Broken bears refs items a := by
  constructor
  · intro hclosed a ha hdangles
    by_contra hbroken
    exact (subset_of_closed (Set.sep_subset _ _) hclosed ⟨ha, hbroken⟩).2 hdangles
  · rintro h a ⟨ha, hbroken⟩ n hn
    by_contra hnone
    refine hbroken (h a ha (.intro hn fun b hb hbears => ?_))
    by_contra hb'
    exact hnone ⟨b, ⟨hb, fun hbroken => hb' hbroken.dangles⟩, hbears⟩

end Dangling
