import Papa.Viv.CodeBlocks

/-!
# Lookup of locations

The locations are kept in ascending order of their starts, and a lookup tries the last one that
starts at the address or before. So an address that an earlier location contains is missed when
another one starts in between and ends before it, and so is every address of a location that runs
past the last address.

## Main definitions

* `LocationDb.Sorted`, `LocationDb.Nearest`: the order, and what a lookup tries.
* `LocationDb.Claimed`, `LocationDb.Complete`: an address is in a location, and a lookup tells.
* `LocationDb.LeavesNoGap`: a new location has no address that a lookup would miss.

## Main results

* `LocationDb.getLocation_eq_some_iff`: what a lookup finds.
* `LocationDb.complete_addLocation_iff`: when a new location keeps the lookup complete.
-/

namespace Papa.Viv

/-- A location contains the addresses from its start on, as many as its size. -/
def Location.Contains (loc : Location) (va : VA) : Prop :=
  loc.va ≤ va ∧ va.toNat < loc.va.toNat + loc.size.toNat

/-- A location without a byte, or one that ends before the last address does. -/
def Location.Fits (loc : Location) : Prop :=
  loc.size = 0 ∨ loc.va.toNat + loc.size.toNat < 2 ^ 64

namespace Location

variable {loc : Location} {va : VA}

/-- What the comparison of the source tells is right. -/
theorem contains_of_lt (hle : loc.va ≤ va) (hlt : va < loc.va + loc.size) : loc.Contains va := by
  refine ⟨hle, (UInt64.lt_iff_toNat_lt.mp hlt).trans_le ?_⟩
  rw [UInt64.toNat_add]
  exact Nat.mod_le _ _

theorem Contains.lt (h : loc.Contains va) (hfits : loc.Fits) : va < loc.va + loc.size := by
  obtain ⟨hle, hlt⟩ := h
  have hle := UInt64.le_iff_toNat_le.mp hle
  have hsum : loc.va.toNat + loc.size.toNat < 2 ^ 64 := by
    refine hfits.resolve_left fun hzero => ?_
    rw [hzero, UInt64.toNat_zero] at hlt
    omega
  rw [UInt64.lt_iff_toNat_lt, UInt64.toNat_add, Nat.mod_eq_of_lt hsum]
  exact hlt

/-- A location whose own start the comparison of the source accepts does not run past the last
address. -/
theorem fits_of_lt (loc : Location) (h : loc.va < loc.va + loc.size) : loc.Fits := by
  rw [UInt64.lt_iff_toNat_lt, UInt64.toNat_add] at h
  have hlt := loc.size.toNat_lt
  right
  by_contra hge
  have hsub : (loc.va.toNat + loc.size.toNat) % 2 ^ 64 =
      loc.va.toNat + loc.size.toNat - 2 ^ 64 := by
    rw [Nat.mod_eq_sub_mod (not_lt.mp hge), Nat.mod_eq_of_lt]
    have := loc.va.toNat_lt
    omega
  omega

/-- The end of a location that the comparison of the source accepts is not cut. -/
theorem toNat_end (loc : Location) (h : loc.va < loc.va + loc.size) :
    (loc.va + loc.size).toNat = loc.va.toNat + loc.size.toNat := by
  refine (UInt64.toNat_add _ _).trans ?_
  obtain hzero | hlt := fits_of_lt loc h
  · rw [hzero, UInt64.toNat_zero, Nat.add_zero]
    exact Nat.mod_eq_of_lt (UInt64.toNat_lt _)
  · exact Nat.mod_eq_of_lt hlt

end Location

namespace LocationDb

variable {db : LocationDb} {va v : VA} {size : UInt64} {type : LocType} {loc loc' : Location}

/-! ### The order of the starts -/

/-- Locations in ascending order of their starts. -/
def Sorted (db : LocationDb) : Prop := db.Pairwise fun a b => a.va < b.va

theorem Sorted.eq_of_va_eq (h : Sorted db) (hloc : loc ∈ db) (hloc' : loc' ∈ db)
    (heq : loc.va = loc'.va) : loc = loc' := by
  have hnodup : (db.map (·.va)).Nodup :=
    List.pairwise_map.mpr (h.imp fun hlt => UInt64.ne_of_lt hlt)
  exact List.inj_on_of_nodup_map hnodup hloc hloc' heq

theorem Sorted.addLocation (h : Sorted db) : Sorted (db.addLocation va size type) := by
  induction db with
  | nil => exact List.pairwise_singleton _ _
  | cons first db ih =>
    obtain ⟨hfirst, hrest⟩ := List.pairwise_cons.mp h
    rw [LocationDb.addLocation]
    split_ifs with hlt hgt
    · exact .cons (List.forall_mem_cons.mpr
        ⟨hlt, fun loc hloc => UInt64.lt_trans hlt (hfirst loc hloc)⟩) h
    · refine .cons (fun loc hloc => ?_) (ih hrest)
      obtain rfl | hloc := mem_addLocation hloc
      · exact hgt
      · exact hfirst loc hloc
    · have heq : va = first.va :=
        UInt64.le_antisymm (UInt64.not_lt.mp hgt) (UInt64.not_lt.mp hlt)
      exact .cons (fun loc hloc => heq ▸ hfirst loc hloc) hrest

/-- A new location takes the place of one with the same start. -/
theorem mem_addLocation_iff (h : Sorted db) : loc ∈ db.addLocation va size type ↔
    loc = ⟨va, size, type⟩ ∨ loc ∈ db ∧ loc.va ≠ va := by
  induction db with
  | nil => simp [LocationDb.addLocation]
  | cons first db ih =>
    obtain ⟨hfirst, hrest⟩ := List.pairwise_cons.mp h
    have hafter {loc : Location} (hloc : loc ∈ db) (hle : va ≤ first.va) : loc.va ≠ va :=
      fun heq => UInt64.lt_irrefl _ (UInt64.lt_of_le_of_lt hle (heq ▸ hfirst loc hloc))
    rw [LocationDb.addLocation]
    split_ifs with hlt hgt
    · rw [List.mem_cons]
      refine or_congr_right ⟨fun hloc => ⟨hloc, ?_⟩, And.left⟩
      rcases List.mem_cons.mp hloc with rfl | hloc
      · exact fun heq => UInt64.lt_irrefl _ (heq ▸ hlt)
      · exact hafter hloc (UInt64.le_of_lt hlt)
    · rw [List.mem_cons, ih hrest, List.mem_cons]
      constructor
      · rintro (rfl | hnew | ⟨hloc, hne⟩)
        · exact .inr ⟨.inl rfl, fun heq => UInt64.lt_irrefl _ (heq ▸ hgt)⟩
        · exact .inl hnew
        · exact .inr ⟨.inr hloc, hne⟩
      · rintro (hnew | ⟨rfl | hloc, hne⟩)
        · exact .inr (.inl hnew)
        · exact .inl rfl
        · exact .inr (.inr ⟨hloc, hne⟩)
    · have heq : va = first.va :=
        UInt64.le_antisymm (UInt64.not_lt.mp hgt) (UInt64.not_lt.mp hlt)
      rw [List.mem_cons, List.mem_cons]
      refine or_congr_right ⟨fun hloc => ⟨.inr hloc, hafter hloc (heq ▸ UInt64.le_refl _)⟩, ?_⟩
      rintro ⟨rfl | hloc, hne⟩
      · exact absurd heq.symm hne
      · exact hloc

/-! ### The nearest start -/

/-- The location with the greatest start that is not past an address. -/
structure Nearest (db : LocationDb) (va : VA) (loc : Location) : Prop where
  mem : loc ∈ db
  le : loc.va ≤ va
  last : ∀ other ∈ db, other.va ≤ va → other.va ≤ loc.va

theorem takeWhile_eq_filter (h : Sorted db) :
    db.takeWhile (·.va ≤ va) = db.filter (·.va ≤ va) := by
  induction db with
  | nil => rfl
  | cons first db ih =>
    obtain ⟨hfirst, hrest⟩ := List.pairwise_cons.mp h
    by_cases hle : first.va ≤ va
    · simp only [List.takeWhile_cons, List.filter_cons, decide_eq_true hle, ih hrest, if_true]
    · rw [List.takeWhile_cons, decide_eq_false hle, if_neg Bool.false_ne_true, eq_comm,
        List.filter_eq_nil_iff]
      intro loc hloc
      rw [decide_eq_true_eq]
      rcases List.mem_cons.mp hloc with rfl | hloc
      · exact hle
      · exact fun hle' => hle (UInt64.le_of_lt (UInt64.lt_of_lt_of_le (hfirst loc hloc) hle'))

/-- The last of sorted locations starts last. -/
theorem le_of_getLast? (h : Sorted db) (hlast : db.getLast? = some loc) (hloc : loc' ∈ db) :
    loc'.va ≤ loc.va := by
  obtain ⟨init, rfl⟩ := List.getLast?_eq_some_iff.mp hlast
  rcases List.mem_append.mp hloc with hloc | hloc
  · exact UInt64.le_of_lt ((List.pairwise_append.mp h).2.2 _ hloc _ (List.mem_singleton_self _))
  · exact List.mem_singleton.mp hloc ▸ UInt64.le_refl _

theorem getLast?_takeWhile (h : Sorted db) :
    (db.takeWhile (·.va ≤ va)).getLast? = some loc ↔ Nearest db va loc := by
  rw [takeWhile_eq_filter h]
  have hsorted : Sorted (db.filter (·.va ≤ va)) := List.Pairwise.sublist List.filter_sublist h
  have hmem {loc : Location} : loc ∈ db.filter (·.va ≤ va) ↔ loc ∈ db ∧ loc.va ≤ va := by
    rw [List.mem_filter, decide_eq_true_eq]
  constructor
  · intro hlast
    obtain ⟨hloc, hle⟩ := hmem.mp (List.mem_of_getLast? hlast)
    exact ⟨hloc, hle, fun other hother hle =>
      le_of_getLast? hsorted hlast (hmem.mpr ⟨hother, hle⟩)⟩
  · rintro ⟨hloc, hle, hnearest⟩
    cases hlast : (db.filter (·.va ≤ va)).getLast? with
    | none =>
      rw [List.getLast?_eq_none_iff] at hlast
      exact absurd (hlast ▸ hmem.mpr ⟨hloc, hle⟩) List.not_mem_nil
    | some last =>
      obtain ⟨hlastMem, hlastLe⟩ := hmem.mp (List.mem_of_getLast? hlast)
      have heq : last.va = loc.va := UInt64.le_antisymm (hnearest _ hlastMem hlastLe)
        (le_of_getLast? hsorted hlast (hmem.mpr ⟨hloc, hle⟩))
      rw [h.eq_of_va_eq hlastMem hloc heq]

theorem Nearest.unique (h : Sorted db) (hloc : Nearest db va loc) (hloc' : Nearest db va loc') :
    loc = loc' :=
  h.eq_of_va_eq hloc.mem hloc'.mem (UInt64.le_antisymm (hloc'.last _ hloc.mem hloc.le)
    (hloc.last _ hloc'.mem hloc'.le))

theorem exists_nearest (h : Sorted db) (hloc : loc ∈ db) (hle : loc.va ≤ va) :
    ∃ nearest, Nearest db va nearest := by
  cases hlast : (db.takeWhile (·.va ≤ va)).getLast? with
  | none =>
    rw [List.getLast?_eq_none_iff, takeWhile_eq_filter h, List.filter_eq_nil_iff] at hlast
    exact absurd (decide_eq_true hle) (hlast loc hloc)
  | some nearest => exact ⟨nearest, (getLast?_takeWhile h).mp hlast⟩

/-- **A lookup** finds the nearest location, if its end is past the address. -/
theorem getLocation_eq_some_iff (h : Sorted db) : db.getLocation va = some loc ↔
    Nearest db va loc ∧ va < loc.va + loc.size := by
  unfold getLocation
  split
  · rename_i hnone
    refine iff_of_false nofun fun hnearest => ?_
    exact nomatch hnone.symm.trans ((getLast?_takeWhile h).mpr hnearest.1)
  · rename_i last hlast
    have hnearest := (getLast?_takeWhile h).mp hlast
    constructor
    · intro hsome
      split_ifs at hsome with hin
      obtain rfl := Option.some.inj hsome
      exact ⟨hnearest, hin.2⟩
    · rintro ⟨hloc, hlt⟩
      obtain rfl := hnearest.unique h hloc
      exact if_pos ⟨hloc.le, hlt⟩

/-- A lookup at the start of a location with an end finds it. -/
theorem getLocation_self (h : Sorted db) (hloc : loc ∈ db) (hlt : loc.va < loc.va + loc.size) :
    db.getLocation loc.va = some loc :=
  (getLocation_eq_some_iff h).mpr ⟨⟨hloc, UInt64.le_refl _, fun _ _ hle => hle⟩, hlt⟩

/-! ### Lookups that miss nothing -/

/-- Some location contains an address. -/
def Claimed (db : LocationDb) (va : VA) : Prop := ∃ loc ∈ db, loc.Contains va

/-- A lookup finds a location if and only if one contains the address. -/
def Complete (db : LocationDb) : Prop := ∀ va, (db.getLocation va).isSome ↔ db.Claimed va

/-- A new location ends before the last address, and its addresses behind the start of another
location are in locations already. -/
def LeavesNoGap (db : LocationDb) (va : VA) (size : UInt64) : Prop :=
  (size = 0 ∨ va.toNat + size.toNat < 2 ^ 64) ∧
  ∀ loc ∈ db, va < loc.va → ∀ v, loc.va ≤ v → v.toNat < va.toNat + size.toNat → db.Claimed v

/-- What a lookup finds contains the address. -/
theorem claimed_of_isSome (h : (db.getLocation va).isSome) : db.Claimed va := by
  obtain ⟨loc, hloc⟩ := Option.isSome_iff_exists.mp h
  obtain ⟨hmem, hle, hlt⟩ := getLocation_eq_some hloc
  exact ⟨loc, hmem, Location.contains_of_lt hle hlt⟩

/-- A lookup of an address that is in its nearest location. -/
theorem isSome_of_nearest (h : Sorted db) (hnearest : Nearest db va loc)
    (hlt : va < loc.va + loc.size) : (db.getLocation va).isSome :=
  Option.isSome_iff_exists.mpr ⟨loc, (getLocation_eq_some_iff h).mpr ⟨hnearest, hlt⟩⟩

theorem Complete.leavesNoGap (h : Sorted db) (hcomplete : (db.addLocation va size type).Complete) :
    db.LeavesNoGap va size := by
  have hsorted : Sorted (db.addLocation va size type) := h.addLocation
  have hnew : (⟨va, size, type⟩ : Location) ∈ db.addLocation va size type :=
    (mem_addLocation_iff h).mpr (.inl rfl)
  have hlookup {v : VA} (hle : va ≤ v) (hlt : v.toNat < va.toNat + size.toNat) :
      ∃ loc, Nearest (db.addLocation va size type) v loc ∧ v < loc.va + loc.size := by
    obtain ⟨loc, hloc⟩ := Option.isSome_iff_exists.mp ((hcomplete v).mpr ⟨_, hnew, hle, hlt⟩)
    exact ⟨loc, (getLocation_eq_some_iff hsorted).mp hloc⟩
  constructor
  · by_cases hsize : size = 0
    · exact .inl hsize
    · obtain ⟨loc, hnearest, hlt⟩ := hlookup (UInt64.le_refl va)
        (Nat.lt_add_of_pos_right (UInt64.pos_iff_ne_zero.mpr hsize))
      have heq : (⟨va, size, type⟩ : Location) = loc := hsorted.eq_of_va_eq hnew hnearest.mem
        (UInt64.le_antisymm (hnearest.last _ hnew (UInt64.le_refl _)) hnearest.le)
      obtain rfl := heq
      exact Location.fits_of_lt ⟨va, size, type⟩ hlt
  · intro loc hloc hva v hle hlt
    obtain ⟨found, hnearest, hin⟩ :=
      hlookup (UInt64.le_of_lt (UInt64.lt_of_lt_of_le hva hle)) hlt
    have hkept : loc ∈ db.addLocation va size type := (mem_addLocation_iff h).mpr
      (.inr ⟨hloc, fun heq => UInt64.lt_irrefl _ (heq ▸ hva)⟩)
    obtain rfl | ⟨hfound, -⟩ := (mem_addLocation_iff h).mp hnearest.mem
    · exact absurd hva (UInt64.not_lt.mpr (hnearest.last loc hkept hle))
    · exact ⟨found, hfound, Location.contains_of_lt hnearest.le hin⟩

theorem LeavesNoGap.complete (h : Sorted db) (hcomplete : db.Complete)
    (hfree : db.getLocation va = none) (hgap : db.LeavesNoGap va size) :
    (db.addLocation va size type).Complete := by
  have hsorted : Sorted (db.addLocation va size type) := h.addLocation
  have hnew : (⟨va, size, type⟩ : Location) ∈ db.addLocation va size type :=
    (mem_addLocation_iff h).mpr (.inl rfl)
  have hunclaimed : ¬ db.Claimed va := fun hclaimed =>
    Option.isSome_iff_ne_none.mp ((hcomplete va).mpr hclaimed) hfree
  refine fun v => ⟨claimed_of_isSome, ?_⟩
  rintro ⟨loc, hloc, hcontains⟩
  obtain ⟨nearest, hnearest⟩ := exists_nearest hsorted hloc hcontains.1
  refine isSome_of_nearest hsorted hnearest ?_
  obtain rfl | ⟨hmem, hne⟩ := (mem_addLocation_iff h).mp hnearest.mem
  · -- The new location is the nearest one: no other that contains `v` starts before it.
    obtain rfl | ⟨hloc', hne⟩ := (mem_addLocation_iff h).mp hloc
    · exact hcontains.lt hgap.1
    · have hle := hnearest.last loc hloc hcontains.1
      refine absurd ⟨loc, hloc', hle, ?_⟩ hunclaimed
      exact (UInt64.le_iff_toNat_le.mp hnearest.le).trans_lt hcontains.2
  · -- An old location is the nearest one, and was before.
    have hbefore : Nearest db v nearest := by
      refine ⟨hmem, hnearest.le, fun other hother hle => ?_⟩
      by_cases heq : other.va = va
      · rw [heq]
        exact hnearest.last _ hnew (heq ▸ hle)
      · exact hnearest.last other ((mem_addLocation_iff h).mpr (.inr ⟨hother, heq⟩)) hle
    have hclaimed : db.Claimed v := by
      obtain rfl | ⟨hloc', -⟩ := (mem_addLocation_iff h).mp hloc
      · exact hgap.2 nearest hmem (UInt64.lt_of_le_of_ne (hnearest.last _ hnew hcontains.1)
          (Ne.symm hne)) v hnearest.le hcontains.2
      · exact ⟨loc, hloc', hcontains⟩
    obtain ⟨found, hfound⟩ := Option.isSome_iff_exists.mp ((hcomplete v).mpr hclaimed)
    obtain ⟨hfound, hlt⟩ := (getLocation_eq_some_iff h).mp hfound
    exact hbefore.unique h hfound ▸ hlt

/-- **A new location** at an address that is not defined keeps the lookup complete if and only if it
leaves no gap. -/
theorem complete_addLocation_iff (h : Sorted db) (hcomplete : db.Complete)
    (hfree : db.getLocation va = none) :
    (db.addLocation va size type).Complete ↔ db.LeavesNoGap va size :=
  ⟨fun hadd => hadd.leavesNoGap h, fun hgap => hgap.complete h hcomplete hfree⟩

end LocationDb

end Papa.Viv
