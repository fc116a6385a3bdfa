import Mathlib.Tactic.SplitIfs
import Papa.Emu.Memory

/-!
# What memory remembers

A sandboxed memory stands for a table of the last bytes written and not undone. As long as no range
that is written wraps and the overlay has room for every write, the overlay is that table, over any
sequence of writes, snapshots and restores: a write takes effect whole or not at all, and nothing
else changes.

## Main definitions

* `Written`, `Written.write`: the table.
* `Op`, `step`, `Written.step`: sequences of calls, and what they do to the table.
* `ClearRun`: every write of a run fits.

## Main results

* `Holds.write`: one write.
* `run_faithful`: runs.
-/

namespace Papa.Emu

/-! ### The table of the bytes written -/

/-- The last byte written at each address. -/
abbrev Written := UInt64 → Option UInt8

/-- Some map that is found for the first address holds a range and has a permission. -/
def Accessible (mem : SandboxMemory) (va : UInt64) (size : ℕ) (perm : UInt32) : Prop :=
  ∃ map, mem.findMap va = some map ∧ map.Holds va.toNat size ∧ map.perms &&& perm = perm

/-- A write takes effect when the range can be written, and then on every byte of it. -/
noncomputable def Written.write (mem : SandboxMemory) (va : UInt64) (bytes : List UInt8)
    (written : Written) : Written :=
  open Classical in
  if Accessible mem va bytes.length kMemWrite then
    fun a => if va.toNat ≤ a.toNat ∧ a.toNat < va.toNat + bytes.length then
      bytes[a.toNat - va.toNat]? else written a
  else written

/-- What is read of a range. -/
noncomputable def Written.read (mem : SandboxMemory) (va size : UInt64) (written : Written) :
    List UInt8 :=
  open Classical in
  if Accessible mem va size.toNat kMemRead then
    (List.range size.toNat).map fun i =>
      let a := va + UInt64.ofNat i
      (written a).getD ((mem.findMap va).elim 0 fun map => backingByte map a)
  else List.replicate size.toNat kTaintByte

/-- A memory stands for a table. -/
structure Holds (mem : SandboxMemory) (written : Written) : Prop where
  overlay : ∀ a, AssocList.get? a mem.overlay = written a
  length_le : mem.overlay.length ≤ mem.overlayCap

/-! ### One write -/

/-- How many addresses of a range are not in an overlay. -/
def newAddresses (overlay : List (UInt64 × UInt8)) (va : UInt64) (n : ℕ) : ℕ :=
  ((List.range n).filter fun i => (AssocList.get? (va + UInt64.ofNat i) overlay).isNone).length

/-- A write that passes the probe fits: its range does not wrap, the overlay has room for its new
addresses, and the map of the first address is that of every address. -/
def Fits (mem : SandboxMemory) (va : UInt64) (bytes : List UInt8) : Prop :=
  mem.probe va (UInt64.ofNat bytes.length) kMemWrite = true →
    va.toNat + bytes.length < 2 ^ 64 ∧
      mem.overlay.length + newAddresses mem.overlay va bytes.length ≤ mem.overlayCap ∧
      ∀ i < bytes.length, mem.findMap (va + UInt64.ofNat i) = mem.findMap va

theorem toNat_add_ofNat {va : UInt64} {i : ℕ} (h : va.toNat + i < 2 ^ 64) :
    (va + UInt64.ofNat i).toNat = va.toNat + i := by
  rw [UInt64.toNat_add, UInt64.toNat_ofNat', Nat.mod_eq_of_lt (a := i) (by omega),
    Nat.mod_eq_of_lt h]

/-- The first address of a range, and the others. -/
theorem newAddresses_succ (overlay : List (UInt64 × UInt8)) (va : UInt64) (n : ℕ) :
    newAddresses overlay va (n + 1) =
      (if (AssocList.get? va overlay).isSome then 0 else 1) + newAddresses overlay (va + 1) n := by
  have hshift (i : ℕ) : va + UInt64.ofNat (i + 1) = va + 1 + UInt64.ofNat i := by
    rw [UInt64.ofNat_add, UInt64.add_assoc, UInt64.add_comm (UInt64.ofNat i)]
    rfl
  have htail : ((List.map Nat.succ (List.range n)).filter fun i =>
      (AssocList.get? (va + UInt64.ofNat i) overlay).isNone).length =
        newAddresses overlay (va + 1) n := by
    rw [List.filter_map, List.length_map, newAddresses]
    congr 2
    funext i
    exact congrArg (fun a => (AssocList.get? a overlay).isNone) (hshift i)
  have hzero : va + UInt64.ofNat 0 = va := UInt64.add_zero va
  rw [newAddresses, List.range_succ_eq_map, List.filter_cons, hzero]
  cases h : AssocList.get? va overlay with
  | none => simp [htail, Nat.add_comm]
  | some b => simp [htail]

/-- New addresses stay new after a write elsewhere. -/
theorem newAddresses_upsert (overlay : List (UInt64 × UInt8)) (va : UInt64) (b : UInt8) {n : ℕ}
    (h : va.toNat + 1 + n < 2 ^ 64) :
    newAddresses (AssocList.upsert va b (fun _ => b) overlay) (va + 1) n =
      newAddresses overlay (va + 1) n := by
  unfold newAddresses
  congr 1
  refine List.filter_congr fun i hi => ?_
  have hlt : i < n := List.mem_range.mp hi
  have hone : (va + 1).toNat = va.toNat + 1 := toNat_add_ofNat (i := 1) (by omega)
  have hne : (va == va + 1 + UInt64.ofNat i) = false := by
    rw [beq_eq_false_iff_ne, ne_eq, ← UInt64.toNat_inj, toNat_add_ofNat (by omega), hone]
    omega
  rw [AssocList.get?_upsert_of_ne hne]

/-- A write for which there is room writes every byte and nothing else. -/
theorem writeLoop_spec {cap : ℕ} {bytes : List UInt8} {va : UInt64}
    (hwrap : va.toNat + bytes.length < 2 ^ 64) {overlay : List (UInt64 × UInt8)}
    (hroom : overlay.length + newAddresses overlay va bytes.length ≤ cap) :
    (writeLoop cap overlay va bytes).length ≤ cap ∧
      ∀ a, AssocList.get? a (writeLoop cap overlay va bytes) =
        if va.toNat ≤ a.toNat ∧ a.toNat < va.toNat + bytes.length then bytes[a.toNat - va.toNat]?
        else AssocList.get? a overlay := by
  induction bytes generalizing va overlay with
  | nil =>
    refine ⟨Nat.le_trans (Nat.le_add_right _ _) hroom, fun a => ?_⟩
    rw [if_neg (by rw [List.length_nil]; omega)]
    rfl
  | cons b bytes ih =>
    rw [List.length_cons] at hwrap hroom
    rw [newAddresses_succ] at hroom
    have hone : (va + 1).toNat = va.toNat + 1 := toNat_add_ofNat (i := 1) (by omega)
    have hcond : (AssocList.get? va overlay).isSome ∨ overlay.length < cap := by
      by_cases hsome : (AssocList.get? va overlay).isSome
      · exact .inl hsome
      · rw [if_neg hsome] at hroom
        exact .inr (by omega)
    obtain ⟨hlen, hget⟩ := @ih (va + 1) (by omega)
      (AssocList.upsert va b (fun _ => b) overlay) (by
        rw [newAddresses_upsert _ _ _ (by omega), AssocList.length_upsert]
        omega)
    rw [writeLoop, if_pos hcond]
    refine ⟨hlen, fun a => ?_⟩
    rw [hget a, hone, List.length_cons]
    by_cases hself : a = va
    · subst hself
      rw [if_neg (by omega), if_pos (by omega), AssocList.get?_upsert_self, Nat.sub_self]
      rfl
    · have hne : a.toNat ≠ va.toNat := fun h => hself (UInt64.toNat_inj.mp h)
      by_cases hin : va.toNat + 1 ≤ a.toNat ∧ a.toNat < va.toNat + 1 + bytes.length
      · rw [if_pos hin, if_pos (by omega)]
        have hindex : a.toNat - va.toNat = a.toNat - (va.toNat + 1) + 1 := by omega
        rw [hindex, List.getElem?_cons_succ]
      · rw [if_neg hin, if_neg (by omega),
          AssocList.get?_upsert_of_ne (beq_eq_false_iff_ne.mpr (Ne.symm hself))]

/-- What can be accessed passes the probe. -/
theorem Accessible.probe {mem : SandboxMemory} {va : UInt64} {n : ℕ} {perm : UInt32}
    (h : Accessible mem va n perm) :
    va.toNat + n < 2 ^ 64 ∧ mem.probe va (UInt64.ofNat n) perm = true := by
  obtain ⟨map, hmap, hholds, hperm⟩ := h
  obtain ⟨hlow, hva, hend⟩ := SandboxMemory.bounds_of_findMap hmap
  have hlt : va.toNat + n < 2 ^ 64 := by
    by_contra hge
    have := hholds (va.toNat + n - 1) (by omega) (by omega)
    omega
  have hn : (UInt64.ofNat n).toNat = n := by
    rw [UInt64.toNat_ofNat', Nat.mod_eq_of_lt (by omega)]
  refine ⟨hlt, (SandboxMemory.probe_iff (by rw [hn]; exact hlt) perm).mpr ⟨map, hmap, ?_, hperm⟩⟩
  rw [hn]
  exact hholds

/-- A probe of a range that does not wrap. -/
theorem probe_iff_accessible {mem : SandboxMemory} {va size : UInt64}
    (hwrap : va.toNat + size.toNat < 2 ^ 64) (perm : UInt32) :
    mem.probe va size perm = true ↔ Accessible mem va size.toNat perm :=
  SandboxMemory.probe_iff hwrap perm

/-- A write to a range that cannot be written does nothing. -/
theorem write_eq_self {mem : SandboxMemory} {va : UInt64} {bytes : List UInt8}
    (hfits : Fits mem va bytes) (hacc : ¬ Accessible mem va bytes.length kMemWrite) :
    mem.write va bytes = mem := by
  unfold SandboxMemory.write
  split_ifs with hnil hprobe
  · rfl
  · refine absurd ?_ hacc
    obtain ⟨hwrap, -⟩ := hfits hprobe
    have hn : (UInt64.ofNat bytes.length).toNat = bytes.length := by
      rw [UInt64.toNat_ofNat', Nat.mod_eq_of_lt (by omega)]
    have hrange := (probe_iff_accessible (by rw [hn]; exact hwrap) _).mp hprobe
    rwa [hn] at hrange
  · rfl

/-- **A write that fits** does to the table what it should. -/
theorem Holds.write {mem : SandboxMemory} {written : Written} (h : Holds mem written)
    {va : UInt64} {bytes : List UInt8} (hfits : Fits mem va bytes) :
    Holds (mem.write va bytes) (written.write mem va bytes) := by
  by_cases hacc : Accessible mem va bytes.length kMemWrite
  · obtain ⟨hwrap, hprobe⟩ := hacc.probe
    obtain ⟨-, hroom, -⟩ := hfits hprobe
    obtain ⟨hlen, hget⟩ := writeLoop_spec hwrap hroom
    have hwritten : (mem.write va bytes).overlay = writeLoop mem.overlayCap mem.overlay va bytes ∧
        (mem.write va bytes).overlayCap = mem.overlayCap := by
      unfold SandboxMemory.write
      cases bytes with
      | nil => exact ⟨rfl, rfl⟩
      | cons b bytes =>
        rw [List.isEmpty_cons, if_neg Bool.false_ne_true, if_pos hprobe]
        exact ⟨rfl, rfl⟩
    refine ⟨fun a => ?_, ?_⟩
    · rw [hwritten.1, hget a, Written.write, if_pos hacc]
      split_ifs
      · rfl
      · exact h.overlay a
    · rw [hwritten.1, hwritten.2]
      exact hlen
  · rw [write_eq_self hfits hacc, Written.write, if_neg hacc]
    exact h

/-! ### Runs -/

/-- The calls that change a memory. `restore` goes back to one of the snapshots taken, the first
being that of index 0. -/
inductive Op
  | write (va : UInt64) (bytes : List UInt8)
  | snapshot
  | restore (k : ℕ)

/-- A memory and the snapshots taken of it. -/
structure History where
  mem : SandboxMemory
  taken : List Snapshot := []

/-- One call. -/
def History.step (s : History) : Op → History
  | .write va bytes => { s with mem := s.mem.write va bytes }
  | .snapshot => { s with taken := s.taken ++ [s.mem.snapshot] }
  | .restore k => { s with mem := (s.taken[k]?).elim s.mem s.mem.restore }

/-- Calls one after the other. -/
def History.run (s : History) (ops : List Op) : History := ops.foldl History.step s

/-- A table and the tables saved. -/
structure Table where
  written : Written := fun _ => none
  taken : List Written := []

/-- What one call does to the table. -/
noncomputable def Table.step (mem : SandboxMemory) (t : Table) : Op → Table
  | .write va bytes => { t with written := t.written.write mem va bytes }
  | .snapshot => { t with taken := t.taken ++ [t.written] }
  | .restore k => { t with written := (t.taken[k]?).getD t.written }

/-- What calls do to the table. -/
noncomputable def Table.run (mem : SandboxMemory) (t : Table) (ops : List Op) : Table :=
  ops.foldl (Table.step mem) t

/-- Every write of a sequence of calls fits when it is made. -/
def ClearRun (s : History) : List Op → Prop
  | [] => True
  | op :: ops =>
    (match op with
      | .write va bytes => Fits s.mem va bytes
      | _ => True) ∧ ClearRun (s.step op) ops

/-- A memory over given maps and its snapshots stand for tables. -/
structure Faithful (mem : SandboxMemory) (s : History) (t : Table) : Prop where
  maps : s.mem.maps = mem.maps
  cap : s.mem.overlayCap = mem.overlayCap
  now : Holds s.mem t.written
  taken : List.Forall₂ (fun snap written => (∀ a, AssocList.get? a snap.overlay = written a) ∧
    snap.overlay.length ≤ mem.overlayCap) s.taken t.taken

theorem maps_write (mem : SandboxMemory) (va : UInt64) (bytes : List UInt8) :
    (mem.write va bytes).maps = mem.maps ∧
      (mem.write va bytes).overlayCap = mem.overlayCap := by
  unfold SandboxMemory.write
  split_ifs <;> exact ⟨rfl, rfl⟩

/-- What a range tells depends on the maps only. -/
theorem accessible_congr {mem mem' : SandboxMemory} (h : mem.maps = mem'.maps) (va : UInt64)
    (n : ℕ) (perm : UInt32) : Accessible mem va n perm ↔ Accessible mem' va n perm := by
  unfold Accessible SandboxMemory.findMap
  rw [h]

theorem Written.write_congr {mem mem' : SandboxMemory} (h : mem.maps = mem'.maps) (va : UInt64)
    (bytes : List UInt8) (written : Written) :
    written.write mem va bytes = written.write mem' va bytes := by
  have hiff := accessible_congr h va bytes.length kMemWrite
  unfold Written.write
  by_cases hacc : Accessible mem va bytes.length kMemWrite
  · rw [if_pos hacc, if_pos (hiff.mp hacc)]
  · rw [if_neg hacc, if_neg (mt hiff.mpr hacc)]

theorem Written.read_congr {mem mem' : SandboxMemory} (h : mem.maps = mem'.maps) (va size : UInt64)
    (written : Written) : written.read mem va size = written.read mem' va size := by
  have hiff := accessible_congr h va size.toNat kMemRead
  have hfind : mem.findMap va = mem'.findMap va := by
    rw [SandboxMemory.findMap, SandboxMemory.findMap, h]
  unfold Written.read
  by_cases hacc : Accessible mem va size.toNat kMemRead
  · rw [if_pos hacc, if_pos (hiff.mp hacc), hfind]
  · rw [if_neg hacc, if_neg (mt hiff.mpr hacc)]

/-- One call that fits. -/
theorem Faithful.step {mem : SandboxMemory} {s : History} {t : Table} (h : Faithful mem s t)
    {op : Op} (hop : match op with
      | .write va bytes => Fits s.mem va bytes
      | _ => True) : Faithful mem (s.step op) (t.step mem op) := by
  cases op with
  | write va bytes =>
    obtain ⟨hmaps, hcap⟩ := maps_write s.mem va bytes
    refine ⟨hmaps.trans h.maps, hcap.trans h.cap, ?_, h.taken⟩
    have hnow := h.now.write hop
    rwa [Written.write_congr h.maps] at hnow
  | snapshot =>
    refine ⟨h.maps, h.cap, h.now, List.rel_append h.taken (.cons ⟨h.now.overlay, ?_⟩ .nil)⟩
    exact h.cap ▸ h.now.length_le
  | restore k =>
    have hk := h.taken
    cases hs : s.taken[k]? with
    | none =>
      have ht : t.taken[k]? = none := by
        rw [List.getElem?_eq_none_iff] at hs ⊢
        rwa [← hk.length_eq]
      simp only [History.step, Table.step, hs, ht]
      exact h
    | some snap =>
      obtain ⟨hlt, hsnap⟩ := List.getElem?_eq_some_iff.mp hs
      have hlt' : k < t.taken.length := hk.length_eq ▸ hlt
      have ht : t.taken[k]? = some t.taken[k] := List.getElem?_eq_getElem hlt'
      obtain ⟨hget, hlen⟩ := hk.get hlt hlt'
      simp only [History.step, Table.step, hs, ht]
      rw [List.get_eq_getElem, hsnap] at hget hlen
      exact ⟨h.maps, h.cap, ⟨hget, h.cap.symm ▸ hlen⟩, h.taken⟩

theorem Faithful.run {mem : SandboxMemory} {s : History} {t : Table} (h : Faithful mem s t)
    {ops : List Op} (hclear : ClearRun s ops) : Faithful mem (s.run ops) (t.run mem ops) := by
  induction ops generalizing s t with
  | nil => exact h
  | cons op ops ih => exact ih (h.step hclear.1) hclear.2

/-- What is read of a memory that stands for a table. -/
theorem Holds.readBytes {mem : SandboxMemory} {written : Written} (h : Holds mem written)
    {va size : UInt64} (hwrap : va.toNat + size.toNat < 2 ^ 64) :
    mem.readBytes va size = written.read mem va size := by
  unfold SandboxMemory.readBytes Written.read
  by_cases hprobe : mem.probe va size kMemRead = true
  · have hacc := (probe_iff_accessible hwrap _).mp hprobe
    rw [if_pos hprobe, if_pos hacc]
    obtain ⟨map, hmap, -, -⟩ := hacc
    simp only [hmap, Option.elim_some, SandboxMemory.byteIn, h.overlay]
  · rw [if_neg hprobe, if_neg fun hacc => hprobe ((probe_iff_accessible hwrap _).mpr hacc)]

/-- The byte at an address: the one written, or that of the map that is found. -/
def SandboxMemory.contents (mem : SandboxMemory) (a : UInt64) : Option UInt8 :=
  (mem.findMap a).map fun map => mem.byteIn map a

theorem contents_congr {mem mem' : SandboxMemory} (hmaps : mem'.maps = mem.maps) {a : UInt64}
    (h : AssocList.get? a mem'.overlay = AssocList.get? a mem.overlay) :
    mem'.contents a = mem.contents a := by
  unfold SandboxMemory.contents SandboxMemory.findMap SandboxMemory.byteIn
  rw [hmaps, h]

/-- A write is whole, or it changes nothing. -/
structure WholeOrNothing (mem : SandboxMemory) (va : UInt64) (bytes : List UInt8) : Prop where
  whole : (∀ i, ∀ h : i < bytes.length,
      (mem.write va bytes).contents (va + UInt64.ofNat i) = some (bytes.get ⟨i, h⟩)) ∨
    mem.write va bytes = mem
  frame : ∀ a, (mem.write va bytes).contents a ≠ mem.contents a →
    va.toNat ≤ a.toNat ∧ a.toNat < va.toNat + bytes.length ∧ mem.findMap a = mem.findMap va ∧
      ∃ map, mem.findMap a = some map ∧ map.perms &&& kMemWrite = kMemWrite

theorem Holds.wholeOrNothing {mem : SandboxMemory} {written : Written} (h : Holds mem written)
    {va : UInt64} {bytes : List UInt8} (hfits : Fits mem va bytes) :
    WholeOrNothing mem va bytes := by
  obtain ⟨hmaps, -⟩ := maps_write mem va bytes
  have hget := (h.write hfits).overlay
  unfold Written.write at hget
  by_cases hacc : Accessible mem va bytes.length kMemWrite
  · rw [if_pos hacc] at hget
    obtain ⟨hwrap, hprobe⟩ := hacc.probe
    obtain ⟨-, -, halone⟩ := hfits hprobe
    obtain ⟨map, hmap, hholds, hperm⟩ := hacc
    refine ⟨.inl fun i hi => ?_, fun a ha => ?_⟩
    · have hfind : (mem.write va bytes).findMap (va + UInt64.ofNat i) = some map := by
        rw [SandboxMemory.findMap, hmaps, ← hmap, ← halone i hi]
        rfl
      have hindex : va.toNat + i - va.toNat = i := Nat.add_sub_cancel_left _ _
      rw [SandboxMemory.contents, hfind, Option.map_some, SandboxMemory.byteIn, hget,
        toNat_add_ofNat (by omega), if_pos ⟨Nat.le_add_right _ _, by omega⟩, hindex,
        List.getElem?_eq_getElem hi]
      rfl
    · by_cases hin : va.toNat ≤ a.toNat ∧ a.toNat < va.toNat + bytes.length
      · have hindex : va + UInt64.ofNat (a.toNat - va.toNat) = a := by
          rw [← UInt64.toNat_inj, toNat_add_ofNat (by have := a.toNat_lt; omega)]
          omega
        have hsame : mem.findMap a = mem.findMap va := hindex ▸ halone _ (by omega)
        exact ⟨hin.1, hin.2, hsame, map, hsame.trans hmap, hperm⟩
      · refine absurd (contents_congr hmaps ?_) ha
        rw [hget a, if_neg hin, h.overlay a]
  · have hsame := write_eq_self hfits hacc
    exact ⟨.inr hsame, fun a ha => absurd (by rw [hsame]) ha⟩

/-- **Runs.** When every write of a run fits, the overlay stays within its cap, a range that does
not wrap is probed and read as the table of the run tells, and the next write that fits is whole or
changes nothing. A probe is wrong exactly for a range that wraps. -/
theorem run_faithful (maps : List Map) (overlayCap : ℕ) (ops : List Op)
    (hclear : ClearRun { mem := { maps, overlayCap } } ops) :
    let start : SandboxMemory := { maps, overlayCap }
    let mem := (History.run { mem := start } ops).mem
    let written := (Table.run start {} ops).written
    mem.overlay.length ≤ overlayCap ∧
      (∀ va size perm, (mem.probe va size perm = true ↔ Accessible start va size.toNat perm) ↔
        (va.toNat + size.toNat < 2 ^ 64 ∨
          ∀ map, start.findMap va = some map → map.perms &&& perm ≠ perm)) ∧
      (∀ va size, va.toNat + size.toNat < 2 ^ 64 →
        mem.readBytes va size = written.read start va size) ∧
      ∀ va bytes, Fits mem va bytes → WholeOrNothing mem va bytes := by
  intro start mem written
  have hstart : Faithful start { mem := start } {} :=
    ⟨rfl, rfl, ⟨fun _ => rfl, Nat.zero_le _⟩, .nil⟩
  have h : Faithful start (History.run { mem := start } ops) (Table.run start {} ops) :=
    hstart.run hclear
  have hfind (va : UInt64) : mem.findMap va = start.findMap va := by
    rw [SandboxMemory.findMap, h.maps]
    rfl
  refine ⟨Nat.le_trans h.now.length_le (Nat.le_of_eq h.cap), fun va size perm => ?_,
    fun va size hwrap => (h.now.readBytes hwrap).trans (Written.read_congr h.maps va size _),
    fun va bytes hfits => h.now.wholeOrNothing hfits⟩
  · rw [← accessible_congr h.maps]
    by_cases hwrap : va.toNat + size.toNat < 2 ^ 64
    · exact iff_of_true (probe_iff_accessible hwrap perm) (.inl hwrap)
    rw [or_iff_right hwrap]
    constructor
    · intro hiff map hmap hperm
      have hprobe : mem.probe va size perm = true :=
        (SandboxMemory.probe_of_wraps (Nat.le_of_not_lt hwrap) ((hfind va).trans hmap) hperm).1
      exact hwrap (hiff.mp hprobe).probe.1
    · intro hnone
      refine iff_of_false (fun hprobe => ?_) fun hacc => hwrap hacc.probe.1
      unfold SandboxMemory.probe at hprobe
      rw [show (History.run { mem := start } ops).mem.findMap va = start.findMap va from
        hfind va] at hprobe
      cases hmap : start.findMap va with
      | none =>
        rw [hmap] at hprobe
        exact Bool.false_ne_true hprobe
      | some map =>
        rw [hmap] at hprobe
        dsimp only at hprobe
        split_ifs at hprobe
        exact hnone map hmap (eq_of_beq hprobe)

/-- One map that can be read and written. -/
def oneMap : List Map := [⟨0x1000, 0x1000, kMemRead ||| kMemWrite, [], false⟩]

theorem run_faithful_oneMap :
    WholeOrNothing (History.run { mem := { maps := oneMap, overlayCap := 4 } }
      [.write 0x1000 [1, 2]]).mem 0x1001 [3, 4] :=
  (run_faithful oneMap 4 [.write 0x1000 [1, 2]] ⟨fun _ => by decide, trivial⟩).2.2.2 0x1001 [3, 4]
    fun _ => by decide

/-- With room for one address, the first byte of two is written; and a range of nearly all addresses
passes the probe of a map of one page. -/
theorem write_cut_and_probe_wraps :
    (({ maps := oneMap, overlayCap := 1 } : SandboxMemory).write 0x1000 [1, 2]).readBytes 0x1000 2 =
        [1, kStackFill] ∧
      ({ maps := oneMap } : SandboxMemory).probe 0x1800 0xFFFFFFFFFFFFF800 kMemRead = true ∧
      ¬ Accessible { maps := oneMap } 0x1800 0xFFFFFFFFFFFFF800 kMemRead := by
  refine ⟨by decide, by decide, fun h => ?_⟩
  obtain ⟨hwrap, -⟩ := h.probe
  revert hwrap
  decide

end Papa.Emu
