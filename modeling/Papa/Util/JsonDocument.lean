import Papa.Util.JsonText

/-!
# Trees that are written

The calls that write a tree are never refused, and the bytes written are a JSON text whose value is
that of the tree. The induction is on the tree: where a value may begin, a tree may be written, and
afterwards the calls describe one value more.

## Main definitions

* `Doc.writable`: a tree that may be written wherever a value may begin.

## Main results

* `Doc.inductionOn`: induction on trees.
* `Doc.exists_run`: the text of a tree.
-/

namespace Papa.Util

open Json.Reader (settle)

/-- Induction on trees. -/
theorem Doc.inductionOn {motive : Doc → Prop} (scalar : ∀ v, motive (.scalar v))
    (array : ∀ items, (∀ d ∈ items, motive d) → motive (.array items))
    (object : ∀ members, (∀ m ∈ members, motive m.2) → motive (.object members)) (d : Doc) :
    motive d := by
  induction hn : sizeOf d using Nat.strong_induction_on generalizing d with
  | _ n ih =>
    subst hn
    cases d with
    | scalar v => exact scalar v
    | array items =>
      refine array items fun d hd => ih _ ?_ d rfl
      have := List.sizeOf_lt_of_mem hd
      simp only [Doc.array.sizeOf_spec]
      omega
    | object members =>
      refine object members fun m hm => ih _ ?_ m.2 rfl
      have h₁ := List.sizeOf_lt_of_mem hm
      have h₂ : sizeOf m.2 < sizeOf m := by
        obtain ⟨k, d⟩ := m
        simp only [Prod.mk.sizeOf_spec]
        omega
      simp only [Doc.object.sizeOf_spec]
      omega

theorem Doc.calls_scalar (v : Scalar) : (Doc.scalar v).calls = [.value v] := by rw [Doc.calls]

theorem Doc.json_scalar (v : Scalar) : (Doc.scalar v).json = v.json := by rw [Doc.json]

theorem Writer.run_append_of_run {w w' : Writer} {calls more : List Call}
    (h : w.run calls = .ok w') : w.run (calls ++ more) = w'.run more := by
  rw [Writer.run, List.foldlM_append]
  exact congrArg (· >>= fun u => u.run more) h

theorem Writer.run_cons_of_exec {w w' : Writer} {c : Call} {more : List Call}
    (h : w.exec c = .ok w') : w.run (c :: more) = w'.run more := by
  rw [Writer.run, List.foldlM_cons]
  exact congrArg (· >>= fun u => u.run more) h

/-- A tree that may be written wherever a value may begin. -/
def Doc.Writable (d : Doc) : Prop :=
  ∀ {w : Writer} {calls : List Call} {D : Described}, Describes w calls D → D.mayBegin →
    ∃ w', w.run d.calls = .ok w' ∧ Describes w' (calls ++ d.calls) (D.add d)

namespace Describes

variable {w : Writer} {calls : List Call} {D : Described} {root : Option Doc} {fs : List OpenDoc}

/-- The writer may begin a value where the calls say so. -/
theorem mayBegin (h : Describes w calls D) (hD : D.mayBegin) : w.MayBegin := by
  rintro ⟨hobject, hawait⟩
  rw [h.head?_stack] at hobject
  rw [h.awaiting] at hawait
  obtain ⟨root, frames⟩ := D
  cases frames with
  | nil => exact Context.noConfusion (Option.some.inj hobject)
  | cons f fs =>
    cases f with
    | array items => exact Context.noConfusion (Option.some.inj hobject)
    | object members key =>
      have hkey : key.isSome = true := hD
      have hnone : (!key.isSome) = true := hawait
      rw [hkey] at hnone
      exact Bool.noConfusion hnone

theorem root_of_mayBegin (hD : D.mayBegin) (hframes : D.frames = []) : D.root = none := by
  obtain ⟨root, frames⟩ := D
  obtain rfl : frames = [] := hframes
  exact Option.isNone_iff_eq_none.mp hD

theorem two_le_length_stack {f : OpenDoc} (h : Describes w calls ⟨root, f :: fs⟩) :
    2 ≤ w.stack.length := by
  rw [h.stack, List.length_append, List.length_map, List.length_cons, List.length_singleton]
  omega

/-- The values of an array. -/
theorem run_items {items : List Doc} (hitems : ∀ d ∈ items, d.Writable) {before : List Doc}
    (h : Describes w calls ⟨root, .array before :: fs⟩) :
    ∃ w', w.run (items.flatMap Doc.calls) = .ok w' ∧
      Describes w' (calls ++ items.flatMap Doc.calls) ⟨root, .array (before ++ items) :: fs⟩ := by
  induction items generalizing w calls before with
  | nil => exact ⟨w, rfl, by rwa [List.flatMap_nil, List.append_nil, List.append_nil]⟩
  | cons d items ih =>
    obtain ⟨u, hu, hdescribes⟩ := hitems d List.mem_cons_self h rfl
    obtain ⟨w', hw', hdescribes'⟩ :=
      ih (fun d hd => hitems d (List.mem_cons_of_mem _ hd)) hdescribes
    refine ⟨w', ?_, ?_⟩
    · rw [List.flatMap_cons, Writer.run_append_of_run hu, hw']
    · rw [List.flatMap_cons, ← List.append_assoc]
      rwa [List.append_assoc before [d] items] at hdescribes'

/-- The members of an object. -/
theorem run_members {members : List (Str × Doc)} (hmembers : ∀ m ∈ members, m.2.Writable)
    {before : List (Str × Doc)} (h : Describes w calls ⟨root, .object before none :: fs⟩) :
    ∃ w', w.run (memberCalls members) = .ok w' ∧
      Describes w' (calls ++ memberCalls members)
          ⟨root, .object (before ++ members) none :: fs⟩ := by
  induction members generalizing w calls before with
  | nil => exact ⟨w, rfl, by rwa [memberCalls, List.flatMap_nil, List.append_nil, List.append_nil]⟩
  | cons m members ih =>
    obtain ⟨k, d⟩ := m
    have hkey : w.exec (.key k) =
        .ok { w with out := w.out ++ w.keyText k, awaitingValue := true } :=
      Writer.key_eq_ok.mpr ⟨h.head?_stack, h.awaiting, rfl⟩
    obtain ⟨u, hu, hdescribes⟩ := hmembers (k, d) List.mem_cons_self (h.key k) rfl
    replace hdescribes : Describes u (calls ++ [.key k] ++ d.calls)
        ⟨root, .object (before ++ [(k, d)]) none :: fs⟩ := hdescribes
    obtain ⟨w', hw', hdescribes'⟩ :=
      ih (fun m hm => hmembers m (List.mem_cons_of_mem _ hm)) hdescribes
    have hcalls : memberCalls ((k, d) :: members) = .key k :: (d.calls ++ memberCalls members) := by
      rw [memberCalls, List.flatMap_cons]
      rfl
    refine ⟨w', ?_, ?_⟩
    · rw [hcalls, Writer.run_cons_of_exec hkey, Writer.run_append_of_run hu, hw']
    · rw [hcalls]
      rw [List.append_assoc calls, List.append_assoc calls] at hdescribes'
      rwa [List.append_assoc before [(k, d)] members] at hdescribes'

end Describes

/-- **Every tree may be written** wherever a value may begin. -/
theorem Doc.writable (d : Doc) : d.Writable := by
  induction d using Doc.inductionOn with
  | scalar v =>
    intro w calls D h hD
    have hvalue : w.value v.text = .ok _ := Writer.value_eq_ok.mpr ⟨h.mayBegin hD, rfl⟩
    rw [Doc.calls_scalar]
    refine ⟨_, ?_, h.value hvalue (Describes.root_of_mayBegin hD)⟩
    exact Writer.run_cons_of_exec ((w.exec_value v).trans hvalue)
  | array items ih =>
    intro w calls D h hD
    have hbegin : w.exec .beginArray = .ok _ :=
      Writer.beginContainer_eq_ok.mpr ⟨h.mayBegin hD, rfl⟩
    have hopen := h.beginContainer (f := .array []) hbegin (Describes.root_of_mayBegin hD)
      (.inl ⟨rfl, rfl⟩)
    obtain ⟨u, hu, hitems⟩ := hopen.run_items ih
    have hend : u.exec .endArray = .ok _ :=
      Writer.endArray_eq_ok.mpr ⟨hitems.two_le_length_stack, hitems.head?_stack, rfl⟩
    rw [Doc.calls_array]
    refine ⟨u.endContainer ']', ?_, ?_⟩
    · rw [List.cons_append, Writer.run_cons_of_exec hbegin, Writer.run_append_of_run hu]
      exact Writer.run_cons_of_exec hend
    · have hclosed := hitems.endContainer (f := .array ([] ++ items)) rfl
      rw [List.nil_append] at hclosed
      simpa only [OpenDoc.calls, OpenDoc.endCall, OpenDoc.close, OpenDoc.bracket,
        List.flatMap_nil, List.append_assoc, List.cons_append, List.nil_append] using hclosed
  | object members ih =>
    intro w calls D h hD
    have hbegin : w.exec .beginObject = .ok _ :=
      Writer.beginContainer_eq_ok.mpr ⟨h.mayBegin hD, rfl⟩
    have hopen := h.beginContainer (f := .object [] none) hbegin (Describes.root_of_mayBegin hD)
      (.inr ⟨rfl, rfl⟩)
    obtain ⟨u, hu, hmembers⟩ := hopen.run_members ih
    have hend : u.exec .endObject = .ok _ := Writer.endObject_eq_ok.mpr
      ⟨hmembers.two_le_length_stack, hmembers.head?_stack, hmembers.awaiting, rfl⟩
    rw [Doc.calls_object]
    refine ⟨u.endContainer '\x7d', ?_, ?_⟩
    · rw [List.cons_append, Writer.run_cons_of_exec hbegin, Writer.run_append_of_run hu]
      exact Writer.run_cons_of_exec hend
    · have hclosed := hmembers.endContainer (f := .object ([] ++ members) none) rfl
      rw [List.nil_append] at hclosed
      simpa only [OpenDoc.calls, OpenDoc.endCall, OpenDoc.close, OpenDoc.bracket, memberCalls,
        List.flatMap_nil, List.append_assoc, List.cons_append, List.nil_append, List.append_nil,
        Option.map_none, Option.toList_none] using hclosed

/-- **The text of a tree**: no call throws, and what is written is a JSON text whose value is that
of the tree. -/
theorem Doc.exists_run (d : Doc) (pretty : Bool) :
    ∃ w : Writer, Writer.run { pretty } d.calls = .ok w ∧ Json.parse w.out = some d.json := by
  obtain ⟨w, hw, h⟩ := d.writable (describes_start pretty) rfl
  refine ⟨w, hw, ?_⟩
  obtain ⟨r, hr, hsettle⟩ := h.reader
  have hresult : r.result = some d.json := by
    rw [Json.Reader.result, hsettle]
    rfl
  rw [Json.parse, hr, Option.bind_some, hresult]

end Papa.Util
