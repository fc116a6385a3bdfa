import Mathlib.Data.List.Infix
import Papa.Util.RequiredLiteral

/-!
# References to ATT&CK and MBC

A rule refers to a technique by a text such as `A::B [id]`. The parts stand between the separators,
and the identifier behind the last space of the last part, without the brackets around it.

## Main definitions

* `parsePartsId`: the parts and the identifier of a text.
* `attackFromString`, `mbcFromString`: the references of the report.
* `specText`: the text of parts and an identifier.

## Main results

* `splitParts_eq_iff`: the parts of a text.
* `stripBrackets_eq`: the brackets around an identifier.
* `parsePartsId_specText_iff`: the parts and identifiers that are read back from their text.
-/

namespace Papa.Render

/-! ### The source -/

/-- The separator of parts. -/
def kPartSep : Str := str "::"

/-- The loop over the separators. -/
def splitLoop : (todo : ℕ) → Str → List Str
  | 0, s => [s]
  | todo + 1, s =>
    match s.findStr kPartSep with
    | none => [s]
    | some sep => s.take sep :: splitLoop todo (s.drop (sep + 2))

/-- The parts of a text. Each turn of the loop shortens what is left. -/
def splitParts (s : Str) : List Str := splitLoop s.length s

/-- A text without the brackets around it. Where there are only closing brackets, `b` is `npos`,
which is `-1`, and the length wraps to 0. -/
def stripBrackets (tail : Str) : Str :=
  match tail.findIdx? (· ≠ ch '[') with
  | none => []
  | some a =>
    let b : ℤ := match tail.reverse.findIdx? (· ≠ ch ']') with
      | none => -1
      | some j => (tail.length - 1 - j : ℕ)
    (tail.drop a).take (b - a + 1).toNat

/-- What stands before and behind the last space, or nothing and everything. -/
def rpartition (last : Str) : Str × Str :=
  match last.rfind (ch ' ') with
  | some sp => (last.take sp, last.drop (sp + 1))
  | none => ([], last)

/-- `parse_parts_id`. -/
def parsePartsId (s : Str) : List Str × Str :=
  let parts := splitParts s
  match parts.getLast? with
  | none => (parts, [])
  | some last =>
    let (head, tail) := rpartition last
    (parts.dropLast ++ [head], stripBrackets tail)

/-- `part_at`. -/
def partAt (parts : List Str) (i : ℕ) : Str := (parts[i]?).getD []

/-- A reference to an ATT&CK technique. -/
structure AttackSpec where
  parts : List Str
  tactic : Str
  technique : Str
  subtechnique : Str
  id : Str

/-- A reference to an MBC behavior. -/
structure MbcSpec where
  parts : List Str
  objective : Str
  behavior : Str
  method : Str
  id : Str

/-- `attack_from_string`. -/
def attackFromString (s : Str) : AttackSpec :=
  let (parts, id) := parsePartsId s
  { parts, id, tactic := partAt parts 0, technique := partAt parts 1,
    subtechnique := partAt parts 2 }

/-- `mbc_from_string`. -/
def mbcFromString (s : Str) : MbcSpec :=
  let (parts, id) := parsePartsId s
  { parts, id, objective := partAt parts 0, behavior := partAt parts 1, method := partAt parts 2 }

/-! ### Parts -/

/-- A part that ends where the separator behind it begins. -/
def Ended (p : Str) : Prop := ¬kPartSep <:+: p ∧ p.getLast? ≠ some (ch ':')

theorem prefix_kPartSep_iff {s : Str} :
    kPartSep <+: s ↔ s.head? = some (ch ':') ∧ s.tail.head? = some (ch ':') := by
  have hsep : kPartSep = [ch ':', ch ':'] := rfl
  rw [hsep]
  match s with
  | [] => simp
  | [a] => simp [List.cons_prefix_cons]
  | a :: b :: s => simp [List.cons_prefix_cons, eq_comm]

theorem ended_cons_iff {c : UInt8} {p : Str} :
    Ended (c :: p) ↔ ¬kPartSep <+: c :: p ++ kPartSep ∧ Ended p := by
  unfold Ended
  rw [List.infix_cons_iff, prefix_kPartSep_iff, prefix_kPartSep_iff]
  cases p with
  | nil =>
    simp [kPartSep, str, List.getLast?_singleton]
  | cons d p =>
    rw [List.getLast?_cons_cons]
    simp only [List.cons_append, List.head?_cons, List.tail_cons]
    tauto

/-- The separator is found behind a part. -/
theorem findStr_append_sep {p : Str} (hp : Ended p) (rest : Str) :
    (p ++ kPartSep ++ rest).findStr kPartSep = some p.length := by
  induction p with
  | nil =>
    have hprefix : kPartSep.isPrefixOf (kPartSep ++ rest) = true :=
      List.isPrefixOf_iff_prefix.mpr (List.prefix_append _ _)
    rw [List.nil_append, Str.findStr.eq_def, if_pos hprefix]
    rfl
  | cons c p ih =>
    obtain ⟨hfirst, hp⟩ := ended_cons_iff.mp hp
    have hnot : ¬kPartSep.isPrefixOf (c :: (p ++ kPartSep ++ rest)) = true := by
      rw [List.isPrefixOf_iff_prefix]
      refine fun h => hfirst (List.prefix_of_prefix_length_le h ⟨rest, by simp⟩ ?_)
      rw [List.length_append]
      exact Nat.le_add_left _ _
    rw [List.cons_append, List.cons_append, Str.findStr, if_neg hnot, ih hp, Option.map_some,
      List.length_cons]

/-- The separator that is found first. -/
theorem exists_of_findStr {s : Str} {i : ℕ} (h : s.findStr kPartSep = some i) :
    ∃ p rest, s = p ++ kPartSep ++ rest ∧ Ended p ∧ p.length = i := by
  induction s generalizing i with
  | nil =>
    have hnone : Str.findStr [] kPartSep = none := by decide
    exact absurd (hnone.symm.trans h) (Option.some_ne_none i).symm
  | cons c s ih =>
    rw [Str.findStr] at h
    split_ifs at h with hprefix
    · obtain ⟨rest, hrest⟩ := List.isPrefixOf_iff_prefix.mp hprefix
      exact ⟨[], rest, hrest.symm, ⟨by decide, by simp⟩, Option.some.inj h⟩
    · obtain ⟨j, hj, rfl⟩ := Option.map_eq_some_iff.mp h
      obtain ⟨p, rest, rfl, hp, rfl⟩ := ih hj
      refine ⟨c :: p, rest, rfl, ended_cons_iff.mpr ⟨fun h => hprefix ?_, hp⟩, rfl⟩
      rw [List.isPrefixOf_iff_prefix]
      exact h.trans ⟨rest, by simp⟩

theorem findStr_eq_none_iff {s : Str} : s.findStr kPartSep = none ↔ ¬kPartSep <:+: s := by
  rw [← Util.findStr_isSome_iff, Option.not_isSome_iff_eq_none]

/-- The parts of a text: all but the last one end before a separator, and the last one has none. -/
structure IsParts (parts : List Str) : Prop where
  ne_nil : parts ≠ []
  ended : ∀ p ∈ parts.dropLast, Ended p
  last : ∀ p ∈ parts.getLast?, ¬kPartSep <:+: p

theorem isParts_singleton_iff {p : Str} : IsParts [p] ↔ ¬kPartSep <:+: p :=
  ⟨fun h => h.last p rfl, fun h => ⟨List.cons_ne_nil _ _, fun _ hq => absurd hq List.not_mem_nil,
    fun _ hq => Option.mem_some_iff.mp hq ▸ h⟩⟩

theorem isParts_cons_iff {p : Str} {parts : List Str} (hne : parts ≠ []) :
    IsParts (p :: parts) ↔ Ended p ∧ IsParts parts := by
  obtain ⟨q, parts, rfl⟩ := List.exists_cons_of_ne_nil hne
  constructor
  · intro h
    refine ⟨h.ended p List.mem_cons_self, hne, fun r hr => h.ended r ?_, fun r hr => h.last r ?_⟩
    · exact List.mem_cons_of_mem _ hr
    · rwa [List.getLast?_cons_cons]
  · rintro ⟨hp, h⟩
    refine ⟨List.cons_ne_nil _ _, fun r hr => ?_, fun r hr => h.last r ?_⟩
    · rcases List.mem_cons.mp hr with rfl | hr
      · exact hp
      · exact h.ended r hr
    · rwa [List.getLast?_cons_cons] at hr

theorem splitLoop_eq_iff {todo : ℕ} {s : Str} {parts : List Str} (htodo : s.length ≤ todo) :
    splitLoop todo s = parts ↔ List.intercalate kPartSep parts = s ∧ IsParts parts := by
  induction todo generalizing s parts with
  | zero =>
    obtain rfl := List.eq_nil_of_length_eq_zero (Nat.le_zero.mp htodo)
    rw [splitLoop]
    constructor
    · rintro rfl
      exact ⟨List.intercalate_singleton, isParts_singleton_iff.mpr (by decide)⟩
    · rintro ⟨hjoin, hparts⟩
      match parts with
      | [] => exact absurd rfl hparts.ne_nil
      | [p] => rw [← hjoin, List.intercalate_singleton]
      | p :: q :: parts =>
        rw [List.intercalate_cons_cons, List.append_eq_nil_iff, List.append_eq_nil_iff] at hjoin
        exact absurd hjoin.1.2 (by decide)
  | succ todo ih =>
    rw [splitLoop]
    cases hfind : s.findStr kPartSep with
    | none =>
      have hnone := findStr_eq_none_iff.mp hfind
      dsimp only
      constructor
      · rintro rfl
        exact ⟨List.intercalate_singleton, isParts_singleton_iff.mpr hnone⟩
      · rintro ⟨rfl, hparts⟩
        match parts with
        | [] => exact absurd rfl hparts.ne_nil
        | [p] => rw [List.intercalate_singleton]
        | p :: q :: parts =>
          refine absurd ?_ hnone
          rw [List.intercalate_cons_cons]
          exact List.infix_append _ _ _
    | some sep =>
      obtain ⟨p, rest, rfl, hp, rfl⟩ := exists_of_findStr hfind
      have htake : (p ++ kPartSep ++ rest).take p.length = p := by simp
      have hdrop : (p ++ kPartSep ++ rest).drop (p.length + 2) = rest := by
        have hlength : p.length + 2 = (p ++ kPartSep).length := by rw [List.length_append]; rfl
        rw [hlength, List.drop_left]
      have hrest : rest.length ≤ todo := by
        have hsep : kPartSep.length = 2 := rfl
        simp only [List.length_append] at htodo
        omega
      dsimp only
      rw [htake, hdrop]
      constructor
      · rintro rfl
        obtain ⟨hjoin, hparts⟩ := (ih hrest).mp rfl
        refine ⟨?_, (isParts_cons_iff hparts.ne_nil).mpr ⟨hp, hparts⟩⟩
        obtain ⟨q, qs, hq⟩ := List.exists_cons_of_ne_nil hparts.ne_nil
        rw [hq] at hjoin ⊢
        rw [List.intercalate_cons_cons, hjoin]
      · rintro ⟨hjoin, hparts⟩
        match parts with
        | [] => exact absurd rfl hparts.ne_nil
        | [q] =>
          rw [List.intercalate_singleton] at hjoin
          refine absurd ?_ (hjoin ▸ isParts_singleton_iff.mp hparts)
          exact List.infix_append _ _ _
        | q :: q' :: parts =>
          obtain ⟨hq, hparts⟩ := (isParts_cons_iff (List.cons_ne_nil _ _)).mp hparts
          rw [List.intercalate_cons_cons] at hjoin
          have hlength : p.length = q.length := by
            have hfirst := findStr_append_sep hq (List.intercalate kPartSep (q' :: parts))
            rw [hjoin, findStr_append_sep hp] at hfirst
            exact Option.some.inj hfirst
          rw [List.append_assoc, List.append_assoc] at hjoin
          obtain ⟨rfl, htail⟩ := List.append_inj hjoin hlength.symm
          rw [(ih hrest).mpr ⟨List.append_cancel_left htail, hparts⟩]

/-- **The parts of a text** are those that put together with the separator are the text. -/
theorem splitParts_eq_iff {s : Str} {parts : List Str} :
    splitParts s = parts ↔ List.intercalate kPartSep parts = s ∧ IsParts parts :=
  splitLoop_eq_iff le_rfl

/-! ### Identifiers -/

/-- Trimming passes over what it removes. -/
theorem rdropWhile_append_of_forall {f : UInt8 → Bool} {s t : Str} (ht : ∀ d ∈ t, f d) :
    (s ++ t).rdropWhile f = s.rdropWhile f := by
  unfold List.rdropWhile
  rw [List.reverse_append, List.dropWhile_append_of_pos fun d hd => ht d (List.mem_reverse.mp hd)]

/-- The last byte that differs from the trailing ones. -/
theorem findIdx?_reverse_ne {c : UInt8} {s t : Str} (hne : s ≠ []) (hs : s.getLast? ≠ some c)
    (ht : ∀ d ∈ t, d = c) : (s ++ t).reverse.findIdx? (· ≠ c) = some t.length := by
  have hnone : t.reverse.findIdx? (· ≠ c) = none :=
    List.findIdx?_eq_none_iff.mpr fun d hd => by simpa using ht d (List.mem_reverse.mp hd)
  obtain ⟨front, x, rfl⟩ := (List.eq_nil_or_concat' s).resolve_left hne
  rw [List.getLast?_append, List.getLast?_singleton, Option.some_or] at hs
  have hx : decide (x ≠ c) = true := decide_eq_true fun heq => hs (congrArg some heq)
  rw [List.reverse_append, List.findIdx?_append, hnone, List.reverse_append, List.reverse_singleton,
    List.singleton_append, List.findIdx?_cons, if_pos hx, Option.none_or, List.length_reverse]
  simp

/-- **The brackets around an identifier** are removed: the opening ones in front, then the closing
ones behind. -/
theorem stripBrackets_eq (tail : Str) :
    stripBrackets tail = (tail.dropWhile (· = ch '[')).rdropWhile (· = ch ']') := by
  have hdrop : tail.dropWhile (· = ch '[') = tail.drop (tail.findIdx (· ≠ ch '[')) := by
    rw [List.dropWhile_eq_drop_findIdx_not]
    simp only [decide_not]
  unfold stripBrackets
  cases hfind : tail.findIdx? (· ≠ ch '[') with
  | none =>
    rw [hdrop, List.findIdx?_eq_none_iff_findIdx_eq.mp hfind, List.drop_length]
    rfl
  | some a =>
    obtain ⟨ha, ha'⟩ := List.findIdx?_eq_some_iff_findIdx_eq.mp hfind
    have hopen : ∀ i < a, tail[i]? ≠ some (ch ']') := by
      intro i hi hclose
      have hnot := List.not_of_lt_findIdx (ha'.symm ▸ hi)
      obtain ⟨hlt, hget⟩ := List.getElem?_eq_some_iff.mp hclose
      rw [hget] at hnot
      exact absurd hnot (by decide)
    rw [hdrop, ha']
    dsimp only
    -- What stands in front of the closing brackets.
    set front := tail.rdropWhile (· = ch ']')
    set closes := tail.rtakeWhile (· = ch ']')
    have htail : tail = front ++ closes := List.rdropWhile_append_rtakeWhile.symm
    have hcloses : ∀ d ∈ closes, d = ch ']' := fun d hd =>
      of_decide_eq_true (List.mem_rtakeWhile_imp (p := (· = ch ']')) hd)
    by_cases hfront : front = []
    · have hall : ∀ d ∈ tail, d = ch ']' := by rwa [htail, hfront, List.nil_append]
      have hnone : tail.reverse.findIdx? (· ≠ ch ']') = none :=
        List.findIdx?_eq_none_iff.mpr fun d hd => by simpa using hall d (List.mem_reverse.mp hd)
      have hzero : ((-1 : ℤ) - a + 1).toNat = 0 := by omega
      rw [hnone]
      dsimp only
      rw [hzero, List.take_zero, eq_comm, List.rdropWhile_eq_nil_iff]
      exact fun d hd => decide_eq_true (hall d (List.mem_of_mem_drop hd))
    · have hlast : front.getLast? ≠ some (ch ']') := by
        rw [List.getLast?_eq_some_getLast hfront]
        intro heq
        exact List.rdropWhile_last_not _ _ hfront (decide_eq_true (Option.some.inj heq))
      have hle : a ≤ front.length := by
        by_contra hgt
        have hget : tail[front.length]? = some (ch ']') := by
          have hlt : 0 < closes.length := by
            have := congrArg List.length htail
            rw [List.length_append] at this
            omega
          rw [htail, List.getElem?_append_right le_rfl, Nat.sub_self, List.getElem?_eq_getElem hlt,
            hcloses _ (List.getElem_mem hlt)]
        exact hopen _ (Nat.not_le.mp hgt) hget
      have hcount : (((tail.length - 1 - closes.length : ℕ) : ℤ) - a + 1).toNat =
          (front.drop a).length := by
        have hpos := List.length_pos_iff.mpr hfront
        have hlength := congrArg List.length htail
        rw [List.length_append] at hlength
        rw [List.length_drop]
        omega
      have hsuffix : tail.drop a = front.drop a ++ closes := by
        rw [htail, List.drop_append_of_le_length hle]
      have hself : (front.drop a).rdropWhile (· = ch ']') = front.drop a := by
        refine List.rdropWhile_eq_self_iff.mpr fun hne heq => hlast ?_
        rw [List.getLast?_eq_some_getLast hfront, ← List.getLast_drop hne,
          of_decide_eq_true heq]
      have hfind : tail.reverse.findIdx? (· ≠ ch ']') = some closes.length := by
        rw [htail]
        exact findIdx?_reverse_ne hfront hlast hcloses
      rw [hfind]
      dsimp only
      rw [hcount, hsuffix, List.take_left, rdropWhile_append_of_forall, hself]
      exact fun d hd => decide_eq_true (hcloses d hd)

theorem head?_stripBrackets (tail : Str) : (stripBrackets tail).head? ≠ some (ch '[') := by
  rw [stripBrackets_eq]
  intro heq
  obtain ⟨rest, hrest⟩ := List.rdropWhile_prefix (· = ch ']') (tail.dropWhile (· = ch '['))
  have hhead : (tail.dropWhile (· = ch '[')).head? = some (ch '[') := by
    rw [← hrest, List.head?_append, heq, Option.some_or]
  have hnot := List.head?_dropWhile_not (· = ch '[') tail
  rw [hhead] at hnot
  exact absurd hnot (by decide)

theorem getLast?_stripBrackets (tail : Str) : (stripBrackets tail).getLast? ≠ some (ch ']') := by
  rw [stripBrackets_eq]
  intro heq
  have hne : (tail.dropWhile (· = ch '[')).rdropWhile (· = ch ']') ≠ [] := fun hnil =>
    (Option.some_ne_none (ch ']')) (heq.symm.trans (hnil ▸ List.getLast?_nil))
  rw [List.getLast?_eq_some_getLast hne] at heq
  exact List.rdropWhile_last_not _ _ hne (decide_eq_true (Option.some.inj heq))

/-- An identifier is read back from between brackets. -/
theorem stripBrackets_brackets {id : Str} (hhead : id.head? ≠ some (ch '['))
    (hlast : id.getLast? ≠ some (ch ']')) : stripBrackets (ch '[' :: id ++ [ch ']']) = id := by
  have hopen : (ch '[' :: id ++ [ch ']']).dropWhile (· = ch '[') = id ++ [ch ']'] := by
    rw [List.cons_append, List.dropWhile_cons_of_pos (by decide)]
    refine List.dropWhile_eq_self_iff.mpr fun hpos => ?_
    cases id with
    | nil => exact of_decide_eq_false rfl
    | cons c id => simpa using fun heq => hhead (congrArg some heq)
  rw [stripBrackets_eq, hopen, List.rdropWhile_concat_pos _ _ _ (by decide)]
  refine List.rdropWhile_eq_self_iff.mpr fun hne heq => hlast ?_
  rw [List.getLast?_eq_some_getLast hne, of_decide_eq_true heq]

/-! ### Texts that are read back -/

/-- The text of parts and an identifier. -/
def specText (parts : List Str) (id : Str) : Str :=
  List.intercalate kPartSep parts ++ (ch ' ' :: ch '[' :: id ++ [ch ']'])

/-- Parts and an identifier whose text tells them apart: only the last part may end with half a
separator. -/
structure Readable (parts : List Str) (id : Str) : Prop where
  isParts : IsParts parts
  separator : ¬kPartSep <:+: id
  space : ch ' ' ∉ id
  head : id.head? ≠ some (ch '[')
  last : id.getLast? ≠ some (ch ']')

/-- The text behind a last part. -/
theorem intercalate_append_last (init : List Str) (last text : Str) :
    List.intercalate kPartSep (init ++ [last]) ++ text =
      List.intercalate kPartSep (init ++ [last ++ text]) := by
  induction init with
  | nil => rw [List.nil_append, List.nil_append, List.intercalate_singleton,
      List.intercalate_singleton]
  | cons p init ih =>
    have hcons (x : Str) : List.intercalate kPartSep (p :: init ++ [x]) =
        p ++ kPartSep ++ List.intercalate kPartSep (init ++ [x]) := by
      cases init <;> exact List.intercalate_cons_cons
    rw [hcons, hcons, List.append_assoc, ih]

theorem eq_of_intercalate_eq {init : List Str} {x y : Str}
    (h : List.intercalate kPartSep (init ++ [x]) = List.intercalate kPartSep (init ++ [y])) :
    x = y := by
  have hempty (z : Str) : List.intercalate kPartSep (init ++ [z]) =
      List.intercalate kPartSep (init ++ [[]]) ++ z := by
    rw [intercalate_append_last, List.nil_append]
  rw [hempty x, hempty y] at h
  exact List.append_cancel_left h

theorem isParts_concat_iff {init : List Str} {last : Str} :
    IsParts (init ++ [last]) ↔ (∀ p ∈ init, Ended p) ∧ ¬kPartSep <:+: last := by
  have hgetLast : (init ++ [last]).getLast? = some last := List.getLast?_concat
  constructor
  · intro h
    refine ⟨fun p hp => h.ended p ?_, h.last last hgetLast⟩
    rwa [List.dropLast_concat]
  · rintro ⟨hended, hlast⟩
    refine ⟨List.append_ne_nil_of_right_ne_nil _ (List.cons_ne_nil _ _), fun p hp => ?_, ?_⟩
    · rw [List.dropLast_concat] at hp
      exact hended p hp
    · intro p hp
      rw [hgetLast] at hp
      exact Option.mem_some_iff.mp hp ▸ hlast

/-- A separator does not reach over what stands around an identifier. -/
theorem kPartSep_infix_iff {last id : Str} :
    kPartSep <:+: last ++ (ch ' ' :: ch '[' :: id ++ [ch ']']) ↔
      kPartSep <:+: last ∨ kPartSep <:+: id := by
  have hid : kPartSep <:+: id ++ [ch ']'] ↔ kPartSep <:+: id := by
    induction id with
    | nil => decide
    | cons c id ih =>
      rw [List.cons_append, List.infix_cons_iff, List.infix_cons_iff, ih, prefix_kPartSep_iff,
        prefix_kPartSep_iff]
      cases id with
      | nil =>
        have hclose : ch ']' ≠ ch ':' := by decide
        simp [hclose]
      | cons d id => rfl
  have hopen : kPartSep <:+: ch ' ' :: ch '[' :: id ++ [ch ']'] ↔ kPartSep <:+: id := by
    rw [List.cons_append, List.cons_append, List.infix_cons_iff, List.infix_cons_iff, hid,
      prefix_kPartSep_iff, prefix_kPartSep_iff]
    simp only [List.head?_cons, Option.some.injEq]
    have h₁ : ch ' ' ≠ ch ':' := by decide
    have h₂ : ch '[' ≠ ch ':' := by decide
    tauto
  induction last with
  | nil =>
    have hnil : ¬kPartSep <:+: ([] : Str) := by decide
    rw [List.nil_append, hopen, or_iff_right hnil]
  | cons c last ih =>
    have hwhole : kPartSep <:+: c :: last ↔ kPartSep <+: c :: last ∨ kPartSep <:+: last :=
      List.infix_cons_iff
    have hprefix : kPartSep <+: c :: (last ++ (ch ' ' :: ch '[' :: id ++ [ch ']'])) ↔
        kPartSep <+: c :: last := by
      rw [prefix_kPartSep_iff, prefix_kPartSep_iff]
      cases last with
      | nil =>
        have hspace : ch ' ' ≠ ch ':' := by decide
        simp [hspace]
      | cons d last => rfl
    refine List.infix_cons_iff.trans ((or_congr hprefix ih).trans ?_)
    rw [hwhole, or_assoc]

/-- The last space. -/
theorem rfind_append_cons {c : UInt8} {t : Str} (ht : c ∉ t) (s : Str) :
    (s ++ c :: t).rfind c = some s.length := by
  have hnone : t.reverse.findIdx? (· == c) = none :=
    List.findIdx?_eq_none_iff.mpr fun d hd => by
      simpa using ne_of_mem_of_not_mem (List.mem_reverse.mp hd) ht
  rw [Str.rfind, List.reverse_append, List.reverse_cons, List.append_assoc, List.findIdx?_append,
    hnone, Option.none_or, List.singleton_append, List.findIdx?_cons, if_pos (beq_self_eq_true c),
    Option.map_some, Option.map_some, List.length_append, List.length_cons, List.length_reverse]
  congr 1
  omega

theorem rpartition_append {head tail : Str} (h : ch ' ' ∉ tail) :
    rpartition (head ++ ch ' ' :: tail) = (head, tail) := by
  rw [rpartition, rfind_append_cons h]
  simp

/-- A text with a space, around the last one. -/
theorem exists_of_rpartition {last : Str} (h : ch ' ' ∈ last) : ∃ head tail,
    rpartition last = (head, tail) ∧ last = head ++ ch ' ' :: tail ∧ ch ' ' ∉ tail := by
  obtain ⟨back, front, hreverse, hback⟩ :=
    List.eq_append_cons_of_mem (List.mem_reverse.mpr h)
  obtain rfl : last = front.reverse ++ ch ' ' :: back.reverse := by
    rw [← List.reverse_reverse last, hreverse]
    simp
  have hback : ch ' ' ∉ back.reverse := fun hmem => hback (List.mem_reverse.mp hmem)
  exact ⟨front.reverse, back.reverse, rpartition_append hback, rfl, hback⟩

theorem parsePartsId_of_splitParts {s last : Str} {init : List Str}
    (h : splitParts s = init ++ [last]) :
    parsePartsId s = (init ++ [(rpartition last).1], stripBrackets (rpartition last).2) := by
  rw [parsePartsId, h, List.getLast?_concat, List.dropLast_concat]

/-- **The parts and identifiers that are read back** from their text. -/
theorem parsePartsId_specText_iff (parts : List Str) (id : Str) :
    parsePartsId (specText parts id) = (parts, id) ↔ Readable parts id := by
  constructor
  · intro h
    -- The parts of the text, the last one with the identifier behind it.
    obtain ⟨hjoin, hparts⟩ := splitParts_eq_iff.mp (rfl : splitParts (specText parts id) = _)
    obtain ⟨init, whole, hinit⟩ :=
      (List.eq_nil_or_concat' (splitParts (specText parts id))).resolve_left hparts.ne_nil
    rw [hinit] at hjoin hparts
    rw [parsePartsId_of_splitParts hinit, Prod.mk.injEq] at h
    obtain ⟨rfl, hid⟩ := h
    rw [specText, intercalate_append_last] at hjoin
    have hwhole := eq_of_intercalate_eq hjoin
    have hspace : ch ' ' ∈ whole := by
      rw [hwhole]
      exact List.mem_append_right _ List.mem_cons_self
    obtain ⟨last, tail, hrpartition, hlast, htail⟩ := exists_of_rpartition hspace
    rw [hrpartition] at hid hwhole ⊢
    dsimp only at hid hwhole ⊢
    obtain ⟨hended, hnone⟩ := isParts_concat_iff.mp hparts
    rw [hwhole, kPartSep_infix_iff, not_or] at hnone
    have hbrackets : tail = ch '[' :: id ++ [ch ']'] :=
      (List.cons.inj (List.append_cancel_left (hlast.symm.trans hwhole))).2
    refine ⟨isParts_concat_iff.mpr ⟨hended, hnone.1⟩, hnone.2, fun hmem => htail ?_, ?_, ?_⟩
    · rw [hbrackets]
      exact List.mem_append_left _ (List.mem_cons_of_mem _ hmem)
    · exact hid ▸ head?_stripBrackets tail
    · exact hid ▸ getLast?_stripBrackets tail
  · intro h
    obtain ⟨init, last, rfl⟩ := (List.eq_nil_or_concat' parts).resolve_left h.isParts.ne_nil
    obtain ⟨hended, hlast⟩ := isParts_concat_iff.mp h.isParts
    have htail : ch ' ' ∉ ch '[' :: id ++ [ch ']'] := by
      have h₁ : ch ' ' ≠ ch '[' := by decide
      have h₂ : ch ' ' ≠ ch ']' := by decide
      simp [h₁, h₂, h.space]
    have hsplit : splitParts (specText (init ++ [last]) id) =
        init ++ [last ++ (ch ' ' :: ch '[' :: id ++ [ch ']'])] := by
      refine splitParts_eq_iff.mpr ⟨(intercalate_append_last _ _ _).symm, isParts_concat_iff.mpr ?_⟩
      exact ⟨hended, fun hin => (kPartSep_infix_iff.mp hin).elim hlast h.separator⟩
    rw [parsePartsId_of_splitParts hsplit, List.cons_append, rpartition_append htail,
      stripBrackets_brackets h.head h.last]

example : parsePartsId (str "Execution::Shared Modules [T1129]") =
    ([str "Execution", str "Shared Modules"], str "T1129") := by
  decide +kernel

end Papa.Render
