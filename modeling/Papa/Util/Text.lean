import Mathlib.Data.List.DropRight
import Mathlib.Data.List.Lex
import Mathlib.Data.List.Infix

/-!
# Byte strings

`std::string` and `std::string_view` are lists of bytes. Comparison is lexicographic on
unsigned bytes, a proper prefix coming first, which is the order of `List UInt8`. The search
functions return the index the source returns, with `none` for `npos`.

## Main definitions

* `Papa.Str`, `Papa.str`, `Papa.ch`: byte strings and their literals.
* `Papa.Str.find`, `Papa.Str.rfind`, `Papa.Str.findStr`, `Papa.Str.rfindStr`: searches.
* `Papa.Str.trim`: a text without the blanks around it.
* `Papa.toStr`: `std::to_string` on an unsigned number.
-/

namespace Papa

/-- A byte string. -/
abbrev Str := List UInt8

/-- The byte of an ASCII character. -/
def ch (c : Char) : UInt8 := c.toUInt8

/-- The bytes of an ASCII literal. -/
def str (s : String) : Str := s.toList.map ch

/-- `std::to_string` on an unsigned number. -/
def toStr (n : ℕ) : Str := (Nat.toDigits 10 n).map ch

instance linearOrderByte : LinearOrder UInt8 where
  le_refl := UInt8.le_refl
  le_trans _ _ _ := UInt8.le_trans
  lt_iff_le_not_ge a b := by simp only [UInt8.le_iff_toNat_le, UInt8.lt_iff_toNat_lt]; omega
  le_antisymm _ _ := UInt8.le_antisymm
  le_total := UInt8.le_total
  toDecidableLE := inferInstance
  toDecidableLT := inferInstance

instance lawfulBEqStr : LawfulBEq Str := inferInstance

/-- What holds of every byte of a text is decided byte by byte, not over all the values of a
byte. -/
instance (priority := high) decidableAllBytes {p : UInt8 → Prop} [DecidablePred p]
    (s : Str) : Decidable (∀ c ∈ s, p c) :=
  List.decidableBAll p s

/-- The same for a byte that may be missing. -/
instance (priority := high) decidableOptionByte {p : UInt8 → Prop} [DecidablePred p]
    (o : Option UInt8) : Decidable (∀ c ∈ o, p c) :=
  Option.decidableForallMem o

/-- Trimming stops at a byte that stays. -/
theorem rdropWhile_append_cons {α : Type*} {f : α → Bool} {c : α} (hc : ¬f c) (s t : List α) :
    (s ++ c :: t).rdropWhile f = s ++ c :: t.rdropWhile f := by
  induction t using List.reverseRecOn with
  | nil => exact List.rdropWhile_concat_neg _ _ _ hc
  | append_singleton t x ih =>
    rw [← List.cons_append, ← List.append_assoc, List.rdropWhile_concat, ih, List.rdropWhile_concat]
    split_ifs
    · rfl
    · rw [List.append_assoc, List.cons_append]

namespace Str

/-- The index of the first byte equal to `c`. -/
def find (s : Str) (c : UInt8) : Option ℕ := s.findIdx? (· == c)

/-- The index of the last byte equal to `c`. -/
def rfind (s : Str) (c : UInt8) : Option ℕ :=
  (s.reverse.findIdx? (· == c)).map fun j => s.length - 1 - j

/-- The index of the first occurrence of `t`. -/
def findStr (s t : Str) : Option ℕ :=
  if t.isPrefixOf s then some 0 else
    match s with
    | [] => none
    | _ :: rest => (findStr rest t).map (· + 1)

/-- The index of the last occurrence of `t`. -/
def rfindStr (s t : Str) : Option ℕ :=
  match s with
  | [] => if t.isEmpty then some 0 else none
  | _ :: rest =>
    match rfindStr rest t with
    | some i => some (i + 1)
    | none => if t.isPrefixOf s then some 0 else none

/-- A space or a tab. -/
def isWs (c : UInt8) : Bool := c == ch ' ' || c == ch '\t'

/-- A text without its leading blanks. -/
def ltrim (s : Str) : Str := s.dropWhile isWs

/-- A text without its trailing blanks. -/
def rtrim (s : Str) : Str := s.rdropWhile isWs

/-- A text without the blanks around it. -/
def trim (s : Str) : Str := rtrim (ltrim s)

/-- Trimming stops at a byte that is no blank. -/
theorem rtrim_append_cons {c : UInt8} (hc : ¬isWs c) (s t : Str) :
    rtrim (s ++ c :: t) = s ++ c :: rtrim t :=
  rdropWhile_append_cons hc s t

/-- A text without blanks is trimmed already. -/
theorem trim_eq_self {s : Str} (h : ∀ c ∈ s, ¬isWs c) : trim s = s := by
  have hleft : ltrim s = s := List.dropWhile_eq_self_iff.mpr fun hs => h _ (List.getElem_mem hs)
  rw [trim, hleft]
  exact List.rdropWhile_eq_self_iff.mpr fun hs => h _ (List.getLast_mem hs)

/-- The first byte equal to `c` stands where `c` first occurs. -/
theorem find_append_cons {s : Str} {c : UInt8} (h : c ∉ s) (t : Str) :
    (s ++ c :: t).find c = some s.length := by
  have hno : s.findIdx? (· == c) = none :=
    List.findIdx?_eq_none_iff.mpr fun b hb => by simpa using ne_of_mem_of_not_mem hb h
  rw [find, List.findIdx?_append, hno, List.findIdx?_cons]
  simp

theorem rfind_lt {s : Str} {c : UInt8} {i : ℕ} (h : s.rfind c = some i) : i < s.length := by
  obtain ⟨j, hj, rfl⟩ := Option.map_eq_some_iff.mp h
  have hlt : j < s.reverse.length := (List.findIdx?_eq_some_iff_getElem.mp hj).1
  rw [List.length_reverse] at hlt
  omega

end Str

end Papa
