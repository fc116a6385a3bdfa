import Papa.Library.ByteReader

/-!
# The byte cursor

A cursor reads a borrowed buffer forward. Every read checks how many bytes are left, looks at them
and moves on, or fails. What it looks at is kept apart from the check, so that a read which forgot
the check would end outside the buffer.

## Main definitions

* `Cursor.readU8`, `Cursor.readU16Le`, `Cursor.readU32Le`, `Cursor.readBytes`.
* `Cursor.readVle16`, `Cursor.readVle32`: the variable-length integers of FLAIR.

## Main results

* `Cursor.regular_readVle16` and the like: the reads are regular readers.
-/

namespace Papa.Flirt

open ByteReader

/-- A read of a cursor: a failure is the result `false` of the source. -/
abbrev Cursor (α : Type) := ByteReader Unit α

namespace Cursor

/-- Fail unless `n` bytes remain. -/
def need (n : ℕ) : Cursor Unit := fun buf pos =>
  if pos + n ≤ buf.length then .done () pos else .failed ()

/-- The byte `i` places after the position. -/
def peek (i : ℕ) : Cursor UInt8 := fun buf pos =>
  match buf[pos + i]? with
  | some b => .done b pos
  | none => .outside

/-- The next `n` bytes. -/
def copy (n : ℕ) : Cursor (List UInt8) := fun buf pos =>
  if pos + n ≤ buf.length then .done ((buf.drop pos).take n) pos else .outside

/-- Move on by `n` bytes. -/
def advance (n : ℕ) : Cursor Unit := fun _ pos => .done () (pos + n)

/-- Read one unsigned byte. -/
def readU8 : Cursor UInt8 := do
  need 1
  let b ← peek 0
  advance 1
  pure b

/-- Read a little-endian unsigned 16-bit value. -/
def readU16Le : Cursor UInt16 := do
  need 2
  let b0 ← peek 0
  let b1 ← peek 1
  advance 2
  pure (b0.toUInt16 ||| (b1.toUInt16 <<< 8))

/-- Read a little-endian unsigned 32-bit value. -/
def readU32Le : Cursor UInt32 := do
  need 4
  let b0 ← peek 0
  let b1 ← peek 1
  let b2 ← peek 2
  let b3 ← peek 3
  advance 4
  pure (b0.toUInt32 ||| (b1.toUInt32 <<< 8) ||| (b2.toUInt32 <<< 16) ||| (b3.toUInt32 <<< 24))

/-- Read `n` bytes. -/
def readBytes (n : ℕ) : Cursor (List UInt8) := do
  need n
  let bytes ← copy n
  advance n
  pure bytes

/-- Read a variable-length integer of up to 15 bits. -/
def readVle16 : Cursor UInt16 := do
  need 1
  let b0 ← peek 0
  if b0 &&& 0x80 = 0 then do
    advance 1
    pure b0.toUInt16
  else do
    need 2
    let b1 ← peek 1
    advance 2
    pure (((b0 &&& 0x7F).toUInt16 <<< 8) ||| b1.toUInt16)

/-- Read a variable-length integer of up to 32 bits: the top bits of the first byte select 1, 2, 4
or 5 bytes. -/
def readVle32 : Cursor UInt32 := do
  need 1
  let b0 ← peek 0
  if b0 &&& 0x80 ≠ 0x80 then do
    advance 1
    pure b0.toUInt32
  else if b0 &&& 0xC0 ≠ 0xC0 then do
    need 2
    let b1 ← peek 1
    advance 2
    pure (((b0 &&& 0x7F).toUInt32 <<< 8) ||| b1.toUInt32)
  else if b0 &&& 0xE0 ≠ 0xE0 then do
    need 4
    let b1 ← peek 1
    let b2 ← peek 2
    let b3 ← peek 3
    advance 4
    pure (((b0 &&& 0x3F).toUInt32 <<< 24) ||| (b1.toUInt32 <<< 16) ||| (b2.toUInt32 <<< 8) |||
      b3.toUInt32)
  else do
    need 5
    let b1 ← peek 1
    let b2 ← peek 2
    let b3 ← peek 3
    let b4 ← peek 4
    advance 5
    pure ((b1.toUInt32 <<< 24) ||| (b2.toUInt32 <<< 16) ||| (b3.toUInt32 <<< 8) ||| b4.toUInt32)

/-! ### Reads of a fixed length -/

variable {α β : Type} {buf : List UInt8} {pos : ℕ}

theorem need_bind (n : ℕ) (f : Unit → Cursor α) :
    (need n >>= f) buf pos = if pos + n ≤ buf.length then f () buf pos else .failed () := by
  rw [bind_apply, need]
  split_ifs <;> rfl

/-- The bytes that a check admits are in the buffer. -/
theorem peek_bind {i : ℕ} (h : pos + i < buf.length) (f : UInt8 → Cursor α) :
    (peek i >>= f) buf pos = f (buf.getD (pos + i) 0) buf pos := by
  rw [bind_apply, peek, List.getD_eq_getElem?_getD, List.getElem?_eq_getElem h]
  rfl

theorem getD_take_drop {n i : ℕ} (hi : i < n) :
    ((buf.drop pos).take n).getD i 0 = buf.getD (pos + i) 0 := by
  rw [List.getD_eq_getElem?_getD, List.getElem?_take_of_lt hi, List.getElem?_drop,
    List.getD_eq_getElem?_getD]

/-- A read that takes `n` bytes or fails. -/
def Fixed (n : ℕ) (g : List UInt8 → α) (p : Cursor α) : Prop :=
  ∀ buf pos, p buf pos =
    if pos + n ≤ buf.length then .done (g ((buf.drop pos).take n)) (pos + n) else .failed ()

theorem Fixed.regular {n : ℕ} {g : List UInt8 → α} {p : Cursor α} (h : Fixed n g p) :
    Regular p := by
  refine ⟨fun {buf pos} hpos => ?_, fun {buf pos q a} hpos hp rest => ?_,
    fun {buf pos q m a} hpos hp hn hlt => ?_⟩
  · rw [h]
    split_ifs with hle
    · exact Or.inr ⟨_, _, rfl, Nat.le_add_right pos n, hle⟩
    · exact Or.inl ⟨(), rfl⟩
  · rw [h] at hp ⊢
    split_ifs at hp with hle
    cases hp
    have hlen : (buf.take (pos + n)).length = pos + n := List.length_take_of_le hle
    rw [if_pos (by rw [List.length_append]; omega), List.drop_append_of_le_length (by omega),
      List.take_append_of_le_length (by rw [List.length_drop]; omega), List.drop_take,
      List.take_take, Nat.min_eq_left (by omega)]
  · rw [h] at hp ⊢
    split_ifs at hp with hle
    cases hp
    rw [if_neg (by rw [List.length_take]; omega)]
    exact ⟨(), rfl⟩

theorem Fixed.consumes {n : ℕ} {g : List UInt8 → α} {p : Cursor α} (h : Fixed n g p)
    (hn : 0 < n) : Consumes p := by
  intro buf pos q a hpos hp
  rw [h] at hp
  split_ifs at hp with hle
  cases hp
  omega

theorem fixed_readU8 : Fixed 1 (fun l => l.getD 0 0) readU8 := by
  intro buf pos
  rw [readU8, need_bind]
  split_ifs with h
  · rw [peek_bind (by omega)]
    exact congrArg (Outcome.done · (pos + 1)) (getD_take_drop Nat.one_pos).symm
  · rfl

theorem fixed_readU16Le : Fixed 2
    (fun l => (l.getD 0 0).toUInt16 ||| ((l.getD 1 0).toUInt16 <<< 8)) readU16Le := by
  intro buf pos
  rw [readU16Le, need_bind]
  split_ifs with h
  · rw [peek_bind (by omega), peek_bind (by omega)]
    exact congrArg (Outcome.done · (pos + 2)) (by simp (disch := omega) only [getD_take_drop])
  · rfl

theorem fixed_readU32Le : Fixed 4
    (fun l => (l.getD 0 0).toUInt32 ||| ((l.getD 1 0).toUInt32 <<< 8) |||
      ((l.getD 2 0).toUInt32 <<< 16) ||| ((l.getD 3 0).toUInt32 <<< 24)) readU32Le := by
  intro buf pos
  rw [readU32Le, need_bind]
  split_ifs with h
  · rw [peek_bind (by omega), peek_bind (by omega), peek_bind (by omega), peek_bind (by omega)]
    exact congrArg (Outcome.done · (pos + 4)) (by simp (disch := omega) only [getD_take_drop])
  · rfl

theorem fixed_readBytes (n : ℕ) : Fixed n id (readBytes n) := by
  intro buf pos
  rw [readBytes, need_bind]
  split_ifs with h
  · rw [bind_apply, copy, if_pos h]
    rfl
  · rfl

theorem regular_readU8 : Regular readU8 := fixed_readU8.regular
theorem regular_readU16Le : Regular readU16Le := fixed_readU16Le.regular
theorem regular_readU32Le : Regular readU32Le := fixed_readU32Le.regular
theorem regular_readBytes (n : ℕ) : Regular (readBytes n) := (fixed_readBytes n).regular

theorem consumes_readU8 : Consumes readU8 := fixed_readU8.consumes Nat.one_pos

/-! ### Variable-length integers -/

theorem readU8_bind (f : UInt8 → Cursor α) : (readU8 >>= f) buf pos =
    if pos + 1 ≤ buf.length then f (buf.getD pos 0) buf (pos + 1) else .failed () := by
  have hb : ((buf.drop pos).take 1).getD 0 0 = buf.getD pos 0 := getD_take_drop Nat.one_pos
  rw [bind_apply, fixed_readU8, ← hb]
  split_ifs <;> rfl

theorem readBytes_bind (n : ℕ) (f : List UInt8 → Cursor α) : (readBytes n >>= f) buf pos =
    if pos + n ≤ buf.length then f ((buf.drop pos).take n) buf (pos + n) else .failed () := by
  rw [bind_apply, fixed_readBytes]
  split_ifs <;> rfl

/-- What follows the first byte of a variable-length integer of up to 15 bits. -/
def vle16Rest (b0 : UInt8) : Cursor UInt16 :=
  if b0 &&& 0x80 = 0 then pure b0.toUInt16
  else do
    let b1 ← readU8
    pure (((b0 &&& 0x7F).toUInt16 <<< 8) ||| b1.toUInt16)

/-- What follows the first byte of a variable-length integer of up to 32 bits. -/
def vle32Rest (b0 : UInt8) : Cursor UInt32 :=
  if b0 &&& 0x80 ≠ 0x80 then pure b0.toUInt32
  else if b0 &&& 0xC0 ≠ 0xC0 then do
    let b1 ← readU8
    pure (((b0 &&& 0x7F).toUInt32 <<< 8) ||| b1.toUInt32)
  else if b0 &&& 0xE0 ≠ 0xE0 then do
    let l ← readBytes 3
    pure (((b0 &&& 0x3F).toUInt32 <<< 24) ||| ((l.getD 0 0).toUInt32 <<< 16) |||
      ((l.getD 1 0).toUInt32 <<< 8) ||| (l.getD 2 0).toUInt32)
  else do
    let l ← readBytes 4
    pure (((l.getD 0 0).toUInt32 <<< 24) ||| ((l.getD 1 0).toUInt32 <<< 16) |||
      ((l.getD 2 0).toUInt32 <<< 8) ||| (l.getD 3 0).toUInt32)

theorem readVle16_eq : readVle16 = readU8 >>= vle16Rest := by
  funext buf pos
  rw [readVle16, need_bind, readU8_bind]
  split_ifs with h₁
  · rw [peek_bind (by omega), Nat.add_zero, vle16Rest]
    split_ifs with hb
    · rfl
    · rw [need_bind, readU8_bind, Nat.add_assoc]
      split_ifs with h₂
      · rw [peek_bind (by omega)]
        rfl
      · rfl
  · rfl

theorem readVle32_eq : readVle32 = readU8 >>= vle32Rest := by
  funext buf pos
  rw [readVle32, need_bind, readU8_bind]
  split_ifs with h₁
  · rw [peek_bind (by omega), Nat.add_zero, vle32Rest]
    split_ifs with hb₁ hb₂ hb₃
    · rfl
    · rw [need_bind, readU8_bind, Nat.add_assoc]
      split_ifs with h₂
      · rw [peek_bind (by omega)]
        rfl
      · rfl
    · rw [need_bind, readBytes_bind, Nat.add_assoc]
      split_ifs with h₂
      · rw [peek_bind (by omega), peek_bind (by omega), peek_bind (by omega)]
        exact congrArg (Outcome.done · (pos + 4)) (by
          simp (disch := omega) only [getD_take_drop, Nat.add_assoc])
      · rfl
    · rw [need_bind, readBytes_bind, Nat.add_assoc]
      split_ifs with h₂
      · rw [peek_bind (by omega), peek_bind (by omega), peek_bind (by omega),
          peek_bind (by omega)]
        exact congrArg (Outcome.done · (pos + 5)) (by
          simp (disch := omega) only [getD_take_drop, Nat.add_assoc])
      · rfl
  · rfl

theorem regular_vle16Rest (b0 : UInt8) : Regular (vle16Rest b0) :=
  Regular.ite (fun _ => Regular.pure _) fun _ => regular_readU8.bind fun _ => Regular.pure _

theorem regular_vle32Rest (b0 : UInt8) : Regular (vle32Rest b0) :=
  Regular.ite (fun _ => Regular.pure _) fun _ =>
    Regular.ite (fun _ => regular_readU8.bind fun _ => Regular.pure _) fun _ =>
      Regular.ite (fun _ => (regular_readBytes 3).bind fun _ => Regular.pure _) fun _ =>
        (regular_readBytes 4).bind fun _ => Regular.pure _

theorem regular_readVle16 : Regular readVle16 :=
  readVle16_eq ▸ regular_readU8.bind regular_vle16Rest

theorem regular_readVle32 : Regular readVle32 :=
  readVle32_eq ▸ regular_readU8.bind regular_vle32Rest

theorem consumes_readVle16 : Consumes readVle16 :=
  readVle16_eq ▸ consumes_readU8.bind regular_readU8 regular_vle16Rest

theorem consumes_readVle32 : Consumes readVle32 :=
  readVle32_eq ▸ consumes_readU8.bind regular_readU8 regular_vle32Rest

end Cursor

end Papa.Flirt
