import Mathlib.Data.List.Basic
import Mathlib.Data.Nat.ModEq

/-!
# Iterated compression of a message

A compression function takes a state and a block of `b` letters to a new state. It is iterated
over the whole blocks of a message, and a message that arrives in pieces can be compressed as it
arrives: what has to be kept is the state after the whole blocks seen so far and the letters after
them, fewer than `b`.

## Main definitions

* `iterateBlocks`: the compression function over the whole blocks of a message.
* `Buffered`: a state and a remainder that stand for a message.

## Main results

* `iterateBlocks_append`: a message in two parts, the first of them whole blocks.
* `Buffered.append_lt`, `Buffered.append_eq`: the message grows.
* `Buffered.finish`: the rest of the message is known to fill whole blocks.
-/

variable {α σ : Type*} (compress : σ → List α → σ) (b : ℕ)

/-- The `i`-th block of `b` letters of the message. -/
def messageBlock (m : List α) (i : ℕ) : List α := (m.drop (b * i)).take b

/-- The compression function over the whole blocks of the message, in order. -/
def iterateBlocks (s : σ) (m : List α) : σ :=
  (List.range (m.length / b)).foldl (fun s i => compress s (messageBlock b m i)) s

variable {b}

/-- A block that lies in the first part of a message. -/
theorem messageBlock_append_left {m : List α} {i : ℕ} (h : i < m.length / b) (d : List α) :
    messageBlock b (m ++ d) i = messageBlock b m i := by
  have h₁ : b * (i + 1) ≤ b * (m.length / b) := Nat.mul_le_mul_left b h
  have h₂ : b * (m.length / b) ≤ m.length := Nat.mul_div_le _ _
  rw [Nat.mul_succ] at h₁
  rw [messageBlock, messageBlock, List.drop_append_of_le_length (by omega),
    List.take_append_of_le_length (by rw [List.length_drop]; omega)]

/-- A block after a first part that is made of whole blocks. -/
theorem messageBlock_append_right {m : List α} (hm : b ∣ m.length) (d : List α) (i : ℕ) :
    messageBlock b (m ++ d) (m.length / b + i) = messageBlock b d i := by
  have h : b * (m.length / b + i) = m.length + b * i := by
    rw [Nat.mul_add, Nat.mul_div_cancel' hm]
  rw [messageBlock, messageBlock, h, List.drop_append, List.drop_eq_nil_of_le (by omega),
    List.nil_append, Nat.add_sub_cancel_left]

/-- A message with no whole block. -/
theorem iterateBlocks_of_length_lt {m : List α} (h : m.length < b) (s : σ) :
    iterateBlocks compress b s m = s := by
  rw [iterateBlocks, Nat.div_eq_of_lt h, List.range_zero, List.foldl_nil]

/-- A message of one block. -/
theorem iterateBlocks_of_length_eq (hb : 0 < b) {m : List α} (h : m.length = b) (s : σ) :
    iterateBlocks compress b s m = compress s m := by
  rw [iterateBlocks, h, Nat.div_self hb, List.range_one, List.foldl_cons, List.foldl_nil,
    messageBlock, Nat.mul_zero, List.drop_zero, List.take_of_length_le h.le]

/-- **A message in two parts.** When the first part is made of whole blocks, the compression of the
second part goes on from the state that the first part leaves. -/
theorem iterateBlocks_append {m : List α} (hm : b ∣ m.length) (d : List α) (s : σ) :
    iterateBlocks compress b s (m ++ d) =
      iterateBlocks compress b (iterateBlocks compress b s m) d := by
  have hlen : (m ++ d).length / b = m.length / b + d.length / b := by
    rw [List.length_append, Nat.add_div_of_dvd_right hm]
  rw [iterateBlocks, hlen, List.range_add, List.foldl_append, List.foldl_map]
  have hleft : (List.range (m.length / b)).foldl
      (fun s i => compress s (messageBlock b (m ++ d) i)) s = iterateBlocks compress b s m :=
    List.foldl_ext _ _ _ fun s i hi => by
      rw [messageBlock_append_left (List.mem_range.mp hi)]
  rw [hleft]
  exact List.foldl_ext _ _ _ fun s i _ => by rw [messageBlock_append_right hm]

/-! ### Messages in pieces -/

variable (b) in
/-- The state and the remainder stand for the message: the state is the one after its whole blocks,
the remainder is what follows them. -/
structure Buffered (s₀ : σ) (m : List α) (s : σ) (rest : List α) : Prop where
  /-- The whole blocks come first. -/
  exists_blocks : ∃ blocks, m = blocks ++ rest ∧ b ∣ blocks.length ∧
    s = iterateBlocks compress b s₀ blocks
  /-- The remainder is short of a block. -/
  length_lt : rest.length < b

namespace Buffered

variable {compress} {s₀ s : σ} {m rest : List α}

/-- Nothing has arrived. -/
theorem nil (hb : 0 < b) : Buffered compress b s₀ [] s₀ [] where
  exists_blocks := ⟨[], rfl, Nat.dvd_zero b, (iterateBlocks_of_length_lt compress hb s₀).symm⟩
  length_lt := hb

/-- The remainder is what the length of the message leaves modulo the block size. -/
theorem length_rest (h : Buffered compress b s₀ m s rest) : rest.length = m.length % b := by
  obtain ⟨blocks, rfl, ⟨c, hc⟩, -⟩ := h.exists_blocks
  rw [List.length_append, hc, Nat.mul_add_mod, Nat.mod_eq_of_lt h.length_lt]

/-- More letters, still short of a block. -/
theorem append_lt (h : Buffered compress b s₀ m s rest) {d : List α}
    (hd : (rest ++ d).length < b) : Buffered compress b s₀ (m ++ d) s (rest ++ d) := by
  obtain ⟨blocks, rfl, hblocks, rfl⟩ := h.exists_blocks
  exact ⟨⟨blocks, List.append_assoc .., hblocks, rfl⟩, hd⟩

/-- The letters that complete the block. -/
theorem append_eq (h : Buffered compress b s₀ m s rest) {d : List α}
    (hd : (rest ++ d).length = b) :
    Buffered compress b s₀ (m ++ d) (compress s (rest ++ d)) [] := by
  have hb : 0 < b := Nat.zero_lt_of_lt h.length_lt
  obtain ⟨blocks, rfl, hblocks, rfl⟩ := h.exists_blocks
  refine ⟨⟨blocks ++ (rest ++ d), ?_, ?_, ?_⟩, hb⟩
  · rw [List.append_nil, List.append_assoc]
  · rw [List.length_append, hd]
    exact Nat.dvd_add hblocks (Nat.dvd_refl b)
  · rw [iterateBlocks_append compress hblocks, iterateBlocks_of_length_eq compress hb hd]

/-- Once the rest of the message is known to fill whole blocks, the compression of the whole
message is that of the remainder and the rest from the state kept. -/
theorem finish (h : Buffered compress b s₀ m s rest) (d : List α) :
    iterateBlocks compress b s₀ (m ++ d) = iterateBlocks compress b s (rest ++ d) := by
  have hb : 0 < b := Nat.zero_lt_of_lt h.length_lt
  obtain ⟨blocks, rfl, hblocks, rfl⟩ := h.exists_blocks
  rw [List.append_assoc, iterateBlocks_append compress hblocks]

end Buffered
