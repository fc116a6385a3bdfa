import Papa.Util.Hash
import Mathlib.Tactic.Ring

/-!
# Streaming a digest

A hasher object stands for the bytes it has been fed since it was constructed or last finalised: its
state is the one after their whole blocks, the first bytes of its buffer are the ones after these,
and its bit count is their length. `update` extends what it stands for and `finalize` reads the
digest of the standard off it, however the message was cut into pieces.

## Main definitions

* `Implements`: the class brings what the standard names.
* `Hasher.Holds`: the bytes an object stands for.
* `Hasher.Fresh`: the initial state, up to the stale bytes of the buffer.

## Main results

* `Hasher.Holds.update`: one call of `update`.
* `Hasher.Holds.finalize`: the digest, and the object after it.
* `Implements.finalize_updates`, `Implements.oneShot_eq`: every way of cutting the message.
-/

namespace Papa.Util

/-! ### Writing to the buffer -/

namespace Buffer

variable (buffer : Buffer) {p : ℕ} {bytes : List UInt8}

/-- A write inside the buffer replaces what stands there. -/
theorem toList_write (h : p + bytes.length ≤ 64) :
    (buffer.write p bytes).toList =
      buffer.toList.take p ++ bytes ++ buffer.toList.drop (p + bytes.length) := by
  apply List.ext_getElem
  · simp only [Vector.length_toList, List.length_append, List.length_take, List.length_drop]
    omega
  intro i hi hi'
  simp only [Vector.length_toList] at hi
  simp only [write, Vector.getElem_toList, Vector.getElem_ofFn, Fin.getElem_fin]
  by_cases h₁ : p ≤ i
  · by_cases h₂ : i < p + bytes.length
    · have hlt : i - p < bytes.length := by omega
      rw [if_pos h₁, List.getD_eq_getElem _ _ hlt, List.getElem_append_left (by simp; omega),
        List.getElem_append_right (by simp; omega)]
      congr 1
      simp only [List.length_take, Vector.length_toList]
      omega
    · have hge : bytes.length ≤ i - p := by omega
      rw [if_pos h₁, List.getD_eq_default _ _ hge, List.getElem_append_right (by simp; omega),
        List.getElem_drop, Vector.getElem_toList]
      have hindex : i = p + bytes.length + (i - (buffer.toList.take p ++ bytes).length) := by
        simp only [List.length_append, List.length_take, Vector.length_toList]
        omega
      congr 1
  · rw [if_neg h₁, List.getElem_append_left (by simp; omega),
      List.getElem_append_left (by simp; omega), List.getElem_take, Vector.getElem_toList]

/-- The bytes up to the end of a write. -/
theorem take_write (p : ℕ) (bytes : List UInt8) (h : p + bytes.length ≤ 64) :
    (buffer.write p bytes).toList.take (p + bytes.length) = buffer.toList.take p ++ bytes := by
  have hlen : (buffer.toList.take p ++ bytes).length = p + bytes.length := by
    rw [List.length_append, List.length_take, Vector.length_toList]
    omega
  rw [toList_write buffer h, List.take_append_of_le_length hlen.ge,
    List.take_of_length_le hlen.le]

/-- A write that reaches the end of the buffer. -/
theorem toList_write_of_eq (h : p + bytes.length = 64) :
    (buffer.write p bytes).toList = buffer.toList.take p ++ bytes := by
  rw [← take_write buffer p bytes h.le, h, List.take_of_length_le (Vector.length_toList ..).le]

end Buffer

/-- The bytes of the buffer after a fill with zeros. -/
theorem take_zeroFill (buffer : Buffer) {len stop : ℕ} (h : len ≤ stop) (hstop : stop ≤ 64) :
    (zeroFill buffer len stop).toList.take stop =
      buffer.toList.take len ++ List.replicate (stop - len) 0 := by
  fun_induction zeroFill buffer len stop with
  | case1 buffer len hlt ih =>
    have hwrite : (buffer.write len [0]).toList.take (len + 1) = buffer.toList.take len ++ [0] :=
      buffer.take_write len [0] (by rw [List.length_singleton]; omega)
    have hcount : stop - len = stop - (len + 1) + 1 := by omega
    rw [ih hlt, hwrite, hcount, List.replicate_succ, List.append_assoc, List.singleton_append]
  | case2 buffer len hlt =>
    have heq : len = stop := by omega
    rw [heq, Nat.sub_self, List.replicate_zero, List.append_nil]

/-! ### What an object stands for -/

variable {σ : Type} {A : Algorithm σ} {S : Standard σ}

/-- The class brings what the standard names. -/
structure Implements (A : Algorithm σ) (S : Standard σ) : Prop where
  iv : A.iv = S.initial
  processBlock : ∀ s buffer, A.processBlock s buffer = S.compress s buffer.toList
  storeLength : ∀ v, A.storeLength v = S.lengthBytes v.toNat
  length_lengthBytes : ∀ n, (S.lengthBytes n).length = 8
  digest : ∀ s, A.digest s = S.output s

/-- The bytes that the object has buffered. -/
def Hasher.buffered (h : Hasher σ) : List UInt8 := h.buffer.toList.take h.bufferLen

/-- The object stands for the message. -/
structure Hasher.Holds (S : Standard σ) (h : Hasher σ) (m : List UInt8) : Prop where
  buffered : Buffered S.compress 64 S.initial m h.state h.buffered
  totalBits : h.totalBits = UInt64.ofNat (8 * m.length)

/-- The object is in its initial state. The bytes of the buffer do not count, none of them being
taken as buffered. -/
structure Hasher.Fresh (A : Algorithm σ) (h : Hasher σ) : Prop where
  state : h.state = A.iv
  bufferLen : h.bufferLen = 0
  totalBits : h.totalBits = 0

theorem Hasher.fresh_new : (Hasher.new A).Fresh A := ⟨rfl, rfl, rfl⟩

theorem Hasher.fresh_reset (h : Hasher σ) : (h.reset A).Fresh A := ⟨rfl, rfl, rfl⟩

/-- An object in its initial state stands for no bytes. -/
theorem Hasher.Fresh.holds (hA : Implements A S) {h : Hasher σ} (hf : h.Fresh A) :
    h.Holds S [] where
  buffered := by
    rw [Hasher.buffered, hf.bufferLen, List.take_zero, hf.state, hA.iv]
    exact Buffered.nil (by decide)
  totalBits := by
    rw [hf.totalBits]
    rfl

/-- The remainder of a message that is kept has the length of the message modulo the block size. -/
theorem length_buffered (h : Hasher σ) : h.buffered.length = h.bufferLen := by
  have hlt := h.bufferLen_lt
  rw [Hasher.buffered, List.length_take, Vector.length_toList]
  omega

/-! ### `update` -/

section Update

variable (hA : Implements A S) {m : List UInt8} (data : List UInt8)
include hA

/-- The first part of `update` takes bytes until the block is complete or none are left. -/
theorem fillPartial_buffered {h : Hasher σ}
    (hb : Buffered S.compress 64 S.initial m h.state h.buffered) :
    let p := fillPartial A h data
    Buffered S.compress 64 S.initial (m ++ data.take p.2) p.1.state p.1.buffered ∧
      p.2 ≤ data.length ∧ (p.1.bufferLen = 0 ∨ p.2 = data.length) := by
  have hlt := h.bufferLen_lt
  unfold fillPartial
  by_cases hpos : h.bufferLen > 0
  swap
  · rw [if_neg hpos]
    refine ⟨?_, Nat.zero_le _, Or.inl (Nat.eq_zero_of_not_pos hpos)⟩
    rwa [List.take_zero, List.append_nil]
  rw [if_pos hpos]
  dsimp only
  have hmin := h.take_eq_min data
  have hle : h.take data ≤ data.length := by omega
  have hle64 := h.take_le data
  have hlen : (data.take (h.take data)).length = h.take data := List.length_take_of_le hle
  have hsum : (h.buffered ++ data.take (h.take data)).length = h.bufferLen + h.take data := by
    rw [List.length_append, length_buffered, hlen]
  split
  · -- the block is complete
    rename_i hfull
    refine ⟨?_, hle, Or.inl rfl⟩
    have hlist : (h.buffer.write h.bufferLen (data.take (h.take data))).toList =
        h.buffered ++ data.take (h.take data) := h.buffer.toList_write_of_eq (by omega)
    rw [Hasher.buffered, List.take_zero, hA.processBlock, hlist]
    exact hb.append_eq (d := data.take (h.take data)) (hsum.trans hfull)
  · -- the bytes ran out
    rename_i hpart
    refine ⟨?_, hle, Or.inr (by dsimp only; omega)⟩
    have hlist : (h.buffer.write h.bufferLen (data.take (h.take data))).toList.take
        (h.bufferLen + h.take data) = h.buffered ++ data.take (h.take data) := by
      have := h.buffer.take_write h.bufferLen (data.take (h.take data)) (by omega)
      rwa [hlen] at this
    rw [Hasher.buffered, hlist]
    exact hb.append_lt (d := data.take (h.take data)) (by omega)

/-- The loop over the full chunks compresses them. -/
theorem fullChunks_buffered {state : σ} (buffer : Buffer) {i : ℕ} (hi : i ≤ data.length)
    (hb : Buffered S.compress 64 S.initial (m ++ data.take i) state []) :
    let c := fullChunks A data state buffer i
    Buffered S.compress 64 S.initial (m ++ data.take c.2.2) c.1 [] ∧ c.2.2 ≤ data.length := by
  fun_induction fullChunks A data state buffer i with
  | case1 state buffer i h buffer' ih =>
    have hlen : ((data.drop i).take 64).length = 64 := by
      rw [List.length_take, List.length_drop]
      omega
    have hlist : buffer'.toList = (data.drop i).take 64 :=
      buffer.toList_write_of_eq (p := 0) (by omega)
    refine ih h ?_
    rw [hA.processBlock, hlist, List.take_add, ← List.append_assoc]
    exact hb.append_eq (d := (data.drop i).take 64) hlen
  | case2 state buffer i h => exact ⟨hb, hi⟩

/-- **One call of `update`.** The object stands for the bytes before, followed by the new ones. -/
theorem Hasher.Holds.update {h : Hasher σ} (hm : h.Holds S m) :
    (h.update A data).Holds S (m ++ data) := by
  obtain ⟨hp, hple, hor⟩ := fillPartial_buffered hA data hm.buffered
  have hbits : h.totalBits + UInt64.ofNat data.length * 8 =
      UInt64.ofNat (8 * (m ++ data).length) := by
    rw [hm.totalBits, List.length_append, Nat.mul_add, UInt64.ofNat_add,
      Nat.mul_comm 8 data.length, UInt64.ofNat_mul data.length 8]
    rfl
  rw [Hasher.update]
  by_cases hzero : (fillPartial A h data).1.bufferLen = 0
  · -- the partial block is completed, or there was none
    have hnil : (fillPartial A h data).1.buffered = [] := by
      rw [Hasher.buffered, hzero, List.take_zero]
    rw [hnil] at hp
    obtain ⟨hc, hcle⟩ :=
      fullChunks_buffered hA data (fillPartial A h data).1.buffer hple hp
    have hlast := fullChunks_index_lt A data (fillPartial A h data).1.state
      (fillPartial A h data).1.buffer (fillPartial A h data).2
    split
    · refine ⟨?_, hbits⟩
      dsimp only [Hasher.buffered]
      generalize fullChunks A data (fillPartial A h data).1.state (fillPartial A h data).1.buffer
        (fillPartial A h data).2 = c at *
      have hlen : (data.drop c.2.2).length = data.length - c.2.2 := List.length_drop
      have hlist : (c.2.1.write 0 (data.drop c.2.2)).toList.take (data.length - c.2.2) =
          data.drop c.2.2 := by
        have := c.2.1.take_write 0 (data.drop c.2.2) (by omega)
        rwa [hlen, Nat.zero_add, List.take_zero, List.nil_append] at this
      have hsplit : m ++ data = m ++ data.take c.2.2 ++ data.drop c.2.2 := by
        rw [List.append_assoc, List.take_append_drop]
      rw [hlist, hsplit]
      exact hc.append_lt (d := data.drop c.2.2) (by rw [List.nil_append]; omega)
    · refine ⟨?_, hbits⟩
      dsimp only [Hasher.buffered]
      rw [hzero, List.take_zero]
      rwa [List.take_of_length_le (by omega)] at hc
  · -- the block is still short, and the bytes ran out
    have hall : (fillPartial A h data).2 = data.length := hor.resolve_left hzero
    have hstop : fullChunks A data (fillPartial A h data).1.state (fillPartial A h data).1.buffer
        (fillPartial A h data).2 = ((fillPartial A h data).1.state,
          (fillPartial A h data).1.buffer, (fillPartial A h data).2) := by
      rw [fullChunks, if_neg (by omega)]
    rw [hall, List.take_length] at hp
    rw [if_neg (by rw [hstop, hall]; exact lt_irrefl _)]
    refine ⟨?_, hbits⟩
    dsimp only [Hasher.buffered]
    rw [hstop]
    exact hp

/-- Any number of calls of `update`. -/
theorem Hasher.Holds.updates {h : Hasher σ} (hm : h.Holds S m) (chunks : List (List UInt8)) :
    (chunks.foldl (Hasher.update A) h).Holds S (m ++ chunks.flatten) := by
  induction chunks generalizing h m with
  | nil => rwa [List.flatten_nil, List.append_nil]
  | cons data chunks ih =>
    rw [List.flatten_cons, ← List.append_assoc]
    exact ih (hm.update hA data)

end Update

/-! ### `finalize` -/

section Finalize

/-- The bytes after the message in the padded message. -/
def Standard.padding (S : Standard σ) (n : ℕ) : List UInt8 :=
  [0x80] ++ List.replicate (Standard.zeroBytes n) 0 ++ S.lengthBytes (8 * n)

theorem Standard.pad_eq (S : Standard σ) (m : List UInt8) :
    S.pad m = m ++ S.padding m.length := rfl

variable (hA : Implements A S)
include hA

/-- **The padding.** From a state and a buffered remainder, `pad_and_finalize` compresses the
remainder followed by the padding of the standard, in one block or, when the length no longer fits,
in two. -/
theorem padAndFinalize_eq {state : σ} {buffer : Buffer} {len n : ℕ} (hlen : n % 64 = len)
    {totalBits : UInt64} (hbits : totalBits.toNat = 8 * n) :
    (padAndFinalize A state buffer len totalBits).1 =
      iterateBlocks S.compress 64 state (buffer.toList.take len ++ S.padding n) := by
  have hlt : len < 64 := by omega
  have hlength : (A.storeLength totalBits).length = 8 := by
    rw [hA.storeLength, hA.length_lengthBytes]
  have hmark : (buffer.write len [0x80]).toList.take (len + 1) = buffer.toList.take len ++ [0x80] :=
    buffer.take_write len [0x80] (by rw [List.length_singleton]; omega)
  have htake : (buffer.toList.take len).length = len :=
    List.length_take_of_le (by rw [Vector.length_toList]; omega)
  have hlast : ∀ buffer : Buffer, (buffer.write 56 (A.storeLength totalBits)).toList =
      buffer.toList.take 56 ++ S.lengthBytes (8 * n) := fun buffer => by
    rw [buffer.toList_write_of_eq (by omega), hA.storeLength, hbits]
  rw [padAndFinalize]
  by_cases hfit : len + 1 > 56
  · -- two blocks: zeros fill the first
    have hzeros : Standard.zeroBytes n = 64 - (len + 1) + 56 := by
      rw [Standard.zeroBytes]
      omega
    have hfirst : (zeroFill (buffer.write len [0x80]) (len + 1) 64).toList =
        buffer.toList.take len ++ [0x80] ++ List.replicate (64 - (len + 1)) 0 := by
      rw [← hmark, ← take_zeroFill _ (by omega) (by omega),
        List.take_of_length_le (Vector.length_toList ..).le]
    have hsecond := take_zeroFill (zeroFill (buffer.write len [0x80]) (len + 1) 64)
      (Nat.zero_le 56) (by decide)
    rw [List.take_zero, List.nil_append, Nat.sub_zero] at hsecond
    have hsplit : buffer.toList.take len ++ S.padding n =
        (buffer.toList.take len ++ [0x80] ++ List.replicate (64 - (len + 1)) 0) ++
          (List.replicate 56 0 ++ S.lengthBytes (8 * n)) := by
      rw [Standard.padding, hzeros, List.replicate_add]
      simp only [List.append_assoc]
    have hone : (buffer.toList.take len ++ [0x80] ++ List.replicate (64 - (len + 1)) 0).length =
        64 := by
      rw [List.length_append, List.length_append, htake, List.length_singleton,
        List.length_replicate]
      omega
    simp only [if_pos hfit]
    rw [hsplit, iterateBlocks_append S.compress (by rw [hone]),
      iterateBlocks_of_length_eq S.compress (by decide) hone,
      iterateBlocks_of_length_eq S.compress (by decide)
        (by rw [List.length_append, List.length_replicate, hA.length_lengthBytes]),
      hA.processBlock, hA.processBlock, hlast, hsecond, hfirst]
  · -- one block
    have hzeros : Standard.zeroBytes n = 56 - (len + 1) := by
      rw [Standard.zeroBytes]
      omega
    have hfill : (zeroFill (buffer.write len [0x80]) (len + 1) 56).toList.take 56 =
        buffer.toList.take len ++ [0x80] ++ List.replicate (56 - (len + 1)) 0 := by
      rw [← hmark, ← take_zeroFill _ (by omega) (by decide)]
    have hone : (buffer.toList.take len ++ S.padding n).length = 64 := by
      rw [Standard.padding, List.length_append, htake, List.length_append, List.length_append,
        List.length_replicate, hA.length_lengthBytes, List.length_singleton, hzeros]
      omega
    simp only [if_neg hfit]
    rw [iterateBlocks_of_length_eq S.compress (by decide) hone, hA.processBlock, hlast, hfill,
      Standard.padding, hzeros]
    simp only [List.append_assoc]

/-- **`finalize`.** The digest is that of the message the object stands for, and the object is in
its initial state again. -/
theorem Hasher.Holds.finalize {h : Hasher σ} {m : List UInt8} (hm : h.Holds S m)
    (hlen : m.length < 2 ^ 61) :
    (h.finalize A).1 = S.hash m ∧ (h.finalize A).2.Fresh A := by
  refine ⟨?_, Hasher.fresh_reset _⟩
  have hbits : h.totalBits.toNat = 8 * m.length := by
    rw [hm.totalBits, UInt64.toNat_ofNat']
    exact Nat.mod_eq_of_lt (by omega)
  have hrest : m.length % 64 = h.bufferLen := by
    rw [← hm.buffered.length_rest, length_buffered]
  rw [Hasher.finalize, Standard.hash, Standard.pad_eq, hm.buffered.finish, hA.digest,
    padAndFinalize_eq hA hrest hbits]
  rfl

/-- **Every way of cutting a message.** From the initial state, calls of `update` followed by
`finalize` give the digest of all the bytes, and the object is in its initial state again. -/
theorem Implements.finalize_updates {h : Hasher σ} (hf : h.Fresh A) (chunks : List (List UInt8))
    (hlen : chunks.flatten.length < 2 ^ 61) :
    ((chunks.foldl (Hasher.update A) h).finalize A).1 = S.hash chunks.flatten ∧
      ((chunks.foldl (Hasher.update A) h).finalize A).2.Fresh A :=
  ((hf.holds hA).updates hA chunks).finalize hA hlen

/-- The one-shot helper. -/
theorem Implements.oneShot_eq {m : List UInt8} (hlen : m.length < 2 ^ 61) :
    oneShot A m = S.hash m :=
  (((Hasher.fresh_new.holds hA).update hA m).finalize hA hlen).1

/-- The two together. -/
theorem Implements.finalize_eq_oneShot {h : Hasher σ} (hf : h.Fresh A)
    (chunks : List (List UInt8)) (hlen : chunks.flatten.length < 2 ^ 61) :
    let f := (chunks.foldl (Hasher.update A) h).finalize A
    f.1 = oneShot A chunks.flatten ∧ f.1 = S.hash chunks.flatten ∧ f.2.Fresh A := by
  obtain ⟨hdigest, hfresh⟩ := hA.finalize_updates hf chunks hlen
  exact ⟨hdigest.trans (hA.oneShot_eq hlen).symm, hdigest, hfresh⟩

end Finalize

end Papa.Util
