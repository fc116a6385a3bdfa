import Papa.Library.MerkleDamgard
import Mathlib.Data.UInt
import Mathlib.Data.Nat.NthRoot.Defs
import Mathlib.Data.Nat.Prime.Nth

/-!
# Streaming digests and their standards

The hashers `Sha256`, `Sha1` and `Md5`. The three classes have one text up to the type of `state_`:
the block buffer, `update`, `pad_and_finalize` and `reset` are the same, and each brings its initial
value, its `process_block`, the byte order of the length and the way the digest is written.

Beside them stand the digests of the standards on a whole message, SHA-256 as in RFC 6234, SHA-1 as
in RFC 3174 and MD5 as in RFC 1321: the message is padded, and a compression function is iterated
over its blocks of 64 bytes.

## Main definitions

* `Hasher`: the members of a hasher object.
* `Algorithm`: what one of the three classes brings.
* `Hasher.update`, `padAndFinalize`, `Hasher.finalize`: the shared functions.
* `Sha256.algorithm`, `Sha1.algorithm`, `Md5.algorithm`.
* `oneShot`: `sha256`, `sha1` and `md5` on a whole message.
* `Standard`: an initial value, a compression function, the byte order of the length and the output.
* `Standard.pad`, `Standard.hash`: the padded message and the digest.
* `Standard.sha256`, `Standard.sha1`, `Standard.md5`.
-/

namespace Papa.Util

/-- `std::array<std::byte, 64>`. -/
abbrev Buffer := Vector UInt8 64

/-! ### Words and bytes -/

/-- `std::rotr`. -/
def rotr32 (x : UInt32) (n : ℕ) : UInt32 := ⟨x.toBitVec.rotateRight n⟩

/-- `std::rotl`. -/
def rotl32 (x : UInt32) (n : ℕ) : UInt32 := ⟨x.toBitVec.rotateLeft n⟩

/-- `load_be32(&buffer[p])`. -/
def loadBe32 (buffer : Buffer) (p : ℕ) : UInt32 :=
  (buffer.getD p 0).toUInt32 <<< 24 ||| (buffer.getD (p + 1) 0).toUInt32 <<< 16 |||
    (buffer.getD (p + 2) 0).toUInt32 <<< 8 ||| (buffer.getD (p + 3) 0).toUInt32 <<< 0

/-- `load_le32(&buffer[p])`. -/
def loadLe32 (buffer : Buffer) (p : ℕ) : UInt32 :=
  (buffer.getD p 0).toUInt32 <<< 0 ||| (buffer.getD (p + 1) 0).toUInt32 <<< 8 |||
    (buffer.getD (p + 2) 0).toUInt32 <<< 16 ||| (buffer.getD (p + 3) 0).toUInt32 <<< 24

/-- The bytes that `store_be32` writes. -/
def storeBe32 (v : UInt32) : List UInt8 :=
  [(v >>> 24 &&& 0xff).toUInt8, (v >>> 16 &&& 0xff).toUInt8, (v >>> 8 &&& 0xff).toUInt8,
    (v >>> 0 &&& 0xff).toUInt8]

/-- The bytes that `store_le32` writes. -/
def storeLe32 (v : UInt32) : List UInt8 :=
  [(v >>> 0 &&& 0xff).toUInt8, (v >>> 8 &&& 0xff).toUInt8, (v >>> 16 &&& 0xff).toUInt8,
    (v >>> 24 &&& 0xff).toUInt8]

/-- The bytes that `store_be64` writes. -/
def storeBe64 (v : UInt64) : List UInt8 :=
  [(v >>> 56 &&& 0xff).toUInt8, (v >>> 48 &&& 0xff).toUInt8, (v >>> 40 &&& 0xff).toUInt8,
    (v >>> 32 &&& 0xff).toUInt8, (v >>> 24 &&& 0xff).toUInt8, (v >>> 16 &&& 0xff).toUInt8,
    (v >>> 8 &&& 0xff).toUInt8, (v >>> 0 &&& 0xff).toUInt8]

/-- The bytes that `store_le64` writes. -/
def storeLe64 (v : UInt64) : List UInt8 :=
  (List.range 8).map fun i => (v >>> UInt64.ofNat (8 * i) &&& 0xff).toUInt8

/-- The bytes written to `&buffer[p]`, by a store or by `std::memcpy`. -/
def Buffer.write (buffer : Buffer) (p : ℕ) (bytes : List UInt8) : Buffer :=
  Vector.ofFn fun i => if p ≤ i then bytes.getD (i - p) buffer[i] else buffer[i]

/-! ### The shared block buffering and padding -/

/-- The members of a hasher object. The number of buffered bytes is short of a block whenever no
member function is running. -/
structure Hasher (σ : Type) where
  state : σ
  buffer : Buffer
  bufferLen : ℕ
  totalBits : UInt64
  bufferLen_lt : bufferLen < 64

/-- What one of the three classes brings: the initial state, `process_block`, the bytes of the
length that `pad_and_finalize` stores, and the bytes of the digest. -/
structure Algorithm (σ : Type) where
  iv : σ
  processBlock : σ → Buffer → σ
  storeLength : UInt64 → List UInt8
  digest : σ → List UInt8

variable {σ : Type} (A : Algorithm σ)

/-- `reset()`. The buffered bytes stay. -/
def Hasher.reset (h : Hasher σ) : Hasher σ where
  state := A.iv
  buffer := h.buffer
  bufferLen := 0
  totalBits := 0
  bufferLen_lt := by decide

/-- The constructor. -/
def Hasher.new : Hasher σ where
  state := A.iv
  buffer := Vector.replicate 64 0
  bufferLen := 0
  totalBits := 0
  bufferLen_lt := by decide

/-- The loop of `update` over the full 64-byte chunks from `i` on: the state, the buffer and the
index after it. -/
def fullChunks (data : List UInt8) (state : σ) (buffer : Buffer) (i : ℕ) : σ × Buffer × ℕ :=
  if i + 64 ≤ data.length then
    let buffer := buffer.write 0 ((data.drop i).take 64)
    fullChunks data (A.processBlock state buffer) buffer (i + 64)
  else (state, buffer, i)
termination_by data.length - i

/-- The value `take` of `update`: what is missing to a block, or all there is. -/
def Hasher.take (h : Hasher σ) (data : List UInt8) : ℕ :=
  let need := 64 - h.bufferLen
  if data.length < need then data.length else need

theorem Hasher.take_eq_min (h : Hasher σ) (data : List UInt8) :
    h.take data = min data.length (64 - h.bufferLen) := by
  simp only [Hasher.take]
  split <;> omega

theorem Hasher.take_le (h : Hasher σ) (data : List UInt8) : h.bufferLen + h.take data ≤ 64 := by
  have hlt := h.bufferLen_lt
  rw [Hasher.take_eq_min]
  omega

/-- The first part of `update`: fill any partial buffer. The object after it, and the number of
bytes taken. -/
def fillPartial (h : Hasher σ) (data : List UInt8) : Hasher σ × ℕ :=
  if h.bufferLen > 0 then
    let take := h.take data
    let buffer := h.buffer.write h.bufferLen (data.take take)
    if hlen : h.bufferLen + take = 64 then
      ({ h with state := A.processBlock h.state buffer, buffer, bufferLen := 0,
                bufferLen_lt := by decide }, take)
    else
      ({ h with buffer, bufferLen := h.bufferLen + take,
                bufferLen_lt := Nat.lt_of_le_of_ne (h.take_le data) hlen }, take)
  else (h, 0)

theorem fullChunks_index_lt (data : List UInt8) (state : σ) (buffer : Buffer) (i : ℕ) :
    data.length < (fullChunks A data state buffer i).2.2 + 64 := by
  fun_induction fullChunks A data state buffer i with
  | case1 state buffer i h buffer' ih => exact ih
  | case2 state buffer i h => exact Nat.lt_of_not_le h

/-- `update(data)`. -/
def Hasher.update (h : Hasher σ) (data : List UInt8) : Hasher σ :=
  let totalBits := h.totalBits + UInt64.ofNat data.length * 8
  let p := fillPartial A h data
  let c := fullChunks A data p.1.state p.1.buffer p.2
  -- stash any tail for the next call or finalize
  if c.2.2 < data.length then
    { state := c.1
      buffer := c.2.1.write 0 (data.drop c.2.2)
      bufferLen := data.length - c.2.2
      totalBits
      bufferLen_lt := by
        have := fullChunks_index_lt A data p.1.state p.1.buffer p.2
        simp only [c]
        omega }
  else
    { state := c.1
      buffer := c.2.1
      bufferLen := p.1.bufferLen
      totalBits
      bufferLen_lt := p.1.bufferLen_lt }

/-- The loops `while (buffer_len < stop) { buffer[buffer_len++] = 0x00; }`. -/
def zeroFill (buffer : Buffer) (bufferLen stop : ℕ) : Buffer :=
  if bufferLen < stop then zeroFill (buffer.write bufferLen [0]) (bufferLen + 1) stop else buffer
termination_by stop - bufferLen

/-- `pad_and_finalize`: the state and the buffer after it. -/
def padAndFinalize (state : σ) (buffer : Buffer) (bufferLen : ℕ) (totalBits : UInt64) :
    σ × Buffer :=
  let buffer := buffer.write bufferLen [0x80]
  let bufferLen := bufferLen + 1
  -- if there is not enough room for the 8-byte length, this block is flushed first
  let flushed : σ × Buffer × ℕ :=
    if bufferLen > 56 then
      let buffer := zeroFill buffer bufferLen 64
      (A.processBlock state buffer, buffer, 0)
    else (state, buffer, bufferLen)
  let buffer := zeroFill flushed.2.1 flushed.2.2 56
  let buffer := buffer.write 56 (A.storeLength totalBits)
  (A.processBlock flushed.1 buffer, buffer)

/-- `finalize()`: the digest, and the object after it. -/
def Hasher.finalize (h : Hasher σ) : List UInt8 × Hasher σ :=
  let f := padAndFinalize A h.state h.buffer h.bufferLen h.totalBits
  (A.digest f.1, { h with state := f.1, buffer := f.2 }.reset A)

/-- The one-shot helpers: a new object, one `update`, `finalize`. -/
def oneShot (data : List UInt8) : List UInt8 :=
  (((Hasher.new A).update A data).finalize A).1

/-! ### SHA-256 -/

namespace Sha256

/-- The first 32 bits of the fractional parts of the cube roots of the first 64 primes. -/
def kSha256K : Vector UInt32 64 := #v[
  0x428a2f98, 0x71374491, 0xb5c0fbcf, 0xe9b5dba5, 0x3956c25b, 0x59f111f1, 0x923f82a4, 0xab1c5ed5,
  0xd807aa98, 0x12835b01, 0x243185be, 0x550c7dc3, 0x72be5d74, 0x80deb1fe, 0x9bdc06a7, 0xc19bf174,
  0xe49b69c1, 0xefbe4786, 0x0fc19dc6, 0x240ca1cc, 0x2de92c6f, 0x4a7484aa, 0x5cb0a9dc, 0x76f988da,
  0x983e5152, 0xa831c66d, 0xb00327c8, 0xbf597fc7, 0xc6e00bf3, 0xd5a79147, 0x06ca6351, 0x14292967,
  0x27b70a85, 0x2e1b2138, 0x4d2c6dfc, 0x53380d13, 0x650a7354, 0x766a0abb, 0x81c2c92e, 0x92722c85,
  0xa2bfe8a1, 0xa81a664b, 0xc24b8b70, 0xc76c51a3, 0xd192e819, 0xd6990624, 0xf40e3585, 0x106aa070,
  0x19a4c116, 0x1e376c08, 0x2748774c, 0x34b0bcb5, 0x391c0cb3, 0x4ed8aa4a, 0x5b9cca4f, 0x682e6ff3,
  0x748f82ee, 0x78a5636f, 0x84c87814, 0x8cc70208, 0x90befffa, 0xa4506ceb, 0xbef9a3f7, 0xc67178f2]

def kSha256IV : Vector UInt32 8 := #v[
  0x6a09e667, 0xbb67ae85, 0x3c6ef372, 0xa54ff53a, 0x510e527f, 0x9b05688c, 0x1f83d9ab, 0x5be0cd19]

/-- The value that the second loop over `w` stores in `w[t]`. -/
def scheduleWord (w : Vector UInt32 64) (t : ℕ) : UInt32 :=
  let s0 := rotr32 (w.getD (t - 15) 0) 7 ^^^ rotr32 (w.getD (t - 15) 0) 18 ^^^
    w.getD (t - 15) 0 >>> 3
  let s1 := rotr32 (w.getD (t - 2) 0) 17 ^^^ rotr32 (w.getD (t - 2) 0) 19 ^^^
    w.getD (t - 2) 0 >>> 10
  w.getD (t - 16) 0 + s0 + w.getD (t - 7) 0 + s1

/-- The array `w` of `process_block`. -/
def schedule (buffer : Buffer) : Vector UInt32 64 :=
  let w := (List.range 16).foldl (fun w t => w.setIfInBounds t (loadBe32 buffer (t * 4)))
    (Vector.replicate 64 0)
  (List.range' 16 48).foldl (fun w t => w.setIfInBounds t (scheduleWord w t)) w

/-- The variables `a` to `h` of `process_block`. -/
structure Vars where
  (a b c d e f g h : UInt32)

/-- The body of the loop over the 64 rounds. -/
def round (w : Vector UInt32 64) (v : Vars) (t : ℕ) : Vars :=
  let S1 := rotr32 v.e 6 ^^^ rotr32 v.e 11 ^^^ rotr32 v.e 25
  let ch := v.e &&& v.f ^^^ ~~~v.e &&& v.g
  let T1 := v.h + S1 + ch + kSha256K.getD t 0 + w.getD t 0
  let S0 := rotr32 v.a 2 ^^^ rotr32 v.a 13 ^^^ rotr32 v.a 22
  let mj := v.a &&& v.b ^^^ v.a &&& v.c ^^^ v.b &&& v.c
  let T2 := S0 + mj
  { h := v.g, g := v.f, f := v.e, e := v.d + T1, d := v.c, c := v.b, b := v.a, a := T1 + T2 }

/-- The variables after the 64 rounds. -/
def rounds (w : Vector UInt32 64) (v : Vars) : Vars := (List.range 64).foldl (round w) v

/-- The additions to `state_` at the end of `process_block`. -/
def addVars (state : Vector UInt32 8) (v : Vars) : Vector UInt32 8 :=
  #v[state[0] + v.a, state[1] + v.b, state[2] + v.c, state[3] + v.d,
    state[4] + v.e, state[5] + v.f, state[6] + v.g, state[7] + v.h]

/-- `process_block`. -/
def processBlock (state : Vector UInt32 8) (buffer : Buffer) : Vector UInt32 8 :=
  addVars state (rounds (schedule buffer)
    { a := state[0], b := state[1], c := state[2], d := state[3],
      e := state[4], f := state[5], g := state[6], h := state[7] })

/-- The class `Sha256`. -/
def algorithm : Algorithm (Vector UInt32 8) where
  iv := kSha256IV
  processBlock
  storeLength := storeBe64
  digest state := state.toList.flatMap storeBe32

end Sha256

/-! ### SHA-1 -/

namespace Sha1

def kSha1IV : Vector UInt32 5 := #v[0x67452301, 0xefcdab89, 0x98badcfe, 0x10325476, 0xc3d2e1f0]

/-- The value that the second loop over `w` stores in `w[t]`. -/
def scheduleWord (w : Vector UInt32 80) (t : ℕ) : UInt32 :=
  rotl32 (w.getD (t - 3) 0 ^^^ w.getD (t - 8) 0 ^^^ w.getD (t - 14) 0 ^^^ w.getD (t - 16) 0) 1

/-- The array `w` of `process_block`. -/
def schedule (buffer : Buffer) : Vector UInt32 80 :=
  let w := (List.range 16).foldl (fun w t => w.setIfInBounds t (loadBe32 buffer (t * 4)))
    (Vector.replicate 80 0)
  (List.range' 16 64).foldl (fun w t => w.setIfInBounds t (scheduleWord w t)) w

/-- The variables `a` to `e` of `process_block`. -/
structure Vars where
  (a b c d e : UInt32)

/-- The variables `f` and `k` of a round. -/
def fk (v : Vars) (t : ℕ) : UInt32 × UInt32 :=
  if t < 20 then (v.b &&& v.c ||| ~~~v.b &&& v.d, 0x5a827999)
  else if t < 40 then (v.b ^^^ v.c ^^^ v.d, 0x6ed9eba1)
  else if t < 60 then (v.b &&& v.c ||| v.b &&& v.d ||| v.c &&& v.d, 0x8f1bbcdc)
  else (v.b ^^^ v.c ^^^ v.d, 0xca62c1d6)

/-- The body of the loop over the 80 rounds. -/
def round (w : Vector UInt32 80) (v : Vars) (t : ℕ) : Vars :=
  let temp := rotl32 v.a 5 + (fk v t).1 + v.e + (fk v t).2 + w.getD t 0
  { e := v.d, d := v.c, c := rotl32 v.b 30, b := v.a, a := temp }

/-- The variables after the 80 rounds. -/
def rounds (w : Vector UInt32 80) (v : Vars) : Vars := (List.range 80).foldl (round w) v

/-- The additions to `state_` at the end of `process_block`. -/
def addVars (state : Vector UInt32 5) (v : Vars) : Vector UInt32 5 :=
  #v[state[0] + v.a, state[1] + v.b, state[2] + v.c, state[3] + v.d, state[4] + v.e]

/-- `process_block`. -/
def processBlock (state : Vector UInt32 5) (buffer : Buffer) : Vector UInt32 5 :=
  addVars state (rounds (schedule buffer)
    { a := state[0], b := state[1], c := state[2], d := state[3], e := state[4] })

/-- The class `Sha1`. -/
def algorithm : Algorithm (Vector UInt32 5) where
  iv := kSha1IV
  processBlock
  storeLength := storeBe64
  digest state := state.toList.flatMap storeBe32

end Sha1

/-! ### MD5 -/

namespace Md5

def kMd5K : Vector UInt32 64 := #v[
  0xd76aa478, 0xe8c7b756, 0x242070db, 0xc1bdceee, 0xf57c0faf, 0x4787c62a, 0xa8304613, 0xfd469501,
  0x698098d8, 0x8b44f7af, 0xffff5bb1, 0x895cd7be, 0x6b901122, 0xfd987193, 0xa679438e, 0x49b40821,
  0xf61e2562, 0xc040b340, 0x265e5a51, 0xe9b6c7aa, 0xd62f105d, 0x02441453, 0xd8a1e681, 0xe7d3fbc8,
  0x21e1cde6, 0xc33707d6, 0xf4d50d87, 0x455a14ed, 0xa9e3e905, 0xfcefa3f8, 0x676f02d9, 0x8d2a4c8a,
  0xfffa3942, 0x8771f681, 0x6d9d6122, 0xfde5380c, 0xa4beea44, 0x4bdecfa9, 0xf6bb4b60, 0xbebfbc70,
  0x289b7ec6, 0xeaa127fa, 0xd4ef3085, 0x04881d05, 0xd9d4d039, 0xe6db99e5, 0x1fa27cf8, 0xc4ac5665,
  0xf4292244, 0x432aff97, 0xab9423a7, 0xfc93a039, 0x655b59c3, 0x8f0ccc92, 0xffeff47d, 0x85845dd1,
  0x6fa87e4f, 0xfe2ce6e0, 0xa3014314, 0x4e0811a1, 0xf7537e82, 0xbd3af235, 0x2ad7d2bb, 0xeb86d391]

def kMd5R : Vector UInt32 64 := #v[
  7, 12, 17, 22, 7, 12, 17, 22, 7, 12, 17, 22, 7, 12, 17, 22,
  5, 9, 14, 20, 5, 9, 14, 20, 5, 9, 14, 20, 5, 9, 14, 20,
  4, 11, 16, 23, 4, 11, 16, 23, 4, 11, 16, 23, 4, 11, 16, 23,
  6, 10, 15, 21, 6, 10, 15, 21, 6, 10, 15, 21, 6, 10, 15, 21]

def kMd5IV : Vector UInt32 4 := #v[0x67452301, 0xefcdab89, 0x98badcfe, 0x10325476]

/-- The variables `a` to `d` of `process_block`. -/
structure Vars where
  (a b c d : UInt32)

/-- The variables `f` and `g` of a step. -/
def fg (v : Vars) (i : ℕ) : UInt32 × ℕ :=
  if i < 16 then (v.b &&& v.c ||| ~~~v.b &&& v.d, i)
  else if i < 32 then (v.d &&& v.b ||| ~~~v.d &&& v.c, (5 * i + 1) % 16)
  else if i < 48 then (v.b ^^^ v.c ^^^ v.d, (3 * i + 5) % 16)
  else (v.c ^^^ (v.b ||| ~~~v.d), (7 * i) % 16)

/-- The body of the loop over the 64 steps. -/
def round (m : Vector UInt32 16) (v : Vars) (i : ℕ) : Vars :=
  let temp := v.d
  { d := v.c, c := v.b,
    b := v.b + rotl32 (v.a + (fg v i).1 + kMd5K.getD i 0 + m.getD (fg v i).2 0)
      (kMd5R.getD i 0).toNat,
    a := temp }

/-- The variables after the 64 steps. -/
def rounds (m : Vector UInt32 16) (v : Vars) : Vars := (List.range 64).foldl (round m) v

/-- The array `m` of `process_block`. -/
def words (buffer : Buffer) : Vector UInt32 16 :=
  (List.range 16).foldl (fun m t => m.setIfInBounds t (loadLe32 buffer (t * 4)))
    (Vector.replicate 16 0)

/-- The additions to `state_` at the end of `process_block`. -/
def addVars (state : Vector UInt32 4) (v : Vars) : Vector UInt32 4 :=
  #v[state[0] + v.a, state[1] + v.b, state[2] + v.c, state[3] + v.d]

/-- `process_block`. -/
def processBlock (state : Vector UInt32 4) (buffer : Buffer) : Vector UInt32 4 :=
  addVars state (rounds (words buffer)
    { a := state[0], b := state[1], c := state[2], d := state[3] })

/-- The class `Md5`. -/
def algorithm : Algorithm (Vector UInt32 4) where
  iv := kMd5IV
  processBlock
  storeLength := storeLe64
  digest state := state.toList.flatMap storeLe32

end Md5

/-! ### The standards: numbers and bytes -/

/-- The `n` low bytes of a number, the most significant first. -/
def bytesBE (n v : ℕ) : List UInt8 :=
  (List.range n).map fun i => UInt8.ofNat (v / 256 ^ (n - 1 - i))

/-- The `n` low bytes of a number, the least significant first. -/
def bytesLE (n v : ℕ) : List UInt8 := (List.range n).map fun i => UInt8.ofNat (v / 256 ^ i)

/-- The number that bytes stand for, the most significant first. -/
def ofBytesBE (bytes : List UInt8) : ℕ := bytes.foldl (fun v c => 256 * v + c.toNat) 0

/-- The number that bytes stand for, the least significant first. -/
def ofBytesLE (bytes : List UInt8) : ℕ := bytes.foldr (fun c v => c.toNat + 256 * v) 0

/-- The `t`-th group of four bytes of a block. -/
def fourBytes (block : List UInt8) (t : ℕ) : List UInt8 := (block.drop (4 * t)).take 4

/-! ### The standards: padding and iteration -/

/-- A digest with blocks of 64 bytes: its initial value, its compression function, the eight bytes
that end the padded message, and the bytes of the last state. -/
structure Standard (σ : Type) where
  initial : σ
  compress : σ → List UInt8 → σ
  lengthBytes : ℕ → List UInt8
  output : σ → List UInt8

namespace Standard

variable {σ : Type} (S : Standard σ)

/-- The least number of zero bytes that, with the byte `0x80` and the eight bytes of the length,
brings a message of `n` bytes to whole blocks. -/
def zeroBytes (n : ℕ) : ℕ := (119 - n % 64) % 64

/-- The padded message: the byte `0x80`, zeros, and the length of the message in bits. -/
def pad (m : List UInt8) : List UInt8 :=
  m ++ ([0x80] ++ List.replicate (zeroBytes m.length) 0 ++ S.lengthBytes (8 * m.length))

/-- The digest of a message. -/
def hash (m : List UInt8) : List UInt8 :=
  S.output (iterateBlocks S.compress 64 S.initial (S.pad m))

/-- The circular left shift by `n` bits, `0 < n < 32`. -/
def circularShift (n x : UInt32) : UInt32 := x <<< n ||| x >>> (32 - n)

/-! ### The standard of SHA-256 -/

namespace SHA256

/-- The circular right shift by `n` bits, `0 < n < 32`. -/
def rotr (n x : UInt32) : UInt32 := x >>> n ||| x <<< (32 - n)

def ch (x y z : UInt32) : UInt32 := (x &&& y) ^^^ (~~~x &&& z)

def maj (x y z : UInt32) : UInt32 := (x &&& y) ^^^ (x &&& z) ^^^ (y &&& z)

def bsig0 (x : UInt32) : UInt32 := rotr 2 x ^^^ rotr 13 x ^^^ rotr 22 x

def bsig1 (x : UInt32) : UInt32 := rotr 6 x ^^^ rotr 11 x ^^^ rotr 25 x

def ssig0 (x : UInt32) : UInt32 := rotr 7 x ^^^ rotr 18 x ^^^ x >>> 3

def ssig1 (x : UInt32) : UInt32 := rotr 17 x ^^^ rotr 19 x ^^^ x >>> 10

/-- The first 32 bits of the fractional part of the cube root of the `t`-th prime, primes counted
from zero. -/
noncomputable def k (t : ℕ) : UInt32 :=
  UInt32.ofNat (Nat.nthRoot 3 (Nat.nth Nat.Prime t * 2 ^ 96))

/-- The first 32 bits of the fractional part of the square root of the `t`-th prime. -/
noncomputable def h0 (t : ℕ) : UInt32 := UInt32.ofNat (Nat.sqrt (Nat.nth Nat.Prime t * 2 ^ 64))

/-- The message schedule. -/
def w (block : List UInt8) (t : ℕ) : UInt32 :=
  if t < 16 then UInt32.ofNat (ofBytesBE (fourBytes block t))
  else ssig1 (w block (t - 2)) + w block (t - 7) + ssig0 (w block (t - 15)) + w block (t - 16)

/-- The working variables. -/
structure Working where
  (a b c d e f g h : UInt32)

/-- One of the 64 rounds. -/
noncomputable def round (block : List UInt8) (v : Working) (t : ℕ) : Working :=
  let t₁ := v.h + bsig1 v.e + ch v.e v.f v.g + k t + w block t
  let t₂ := bsig0 v.a + maj v.a v.b v.c
  ⟨t₁ + t₂, v.a, v.b, v.c, v.d + t₁, v.e, v.f, v.g⟩

/-- All rounds. -/
noncomputable def rounds (block : List UInt8) (v : Working) : Working :=
  (List.range 64).foldl (round block) v

/-- The next intermediate digest. -/
def next (s : Vector UInt32 8) (v : Working) : Vector UInt32 8 :=
  #v[v.a + s[0], v.b + s[1], v.c + s[2], v.d + s[3], v.e + s[4], v.f + s[5], v.g + s[6], v.h + s[7]]

/-- The working variables after all rounds are added to the words of the state. -/
noncomputable def compress (s : Vector UInt32 8) (block : List UInt8) : Vector UInt32 8 :=
  next s (rounds block ⟨s[0], s[1], s[2], s[3], s[4], s[5], s[6], s[7]⟩)

end SHA256

/-- SHA-256. -/
noncomputable def sha256 : Standard (Vector UInt32 8) where
  initial := Vector.ofFn fun t => SHA256.h0 t
  compress := SHA256.compress
  lengthBytes := bytesBE 8
  output s := s.toList.flatMap fun v => bytesBE 4 v.toNat

/-! ### The standard of SHA-1 -/

namespace SHA1

/-- The logical functions. -/
def f (t : ℕ) (b c d : UInt32) : UInt32 :=
  if t ≤ 19 then (b &&& c) ||| (~~~b &&& d)
  else if t ≤ 39 then b ^^^ c ^^^ d
  else if t ≤ 59 then (b &&& c) ||| (b &&& d) ||| (c &&& d)
  else b ^^^ c ^^^ d

/-- The constant words. -/
def k (t : ℕ) : UInt32 :=
  if t ≤ 19 then 0x5A827999 else if t ≤ 39 then 0x6ED9EBA1 else if t ≤ 59 then 0x8F1BBCDC
  else 0xCA62C1D6

/-- The message schedule. -/
def w (block : List UInt8) (t : ℕ) : UInt32 :=
  if t < 16 then UInt32.ofNat (ofBytesBE (fourBytes block t))
  else circularShift 1
      (w block (t - 3) ^^^ w block (t - 8) ^^^ w block (t - 14) ^^^ w block (t - 16))

/-- The word buffer. -/
structure Words where
  (a b c d e : UInt32)

/-- One of the 80 steps. -/
def step (block : List UInt8) (v : Words) (t : ℕ) : Words :=
  ⟨circularShift 5 v.a + f t v.b v.c v.d + v.e + w block t + k t, v.a, circularShift 30 v.b,
    v.c, v.d⟩

/-- All steps. -/
def steps (block : List UInt8) (v : Words) : Words := (List.range 80).foldl (step block) v

/-- The next values of the words of the state. -/
def next (s : Vector UInt32 5) (v : Words) : Vector UInt32 5 :=
  #v[s[0] + v.a, s[1] + v.b, s[2] + v.c, s[3] + v.d, s[4] + v.e]

/-- The word buffer after all steps is added to the words of the state. -/
def compress (s : Vector UInt32 5) (block : List UInt8) : Vector UInt32 5 :=
  next s (steps block ⟨s[0], s[1], s[2], s[3], s[4]⟩)

end SHA1

/-- SHA-1. -/
def sha1 : Standard (Vector UInt32 5) where
  initial := #v[0x67452301, 0xEFCDAB89, 0x98BADCFE, 0x10325476, 0xC3D2E1F0]
  compress := SHA1.compress
  lengthBytes := bytesBE 8
  output s := s.toList.flatMap fun v => bytesBE 4 v.toNat

/-! ### The standard of MD5 -/

namespace MD5

/-- The auxiliary functions of the four rounds. -/
def aux : Fin 4 → UInt32 → UInt32 → UInt32 → UInt32
  | 0, x, y, z => (x &&& y) ||| (~~~x &&& z)
  | 1, x, y, z => (x &&& z) ||| (y &&& ~~~z)
  | 2, x, y, z => x ^^^ y ^^^ z
  | 3, x, y, z => y ^^^ (x ||| ~~~z)

/-- The word `k` of the block that each operation reads. -/
def wordIndex : Vector ℕ 64 := #v[
  0, 1, 2, 3, 4, 5, 6, 7, 8, 9, 10, 11, 12, 13, 14, 15,
  1, 6, 11, 0, 5, 10, 15, 4, 9, 14, 3, 8, 13, 2, 7, 12,
  5, 8, 11, 14, 1, 4, 7, 10, 13, 0, 3, 6, 9, 12, 15, 2,
  0, 7, 14, 5, 12, 3, 10, 1, 8, 15, 6, 13, 4, 11, 2, 9]

/-- The shift of each operation: four per round, in turn. -/
def shift (i : ℕ) : UInt32 :=
  (#v[#v[7, 12, 17, 22], #v[5, 9, 14, 20], #v[4, 11, 16, 23], #v[6, 10, 15, 21]] :
    Vector (Vector UInt32 4) 4)[i / 16 % 4][i % 4]

/-- The table of the integer parts of `4294967296 * |sin i|`, with `i` in radians from one on. -/
def table : Vector UInt32 64 := #v[
  0xd76aa478, 0xe8c7b756, 0x242070db, 0xc1bdceee, 0xf57c0faf, 0x4787c62a, 0xa8304613, 0xfd469501,
  0x698098d8, 0x8b44f7af, 0xffff5bb1, 0x895cd7be, 0x6b901122, 0xfd987193, 0xa679438e, 0x49b40821,
  0xf61e2562, 0xc040b340, 0x265e5a51, 0xe9b6c7aa, 0xd62f105d, 0x02441453, 0xd8a1e681, 0xe7d3fbc8,
  0x21e1cde6, 0xc33707d6, 0xf4d50d87, 0x455a14ed, 0xa9e3e905, 0xfcefa3f8, 0x676f02d9, 0x8d2a4c8a,
  0xfffa3942, 0x8771f681, 0x6d9d6122, 0xfde5380c, 0xa4beea44, 0x4bdecfa9, 0xf6bb4b60, 0xbebfbc70,
  0x289b7ec6, 0xeaa127fa, 0xd4ef3085, 0x04881d05, 0xd9d4d039, 0xe6db99e5, 0x1fa27cf8, 0xc4ac5665,
  0xf4292244, 0x432aff97, 0xab9423a7, 0xfc93a039, 0x655b59c3, 0x8f0ccc92, 0xffeff47d, 0x85845dd1,
  0x6fa87e4f, 0xfe2ce6e0, 0xa3014314, 0x4e0811a1, 0xf7537e82, 0xbd3af235, 0x2ad7d2bb, 0xeb86d391]

/-- The registers that play `a`, `b`, `c`, `d` in an operation: `[ABCD]`, `[DABC]`, `[CDAB]`,
`[BCDA]`, in turn. -/
def roles (i : ℕ) : Fin 4 × Fin 4 × Fin 4 × Fin 4 :=
  #v[(0, 1, 2, 3), (3, 0, 1, 2), (2, 3, 0, 1), (1, 2, 3, 0)][i % 4]

/-- The operation `a = b + ((a + aux(b, c, d) + X[k] + T[i]) <<< s)` on the registers. -/
def op (block : List UInt8) (r : Vector UInt32 4) (i : ℕ) : Vector UInt32 4 :=
  let (a, b, c, d) := roles i
  let x := UInt32.ofNat (ofBytesLE (fourBytes block (wordIndex.getD i 0)))
  r.set a (r[b] + circularShift (shift i)
    (r[a] + aux (Fin.ofNat 4 (i / 16)) r[b] r[c] r[d] + x + table.getD i 0))

/-- All operations of the four rounds. -/
def ops (block : List UInt8) (r : Vector UInt32 4) : Vector UInt32 4 :=
  (List.range 64).foldl (op block) r

/-- The next values of the registers. -/
def next (s r : Vector UInt32 4) : Vector UInt32 4 :=
  #v[r[0] + s[0], r[1] + s[1], r[2] + s[2], r[3] + s[3]]

/-- The registers after all operations are added to the words of the state. -/
def compress (s : Vector UInt32 4) (block : List UInt8) : Vector UInt32 4 :=
  next s (ops block s)

end MD5

/-- MD5. -/
def md5 : Standard (Vector UInt32 4) where
  initial := #v[[0x01, 0x23, 0x45, 0x67], [0x89, 0xab, 0xcd, 0xef], [0xfe, 0xdc, 0xba, 0x98],
    [0x76, 0x54, 0x32, 0x10]].map fun word => UInt32.ofNat (ofBytesLE word)
  compress := MD5.compress
  lengthBytes := bytesLE 8
  output s := s.toList.flatMap fun v => bytesLE 4 v.toNat

end Standard

end Papa.Util
