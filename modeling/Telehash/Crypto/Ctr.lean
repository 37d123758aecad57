/-
# Telehash.Crypto.Ctr -- `enc_AES_256_CTR` and `dec_AES_256_CTR`

Both functions make an AES block cipher from the key with `aes.NewCipher` and a counter-mode
stream from it and the IV with `cipher.NewCTR`.  `enc_AES_256_CTR` writes the data through a
`cipher.StreamWriter`: one `XORKeyStream` over all of it.  `dec_AES_256_CTR` copies it through a
`cipher.StreamReader` with `io.Copy`, which is `bytes.Buffer.ReadFrom`: one `XORKeyStream` per
`Read`, over pieces whose sizes the buffer's growth decides.

The generic `ctr` stream of `crypto/cipher` keeps up to `streamBufferSize` bytes of keystream
ahead (`refill`), and `XORKeyStream` takes what it needs from that buffer.  `Ahead` says what a
buffer holds after the first `pos` bytes of keystream are used: the keystream from `pos` on, up to
a block boundary, with the next counter block after it.  The AES block function is a parameter
(`Block`): every result holds for any function from a counter block to a block.

* `Ctr.Inv.xorKeyStream`: from a state where `pos` bytes are used, `XORKeyStream` XORs the text
  with the keystream from `pos` on, whatever the buffer holds;
* `xorKeyStream_append`: so on a stream reached by any calls, two calls give the bytes of one;
* `Ctr.Inv.readFrom`: and `ReadFrom` XORs the reader's bytes with the keystream, whatever sizes
  its reads take;
* `decAes256Ctr_eq_encAes256Ctr`: the two functions are one function;
* `encAes256Ctr_eq_ctrXor`: they fail exactly for a key of another size than 16, 24 or 32 bytes or
  an IV of another size than 16, and otherwise XOR byte `p` of the data with byte `p % 16` of the
  encryption of the IV plus `p / 16`, as a 128-bit big-endian number;
* `decAes256Ctr_encAes256Ctr`: so `dec_AES_256_CTR` gives back what `enc_AES_256_CTR` was given.
-/
import Telehash.Der.Header

namespace Telehash

set_option autoImplicit false

/-- The errors of `enc_AES_256_CTR` and `dec_AES_256_CTR`: `aes.KeySizeError` with the size it
reports, and a run-time panic with its message. -/
inductive CipherError
  | keySizeError (size : Nat)
  | runtimePanic (msg : String)
  deriving DecidableEq, Repr

namespace Cipher

open Json (Bytes)
open Asn1 (natOfBytes bigEndian natOfBytes_bigEndian natOfBytes_bigEndian_of_lt)

/-! ## The block cipher and the counter -/

/-- `aes.BlockSize`. -/
def blockSize : Nat := 16

/-- `streamBufferSize`, the capacity of `ctr`'s keystream buffer: `NewCTR` takes it or the block
size, whichever is larger. -/
def streamBufferSize : Nat := 512

/-- A `cipher.Block` of `aes.BlockSize` bytes, as `ctr` uses it: `Encrypt` of a counter block. -/
structure Block where
  encrypt : Bytes → Bytes
  length_encrypt : ∀ src, (encrypt src).length = blockSize

/-- A block function for examples: the counter block XORed with the byte `0x5c`.  It is no
cipher, but its keystream differs from one counter block to the next. -/
def xorPadBlock : Block :=
  ⟨fun src => (List.range blockSize).map fun i => src.getD i 0 ^^^ 0x5c, fun _ => by simp⟩

/-- `aes.NewCipher(key)`: `KeySizeError` for a key of another size than 16, 24 or 32 bytes, else
the cipher `aes` expands from the key. -/
def newCipher (aes : Bytes → Block) (key : Bytes) : Except CipherError Block :=
  if key.length = 16 ∨ key.length = 24 ∨ key.length = 32 then .ok (aes key)
  else .error (.keySizeError key.length)

/-- The loop `for i := len(x.ctr) - 1; i >= 0; i-- { x.ctr[i]++; if x.ctr[i] != 0 { break } }`
over the counter's bytes from the last one: a byte that wraps to zero carries into the next. -/
def incFromLast : Bytes → Bytes
  | [] => []
  | b :: bs => (b + 1) :: if b + 1 ≠ 0 then bs else incFromLast bs

/-- The counter's increment in `refill`. -/
def incCounter (ctr : Bytes) : Bytes := (incFromLast ctr.reverse).reverse

/-- `xorBytes(dst, a, b)`: the bytes of `a` XORed with those of `b`, as many as the shorter has. -/
def xorBytes (a b : Bytes) : Bytes := List.zipWith (· ^^^ ·) a b

/-! ## The `ctr` stream -/

/-- `crypto/cipher`'s `ctr`: the next counter block, the keystream buffer `out` and how much of it
is used. -/
structure Ctr where
  ctr : Bytes
  out : Bytes
  outUsed : Nat
  deriving DecidableEq, Repr

/-- `cipher.NewCTR(block, iv)`: a panic for an IV that is not one block long, else a stream at
`iv` with an empty buffer. -/
def newCtr (iv : Bytes) : Except CipherError Ctr :=
  if iv.length ≠ blockSize then .error (.runtimePanic "cipher.NewCTR: IV length must equal block size")
  else .ok ⟨iv, [], 0⟩

/-- The loop of `refill`: while a block fits in the buffer's capacity, `Encrypt` the counter block
into the buffer after the keystream it holds, and increment the counter. -/
def fill (b : Block) (ctr out : Bytes) : Bytes × Bytes :=
  if out.length ≤ streamBufferSize - blockSize then fill b (incCounter ctr) (out ++ b.encrypt ctr)
  else (ctr, out)
termination_by streamBufferSize - out.length
decreasing_by
  rw [List.length_append, b.length_encrypt]
  simp only [streamBufferSize, blockSize] at *
  omega

/-- `refill`: the unused keystream copied to the front of the buffer, which `fill` fills up. -/
def Ctr.refill (b : Block) (x : Ctr) : Ctr :=
  let r := fill b x.ctr (x.out.drop x.outUsed)
  ⟨r.1, r.2, 0⟩

/-- The head of `XORKeyStream`'s loop: a refill when at most a block of keystream is left.  In Go
`len(x.out)-bs` is negative for a buffer shorter than a block, here it is `0`: both refill. -/
def Ctr.ready (b : Block) (x : Ctr) : Ctr :=
  if x.outUsed ≥ x.out.length - blockSize then x.refill b else x

/-- The loop always exits by its test: `refill` leaves more than `streamBufferSize - blockSize`
bytes of keystream. -/
theorem length_fill (b : Block) (ctr out : Bytes) :
    streamBufferSize - blockSize < (fill b ctr out).2.length := by
  induction ctr, out using fill.induct b with
  | case1 ctr out h ih => rwa [fill, if_pos h]
  | case2 ctr out h => rw [fill, if_neg h]; exact Nat.lt_of_not_le h

/-- After the head of the loop some keystream is left, so every turn of `XORKeyStream`'s loop
uses at least one byte. -/
theorem Ctr.used_lt_ready (b : Block) (x : Ctr) : (x.ready b).outUsed < (x.ready b).out.length := by
  unfold Ctr.ready
  by_cases h : x.outUsed ≥ x.out.length - blockSize
  · rw [if_pos h]
    have := length_fill b x.ctr (x.out.drop x.outUsed)
    exact Nat.lt_of_le_of_lt (Nat.zero_le _) this
  · rw [if_neg h]
    simp only [blockSize] at h
    omega

/-- `XORKeyStream(dst, src)` with `len(dst) = len(src)`, as `StreamReader` and `StreamWriter` call
it: the bytes written to `dst`, and the stream after.  Each turn uses the keystream left in the
buffer, or as much of it as the text needs. -/
def Ctr.xorKeyStream (b : Block) (x : Ctr) (src : Bytes) : Ctr × Bytes :=
  if _ : src = [] then (x, [])
  else
    let y := x.ready b
    let ks := y.out.drop y.outUsed
    let n := min src.length ks.length
    let r := Ctr.xorKeyStream b { y with outUsed := y.outUsed + n } (src.drop n)
    (r.1, xorBytes (src.take n) ks ++ r.2)
termination_by src.length
decreasing_by
  have := x.used_lt_ready b
  have := List.length_pos.mpr ‹¬src = []›
  simp only [List.length_drop]
  omega

/-! ## Counter mode -/

/-- Counter block `k` from `iv`: `iv` plus `k` as a 16-byte big-endian number, modulo `2^128`. -/
def counterBlock (iv : Bytes) (k : Nat) : Bytes := bigEndian blockSize (natOfBytes iv + k)

/-- Byte `p` of the keystream: byte `p % 16` of the encryption of counter block `p / 16`. -/
def keystreamByte (blk : Block) (iv : Bytes) (p : Nat) : UInt8 :=
  (blk.encrypt (counterBlock iv (p / blockSize))).getD (p % blockSize) 0

/-- `n` bytes of keystream from byte `p` on. -/
def keystream (blk : Block) (iv : Bytes) (p n : Nat) : Bytes :=
  (List.range n).map fun i => keystreamByte blk iv (p + i)

/-- Counter mode from byte `p` of the keystream on: the text XORed with the keystream there. -/
def ctrXor (blk : Block) (iv : Bytes) (p : Nat) (src : Bytes) : Bytes :=
  xorBytes src (keystream blk iv p src.length)

theorem xorBytes_append_right : ∀ {a k : Bytes} (l : Bytes), a.length ≤ k.length →
    xorBytes a (k ++ l) = xorBytes a k
  | [], _, _, _ => rfl
  | _ :: _, [], _, h => absurd h (by simp)
  | _ :: _, _ :: _, l, h => congrArg (_ :: ·) (xorBytes_append_right l (by simpa using h))

section Keystream

variable (blk : Block) (iv : Bytes)

@[simp] theorem length_keystream (p n : Nat) : (keystream blk iv p n).length = n := by
  simp [keystream]

@[simp] theorem length_ctrXor (p : Nat) (src : Bytes) : (ctrXor blk iv p src).length = src.length := by
  simp [ctrXor, xorBytes]

theorem keystream_add (p m n : Nat) :
    keystream blk iv p (m + n) = keystream blk iv p m ++ keystream blk iv (p + m) n := by
  simp only [keystream, List.range_add, List.map_append, List.map_map, Function.comp_def,
    Nat.add_assoc]

/-- From a block boundary, a block of keystream is the encryption of that block's counter. -/
theorem keystream_block {p : Nat} (hp : p % blockSize = 0) :
    keystream blk iv p blockSize = blk.encrypt (counterBlock iv (p / blockSize)) := by
  refine List.ext_getElem (by rw [length_keystream, blk.length_encrypt]) fun i hi _ => ?_
  rw [length_keystream] at hi
  simp only [keystream, List.getElem_map, List.getElem_range, keystreamByte,
    List.getD_eq_getElem?_getD]
  simp only [blockSize] at hp hi ⊢
  rw [show (p + i) / 16 = p / 16 by omega, show (p + i) % 16 = i by omega,
    List.getElem?_eq_getElem, Option.getD_some]

theorem xorBytes_keystream {p n : Nat} {src : Bytes} (h : src.length ≤ n) :
    xorBytes src (keystream blk iv p n) = ctrXor blk iv p src := by
  rw [ctrXor, show n = src.length + (n - src.length) by omega, keystream_add,
    xorBytes_append_right _ (by simp)]

theorem ctrXor_append (p : Nat) (a b : Bytes) :
    ctrXor blk iv p (a ++ b) = ctrXor blk iv p a ++ ctrXor blk iv (p + a.length) b := by
  rw [ctrXor, List.length_append, keystream_add, xorBytes,
    List.zipWith_append _ _ _ _ _ (length_keystream ..).symm]
  rfl

end Keystream

theorem xor_xor_cancel (a k : UInt8) : a ^^^ k ^^^ k = a :=
  UInt8.eq_of_toBitVec_eq <| by
    show a.toBitVec ^^^ k.toBitVec ^^^ k.toBitVec = a.toBitVec
    rw [BitVec.xor_assoc, BitVec.xor_self, BitVec.xor_zero]

theorem xorBytes_xorBytes : ∀ {a k : Bytes}, a.length ≤ k.length → xorBytes (xorBytes a k) k = a
  | [], _, _ => rfl
  | _ :: _, [], h => absurd h (by simp)
  | x :: a, y :: k, h => by
    simp only [xorBytes, List.zipWith_cons_cons, xor_xor_cancel, List.cons.injEq, true_and]
    exact xorBytes_xorBytes (by simpa using h)

/-- Counter mode undoes itself. -/
theorem ctrXor_ctrXor (blk : Block) (iv : Bytes) (p : Nat) (src : Bytes) :
    ctrXor blk iv p (ctrXor blk iv p src) = src := by
  rw [ctrXor, length_ctrXor]
  exact xorBytes_xorBytes (by simp)

/-! ## The counter -/

theorem length_incFromLast : ∀ r : Bytes, (incFromLast r).length = r.length
  | [] => rfl
  | b :: bs => by
    by_cases h : b + 1 ≠ 0
    · simp [incFromLast, h]
    · simp [incFromLast, h, length_incFromLast bs]

/-- A byte plus one wraps to zero exactly at `255`. -/
theorem toNat_add_one (b : UInt8) : (b + 1).toNat = if b.toNat = 255 then 0 else b.toNat + 1 := by
  rw [UInt8.toNat_add, show (1 : UInt8).toNat = 1 from rfl, UInt8.size]
  have := b.toNat_lt
  split <;> omega

theorem ofDigits_incFromLast : ∀ r : Bytes,
    Nat.ofDigits 256 ((incFromLast r).map UInt8.toNat) =
      (Nat.ofDigits 256 (r.map UInt8.toNat) + 1) % 256 ^ r.length
  | [] => rfl
  | b :: bs => by
    have hV : Nat.ofDigits 256 (bs.map UInt8.toNat) < 256 ^ bs.length := by
      simpa [Asn1.natOfBytes_eq_ofDigits] using Asn1.natOfBytes_lt bs.reverse
    have hb := b.toNat_lt
    have hz : b + 1 ≠ 0 ↔ b.toNat ≠ 255 := by
      rw [Ne, UInt8.ext_iff, toNat_add_one, show (0 : UInt8).toNat = 0 from rfl]
      split <;> simp_all
    simp only [incFromLast, List.map_cons, Nat.ofDigits_cons, List.length_cons, pow_succ']
    by_cases h : b.toNat = 255
    · rw [if_neg (by rwa [hz, not_not]), ofDigits_incFromLast bs, toNat_add_one, if_pos h, h,
        show 255 + 256 * Nat.ofDigits 256 (bs.map UInt8.toNat) + 1 =
          256 * (Nat.ofDigits 256 (bs.map UInt8.toNat) + 1) by omega, Nat.mul_mod_mul_left]
      simp
    · rw [if_pos (hz.mpr h), toNat_add_one, if_neg h]
      generalize Nat.ofDigits 256 (bs.map UInt8.toNat) = V at hV ⊢
      generalize 256 ^ bs.length = Q at hV ⊢
      rw [Nat.mod_eq_of_lt (by omega)]
      omega

@[simp] theorem length_incCounter (ctr : Bytes) : (incCounter ctr).length = ctr.length := by
  simp [incCounter, length_incFromLast]

/-- The increment adds one to the counter as a big-endian number, wrapping. -/
theorem natOfBytes_incCounter (ctr : Bytes) :
    natOfBytes (incCounter ctr) = (natOfBytes ctr + 1) % 256 ^ ctr.length := by
  rw [Asn1.natOfBytes_eq_ofDigits, Asn1.natOfBytes_eq_ofDigits, incCounter, List.reverse_reverse,
    ofDigits_incFromLast, List.length_reverse]

@[simp] theorem length_counterBlock (iv : Bytes) (k : Nat) : (counterBlock iv k).length = blockSize :=
  Asn1.length_bigEndian _ _

theorem incCounter_counterBlock (iv : Bytes) (k : Nat) :
    incCounter (counterBlock iv k) = counterBlock iv (k + 1) := by
  refine Asn1.eq_of_natOfBytes_eq (by simp) ?_
  rw [natOfBytes_incCounter, length_counterBlock]
  zify
  rw [counterBlock, counterBlock, natOfBytes_bigEndian, natOfBytes_bigEndian]
  push_cast
  rw [Int.emod_add_emod, Int.add_assoc]

/-- An IV of one block is counter block `0`. -/
theorem counterBlock_zero {iv : Bytes} (h : iv.length = blockSize) : counterBlock iv 0 = iv :=
  Asn1.eq_of_natOfBytes_eq (by simp [h])
    (natOfBytes_bigEndian_of_lt _ _ (by rw [← h]; exact Asn1.natOfBytes_lt iv))

/-! ## What the stream holds -/

/-- `ks` is the keystream from byte `pos` on, up to a block boundary, and `ctr` is the counter
block after it: what `ctr` holds once `pos` bytes of keystream are used. -/
structure Ahead (blk : Block) (iv : Bytes) (pos : Nat) (ctr ks : Bytes) : Prop where
  aligned : (pos + ks.length) % blockSize = 0
  counter : ctr = counterBlock iv ((pos + ks.length) / blockSize)
  buffered : ks = keystream blk iv pos ks.length

section Ahead

variable {blk : Block} {iv : Bytes} {pos : Nat} {ctr ks : Bytes}

/-- A turn of `refill`'s loop keeps the buffer ahead of `pos`. -/
theorem Ahead.step (h : Ahead blk iv pos ctr ks) :
    Ahead blk iv pos (incCounter ctr) (ks ++ blk.encrypt ctr) := by
  have hlen : (ks ++ blk.encrypt ctr).length = ks.length + blockSize := by
    rw [List.length_append, blk.length_encrypt]
  have hal := h.aligned
  refine ⟨?_, ?_, ?_⟩
  · rw [hlen]; simp only [blockSize] at hal ⊢; omega
  · rw [hlen, h.counter, incCounter_counterBlock]
    congr 1; simp only [blockSize] at hal ⊢; omega
  · rw [hlen, keystream_add, ← h.buffered, keystream_block blk iv hal, h.counter]

theorem Ahead.fill (h : Ahead blk iv pos ctr ks) :
    Ahead blk iv pos (fill blk ctr ks).1 (fill blk ctr ks).2 := by
  induction ctr, ks using fill.induct blk with
  | case1 ctr ks hc ih => rw [Cipher.fill, if_pos hc]; exact ih h.step
  | case2 ctr ks hc => rwa [Cipher.fill, if_neg hc]

/-- Using `n` bytes of what is buffered. -/
theorem Ahead.drop (h : Ahead blk iv pos ctr ks) {n : Nat} (hn : n ≤ ks.length) :
    Ahead blk iv (pos + n) ctr (ks.drop n) := by
  have hlen : pos + n + (ks.drop n).length = pos + ks.length := by rw [List.length_drop]; omega
  refine ⟨hlen ▸ h.aligned, hlen ▸ h.counter, ?_⟩
  have hb := h.buffered
  rw [show ks.length = n + (ks.length - n) by omega, keystream_add] at hb
  conv_lhs => rw [hb]
  rw [List.drop_left' (length_keystream ..), List.length_drop]

end Ahead

/-- The stream once the first `pos` bytes of keystream are used: the unused part of its buffer is
ahead of `pos`. -/
def Ctr.Inv (blk : Block) (iv : Bytes) (pos : Nat) (x : Ctr) : Prop :=
  Ahead blk iv pos x.ctr (x.out.drop x.outUsed)

section Inv

variable {blk : Block} {iv : Bytes} {pos : Nat} {x : Ctr}

theorem Ctr.inv_newCtr (h : newCtr iv = .ok x) : x.Inv blk iv 0 := by
  unfold newCtr at h
  by_cases hl : iv.length ≠ blockSize
  · rw [if_pos hl] at h; cases h
  · rw [if_neg hl] at h
    cases h
    refine ⟨by simp, ?_, by simp [keystream]⟩
    rw [not_not] at hl
    simp [counterBlock_zero hl]

theorem Ctr.Inv.refill (h : x.Inv blk iv pos) : (x.refill blk).Inv blk iv pos := by
  have := Ahead.fill h
  simpa [Ctr.Inv, Ctr.refill] using this

theorem Ctr.Inv.ready (h : x.Inv blk iv pos) : (x.ready blk).Inv blk iv pos := by
  unfold Ctr.ready
  by_cases hr : x.outUsed ≥ x.out.length - blockSize
  · rw [if_pos hr]; exact h.refill
  · rwa [if_neg hr]

theorem Ctr.Inv.use (h : x.Inv blk iv pos) {n : Nat} (hn : n ≤ x.out.length - x.outUsed) :
    ({ x with outUsed := x.outUsed + n } : Ctr).Inv blk iv (pos + n) := by
  have := Ahead.drop h (n := n) (by rw [List.length_drop]; exact hn)
  rwa [List.drop_drop] at this

/-- `XORKeyStream` from a stream ahead of `pos`: the text XORed with the keystream from `pos` on,
and the stream ahead of `pos` plus the text's length. -/
theorem Ctr.Inv.xorKeyStream (h : x.Inv blk iv pos) (src : Bytes) :
    (x.xorKeyStream blk src).2 = ctrXor blk iv pos src ∧
      (x.xorKeyStream blk src).1.Inv blk iv (pos + src.length) := by
  revert pos
  induction x, src using Ctr.xorKeyStream.induct blk with
  | case1 x => intro pos h; rw [Ctr.xorKeyStream, dif_pos rfl]; exact ⟨rfl, h⟩
  | case2 x src hs y ks n =>
    rename_i ih
    intro pos h
    have hy : y.Inv blk iv pos := h.ready
    have hn : n ≤ src.length := Nat.min_le_left _ _
    have hks : n ≤ ks.length := Nat.min_le_right _ _
    obtain ⟨ih1, ih2⟩ := ih (hy.use (by simpa [ks] using hks))
    have hbuf : ks = keystream blk iv pos ks.length := hy.buffered
    have hsplit : ctrXor blk iv pos src =
        ctrXor blk iv pos (src.take n) ++ ctrXor blk iv (pos + n) (src.drop n) := by
      conv_lhs => rw [← List.take_append_drop n src]
      rw [ctrXor_append, List.length_take, Nat.min_eq_left hn]
    have hlen : pos + n + (src.drop n).length = pos + src.length := by
      rw [List.length_drop]; omega
    rw [Ctr.xorKeyStream, dif_neg hs]
    refine ⟨?_, hlen ▸ ih2⟩
    show xorBytes (src.take n) ks ++ _ = _
    rw [ih1, hsplit, hbuf, xorBytes_keystream _ _ (by rw [List.length_take]; omega)]

end Inv

/-! ## `bytes.Buffer` and `io.Copy` -/

/-- `bytes.MinRead`. -/
def minRead : Nat := 512

/-- `class_to_size` of the Go runtime: the sizes of its small size classes, in bytes. -/
def sizeClasses : List Nat :=
  [8, 16, 24, 32, 48, 64, 80, 96, 112, 128, 144, 160, 176, 192, 208, 224, 240, 256, 288, 320, 352,
    384, 416, 448, 480, 512, 576, 640, 704, 768, 896, 1024, 1152, 1280, 1408, 1536, 1792, 2048,
    2304, 2688, 3072, 3200, 3456, 4096, 4864, 5376, 6144, 6528, 6784, 6912, 8192, 9472, 9728, 10240,
    10880, 12288, 13568, 14336, 16384, 18432, 19072, 20480, 21760, 24576, 27264, 28672, 32768]

/-- `roundupsize(size, true)`, the capacity `append` gives a new slice of `size` bytes: the
smallest size class that holds them, or whole pages of 8192 bytes above the largest class. -/
def roundupsize (size : Nat) : Nat :=
  if size ≤ 32768 then (sizeClasses.find? (size ≤ ·)).getD size else (size + 8191) / 8192 * 8192

theorem le_roundupsize (size : Nat) : size ≤ roundupsize size := by
  unfold roundupsize
  split
  · cases found : sizeClasses.find? (size ≤ ·) with
    | none => exact le_refl _
    | some c => simpa using List.find?_some found
  · omega

/-- A `bytes.Buffer` nothing is read from: its bytes and the capacity of its slice. -/
structure Buffer where
  buf : Bytes
  cap : Nat
  length_le_cap : buf.length ≤ cap

/-- `Buffer.grow(n)` of a buffer nothing is read from: when `n` more bytes do not fit, `growSlice`
asks `append` for a slice of `len + n` bytes, and of at least twice the capacity. -/
def Buffer.grow (b : Buffer) (n : Nat) : Buffer :=
  if b.cap < b.buf.length + n then
    ⟨b.buf, roundupsize (max (b.buf.length + n) (2 * b.cap)),
      le_trans (by omega) (le_roundupsize _)⟩
  else b

theorem Buffer.room_grow (b : Buffer) (n : Nat) : n ≤ (b.grow n).cap - (b.grow n).buf.length := by
  have := b.length_le_cap
  unfold Buffer.grow
  by_cases h : b.cap < b.buf.length + n
  · rw [if_pos h]
    have := le_roundupsize (max (b.buf.length + n) (2 * b.cap))
    dsimp only
    omega
  · rw [if_neg h]; omega

theorem Ctr.length_xorKeyStream (b : Block) (x : Ctr) (src : Bytes) :
    (x.xorKeyStream b src).2.length = src.length := by
  induction x, src using Ctr.xorKeyStream.induct b with
  | case1 x => rw [Ctr.xorKeyStream, dif_pos rfl]
  | case2 x src h y ks n ih =>
    have := x.used_lt_ready b
    rw [Ctr.xorKeyStream, dif_neg h]
    dsimp only [y, ks, n] at ih
    rw [List.length_append, ih]
    simp only [xorBytes, List.length_zipWith, List.length_take, List.length_drop]
    omega

/-- `b.ReadFrom(r)` with `r` a `cipher.StreamReader` of the stream `x` over a `bytes.Reader` holding
`src`: make room for `MinRead` bytes, `Read` as many as there is room for (`StreamReader.Read`
XORs them with the keystream in place) and append them, until the reader is at its end. -/
def readFrom (blk : Block) (b : Buffer) (x : Ctr) (src : Bytes) : Buffer × Ctr :=
  let g := b.grow minRead
  if h : src = [] then (g, x)
  else
    let chunk := src.take (g.cap - g.buf.length)
    let r := x.xorKeyStream blk chunk
    readFrom blk ⟨g.buf ++ r.2, g.cap, by
      have := g.length_le_cap
      rw [List.length_append, x.length_xorKeyStream, List.length_take]; omega⟩ r.1
      (src.drop chunk.length)
termination_by src.length
decreasing_by
  have := b.room_grow minRead
  have := List.length_pos.mpr h
  simp only [List.length_drop, List.length_take, minRead] at *
  omega

/-! ## The two functions -/

/-- `dec_AES_256_CTR(key, iv, data)`: `io.Copy` from a `StreamReader` over `data` into a buffer
made with capacity 1500. -/
def decAes256Ctr (aes : Bytes → Block) (key iv data : Bytes) : Except CipherError Bytes := do
  let blk ← newCipher aes key
  let x ← newCtr iv
  pure (readFrom blk ⟨[], 1500, Nat.zero_le _⟩ x data).1.buf

/-- `enc_AES_256_CTR(key, iv, data)`: one `StreamWriter.Write` of `data`, which XORs it into a new
slice and writes that to the empty buffer. -/
def encAes256Ctr (aes : Bytes → Block) (key iv data : Bytes) : Except CipherError Bytes := do
  let blk ← newCipher aes key
  let x ← newCtr iv
  pure (x.xorKeyStream blk data).2

/-! ## Runs of the stream -/

/-- The streams `NewCTR` makes from an IV, and those `XORKeyStream` calls make of them. -/
inductive Ctr.Reachable (blk : Block) (iv : Bytes) : Ctr → Prop
  | init {x : Ctr} : newCtr iv = .ok x → Ctr.Reachable blk iv x
  | xor {x : Ctr} (src : Bytes) : Ctr.Reachable blk iv x →
      Ctr.Reachable blk iv (x.xorKeyStream blk src).1

section Runs

variable {blk : Block} {iv : Bytes} {pos : Nat} {x : Ctr}

theorem Ctr.Reachable.inv (h : x.Reachable blk iv) : ∃ pos, x.Inv blk iv pos := by
  induction h with
  | init hx => exact ⟨0, Ctr.inv_newCtr hx⟩
  | xor src _ ih =>
    obtain ⟨pos, hp⟩ := ih
    exact ⟨_, (hp.xorKeyStream src).2⟩

/-- On every stream a program can reach, two `XORKeyStream` calls give the bytes that one call on
the two texts together gives: where the text is cut does not matter, though the buffer's refills
fall elsewhere. -/
theorem xorKeyStream_append (h : x.Reachable blk iv) (a b : Bytes) :
    (x.xorKeyStream blk (a ++ b)).2 =
      (x.xorKeyStream blk a).2 ++ ((x.xorKeyStream blk a).1.xorKeyStream blk b).2 := by
  obtain ⟨pos, hp⟩ := h.inv
  rw [(hp.xorKeyStream _).1, (hp.xorKeyStream a).1, ((hp.xorKeyStream a).2.xorKeyStream b).1,
    ctrXor_append]

/-- A stream of `xorPadBlock` that has used 490 bytes of keystream: 22 are left before the
refill at 496.  Ten bytes and then ten more refill between the two calls, one call of twenty does
not, and the bytes agree. -/
theorem xorKeyStream_append_across_refill :
    Ctr.Reachable xorPadBlock ((List.range 16).map UInt8.ofNat)
        ((⟨(List.range 16).map UInt8.ofNat, [], 0⟩ : Ctr).xorKeyStream xorPadBlock
          (List.replicate 490 7)).1 ∧
      (((⟨(List.range 16).map UInt8.ofNat, [], 0⟩ : Ctr).xorKeyStream xorPadBlock
          (List.replicate 490 7)).1.xorKeyStream xorPadBlock
            (List.replicate 10 1 ++ List.replicate 10 2)).2 =
        (((⟨(List.range 16).map UInt8.ofNat, [], 0⟩ : Ctr).xorKeyStream xorPadBlock
            (List.replicate 490 7)).1.xorKeyStream xorPadBlock (List.replicate 10 1)).2 ++
          ((((⟨(List.range 16).map UInt8.ofNat, [], 0⟩ : Ctr).xorKeyStream xorPadBlock
            (List.replicate 490 7)).1.xorKeyStream xorPadBlock (List.replicate 10 1)).1.xorKeyStream
              xorPadBlock (List.replicate 10 2)).2 :=
  have h : Ctr.Reachable xorPadBlock ((List.range 16).map UInt8.ofNat)
      ((⟨(List.range 16).map UInt8.ofNat, [], 0⟩ : Ctr).xorKeyStream xorPadBlock
        (List.replicate 490 7)).1 := .xor _ (.init rfl)
  ⟨h, xorKeyStream_append h _ _⟩

@[simp] theorem Buffer.buf_grow (b : Buffer) (n : Nat) : (b.grow n).buf = b.buf := by
  unfold Buffer.grow
  by_cases h : b.cap < b.buf.length + n
  · rw [if_pos h]
  · rw [if_neg h]

/-- `ReadFrom` from a stream ahead of `pos`: the buffer gets the reader's bytes XORed with the
keystream from `pos` on, whatever sizes its `Read`s take. -/
theorem Ctr.Inv.readFrom (h : x.Inv blk iv pos) (b : Buffer) (src : Bytes) :
    (readFrom blk b x src).1.buf = b.buf ++ ctrXor blk iv pos src ∧
      (readFrom blk b x src).2.Inv blk iv (pos + src.length) := by
  revert pos
  induction b, x, src using readFrom.induct blk with
  | case1 b x =>
    intro pos h
    rw [readFrom, dif_pos rfl]
    exact ⟨by simp [ctrXor, xorBytes], h⟩
  | case2 b x src g hs chunk r =>
    rename_i ih
    intro pos h
    obtain ⟨hr1, hr2⟩ := h.xorKeyStream chunk
    obtain ⟨ih1, ih2⟩ := ih hr2
    have hpre : chunk ++ src.drop chunk.length = src :=
      List.prefix_iff_eq_append.mp (List.take_prefix _ _)
    have hlen : pos + chunk.length + (src.drop chunk.length).length = pos + src.length := by
      rw [List.length_drop, List.length_take]; omega
    rw [readFrom, dif_neg hs]
    refine ⟨?_, hlen ▸ ih2⟩
    rw [ih1]
    show (g.buf ++ r.2) ++ _ = _
    rw [hr1, List.append_assoc, ← ctrXor_append, hpre, Buffer.buf_grow]

end Runs

/-- The two functions on a key and an IV: the key size check of `aes.NewCipher`, the IV check of
`cipher.NewCTR`, and counter mode from the start of the keystream. -/
theorem encAes256Ctr_spec (aes : Bytes → Block) (key iv data : Bytes) :
    encAes256Ctr aes key iv data =
      (do let blk ← newCipher aes key; let _ ← newCtr iv; pure (ctrXor blk iv 0 data)) := by
  unfold encAes256Ctr
  cases newCipher aes key with
  | error e => rfl
  | ok blk =>
    cases hx : newCtr iv with
    | error e => rfl
    | ok x =>
      have h : x.Inv blk iv 0 := Ctr.inv_newCtr hx
      simp only [bind, Except.bind, (h.xorKeyStream data).1]

theorem decAes256Ctr_spec (aes : Bytes → Block) (key iv data : Bytes) :
    decAes256Ctr aes key iv data =
      (do let blk ← newCipher aes key; let _ ← newCtr iv; pure (ctrXor blk iv 0 data)) := by
  unfold decAes256Ctr
  cases newCipher aes key with
  | error e => rfl
  | ok blk =>
    cases hx : newCtr iv with
    | error e => rfl
    | ok x =>
      have h : x.Inv blk iv 0 := Ctr.inv_newCtr hx
      simp only [bind, Except.bind, (h.readFrom _ data).1]
      rfl

/-- `enc_AES_256_CTR` and `dec_AES_256_CTR` compute one function: reading the data in pieces
through `io.Copy` XORs the same keystream as writing it at once. -/
theorem decAes256Ctr_eq_encAes256Ctr (aes : Bytes → Block) (key iv data : Bytes) :
    decAes256Ctr aes key iv data = encAes256Ctr aes key iv data := by
  rw [decAes256Ctr_spec, encAes256Ctr_spec]

/-- What `enc_AES_256_CTR` returns: `KeySizeError` for a key of another size than 16, 24 or 32
bytes (the name says AES-256, the code takes AES-128 and AES-192 keys as well), the panic of
`NewCTR` for an IV of another size than 16 bytes, and otherwise the data XORed with the
keystream, byte `p` with byte `p % 16` of the encryption of the IV plus `p / 16`. -/
theorem encAes256Ctr_eq_ctrXor (aes : Bytes → Block) (key iv data : Bytes) :
    encAes256Ctr aes key iv data =
      if key.length = 16 ∨ key.length = 24 ∨ key.length = 32 then
        if iv.length = blockSize then .ok (ctrXor (aes key) iv 0 data)
        else .error (.runtimePanic "cipher.NewCTR: IV length must equal block size")
      else .error (.keySizeError key.length) := by
  rw [encAes256Ctr_spec]
  unfold newCipher newCtr
  by_cases hk : key.length = 16 ∨ key.length = 24 ∨ key.length = 32
  · by_cases hi : iv.length = blockSize
    · rw [if_pos hk, if_pos hk, if_pos hi, if_neg (not_not.mpr hi)]; rfl
    · rw [if_pos hk, if_pos hk, if_neg hi, if_pos hi]; rfl
  · rw [if_neg hk, if_neg hk]; rfl

/-- `dec_AES_256_CTR` gives back the data `enc_AES_256_CTR` encrypted with the same key and IV. -/
theorem decAes256Ctr_encAes256Ctr (aes : Bytes → Block) (key iv data out : Bytes)
    (h : encAes256Ctr aes key iv data = .ok out) : decAes256Ctr aes key iv out = .ok data := by
  rw [encAes256Ctr_spec] at h
  rw [decAes256Ctr_spec]
  cases hb : newCipher aes key with
  | error e => rw [hb] at h; cases h
  | ok blk =>
    cases hx : newCtr iv with
    | error e => rw [hb, hx] at h; cases h
    | ok x =>
      simp only [hb, hx, bind, Except.bind, pure, Except.pure, Except.ok.injEq] at h ⊢
      rw [← h, ctrXor_ctrXor]

theorem decAes256Ctr_encAes256Ctr_xorPad :
    encAes256Ctr (fun _ => xorPadBlock) (List.replicate 32 0) ((List.range 16).map UInt8.ofNat)
        [1, 2, 3] = .ok (ctrXor xorPadBlock ((List.range 16).map UInt8.ofNat) 0 [1, 2, 3]) ∧
      decAes256Ctr (fun _ => xorPadBlock) (List.replicate 32 0) ((List.range 16).map UInt8.ofNat)
        (ctrXor xorPadBlock ((List.range 16).map UInt8.ofNat) 0 [1, 2, 3]) = .ok [1, 2, 3] :=
  have h : encAes256Ctr (fun _ => xorPadBlock) (List.replicate 32 0) ((List.range 16).map UInt8.ofNat)
      [1, 2, 3] = .ok (ctrXor xorPadBlock ((List.range 16).map UInt8.ofNat) 0 [1, 2, 3]) := by
    rw [encAes256Ctr_spec]; rfl
  ⟨h, decAes256Ctr_encAes256Ctr _ _ _ _ _ h⟩

end Cipher

end Telehash
