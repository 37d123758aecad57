/-
# Telehash.Crypto.Sha256 -- `hash_SHA256`

`hash_SHA256(data...)` writes each of its arguments to a `sha256.New()` digest and returns
`Sum(nil)`.  The digest of `crypto/sha256` buffers what it is given: `Write` fills the block its
buffer holds and compresses it once full, compresses the whole blocks after it at once with
`block`, and buffers the rest; `checkSum` writes the padding and the length in bits through
`Write`, and panics if a byte is left in the buffer.  The compression of one 64-byte block, the
64 rounds of `blockGeneric`'s loop, is a parameter: every result holds for any compression.

* `Digest.write_spec`: `Write` on a digest whose buffer is not full compresses the whole blocks of
  the buffer and the new bytes, and buffers the rest;
* `Digest.write_append`: so two writes leave the digest one write of both leaves;
* `Digest.checkSum_new_write`: `checkSum` after a message never panics, and gives SHA-256 of it,
  the compression of the message with its padding;
* `hashSha256_eq_sha256`: `hash_SHA256` of any pieces is SHA-256 of the pieces put together.
-/
import Telehash.Der.Integer

namespace Telehash

set_option autoImplicit false

namespace Sha256

open Json (Bytes)
open Asn1 (bigEndian)

/-- `chunk`, the block size of SHA-256. -/
def chunk : Nat := 64

/-- `init0` to `init7`, the initial hash value `Reset` sets. -/
def init : List UInt32 :=
  [0x6A09E667, 0xBB67AE85, 0x3C6EF372, 0xA54FF53A, 0x510E527F, 0x9B05688C, 0x1F83D9AB, 0x5BE0CD19]

section Digest

variable (compress : List UInt32 → Bytes → List UInt32)

/-- `block(dig, p)`: `blockGeneric`'s loop `for len(p) >= chunk`, each 64-byte block of `p`
compressed into the hash value by `compress`. -/
def block (h : List UInt32) (p : Bytes) : List UInt32 :=
  if p.length < chunk then h else block (compress h (p.take chunk)) (p.drop chunk)
termination_by p.length
decreasing_by simp only [List.length_drop, chunk] at *; omega

/-- `digest`: the hash value `h`, the bytes `x[:nx]` waiting for their block to fill (the bytes of
`x` past `nx` are never read), and `len`, the `uint64` count of the bytes written. -/
structure Digest where
  h : List UInt32
  x : Bytes
  len : Nat
  deriving DecidableEq, Repr

/-- `sha256.New()`: the initial hash value, with nothing buffered or written. -/
def Digest.new : Digest := ⟨init, [], 0⟩

/-- The first step of `Write`: with bytes in the buffer, `n := copy(d.x[d.nx:], p)` moves as many
of `p` as fit, and a full buffer is compressed and emptied; the hash value, the buffer and what is
left of `p`. -/
def Digest.fillBuffer (d : Digest) (p : Bytes) : List UInt32 × Bytes × Bytes :=
  if 0 < d.x.length then
    let n := min (chunk - d.x.length) p.length
    let x := d.x ++ p.take n
    if x.length = chunk then (block compress d.h x, [], p.drop n) else (d.h, x, p.drop n)
  else (d.h, d.x, p)

/-- `n &^ (chunk - 1)`: `n` with its low six bits cleared, the bytes of the whole blocks in `n`. -/
def wholeBlocks (n : Nat) : Nat := n - n % chunk

/-- The other steps of `Write`: the whole blocks of `p` compressed at once, and the rest, if any,
copied to the buffer. -/
def compressRest (h : List UInt32) (x p : Bytes) : List UInt32 × Bytes :=
  let (h, p) : List UInt32 × Bytes :=
    if chunk ≤ p.length then
      let n := wholeBlocks p.length
      (block compress h (p.take n), p.drop n)
    else (h, p)
  (h, if 0 < p.length then p else x)

/-- `(*digest).Write(p)`, with `d.len += uint64(len(p))` modulo `2^64`. -/
def Digest.write (d : Digest) (p : Bytes) : Digest :=
  let r := d.fillBuffer compress p
  let s := compressRest compress r.1 r.2.1 r.2.2
  ⟨s.1, s.2, (d.len + p.length) % 2 ^ 64⟩

/-- `checkSum`'s scratch array `tmp` once `tmp[0] = 0x80` is set. -/
def tmp : Bytes := 0x80 :: List.replicate 63 0

/-- The loop of `checkSum` that writes the hash value out, each word as 4 big-endian bytes. -/
def digestBytes (h : List UInt32) : Bytes :=
  h.flatMap fun s => [(s >>> 24).toUInt8, (s >>> 16).toUInt8, (s >>> 8).toUInt8, s.toUInt8]

/-- `checkSum`: the padding `tmp[0:56-len%64]` (or `tmp[0:64+56-len%64]`), then the length in bits
`len << 3`, written as 8 big-endian bytes; the panic `d.nx != 0` if a byte is left in the buffer,
else the hash value's bytes. -/
def Digest.checkSum (d : Digest) : Except String Bytes :=
  let len := d.len
  let d := if len % 64 < 56 then d.write compress (tmp.take (56 - len % 64))
    else d.write compress (tmp.take (64 + 56 - len % 64))
  let len := len * 2 ^ 3 % 2 ^ 64
  let d := d.write compress ((List.range 8).map fun i => (len >>> (56 - 8 * i)).toUInt8)
  if d.x.length ≠ 0 then .error "d.nx != 0" else .ok (digestBytes d.h)

/-- `(*digest).Sum(in)`: `checkSum` of a copy of the digest, appended to `in`. -/
def Digest.sum (d : Digest) (inp : Bytes) : Except String Bytes :=
  (d.checkSum compress).map (inp ++ ·)

/-- `hash_SHA256(data...)`: each piece written to `sha256.New()`, then `Sum(nil)`. -/
def hashSha256 (data : List Bytes) : Except String Bytes :=
  (data.foldl (fun d c => d.write compress c) Digest.new).sum compress []

/-! ## SHA-256 -/

/-- The padding of a message of `n` bytes: `0x80`, zeros up to 56 bytes modulo 64, and the length
in bits modulo `2^64` as 8 big-endian bytes. -/
def padding (n : Nat) : Bytes :=
  0x80 :: List.replicate ((119 - n % 64) % 64) 0 ++ bigEndian 8 (8 * n : Nat)

/-- SHA-256 of `m`: the padded message compressed block by block from the initial hash value. -/
def sha256 (m : Bytes) : Bytes := digestBytes (block compress init (m ++ padding m.length))

/-! ## `Write` -/

theorem block_short (h : List UInt32) {p : Bytes} (hp : p.length < chunk) : block compress h p = h := by
  rw [block, if_pos hp]

/-- The blocks of a message cut after whole blocks are compressed as the two parts in turn. -/
theorem block_append (h : List UInt32) (a b : Bytes) (ha : a.length % chunk = 0) :
    block compress h (a ++ b) = block compress (block compress h a) b := by
  induction h, a using block.induct compress with
  | case1 h a hs =>
    have : a = [] := List.eq_nil_of_length_eq_zero (by simp only [chunk] at hs ha; omega)
    subst this
    rw [List.nil_append, block_short compress h (p := []) (by simp [chunk])]
  | case2 h a hs ih =>
    have hs' : chunk ≤ a.length := Nat.le_of_not_lt hs
    have hstep : block compress h a = block compress (compress h (a.take chunk)) (a.drop chunk) := by
      rw [block, if_neg hs]
    rw [hstep, block, if_neg (by rw [List.length_append]; omega), List.take_append_of_le_length hs',
      List.drop_append_of_le_length hs']
    exact ih (by rw [List.length_drop]; simp only [chunk] at ha hs' ⊢; omega)

theorem wholeBlocks_le (n : Nat) : wholeBlocks n ≤ n := Nat.sub_le _ _

theorem wholeBlocks_mod (n : Nat) : wholeBlocks n % chunk = 0 := by
  simp only [wholeBlocks, chunk]; omega

theorem wholeBlocks_of_lt {n : Nat} (h : n < chunk) : wholeBlocks n = 0 := by
  simp only [wholeBlocks, chunk] at h ⊢; omega

theorem ite_length_pos (l : Bytes) : (if 0 < l.length then l else []) = l := by
  cases l <;> simp

theorem compressRest_spec (h : List UInt32) (x p : Bytes) :
    compressRest compress h x p =
      (block compress h (p.take (wholeBlocks p.length)),
        if 0 < (p.drop (wholeBlocks p.length)).length then p.drop (wholeBlocks p.length) else x) := by
  unfold compressRest
  by_cases hp : chunk ≤ p.length
  · rw [if_pos hp]
  · rw [if_neg hp, wholeBlocks_of_lt (Nat.lt_of_not_le hp), List.take_zero, List.drop_zero,
      block_short compress h (by simp [chunk])]

/-- Whole blocks, then the whole blocks after them, are the whole blocks of the two together. -/
theorem block_whole (h : List UInt32) (x p : Bytes) (hx : x.length % chunk = 0) :
    block compress (block compress h x) (p.take (wholeBlocks p.length)) =
        block compress h ((x ++ p).take (wholeBlocks (x ++ p).length)) ∧
      p.drop (wholeBlocks p.length) = (x ++ p).drop (wholeBlocks (x ++ p).length) := by
  have hk : wholeBlocks (x ++ p).length = x.length + wholeBlocks p.length := by
    rw [List.length_append]; simp only [wholeBlocks, chunk] at hx ⊢; omega
  have hle : x.length ≤ x.length + wholeBlocks p.length := Nat.le_add_right _ _
  rw [hk, List.take_append_eq_append_take, List.drop_append_eq_append_drop,
    List.take_of_length_le hle, List.drop_of_length_le hle, Nat.add_sub_cancel_left,
    block_append compress _ _ _ hx, List.nil_append]
  exact ⟨rfl, rfl⟩

/-- `Write` on a digest whose buffer is not full: the whole blocks of the buffer and `p` together
compressed, the rest buffered. -/
theorem Digest.write_spec (d : Digest) (p : Bytes) (hx : d.x.length < chunk) :
    d.write compress p =
      ⟨block compress d.h ((d.x ++ p).take (wholeBlocks (d.x ++ p).length)),
        (d.x ++ p).drop (wholeBlocks (d.x ++ p).length), (d.len + p.length) % 2 ^ 64⟩ := by
  unfold Digest.write Digest.fillBuffer
  by_cases h0 : 0 < d.x.length
  · rw [if_pos h0]
    dsimp only
    generalize hn : min (chunk - d.x.length) p.length = n
    have hx1 : (d.x ++ p.take n).length = d.x.length + n := by
      rw [List.length_append, List.length_take]; omega
    have hsplit : d.x ++ p = (d.x ++ p.take n) ++ p.drop n := by
      rw [List.append_assoc, List.take_append_drop]
    by_cases hfull : (d.x ++ p.take n).length = chunk
    · -- the buffer fills, and is compressed with the whole blocks after it
      obtain ⟨hb, hd⟩ := block_whole compress d.h _ (p.drop n) (by rw [hfull]; simp [chunk])
      rw [if_pos hfull, compressRest_spec, ite_length_pos, hsplit, hb, hd]
    · -- all of `p` goes to the buffer, which does not fill
      have hnp : n = p.length := by simp only [chunk] at *; omega
      have hlt : (d.x ++ p).length < chunk := by
        rw [List.length_append]; simp only [chunk] at *; omega
      rw [if_neg hfull, compressRest_spec, hnp, List.take_length, List.drop_length,
        wholeBlocks_of_lt hlt]
      simp [block_short compress d.h (p := []) (by simp [chunk])]
  · rw [if_neg h0]
    dsimp only
    rw [compressRest_spec, List.eq_nil_of_length_eq_zero (Nat.eq_zero_of_not_pos h0),
      ite_length_pos, List.nil_append]

variable {compress}

theorem Digest.length_x_write (d : Digest) (p : Bytes) (hx : d.x.length < chunk) :
    (d.write compress p).x.length < chunk := by
  rw [d.write_spec compress p hx, List.length_drop]
  simp only [wholeBlocks, chunk]
  omega

/-- Two writes leave the digest one write of both leaves: where the bytes are cut does not matter. -/
theorem Digest.write_append (d : Digest) (a b : Bytes) (hx : d.x.length < chunk) :
    (d.write compress a).write compress b = d.write compress (a ++ b) := by
  have hsplit : d.x ++ (a ++ b) =
      (d.x ++ a).take (wholeBlocks (d.x ++ a).length) ++
        ((d.x ++ a).drop (wholeBlocks (d.x ++ a).length) ++ b) := by
    rw [← List.append_assoc, ← List.append_assoc, List.take_append_drop]
  obtain ⟨hb, hd⟩ := block_whole compress d.h ((d.x ++ a).take (wholeBlocks (d.x ++ a).length))
    ((d.x ++ a).drop (wholeBlocks (d.x ++ a).length) ++ b)
    (by rw [List.length_take_of_le (wholeBlocks_le _)]; exact wholeBlocks_mod _)
  rw [Digest.write_spec _ _ _ (d.length_x_write a hx), d.write_spec compress a hx,
    d.write_spec compress (a ++ b) hx, hsplit, ← hb, ← hd]
  dsimp only
  congr 1
  rw [List.length_append]
  omega

theorem Digest.new_write (m : Bytes) :
    Digest.new.write compress m =
      ⟨block compress init (m.take (wholeBlocks m.length)), m.drop (wholeBlocks m.length),
        m.length % 2 ^ 64⟩ := by
  rw [Digest.write_spec _ _ _ (by simp [Digest.new, chunk])]
  simp only [Digest.new, List.nil_append, Nat.zero_add]

/-! ## `checkSum` -/

theorem toNat_natToUInt8 (a : Nat) : (Nat.toUInt8 a).toNat = a % 256 := by
  simp [Nat.toUInt8, UInt8.toNat, UInt8.ofNat, BitVec.toNat_ofNat]

theorem lowByte_natCast_shiftRight (a s : Nat) : Asn1.lowByte ((a : Int) >>> s) = Nat.toUInt8 (a >>> s) := by
  apply UInt8.toNat.inj
  rw [toNat_natToUInt8]
  zify
  rw [Asn1.lowByte_toNat, Int.shiftRight_eq_div_pow, Nat.shiftRight_eq_div_pow]
  push_cast
  rfl

/-- The length `checkSum` writes is the bit length, modulo `2^64`, as 8 big-endian bytes. -/
theorem lengthBytes_eq (n : Nat) :
    (List.range 8).map (fun i => ((n % 2 ^ 64 * 2 ^ 3 % 2 ^ 64) >>> (56 - 8 * i)).toUInt8) =
      bigEndian 8 (8 * n : Nat) := by
  refine List.ext_getElem (by simp [Asn1.length_bigEndian]) fun i hi _ => ?_
  simp only [List.length_map, List.length_range] at hi
  simp only [bigEndian, List.getElem_map, List.getElem_range, lowByte_natCast_shiftRight]
  apply UInt8.toNat.inj
  have h64 : 2 ^ 64 = 2 ^ (56 - 8 * i) * 2 ^ (8 + 8 * i) := by rw [← pow_add]; congr 1; omega
  rw [toNat_natToUInt8, toNat_natToUInt8, Nat.shiftRight_eq_div_pow, Nat.shiftRight_eq_div_pow,
    show (8 - 1 - i) * 8 = 56 - 8 * i by omega, show n % 2 ^ 64 * 2 ^ 3 % 2 ^ 64 = 8 * n % 2 ^ 64 by omega,
    h64, Nat.mod_mul_right_div_self, Nat.mod_mod_of_dvd _ ⟨2 ^ (8 * i), by rw [pow_add]; norm_num⟩]

theorem tmp_take {k : Nat} (hk : 0 < k) : tmp.take k = 0x80 :: List.replicate (min (k - 1) 63) 0 := by
  obtain ⟨j, rfl⟩ : ∃ j, k = j + 1 := ⟨k - 1, by omega⟩
  rw [tmp, List.take_succ_cons, List.take_replicate, Nat.add_sub_cancel]

/-- Either padding `checkSum` writes is `0x80` and zeros up to 56 bytes modulo 64. -/
theorem checkSum_pad (d : Digest) :
    (if d.len % 64 < 56 then d.write compress (tmp.take (56 - d.len % 64))
      else d.write compress (tmp.take (64 + 56 - d.len % 64))) =
      d.write compress (0x80 :: List.replicate ((119 - d.len % 64) % 64) 0) := by
  by_cases h : d.len % 64 < 56
  · rw [if_pos h, tmp_take (by omega), show min (56 - d.len % 64 - 1) 63 = (119 - d.len % 64) % 64 by omega]
  · rw [if_neg h, tmp_take (by omega),
      show min (64 + 56 - d.len % 64 - 1) 63 = (119 - d.len % 64) % 64 by omega]

theorem length_append_padding (m : Bytes) : (m ++ padding m.length).length % chunk = 0 := by
  simp only [padding, List.length_append, List.length_cons, List.length_replicate,
    Asn1.length_bigEndian, chunk]
  omega

/-- `checkSum` after a message `m` never panics: the padding and the length fill the last block,
and it gives SHA-256 of `m`. -/
theorem Digest.checkSum_new_write (m : Bytes) :
    (Digest.new.write compress m).checkSum compress = .ok (sha256 compress m) := by
  have hnew : Digest.new.x.length < chunk := by simp [Digest.new, chunk]
  have hlen : (Digest.new.write compress m).len = m.length % 2 ^ 64 := by rw [Digest.new_write]
  unfold Digest.checkSum
  dsimp only
  rw [checkSum_pad, Digest.write_append _ _ _ hnew, Digest.write_append _ _ _ hnew, hlen,
    lengthBytes_eq, Nat.mod_mod_of_dvd _ (by norm_num), List.append_assoc,
    show 0x80 :: List.replicate ((119 - m.length % 64) % 64) 0 ++ bigEndian 8 (8 * m.length : Nat) =
      padding m.length from rfl, Digest.new_write]
  have hw : wholeBlocks (m ++ padding m.length).length = (m ++ padding m.length).length := by
    have := length_append_padding m; simp only [wholeBlocks] at this ⊢; omega
  simp only [hw, List.drop_length, List.take_length, List.length_nil, ne_eq, not_true_eq_false,
    if_false]
  rfl

theorem foldl_write (m : Bytes) (data : List Bytes) :
    data.foldl (fun d c => d.write compress c) (Digest.new.write compress m) =
      Digest.new.write compress (m ++ data.flatten) := by
  induction data generalizing m with
  | nil => rw [List.foldl_nil, List.flatten_nil, List.append_nil]
  | cons c cs ih =>
    rw [List.foldl_cons, Digest.write_append _ _ _ (by simp [Digest.new, chunk]), ih,
      List.flatten_cons, List.append_assoc]

/-- `hash_SHA256` of any pieces is SHA-256 of the pieces put together: it never panics, and how
the bytes are cut into arguments does not matter. -/
theorem hashSha256_eq_sha256 (data : List Bytes) :
    hashSha256 compress data = .ok (sha256 compress data.flatten) := by
  have h0 : Digest.new.write compress [] = Digest.new := by
    rw [Digest.new_write, List.take_nil, List.drop_nil, block_short compress init (by simp [chunk])]
    rfl
  rw [hashSha256, Digest.sum, ← h0, foldl_write, List.nil_append, Digest.checkSum_new_write]
  rfl

end Digest

end Sha256

end Telehash
