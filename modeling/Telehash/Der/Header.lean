/-
# Telehash.Der.Header -- identifier and length octets

Every element `asn1.Marshal` writes starts with `appendTagAndLength`: an identifier byte with the
class, the constructed bit and the tag number (from 31 on, `0x1f` and the tag number in base 128),
then the length, one byte below 128 and otherwise `0x80` plus the count of big-endian length bytes
that follow.  `parseTagAndLength` reads them back with DER's checks: no indefinite length, no
leading zero in a long length, no long form for a length below 128, and no length that could
overflow, which leaves the lengths below `2 ^ 31`.

* `parseLength_eq_ok_iff`: the length octets the reader accepts are exactly those the writer puts
  down for a length below `2 ^ 31`;
* `parseTagAndLength_eq_ok_iff`: for tag numbers below 31, the reader accepts exactly what
  `appendTagAndLength` writes for a class below 4 and such a length, and returns what was written.

The base-128 tag numbers are written and read as the code does; the theorems here are about the
tag numbers below 31, which are the ones an RSA public key has.
-/
import Telehash.Der.Integer

namespace Telehash.Asn1

open Json (Bytes)

set_option autoImplicit false

/-! ## Writing -/

/-- `base128IntLength`: the number of seven-bit groups of `n`, one for zero; `fuel` bounds the
shifts of the loop `for i := n; i > 0; i >>= 7`. -/
def base128Groups : Nat → Nat → Nat
  | 0, _ => 0
  | fuel + 1, i => if i > 0 then base128Groups fuel (i >>> 7) + 1 else 0

/-- `base128IntLength`. -/
def base128IntLength (n : Nat) : Nat := if n = 0 then 1 else base128Groups n n

/-- `appendBase128Int`: the seven-bit groups of `n`, most significant first, each but the last
with its top bit set. -/
def appendBase128Int (n : Nat) : Bytes :=
  let l := base128IntLength n
  (List.range l).map fun j =>
    let o := (n >>> ((l - 1 - j) * 7)).toUInt8 &&& 0x7F
    if l - 1 - j ≠ 0 then o ||| 0x80 else o

/-- `lengthLength`: the number of bytes of a long-form length. -/
def lengthLength (i : Nat) : Nat := (shiftCount (fun i => 255 < i) 8 (i, 1)).2

/-- `appendLength`: the length as `lengthLength` big-endian bytes. -/
def appendLength (i : Nat) : Bytes := bigEndian (lengthLength i) i

/-- The identifier octets `appendTagAndLength` writes: the class in the top two bits, the
constructed bit, and the tag number below 31, or `0x1f` and the tag number in base 128. -/
def appendIdentifier (t : TagAndLength) : Bytes :=
  let b : UInt8 := t.«class».toUInt8 <<< 6 ||| if t.isCompound then 0x20 else 0
  if t.tag ≥ 31 then (b ||| 0x1F) :: appendBase128Int t.tag else [b ||| t.tag.toUInt8]

/-- The length octets `appendTagAndLength` writes: one byte below 128, else `0x80` with the number
of length bytes, then those bytes. -/
def appendLengthOctets (length : Nat) : Bytes :=
  if length ≥ 128 then (0x80 ||| (lengthLength length).toUInt8) :: appendLength length
  else [length.toUInt8]

/-- `appendTagAndLength`. -/
def appendTagAndLength (t : TagAndLength) : Bytes := appendIdentifier t ++ appendLengthOctets t.length

/-! ## Reading -/

/-- `parseBase128Int` from its `shifted` and `ret64` on: the bytes up to one without the top bit,
seven bits each, at most five and the first not `0x80`, for a value that fits an `int32`. -/
def parseBase128Loop : Nat → Nat → Bytes → Except Asn1Error (Nat × Bytes)
  | _, _, [] => .error (.syntaxError "truncated base 128 integer")
  | shifted, ret, b :: bytes =>
    if shifted = 5 then .error (.structuralError "base 128 integer too large")
    else if shifted = 0 ∧ b = 0x80 then .error (.syntaxError "integer is not minimally encoded")
    else if b &&& 0x80 = 0 then
      if ret * 128 + (b &&& 0x7F).toNat > 2147483647 then
        .error (.structuralError "base 128 integer too large")
      else .ok (ret * 128 + (b &&& 0x7F).toNat, bytes)
    else parseBase128Loop (shifted + 1) (ret * 128 + (b &&& 0x7F).toNat) bytes

/-- `parseBase128Int`. -/
def parseBase128Int (bytes : Bytes) : Except Asn1Error (Nat × Bytes) := parseBase128Loop 0 0 bytes

/-- The identifier octets of `parseTagAndLength` after its first byte `b`: the low five bits of
`b`, or, when they are all set, a base-128 tag number, which must be 31 or more. -/
def parseTag (b : UInt8) (bytes : Bytes) : Except Asn1Error (Nat × Bytes) :=
  if b &&& 0x1F = 0x1F then
    match parseBase128Int bytes with
    | .error e => .error e
    | .ok (tag, rest) =>
      if tag < 0x1F then .error (.syntaxError "non-minimal tag") else .ok (tag, rest)
  else .ok ((b &&& 0x1F).toNat, bytes)

/-- The long-form length bytes of `parseTagAndLength`: `n` more bytes, big-endian, refusing a
length that would overflow and a leading zero. -/
def parseLengthBytes : Nat → Nat → Bytes → Except Asn1Error (Nat × Bytes)
  | 0, length, bytes => .ok (length, bytes)
  | _ + 1, _, [] => .error (.syntaxError "truncated tag or length")
  | n + 1, length, b :: bytes =>
    if length ≥ 2 ^ 23 then .error (.structuralError "length too large")
    else if length * 256 + b.toNat = 0 then
      .error (.structuralError "superfluous leading zeros in length")
    else parseLengthBytes n (length * 256 + b.toNat) bytes

/-- The length octets of `parseTagAndLength`: one byte below `0x80`, or `0x80` with the number of
long-form bytes that follow, which must be some and give a length of `0x80` or more. -/
def parseLength : Bytes → Except Asn1Error (Nat × Bytes)
  | [] => .error (.syntaxError "truncated tag or length")
  | b :: bytes =>
    if b &&& 0x80 = 0 then .ok ((b &&& 0x7F).toNat, bytes)
    else if (b &&& 0x7F).toNat = 0 then .error (.syntaxError "indefinite length found (not DER)")
    else
      match parseLengthBytes (b &&& 0x7F).toNat 0 bytes with
      | .error e => .error e
      | .ok (length, rest) =>
        if length < 0x80 then .error (.structuralError "non-minimal length") else .ok (length, rest)

/-- `parseTagAndLength`: the class and the constructed bit from the first byte, then the tag
number and the length. -/
def parseTagAndLength : Bytes → Except Asn1Error (TagAndLength × Bytes)
  | [] => .error .internalError
  | b :: bytes => do
    let (tag, bytes) ← parseTag b bytes
    let (length, bytes) ← parseLength bytes
    pure (⟨(b >>> 6).toNat, tag, length, b &&& 0x20 = 0x20⟩, bytes)

/-! ## Bytes -/

theorem toNat_and_0x7F (b : UInt8) : (b &&& 0x7F).toNat = b.toNat % 128 := by
  rw [UInt8.and_toNat, show (0x7F : UInt8).toNat = 2 ^ 7 - 1 from rfl,
    Nat.and_pow_two_sub_one_eq_mod]

theorem toUInt8_toNat (b : UInt8) : b.toNat.toUInt8 = b :=
  UInt8.toNat.inj (UInt8.toNat_ofNat_of_lt b.toNat_lt)

theorem toNat_toUInt8 {n : Nat} (h : n < 256) : n.toUInt8.toNat = n :=
  UInt8.toNat_ofNat_of_lt h

theorem toNat_0x80_or (m : Nat) (h : m < 128) : (0x80 ||| m.toUInt8).toNat = 128 + m := by
  show ((0x80 : UInt8).toBitVec ||| m.toUInt8.toBitVec).toNat = _
  rw [BitVec.toNat_or]
  show 2 ^ 7 * 1 ||| m.toUInt8.toNat = _
  rw [toNat_toUInt8 (by omega), ← Nat.mul_add_lt_is_or (by omega)]

/-! ## Lengths -/

theorem lt_shiftRight_iff (x : Int) (k : Nat) : 255 < x >>> (8 * k) ↔ 256 * 256 ^ k ≤ x := by
  rw [shiftRight_eq_div, ← Int.le_ediv_iff_mul_le (by positivity)]; rfl

/-- `lengthLength` of a length below `2 ^ 31` counts its big-endian bytes. -/
theorem lengthLength_spec (l : Nat) (h : l < 2 ^ 31) :
    ∃ k, lengthLength l = k + 1 ∧ l < 256 ^ (k + 1) ∧ ∀ j < k, 256 ^ (j + 1) ≤ l := by
  obtain ⟨k, -, h1, s1, g1⟩ := shiftCount_spec (fun i => 255 < i) 8 l 1
    (by simp only [decide_eq_false_iff_not, lt_shiftRight_iff]; norm_num; omega)
  simp only [decide_eq_false_iff_not, decide_eq_true_eq, lt_shiftRight_iff, not_le] at s1 g1
  refine ⟨k, by rw [lengthLength, h1]; omega, by rw [pow_succ']; exact_mod_cast s1,
    fun j hj => ?_⟩
  have := g1 j hj
  rw [pow_succ']; exact_mod_cast this

theorem lengthLength_eq (l n : Nat) (h : l < 2 ^ 31) (lo : 256 ^ n ≤ l) (hi : l < 256 ^ (n + 1)) :
    lengthLength l = n + 1 := by
  obtain ⟨k, hk, s, g⟩ := lengthLength_spec l h
  rw [hk]
  rcases Nat.lt_trichotomy k n with hkn | rfl | hkn
  · have : 256 ^ (k + 1) ≤ 256 ^ n := Nat.pow_le_pow_right (by norm_num) hkn
    omega
  · rfl
  · have := g n hkn
    omega

theorem parseLengthBytes_append (d rest : Bytes) (acc : Nat)
    (hlt : acc * 256 ^ d.length + natOfBytes d < 2 ^ 31)
    (hpos : d ≠ [] → 256 ^ (d.length - 1) ≤ acc * 256 ^ d.length + natOfBytes d) :
    parseLengthBytes d.length acc (d ++ rest) = .ok (acc * 256 ^ d.length + natOfBytes d, rest) := by
  induction d generalizing acc with
  | nil => simp [parseLengthBytes]
  | cons b d ih =>
    have hsplit : acc * 256 ^ (b :: d).length + natOfBytes (b :: d)
        = (acc * 256 + b.toNat) * 256 ^ d.length + natOfBytes d := by
      rw [natOfBytes_cons, List.length_cons, pow_succ]; ring
    rw [hsplit] at hlt hpos ⊢
    have hP : 1 ≤ 256 ^ d.length := Nat.one_le_pow _ _ (by norm_num)
    have hmul : acc * 256 + b.toNat ≤ (acc * 256 + b.toNat) * 256 ^ d.length :=
      Nat.le_mul_of_pos_right _ hP
    have hd := natOfBytes_lt d
    have hne : acc * 256 + b.toNat ≠ 0 := by
      intro h0
      rw [h0, Nat.zero_mul, Nat.zero_add] at hpos
      simp only [List.length_cons, Nat.add_sub_cancel, ne_eq, reduceCtorEq, not_false_eq_true,
        forall_const] at hpos
      omega
    rw [List.length_cons, List.cons_append, parseLengthBytes, if_neg (by omega), if_neg hne,
      ih _ hlt fun _ => ?_]
    calc 256 ^ (d.length - 1) ≤ 256 ^ d.length := Nat.pow_le_pow_right (by norm_num) (by omega)
      _ ≤ (acc * 256 + b.toNat) * 256 ^ d.length := Nat.le_mul_of_pos_left _ (by omega)
      _ ≤ _ := Nat.le_add_right _ _

theorem parseLengthBytes_sound : ∀ (n acc : Nat) (bs : Bytes) (l : Nat) (rest : Bytes),
    parseLengthBytes n acc bs = .ok (l, rest) →
    ∃ d, bs = d ++ rest ∧ d.length = n ∧ l = acc * 256 ^ n + natOfBytes d ∧
      (0 < n → l < 2 ^ 31 ∧ 256 ^ (n - 1) ≤ l)
  | 0, acc, bs, l, rest, h => by
    simp only [parseLengthBytes, Except.ok.injEq, Prod.mk.injEq] at h
    exact ⟨[], by simp [h.2], rfl, by simp [h.1], fun h0 => absurd h0 (by omega)⟩
  | n + 1, acc, [], l, rest, h => by simp [parseLengthBytes] at h
  | n + 1, acc, b :: bs, l, rest, h => by
    rw [parseLengthBytes] at h
    by_cases h23 : acc ≥ 2 ^ 23
    · rw [if_pos h23] at h; cases h
    rw [if_neg h23] at h
    by_cases h0 : acc * 256 + b.toNat = 0
    · rw [if_pos h0] at h; cases h
    rw [if_neg h0] at h
    obtain ⟨d, rfl, hlen, hl, hbound⟩ := parseLengthBytes_sound n _ bs l rest h
    have hP : 1 ≤ 256 ^ n := Nat.one_le_pow _ _ (by norm_num)
    refine ⟨b :: d, rfl, by simp [hlen], ?_, fun _ => ⟨?_, ?_⟩⟩
    · rw [hl, natOfBytes_cons, hlen, pow_succ]; ring
    · rcases Nat.eq_zero_or_pos n with rfl | hn
      · have : d = [] := List.length_eq_zero.mp hlen
        subst this
        simp only [pow_zero, Nat.mul_one, natOfBytes_nil, Nat.add_zero] at hl
        have := b.toNat_lt
        omega
      · exact (hbound hn).1
    · rw [Nat.add_sub_cancel, hl]
      calc 256 ^ n ≤ (acc * 256 + b.toNat) * 256 ^ n := Nat.le_mul_of_pos_left _ (by omega)
        _ ≤ _ := Nat.le_add_right _ _

theorem natOfBytes_bigEndian_of_lt (n l : Nat) (h : l < 256 ^ n) : natOfBytes (bigEndian n l) = l := by
  have := natOfBytes_bigEndian n l
  rw [Int.emod_eq_of_lt (by positivity) (by exact_mod_cast h)] at this
  exact_mod_cast this

/-- The length octets `parseTagAndLength` accepts are exactly those `appendTagAndLength` writes
for a length below `2 ^ 31`. -/
theorem parseLength_eq_ok_iff (bs rest : Bytes) (l : Nat) :
    parseLength bs = .ok (l, rest) ↔ l < 2 ^ 31 ∧ bs = appendLengthOctets l ++ rest := by
  constructor
  · intro h
    obtain _ | ⟨b, bytes⟩ := bs
    · simp [parseLength] at h
    rw [parseLength] at h
    by_cases hb : b &&& 0x80 = 0
    · rw [if_pos hb, Except.ok.injEq, Prod.mk.injEq] at h
      obtain ⟨rfl, rfl⟩ := h
      have hb' := (and_0x80_eq_zero b).mp hb
      rw [toNat_and_0x7F, Nat.mod_eq_of_lt hb']
      refine ⟨by omega, ?_⟩
      rw [appendLengthOctets, if_neg (by omega), toUInt8_toNat]; rfl
    have hb' : 128 ≤ b.toNat := by rw [and_0x80_eq_zero] at hb; omega
    rw [if_neg hb, toNat_and_0x7F] at h
    have hn : b.toNat % 128 = b.toNat - 128 := by have := b.toNat_lt; omega
    rw [hn] at h
    by_cases h0 : b.toNat - 128 = 0
    · rw [if_pos h0] at h; cases h
    rw [if_neg h0] at h
    cases hp : parseLengthBytes (b.toNat - 128) 0 bytes with
    | error e => rw [hp] at h; cases h
    | ok p =>
      obtain ⟨L, rest'⟩ := p
      rw [hp] at h
      dsimp only at h
      by_cases hL : L < 0x80
      · rw [if_pos hL] at h; cases h
      rw [if_neg hL, Except.ok.injEq, Prod.mk.injEq] at h
      obtain ⟨rfl, rfl⟩ := h
      obtain ⟨d, rfl, hlen, hl, hbound⟩ := parseLengthBytes_sound _ _ _ _ _ hp
      obtain ⟨hl31, hlo⟩ := hbound (by omega)
      simp only [Nat.zero_mul, Nat.zero_add] at hl
      subst hl
      have hi : natOfBytes d < 256 ^ (b.toNat - 128 - 1 + 1) := by
        rw [Nat.sub_add_cancel (by omega : 1 ≤ b.toNat - 128), ← hlen]; exact natOfBytes_lt d
      have hlen' : lengthLength (natOfBytes d) = b.toNat - 128 := by
        rw [lengthLength_eq _ _ hl31 hlo hi, Nat.sub_add_cancel (by omega)]
      have e1 : b = 0x80 ||| (b.toNat - 128).toUInt8 :=
        UInt8.toNat.inj (by rw [toNat_0x80_or _ (by omega)]; omega)
      have e2 : d = bigEndian (b.toNat - 128) (natOfBytes d) :=
        (eq_of_natOfBytes_eq (by rw [length_bigEndian, hlen])
          (natOfBytes_bigEndian_of_lt _ _ (hlen ▸ natOfBytes_lt d))).symm
      refine ⟨hl31, ?_⟩
      rw [appendLengthOctets, if_pos (by omega), appendLength, hlen', List.cons_append, ← e1, ← e2]
  · rintro ⟨hl, rfl⟩
    unfold appendLengthOctets
    by_cases h128 : l ≥ 128
    · obtain ⟨k, hk, s, g⟩ := lengthLength_spec l hl
      have hk4 : k < 4 := by
        by_contra hk4
        have := g 3 (by omega)
        omega
      have hbyte := toNat_0x80_or (k + 1) (by omega)
      rw [if_pos h128, hk, appendLength, hk, List.cons_append, parseLength,
        if_neg (by rw [and_0x80_eq_zero, hbyte]; omega), toNat_and_0x7F, hbyte,
        show (128 + (k + 1)) % 128 = k + 1 by omega, if_neg (by omega)]
      have hd := length_bigEndian (k + 1) l
      have hv := natOfBytes_bigEndian_of_lt (k + 1) l s
      have := parseLengthBytes_append (bigEndian (k + 1) l) rest 0
        (by rw [hv]; omega) (fun _ => by
          rw [hv, hd, Nat.add_sub_cancel, Nat.zero_mul, Nat.zero_add]
          rcases Nat.eq_zero_or_pos k with rfl | hk0
          · simp only [pow_zero]; omega
          · have := g (k - 1) (by omega)
            rwa [Nat.sub_add_cancel hk0] at this)
      rw [hd, hv, Nat.zero_mul, Nat.zero_add] at this
      rw [this]
      exact if_neg (by omega)
    · have hl' : l < 256 := by omega
      rw [if_neg h128, List.singleton_append, parseLength,
        if_pos (by rw [and_0x80_eq_zero, toNat_toUInt8 hl']; omega), toNat_and_0x7F,
        toNat_toUInt8 hl', Nat.mod_eq_of_lt (by omega)]

/-! ## Identifier octets -/

/-- The identifier byte of a class below 4 and a tag number below 31 gives them back. -/
theorem identifier_decode (c : Nat) (cb : Bool) (tg : Nat) (hc : c < 4) (htg : tg < 31) :
    (c.toUInt8 <<< 6 ||| (if cb then 0x20 else 0) ||| tg.toUInt8) &&& 0x1F ≠ 0x1F ∧
    ((c.toUInt8 <<< 6 ||| (if cb then 0x20 else 0) ||| tg.toUInt8) &&& 0x1F).toNat = tg ∧
    ((c.toUInt8 <<< 6 ||| (if cb then 0x20 else 0) ||| tg.toUInt8) >>> 6).toNat = c ∧
    decide ((c.toUInt8 <<< 6 ||| (if cb then 0x20 else 0) ||| tg.toUInt8) &&& 0x20 = 0x20) = cb := by
  have key : ∀ c : Fin 4, ∀ cb : Bool, ∀ tg : Fin 31,
      (c.val.toUInt8 <<< 6 ||| (if cb then 0x20 else 0) ||| tg.val.toUInt8) &&& 0x1F ≠ 0x1F ∧
      ((c.val.toUInt8 <<< 6 ||| (if cb then 0x20 else 0) ||| tg.val.toUInt8) &&& 0x1F).toNat
        = tg.val ∧
      ((c.val.toUInt8 <<< 6 ||| (if cb then 0x20 else 0) ||| tg.val.toUInt8) >>> 6).toNat = c.val ∧
      decide ((c.val.toUInt8 <<< 6 ||| (if cb then 0x20 else 0) ||| tg.val.toUInt8) &&& 0x20
        = 0x20) = cb := by decide
  exact key ⟨c, hc⟩ cb ⟨tg, htg⟩

/-- A first byte whose low five bits are not all set is the identifier byte of its class, its
constructed bit and its tag number. -/
theorem identifier_encode (b : UInt8) (hb : b &&& 0x1F ≠ 0x1F) :
    (b >>> 6).toNat < 4 ∧
    b = (b >>> 6).toNat.toUInt8 <<< 6 ||| (if b &&& 0x20 = 0x20 then 0x20 else 0) |||
      (b &&& 0x1F).toNat.toUInt8 := by
  revert hb; obtain ⟨x⟩ := b; revert x; decide

theorem parseTag_low (b : UInt8) (bytes : Bytes) (hb : b &&& 0x1F ≠ 0x1F) :
    parseTag b bytes = .ok ((b &&& 0x1F).toNat, bytes) := by
  rw [parseTag, if_neg hb]

/-- A tag number below 31 comes from the low five bits of the first byte. -/
theorem parseTag_eq_ok_low {b : UInt8} {bytes rest : Bytes} {tag : Nat}
    (h : parseTag b bytes = .ok (tag, rest)) (ht : tag < 31) :
    b &&& 0x1F ≠ 0x1F ∧ tag = (b &&& 0x1F).toNat ∧ rest = bytes := by
  unfold parseTag at h
  by_cases hb : b &&& 0x1F = 0x1F
  · rw [if_pos hb] at h
    cases hp : parseBase128Int bytes with
    | error e => rw [hp] at h; cases h
    | ok p =>
      rw [hp] at h
      dsimp only at h
      by_cases hp1 : p.1 < 0x1F
      · rw [if_pos hp1] at h; cases h
      · rw [if_neg hp1] at h
        cases h
        omega
  · rw [if_neg hb] at h
    cases h
    exact ⟨hb, rfl, rfl⟩

theorem parseTagAndLength_cons_eq_ok {b : UInt8} {bytes rest : Bytes} {t : TagAndLength} :
    parseTagAndLength (b :: bytes) = .ok (t, rest) ↔
      ∃ r, parseTag b bytes = .ok (t.tag, r) ∧ parseLength r = .ok (t.length, rest) ∧
        t.«class» = (b >>> 6).toNat ∧ t.isCompound = decide (b &&& 0x20 = 0x20) := by
  unfold parseTagAndLength
  cases hp : parseTag b bytes with
  | error e => simp [bind, Except.bind, hp]
  | ok p =>
    obtain ⟨tag, r⟩ := p
    cases hl : parseLength r with
    | error e => simp [bind, Except.bind, hp, hl]
    | ok q =>
      obtain ⟨len, r'⟩ := q
      simp only [bind, Except.bind, pure, Except.pure, Except.ok.injEq, Prod.mk.injEq, hp, hl]
      constructor
      · rintro ⟨rfl, rfl⟩
        exact ⟨r, ⟨rfl, rfl⟩, hl, rfl, rfl⟩
      · rintro ⟨r₁, ⟨rfl, rfl⟩, hl', hc, hcomp⟩
        rw [hl, Except.ok.injEq, Prod.mk.injEq] at hl'
        obtain ⟨rfl, rfl⟩ := hl'
        obtain ⟨c, tg, ln, cp⟩ := t
        simp only at hc hcomp
        rw [hc, hcomp]
        exact ⟨rfl, rfl⟩

/-- For tag numbers below 31, `parseTagAndLength` reads exactly what `appendTagAndLength` writes
for a class below 4 and a length below `2 ^ 31`, and it reads it back as written. -/
theorem parseTagAndLength_eq_ok_iff (bs rest : Bytes) (t : TagAndLength) (ht : t.tag < 31) :
    parseTagAndLength bs = .ok (t, rest) ↔
      t.«class» < 4 ∧ t.length < 2 ^ 31 ∧ bs = appendTagAndLength t ++ rest := by
  constructor
  · intro h
    obtain _ | ⟨b, bytes⟩ := bs
    · cases h
    obtain ⟨r, htag, hlen, hcl, hcomp⟩ := parseTagAndLength_cons_eq_ok.mp h
    obtain ⟨hb, htb, rfl⟩ := parseTag_eq_ok_low htag ht
    obtain ⟨hl, rfl⟩ := (parseLength_eq_ok_iff _ _ _).mp hlen
    obtain ⟨hc, hbyte⟩ := identifier_encode b hb
    refine ⟨hcl ▸ hc, hl, ?_⟩
    rw [appendTagAndLength, appendIdentifier, if_neg (show ¬ t.tag ≥ 31 by omega)]
    simp only [hcl, hcomp, htb, decide_eq_true_eq, List.singleton_append, List.cons_append]
    rw [← hbyte, List.nil_append]
  · rintro ⟨hc, hl, rfl⟩
    obtain ⟨hb, htb, hcb, hcomp⟩ := identifier_decode t.«class» t.isCompound t.tag hc ht
    simp only [appendTagAndLength, appendIdentifier, if_neg (show ¬ t.tag ≥ 31 by omega),
      List.singleton_append, List.cons_append]
    refine parseTagAndLength_cons_eq_ok.mpr ⟨_, ?_, (parseLength_eq_ok_iff _ _ _).mpr ⟨hl, rfl⟩,
      hcb.symm, hcomp.symm⟩
    rw [parseTag_low _ _ hb, htb, List.nil_append]

end Telehash.Asn1
