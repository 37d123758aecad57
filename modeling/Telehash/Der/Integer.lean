/-
# Telehash.Der.Integer -- the INTEGER contents of `encoding/asn1`

`enc_DER_RSA` writes an RSA public key with `asn1.Marshal`, and `dec_DER_RSA` reads one with
`asn1.Unmarshal`.  The key's modulus `N` is a `*big.Int`, written by `makeBigInt` and read by
`parseBigInt`; its exponent `E` is an `int`, written by `int64Encoder` and read by `parseInt64`.
Both readers first apply `checkInteger`, DER's rule that an INTEGER has content and is minimal.
All of these are modelled from the `encoding/asn1` code, and the big-endian numbers of
`math/big` (`SetBytes`, `Bytes`) with `Nat.digits`.

* `checkInteger_cons_cons`: two content bytes or more pass `checkInteger` exactly when the value
  does not fit in one byte fewer;
* `eq_of_checkInteger`: so two encodings it accepts with one value are the same bytes;
* `parseBigInt_eq_ok_iff`: `parseBigInt` reads exactly the bytes `makeBigInt` writes, each as the
  number written;
* `encodeInt64_eq_makeBigInt`: `int64Encoder`, with its two shift loops, writes what `makeBigInt`
  writes, for every 64-bit value;
* `parseInt64_eq_ok_iff`: and `parseInt64`, which shifts the bytes into a 64-bit word and
  sign-extends it, reads exactly those bytes back.
-/
import Telehash.Json.Utf8

namespace Telehash.Asn1

open Json (Bytes)

set_option autoImplicit false

/-- `tagAndLength`: the class, tag number, content length and constructed bit an element's
identifier and length octets give. -/
structure TagAndLength where
  «class» : Nat
  tag : Nat
  length : Nat
  isCompound : Bool
  deriving DecidableEq, Repr

/-- The errors of `encoding/asn1` that reading an RSA public key can meet: `SyntaxError` and
`StructuralError` with their messages, the mismatch `parseField` reports with the tag it wanted,
the tag and length it read, the field's type name and the offset, and the internal error of
`parseTagAndLength`. -/
inductive Asn1Error where
  | syntaxError (msg : String)
  | structuralError (msg : String)
  | tagsDontMatch (expectedTag : Nat) (got : TagAndLength) (typeName : String) (offset : Nat)
  | internalError
  deriving DecidableEq, Repr

/-! ## Bytes -/

theorem toNat_and_0x80 (b : UInt8) : (b &&& 0x80).toNat = if b.toNat < 128 then 0 else 128 := by
  have := b.toNat_lt
  rw [UInt8.and_toNat, show (0x80 : UInt8).toNat = 2 ^ 7 from rfl, Nat.and_two_pow,
    Nat.testBit_to_div_mod]
  by_cases h : b.toNat < 128
  · simp [Nat.div_eq_of_lt h, h]
  · simp [show b.toNat / 128 = 1 by omega, h]

theorem and_0x80_eq_zero (b : UInt8) : b &&& 0x80 = 0 ↔ b.toNat < 128 := by
  rw [UInt8.ext_iff, toNat_and_0x80]; by_cases h : b.toNat < 128 <;> simp [h]

theorem and_0x80_eq_0x80 (b : UInt8) : b &&& 0x80 = 0x80 ↔ 128 ≤ b.toNat := by
  rw [UInt8.ext_iff, toNat_and_0x80, show (0x80 : UInt8).toNat = 128 from rfl]
  by_cases h : b.toNat < 128 <;> simp [h]; omega

theorem toNat_complement (b : UInt8) : (~~~b).toNat = 255 - b.toNat := by
  show (~~~b.toBitVec).toNat = _
  rw [BitVec.toNat_not]; rfl

theorem xor_0xFF (b : UInt8) : b ^^^ 0xFF = ~~~b :=
  UInt8.eq_of_toBitVec_eq BitVec.xor_allOnes

/-! ## Big-endian numbers -/

/-- `new(big.Int).SetBytes(b)`: the bytes as a big-endian unsigned number. -/
def natOfBytes (bytes : Bytes) : Nat := bytes.foldl (fun acc b => acc * 256 + b.toNat) 0

/-- The base-256 digits of `n`, least significant first, with fuel for the recursion on
`n / 256`. -/
def digits256 : Nat → Nat → List Nat
  | 0, _ => []
  | fuel + 1, n => if n = 0 then [] else n % 256 :: digits256 fuel (n / 256)

/-- `(*big.Int).Bytes()` of a non-negative number: its big-endian bytes with no leading zero,
none for zero. -/
def natBytes (n : Nat) : Bytes := ((digits256 n n).map Nat.toUInt8).reverse

/-- Go's conversion `byte(x)` of an integer: its low eight bits. -/
def lowByte (x : Int) : UInt8 := (x % 256).toNat.toUInt8

/-- The loop `for j := 0; j < n; j++ { dst[j] = byte(i >> uint((n-1-j)*8)) }` of
`int64Encoder.Encode`, which `appendLength` runs too: the low `n` bytes of `i`, most significant
first. -/
def bigEndian (n : Nat) (i : Int) : Bytes :=
  (List.range n).map fun j => lowByte (i >>> ((n - 1 - j) * 8))

@[simp] theorem natOfBytes_nil : natOfBytes [] = 0 := rfl

theorem natOfBytes_append_singleton (bs : Bytes) (b : UInt8) :
    natOfBytes (bs ++ [b]) = natOfBytes bs * 256 + b.toNat := by
  simp [natOfBytes, List.foldl_append]

theorem natOfBytes_eq_ofDigits (bs : Bytes) :
    natOfBytes bs = Nat.ofDigits 256 (bs.reverse.map UInt8.toNat) := by
  induction bs using List.reverseRecOn with
  | nil => rfl
  | append_singleton bs b ih =>
    rw [natOfBytes_append_singleton, ih, List.reverse_append, List.reverse_singleton,
      List.singleton_append, List.map_cons, Nat.ofDigits_cons]
    ring

theorem natOfBytes_cons (b : UInt8) (bs : Bytes) :
    natOfBytes (b :: bs) = b.toNat * 256 ^ bs.length + natOfBytes bs := by
  rw [natOfBytes_eq_ofDigits, natOfBytes_eq_ofDigits, List.reverse_cons, List.map_append,
    Nat.ofDigits_append]
  simp [add_comm, mul_comm]

theorem natOfBytes_lt (bs : Bytes) : natOfBytes bs < 256 ^ bs.length := by
  rw [natOfBytes_eq_ofDigits]
  simpa using Nat.ofDigits_lt_base_pow_length (b := 256) (l := bs.reverse.map UInt8.toNat)
    (by norm_num) (by simpa using fun b _ => b.toNat_lt)

theorem digits256_eq (fuel n : Nat) (h : n ≤ fuel) : digits256 fuel n = Nat.digits 256 n := by
  induction fuel generalizing n with
  | zero => rw [Nat.le_zero.mp h, Nat.digits_zero]; rfl
  | succ fuel ih =>
    by_cases hn : n = 0
    · subst hn; rw [Nat.digits_zero]; rfl
    · rw [digits256, if_neg hn, ih _ (by omega), Nat.digits_def' (by norm_num) (Nat.pos_of_ne_zero hn)]

theorem natBytes_eq (n : Nat) : natBytes n = ((Nat.digits 256 n).map Nat.toUInt8).reverse := by
  rw [natBytes, digits256_eq n n le_rfl]

theorem natOfBytes_natBytes (n : Nat) : natOfBytes (natBytes n) = n := by
  have digits : (Nat.digits 256 n).map (UInt8.toNat ∘ Nat.toUInt8) = Nat.digits 256 n := by
    conv_rhs => rw [← List.map_id (Nat.digits 256 n)]
    exact List.map_congr_left fun d hd =>
      UInt8.toNat_ofNat_of_lt (Nat.digits_lt_base (by norm_num) hd)
  rw [natOfBytes_eq_ofDigits, natBytes_eq, List.reverse_reverse, List.map_map, digits,
    Nat.ofDigits_digits]

theorem natOfBytes_append (bs cs : Bytes) :
    natOfBytes (bs ++ cs) = natOfBytes bs * 256 ^ cs.length + natOfBytes cs := by
  induction bs with
  | nil => simp
  | cons b bs ih =>
    rw [List.cons_append, natOfBytes_cons, natOfBytes_cons, ih, List.length_append, pow_add]
    ring

theorem natOfBytes_cons_div (b : UInt8) (bs : Bytes) :
    natOfBytes (b :: bs) / 256 ^ bs.length = b.toNat := by
  rw [natOfBytes_cons, add_comm, Nat.add_mul_div_right _ _ (by positivity),
    Nat.div_eq_of_lt (natOfBytes_lt bs), zero_add]

theorem natOfBytes_cons_mod (b : UInt8) (bs : Bytes) :
    natOfBytes (b :: bs) % 256 ^ bs.length = natOfBytes bs := by
  rw [natOfBytes_cons, add_comm, Nat.add_mul_mod_self_right, Nat.mod_eq_of_lt (natOfBytes_lt bs)]

/-- Big-endian bytes of one length are determined by their value. -/
theorem eq_of_natOfBytes_eq {bs cs : Bytes} (hlen : bs.length = cs.length)
    (h : natOfBytes bs = natOfBytes cs) : bs = cs := by
  induction bs generalizing cs with
  | nil => exact (List.length_eq_zero.mp hlen.symm).symm
  | cons b bs ih =>
    obtain _ | ⟨c, cs⟩ := cs
    · cases hlen
    · have hlen' : bs.length = cs.length := Nat.succ.inj hlen
      have head : b.toNat = c.toNat := by
        rw [← natOfBytes_cons_div b bs, ← natOfBytes_cons_div c cs, h, hlen']
      have tail : natOfBytes bs = natOfBytes cs := by
        rw [← natOfBytes_cons_mod b bs, ← natOfBytes_cons_mod c cs, h, hlen']
      rw [UInt8.toNat.inj head, ih hlen' tail]

theorem natOfBytes_map_complement (bs : Bytes) :
    natOfBytes (bs.map (~~~·)) + natOfBytes bs + 1 = 256 ^ bs.length := by
  induction bs with
  | nil => rfl
  | cons b bs ih =>
    rw [List.map_cons, natOfBytes_cons, natOfBytes_cons, toNat_complement, List.length_map,
      List.length_cons, pow_succ]
    have := b.toNat_lt
    have : (255 - b.toNat) * 256 ^ bs.length + b.toNat * 256 ^ bs.length
        = 255 * 256 ^ bs.length := by
      rw [← Nat.add_mul, Nat.sub_add_cancel (by omega)]
    omega

theorem natBytes_eq_nil_iff (n : Nat) : natBytes n = [] ↔ n = 0 := by
  simp [natBytes_eq, Nat.digits_eq_nil_iff_eq_zero]

/-- The first byte `(*big.Int).Bytes()` writes for a positive number is not zero. -/
theorem natBytes_head (n : Nat) (hn : 0 < n) : ∃ b bs, natBytes n = b :: bs ∧ b ≠ 0 := by
  have hne : Nat.digits 256 n ≠ [] := Nat.digits_ne_nil_iff_ne_zero.mpr hn.ne'
  obtain ⟨ds, d, hds⟩ := List.eq_nil_or_concat (Nat.digits 256 n) |>.resolve_left hne
  have hlast : d ≠ 0 := by
    have := Nat.getLast_digit_ne_zero 256 hn.ne'
    simpa [hds] using this
  have hd : d < 256 := Nat.digits_lt_base (m := n) (by norm_num) (by simp [hds])
  refine ⟨d.toUInt8, (ds.map Nat.toUInt8).reverse, by simp [natBytes_eq, hds], fun h => hlast ?_⟩
  have := congrArg UInt8.toNat h
  rwa [Nat.toUInt8, UInt8.toNat_ofNat_of_lt hd] at this

/-! ## INTEGER contents -/

/-- The test `len(bytes) > 0 && bytes[0]&0x80 == 0x80` of `parseBigInt`: the top bit is set. -/
def negative : Bytes → Bool
  | b :: _ => b &&& 0x80 = 0x80
  | [] => false

/-- The value `parseBigInt` gives the content bytes after `checkInteger`: the bytes as a number,
or, when the top bit is set, the complemented bytes plus one, negated. -/
def signedValue (bytes : Bytes) : Int :=
  if negative bytes then -((natOfBytes (bytes.map (~~~·)) : Int) + 1) else natOfBytes bytes

/-- `checkInteger`: an INTEGER has content, and its first nine bits are not all equal. -/
def checkInteger : Bytes → Except Asn1Error Unit
  | [] => .error (.structuralError "empty integer")
  | [_] => .ok ()
  | b₀ :: b₁ :: _ =>
    if (b₀ = 0 ∧ b₁ &&& 0x80 = 0) ∨ (b₀ = 0xFF ∧ b₁ &&& 0x80 = 0x80) then
      .error (.structuralError "integer not minimally-encoded")
    else .ok ()

/-- `parseBigInt`: the content of an INTEGER read into a `big.Int`. -/
def parseBigInt (bytes : Bytes) : Except Asn1Error Int := do
  checkInteger bytes
  pure (signedValue bytes)

/-- `makeBigInt` of a non-nil `*big.Int`: a negative number is `-n - 1` with its bytes
complemented, and a `0xff` or `0x00` byte goes in front where the top bit would give the wrong
sign; zero is the one byte `0x00`. -/
def makeBigInt (n : Int) : Bytes :=
  if n < 0 then
    match (natBytes (-n - 1).toNat).map (· ^^^ 0xFF) with
    | [] => [0xFF]
    | b :: bs => if b &&& 0x80 = 0 then 0xFF :: b :: bs else b :: bs
  else if n = 0 then [0x00]
  else
    match natBytes n.toNat with
    | [] => []
    | b :: bs => if b &&& 0x80 ≠ 0 then 0x00 :: b :: bs else b :: bs

/-- `x` is a two's complement number of `k + 1` bytes. -/
def Fits (k : Nat) (x : Int) : Prop := -(128 * 256 ^ k : Int) ≤ x ∧ x < 128 * 256 ^ k

theorem Fits.mono {k l : Nat} {x : Int} (h : Fits k x) (hkl : k ≤ l) : Fits l x := by
  have : (256 : Int) ^ k ≤ 256 ^ l := pow_le_pow_right₀ (by norm_num) hkl
  constructor <;> linarith [h.1, h.2]

theorem negative_cons (b : UInt8) (bs : Bytes) :
    negative (b :: bs) = true ↔ 128 * 256 ^ bs.length ≤ natOfBytes (b :: bs) := by
  rw [negative, decide_eq_true_iff, and_0x80_eq_0x80, ← natOfBytes_cons_div b bs,
    Nat.le_div_iff_mul_le (by positivity)]

/-- `parseBigInt`'s value is the unsigned value, less `256 ^ n` when the top bit is set. -/
theorem signedValue_eq (bs : Bytes) :
    signedValue bs = natOfBytes bs - if negative bs then (256 ^ bs.length : Int) else 0 := by
  have h : (natOfBytes (bs.map (~~~·)) : Int) + natOfBytes bs + 1 = 256 ^ bs.length := by
    exact_mod_cast natOfBytes_map_complement bs
  cases hn : negative bs <;> simp only [signedValue, hn, Bool.false_eq_true, ↓reduceIte,
    sub_zero]
  linarith

theorem signedValue_fits (b : UInt8) (bs : Bytes) : Fits bs.length (signedValue (b :: bs)) := by
  have hlt : (natOfBytes (b :: bs) : Int) < 256 * 256 ^ bs.length := by
    have := natOfBytes_lt (b :: bs)
    rw [List.length_cons, pow_succ'] at this
    exact_mod_cast this
  have hneg : negative (b :: bs) = true ↔ 128 * (256 : Int) ^ bs.length ≤ natOfBytes (b :: bs) := by
    rw [negative_cons]; norm_cast
  have hN : (0 : Int) ≤ natOfBytes (b :: bs) := by positivity
  have hP : (0 : Int) ≤ 256 ^ bs.length := by positivity
  rw [signedValue_eq, List.length_cons, pow_succ', Fits]
  generalize (natOfBytes (b :: bs) : Int) = N at *
  generalize (256 : Int) ^ bs.length = P at *
  cases hn : negative (b :: bs) <;> simp only [hn, true_iff, false_iff, not_le,
    Bool.false_eq_true, ↓reduceIte] at hneg ⊢ <;> omega

theorem signedValue_emod (bs : Bytes) : signedValue bs % 256 ^ bs.length = natOfBytes bs := by
  have := natOfBytes_lt bs
  rw [signedValue_eq]
  split
  · rw [Int.sub_emod, Int.emod_self, sub_zero, Int.emod_emod_of_dvd _ dvd_rfl]
    exact Int.emod_eq_of_lt (by positivity) (by exact_mod_cast this)
  · rw [sub_zero]
    exact Int.emod_eq_of_lt (by positivity) (by exact_mod_cast this)

/-- Two numbers of `k + 1` bytes with one residue modulo `256 ^ (k + 1)` are equal. -/
theorem eq_of_fits {k : Nat} {x y : Int} (hx : Fits k x) (hy : Fits k y)
    (h : x % 256 ^ (k + 1) = y % 256 ^ (k + 1)) : x = y := by
  have hdvd : (256 : Int) ^ (k + 1) ∣ x - y := Int.ModEq.dvd h.symm
  have habs : |x - y| < 256 ^ (k + 1) := by
    rw [abs_lt, pow_succ]; constructor <;> linarith [hx.1, hx.2, hy.1, hy.2]
  linarith [Int.eq_zero_of_abs_lt_dvd hdvd habs]

theorem eq_of_signedValue_eq {bs cs : Bytes} (hlen : bs.length = cs.length)
    (h : signedValue bs = signedValue cs) : bs = cs := by
  refine eq_of_natOfBytes_eq hlen ?_
  have := signedValue_emod bs
  rw [h, hlen, signedValue_emod] at this
  exact_mod_cast this.symm

theorem ite_error_eq_ok_iff {c : Prop} [Decidable c] {e : Asn1Error} :
    (if c then .error e else .ok ()) = (.ok () : Except Asn1Error Unit) ↔ ¬ c := by
  by_cases h : c <;> simp [h]

/-- Two content bytes or more pass `checkInteger` exactly when the value does not fit in one
byte fewer: the check accepts the shortest two's complement encoding and nothing else. -/
theorem checkInteger_cons_cons (b₀ b₁ : UInt8) (t : Bytes) :
    checkInteger (b₀ :: b₁ :: t) = .ok () ↔ ¬ Fits t.length (signedValue (b₀ :: b₁ :: t)) := by
  have hsplit : natOfBytes (b₀ :: b₁ :: t)
      = (b₀.toNat * 256 + b₁.toNat) * 256 ^ t.length + natOfBytes t := by
    rw [natOfBytes_cons, natOfBytes_cons, List.length_cons, pow_succ]; ring
  have hdiv : natOfBytes (b₀ :: b₁ :: t) / 256 ^ t.length = b₀.toNat * 256 + b₁.toNat := by
    rw [hsplit, add_comm, Nat.add_mul_div_right _ _ (by positivity),
      Nat.div_eq_of_lt (natOfBytes_lt t), zero_add]
  have hlow : natOfBytes (b₀ :: b₁ :: t) < 128 * 256 ^ t.length ↔
      b₀.toNat * 256 + b₁.toNat < 128 := by
    rw [← hdiv, Nat.div_lt_iff_lt_mul (by positivity)]
  have hhigh : 65408 * 256 ^ t.length ≤ natOfBytes (b₀ :: b₁ :: t) ↔
      65408 ≤ b₀.toNat * 256 + b₁.toNat := by
    rw [← hdiv, Nat.le_div_iff_mul_le (by positivity)]
  have hneg : negative (b₀ :: b₁ :: t) = decide (128 ≤ b₀.toNat) := by
    simp [negative, and_0x80_eq_0x80]
  have hlt := natOfBytes_lt (b₀ :: b₁ :: t)
  have h₀ := b₀.toNat_lt
  have h₁ := b₁.toNat_lt
  have hN : (0 : Int) ≤ natOfBytes (b₀ :: b₁ :: t) := by positivity
  clear hsplit hdiv
  zify at hlow hhigh hlt
  rw [checkInteger, ite_error_eq_ok_iff, and_0x80_eq_zero, and_0x80_eq_0x80, UInt8.ext_iff,
    UInt8.ext_iff, signedValue_eq, hneg, Fits]
  simp only [List.length_cons, pow_succ, UInt8.toNat_zero,
    show (0xFF : UInt8).toNat = 255 from rfl] at hlt ⊢
  generalize (natOfBytes (b₀ :: b₁ :: t) : Int) = N at *
  generalize (256 : Int) ^ t.length = P at *
  by_cases h : 128 ≤ b₀.toNat <;>
    simp only [h, decide_True, decide_False, Bool.false_eq_true, ↓reduceIte] <;> omega

/-- What `checkInteger` accepts is one byte, or the shortest encoding of its value. -/
theorem checkInteger_minimal {bs : Bytes} (h : checkInteger bs = .ok ()) :
    ∃ k, bs.length = k + 1 ∧ Fits k (signedValue bs) ∧ ∀ j < k, ¬ Fits j (signedValue bs) := by
  match bs, h with
  | [b], _ => exact ⟨0, rfl, signedValue_fits b [], fun _ hj => absurd hj (Nat.not_lt_zero _)⟩
  | b₀ :: b₁ :: t, h =>
    refine ⟨t.length + 1, rfl, signedValue_fits b₀ (b₁ :: t), fun j hj hfits => ?_⟩
    exact (checkInteger_cons_cons b₀ b₁ t).mp h (hfits.mono (by omega))

/-- Two encodings `checkInteger` accepts with one value are the same bytes. -/
theorem eq_of_checkInteger {bs cs : Bytes} (hb : checkInteger bs = .ok ())
    (hc : checkInteger cs = .ok ()) (h : signedValue bs = signedValue cs) : bs = cs := by
  obtain ⟨k, hk, fk, mk⟩ := checkInteger_minimal hb
  obtain ⟨l, hl, fl, ml⟩ := checkInteger_minimal hc
  rw [h] at fk mk
  have : k = l := by
    rcases Nat.lt_trichotomy k l with hkl | hkl | hkl
    · exact absurd fk (ml k hkl)
    · exact hkl
    · exact absurd fl (mk l hkl)
  exact eq_of_signedValue_eq (by omega) h

theorem complement_complement (b : UInt8) : ~~~(~~~b) = b :=
  UInt8.toNat.inj (by have := b.toNat_lt; rw [toNat_complement, toNat_complement]; omega)

theorem checkInteger_cons_of_ne (b : UInt8) (bs : Bytes) (h0 : b ≠ 0) (hff : b ≠ 0xFF) :
    checkInteger (b :: bs) = .ok () := by
  cases bs <;> simp [checkInteger, h0, hff]

theorem signedValue_of_and_0x80_eq_zero (b : UInt8) (bs : Bytes) (h : b &&& 0x80 = 0) :
    signedValue (b :: bs) = natOfBytes (b :: bs) := by
  have : ¬ 128 ≤ b.toNat := by have := (and_0x80_eq_zero b).mp h; omega
  simp [signedValue, negative, and_0x80_eq_0x80, this]

theorem signedValue_of_and_0x80_ne_zero (b : UInt8) (bs : Bytes) (h : b &&& 0x80 ≠ 0) :
    signedValue (b :: bs) = -((natOfBytes ((b :: bs).map (~~~·)) : Int) + 1) := by
  have : 128 ≤ b.toNat := by rw [ne_eq, and_0x80_eq_zero] at h; omega
  simp [signedValue, negative, and_0x80_eq_0x80, this]

theorem natOfBytes_zero_cons (bs : Bytes) : natOfBytes (0 :: bs) = natOfBytes bs := by
  simp [natOfBytes_cons]

/-- `makeBigInt` writes an encoding `checkInteger` accepts, and `parseBigInt` reads its value
back. -/
theorem makeBigInt_spec (n : Int) :
    checkInteger (makeBigInt n) = .ok () ∧ signedValue (makeBigInt n) = n := by
  unfold makeBigInt
  by_cases hneg : n < 0
  · rw [if_pos hneg]
    by_cases hm : (-n - 1).toNat = 0
    · rw [hm, (natBytes_eq_nil_iff 0).mpr rfl, List.map_nil]
      refine ⟨rfl, ?_⟩
      rw [signedValue_of_and_0x80_ne_zero _ _ (by decide)]
      have : natOfBytes ([(0xFF : UInt8)].map (~~~·)) = 0 := by decide
      rw [this]; omega
    obtain ⟨c, t, hct, hc⟩ := natBytes_head _ (Nat.pos_of_ne_zero hm)
    have hval : natOfBytes (c :: t) = (-n - 1).toNat := hct ▸ natOfBytes_natBytes _
    have hnot : (t.map (~~~·)).map (~~~·) = t := by
      simp [complement_complement, Function.comp_def]
    rw [hct, List.map_cons]
    simp only [xor_0xFF]
    by_cases hb : ~~~c &&& 0x80 = 0
    · rw [if_pos hb]
      refine ⟨by simp [checkInteger, hb], ?_⟩
      rw [signedValue_of_and_0x80_ne_zero _ _ (by decide)]
      simp only [List.map_cons, complement_complement, hnot, show ~~~(0xFF : UInt8) = 0 from rfl,
        natOfBytes_zero_cons, hval]
      omega
    · rw [if_neg hb]
      refine ⟨checkInteger_cons_of_ne _ _ (fun h => hb (by rw [h]; decide)) ?_, ?_⟩
      · intro h
        apply hc
        rw [← complement_complement c, h]; rfl
      · rw [signedValue_of_and_0x80_ne_zero _ _ hb]
        simp only [List.map_cons, complement_complement, hnot, hval]
        omega
  · rw [if_neg hneg]
    by_cases hz : n = 0
    · subst hz; exact ⟨rfl, rfl⟩
    rw [if_neg hz]
    obtain ⟨c, t, hct, hc⟩ := natBytes_head n.toNat (by omega)
    have hval : natOfBytes (c :: t) = n.toNat := hct ▸ natOfBytes_natBytes _
    rw [hct]
    dsimp only
    by_cases hb : c &&& 0x80 ≠ 0
    · rw [if_pos hb]
      refine ⟨by simp [checkInteger, hb], ?_⟩
      rw [signedValue_of_and_0x80_eq_zero _ _ (by decide), natOfBytes_zero_cons, hval]
      omega
    · rw [if_neg hb]
      rw [not_not] at hb
      refine ⟨checkInteger_cons_of_ne _ _ hc fun h => absurd (h ▸ hb) (by decide), ?_⟩
      rw [signedValue_of_and_0x80_eq_zero _ _ hb, hval]
      omega

theorem parseBigInt_eq_ok_iff' (bs : Bytes) (n : Int) :
    parseBigInt bs = .ok n ↔ checkInteger bs = .ok () ∧ signedValue bs = n := by
  unfold parseBigInt
  cases checkInteger bs <;> simp [bind, Except.bind, pure, Except.pure]

/-- `parseBigInt` reads exactly the bytes `makeBigInt` writes: every number comes back, and no
other content of an INTEGER is read as it. -/
theorem parseBigInt_eq_ok_iff (bs : Bytes) (n : Int) : parseBigInt bs = .ok n ↔ bs = makeBigInt n := by
  rw [parseBigInt_eq_ok_iff']
  constructor
  · rintro ⟨hc, hv⟩
    exact eq_of_checkInteger hc (makeBigInt_spec n).1 (hv.trans (makeBigInt_spec n).2.symm)
  · rintro rfl
    exact makeBigInt_spec n

/-! ## 64-bit integers -/

/-- A loop of `int64Encoder.Len` or of `lengthLength`: while `cond i`, count one more byte and
shift `i` right by eight bits. `fuel` bounds the rounds; eight are more than a 64-bit value
needs. -/
def shiftCount (cond : Int → Bool) : Nat → Int × Nat → Int × Nat
  | 0, s => s
  | fuel + 1, (i, n) => if cond i then shiftCount cond fuel (i >>> (8 : Nat), n + 1) else (i, n)

/-- `int64Encoder.Len`: one byte, and one more for every eight bits the value has above 127 or
below -128. -/
def int64Len (i : Int) : Nat :=
  (shiftCount (fun i => i < -128) 8 (shiftCount (fun i => 127 < i) 8 (i, 1))).2

/-- `int64Encoder.Encode`: the `Len` low bytes of the value, most significant first. -/
def encodeInt64 (i : Int) : Bytes := bigEndian (int64Len i) i

theorem shiftRight_zero (x : Int) : x >>> (0 : Nat) = x := by
  rw [Int.shiftRight_eq_div_pow]; simp

theorem shiftRight_succ (x : Int) (k : Nat) :
    x >>> (8 * (k + 1)) = (x >>> (8 : Nat)) >>> (8 * k) := by
  rw [← Int.shiftRight_add]; congr 1; ring

theorem shiftRight_eq_div (x : Int) (k : Nat) : x >>> (8 * k) = x / 256 ^ k := by
  rw [Int.shiftRight_eq_div_pow, pow_mul]; norm_num

/-- A byte-counting loop given enough fuel stops at the first shift that fails `cond`, having
counted one byte per shift. -/
theorem shiftCount_spec (cond : Int → Bool) : ∀ (fuel : Nat) (x : Int) (n : Nat),
    cond (x >>> (8 * fuel)) = false →
    ∃ k ≤ fuel, shiftCount cond fuel (x, n) = (x >>> (8 * k), n + k) ∧
      cond (x >>> (8 * k)) = false ∧ ∀ j < k, cond (x >>> (8 * j)) = true
  | 0, x, n, h => ⟨0, le_rfl, by simp [shiftCount, shiftRight_zero], h, fun _ hj => absurd hj (by omega)⟩
  | fuel + 1, x, n, h => by
    by_cases hc : cond x
    · rw [shiftRight_succ] at h
      obtain ⟨k, hk, hrun, hstop, hgo⟩ := shiftCount_spec cond fuel (x >>> (8 : Nat)) (n + 1) h
      refine ⟨k + 1, by omega, ?_, by rwa [shiftRight_succ], fun j hj => ?_⟩
      · rw [shiftCount, if_pos hc, hrun, shiftRight_succ, Nat.add_assoc, Nat.add_comm 1 k]
      · cases j with
        | zero => rwa [Nat.mul_zero, shiftRight_zero]
        | succ j => rw [shiftRight_succ]; exact hgo j (by omega)
    · exact ⟨0, by omega, by simp [shiftCount, hc, shiftRight_zero],
        by simpa [shiftRight_zero] using hc, fun _ hj => absurd hj (by omega)⟩

theorem above_iff (x : Int) (k : Nat) : 127 < x >>> (8 * k) ↔ 128 * 256 ^ k ≤ x := by
  rw [shiftRight_eq_div, ← Int.le_ediv_iff_mul_le (by positivity)]; rfl

theorem below_iff (x : Int) (k : Nat) : x >>> (8 * k) < -128 ↔ x < -128 * 256 ^ k := by
  rw [shiftRight_eq_div, Int.ediv_lt_iff_lt_mul (by positivity)]

/-- `int64Encoder.Len` of a 64-bit value is the length of its shortest two's complement
encoding. -/
theorem int64Len_spec (x : Int) (h : Fits 7 x) :
    ∃ k, int64Len x = k + 1 ∧ Fits k x ∧ ∀ j < k, ¬ Fits j x := by
  have h256 : (256 : Int) ^ 8 = 256 * 256 ^ 7 := by norm_num
  obtain ⟨lo, hi⟩ := h
  by_cases hx : 0 ≤ x
  · obtain ⟨k, -, h1, s1, g1⟩ := shiftCount_spec (fun i => 127 < i) 8 x 1
      (by simp only [decide_eq_false_iff_not, above_iff]; omega)
    have hpos : 0 ≤ x >>> (8 * k) := by rw [shiftRight_eq_div]; positivity
    obtain ⟨k2, -, h2, -, g2⟩ := shiftCount_spec (fun i => i < -128) 8 (x >>> (8 * k)) (1 + k)
      (by rw [decide_eq_false_iff_not, not_lt, shiftRight_eq_div]
          exact le_trans (by norm_num) (Int.ediv_nonneg hpos (by positivity)))
    have : k2 = 0 := by
      by_contra hk2
      have := g2 0 (by omega)
      simp only [Nat.mul_zero, shiftRight_zero, decide_eq_true_eq] at this
      omega
    subst this
    simp only [decide_eq_false_iff_not, decide_eq_true_eq, above_iff, not_le] at s1 g1
    refine ⟨k, by simp [int64Len, h1, h2]; omega, ⟨by omega, s1⟩, fun j hj hf => ?_⟩
    have := g1 j hj
    exact absurd hf.2 (by omega)
  · obtain ⟨k, -, h1, -, g1⟩ := shiftCount_spec (fun i => 127 < i) 8 x 1
      (by simp only [decide_eq_false_iff_not, above_iff]; omega)
    have : k = 0 := by
      by_contra hk
      have := g1 0 (by omega)
      simp only [Nat.mul_zero, shiftRight_zero, decide_eq_true_eq] at this
      omega
    subst this
    obtain ⟨k2, -, h2, s2, g2⟩ := shiftCount_spec (fun i => i < -128) 8 x 1
      (by simp only [decide_eq_false_iff_not, below_iff]; omega)
    simp only [decide_eq_false_iff_not, decide_eq_true_eq, below_iff, not_lt] at s2 g2
    refine ⟨k2, by simp [int64Len, h1, shiftRight_zero, h2]; omega, ⟨by linarith, ?_⟩,
      fun j hj hf => ?_⟩
    · have : (0 : Int) < 256 ^ k2 := by positivity
      omega
    · have := g2 j hj
      exact absurd hf.1 (by omega)

theorem length_bigEndian (n : Nat) (x : Int) : (bigEndian n x).length = n := by
  simp [bigEndian]

theorem bigEndian_succ (n : Nat) (x : Int) :
    bigEndian (n + 1) x = bigEndian n (x >>> (8 : Nat)) ++ [lowByte x] := by
  unfold bigEndian
  rw [List.range_succ, List.map_append, List.map_singleton, Nat.add_sub_cancel, Nat.sub_self,
    Nat.zero_mul, shiftRight_zero]
  congr 1
  refine List.map_congr_left fun j hj => ?_
  have : j < n := List.mem_range.mp hj
  rw [← Int.shiftRight_add, show 8 + (n - 1 - j) * 8 = (n - j) * 8 by omega]

theorem lowByte_toNat (x : Int) : ((lowByte x).toNat : Int) = x % 256 := by
  have h0 := Int.emod_nonneg x (by norm_num : (256 : Int) ≠ 0)
  have h1 := Int.emod_lt_of_pos x (by norm_num : (0 : Int) < 256)
  rw [lowByte, Nat.toUInt8, UInt8.toNat_ofNat_of_lt (by rw [UInt8.size]; omega),
    Int.toNat_of_nonneg h0]

theorem emod_pow_succ (x : Int) (n : Nat) :
    x % 256 ^ (n + 1) = x >>> (8 : Nat) % 256 ^ n * 256 + x % 256 := by
  have hP : (0 : Int) < 256 ^ n := by positivity
  rw [show x >>> (8 : Nat) = x / 256 by rw [Int.shiftRight_eq_div_pow]; norm_num]
  have h1 := Int.ediv_add_emod x 256
  have h2 := Int.ediv_add_emod (x / 256) (256 ^ n)
  have h3 := Int.emod_nonneg (x / 256) hP.ne'
  have h4 := Int.emod_lt_of_pos (x / 256) hP
  refine ((Int.ediv_emod_unique (q := x / 256 / 256 ^ n) (by positivity)).mpr
    ⟨?_, by omega, ?_⟩).2
  · rw [pow_succ]; linear_combination h1 + 256 * h2
  · rw [pow_succ]; omega

theorem natOfBytes_bigEndian (n : Nat) (x : Int) : (natOfBytes (bigEndian n x) : Int) = x % 256 ^ n := by
  induction n generalizing x with
  | zero => simp [bigEndian]
  | succ n ih =>
    rw [bigEndian_succ, natOfBytes_append_singleton, Nat.cast_add, Nat.cast_mul, ih, lowByte_toNat,
      emod_pow_succ]
    rfl

/-- The low `k + 1` bytes of a number of `k + 1` bytes are its two's complement encoding. -/
theorem signedValue_bigEndian (k : Nat) (x : Int) (h : Fits k x) :
    signedValue (bigEndian (k + 1) x) = x := by
  obtain ⟨b, t, hbt⟩ := List.exists_cons_of_length_eq_add_one (length_bigEndian (k + 1) x)
  have ht : t.length = k := by simpa [hbt] using length_bigEndian (k + 1) x
  have hfits := signedValue_fits b t
  rw [← hbt, ht] at hfits
  refine eq_of_fits hfits h ?_
  have := signedValue_emod (bigEndian (k + 1) x)
  rwa [length_bigEndian, natOfBytes_bigEndian] at this

/-- `int64Encoder` writes, for a 64-bit value, an encoding `checkInteger` accepts, and its value
is the number written. -/
theorem encodeInt64_spec (x : Int) (h : Fits 7 x) :
    checkInteger (encodeInt64 x) = .ok () ∧ signedValue (encodeInt64 x) = x := by
  obtain ⟨k, hk, fk, mk⟩ := int64Len_spec x h
  rw [encodeInt64, hk]
  have hv := signedValue_bigEndian k x fk
  refine ⟨?_, hv⟩
  obtain ⟨b₀, t, hbt⟩ := List.exists_cons_of_length_eq_add_one (length_bigEndian (k + 1) x)
  have ht : t.length = k := by simpa [hbt] using length_bigEndian (k + 1) x
  rw [hbt]
  match t, k, ht with
  | [], _, _ => rfl
  | b₁ :: t, k' + 1, ht =>
    rw [checkInteger_cons_cons, ← hbt, hv]
    exact mk _ (by simp at ht; omega)

/-- `int64Encoder`, with its two shift loops, writes what `makeBigInt` writes: the shortest
two's complement encoding of the value. -/
theorem encodeInt64_eq_makeBigInt (x : Int) (h : Fits 7 x) : encodeInt64 x = makeBigInt x :=
  eq_of_checkInteger (encodeInt64_spec x h).1 (makeBigInt_spec x).1
    ((encodeInt64_spec x h).2.trans (makeBigInt_spec x).2.symm)

theorem encodeInt64_eq_makeBigInt_exponent : Fits 7 65537 ∧ encodeInt64 65537 = makeBigInt 65537 :=
  ⟨by unfold Fits; norm_num, encodeInt64_eq_makeBigInt 65537 (by unfold Fits; norm_num)⟩

/-- The loop of `parseInt64`: `ret <<= 8; ret |= int64(bytes[bytesRead])` for each byte. -/
def shiftInBytes (bytes : Bytes) : BitVec 64 :=
  bytes.foldl (fun ret b => ret <<< 8 ||| BitVec.ofNat 64 b.toNat) 0

/-- `parseInt64`: an INTEGER of at most eight bytes, shifted in and then sign-extended from the
top bit of its first byte by a shift up and an arithmetic shift down. -/
def parseInt64 (bytes : Bytes) : Except Asn1Error (BitVec 64) := do
  checkInteger bytes
  if bytes.length > 8 then throw (.structuralError "integer too large")
  let ret := shiftInBytes bytes
  pure ((ret <<< (64 - bytes.length * 8)).sshiftRight (64 - bytes.length * 8))

theorem toNat_shiftIn (y : BitVec 64) (b : UInt8) :
    (y <<< 8 ||| BitVec.ofNat 64 b.toNat).toNat = (y.toNat * 256 + b.toNat) % 2 ^ 64 := by
  have hb : b.toNat < 2 ^ 8 := b.toNat_lt
  rw [BitVec.toNat_or, BitVec.toNat_shiftLeft, BitVec.toNat_ofNat, Nat.shiftLeft_eq,
    Nat.mod_eq_of_lt (by omega : b.toNat < 2 ^ 64)]
  have hm : y.toNat * 2 ^ 8 % 2 ^ 64 = 2 ^ 8 * (y.toNat * 2 ^ 8 % 2 ^ 64 / 2 ^ 8) := by omega
  rw [hm, ← Nat.mul_add_lt_is_or hb]
  omega

theorem toNat_shiftInBytes (bs : Bytes) : (shiftInBytes bs).toNat = natOfBytes bs % 2 ^ 64 := by
  induction bs using List.reverseRecOn with
  | nil => rfl
  | append_singleton bs b ih =>
    rw [shiftInBytes, List.foldl_append, List.foldl_cons, List.foldl_nil, ← shiftInBytes,
      toNat_shiftIn, ih, natOfBytes_append_singleton]
    omega

theorem bmod_of_fits (z : Int) (h : Fits 7 z) : z.bmod (2 ^ 64) = z := by
  have lo := Int.le_bmod (x := z) (m := 2 ^ 64) (by positivity)
  have hi := Int.bmod_lt (x := z) (m := 2 ^ 64) (by positivity)
  refine eq_of_fits ⟨?_, ?_⟩ h ?_
  · push_cast at lo; norm_num at lo ⊢; omega
  · push_cast at hi; norm_num at hi ⊢; omega
  · have := Int.bmod_emod (x := z) (m := 2 ^ 64)
    push_cast at this; norm_num at this ⊢; exact this

/-- The shift up and back down of `parseInt64` sign-extends the low `k` bytes. -/
theorem toInt_signExtend (y : BitVec 64) (k : Nat) (hk1 : 1 ≤ k) (hk8 : k ≤ 8)
    (hy : y.toNat < 256 ^ k) :
    ((y <<< (64 - k * 8)).sshiftRight (64 - k * 8)).toInt
      = y.toNat - if 128 * 256 ^ (k - 1) ≤ y.toNat then (256 ^ k : Int) else 0 := by
  obtain ⟨j, rfl⟩ : ∃ j, k = j + 1 := ⟨k - 1, by omega⟩
  have hpow : 2 ^ (64 - (j + 1) * 8) * (256 ^ j * 256) = 2 ^ 64 := by
    rw [← pow_succ, show (256 : Nat) = 2 ^ 8 by rfl, ← pow_mul, ← pow_add]; congr 1; omega
  have hj : 256 ^ j ≤ 256 ^ 7 := Nat.pow_le_pow_right (by norm_num) (by omega)
  rw [BitVec.sshiftRight_eq, BitVec.toInt_ofInt, Int.shiftRight_eq_div_pow,
    BitVec.toInt_eq_toNat_cond, BitVec.toNat_shiftLeft, Nat.shiftLeft_eq, Nat.add_sub_cancel,
    pow_succ (256 : Int) j, ← Nat.cast_ofNat (R := Int) (n := 256), ← Nat.cast_pow]
  rw [pow_succ] at hy
  generalize 2 ^ (64 - (j + 1) * 8) = S at hpow ⊢
  generalize y.toNat = N at hy ⊢
  generalize 256 ^ j = Q at hpow hy hj ⊢
  have hS : 0 < S := Nat.pos_of_ne_zero fun h => by simp [h] at hpow
  have hlt : N * S < 2 ^ 64 := hpow ▸ by rw [mul_comm S]; exact Nat.mul_lt_mul_of_pos_right hy hS
  rw [Nat.mod_eq_of_lt hlt]
  have hcond : 2 * (N * S) < 2 ^ 64 ↔ N < 128 * Q := by
    rw [← hpow, show 2 * (N * S) = S * (2 * N) by ring, Nat.mul_lt_mul_left hS]; omega
  have hS' : (S : Int) ≠ 0 := by exact_mod_cast hS.ne'
  by_cases hc : 128 * Q ≤ N
  · rw [if_neg (by rw [hcond]; omega), if_pos hc]
    have : ((N * S : Nat) : Int) - ((2 ^ 64 : Nat) : Int)
        = ((N : Int) - (Q : Nat) * (256 : Nat)) * S := by
      rw [← hpow]; push_cast; ring
    rw [this, Int.mul_ediv_cancel _ hS', bmod_of_fits]
    unfold Fits; omega
  · rw [if_pos (by rw [hcond]; omega), if_neg hc, sub_zero, Nat.cast_mul,
      Int.mul_ediv_cancel _ hS', bmod_of_fits]
    unfold Fits; omega

theorem fits_toInt (e : BitVec 64) : Fits 7 e.toInt := by
  have := e.isLt
  rw [BitVec.toInt_eq_toNat_cond]
  constructor <;> split <;> norm_num at * <;> omega

theorem length_encodeInt64 (x : Int) (h : Fits 7 x) : (encodeInt64 x).length ≤ 8 := by
  obtain ⟨k, hk, -, mk⟩ := int64Len_spec x h
  rw [encodeInt64, length_bigEndian, hk]
  by_contra hlt
  exact mk 7 (by omega) h

theorem parseInt64_eq_ok_iff' (bs : Bytes) (e : BitVec 64) :
    parseInt64 bs = .ok e ↔ checkInteger bs = .ok () ∧ bs.length ≤ 8 ∧ e.toInt = signedValue bs := by
  unfold parseInt64
  cases hc : checkInteger bs with
  | error err => simp [bind, Except.bind]
  | ok u =>
    by_cases h8 : bs.length > 8
    · simp [bind, Except.bind, h8, throw, throwThe, MonadExceptOf.throw]
    obtain ⟨b, t, rfl⟩ : ∃ b t, bs = b :: t := by
      cases bs with
      | nil => simp [checkInteger] at hc
      | cons b t => exact ⟨b, t, rfl⟩
    have h64 : 256 ^ (b :: t).length ≤ 2 ^ 64 :=
      calc 256 ^ (b :: t).length ≤ 256 ^ 8 := Nat.pow_le_pow_right (by norm_num) (by omega)
        _ = 2 ^ 64 := by norm_num
    have hN : natOfBytes (b :: t) < 2 ^ 64 := lt_of_lt_of_le (natOfBytes_lt _) h64
    have hle : (b :: t).length ≤ 8 := le_of_not_gt h8
    have hval : ((shiftInBytes (b :: t) <<< (64 - (b :: t).length * 8)).sshiftRight
        (64 - (b :: t).length * 8)).toInt = signedValue (b :: t) := by
      rw [toInt_signExtend _ _ (by simp) hle
          (by rw [toNat_shiftInBytes, Nat.mod_eq_of_lt hN]; exact natOfBytes_lt _),
        toNat_shiftInBytes, Nat.mod_eq_of_lt hN, signedValue_eq, List.length_cons,
        Nat.add_sub_cancel]
      have := negative_cons b t
      by_cases hn : 128 * 256 ^ t.length ≤ natOfBytes (b :: t)
      · rw [if_pos hn, if_pos (this.mpr hn)]
      · rw [if_neg hn, if_neg (mt this.mp hn)]
    simp only [bind, Except.bind, h8, if_false, pure, Except.pure, Except.ok.injEq, hle, true_and]
    rw [← BitVec.toInt_inj, hval, eq_comm]

/-- `parseInt64` reads exactly the bytes `int64Encoder` writes: every 64-bit value comes back, and
no other content is read as it. -/
theorem parseInt64_eq_ok_iff (bs : Bytes) (e : BitVec 64) :
    parseInt64 bs = .ok e ↔ bs = encodeInt64 e.toInt := by
  obtain ⟨hc, hv⟩ := encodeInt64_spec _ (fits_toInt e)
  rw [parseInt64_eq_ok_iff']
  constructor
  · rintro ⟨hc', -, hv'⟩
    exact eq_of_checkInteger hc' hc (hv'.symm.trans hv.symm)
  · rintro rfl
    exact ⟨hc, length_encodeInt64 _ (fits_toInt e), hv.symm⟩

end Telehash.Asn1
