/-
# Telehash.Der.RsaKey -- `enc_DER_RSA` and `dec_DER_RSA`

A hashname is the SHA-256 of an RSA public key's DER encoding.  `enc_DER_RSA` writes the key with
`asn1.Marshal(*pub)`: a SEQUENCE holding the INTEGER `N` and the INTEGER `E`.  `dec_DER_RSA`
reads one with `asn1.Unmarshal`, drops what follows the SEQUENCE, and refuses a modulus or an
exponent that is not positive.  `asn1.Unmarshal` into an `rsa.PublicKey` is `parseField` on the
struct, which reads the SEQUENCE and then each field from its content, and allows content after
the last field.  The model follows `parseField` for these three elements.

* `unmarshalPublicKey_eq_ok_iff`: `asn1.Unmarshal` reads a key from exactly the bytes
  `asn1.Marshal` writes for it, with any bytes after `E` inside the SEQUENCE and any bytes after
  the SEQUENCE;
* `decDerRsa_eq_ok_iff`: so `dec_DER_RSA` accepts exactly those encodings of keys with a positive
  modulus and exponent, and one key has many: the DER a hashname is computed from is not fixed by
  the key;
* `decDerRsa_encDerRsa`: a key `enc_DER_RSA` writes comes back from `dec_DER_RSA`, whatever follows
  it, unless its modulus or exponent is not positive.
-/
import Telehash.Der.Header
import Telehash.Packet.Header

namespace Telehash

set_option autoImplicit false

/-- `rsa.PublicKey`: the modulus `N`, a `*big.Int`, and the public exponent `E`, an `int`. -/
structure RsaPublicKey where
  n : Int
  e : GoInt
  deriving DecidableEq, Repr

namespace Asn1

open Json (Bytes)

/-! ## Elements -/

/-- The bytes `makeField` gives an element of universal class: its tag and length, then its
content. -/
def element (tag : Nat) (compound : Bool) (content : Bytes) : Bytes :=
  appendTagAndLength ⟨0, tag, content.length, compound⟩ ++ content

/-- `parseField` up to the content of an element of universal class with tag number
`expectedTag`, read from `bytes` at `offset`: `sequence truncated` at the end of the input, the
tag and length, the mismatch error with the offset after them, and `data truncated` for a length
past the end; the content and the offset after the element. -/
def parseElement (expectedTag : Nat) (compound : Bool) (typeName : String) (bytes : Bytes)
    (offset : Nat) : Except Asn1Error (Bytes × Nat) :=
  if offset = bytes.length then .error (.syntaxError "sequence truncated")
  else
    match parseTagAndLength (bytes.drop offset) with
    | .error e => .error e
    | .ok (t, rest) =>
      if t.«class» ≠ 0 ∨ t.tag ≠ expectedTag ∨ t.isCompound ≠ compound then
        .error (.tagsDontMatch expectedTag t typeName (bytes.length - rest.length))
      else if bytes.length - rest.length + t.length > bytes.length then
        .error (.syntaxError "data truncated")
      else
        .ok ((bytes.drop (bytes.length - rest.length)).take t.length,
          bytes.length - rest.length + t.length)

theorem length_appendLengthOctets (l : Nat) (h : l < 2 ^ 31) : (appendLengthOctets l).length ≤ 5 := by
  obtain ⟨k, hk, -, g⟩ := lengthLength_spec l h
  have : k < 4 := by
    by_contra hk4
    have := g 3 (by omega)
    omega
  unfold appendLengthOctets
  split
  · simp [appendLength, length_bigEndian, hk]; omega
  · simp

theorem length_element (tag : Nat) (c : Bool) (content : Bytes) (ht : tag < 31)
    (hl : content.length < 2 ^ 31) : (element tag c content).length ≤ content.length + 6 := by
  have := length_appendLengthOctets _ hl
  simp only [element, appendTagAndLength, appendIdentifier, if_neg (show ¬ tag ≥ 31 by omega),
    List.length_append, List.length_singleton]
  omega

theorem drop_eq_of_drop_eq {bytes pre rest : Bytes} {offset : Nat} (hpre : pre ≠ [])
    (h : bytes.drop offset = pre ++ rest) : bytes.drop (bytes.length - rest.length) = rest := by
  have hlen : bytes.length - offset = pre.length + rest.length := by
    rw [← List.length_drop, h, List.length_append]
  have : 0 < pre.length := List.length_pos.mpr hpre
  rw [show bytes.length - rest.length = offset + pre.length by omega, ← List.drop_drop, h,
    List.drop_left]

theorem appendTagAndLength_ne_nil (t : TagAndLength) : appendTagAndLength t ≠ [] := by
  have : appendIdentifier t ≠ [] := by
    unfold appendIdentifier; by_cases h : t.tag ≥ 31 <;> simp [h]
  simp [appendTagAndLength, this]

/-- `parseField` reads an element of the expected tag at the offset where it starts, and moves
past it. -/
theorem parseElement_element (tag : Nat) (c : Bool) (name : String) (pre content rest : Bytes)
    (ht : tag < 31) (hl : content.length < 2 ^ 31) :
    parseElement tag c name (pre ++ element tag c content ++ rest) pre.length
      = .ok (content, pre.length + (element tag c content).length) := by
  set t : TagAndLength := ⟨0, tag, content.length, c⟩
  have hbytes : pre ++ element tag c content ++ rest = pre ++ appendTagAndLength t ++ (content ++ rest) := by
    simp [element, t]
  have hne := List.length_pos.mpr (appendTagAndLength_ne_nil t)
  have hlen : (pre ++ appendTagAndLength t ++ (content ++ rest)).length
      = pre.length + (appendTagAndLength t).length + (content.length + rest.length) := by
    simp only [List.length_append]
  rw [hbytes]
  unfold parseElement
  rw [if_neg (by rw [hlen]; omega), List.append_assoc, List.drop_left,
    (parseTagAndLength_eq_ok_iff _ _ _ ht).mpr ⟨by simp [t], hl, rfl⟩]
  dsimp only
  have hsub : (pre ++ (appendTagAndLength t ++ (content ++ rest))).length - (content ++ rest).length
      = pre.length + (appendTagAndLength t).length := by
    simp; omega
  rw [if_neg (by simp [t]), if_neg (by rw [hsub]; simp [t]; omega), hsub, ← List.length_append,
    ← List.append_assoc pre, List.drop_left, List.take_left, element, List.length_append,
    List.length_append, Nat.add_assoc]

/-- What `parseField` reads as an element of the expected tag is one, followed by the rest of the
input. -/
theorem parseElement_sound {tag : Nat} {c : Bool} {name : String} {bytes content : Bytes}
    {offset offset' : Nat} (h : parseElement tag c name bytes offset = .ok (content, offset'))
    (ht : tag < 31) :
    content.length < 2 ^ 31 ∧ ∃ rest, bytes.drop offset = element tag c content ++ rest ∧
      offset' = offset + (element tag c content).length := by
  unfold parseElement at h
  by_cases hend : offset = bytes.length
  · rw [if_pos hend] at h; cases h
  rw [if_neg hend] at h
  cases hp : parseTagAndLength (bytes.drop offset) with
  | error e => rw [hp] at h; cases h
  | ok p =>
    obtain ⟨t, rest⟩ := p
    rw [hp] at h
    dsimp only at h
    by_cases hm : t.«class» ≠ 0 ∨ t.tag ≠ tag ∨ t.isCompound ≠ c
    · rw [if_pos hm] at h; cases h
    rw [if_neg hm] at h
    simp only [ne_eq, not_or, not_not] at hm
    obtain ⟨hc, rfl, rfl⟩ := hm
    obtain ⟨-, hl, hdrop⟩ := (parseTagAndLength_eq_ok_iff _ _ _ ht).mp hp
    have hrest := drop_eq_of_drop_eq (appendTagAndLength_ne_nil t) hdrop
    have hlen : bytes.length - offset = (appendTagAndLength t).length + rest.length := by
      rw [← List.length_drop, hdrop, List.length_append]
    by_cases htr : bytes.length - rest.length + t.length > bytes.length
    · rw [if_pos htr] at h; cases h
    rw [if_neg htr, hrest, Except.ok.injEq, Prod.mk.injEq] at h
    obtain ⟨rfl, rfl⟩ := h
    have htl : (rest.take t.length).length = t.length := by simp; omega
    have ht' : t = ⟨0, t.tag, (rest.take t.length).length, t.isCompound⟩ := by
      rw [htl, ← hc]
    refine ⟨by rw [htl]; exact hl, rest.drop t.length, ?_, ?_⟩
    · rw [hdrop, element, ← ht', List.append_assoc, List.take_append_drop]
    · have hA := List.length_pos.mpr (appendTagAndLength_ne_nil t)
      rw [element, List.length_append, ← ht', htl]; omega

/-! ## `rsa.PublicKey` -/

/-- `asn1.Marshal` of an `rsa.PublicKey`: a SEQUENCE of the INTEGER `N`, written by `makeBigInt`,
and the INTEGER `E`, written by `int64Encoder`. -/
def marshalPublicKey (pub : RsaPublicKey) : Bytes :=
  element 16 true (element 2 false (makeBigInt pub.n) ++ element 2 false (encodeInt64 pub.e.toInt))

/-- `asn1.Unmarshal` into an `rsa.PublicKey`: the SEQUENCE, then in its content the INTEGER `N`
read by `parseBigInt` and the INTEGER `E` read by `parseInt64`; content after `E` is allowed, and
what follows the SEQUENCE is returned. -/
def unmarshalPublicKey (b : Bytes) : Except Asn1Error (RsaPublicKey × Bytes) := do
  let (inner, offset) ← parseElement 16 true "PublicKey" b 0
  let (nBytes, innerOffset) ← parseElement 2 false "" inner 0
  let n ← parseBigInt nBytes
  let (eBytes, _) ← parseElement 2 false "int" inner innerOffset
  let e ← parseInt64 eBytes
  pure (⟨n, e⟩, b.drop offset)

theorem bind_eq_ok {ε α β : Type} {x : Except ε α} {f : α → Except ε β} {b : β} :
    x >>= f = .ok b ↔ ∃ a, x = .ok a ∧ f a = .ok b := by
  cases x <;> simp [bind, Except.bind]

/-- The content `asn1.Marshal` writes in the key's SEQUENCE. -/
def publicKeyBody (pub : RsaPublicKey) : Bytes :=
  element 2 false (makeBigInt pub.n) ++ element 2 false (encodeInt64 pub.e.toInt)

/-- What `asn1.Unmarshal` reads a key from is the SEQUENCE `asn1.Marshal` writes for it, with
bytes after `E` inside, followed by what it returns. -/
theorem unmarshalPublicKey_sound {b rest : Bytes} {pub : RsaPublicKey}
    (h : unmarshalPublicKey b = .ok (pub, rest)) :
    ∃ extra, (publicKeyBody pub ++ extra).length < 2 ^ 31 ∧
      b = element 16 true (publicKeyBody pub ++ extra) ++ rest := by
  simp only [unmarshalPublicKey, bind_eq_ok] at h
  obtain ⟨⟨inner, offset⟩, houter, ⟨nBytes, io⟩, hn, n, hbig, ⟨eBytes, eo⟩, he, e, hint, hres⟩ := h
  dsimp only at hn hbig he hint hres
  simp only [pure, Except.pure, Except.ok.injEq, Prod.mk.injEq] at hres
  obtain ⟨rfl, rfl⟩ := hres
  obtain ⟨hl, r, hb, rfl⟩ := parseElement_sound houter (by decide)
  obtain ⟨-, r₁, hi, rfl⟩ := parseElement_sound hn (by decide)
  obtain ⟨-, r₂, hr₁, -⟩ := parseElement_sound he (by decide)
  rw [List.drop_zero] at hb hi
  rw [hi, Nat.zero_add, List.drop_left] at hr₁
  rw [(parseBigInt_eq_ok_iff _ _).mp hbig] at hi
  rw [(parseInt64_eq_ok_iff _ _).mp hint] at hr₁
  have hinner : inner = publicKeyBody ⟨n, e⟩ ++ r₂ := by
    rw [publicKeyBody, List.append_assoc, ← hr₁, ← hi]
  refine ⟨r₂, hinner ▸ hl, ?_⟩
  rw [hb, Nat.zero_add, List.drop_left, hinner]

theorem ok_bind {ε α β : Type} (a : α) (f : α → Except ε β) : (Except.ok a >>= f) = f a := rfl

/-- `asn1.Unmarshal` reads the key back from such a SEQUENCE. -/
theorem unmarshalPublicKey_element (rest extra : Bytes) (pub : RsaPublicKey)
    (hl : (publicKeyBody pub ++ extra).length < 2 ^ 31) :
    unmarshalPublicKey (element 16 true (publicKeyBody pub ++ extra) ++ rest) = .ok (pub, rest) := by
  simp only [publicKeyBody] at hl ⊢
  have hN : (makeBigInt pub.n).length < 2 ^ 31 := by
    simp only [element, List.length_append] at hl; omega
  have hE : (encodeInt64 pub.e.toInt).length < 2 ^ 31 := by
    simp only [element, List.length_append] at hl; omega
  have outer := parseElement_element 16 true "PublicKey" []
    (element 2 false (makeBigInt pub.n) ++ element 2 false (encodeInt64 pub.e.toInt) ++ extra)
    rest (by decide) hl
  have first := parseElement_element 2 false "" [] (makeBigInt pub.n)
    (element 2 false (encodeInt64 pub.e.toInt) ++ extra) (by decide) hN
  have second := parseElement_element 2 false "int" (element 2 false (makeBigInt pub.n))
    (encodeInt64 pub.e.toInt) extra (by decide) hE
  simp only [List.nil_append, List.length_nil, Nat.zero_add] at outer first
  rw [← List.append_assoc] at first
  rw [unmarshalPublicKey, outer, ok_bind]
  dsimp only
  rw [first, ok_bind]
  dsimp only
  rw [(parseBigInt_eq_ok_iff _ _).mpr rfl, ok_bind, second, ok_bind,
    (parseInt64_eq_ok_iff _ _).mpr rfl, ok_bind, List.drop_left]
  rfl

/-- `asn1.Unmarshal` reads a key from exactly the bytes `asn1.Marshal` writes for it, with any
bytes after `E` inside the SEQUENCE, a SEQUENCE shorter than `2 ^ 31`, and any bytes after it,
which it returns. -/
theorem unmarshalPublicKey_eq_ok_iff (b rest : Bytes) (pub : RsaPublicKey) :
    unmarshalPublicKey b = .ok (pub, rest) ↔
      ∃ extra, (publicKeyBody pub ++ extra).length < 2 ^ 31 ∧
        b = element 16 true (publicKeyBody pub ++ extra) ++ rest :=
  ⟨unmarshalPublicKey_sound, fun ⟨extra, hl, hb⟩ => hb ▸ unmarshalPublicKey_element rest extra pub hl⟩

end Asn1

/-- The errors `dec_DER_RSA` returns: those of `asn1.Unmarshal`, and its own. -/
inductive DerRsaError where
  | asn1 (err : Asn1.Asn1Error)
  | errorf (msg : String)
  deriving DecidableEq, Repr

/-- `enc_DER_RSA`. -/
def encDerRsa (pub : RsaPublicKey) : Json.Bytes := Asn1.marshalPublicKey pub

example : encDerRsa ⟨3233, 17⟩ = [0x30, 0x07, 0x02, 0x02, 0x0C, 0xA1, 0x02, 0x01, 0x11] := rfl

/-- `dec_DER_RSA`: the key `asn1.Unmarshal` reads, if its modulus and exponent are positive. -/
def decDerRsa (der : Json.Bytes) : Except DerRsaError RsaPublicKey :=
  match Asn1.unmarshalPublicKey der with
  | .error err => .error (.asn1 err)
  | .ok (pub, _) =>
    if pub.n ≤ 0 then .error (.errorf "telehash: RSA modulus is not a positive number")
    else if pub.e.toInt ≤ 0 then
      .error (.errorf "telehash: RSA public exponent is not a positive number")
    else .ok pub


/-- `dec_DER_RSA` accepts exactly a SEQUENCE shorter than `2 ^ 31` whose content starts with the
INTEGERs `asn1.Marshal` writes for a key with a positive modulus and a positive exponent,
whatever follows them inside the SEQUENCE and whatever follows the SEQUENCE. -/
theorem decDerRsa_eq_ok_iff (der : Json.Bytes) (pub : RsaPublicKey) :
    decDerRsa der = .ok pub ↔ 0 < pub.n ∧ 0 < pub.e.toInt ∧
      ∃ extra rest, (Asn1.publicKeyBody pub ++ extra).length < 2 ^ 31 ∧
        der = Asn1.element 16 true (Asn1.publicKeyBody pub ++ extra) ++ rest := by
  unfold decDerRsa
  cases h : Asn1.unmarshalPublicKey der with
  | error err =>
    simp only [reduceCtorEq, false_iff, not_and, not_exists]
    intro _ _ extra rest hl hder
    have := (Asn1.unmarshalPublicKey_eq_ok_iff der rest pub).mpr ⟨extra, hl, hder⟩
    rw [h] at this; cases this
  | ok p =>
    obtain ⟨q, r⟩ := p
    dsimp only
    have hq := (Asn1.unmarshalPublicKey_eq_ok_iff der r q).mp h
    by_cases hn : q.n ≤ 0
    · rw [if_pos hn]
      simp only [reduceCtorEq, false_iff, not_and, not_exists]
      intro hpos _ extra rest hl hder
      have := (Asn1.unmarshalPublicKey_eq_ok_iff der rest pub).mpr ⟨extra, hl, hder⟩
      rw [h, Except.ok.injEq, Prod.mk.injEq] at this
      rw [this.1] at hn; omega
    rw [if_neg hn]
    by_cases he : q.e.toInt ≤ 0
    · rw [if_pos he]
      simp only [reduceCtorEq, false_iff, not_and, not_exists]
      intro _ hpos extra rest hl hder
      have := (Asn1.unmarshalPublicKey_eq_ok_iff der rest pub).mpr ⟨extra, hl, hder⟩
      rw [h, Except.ok.injEq, Prod.mk.injEq] at this
      rw [this.1] at he; omega
    rw [if_neg he, Except.ok.injEq]
    constructor
    · rintro rfl
      obtain ⟨extra, hl, hder⟩ := hq
      exact ⟨by omega, by omega, extra, r, hl, hder⟩
    · rintro ⟨-, -, extra, rest, hl, hder⟩
      have := (Asn1.unmarshalPublicKey_eq_ok_iff der rest pub).mpr ⟨extra, hl, hder⟩
      rw [h, Except.ok.injEq, Prod.mk.injEq] at this
      exact this.1

/-- A key `enc_DER_RSA` writes, whatever follows it, comes back from `dec_DER_RSA` as itself, or
with the error for a modulus or an exponent that is not positive. -/
theorem decDerRsa_encDerRsa (pub : RsaPublicKey) (rest : Json.Bytes)
    (h : (Asn1.makeBigInt pub.n).length < 2 ^ 30) :
    decDerRsa (encDerRsa pub ++ rest) =
      if pub.n ≤ 0 then .error (.errorf "telehash: RSA modulus is not a positive number")
      else if pub.e.toInt ≤ 0 then
        .error (.errorf "telehash: RSA public exponent is not a positive number")
      else .ok pub := by
  have hN := Asn1.length_element 2 false _ (by decide) (by omega : (Asn1.makeBigInt pub.n).length < 2 ^ 31)
  have hE8 := Asn1.length_encodeInt64 _ (Asn1.fits_toInt pub.e)
  have hE := Asn1.length_element 2 false _ (by decide) (by omega : (Asn1.encodeInt64 pub.e.toInt).length < 2 ^ 31)
  have hround := (Asn1.unmarshalPublicKey_eq_ok_iff (encDerRsa pub ++ rest) rest pub).mpr
    ⟨[], by simp only [List.append_nil, Asn1.publicKeyBody, List.length_append]; omega, by
      rw [List.append_nil]; rfl⟩
  rw [decDerRsa, hround]

theorem decDerRsa_encDerRsa_textbook : (Asn1.makeBigInt 3233).length < 2 ^ 30 ∧
    decDerRsa (encDerRsa ⟨3233, 17⟩ ++ [0]) = .ok ⟨3233, 17⟩ :=
  ⟨by decide, by rw [decDerRsa_encDerRsa ⟨3233, 17⟩ [0] (by decide)]; rfl⟩

end Telehash
