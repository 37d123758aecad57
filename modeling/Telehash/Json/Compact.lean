/-
# Telehash.Json.Compact -- the raw `_` document on its way out

`json.RawMessage` marshals as its own bytes, which `json.Marshal` then runs through
`appendCompact(dst, src, escapeHTML)`: the bytes must hold one JSON value, the space between its
tokens is dropped, and inside strings `<`, `>`, `&`, U+2028 and U+2029 are escaped.  On valid
input that is the value re-emitted token by token (`emitValue`), every literal as it was written
and every string's content through `htmlEscape`; on anything else it is a `MarshalerError`.

* `readsAs_emitValue`: the scanner reads the compacted value back, within the nesting limit;
* `unquote_htmlEscape`: HTML escaping does not change what a string's content stands for;
* `jsonValue_compact`: so the compacted document is the same JSON value as the original.
-/
import Telehash.Json.Values

namespace Telehash.Json

set_option autoImplicit false

/-- The escaping `appendCompact` applies with `escape` set: `<`, `>` and `&` become `\u003c`,
`\u003e`, `\u0026`, and the bytes `E2 80 A8` and `E2 80 A9` of U+2028 and U+2029 become
`\u2028` and `\u2029`. -/
def htmlEscape : Bytes → Bytes
  | [] => []
  | c :: s =>
    if c = 0x3C ∨ c = 0x3E ∨ c = 0x26 then
      [0x5C, 0x75, 0x30, 0x30, hexDigit (c.toNat / 16), hexDigit (c.toNat % 16)] ++ htmlEscape s
    else
      match s with
      | b1 :: b2 :: t =>
        if c = 0xE2 ∧ b1 = 0x80 ∧ (b2 = 0xA8 ∨ b2 = 0xA9) then
          [0x5C, 0x75, 0x32, 0x30, 0x32, hexDigit (b2.toNat % 16)] ++ htmlEscape t
        else c :: htmlEscape (b1 :: b2 :: t)
      | s => c :: htmlEscape s

/-- A value written back without space: literals as they were read, strings with their content
through `htmlEscape`. -/
def emitValue : JsonValue Bytes → Bytes
  | .null => nullText
  | .bool true => trueText
  | .bool false => falseText
  | .number lit => lit
  | .string raw => 0x22 :: htmlEscape raw ++ [0x22]
  | .array xs => jsonArray (emitElems xs)
  | .object ms => jsonObject (emitMembers ms)
where
  /-- The texts of the elements. -/
  emitElems : List (JsonValue Bytes) → List Bytes
    | [] => []
    | x :: xs => emitValue x :: emitElems xs
  /-- The escaped keys and the texts of the values. -/
  emitMembers : List (Bytes × JsonValue Bytes) → List (Bytes × Bytes)
    | [] => []
    | (k, v) :: ms => (htmlEscape k, emitValue v) :: emitMembers ms

/-- `appendCompact(nil, src, true)`: the one value `src` holds, re-emitted without space and
with HTML escaping, or the error `json.Marshal` reports for a `MarshalJSON` result that is not
one JSON value. -/
def compact (src : Bytes) : Except JsonError Bytes :=
  match parseDocument src with
  | .ok v => .ok (emitValue v)
  | .error _ => .error .marshaler

/-- The JSON value a document holds, its strings and keys unquoted: what two documents are
compared by. `none` where the bytes are not one JSON value. -/
def jsonValue (raw : Bytes) : Option (JsonValue (Option String)) :=
  match parseDocument raw with
  | .ok v => some (v.map unquote)
  | .error _ => none

/-! ## `htmlEscape`, one byte class at a time -/

/-- The bytes `htmlEscape` rewrites on their own. -/
def htmlSpecial (c : UInt8) : Prop := c = 0x3C ∨ c = 0x3E ∨ c = 0x26

instance (c : UInt8) : Decidable (htmlSpecial c) := inferInstanceAs (Decidable (_ ∨ _))

/-- The escape `htmlEscape` writes for `<`, `>` and `&`. -/
def specialEscape (c : UInt8) : Bytes :=
  [0x5C, 0x75, 0x30, 0x30, hexDigit (c.toNat / 16), hexDigit (c.toNat % 16)]

/-- The escape it writes for the line and paragraph separators, from their last byte. -/
def separatorEscape (b2 : UInt8) : Bytes := [0x5C, 0x75, 0x32, 0x30, 0x32, hexDigit (b2.toNat % 16)]

/-- The three bytes of U+2028 or U+2029. -/
def Separator (c : UInt8) (s : Bytes) : Prop :=
  c = 0xE2 ∧ ∃ b2 t, s = 0x80 :: b2 :: t ∧ (b2 = 0xA8 ∨ b2 = 0xA9)

section Escape

variable {c : UInt8} {s : Bytes}

theorem htmlEscape_cons (c : UInt8) (s : Bytes) : htmlEscape (c :: s) =
    if htmlSpecial c then specialEscape c ++ htmlEscape s
    else match s with
      | b1 :: b2 :: t =>
        if c = 0xE2 ∧ b1 = 0x80 ∧ (b2 = 0xA8 ∨ b2 = 0xA9) then separatorEscape b2 ++ htmlEscape t
        else c :: htmlEscape (b1 :: b2 :: t)
      | s => c :: htmlEscape s := by
  rw [htmlEscape.eq_def]
  rfl

theorem htmlEscape_special (hc : htmlSpecial c) (s : Bytes) :
    htmlEscape (c :: s) = specialEscape c ++ htmlEscape s := by
  rw [htmlEscape_cons, if_pos hc]

theorem htmlEscape_separator {b2 : UInt8} (hb : b2 = 0xA8 ∨ b2 = 0xA9) (t : Bytes) :
    htmlEscape (0xE2 :: 0x80 :: b2 :: t) = separatorEscape b2 ++ htmlEscape t := by
  rw [htmlEscape_cons, if_neg (by decide)]
  dsimp only
  rw [if_pos ⟨rfl, rfl, hb⟩]

/-- Every other byte is copied. -/
theorem htmlEscape_plain (hc : ¬htmlSpecial c) (hs : ¬Separator c s) :
    htmlEscape (c :: s) = c :: htmlEscape s := by
  rw [htmlEscape_cons, if_neg hc]
  split
  · rw [if_neg fun ⟨h0, h1, h2⟩ => hs ⟨h0, _, _, by rw [h1], h2⟩]
  · rfl

/-- A byte that is neither special nor the first of a separator. -/
theorem htmlEscape_of_ne (hc : ¬htmlSpecial c) (hE : c ≠ 0xE2) (s : Bytes) :
    htmlEscape (c :: s) = c :: htmlEscape s :=
  htmlEscape_plain hc fun h => hE h.1

theorem htmlSpecial_of_cont (h : isCont c = true) : ¬htmlSpecial c := by
  rintro (rfl | rfl | rfl) <;> exact absurd h (by decide)

theorem ne_E2_of_cont (h : isCont c = true) : c ≠ 0xE2 := by
  rintro rfl; exact absurd h (by decide)

theorem htmlSpecial_of_hex (h : isHex c = true) : ¬htmlSpecial c := by
  rintro (rfl | rfl | rfl) <;> exact absurd h (by decide)

theorem ne_E2_of_hex (h : isHex c = true) : c ≠ 0xE2 := by
  rintro rfl; exact absurd h (by decide)

theorem htmlEscape_ne_nil (h : s ≠ []) : htmlEscape s ≠ [] := by
  obtain ⟨c, t, rfl⟩ := List.exists_cons_of_ne_nil h
  by_cases hc : htmlSpecial c
  · simp [htmlEscape_special hc, specialEscape]
  by_cases hsep : Separator c t
  · obtain ⟨rfl, b2, t, rfl, hb⟩ := hsep
    simp [htmlEscape_separator hb, separatorEscape]
  · simp [htmlEscape_plain hc hsep]

/-- The escapes start with a backslash, which is no continuation byte, and continuation bytes are
copied: so the continuation bytes at the front are the same before and after. -/
theorem takeWhile_htmlEscape (s : Bytes) : (htmlEscape s).takeWhile isCont = s.takeWhile isCont := by
  induction s with
  | nil => rfl
  | cons c s ih =>
    by_cases hcont : isCont c = true
    · rw [htmlEscape_of_ne (htmlSpecial_of_cont hcont) (ne_E2_of_cont hcont), List.takeWhile_cons,
        List.takeWhile_cons, if_pos hcont, if_pos hcont, ih]
    · rw [List.takeWhile_cons, if_neg hcont]
      by_cases hc : htmlSpecial c
      · rw [htmlEscape_special hc]; rfl
      by_cases hsep : Separator c s
      · obtain ⟨rfl, b2, t, rfl, hb⟩ := hsep
        rw [htmlEscape_separator hb]; rfl
      · rw [htmlEscape_plain hc hsep, List.takeWhile_cons, if_neg hcont]

theorem drop_htmlEscape (s : Bytes) {n : Nat} (hn : n ≤ (s.takeWhile isCont).length) :
    (htmlEscape s).drop n = htmlEscape (s.drop n) := by
  induction s generalizing n with
  | nil => rw [List.drop_nil]; exact List.drop_nil
  | cons c s ih =>
    rcases n with _ | n
    · rfl
    rw [List.takeWhile_cons] at hn
    split_ifs at hn with hcont
    · rw [htmlEscape_of_ne (htmlSpecial_of_cont hcont) (ne_E2_of_cont hcont), List.drop_succ_cons,
        List.drop_succ_cons, ih (by simpa using hn)]
    · simp at hn

end Escape

/-! ## Escaped string contents stand for the same text

`htmlEscape` only ever rewrites bytes that stand for themselves in a string's content: `<`, `>`,
`&` and the three bytes of U+2028 or U+2029, never a byte inside an escape or a continuation byte.
So `unquoteBytes` reads the same characters from the escaped content, one `nextChar` at a time
(`nextChar_htmlEscape`); the one lookahead it makes, for the low half of a surrogate pair, sees an
escape where it saw a special byte, and neither pairs (`getu4_htmlEscape`). -/

section Content

variable {s : Bytes}

theorem StrBody.tail {c : UInt8} (h : StrBody (c :: s)) (hc : c ≠ 0x5C) : StrBody s := by
  cases h with
  | char _ _ _ hs => exact hs
  | escape => exact absurd rfl hc
  | unicode => exact absurd rfl hc

/-- Continuation bytes are plain bytes of the content. -/
theorem StrBody.drop_cont (h : StrBody s) {n : Nat} (hn : n ≤ (s.takeWhile isCont).length) :
    StrBody (s.drop n) := by
  induction n generalizing s with
  | zero => exact h
  | succ n ih =>
    rcases s with _ | ⟨c, s⟩
    · exact .nil
    rw [List.takeWhile_cons] at hn
    split_ifs at hn with hcont
    · exact ih (h.tail (by rintro rfl; exact absurd hcont (by decide))) (by simpa using hn)
    · simp at hn

theorem StrBody.specialEscape {c : UInt8} (hs : StrBody s) : StrBody (Json.specialEscape c ++ s) :=
  .unicode (by decide) (by decide) (isHex_hexDigit _ (by have := c.toNat_lt; omega))
    (isHex_hexDigit _ (by omega)) hs

theorem StrBody.separatorEscape {b2 : UInt8} (hs : StrBody s) : StrBody (Json.separatorEscape b2 ++ s) :=
  .unicode (by decide) (by decide) (by decide) (isHex_hexDigit _ (by omega)) hs

/-- An escape character of `\"`, `\\`, `\/`, `\b`, `\f`, `\n`, `\r`, `\t` is copied. -/
theorem htmlEscape_escape {e : UInt8}
    (he : e = 0x62 ∨ e = 0x66 ∨ e = 0x6E ∨ e = 0x72 ∨ e = 0x74 ∨ e = 0x5C ∨ e = 0x2F ∨ e = 0x22)
    (s : Bytes) : htmlEscape (0x5C :: e :: s) = 0x5C :: e :: htmlEscape s := by
  rw [htmlEscape_of_ne (by decide) (by decide)]
  rcases he with rfl | rfl | rfl | rfl | rfl | rfl | rfl | rfl <;>
    rw [htmlEscape_of_ne (by decide) (by decide)]

theorem htmlEscape_unicode {h1 h2 h3 h4 : UInt8} (x1 : isHex h1) (x2 : isHex h2) (x3 : isHex h3)
    (x4 : isHex h4) (s : Bytes) :
    htmlEscape (0x5C :: 0x75 :: h1 :: h2 :: h3 :: h4 :: s) =
      0x5C :: 0x75 :: h1 :: h2 :: h3 :: h4 :: htmlEscape s := by
  rw [htmlEscape_of_ne (by decide) (by decide), htmlEscape_of_ne (by decide) (by decide),
    htmlEscape_of_ne (htmlSpecial_of_hex x1) (ne_E2_of_hex x1),
    htmlEscape_of_ne (htmlSpecial_of_hex x2) (ne_E2_of_hex x2),
    htmlEscape_of_ne (htmlSpecial_of_hex x3) (ne_E2_of_hex x3),
    htmlEscape_of_ne (htmlSpecial_of_hex x4) (ne_E2_of_hex x4)]

/-- What `appendCompact` writes for a string's content is content the scanner accepts. -/
theorem strBody_htmlEscape (hs : StrBody s) : StrBody (htmlEscape s) := by
  induction hs with
  | nil => exact .nil
  | @char c s hq hb hge hs ih =>
    by_cases hc : htmlSpecial c
    · rw [htmlEscape_special hc]; exact ih.specialEscape
    by_cases hsep : Separator c s
    · obtain ⟨rfl, b2, t, rfl, hb2⟩ := hsep
      rw [htmlEscape_separator hb2]
      have h80 : htmlEscape (0x80 :: b2 :: t) = 0x80 :: b2 :: htmlEscape t := by
        rw [htmlEscape_of_ne (by decide) (by decide),
          htmlEscape_of_ne (by rcases hb2 with rfl | rfl <;> decide) (by rcases hb2 with rfl | rfl <;> decide)]
      rw [h80] at ih
      exact (((ih.tail (by decide)).tail (by rcases hb2 with rfl | rfl <;> decide))).separatorEscape
    · rw [htmlEscape_plain hc hsep]; exact .char hq hb hge ih
  | escape he _ ih => rw [htmlEscape_escape he]; exact .escape he ih
  | unicode x1 x2 x3 x4 _ ih => rw [htmlEscape_unicode x1 x2 x3 x4]; exact .unicode x1 x2 x3 x4 ih

theorem getu4_cons_of_ne {c : UInt8} (hc : c ≠ 0x5C) (s : Bytes) : getu4 (c :: s) = none := by
  rcases s with _ | ⟨u, _ | ⟨h1, _ | ⟨h2, _ | ⟨h3, _ | ⟨h4, t⟩⟩⟩⟩⟩ <;> simp [getu4, hc]

theorem getu4_escape_of_ne {e : UInt8} (he : e ≠ 0x75) (s : Bytes) : getu4 (0x5C :: e :: s) = none := by
  rcases s with _ | ⟨h1, _ | ⟨h2, _ | ⟨h3, _ | ⟨h4, t⟩⟩⟩⟩ <;> simp [getu4, he]

theorem decodeSurrogates_of_lt {r1 r2 : Nat} (h : r2 < 0xDC00) : decodeSurrogates r1 r2 = none := by
  simp only [decodeSurrogates]; rw [if_neg (by omega)]

theorem getu4_specialEscape (c : UInt8) (s : Bytes) :
    getu4 (Json.specialEscape c ++ s) = some c.toNat := by
  have := c.toNat_lt
  have := getu4_hexDigits (show 0 < 16 by decide) (show 0 < 16 by decide)
    (show c.toNat / 16 < 16 by omega) (show c.toNat % 16 < 16 by omega) s
  rw [show ((0 * 16 + 0) * 16 + c.toNat / 16) * 16 + c.toNat % 16 = c.toNat by omega] at this
  exact this

theorem getu4_separatorEscape (b2 : UInt8) (s : Bytes) :
    getu4 (Json.separatorEscape b2 ++ s) = some (0x2020 + b2.toNat % 16) := by
  have := getu4_hexDigits (show 2 < 16 by decide) (show 0 < 16 by decide) (show 2 < 16 by decide)
    (show b2.toNat % 16 < 16 by omega) s
  rw [show ((2 * 16 + 0) * 16 + 2) * 16 + b2.toNat % 16 = 0x2020 + b2.toNat % 16 by omega] at this
  exact this

/-- After a high surrogate, `unquoteBytes` looks for a low one: it finds one in the escaped
content exactly where it finds one in the original, and then skips the same bytes. -/
theorem getu4_htmlEscape (hs : StrBody s) (rr : Nat) :
    (getu4 (htmlEscape s)).bind (decodeSurrogates rr) = (getu4 s).bind (decodeSurrogates rr) ∧
      ((getu4 s).isSome → (htmlEscape s).drop 6 = htmlEscape (s.drop 6)) := by
  cases hs with
  | nil => exact ⟨rfl, fun _ => rfl⟩
  | @char c s hq hb hge _ =>
    rw [getu4_cons_of_ne hb]
    refine ⟨?_, fun h => absurd h (by simp)⟩
    by_cases hc : htmlSpecial c
    · rw [htmlEscape_special hc, getu4_specialEscape]
      exact decodeSurrogates_of_lt (by have := c.toNat_lt; omega)
    by_cases hsep : Separator c s
    · obtain ⟨rfl, b2, t, rfl, hb2⟩ := hsep
      rw [htmlEscape_separator hb2, getu4_separatorEscape]
      exact decodeSurrogates_of_lt (by omega)
    · rw [htmlEscape_plain hc hsep, getu4_cons_of_ne hb]
  | @escape e s he _ =>
    have he' : e ≠ 0x75 := by rcases he with rfl | rfl | rfl | rfl | rfl | rfl | rfl | rfl <;> decide
    rw [htmlEscape_escape he, getu4_escape_of_ne he', getu4_escape_of_ne he']
    exact ⟨rfl, fun h => absurd h (by simp)⟩
  | unicode x1 x2 x3 x4 _ =>
    rw [htmlEscape_unicode x1 x2 x3 x4, getu4_cons_six, getu4_cons_six]
    exact ⟨rfl, fun _ => rfl⟩

theorem decodeRune_separator {b2 : UInt8} (hb : b2 = 0xA8 ∨ b2 = 0xA9) (t : Bytes) :
    decodeRune (0xE2 :: 0x80 :: b2 :: t) = (Char.ofNat (0x2020 + b2.toNat % 16), 3) := by
  rcases hb with rfl | rfl <;> exact decodeRune_three t rfl (by decide) rfl

/-- One character of the escaped content is the same character as in the original, and what
follows it is the escaped rest. -/
theorem nextChar_htmlEscape (hs : StrBody s) :
    nextChar (htmlEscape s) = (nextChar s).map fun (ch, r) => (ch, htmlEscape r) := by
  cases hs with
  | nil => rfl
  | @char c s hq hb hge _ =>
    by_cases hc : htmlSpecial c
    · have hlt : c.toNat < 0x80 := by rcases hc with rfl | rfl | rfl <;> decide
      have := c.toNat_lt
      have hv : ((0 * 16 + 0) * 16 + c.toNat / 16) * 16 + c.toNat % 16 = c.toNat := by omega
      have := nextChar_hexDigits (show 0 < 16 by decide) (show 0 < 16 by decide)
        (show c.toNat / 16 < 16 by omega) (show c.toNat % 16 < 16 by omega)
        (by rw [hv]; simp [isSurrogate]; omega) (htmlEscape s)
      rw [hv] at this
      rw [htmlEscape_special hc, nextChar_ascii hq hb hge hlt]
      exact this
    by_cases hsep : Separator c s
    · obtain ⟨rfl, b2, t, rfl, hb2⟩ := hsep
      have := nextChar_hexDigits (show 2 < 16 by decide) (show 0 < 16 by decide)
        (show 2 < 16 by decide) (show b2.toNat % 16 < 16 by omega) (by simp [isSurrogate]; omega)
        (htmlEscape t)
      rw [show ((2 * 16 + 0) * 16 + 2) * 16 + b2.toNat % 16 = 0x2020 + b2.toNat % 16 by omega] at this
      rw [htmlEscape_separator hb2, nextChar_high (by decide), decodeRune_separator hb2]
      exact this
    rw [htmlEscape_plain hc hsep]
    by_cases hlt : c.toNat < 0x80
    · rw [nextChar_ascii hq hb hge hlt, nextChar_ascii hq hb hge hlt]; rfl
    have hw := decodeRune_width_le c s
    rw [nextChar_high (by omega), nextChar_high (by omega), decodeRune_takeWhile,
      takeWhile_htmlEscape, ← decodeRune_takeWhile]
    obtain ⟨w, hw'⟩ : ∃ w, (decodeRune (c :: s)).2 = w + 1 := ⟨_, (Nat.succ_pred_eq_of_pos hw.1).symm⟩
    simp only [hw', List.drop_succ_cons, Option.map_some']
    rw [drop_htmlEscape s (by omega)]
  | escape he _ =>
    obtain ⟨ch, hch⟩ := nextChar_escape he
    rw [htmlEscape_escape he, hch, hch]
    rfl
  | @unicode h1 h2 h3 h4 s x1 x2 x3 x4 hs =>
    rw [htmlEscape_unicode x1 x2 x3 x4, nextChar_unicode, nextChar_unicode]
    rcases getu4 [0x5C, 0x75, h1, h2, h3, h4] with _ | rr
    · rfl
    dsimp only
    obtain ⟨same, drop6⟩ := getu4_htmlEscape hs rr
    split_ifs
    · rw [same]
      rcases hd : (getu4 s).bind (decodeSurrogates rr) with _ | d
      · rfl
      · obtain ⟨u, hu, -⟩ := Option.bind_eq_some.mp hd
        simp only [Option.map_some']
        rw [drop6 (by simp [hu])]
    · rfl

/-- What follows a character of accepted content is accepted content. -/
theorem StrBody.nextChar (hs : StrBody s) {ch : Char} {r : Bytes}
    (h : Json.nextChar s = some (ch, r)) : StrBody r := by
  cases hs with
  | nil => cases h
  | @char c s hq hb hge hs =>
    by_cases hlt : c.toNat < 0x80
    · rw [nextChar_ascii hq hb hge hlt] at h
      cases h; exact hs
    rw [nextChar_high (by omega)] at h
    cases h
    have hw := decodeRune_width_le c s
    obtain ⟨w, hw'⟩ : ∃ w, (decodeRune (c :: s)).2 = w + 1 := ⟨_, (Nat.succ_pred_eq_of_pos hw.1).symm⟩
    rw [hw', List.drop_succ_cons]
    exact hs.drop_cont (by omega)
  | escape he hs =>
    obtain ⟨ch', hch⟩ := nextChar_escape he
    rw [hch] at h
    cases h; exact hs
  | @unicode h1 h2 h3 h4 s x1 x2 x3 x4 hs =>
    rw [nextChar_unicode] at h
    split at h
    · cases h
    split_ifs at h
    · split at h
      · rename_i d hd
        cases h
        obtain ⟨u, hu, -⟩ := Option.bind_eq_some.mp hd
        cases hs with
        | nil => cases hu
        | char _ hb _ _ => rw [getu4_cons_of_ne hb] at hu; cases hu
        | escape he =>
          rcases he with rfl | rfl | rfl | rfl | rfl | rfl | rfl | rfl <;>
            rw [getu4_escape_of_ne (by decide)] at hu <;> cases hu
        | unicode _ _ _ _ hs => exact hs
      · cases h; exact hs
    · cases h; exact hs

/-- HTML escaping does not change the text a string's content stands for. -/
theorem unquote_htmlEscape (hs : StrBody s) : unquote (htmlEscape s) = unquote s := by
  suffices loop : ∀ n (s : Bytes), s.length ≤ n → StrBody s →
      unquoteLoop (htmlEscape s).length (htmlEscape s) = unquoteLoop s.length s by
    rw [unquote, unquote, loop _ s le_rfl hs]
  intro n
  induction n with
  | zero => intro s hn _; rw [List.length_eq_zero.mp (Nat.le_zero.mp hn)]; rfl
  | succ n ih =>
    intro s hn hs
    rcases s with _ | ⟨c, t⟩
    · rfl
    rw [unquoteLoop_length (List.cons_ne_nil c t),
      unquoteLoop_length (htmlEscape_ne_nil (List.cons_ne_nil c t)), nextChar_htmlEscape hs]
    rcases hc : nextChar (c :: t) with _ | ⟨ch, r⟩
    · rfl
    have := nextChar_length hc
    simp only [Option.map_some', Option.some_bind]
    rw [ih r (by simp at hn this; omega) (hs.nextChar hc)]

end Content

/-! ## The compacted value reads back -/

theorem emitElems_eq (xs : List (JsonValue Bytes)) : emitValue.emitElems xs = xs.map emitValue := by
  induction xs with
  | nil => rfl
  | cons x xs ih => rw [emitValue.emitElems, ih, List.map_cons]

theorem emitMembers_eq (ms : List (Bytes × JsonValue Bytes)) :
    emitValue.emitMembers ms = ms.map fun m => (htmlEscape m.1, emitValue m.2) := by
  induction ms with
  | nil => rfl
  | cons m ms ih => obtain ⟨k, v⟩ := m; rw [emitValue.emitMembers, ih, List.map_cons]

theorem readsAs_false (depth : Nat) : ReadsAs depth falseText (.bool false) :=
  ⟨⟨_, _, rfl, by decide, by decide, by decide⟩, fun fuel hf r _ => by
    obtain ⟨f, rfl⟩ : ∃ f, fuel = f + 1 := ⟨fuel - 1, by simp [falseText] at hf; omega⟩
    rfl⟩

theorem readsAs_null (depth : Nat) : ReadsAs depth nullText .null :=
  ⟨⟨_, _, rfl, by decide, by decide, by decide⟩, fun fuel hf r _ => by
    obtain ⟨f, rfl⟩ : ∃ f, fuel = f + 1 := ⟨fuel - 1, by simp [nullText] at hf; omega⟩
    rfl⟩

/-- A string literal whose content the scanner accepts. -/
theorem readsAs_string {b : Bytes} (hb : StrBody b) (depth : Nat) :
    ReadsAs depth (0x22 :: b ++ [0x22]) (.string b) :=
  ⟨⟨_, _, rfl, by decide, by decide, by decide⟩, fun fuel hf r _ => by
    obtain ⟨f, rfl⟩ : ∃ f, fuel = f + 1 := ⟨fuel - 1, by simp at hf; omega⟩
    simp only [List.cons_append, List.append_assoc, List.singleton_append]
    rw [parseValue_scalar (by decide) (by decide) (by decide)]
    show Except.map _ (scanStr .plain (b ++ 0x22 :: r)) = _
    rw [scanStr_body hb]
    rfl⟩

/-- A tree the scanner returned, written back without space, is read back as itself with its
strings escaped, from any depth that leaves room for its nesting. -/
theorem readsAs_emitValue {v : JsonValue Bytes} (wf : Wf v) {depth : Nat}
    (fits : depth + v.depth ≤ maxNestingDepth) : ReadsAs depth (emitValue v) (v.map htmlEscape) := by
  induction wf generalizing depth with
  | null => exact readsAs_null depth
  | bool b => cases b; exacts [readsAs_false depth, readsAs_true depth]
  | number h => exact h depth
  | string hb => exact readsAs_string (strBody_htmlEscape hb) depth
  | @array xs _ ih =>
    rw [depth_array] at fits
    have elems := readsAs_jsonArray (xs.map fun x => (emitValue x, x.map htmlEscape)) (by omega)
      (List.forall_mem_map.mpr fun x mem =>
        @ih x mem (depth + 1) (by have := depthElems_le.mp le_rfl x mem; omega))
    simpa only [emitValue, emitElems_eq, map_array, List.map_map] using elems
  | @object ms hk _ ih =>
    rw [depth_object] at fits
    have members := readsAs_jsonObject
      (ms.map fun m => (htmlEscape m.1, emitValue m.2, m.2.map htmlEscape)) (by omega)
      (List.forall_mem_map.mpr fun m mem => strBody_htmlEscape (hk m mem))
      (List.forall_mem_map.mpr fun m mem =>
        @ih m mem (depth + 1) (by have := depthMembers_le.mp le_rfl m mem; omega))
    simpa only [emitValue, emitMembers_eq, map_object, List.map_map] using members

/-- The document `parseDocument` accepted fits at the top. -/
theorem parseDocument_fits {s : Bytes} {v : JsonValue Bytes} (h : parseDocument s = .ok v) :
    Fits 0 v := by
  unfold parseDocument at h
  split at h
  · rename_i v' r hv
    split at h
    · cases h; exact (parse_fits _).1 0 s v r (by decide) hv
    · cases h
  · cases h

theorem parseDocument_emitValue {v : JsonValue Bytes} (fits : Fits 0 v) :
    parseDocument (emitValue v) = .ok (v.map htmlEscape) := by
  have := (@readsAs_emitValue v fits.1 0 (by simpa using fits.2)).reads _ (Nat.le_succ _) [] (.inl rfl)
  rw [List.append_nil] at this
  rw [parseDocument, this]
  rfl

/-- Escaping the strings of a tree the scanner returned does not change what they stand for. -/
theorem map_unquote_htmlEscape {v : JsonValue Bytes} (wf : Wf v) :
    (v.map htmlEscape).map unquote = v.map unquote := by
  induction wf with
  | null | bool | number => rfl
  | string hb => simp only [JsonValue.map, unquote_htmlEscape hb]
  | array _ ih =>
    simp only [map_array, List.map_map]
    exact congrArg _ (List.map_congr_left fun x mem => ih x mem)
  | object hk _ ih =>
    simp only [map_object, List.map_map]
    exact congrArg _ (List.map_congr_left fun m mem => by
      simp only [Function.comp, unquote_htmlEscape (hk m mem), ih m mem])

/-- `appendCompact` keeps the document's JSON value. -/
theorem jsonValue_compact {src out : Bytes} (h : compact src = .ok out) : jsonValue out = jsonValue src := by
  unfold compact at h
  split at h
  · rename_i v hv
    cases h
    rw [jsonValue, jsonValue, parseDocument_emitValue (parseDocument_fits hv), hv]
    exact congrArg some (map_unquote_htmlEscape (parseDocument_fits hv).1)
  · cases h

/-- The compacted document, inside as many levels of nesting as leave room for its own, is read
back as one value. -/
theorem readsAs_compact {src out : Bytes} (h : compact src = .ok out) {depth : Nat}
    (shallow : ∀ v, parseDocument src = .ok v → depth + v.depth ≤ maxNestingDepth) :
    ∃ t, ReadsAs depth out t := by
  unfold compact at h
  split at h
  · rename_i v hv
    cases h
    exact ⟨_, readsAs_emitValue (parseDocument_fits hv).1 (shallow v hv)⟩
  · cases h

end Telehash.Json
