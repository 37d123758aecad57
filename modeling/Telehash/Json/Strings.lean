/-
# Telehash.Json.Strings -- string literals: Go's quoting and unquoting

`appendString` writes a string between quotes, escaping `"`, `\`, the control characters, and,
with HTML escaping on as `json.Encoder` has it, `<`, `>`, `&`, U+2028 and U+2029; every other
character goes out as its UTF-8 bytes (`escapeChar`, `quoteBody`).  The decoder's `unquoteBytes`
turns a literal's content back into text one character at a time (`nextChar`, `unquote`),
replacing bytes that are not UTF-8 and lone surrogate escapes by U+FFFD.  `StrBody` is the content
the scanner takes between the quotes.

* `unquote_quoteBody`: unquoting what `appendString` wrote gives the string back;
* `scanStr_body`: the scanner reads a `StrBody` up to its closing quote, whatever follows, and
  `quoteBody` is one (`strBody_quoteBody`); `scanStr_strBody`: all it reads is one;
* `unquoteLoop_length`: one turn of `unquoteBytes`' loop, which consumes at least one byte.
-/
import Telehash.Json.Scanner

namespace Telehash.Json

set_option autoImplicit false

/-! ## Unquoting -/

/-- `hex` of `encoding/json`, `"0123456789abcdef"`. -/
def hexDigit (n : Nat) : UInt8 := if n < 10 then (0x30 + n).toUInt8 else (0x57 + n).toUInt8

/-- The value of a hex digit, as `getu4` reads it. -/
def hexVal (c : UInt8) : Option Nat :=
  if 0x30 ≤ c.toNat ∧ c.toNat ≤ 0x39 then some (c.toNat - 0x30)
  else if 0x61 ≤ c.toNat ∧ c.toNat ≤ 0x66 then some (c.toNat - 0x57)
  else if 0x41 ≤ c.toNat ∧ c.toNat ≤ 0x46 then some (c.toNat - 0x37)
  else none

/-- `getu4`: the code unit of the `\uXXXX` escape at the front of `s`. -/
def getu4 : Bytes → Option Nat
  | b :: u :: h1 :: h2 :: h3 :: h4 :: _ =>
    if b = 0x5C ∧ u = 0x75 then do
      let d1 ← hexVal h1
      let d2 ← hexVal h2
      let d3 ← hexVal h3
      let d4 ← hexVal h4
      pure (((d1 * 16 + d2) * 16 + d3) * 16 + d4)
    else none
  | _ => none

/-- `utf16.IsSurrogate`. -/
def isSurrogate (r : Nat) : Bool := 0xD800 ≤ r && r < 0xE000

/-- `utf16.DecodeRune`, with `none` for the `U+FFFD` it returns on anything but a high and a low
surrogate. -/
def decodeSurrogates (r1 r2 : Nat) : Option Char :=
  if 0xD800 ≤ r1 ∧ r1 < 0xDC00 ∧ 0xDC00 ≤ r2 ∧ r2 < 0xE000 then
    some (Char.ofNat ((r1 - 0xD800) * 0x400 + (r2 - 0xDC00) + 0x10000))
  else none

/-- One turn of the loop of `unquoteBytes`: the character the bytes at the front of a literal's
content stand for and the bytes after them, or `none` where `unquoteBytes` gives up. -/
def nextChar : Bytes → Option (Char × Bytes)
  | [] => none
  | c :: s =>
    if c = 0x5C then
      match s with
      | [] => none
      | e :: t =>
        if e = 0x22 ∨ e = 0x5C ∨ e = 0x2F ∨ e = 0x27 then some (Char.ofNat e.toNat, t)
        else if e = 0x62 then some ('\x08', t)
        else if e = 0x66 then some ('\x0c', t)
        else if e = 0x6E then some ('\n', t)
        else if e = 0x72 then some ('\r', t)
        else if e = 0x74 then some ('\t', t)
        else if e = 0x75 then
          match getu4 (c :: s) with
          | none => none
          | some rr =>
            if isSurrogate rr then
              match (getu4 (s.drop 5)).bind (decodeSurrogates rr) with
              | some d => some (d, s.drop 11)
              | none => some (runeError, s.drop 5)
            else some (Char.ofNat rr, s.drop 5)
        else none
    else if c = 0x22 ∨ c.toNat < 0x20 then none
    else if c.toNat < 0x80 then some (Char.ofNat c.toNat, s)
    else some ((decodeRune (c :: s)).1, (c :: s).drop (decodeRune (c :: s)).2)

/-- The loop of `unquoteBytes`, with one unit of fuel per character. -/
def unquoteLoop : Nat → Bytes → Option (List Char)
  | _, [] => some []
  | 0, _ :: _ => none
  | fuel + 1, c :: s => do
    let (ch, rest) ← nextChar (c :: s)
    let chs ← unquoteLoop fuel rest
    pure (ch :: chs)

/-- `unquoteBytes` on the content of a string literal: the text it stands for. -/
def unquote (s : Bytes) : Option String := (unquoteLoop s.length s).map String.mk

/-! ## Quoting -/

/-- `htmlSafeSet`: the ASCII bytes `appendString` writes as they are. -/
def htmlSafe (b : Nat) : Bool :=
  0x20 ≤ b && b < 0x80 && b ≠ 0x22 && b ≠ 0x5C && b ≠ 0x3C && b ≠ 0x3E && b ≠ 0x26

/-- What `appendString` writes for one character, with HTML escaping on. -/
def escapeChar (c : Char) : Bytes :=
  if c.toNat < 0x80 then
    if htmlSafe c.toNat then [c.toNat.toUInt8]
    else if c = '\\' ∨ c = '"' then [0x5C, c.toNat.toUInt8]
    else if c = '\x08' then [0x5C, 0x62]
    else if c = '\x0c' then [0x5C, 0x66]
    else if c = '\n' then [0x5C, 0x6E]
    else if c = '\r' then [0x5C, 0x72]
    else if c = '\t' then [0x5C, 0x74]
    else [0x5C, 0x75, 0x30, 0x30, hexDigit (c.toNat / 16), hexDigit (c.toNat % 16)]
  else if c = '\u2028' ∨ c = '\u2029' then [0x5C, 0x75, 0x32, 0x30, 0x32, hexDigit (c.toNat % 16)]
  else encodeRune c

/-- What `appendString` writes between the quotes for a string; a Lean `String` is valid UTF-8, so
the branch for a byte that is not (`\ufffd`) does not arise. -/
def quoteBody (s : String) : Bytes := s.data.flatMap escapeChar

/-- `appendString` with HTML escaping. -/
def quote (s : String) : Bytes := 0x22 :: quoteBody s ++ [0x22]

/-! ## What the scanner takes between quotes -/

/-- The content of a string literal the scanner accepts: no quote, backslash or control byte
but in an escape, and escapes `\"`, `\\`, `\/`, `\b`, `\f`, `\n`, `\r`, `\t` and `\uXXXX`. -/
inductive StrBody : Bytes → Prop where
  | nil : StrBody []
  | char {c : UInt8} {s : Bytes} : c ≠ 0x22 → c ≠ 0x5C → 0x20 ≤ c.toNat → StrBody s →
      StrBody (c :: s)
  | escape {e : UInt8} {s : Bytes} :
      (e = 0x62 ∨ e = 0x66 ∨ e = 0x6E ∨ e = 0x72 ∨ e = 0x74 ∨ e = 0x5C ∨ e = 0x2F ∨ e = 0x22) →
      StrBody s → StrBody (0x5C :: e :: s)
  | unicode {h1 h2 h3 h4 : UInt8} {s : Bytes} : isHex h1 → isHex h2 → isHex h3 → isHex h4 →
      StrBody s → StrBody (0x5C :: 0x75 :: h1 :: h2 :: h3 :: h4 :: s)

theorem scanStr_body {r : Bytes} (h : StrBody r) (rest : Bytes) :
    scanStr .plain (r ++ 0x22 :: rest) = .ok (r, rest) := by
  induction h with
  | nil => simp [scanStr]
  | char hq hb hc _ ih =>
    simp [scanStr, hq, hb, Nat.not_lt.mpr hc, ih, consRead, Except.map]
  | escape he _ ih =>
    rcases he with rfl | rfl | rfl | rfl | rfl | rfl | rfl | rfl <;>
      simp [scanStr, ih, consRead, Except.map]
  | unicode h1 h2 h3 h4 _ ih => simp [scanStr, h1, h2, h3, h4, ih, consRead, Except.map]

theorem consRead_ok {c : UInt8} {x : Except JsonError (Bytes × Bytes)} {b r : Bytes}
    (h : consRead c x = .ok (b, r)) : ∃ b', x = .ok (b', r) ∧ b = c :: b' := by
  rcases x with _ | ⟨b', r'⟩
  · cases h
  · cases h; exact ⟨b', rfl, rfl⟩

/-- One hex digit of a `\u` escape, with more to come. -/
theorem scanStr_hex_succ_ok {k : Nat} {s b r : Bytes} (h : scanStr (.hex (k + 1)) s = .ok (b, r)) :
    ∃ c s' b', s = c :: s' ∧ isHex c ∧ b = c :: b' ∧ scanStr (.hex k) s' = .ok (b', r) := by
  rcases s with _ | ⟨c, s'⟩
  · cases h
  simp only [scanStr] at h
  split_ifs at h with hc
  obtain ⟨b', hb', rfl⟩ := consRead_ok h
  exact ⟨c, s', b', rfl, hc, rfl, hb'⟩

/-- The last hex digit of a `\u` escape. -/
theorem scanStr_hex_zero_ok {s b r : Bytes} (h : scanStr (.hex 0) s = .ok (b, r)) :
    ∃ c s' b', s = c :: s' ∧ isHex c ∧ b = c :: b' ∧ scanStr .plain s' = .ok (b', r) := by
  rcases s with _ | ⟨c, s'⟩
  · cases h
  simp only [scanStr] at h
  split_ifs at h with hc
  obtain ⟨b', hb', rfl⟩ := consRead_ok h
  exact ⟨c, s', b', rfl, hc, rfl, hb'⟩

/-- What the scanner reads between the quotes is a `StrBody`, and it stops right after the closing
quote. -/
theorem scanStr_strBody (n : Nat) {s b r : Bytes} (hn : s.length ≤ n)
    (h : scanStr .plain s = .ok (b, r)) : StrBody b ∧ s = b ++ 0x22 :: r := by
  induction n generalizing s b with
  | zero => rw [List.length_eq_zero.mp (Nat.le_zero.mp hn)] at h; cases h
  | succ n ih =>
    rcases s with _ | ⟨c, s⟩
    · cases h
    simp only [scanStr] at h
    split_ifs at h with hq hb hlt
    · cases h; exact ⟨.nil, by rw [hq]; rfl⟩
    · obtain ⟨b1, h1, rfl⟩ := consRead_ok h
      clear h
      rcases s with _ | ⟨e, s⟩
      · cases h1
      simp only [scanStr] at h1
      split_ifs at h1 with he hu
      · obtain ⟨b2, h2, rfl⟩ := consRead_ok h1
        obtain ⟨hb2, rfl⟩ := ih (by simp at hn ⊢; omega) h2
        subst hb; exact ⟨.escape he hb2, rfl⟩
      · obtain ⟨b2, h2, rfl⟩ := consRead_ok h1
        obtain ⟨x1, s, b3, rfl, hx1, rfl, h3⟩ := scanStr_hex_succ_ok h2
        obtain ⟨x2, s, b4, rfl, hx2, rfl, h4⟩ := scanStr_hex_succ_ok h3
        obtain ⟨x3, s, b5, rfl, hx3, rfl, h5⟩ := scanStr_hex_succ_ok h4
        obtain ⟨x4, s, b6, rfl, hx4, rfl, h6⟩ := scanStr_hex_zero_ok h5
        obtain ⟨hb6, rfl⟩ := ih (by simp at hn ⊢; omega) h6
        subst hb hu; exact ⟨.unicode hx1 hx2 hx3 hx4 hb6, rfl⟩
    · obtain ⟨b1, h1, rfl⟩ := consRead_ok h
      obtain ⟨hb1, rfl⟩ := ih (by simp at hn ⊢; omega) h1
      exact ⟨.char hq hb (by omega) hb1, rfl⟩
theorem StrBody.append {a b : Bytes} (ha : StrBody a) (hb : StrBody b) : StrBody (a ++ b) := by
  induction ha with
  | nil => exact hb
  | char hq hb' hc _ ih => exact .char hq hb' hc ih
  | escape he _ ih => exact .escape he ih
  | unicode h1 h2 h3 h4 _ ih => exact .unicode h1 h2 h3 h4 ih

theorem strBody_high {s : Bytes} (h : ∀ b ∈ s, 0x80 ≤ b.toNat) : StrBody s := by
  induction s with
  | nil => exact .nil
  | cons b s ih =>
    have hb := h b (List.mem_cons_self b s)
    refine .char (fun e => ?_) (fun e => ?_) (by omega) (ih fun x hx => h x (List.mem_cons_of_mem b hx))
    all_goals subst e; exact absurd hb (by decide)

theorem hexVal_hexDigit : ∀ n, n < 16 → hexVal (hexDigit n) = some n := by decide

theorem isHex_hexDigit : ∀ n, n < 16 → isHex (hexDigit n) = true := by decide

theorem getu4_hexDigits {a b c d : Nat} (ha : a < 16) (hb : b < 16) (hc : c < 16) (hd : d < 16)
    (rest : Bytes) : getu4 (0x5C :: 0x75 :: hexDigit a :: hexDigit b :: hexDigit c :: hexDigit d :: rest) =
      some (((a * 16 + b) * 16 + c) * 16 + d) := by
  simp [getu4, hexVal_hexDigit _ ha, hexVal_hexDigit _ hb, hexVal_hexDigit _ hc,
    hexVal_hexDigit _ hd]

/-- A `\uXXXX` escape of a code unit that is not a surrogate stands for that character. -/
theorem nextChar_hexDigits {a b c d : Nat} (ha : a < 16) (hb : b < 16) (hc : c < 16) (hd : d < 16)
    (hs : isSurrogate (((a * 16 + b) * 16 + c) * 16 + d) = false) (rest : Bytes) :
    nextChar (0x5C :: 0x75 :: hexDigit a :: hexDigit b :: hexDigit c :: hexDigit d :: rest) =
      some (Char.ofNat (((a * 16 + b) * 16 + c) * 16 + d), rest) := by
  simp [nextChar, getu4_hexDigits ha hb hc hd, hs]

/-! ## `appendString`'s escapes, one character at a time -/

section Escapes

variable (c : Char)

/-- The forms `escapeChar` writes a character in: the byte of an ASCII character that needs no
escape, a backslash before `\` and `"`, the two-byte escapes of five control characters, `\u00XX`
for the other ASCII characters, `\u2028` and `\u2029`, and the UTF-8 bytes of every other
character. -/
theorem escapeChar_cases :
    (c.toNat < 0x80 ∧ htmlSafe c.toNat = true ∧ escapeChar c = [c.toNat.toUInt8]) ∨
    ((c = '\\' ∨ c = '"') ∧ escapeChar c = [0x5C, c.toNat.toUInt8]) ∨
    (c = '\x08' ∧ escapeChar c = [0x5C, 0x62]) ∨ (c = '\x0c' ∧ escapeChar c = [0x5C, 0x66]) ∨
    (c = '\n' ∧ escapeChar c = [0x5C, 0x6E]) ∨ (c = '\r' ∧ escapeChar c = [0x5C, 0x72]) ∨
    (c = '\t' ∧ escapeChar c = [0x5C, 0x74]) ∨
    (c.toNat < 0x80 ∧
      escapeChar c = [0x5C, 0x75, 0x30, 0x30, hexDigit (c.toNat / 16), hexDigit (c.toNat % 16)]) ∨
    ((c = '\u2028' ∨ c = '\u2029') ∧
      escapeChar c = [0x5C, 0x75, 0x32, 0x30, 0x32, hexDigit (c.toNat % 16)]) ∨
    (0x80 ≤ c.toNat ∧ escapeChar c = encodeRune c) := by
  unfold escapeChar
  by_cases h0 : c.toNat < 0x80
  · rw [if_pos h0]
    by_cases h1 : htmlSafe c.toNat = true
    · exact .inl ⟨h0, h1, if_pos h1⟩
    rw [if_neg h1]; refine .inr ?_
    by_cases h2 : c = '\\' ∨ c = '"'
    · exact .inl ⟨h2, if_pos h2⟩
    rw [if_neg h2]; refine .inr ?_
    by_cases h3 : c = '\x08'
    · exact .inl ⟨h3, if_pos h3⟩
    rw [if_neg h3]; refine .inr ?_
    by_cases h4 : c = '\x0c'
    · exact .inl ⟨h4, if_pos h4⟩
    rw [if_neg h4]; refine .inr ?_
    by_cases h5 : c = '\n'
    · exact .inl ⟨h5, if_pos h5⟩
    rw [if_neg h5]; refine .inr ?_
    by_cases h6 : c = '\r'
    · exact .inl ⟨h6, if_pos h6⟩
    rw [if_neg h6]; refine .inr ?_
    by_cases h7 : c = '\t'
    · exact .inl ⟨h7, if_pos h7⟩
    exact .inr (.inl ⟨h0, if_neg h7⟩)
  · rw [if_neg h0]
    refine .inr (.inr (.inr (.inr (.inr (.inr (.inr (.inr ?_)))))))
    by_cases h8 : c = '\u2028' ∨ c = '\u2029'
    · exact .inl ⟨h8, if_pos h8⟩
    · exact .inr ⟨by omega, if_neg h8⟩

theorem escapeChar_ne_nil : escapeChar c ≠ [] := by
  rcases escapeChar_cases c with ⟨-, -, e⟩ | ⟨-, e⟩ | ⟨-, e⟩ | ⟨-, e⟩ | ⟨-, e⟩ | ⟨-, e⟩ | ⟨-, e⟩ |
    ⟨-, e⟩ | ⟨-, e⟩ | ⟨-, e⟩ <;> rw [e]
  all_goals first | exact List.cons_ne_nil _ _ | exact encodeRune_ne_nil c

theorem strBody_escapeChar : StrBody (escapeChar c) := by
  rcases escapeChar_cases c with ⟨h0, h1, e⟩ | ⟨h2, e⟩ | ⟨-, e⟩ | ⟨-, e⟩ | ⟨-, e⟩ | ⟨-, e⟩ | ⟨-, e⟩ |
    ⟨h0, e⟩ | ⟨-, e⟩ | ⟨h0, e⟩ <;> rw [e]
  · have byte : c.toNat.toUInt8.toNat = c.toNat := toNat_toUInt8 (by omega)
    simp only [htmlSafe, Bool.and_eq_true, decide_eq_true_eq] at h1
    refine .char (fun e => ?_) (fun e => ?_) (by omega) .nil <;>
      · have := congrArg UInt8.toNat e; rw [byte] at this; simp [UInt8.size] at this; omega
  · rcases h2 with rfl | rfl <;> exact .escape (by decide) .nil
  iterate 5 exact .escape (by decide) .nil
  · exact .unicode (by decide) (by decide) (isHex_hexDigit _ (by omega))
      (isHex_hexDigit _ (by omega)) .nil
  · exact .unicode (by decide) (by decide) (by decide) (isHex_hexDigit _ (by omega)) .nil
  · exact strBody_high (encodeRune_high h0)

theorem nextChar_escapeChar (rest : Bytes) : nextChar (escapeChar c ++ rest) = some (c, rest) := by
  rcases escapeChar_cases c with ⟨h0, h1, e⟩ | ⟨h2, e⟩ | ⟨h3, e⟩ | ⟨h3, e⟩ | ⟨h3, e⟩ | ⟨h3, e⟩ |
    ⟨h3, e⟩ | ⟨h0, e⟩ | ⟨h8, e⟩ | ⟨h0, e⟩ <;> rw [e]
  · have byte : c.toNat.toUInt8.toNat = c.toNat := toNat_toUInt8 (by omega)
    simp only [htmlSafe, Bool.and_eq_true, decide_eq_true_eq] at h1
    have ne : ∀ k : UInt8, k.toNat ≠ c.toNat → c.toNat.toUInt8 ≠ k := by
      rintro k hk rfl; exact hk byte
    simp only [List.singleton_append, nextChar, if_neg (ne 0x5C (by simp [UInt8.size]; omega)),
      byte, if_pos h0, Char.ofNat_toNat]
    rw [if_neg (not_or.mpr ⟨ne 0x22 (by simp [UInt8.size]; omega), by omega⟩)]
  · rcases h2 with rfl | rfl <;> rfl
  iterate 5 subst h3; rfl
  · have hv : ((0 * 16 + 0) * 16 + c.toNat / 16) * 16 + c.toNat % 16 = c.toNat := by omega
    have := nextChar_hexDigits (show 0 < 16 by decide) (show 0 < 16 by decide)
      (show c.toNat / 16 < 16 by omega)
      (show c.toNat % 16 < 16 by omega) (by rw [hv]; simp [isSurrogate]; omega) rest
    rw [hv, Char.ofNat_toNat] at this
    exact this
  · rcases h8 with rfl | rfl
    · exact nextChar_hexDigits (show 2 < 16 by decide) (show 0 < 16 by decide)
        (show 2 < 16 by decide) (show 8 < 16 by decide) (by decide) rest
    · exact nextChar_hexDigits (show 2 < 16 by decide) (show 0 < 16 by decide)
        (show 2 < 16 by decide) (show 9 < 16 by decide) (by decide) rest
  · obtain ⟨b0, t, he⟩ : ∃ b0 t, encodeRune c = b0 :: t := by
      cases h : encodeRune c
      · exact absurd h (encodeRune_ne_nil c)
      · exact ⟨_, _, rfl⟩
    have hb0 : 0x80 ≤ b0.toNat :=
      @encodeRune_high c h0 b0 (by rw [he]; exact List.mem_cons_self _ _)
    have hd := decodeRune_encodeRune c rest
    rw [he, List.cons_append] at hd
    rw [he, List.cons_append]
    simp only [nextChar]
    rw [if_neg (by rintro rfl; exact absurd hb0 (by decide)),
      if_neg (by rintro (rfl | h); exact absurd hb0 (by decide); omega), if_neg (by omega), hd]
    simp

end Escapes

theorem unquoteLoop_of_ne_nil {s : Bytes} (h : s ≠ []) (fuel : Nat) :
    unquoteLoop (fuel + 1) s = (nextChar s).bind fun (ch, r) => (unquoteLoop fuel r).map (ch :: ·) := by
  cases s with
  | nil => exact absurd rfl h
  | cons c s => simp only [unquoteLoop, Option.bind_eq_bind, Option.map_eq_bind]; rfl

theorem unquoteLoop_escapes (cs : List Char) (fuel : Nat) (h : (cs.flatMap escapeChar).length ≤ fuel) :
    unquoteLoop fuel (cs.flatMap escapeChar) = some cs := by
  induction cs generalizing fuel with
  | nil => cases fuel <;> rfl
  | cons c cs ih =>
    have hc : (escapeChar c).length ≠ 0 := by simpa using escapeChar_ne_nil c
    simp only [List.flatMap_cons, List.length_append] at h ⊢
    obtain ⟨f, rfl⟩ : ∃ f, fuel = f + 1 := ⟨fuel - 1, by omega⟩
    rw [unquoteLoop_of_ne_nil (by simp [escapeChar_ne_nil c]), nextChar_escapeChar]
    simp [ih f (by omega)]

theorem strBody_quoteBody (s : String) : StrBody (quoteBody s) := by
  unfold quoteBody
  induction s.data with
  | nil => exact .nil
  | cons c cs ih => exact (strBody_escapeChar c).append ih

theorem unquote_quoteBody (s : String) : unquote (quoteBody s) = some s := by
  rw [unquote, quoteBody, unquoteLoop_escapes s.data _ le_rfl]
  rfl

/-! ## One character at a time

The steps of `unquoteBytes` that `htmlEscape`'s commutation with unquoting is built from. -/

theorem nextChar_ascii {c : UInt8} (hq : c ≠ 0x22) (hb : c ≠ 0x5C) (hge : 0x20 ≤ c.toNat)
    (hlt : c.toNat < 0x80) (s : Bytes) : nextChar (c :: s) = some (Char.ofNat c.toNat, s) := by
  simp only [nextChar]
  rw [if_neg hb, if_neg (by rintro (h | h); exacts [hq h, by omega]), if_pos hlt]

theorem nextChar_high {c : UInt8} (h : 0x80 ≤ c.toNat) (s : Bytes) :
    nextChar (c :: s) = some ((decodeRune (c :: s)).1, (c :: s).drop (decodeRune (c :: s)).2) := by
  have hb : c ≠ 0x5C := by rintro rfl; exact absurd h (by decide)
  simp only [nextChar]
  rw [if_neg hb, if_neg (by rintro (rfl | h'); exacts [absurd h (by decide), by omega]),
    if_neg (by omega)]

theorem getu4_cons_six (b u h1 h2 h3 h4 : UInt8) (rest : Bytes) :
    getu4 (b :: u :: h1 :: h2 :: h3 :: h4 :: rest) = getu4 [b, u, h1, h2, h3, h4] := rfl

theorem nextChar_unicode (h1 h2 h3 h4 : UInt8) (s : Bytes) :
    nextChar (0x5C :: 0x75 :: h1 :: h2 :: h3 :: h4 :: s) =
      match getu4 [0x5C, 0x75, h1, h2, h3, h4] with
      | none => none
      | some rr =>
        if isSurrogate rr then
          match (getu4 s).bind (decodeSurrogates rr) with
          | some d => some (d, s.drop 6)
          | none => some (runeError, s)
        else some (Char.ofNat rr, s) := rfl

theorem nextChar_escape {e : UInt8}
    (he : e = 0x62 ∨ e = 0x66 ∨ e = 0x6E ∨ e = 0x72 ∨ e = 0x74 ∨ e = 0x5C ∨ e = 0x2F ∨ e = 0x22) :
    ∃ ch, ∀ s, nextChar (0x5C :: e :: s) = some (ch, s) := by
  rcases he with rfl | rfl | rfl | rfl | rfl | rfl | rfl | rfl <;> exact ⟨_, fun s => rfl⟩

/-- Every turn of `unquoteBytes`' loop consumes a byte: each branch of `nextChar` that goes on
returns a proper suffix of its input. -/
theorem nextChar_length {s r : Bytes} {ch : Char} (h : nextChar s = some (ch, r)) :
    r.length < s.length := by
  suffices shorter : ∀ p ∈ nextChar s, p.2.length < s.length from shorter _ h
  have none_shorter : ∀ p ∈ (none : Option (Char × Bytes)), p.2.length < s.length :=
    fun _ hp => by cases hp
  have some_shorter : ∀ {ch : Char} {t : Bytes}, t.length < s.length →
      ∀ p ∈ some (ch, t), p.2.length < s.length := fun lt _ hp => by cases hp; exact lt
  rcases s with _ | ⟨c, s⟩
  · exact none_shorter
  unfold nextChar
  apply forall_mem_ite
  · rcases s with _ | ⟨e, t⟩
    · exact none_shorter
    have drop : ∀ k, 0 < k → ((e :: t).drop k).length < (c :: e :: t).length := fun k _ => by
      simp only [List.length_drop, List.length_cons]; omega
    have tail : t.length < (c :: e :: t).length := by simp only [List.length_cons]; omega
    repeat' apply forall_mem_ite
    all_goals try first | exact none_shorter | exact some_shorter tail
    rcases getu4 (c :: e :: t) with _ | rr
    · exact none_shorter
    apply forall_mem_ite
    · rcases (getu4 ((e :: t).drop 5)).bind (decodeSurrogates rr) with _ | d
      · exact some_shorter (drop 5 (by decide))
      · exact some_shorter (drop 11 (by decide))
    · exact some_shorter (drop 5 (by decide))
  · have hw := decodeRune_width c s
    apply forall_mem_ite _ none_shorter
    apply forall_mem_ite _ (some_shorter (by simp only [List.length_cons]; omega))
    exact some_shorter (by simp only [List.length_drop, List.length_cons]; omega)

/-- Fuel beyond the input's length changes nothing: every turn of the loop consumes a byte. -/
theorem unquoteLoop_fuel {s : Bytes} {f1 f2 : Nat} (h1 : s.length ≤ f1) (h2 : s.length ≤ f2) :
    unquoteLoop f1 s = unquoteLoop f2 s := by
  induction f1 generalizing s f2 with
  | zero => rw [List.length_eq_zero.mp (Nat.le_zero.mp h1)]; cases f2 <;> rfl
  | succ f ih =>
    rcases s with _ | ⟨c, t⟩
    · cases f2 <;> rfl
    obtain ⟨g, rfl⟩ : ∃ g, f2 = g + 1 := ⟨f2 - 1, by simp at h2; omega⟩
    rw [unquoteLoop_of_ne_nil (List.cons_ne_nil _ _), unquoteLoop_of_ne_nil (List.cons_ne_nil _ _)]
    rcases hn : nextChar (c :: t) with _ | ⟨ch, r⟩
    · rfl
    have := nextChar_length hn
    simp only [List.length_cons] at h1 h2 this
    simp only [Option.some_bind]
    rw [@ih r g (by omega) (by omega)]

/-- One turn of `unquoteBytes`' loop, with as much fuel as bytes. -/
theorem unquoteLoop_length {s : Bytes} (h : s ≠ []) : unquoteLoop s.length s =
    (nextChar s).bind fun (ch, r) => (unquoteLoop r.length r).map (ch :: ·) := by
  obtain ⟨c, t, rfl⟩ := List.exists_cons_of_ne_nil h
  rw [List.length_cons, unquoteLoop_of_ne_nil h]
  rcases hn : nextChar (c :: t) with _ | ⟨ch, r⟩
  · rfl
  have := nextChar_length hn
  simp only [Option.some_bind, List.length_cons] at this ⊢
  rw [unquoteLoop_fuel (by omega) le_rfl]
end Telehash.Json
