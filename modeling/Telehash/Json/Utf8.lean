/-
# Telehash.Json.Utf8 -- Go's `utf8.DecodeRune` and `utf8.EncodeRune`

The JSON encoder writes the characters of a header string as their UTF-8 bytes, and the decoder
reads them back with `utf8.DecodeRune`, which takes the well-formed sequence at the front of its
input or, where there is none, one byte as `RuneError` (U+FFFD).  Both are modelled from the
`unicode/utf8` code: `leading` is its `first` and `acceptRanges` tables, and the masks and shifts
of the decoder are written as remainders and products.

* `decodeRune_encodeRune`: whatever follows, the bytes of a character decode to that character;
* `decodeRune_takeWhile`: `DecodeRune` looks at the continuation bytes right after the leading
  byte and nothing else, so rewriting the bytes after them cannot change how they decode;
* `decodeRune_width_le`: and it consumes the leading byte and some of those continuation bytes.
-/
import Mathlib

namespace Telehash.Json

set_option autoImplicit false

/-- Go's `[]byte`. -/
abbrev Bytes := List UInt8

/-- `utf8.RuneError`, U+FFFD. -/
def runeError : Char := '\uFFFD'

/-- A continuation byte, `locb..hicb`. -/
def isCont (b : UInt8) : Bool := 0x80 ≤ b.toNat && b.toNat ≤ 0xBF

/-- `first` and `acceptRanges` for a byte of `0x80` and above: the width of the sequence it leads
and the range of the byte after it, or `none` where no sequence starts with it. -/
def leading (b : Nat) : Option (Nat × Nat × Nat) :=
  if b < 0xC2 then none
  else if b ≤ 0xDF then some (2, 0x80, 0xBF)
  else if b = 0xE0 then some (3, 0xA0, 0xBF)
  else if b = 0xED then some (3, 0x80, 0x9F)
  else if b ≤ 0xEF then some (3, 0x80, 0xBF)
  else if b = 0xF0 then some (4, 0x90, 0xBF)
  else if b ≤ 0xF3 then some (4, 0x80, 0xBF)
  else if b = 0xF4 then some (4, 0x80, 0x8F)
  else none

/-- `utf8.DecodeRune`: the character at the front of `p` and its width in bytes. -/
def decodeRune (p : Bytes) : Char × Nat :=
  match p with
  | [] => (runeError, 0)
  | p0 :: _ =>
    if p0.toNat < 0x80 then (Char.ofNat p0.toNat, 1) else
    match leading p0.toNat with
    | none => (runeError, 1)
    | some (sz, lo, hi) =>
      if p.length < sz then (runeError, 1)
      else if (p.getD 1 0).toNat < lo || hi < (p.getD 1 0).toNat then (runeError, 1)
      else if sz ≤ 2 then (Char.ofNat (p0.toNat % 0x20 * 0x40 + (p.getD 1 0).toNat % 0x40), 2)
      else if !isCont (p.getD 2 0) then (runeError, 1)
      else if sz ≤ 3 then
        (Char.ofNat (p0.toNat % 0x10 * 0x1000 + (p.getD 1 0).toNat % 0x40 * 0x40 +
          (p.getD 2 0).toNat % 0x40), 3)
      else if !isCont (p.getD 3 0) then (runeError, 1)
      else (Char.ofNat (p0.toNat % 0x08 * 0x40000 + (p.getD 1 0).toNat % 0x40 * 0x1000 +
          (p.getD 2 0).toNat % 0x40 * 0x40 + (p.getD 3 0).toNat % 0x40), 4)

/-- `utf8.AppendRune` on a Unicode scalar value, which every `Char` is, so that its last case
(an invalid rune written as `RuneError`) does not arise. -/
def encodeRune (c : Char) : Bytes :=
  if c.toNat ≤ 0x7F then [c.toNat.toUInt8]
  else if c.toNat ≤ 0x7FF then [(0xC0 + c.toNat / 0x40).toUInt8, (0x80 + c.toNat % 0x40).toUInt8]
  else if c.toNat ≤ 0xFFFF then
    [(0xE0 + c.toNat / 0x1000).toUInt8, (0x80 + c.toNat / 0x40 % 0x40).toUInt8,
      (0x80 + c.toNat % 0x40).toUInt8]
  else
    [(0xF0 + c.toNat / 0x40000).toUInt8, (0x80 + c.toNat / 0x1000 % 0x40).toUInt8,
      (0x80 + c.toNat / 0x40 % 0x40).toUInt8, (0x80 + c.toNat % 0x40).toUInt8]

theorem toNat_toUInt8 {n : Nat} (h : n < 256) : n.toUInt8.toNat = n := UInt8.toNat_ofNat_of_lt h

theorem char_toNat_valid (c : Char) :
    c.toNat < 0xD800 ∨ (0xDFFF < c.toNat ∧ c.toNat < 0x110000) :=
  c.valid

/-- What every branch of an `if` holds, the `if` holds. -/
theorem forall_mem_ite {α : Type} {Q : α → Prop} (c : Prop) [Decidable c] {a b : Option α}
    (ha : ∀ t ∈ a, Q t) (hb : ∀ t ∈ b, Q t) : ∀ t ∈ (if c then a else b), Q t := by
  split <;> assumption

theorem leading_ge {b sz lo hi : Nat} (h : leading b = some (sz, lo, hi)) :
    0xC2 ≤ b ∧ 2 ≤ sz ∧ sz ≤ 4 ∧ 0x80 ≤ lo ∧ hi ≤ 0xBF := by
  have ranges : ∀ t ∈ leading b, 0xC2 ≤ b ∧ 2 ≤ t.1 ∧ t.1 ≤ 4 ∧ 0x80 ≤ t.2.1 ∧ t.2.2 ≤ 0xBF := by
    unfold leading
    by_cases c0 : b < 0xC2
    · rw [if_pos c0]; intro t ht; cases ht
    rw [if_neg c0]
    repeat' apply forall_mem_ite
    all_goals intro t ht; cases ht <;> exact ⟨by omega, by decide⟩
  exact ranges _ h

/-! ## Well-formed sequences -/

section Widths

variable {b0 b1 b2 b3 : UInt8} {lo hi : Nat} (rest : Bytes)

theorem decodeRune_one (h0 : b0.toNat < 0x80) :
    decodeRune (b0 :: rest) = (Char.ofNat b0.toNat, 1) := by
  simp only [decodeRune, if_pos h0]

theorem decodeRune_two (h0 : leading b0.toNat = some (2, lo, hi))
    (h1 : lo ≤ b1.toNat ∧ b1.toNat ≤ hi) :
    decodeRune (b0 :: b1 :: rest) = (Char.ofNat (b0.toNat % 0x20 * 0x40 + b1.toNat % 0x40), 2) := by
  have := leading_ge h0
  simp only [decodeRune, h0, List.getD_cons_succ, List.getD_cons_zero, List.length_cons]
  rw [if_neg (by omega), if_neg (by omega), if_neg (by simp; omega), if_pos (by omega)]

theorem decodeRune_three (h0 : leading b0.toNat = some (3, lo, hi))
    (h1 : lo ≤ b1.toNat ∧ b1.toNat ≤ hi) (h2 : isCont b2) :
    decodeRune (b0 :: b1 :: b2 :: rest) = (Char.ofNat (b0.toNat % 0x10 * 0x1000 +
      b1.toNat % 0x40 * 0x40 + b2.toNat % 0x40), 3) := by
  have := leading_ge h0
  simp only [decodeRune, h0, h2, List.getD_cons_succ, List.getD_cons_zero, List.length_cons]
  rw [if_neg (by omega), if_neg (by omega), if_neg (by simp; omega), if_neg (by omega),
    if_neg (by decide), if_pos (by omega)]

theorem decodeRune_four (h0 : leading b0.toNat = some (4, lo, hi))
    (h1 : lo ≤ b1.toNat ∧ b1.toNat ≤ hi) (h2 : isCont b2) (h3 : isCont b3) :
    decodeRune (b0 :: b1 :: b2 :: b3 :: rest) = (Char.ofNat (b0.toNat % 0x08 * 0x40000 +
      b1.toNat % 0x40 * 0x1000 + b2.toNat % 0x40 * 0x40 + b3.toNat % 0x40), 4) := by
  have := leading_ge h0
  simp only [decodeRune, h0, h2, h3, List.getD_cons_succ, List.getD_cons_zero, List.length_cons]
  rw [if_neg (by omega), if_neg (by omega), if_neg (by simp; omega), if_neg (by omega),
    if_neg (by decide), if_neg (by omega), if_neg (by decide)]

end Widths

/-! The leading byte `AppendRune` writes for a character of each width accepts the byte it writes
after it. -/

theorem leading_encode_two {r : Nat} (h1 : 0x80 ≤ r) (h2 : r ≤ 0x7FF) :
    leading (0xC0 + r / 0x40) = some (2, 0x80, 0xBF) := by
  rw [leading, if_neg (by omega), if_pos (by omega)]

theorem leading_encode_three {r : Nat} (h1 : 0x800 ≤ r) (h2 : r ≤ 0xFFFF)
    (hv : r < 0xD800 ∨ 0xDFFF < r) : ∃ lo hi, leading (0xE0 + r / 0x1000) = some (3, lo, hi) ∧
      lo ≤ 0x80 + r / 0x40 % 0x40 ∧ 0x80 + r / 0x40 % 0x40 ≤ hi := by
  rw [leading, if_neg (by omega), if_neg (by omega)]
  by_cases e0 : 0xE0 + r / 0x1000 = 0xE0
  · exact ⟨_, _, if_pos e0, by omega, by omega⟩
  rw [if_neg e0]
  by_cases ed : 0xE0 + r / 0x1000 = 0xED
  · exact ⟨_, _, if_pos ed, by omega, by omega⟩
  exact ⟨_, _, by rw [if_neg ed, if_pos (by omega)], by omega, by omega⟩

theorem leading_encode_four {r : Nat} (h1 : 0xFFFF < r) (h2 : r < 0x110000) :
    ∃ lo hi, leading (0xF0 + r / 0x40000) = some (4, lo, hi) ∧
      lo ≤ 0x80 + r / 0x1000 % 0x40 ∧ 0x80 + r / 0x1000 % 0x40 ≤ hi := by
  rw [leading, if_neg (by omega), if_neg (by omega), if_neg (by omega), if_neg (by omega),
    if_neg (by omega)]
  by_cases f0 : 0xF0 + r / 0x40000 = 0xF0
  · exact ⟨_, _, if_pos f0, by omega, by omega⟩
  rw [if_neg f0]
  by_cases f3 : 0xF0 + r / 0x40000 ≤ 0xF3
  · exact ⟨_, _, if_pos f3, by omega, by omega⟩
  exact ⟨_, _, by rw [if_neg f3, if_pos (by omega)], by omega, by omega⟩

/-! The decoder's masks and shifts put back together the bits `AppendRune` split. -/

/-- A continuation byte keeps its six low bits under the decoder's mask. -/
theorem cont_mod (k : Nat) : (0x80 + k) % 0x40 = k % 0x40 := by omega

theorem reassemble_three {r : Nat} (h : r ≤ 0xFFFF) :
    (0xE0 + r / 0x1000) % 0x10 * 0x1000 + (0x80 + r / 0x40 % 0x40) % 0x40 * 0x40 +
      (0x80 + r % 0x40) % 0x40 = r := by
  rw [cont_mod, cont_mod, Nat.mod_mod, Nat.mod_mod]
  omega

theorem reassemble_four {r : Nat} (h : r < 0x110000) :
    (0xF0 + r / 0x40000) % 0x08 * 0x40000 + (0x80 + r / 0x1000 % 0x40) % 0x40 * 0x1000 +
      (0x80 + r / 0x40 % 0x40) % 0x40 * 0x40 + (0x80 + r % 0x40) % 0x40 = r := by
  rw [cont_mod, cont_mod, cont_mod, Nat.mod_mod, Nat.mod_mod, Nat.mod_mod]
  omega

theorem decodeRune_encodeRune (c : Char) (rest : Bytes) :
    decodeRune (encodeRune c ++ rest) = (c, (encodeRune c).length) := by
  have hv : c.toNat < 0x110000 := by rcases char_toNat_valid c with h | h <;> omega
  have back : ∀ n, n = c.toNat → Char.ofNat n = c := by rintro n rfl; exact Char.ofNat_toNat c
  have byte : ∀ n, n < 256 → n.toUInt8.toNat = n := fun _ => toNat_toUInt8
  have cont : ∀ n, n < 0x40 → isCont (0x80 + n).toUInt8 := by
    intro n hn; simp only [isCont, byte _ (by omega : 0x80 + n < 256)]; simp; omega
  unfold encodeRune
  split_ifs with h1 h2 h3 <;>
    simp only [List.cons_append, List.nil_append, List.length_cons, List.length_nil]
  · rw [decodeRune_one _ (by rw [byte _ (by omega)]; omega), byte _ (by omega), Char.ofNat_toNat]
  · rw [decodeRune_two rest (by rw [byte _ (by omega)]; exact leading_encode_two (by omega) h2)
      (by rw [byte _ (by omega)]; omega), byte _ (by omega), byte _ (by omega), back _ (by omega)]
  · obtain ⟨lo, hi, hl, hb⟩ :=
      leading_encode_three (by omega) h3 ((char_toNat_valid c).imp_right And.left)
    rw [decodeRune_three rest (by rwa [byte _ (by omega)]) (by rw [byte _ (by omega)]; omega)
      (cont _ (by omega)), byte _ (by omega), byte _ (by omega), byte _ (by omega),
      back _ (reassemble_three h3)]
  · obtain ⟨lo, hi, hl, hb⟩ := @leading_encode_four c.toNat (by omega) (by omega)
    rw [decodeRune_four rest (by rwa [byte _ (by omega)]) (by rw [byte _ (by omega)]; omega)
      (cont _ (by omega)) (cont _ (by omega)), byte _ (by omega), byte _ (by omega),
      byte _ (by omega), byte _ (by omega), back _ (reassemble_four hv)]

/-- A character of U+0080 and above is written with bytes of `0x80` and above only. -/
theorem encodeRune_high {c : Char} (h : 0x80 ≤ c.toNat) : ∀ b ∈ encodeRune c, 0x80 ≤ b.toNat := by
  have hv := char_toNat_valid c
  have byte : ∀ n, n < 256 → n.toUInt8.toNat = n := fun _ => toNat_toUInt8
  intro b hb
  unfold encodeRune at hb
  split_ifs at hb
  · omega
  all_goals
    simp only [List.mem_cons, List.mem_singleton, List.not_mem_nil, or_false] at hb
    rcases hb with rfl | rfl | rfl | rfl <;> rw [byte _ (by omega)] <;> omega

theorem encodeRune_ne_nil (c : Char) : encodeRune c ≠ [] := by
  unfold encodeRune; split_ifs <;> simp

/-! ## How far `DecodeRune` looks -/

section Lookahead

variable {c x x1 x2 x3 : UInt8} (s : Bytes)

theorem not_cont_iff {x : UInt8} : isCont x = false ↔ x.toNat < 0x80 ∨ 0xBF < x.toNat := by
  simp [isCont, Nat.not_le]; omega

/-- The step every lookahead lemma below takes: a byte below `0x80` decodes alone, a byte that
leads no sequence decodes as `RuneError`, and otherwise the bytes after it are checked against
`leading`'s width and range. -/
theorem decodeRune_cons (p0 : UInt8) (t : Bytes) : decodeRune (p0 :: t) =
    if p0.toNat < 0x80 then (Char.ofNat p0.toNat, 1) else
    match leading p0.toNat with
    | none => (runeError, 1)
    | some (sz, lo, hi) =>
      if t.length + 1 < sz then (runeError, 1)
      else if (t.getD 0 0).toNat < lo ∨ hi < (t.getD 0 0).toNat then (runeError, 1)
      else if sz ≤ 2 then (Char.ofNat (p0.toNat % 0x20 * 0x40 + (t.getD 0 0).toNat % 0x40), 2)
      else if isCont (t.getD 1 0) = false then (runeError, 1)
      else if sz ≤ 3 then
        (Char.ofNat (p0.toNat % 0x10 * 0x1000 + (t.getD 0 0).toNat % 0x40 * 0x40 +
          (t.getD 1 0).toNat % 0x40), 3)
      else if isCont (t.getD 2 0) = false then (runeError, 1)
      else (Char.ofNat (p0.toNat % 0x08 * 0x40000 + (t.getD 0 0).toNat % 0x40 * 0x1000 +
          (t.getD 1 0).toNat % 0x40 * 0x40 + (t.getD 2 0).toNat % 0x40), 4) := by
  simp only [decodeRune, List.length_cons, List.getD_cons_succ, Bool.or_eq_true, decide_eq_true_eq,
    Bool.not_eq_true']

/-- Both sides of every lookahead lemma unfold alike up to the range checks, which `omega` settles
from what is known of the bytes. -/
theorem decodeRune_stop_first (hx : isCont x = false) :
    decodeRune (c :: x :: s) = decodeRune [c] := by
  rw [not_cont_iff] at hx
  rw [decodeRune_cons, decodeRune_cons]
  by_cases h0 : c.toNat < 0x80
  · simp only [if_pos h0]
  simp only [if_neg h0]
  rcases hl : leading c.toNat with _ | ⟨sz, lo, hi⟩; · rfl
  have := leading_ge hl
  simp only [List.length_cons, List.length_nil, List.getD_cons_zero]
  rw [if_pos (by omega : 0 + 1 < sz)]
  by_cases short : s.length + 1 + 1 < sz
  · rw [if_pos short]
  · rw [if_neg short, if_pos (by omega)]

theorem decodeRune_stop_second (hx : isCont x = false) :
    decodeRune (c :: x1 :: x :: s) = decodeRune [c, x1] := by
  rw [decodeRune_cons, decodeRune_cons]
  by_cases h0 : c.toNat < 0x80
  · simp only [if_pos h0]
  simp only [if_neg h0]
  rcases hl : leading c.toNat with _ | ⟨sz, lo, hi⟩; · rfl
  have := leading_ge hl
  simp only [List.length_cons, List.length_nil, List.getD_cons_zero, List.getD_cons_succ]
  by_cases two : sz ≤ 2
  · rw [if_neg (by omega : ¬s.length + 1 + 1 + 1 < sz), if_neg (by omega : ¬0 + 1 + 1 < sz)]
    by_cases r1 : x1.toNat < lo ∨ hi < x1.toNat
    · rw [if_pos r1, if_pos r1]
    · rw [if_neg r1, if_neg r1, if_pos two, if_pos two]
  rw [if_pos (by omega : 0 + 1 + 1 < sz)]
  by_cases short : s.length + 1 + 1 + 1 < sz
  · rw [if_pos short]
  by_cases r1 : x1.toNat < lo ∨ hi < x1.toNat
  · rw [if_neg short, if_pos r1]
  · rw [if_neg short, if_neg r1, if_neg two, if_pos hx]

theorem decodeRune_stop_third (hx : isCont x = false) :
    decodeRune (c :: x1 :: x2 :: x :: s) = decodeRune [c, x1, x2] := by
  rw [decodeRune_cons, decodeRune_cons]
  by_cases h0 : c.toNat < 0x80
  · simp only [if_pos h0]
  simp only [if_neg h0]
  rcases hl : leading c.toNat with _ | ⟨sz, lo, hi⟩; · rfl
  have := leading_ge hl
  simp only [List.length_cons, List.length_nil, List.getD_cons_zero, List.getD_cons_succ]
  by_cases three : sz ≤ 3
  · rw [if_neg (by omega : ¬s.length + 1 + 1 + 1 + 1 < sz), if_neg (by omega : ¬0 + 1 + 1 + 1 < sz)]
    by_cases r1 : x1.toNat < lo ∨ hi < x1.toNat
    · rw [if_pos r1, if_pos r1]
    rw [if_neg r1, if_neg r1]
    by_cases two : sz ≤ 2
    · rw [if_pos two, if_pos two]
    by_cases c2 : isCont x2 = false
    · rw [if_neg two, if_neg two, if_pos c2, if_pos c2]
    · rw [if_neg two, if_neg two, if_neg c2, if_neg c2, if_pos three, if_pos three]
  rw [if_pos (by omega : 0 + 1 + 1 + 1 < sz)]
  by_cases short : s.length + 1 + 1 + 1 + 1 < sz
  · rw [if_pos short]
  rw [if_neg short]
  by_cases r1 : x1.toNat < lo ∨ hi < x1.toNat
  · rw [if_pos r1]
  rw [if_neg r1, if_neg (by omega)]
  by_cases c2 : isCont x2 = false
  · rw [if_pos c2]
  · rw [if_neg c2, if_neg three, if_pos hx]

theorem decodeRune_four_bytes :
    decodeRune (c :: x1 :: x2 :: x3 :: s) = decodeRune [c, x1, x2, x3] := by
  rw [decodeRune_cons, decodeRune_cons]
  by_cases h0 : c.toNat < 0x80
  · simp only [if_pos h0]
  simp only [if_neg h0]
  rcases hl : leading c.toNat with _ | ⟨sz, lo, hi⟩; · rfl
  have := leading_ge hl
  simp only [List.length_cons, List.length_nil, List.getD_cons_zero, List.getD_cons_succ]
  rw [if_neg (by omega : ¬s.length + 1 + 1 + 1 + 1 < sz), if_neg (by omega : ¬0 + 1 + 1 + 1 + 1 < sz)]

end Lookahead

/-- `DecodeRune` always takes at least one byte and never more than it is given. -/
theorem decodeRune_width (p0 : UInt8) (t : Bytes) :
    1 ≤ (decodeRune (p0 :: t)).2 ∧ (decodeRune (p0 :: t)).2 ≤ t.length + 1 := by
  rw [decodeRune_cons]
  by_cases h0 : p0.toNat < 0x80
  · simp only [if_pos h0]; omega
  simp only [if_neg h0]
  rcases hl : leading p0.toNat with _ | ⟨sz, lo, hi⟩
  · simp
  have := leading_ge hl
  dsimp only
  by_cases short : t.length + 1 < sz
  · rw [if_pos short]; omega
  rw [if_neg short]
  simp only [apply_ite Prod.snd]
  split_ifs <;> omega

theorem decodeRune_takeWhile (c : UInt8) (s : Bytes) :
    decodeRune (c :: s) = decodeRune (c :: s.takeWhile isCont) := by
  rcases s with _ | ⟨x1, s⟩; · rfl
  rw [List.takeWhile_cons]
  cases h1 : isCont x1
  · rw [if_neg (by simp), decodeRune_stop_first s h1]
  rw [if_pos rfl]
  rcases s with _ | ⟨x2, s⟩; · rfl
  rw [List.takeWhile_cons]
  cases h2 : isCont x2
  · rw [if_neg (by simp), decodeRune_stop_second s h2]
  rw [if_pos rfl]
  rcases s with _ | ⟨x3, s⟩; · rfl
  rw [List.takeWhile_cons]
  cases h3 : isCont x3
  · rw [if_neg (by simp), decodeRune_stop_third s h3]
  rw [if_pos rfl]
  exact (decodeRune_four_bytes s).trans (decodeRune_four_bytes _).symm

/-- The bytes a decoded character takes are its leading byte and continuation bytes after it. -/
theorem decodeRune_width_le (c : UInt8) (s : Bytes) :
    1 ≤ (decodeRune (c :: s)).2 ∧ (decodeRune (c :: s)).2 ≤ (s.takeWhile isCont).length + 1 := by
  rw [decodeRune_takeWhile]
  exact decodeRune_width c _

end Telehash.Json
