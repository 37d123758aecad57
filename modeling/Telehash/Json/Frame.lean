/-
# Telehash.Json.Frame -- the bytes a read depends on

The scanner reads one value from the front of its input and returns the bytes after it.  What it
returns depends on fewer bytes than it is given.

* `parseValue_ok_iff`, `parseElems_ok_iff`, `parseMembers_ok_iff`: what one call of each reader
  does when it succeeds, branch by branch; every result below is read off these;
* `parse_suffix`: a reader leaves a suffix of its input, shorter than the input after its space;
* `parse_stable`: a read depends only on the bytes it read.  It is the same whatever follows them,
  but for the byte right after a number literal, which ends the literal; with as much fuel as it
  read bytes, or as much as it had; and from fewer open containers (`parseValue_frame`,
  `parseMembers_frame`, `parseMembers_depth_succ`);
* `parseMembers_commaSep_eq`, `parseValue_jsonObject_rem`: so the members of an object the
  encoder wrote, read from inside the object, are the ones it wrote or nothing, and the value
  reader stops where the object ends or nowhere.

The header decoder rests on these: a header is space, then one value, then anything
(`decodeHdr_ok_iff`), and no prefix of an encoded header, nor one whose raw `_` nests too deep for
the object around it, is read as another header (`parsePkt_formatPkt_sound`).
-/
import Telehash.Json.Values

namespace Telehash.Json

set_option autoImplicit false

/-- A number literal: the one value whose end the scanner finds by looking at the byte after it. -/
def JsonValue.isNumber {σ : Type} : JsonValue σ → Bool
  | .number _ => true
  | _ => false

/-! ## Space -/

theorem skipWs_suffix : ∀ s : Bytes, skipWs s <:+ s
  | [] => List.suffix_refl _
  | c :: s => by
    unfold skipWs
    split
    · exact (skipWs_suffix s).trans (List.suffix_cons c s)
    · exact List.suffix_refl _

/-- Space in front changes nothing the skip returns. -/
theorem skipWs_space_append : ∀ {ws : Bytes} (s : Bytes), (∀ c ∈ ws, isSpace c = true) →
    skipWs (ws ++ s) = skipWs s
  | [], _, _ => rfl
  | c :: ws, s, h => by
    rw [List.cons_append, skipWs, if_pos (h c (List.mem_cons_self c ws))]
    exact skipWs_space_append s fun d hd => h d (List.mem_cons_of_mem c hd)

/-- The bytes before the first one that is not space. -/
theorem skipWs_split : ∀ s : Bytes, ∃ ws, s = ws ++ skipWs s ∧ ∀ c ∈ ws, isSpace c = true
  | [] => ⟨[], rfl, nofun⟩
  | c :: s => by
    by_cases hc : isSpace c = true
    · obtain ⟨ws, hs, hws⟩ := skipWs_split s
      refine ⟨c :: ws, ?_, ?_⟩
      · rw [skipWs, if_pos hc, List.cons_append, ← hs]
      · intro d hd
        rcases List.mem_cons.mp hd with rfl | hd
        exacts [hc, hws d hd]
    · exact ⟨[], by simp [skipWs, hc], nofun⟩

/-- The first byte the skip stops at is not space. -/
theorem skipWs_head_not_space : ∀ {s t : Bytes} {c : UInt8}, skipWs s = c :: t → isSpace c = false
  | [], _, _, h => by cases h
  | d :: s, t, c, h => by
    by_cases hd : isSpace d = true
    · rw [skipWs, if_pos hd] at h
      exact skipWs_head_not_space h
    · rw [skipWs, if_neg hd] at h
      cases h
      simpa using hd

/-- Where the skip stops at `c`: the space before `c`, and the same stop whatever follows `c`. -/
theorem skipWs_eq_cons {s t : Bytes} {c : UInt8} (h : skipWs s = c :: t) :
    ∃ ws, s = ws ++ c :: t ∧ ∀ x, skipWs (ws ++ c :: x) = c :: x := by
  obtain ⟨ws, hs, spaces⟩ := skipWs_split s
  refine ⟨ws, by rw [← h]; exact hs, fun x => ?_⟩
  rw [skipWs_space_append _ spaces, skipWs_cons_of_not_space (skipWs_head_not_space h)]

/-- A skip that stops at the last byte of `z` stops there whatever follows `z`. -/
theorem skipWs_frame {z rem : Bytes} {c : UInt8} (h : skipWs (z ++ rem) = c :: rem) (rem' : Bytes) :
    skipWs (z ++ rem') = c :: rem' := by
  obtain ⟨ws, split, stop⟩ := skipWs_eq_cons h
  obtain rfl : z = ws ++ [c] := List.append_cancel_right (split.trans (by simp))
  simpa using stop rem'

/-- A skip that stops before `rem` stops at a byte of `u`, and there whatever follows `u`. -/
theorem skipWs_stops_in {u rem : Bytes} (shorter : rem.length < (skipWs (u ++ rem)).length) :
    ∃ ws c z, u = ws ++ c :: z ∧ ∀ x, skipWs (ws ++ c :: x) = c :: x := by
  obtain ⟨c, t, ht⟩ := List.exists_cons_of_length_pos (lt_of_le_of_lt (Nat.zero_le _) shorter)
  obtain ⟨ws, split, stop⟩ := skipWs_eq_cons ht
  rw [ht, List.length_cons] at shorter
  obtain ⟨z, rfl⟩ : rem <:+ t := List.suffix_of_suffix_length_le (List.suffix_append u rem)
    ⟨ws ++ [c], by rw [split]; simp⟩ (Nat.le_of_lt_succ shorter)
  exact ⟨ws, c, z, List.append_cancel_right (split.trans (by simp)), stop⟩

/-- So the skip does not stop at `b` whatever follows `u`, when it does not with `rem`. -/
theorem skipWs_ne_frame {u rem : Bytes} {b : UInt8} (shorter : rem.length < (skipWs (u ++ rem)).length)
    (other : ∀ q, skipWs (u ++ rem) ≠ b :: q) (rem' : Bytes) : ∀ q, skipWs (u ++ rem') ≠ b :: q := by
  obtain ⟨ws, c, z, rfl, stop⟩ := skipWs_stops_in shorter
  intro q e
  simp only [List.append_assoc, List.cons_append, stop] at other e
  injection e with hc
  exact other (z ++ rem) (by rw [hc])

/-! ## Scalars -/

theorem scanLiteral_eq_append : ∀ {es s rem : Bytes}, scanLiteral es s = .ok rem → s = es ++ rem
  | [], _, _, h => by cases h; rfl
  | _ :: _, [], _, h => by cases h
  | e :: es, c :: s, rem, h => by
    simp only [scanLiteral] at h
    split_ifs at h with hc
    rw [hc, scanLiteral_eq_append h]
    rfl

theorem scanLiteral_append : ∀ es t : Bytes, scanLiteral es (es ++ t) = .ok t
  | [], _ => rfl
  | e :: es, t => by rw [List.cons_append, scanLiteral, if_pos rfl, scanLiteral_append es t]

theorem scanNumber_eq_append : ∀ {q : NumState} {s b rem : Bytes},
    scanNumber q s = .ok (b, rem) → s = b ++ rem
  | q, [], b, rem, h => by
    simp only [scanNumber] at h
    split_ifs at h
    cases h
    rfl
  | q, c :: s, b, rem, h => by
    rw [scanNumber_cons] at h
    rcases hn : q.next c with _ | q'
    · rw [hn] at h
      dsimp only at h
      split_ifs at h
      cases h
      rfl
    · rw [hn] at h
      obtain ⟨b', h', rfl⟩ := consRead_ok h
      rw [scanNumber_eq_append h']
      rfl

/-- A literal the number scanner ended at a byte it left ends there whatever follows that byte. -/
theorem scanNumber_stop : ∀ {q : NumState} {b : Bytes} {c : UInt8} {t : Bytes},
    scanNumber q (b ++ c :: t) = .ok (b, c :: t) → ∀ t', scanNumber q (b ++ c :: t') = .ok (b, c :: t')
  | q, [], c, t, h, t' => by
    rw [List.nil_append, scanNumber_cons] at h ⊢
    rcases hn : q.next c with _ | q'
    · rw [hn] at h
      dsimp only at h ⊢
      split_ifs at h ⊢
      rfl
    · rw [hn] at h
      obtain ⟨b', -, e⟩ := consRead_ok h
      cases e
  | q, d :: b, c, t, h, t' => by
    rw [List.cons_append, scanNumber_cons] at h ⊢
    rcases hn : q.next d with _ | q'
    · rw [hn] at h
      dsimp only at h
      split_ifs at h
      cases h
    · rw [hn] at h
      obtain ⟨b', h', e⟩ := consRead_ok h
      cases e
      dsimp only
      rw [scanNumber_stop h' t']
      rfl

/-- `parseScalar` picks its scanner by the first byte alone. -/
theorem parseScalar_cases (c : UInt8) :
    (∀ s, parseScalar c s = (scanStr .plain s).map fun (b, r) => (.string b, r)) ∨
    (∃ q, ∀ s, parseScalar c s = (scanNumber q s).map fun (b, r) => (.number (c :: b), r)) ∨
    (∃ (es : Bytes) (w : JsonValue Bytes),
      ((c :: es = trueText ∧ w = .bool true) ∨ (c :: es = falseText ∧ w = .bool false) ∨
        (c :: es = nullText ∧ w = .null)) ∧
      ∀ s, parseScalar c s = (scanLiteral es s).map fun r => (w, r)) ∨
    (∀ s, parseScalar c s = .error (.syntaxError c)) := by
  unfold parseScalar
  by_cases h22 : c = 0x22
  · exact .inl fun s => by rw [if_pos h22]
  simp only [if_neg h22]
  by_cases h2D : c = 0x2D
  · exact .inr (.inl ⟨.neg, fun s => by rw [if_pos h2D]⟩)
  simp only [if_neg h2D]
  by_cases h30 : c = 0x30
  · exact .inr (.inl ⟨.zero, fun s => by rw [if_pos h30]⟩)
  simp only [if_neg h30]
  by_cases hd : isDigit c = true
  · exact .inr (.inl ⟨.int, fun s => by rw [if_pos hd]⟩)
  simp only [if_neg hd]
  by_cases h74 : c = 0x74
  · exact .inr (.inr (.inl ⟨_, _, .inl ⟨by rw [h74]; rfl, rfl⟩, fun s => by rw [if_pos h74]⟩))
  simp only [if_neg h74]
  by_cases h66 : c = 0x66
  · exact .inr (.inr (.inl ⟨_, _, .inr (.inl ⟨by rw [h66]; rfl, rfl⟩), fun s => by rw [if_pos h66]⟩))
  simp only [if_neg h66]
  by_cases h6E : c = 0x6E
  · exact .inr (.inr (.inl ⟨_, _, .inr (.inr ⟨by rw [h6E]; rfl, rfl⟩), fun s => by rw [if_pos h6E]⟩))
  exact .inr (.inr (.inr fun s => by rw [if_neg h6E]))

/-- A scalar is never an object. -/
theorem parseScalar_ne_object {c : UInt8} {s rem : Bytes} {ms : List (Bytes × JsonValue Bytes)} :
    parseScalar c s ≠ .ok (.object ms, rem) := fun h => by
  rcases parseScalar_cases c with str | ⟨q, num⟩ | ⟨es, w, hw, lit⟩ | err
  · obtain ⟨_, -, e⟩ := map_eq_ok ((str s).symm.trans h); cases e
  · obtain ⟨_, -, e⟩ := map_eq_ok ((num s).symm.trans h); cases e
  · obtain ⟨_, -, e⟩ := map_eq_ok ((lit s).symm.trans h)
    rcases hw with ⟨-, rfl⟩ | ⟨-, rfl⟩ | ⟨-, rfl⟩ <;> cases e
  · rw [err] at h; cases h

/-- The scalar `null` is the four bytes `null`. -/
theorem parseScalar_null {c : UInt8} {s rem : Bytes} (h : parseScalar c s = .ok (.null, rem)) :
    c :: s = nullText ++ rem := by
  rcases parseScalar_cases c with str | ⟨q, num⟩ | ⟨es, w, hw, lit⟩ | err
  · obtain ⟨_, -, e⟩ := map_eq_ok ((str s).symm.trans h); cases e
  · obtain ⟨_, -, e⟩ := map_eq_ok ((num s).symm.trans h); cases e
  · obtain ⟨r, hs, e⟩ := map_eq_ok ((lit s).symm.trans h)
    rcases hw with ⟨-, rfl⟩ | ⟨-, rfl⟩ | ⟨text, rfl⟩ <;> cases e
    rw [scanLiteral_eq_append hs, ← List.cons_append, text]
  · rw [err] at h; cases h

theorem parseScalar_suffix {c : UInt8} {s rem : Bytes} {t : JsonValue Bytes}
    (h : parseScalar c s = .ok (t, rem)) : rem <:+ s := by
  rcases parseScalar_cases c with str | ⟨q, num⟩ | ⟨es, w, -, lit⟩ | err
  · obtain ⟨⟨b, r⟩, hs, e⟩ := map_eq_ok ((str s).symm.trans h)
    cases e
    rw [(scanStr_strBody _ le_rfl hs).2]
    exact (List.suffix_cons _ _).trans (List.suffix_append _ _)
  · obtain ⟨⟨b, r⟩, hs, e⟩ := map_eq_ok ((num s).symm.trans h)
    cases e
    rw [scanNumber_eq_append hs]
    exact List.suffix_append _ _
  · obtain ⟨r, hs, e⟩ := map_eq_ok ((lit s).symm.trans h)
    cases e
    rw [scanLiteral_eq_append hs]
    exact List.suffix_append _ _
  · rw [err] at h; cases h

/-- The number scanner stops at the byte after the literal, whatever follows that byte. -/
theorem scanNumber_frame {q : NumState} {b s s' : Bytes} (h : scanNumber q (b ++ s) = .ok (b, s))
    (same : s'.head? = s.head?) : scanNumber q (b ++ s') = .ok (b, s') := by
  cases s with
  | nil => rw [List.head?_eq_none_iff.mp same]; exact h
  | cons c t =>
    obtain ⟨t', rfl⟩ : ∃ t', s' = c :: t' := by
      cases s' with
      | nil => cases same
      | cons d t' => cases same; exact ⟨t', rfl⟩
    exact scanNumber_stop h t'

/-- A scalar is read the same whatever follows it, but for the byte right after a number. -/
theorem parseScalar_frame {c : UInt8} {u rem : Bytes} {t : JsonValue Bytes}
    (h : parseScalar c (u ++ rem) = .ok (t, rem)) {rem' : Bytes}
    (closed : rem'.head? = rem.head? ∨ t.isNumber = false) :
    parseScalar c (u ++ rem') = .ok (t, rem') := by
  rcases parseScalar_cases c with str | ⟨q, num⟩ | ⟨es, w, -, lit⟩ | err
  · obtain ⟨⟨b, r1⟩, hs, e⟩ := map_eq_ok ((str _).symm.trans h)
    cases e
    obtain ⟨body, split⟩ := scanStr_strBody _ le_rfl hs
    obtain rfl : u = b ++ [0x22] := List.append_cancel_right (split.trans (by simp))
    rw [str, List.append_assoc, List.singleton_append, scanStr_body body]
    rfl
  · obtain ⟨⟨b, r1⟩, hs, e⟩ := map_eq_ok ((num _).symm.trans h)
    cases e
    obtain rfl := List.append_cancel_right (scanNumber_eq_append hs)
    rw [num, scanNumber_frame hs (closed.resolve_right Bool.noConfusion)]
    rfl
  · obtain ⟨r1, hs, e⟩ := map_eq_ok ((lit _).symm.trans h)
    cases e
    rw [lit, List.append_cancel_right (scanLiteral_eq_append hs), scanLiteral_append]
    rfl
  · rw [err] at h; cases h

/-! ## One call of each reader -/

theorem array_ne_object : (0x5B : UInt8) ≠ 0x7B := by decide
theorem close_ne_comma : (0x5D : UInt8) ≠ 0x2C := by decide
theorem brace_ne_comma : (0x7D : UInt8) ≠ 0x2C := by decide

/-- A value: space, then an object, an array or a scalar, by its first byte. -/
theorem parseValue_ok_iff {fuel depth : Nat} {s rem : Bytes} {t : JsonValue Bytes} :
    parseValue (fuel + 1) depth s = .ok (t, rem) ↔
      ∃ c s', skipWs s = c :: s' ∧
        ((c = 0x7B ∧ depth < maxNestingDepth ∧
            ((skipWs s' = 0x7D :: rem ∧ t = .object []) ∨
              ((∀ r, skipWs s' ≠ 0x7D :: r) ∧ ∃ ms, parseMembers fuel (depth + 1) s' = .ok (ms, rem) ∧
                t = .object (ms.map fun (k, v, _) => (k, v))))) ∨
          (c = 0x5B ∧ depth < maxNestingDepth ∧
            ((skipWs s' = 0x5D :: rem ∧ t = .array []) ∨
              ((∀ r, skipWs s' ≠ 0x5D :: r) ∧ ∃ xs, parseElems fuel (depth + 1) s' = .ok (xs, rem) ∧
                t = .array xs))) ∨
          (c ≠ 0x7B ∧ c ≠ 0x5B ∧ parseScalar c s' = .ok (t, rem))) := by
  constructor
  · intro h
    simp only [parseValue] at h
    split at h
    · cases h
    rename_i c s' hs
    refine ⟨c, s', hs, ?_⟩
    by_cases ho : c = 0x7B
    · rw [if_pos ho] at h
      split_ifs at h with hd
      refine .inl ⟨ho, hd, ?_⟩
      split at h
      · cases h; exact .inl ⟨‹_›, rfl⟩
      · obtain ⟨⟨ms, r⟩, hm, e⟩ := map_eq_ok h
        cases e
        exact .inr ⟨‹_›, ms, hm, rfl⟩
    rw [if_neg ho] at h
    by_cases ha : c = 0x5B
    · rw [if_pos ha] at h
      split_ifs at h with hd
      refine .inr (.inl ⟨ha, hd, ?_⟩)
      split at h
      · cases h; exact .inl ⟨‹_›, rfl⟩
      · obtain ⟨⟨xs, r⟩, hx, e⟩ := map_eq_ok h
        cases e
        exact .inr ⟨‹_›, xs, hx, rfl⟩
    rw [if_neg ha] at h
    exact .inr (.inr ⟨ho, ha, h⟩)
  · rintro ⟨c, s', hs, ⟨rfl, hd, ⟨empty, rfl⟩ | ⟨full, ms, hm, rfl⟩⟩ |
      ⟨rfl, hd, ⟨empty, rfl⟩ | ⟨full, xs, hx, rfl⟩⟩ | ⟨ho, ha, h⟩⟩
    · simp only [parseValue, hs, ↓reduceIte, if_pos hd, empty]
    · simp only [parseValue, hs, ↓reduceIte, if_pos hd, hm]
      rfl
    · simp only [parseValue, hs, ↓reduceIte, if_pos hd, if_neg array_ne_object, empty]
    · simp only [parseValue, hs, ↓reduceIte, if_pos hd, if_neg array_ne_object, hx]
      rfl
    · simp only [parseValue, hs, if_neg ho, if_neg ha, h]

/-- An element: a value, then `,` and the next element, or `]`. -/
theorem parseElems_ok_iff {fuel depth : Nat} {s rem : Bytes} {xs : List (JsonValue Bytes)} :
    parseElems (fuel + 1) depth s = .ok (xs, rem) ↔
      ∃ v r c r', parseValue fuel depth s = .ok (v, r) ∧ skipWs r = c :: r' ∧
        ((c = 0x2C ∧ ∃ xs', parseElems fuel depth r' = .ok (xs', rem) ∧ xs = v :: xs') ∨
          (c = 0x5D ∧ r' = rem ∧ xs = [v])) := by
  constructor
  · intro h
    simp only [parseElems] at h
    split at h
    · cases h
    rename_i v r hv
    split at h
    · cases h
    rename_i c r' hc
    refine ⟨v, r, c, r', hv, hc, ?_⟩
    by_cases comma : c = 0x2C
    · rw [if_pos comma] at h
      obtain ⟨⟨xs', r''⟩, hx, e⟩ := map_eq_ok h
      cases e
      exact .inl ⟨comma, xs', hx, rfl⟩
    rw [if_neg comma] at h
    split_ifs at h with close
    cases h
    exact .inr ⟨close, rfl, rfl⟩
  · rintro ⟨v, r, c, r', hv, hc, ⟨rfl, xs', hx, rfl⟩ | ⟨rfl, rfl, rfl⟩⟩
    · simp only [parseElems, hv, hc, ↓reduceIte, hx]; rfl
    · simp only [parseElems, hv, hc, ↓reduceIte, if_neg close_ne_comma]

/-- A member: space, a key, space, `:`, a value with its bytes, then `,` and the next member, or
`}`. -/
theorem parseMembers_ok_iff {fuel depth : Nat} {s rem : Bytes}
    {ms : List (Bytes × JsonValue Bytes × Bytes)} :
    parseMembers (fuel + 1) depth s = .ok (ms, rem) ↔
      ∃ s1 key s2 s3 v r c r', skipWs s = 0x22 :: s1 ∧ scanStr .plain s1 = .ok (key, s2) ∧
        skipWs s2 = 0x3A :: s3 ∧ parseValue fuel depth (skipWs s3) = .ok (v, r) ∧ skipWs r = c :: r' ∧
        ((c = 0x2C ∧ ∃ ms', parseMembers fuel depth r' = .ok (ms', rem) ∧
            ms = (key, v, (skipWs s3).take ((skipWs s3).length - r.length)) :: ms') ∨
          (c = 0x7D ∧ r' = rem ∧ ms = [(key, v, (skipWs s3).take ((skipWs s3).length - r.length))])) := by
  constructor
  · intro h
    simp only [parseMembers] at h
    split at h
    · cases h
    rename_i q s1 hs
    split_ifs at h with hq
    split at h
    · cases h
    rename_i key s2 hk
    split at h
    · cases h
    rename_i colon s3 hc
    split_ifs at h with hcolon
    split at h
    · cases h
    rename_i v r hv
    split at h
    · cases h
    rename_i c r' hr
    refine ⟨s1, key, s2, s3, v, r, c, r', ?_, hk, ?_, hv, hr, ?_⟩
    · rw [hs, not_not.mp hq]
    · rw [hc, not_not.mp hcolon]
    by_cases comma : c = 0x2C
    · rw [if_pos comma] at h
      obtain ⟨⟨ms', r''⟩, hm, e⟩ := map_eq_ok h
      cases e
      exact .inl ⟨comma, ms', hm, rfl⟩
    rw [if_neg comma] at h
    split_ifs at h with close
    cases h
    exact .inr ⟨close, rfl, rfl⟩
  · rintro ⟨s1, key, s2, s3, v, r, c, r', hs, hk, hc, hv, hr, ⟨rfl, ms', hm, rfl⟩ | ⟨rfl, rfl, rfl⟩⟩
    · simp only [parseMembers, hs, hk, hc, hv, hr, ne_eq, not_true_eq_false, ↓reduceIte, hm]
      rfl
    · simp only [parseMembers, hs, hk, hc, hv, hr, ne_eq, not_true_eq_false, ↓reduceIte,
        if_neg brace_ne_comma]

/-- Space in front of a value changes nothing the reader returns. -/
theorem parseValue_space_append {ws : Bytes} (spaces : ∀ c ∈ ws, isSpace c = true) (fuel d : Nat)
    (s : Bytes) : parseValue (fuel + 1) d (ws ++ s) = parseValue (fuel + 1) d s := by
  simp only [parseValue, skipWs_space_append s spaces]

/-- `readValue` is the value reader with one more fuel than bytes, when that reads a value. -/
theorem readValue_eq {s rem : Bytes} {t : JsonValue Bytes} (h : readValue s = .ok (t, rem)) :
    parseValue (s.length + 1) 0 s = .ok (t, rem) := by
  unfold readValue at h
  split_ifs at h
  exact h

theorem readValue_of_parseValue {s rem : Bytes} {t : JsonValue Bytes}
    (h : parseValue (s.length + 1) 0 s = .ok (t, rem)) : readValue s = .ok (t, rem) := by
  unfold readValue
  split_ifs with blank
  · simp only [parseValue, blank] at h
    cases h
  · exact h

/-! ## What a read leaves -/

/-- What is left after the skip stops at `c` is the part of `s` after that `c`. -/
theorem suffix_of_skipWs {s s' a : Bytes} {c : UInt8} (hs : skipWs s = c :: s') (h : a <:+ s') :
    a <:+ s ∧ a.length < (skipWs s).length := by
  refine ⟨(h.trans (List.suffix_cons c s')).trans (hs ▸ skipWs_suffix s), ?_⟩
  rw [hs, List.length_cons]
  exact Nat.lt_succ_of_le h.length_le

/-- Each reader leaves a suffix of its input, shorter than the input after its space: it reads at
least one byte past the space. -/
theorem parse_suffix (fuel : Nat) :
    (∀ d s t rem, parseValue fuel d s = .ok (t, rem) → rem <:+ s ∧ rem.length < (skipWs s).length) ∧
    (∀ d s xs rem, parseElems fuel d s = .ok (xs, rem) → rem <:+ s ∧ rem.length < (skipWs s).length) ∧
    (∀ d s ms rem, parseMembers fuel d s = .ok (ms, rem) →
      rem <:+ s ∧ rem.length < (skipWs s).length) := by
  induction fuel with
  | zero => refine ⟨?_, ?_, ?_⟩ <;> intro _ _ _ _ h <;> cases h
  | succ fuel ih =>
    obtain ⟨ihValue, ihElems, ihMembers⟩ := ih
    refine ⟨fun d s t rem h => ?_, fun d s xs rem h => ?_, fun d s ms rem h => ?_⟩
    · obtain ⟨c, s', hs, br⟩ := parseValue_ok_iff.mp h
      refine suffix_of_skipWs hs ?_
      rcases br with ⟨-, -, ⟨empty, -⟩ | ⟨-, ms, hm, -⟩⟩ | ⟨-, -, ⟨empty, -⟩ | ⟨-, xs, hx, -⟩⟩ | ⟨-, -, hsc⟩
      · exact (List.suffix_cons _ _).trans (empty ▸ skipWs_suffix s')
      · exact (ihMembers _ _ _ _ hm).1
      · exact (List.suffix_cons _ _).trans (empty ▸ skipWs_suffix s')
      · exact (ihElems _ _ _ _ hx).1
      · exact parseScalar_suffix hsc
    · obtain ⟨v, r, c, r', hv, hc, br⟩ := parseElems_ok_iff.mp h
      have rest : rem <:+ r' := by
        rcases br with ⟨-, xs', hx, -⟩ | ⟨-, rfl, -⟩
        exacts [(ihElems _ _ _ _ hx).1, List.suffix_refl _]
      have first := ihValue _ _ _ _ hv
      have after := (suffix_of_skipWs hc rest).1
      exact ⟨after.trans first.1, lt_of_le_of_lt after.length_le first.2⟩
    · obtain ⟨s1, key, s2, s3, v, r, c, r', hs, hk, hc, hv, hr, br⟩ := parseMembers_ok_iff.mp h
      have rest : rem <:+ r' := by
        rcases br with ⟨-, ms', hm, -⟩ | ⟨-, rfl, -⟩
        exacts [(ihMembers _ _ _ _ hm).1, List.suffix_refl _]
      have value : rem <:+ s3 :=
        ((suffix_of_skipWs hr rest).1.trans (ihValue _ _ _ _ hv).1).trans (skipWs_suffix s3)
      have key : s2 <:+ s1 := by
        rw [(scanStr_strBody _ le_rfl hk).2]
        exact (List.suffix_cons _ _).trans (List.suffix_append _ _)
      exact suffix_of_skipWs hs ((suffix_of_skipWs hc value).1.trans key)

/-! ## Reading the same bytes again -/

/-- A read depends only on the bytes it read: it is the same whatever follows them, as long as a
number at the very end keeps the byte after it; with as much fuel as it read bytes, or as much as
it had; and from fewer open containers. -/
theorem parse_stable (fuel : Nat) :
    (∀ d u rem t, parseValue fuel d (u ++ rem) = .ok (t, rem) →
      ∀ fuel' d' rem', (fuel ≤ fuel' ∨ u.length ≤ fuel') → d' ≤ d →
        (rem'.head? = rem.head? ∨ t.isNumber = false) →
        parseValue fuel' d' (u ++ rem') = .ok (t, rem')) ∧
    (∀ d u rem xs, parseElems fuel d (u ++ rem) = .ok (xs, rem) →
      ∀ fuel' d' rem', (fuel ≤ fuel' ∨ u.length ≤ fuel') → d' ≤ d →
        parseElems fuel' d' (u ++ rem') = .ok (xs, rem')) ∧
    (∀ d u rem ms, parseMembers fuel d (u ++ rem) = .ok (ms, rem) →
      ∀ fuel' d' rem', (fuel ≤ fuel' ∨ u.length ≤ fuel') → d' ≤ d →
        parseMembers fuel' d' (u ++ rem') = .ok (ms, rem')) := by
  induction fuel with
  | zero => refine ⟨?_, ?_, ?_⟩ <;> intro _ _ _ _ h <;> cases h
  | succ fuel ih =>
    obtain ⟨ihValue, ihElems, ihMembers⟩ := ih
    obtain ⟨sufValue, sufElems, sufMembers⟩ := parse_suffix fuel
    refine ⟨fun d u rem t h fuel' d' rem' hf hd closed => ?_,
      fun d u rem xs h fuel' d' rem' hf hd => ?_, fun d u rem ms h fuel' d' rem' hf hd => ?_⟩
    · -- a value: the space, its first byte `c`, then what `c` starts
      obtain ⟨c, s', hs, br⟩ := parseValue_ok_iff.mp h
      obtain ⟨z, rfl⟩ : rem <:+ s' := by
        rcases br with ⟨-, -, ⟨empty, -⟩ | ⟨-, ms, hm, -⟩⟩ | ⟨-, -, ⟨empty, -⟩ | ⟨-, xs, hx, -⟩⟩ |
          ⟨-, -, hsc⟩
        · exact (List.suffix_cons _ _).trans (empty ▸ skipWs_suffix _)
        · exact (sufMembers _ _ _ _ hm).1
        · exact (List.suffix_cons _ _).trans (empty ▸ skipWs_suffix _)
        · exact (sufElems _ _ _ _ hx).1
        · exact parseScalar_suffix hsc
      obtain ⟨ws, split, stop⟩ := skipWs_eq_cons hs
      obtain rfl : u = ws ++ c :: z := List.append_cancel_right (split.trans (by simp))
      simp only [List.length_append, List.length_cons] at hf
      obtain ⟨f, rfl⟩ : ∃ f, fuel' = f + 1 := ⟨fuel' - 1, by omega⟩
      have hf' : fuel ≤ f ∨ z.length ≤ f := by omega
      rw [List.append_assoc, List.cons_append]
      refine parseValue_ok_iff.mpr ⟨c, z ++ rem', stop _, ?_⟩
      rcases br with ⟨rfl, hd0, ⟨empty, rfl⟩ | ⟨full, ms, hm, rfl⟩⟩ |
        ⟨rfl, hd0, ⟨empty, rfl⟩ | ⟨full, xs, hx, rfl⟩⟩ | ⟨ho, ha, hsc⟩
      · exact .inl ⟨rfl, by omega, .inl ⟨skipWs_frame empty rem', rfl⟩⟩
      · exact .inl ⟨rfl, by omega, .inr ⟨skipWs_ne_frame (sufMembers _ _ _ _ hm).2 full rem', ms,
          ihMembers _ _ _ _ hm f (d' + 1) rem' hf' (by omega), rfl⟩⟩
      · exact .inr (.inl ⟨rfl, by omega, .inl ⟨skipWs_frame empty rem', rfl⟩⟩)
      · exact .inr (.inl ⟨rfl, by omega, .inr ⟨skipWs_ne_frame (sufElems _ _ _ _ hx).2 full rem', xs,
          ihElems _ _ _ _ hx f (d' + 1) rem' hf' (by omega), rfl⟩⟩)
      · exact .inr (.inr ⟨ho, ha, parseScalar_frame hsc closed⟩)
    · -- an element: a value, the space, `,` or `]`, then the next element
      obtain ⟨v, r, c, r', hv, hc, br⟩ := parseElems_ok_iff.mp h
      obtain ⟨w, rfl⟩ : rem <:+ r' := by
        rcases br with ⟨-, xs', hx, -⟩ | ⟨-, rfl, -⟩
        exacts [(sufElems _ _ _ _ hx).1, List.suffix_refl _]
      obtain ⟨ws, rfl, stop⟩ := skipWs_eq_cons hc
      obtain ⟨u1, split⟩ := (sufValue _ _ _ _ hv).1
      obtain rfl : u = u1 ++ (ws ++ c :: w) := List.append_cancel_right (split.symm.trans (by simp))
      rw [← split] at hv
      simp only [List.length_append, List.length_cons] at hf
      obtain ⟨f, rfl⟩ : ∃ f, fuel' = f + 1 := ⟨fuel' - 1, by omega⟩
      have first := ihValue _ _ _ _ hv f d' (ws ++ c :: (w ++ rem')) (by omega) hd
        (.inl (by cases ws <;> rfl))
      simp only [List.append_assoc, List.cons_append]
      refine parseElems_ok_iff.mpr ⟨v, _, c, w ++ rem', first, stop _, ?_⟩
      rcases br with ⟨rfl, xs', hx, rfl⟩ | ⟨rfl, same, rfl⟩
      · exact .inl ⟨rfl, xs', ihElems _ _ _ _ hx f d' rem' (by omega) hd, rfl⟩
      · obtain rfl : w = [] := by simpa using same
        exact .inr ⟨rfl, rfl, rfl⟩
    · -- a member: the space, `"`, the key, the space, `:`, a value, the space, `,` or `}`, then
      -- the next member
      obtain ⟨s1, key, s2, s3, v, r, c, r', hs, hk, hc, hv, hr, br⟩ := parseMembers_ok_iff.mp h
      obtain ⟨w, rfl⟩ : rem <:+ r' := by
        rcases br with ⟨-, ms', hm, -⟩ | ⟨-, rfl, -⟩
        exacts [(sufMembers _ _ _ _ hm).1, List.suffix_refl _]
      obtain ⟨ws4, rfl, stop4⟩ := skipWs_eq_cons hr
      obtain ⟨u3, split3⟩ := (sufValue _ _ _ _ hv).1
      obtain ⟨e, u3, rfl⟩ : ∃ e u3', u3 = e :: u3' := by
        have read := lt_of_lt_of_le (sufValue _ _ _ _ hv).2 (skipWs_suffix _).length_le
        rw [← split3, List.length_append] at read
        exact List.exists_cons_of_ne_nil (by rintro rfl; simp at read)
      obtain ⟨ws3, rfl, stop3⟩ := skipWs_eq_cons (split3.symm.trans (List.cons_append _ _ _))
      obtain ⟨ws2, rfl, stop2⟩ := skipWs_eq_cons hc
      obtain ⟨body, rfl⟩ := scanStr_strBody _ le_rfl hk
      obtain ⟨ws0, split0, stop0⟩ := skipWs_eq_cons hs
      obtain rfl : u = ws0 ++ 0x22 :: (key ++ 0x22 :: (ws2 ++ 0x3A :: (ws3 ++ e :: (u3 ++
          (ws4 ++ c :: w))))) := List.append_cancel_right (split0.trans (by simp))
      rw [stop3] at hv br
      have raw : ∀ x, (e :: (u3 ++ x)).take ((e :: (u3 ++ x)).length - x.length) = e :: u3 :=
        fun x => take_span (e :: u3) x
      rw [raw] at br
      simp only [List.length_append, List.length_cons] at hf
      obtain ⟨f, rfl⟩ : ∃ f, fuel' = f + 1 := ⟨fuel' - 1, by omega⟩
      have value := ihValue d (e :: u3) _ v hv f d' (ws4 ++ c :: (w ++ rem'))
        (by simp only [List.length_cons]; omega) hd (.inl (by cases ws4 <;> rfl))
      simp only [List.append_assoc, List.cons_append]
      refine parseMembers_ok_iff.mpr ⟨_, key, _, _, v, _, c, w ++ rem', stop0 _, scanStr_body body _,
        stop2 _, by rw [stop3]; exact value, stop4 _, ?_⟩
      rw [stop3, raw]
      rcases br with ⟨rfl, ms', hm, rfl⟩ | ⟨rfl, same, rfl⟩
      · exact .inl ⟨rfl, ms', ihMembers _ _ _ _ hm f d' rem' (by omega) hd, rfl⟩
      · obtain rfl : w = [] := by simpa using same
        exact .inr ⟨rfl, rfl, rfl⟩

section Stable

variable {fuel d : Nat} {s u rem : Bytes} {t : JsonValue Bytes}
  {ms : List (Bytes × JsonValue Bytes × Bytes)}

/-- A value is read the same whatever follows it, with as much fuel as it read bytes, unless it is
a number and the byte after it changes. -/
theorem parseValue_frame (h : parseValue fuel d (u ++ rem) = .ok (t, rem)) (rem' : Bytes)
    (closed : rem'.head? = rem.head? ∨ t.isNumber = false) (fuel' : Nat)
    (hf : fuel ≤ fuel' ∨ u.length ≤ fuel') : parseValue fuel' d (u ++ rem') = .ok (t, rem') :=
  (parse_stable fuel).1 d u rem t h fuel' d rem' hf le_rfl closed

/-- Members, which end at their `}`, are read the same whatever follows them. -/
theorem parseMembers_frame (h : parseMembers fuel d (u ++ rem) = .ok (ms, rem)) (rem' : Bytes)
    (fuel' : Nat) (hf : fuel ≤ fuel' ∨ u.length ≤ fuel') :
    parseMembers fuel' d (u ++ rem') = .ok (ms, rem') :=
  (parse_stable fuel).2.2 d u rem ms h fuel' d rem' hf le_rfl

theorem parseMembers_fuel_mono (h : parseMembers fuel d s = .ok (ms, rem)) {fuel' : Nat}
    (hf : fuel ≤ fuel') : parseMembers fuel' d s = .ok (ms, rem) := by
  obtain ⟨u, rfl⟩ := ((parse_suffix fuel).2.2 _ _ _ _ h).1
  exact parseMembers_frame h rem _ (.inl hf)

/-- Members read from inside one more container are read the same from outside it. -/
theorem parseMembers_depth_succ (h : parseMembers fuel (d + 1) s = .ok (ms, rem)) :
    parseMembers fuel d s = .ok (ms, rem) := by
  obtain ⟨u, rfl⟩ := ((parse_suffix fuel).2.2 _ _ _ _ h).1
  exact (parse_stable fuel).2.2 _ u rem ms h fuel d rem (.inl le_rfl) (Nat.le_succ d)

/-- Two reads of the same members agree, whatever their fuel. -/
theorem parseMembers_unique {fuel₁ fuel₂ : Nat} {ms₁ ms₂ : List (Bytes × JsonValue Bytes × Bytes)}
    {rem₁ rem₂ : Bytes} (h₁ : parseMembers fuel₁ d s = .ok (ms₁, rem₁))
    (h₂ : parseMembers fuel₂ d s = .ok (ms₂, rem₂)) : ms₁ = ms₂ ∧ rem₁ = rem₂ := by
  have same := (parseMembers_fuel_mono h₁ (le_max_left fuel₁ fuel₂)).symm.trans
    (parseMembers_fuel_mono h₂ (le_max_right _ _))
  cases same
  exact ⟨rfl, rfl⟩

end Stable

/-- The members of an object the encoder wrote, whose values read back from outside every
container, are read back whole from inside it, if the scanner reads them at all: a value nested
too deep is refused, never read otherwise. -/
theorem parseMembers_commaSep_eq (trips : List (Bytes × Bytes × JsonValue Bytes)) (hne : trips ≠ [])
    (hk : ∀ m ∈ trips, StrBody m.1) (reads : ∀ m ∈ trips, ReadsAs 0 m.2.1 m.2.2) {fuel : Nat}
    {r rem : Bytes} {ms : List (Bytes × JsonValue Bytes × Bytes)}
    (h : parseMembers fuel 1 (commaSep (trips.map fun m => memberText m.1 m.2.1) ++ 0x7D :: r) =
      .ok (ms, rem)) :
    ms = trips.map (fun m => (m.1, m.2.2, m.2.1)) ∧ rem = r :=
  parseMembers_unique (parseMembers_depth_succ h)
    (parseMembers_commaSep trips hne hk reads _ le_rfl r)

/-- What the value reader reads from a `{` is an object. -/
theorem parseValue_brace {fuel d : Nat} {x rem : Bytes} {t : JsonValue Bytes}
    (h : parseValue fuel d (0x7B :: x) = .ok (t, rem)) : ∃ ms, t = .object ms := by
  obtain ⟨f, rfl⟩ : ∃ f, fuel = f + 1 := by
    cases fuel with
    | zero => cases h
    | succ f => exact ⟨f, rfl⟩
  obtain ⟨c, s', hs, br⟩ := parseValue_ok_iff.mp h
  rw [skipWs_cons_of_not_space (by decide)] at hs
  cases hs
  rcases br with ⟨-, -, ⟨-, rfl⟩ | ⟨-, ms, -, rfl⟩⟩ | ⟨no, -⟩ | ⟨no, -⟩
  exacts [⟨_, rfl⟩, ⟨_, rfl⟩, absurd no (by decide), absurd rfl no]

/-- An object the encoder wrote, whose values read back from outside every container, is where
the value reader stops, if it reads it at all. -/
theorem parseValue_jsonObject_rem (trips : List (Bytes × Bytes × JsonValue Bytes))
    (reads : ∀ m ∈ trips, StrBody m.1 ∧ ReadsAs 0 m.2.1 m.2.2) {fuel : Nat} {r rem : Bytes}
    {t : JsonValue Bytes} (h : parseValue fuel 0 (jsonObject (trips.map fun m => (m.1, m.2.1)) ++ r) =
      .ok (t, rem)) : rem = r := by
  obtain ⟨f, rfl⟩ : ∃ f, fuel = f + 1 := by
    cases fuel with
    | zero => cases h
    | succ f => exact ⟨f, rfl⟩
  have text : jsonObject (trips.map fun m => (m.1, m.2.1)) ++ r =
      0x7B :: (commaSep (trips.map fun m => memberText m.1 m.2.1) ++ 0x7D :: r) := by
    simp [jsonObject, memberText, Function.comp_def]
  rw [text] at h
  obtain ⟨c, s', hs, br⟩ := parseValue_ok_iff.mp h
  rw [skipWs_cons_of_not_space (by decide)] at hs
  cases hs
  rcases br with ⟨-, -, ⟨empty, -⟩ | ⟨full, ms, hm, -⟩⟩ | ⟨no, -⟩ | ⟨no, -⟩
  · cases trips with
    | nil =>
      rw [List.map_nil, commaSep, List.nil_append, skipWs_cons_of_not_space (by decide)] at empty
      cases empty
      rfl
    | cons m trips =>
      obtain ⟨rest, hrest⟩ : ∃ rest,
          commaSep ((m :: trips).map fun m => memberText m.1 m.2.1) ++ 0x7D :: r = 0x22 :: rest :=
        ⟨_, rfl⟩
      rw [hrest, skipWs_cons_of_not_space (by decide)] at empty
      cases empty
  · cases trips with
    | nil => exact absurd (skipWs_cons_of_not_space (by decide) r) (full r)
    | cons m trips =>
      exact (parseMembers_commaSep_eq (m :: trips) (List.cons_ne_nil _ _) (fun m mem => (reads m mem).1)
        (fun m mem => (reads m mem).2) hm).2
  · exact absurd no (by decide)
  · exact absurd rfl no

end Telehash.Json
