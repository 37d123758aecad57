/-
# Telehash.Json.Containers -- arrays and objects, written and read back

`arrayEncoder` writes `[`, the elements separated by commas, `]`; `structEncoder` writes `{`, the
members `"name":value` separated by commas, `}` (`jsonArray`, `jsonObject`).  `ReadsAs depth v t`
says that `v` is the text of one value which the scanner, inside `depth` open containers, reads
as the tree `t` whatever delimiter follows it, given as much fuel as `v` has bytes.

* `readsAs_jsonArray`, `readsAs_jsonObject`: containers of such values read back, inside the
  nesting limit;
* `parseMembers_commaSep`: an object's members come back with their keys and the exact text
  of each value, which is what a `json.RawMessage` field is given;
* `readsAs_quote`, `readsAs_formatInt`, `readsAs_true`: the scalars the header encoder writes.
-/
import Telehash.Json.Numbers

namespace Telehash.Json

set_option autoImplicit false

/-! ## Writing -/

/-- Texts separated by commas. -/
def commaSep : List Bytes → Bytes
  | [] => []
  | x :: xs => x ++ xs.flatMap (0x2C :: ·)

theorem commaSep_cons_cons (x y : Bytes) (ys : List Bytes) :
    commaSep (x :: y :: ys) = x ++ 0x2C :: commaSep (y :: ys) := by
  simp [commaSep]

/-- What `arrayEncoder` writes for elements with these texts. -/
def jsonArray (xs : List Bytes) : Bytes := 0x5B :: commaSep xs ++ [0x5D]

/-- What `structEncoder` writes for members with these key contents and value texts. -/
def jsonObject (ms : List (Bytes × Bytes)) : Bytes :=
  0x7B :: commaSep (ms.map fun (k, v) => 0x22 :: k ++ 0x22 :: 0x3A :: v) ++ [0x7D]

/-! ## Reading back -/

/-- `v` is the text of one value that the scanner, inside `depth` open arrays and objects, reads
as `t`, whatever delimiter follows it. -/
structure ReadsAs (depth : Nat) (v : Bytes) (t : JsonValue Bytes) : Prop where
  /-- The text starts with a byte that starts a value. -/
  head : ∃ c w, v = c :: w ∧ isSpace c = false ∧ c ≠ 0x5D ∧ c ≠ 0x7D
  /-- With as much fuel as it has bytes, the scanner reads it and stops at the delimiter. -/
  reads : ∀ fuel, v.length ≤ fuel → ∀ r, Delimited r → parseValue fuel depth (v ++ r) = .ok (t, r)

theorem ReadsAs.skipWs {depth : Nat} {v : Bytes} {t : JsonValue Bytes} (h : ReadsAs depth v t)
    (r : Bytes) : Json.skipWs (v ++ r) = v ++ r := by
  obtain ⟨c, w, rfl, hs, -⟩ := h.head
  exact skipWs_cons_of_not_space hs _

theorem ReadsAs.length_pos {depth : Nat} {v : Bytes} {t : JsonValue Bytes} (h : ReadsAs depth v t) :
    0 < v.length := by
  obtain ⟨c, w, rfl, -⟩ := h.head
  simp

/-- The text of a value neither is nor starts with the end of a container. -/
theorem ReadsAs.not_close {depth : Nat} {v : Bytes} {t : JsonValue Bytes} (h : ReadsAs depth v t)
    (r r' : Bytes) {b : UInt8} (hb : b = 0x5D ∨ b = 0x7D) : Json.skipWs (v ++ r) ≠ b :: r' := by
  obtain ⟨c, w, rfl, hs, h5, h7⟩ := h.head
  rw [List.cons_append, skipWs_cons_of_not_space hs]
  intro he
  cases he
  exact hb.elim h5 h7

/-- `[` opens an array, inside the nesting limit, unless `]` closes it at once. -/
theorem parseValue_array {depth : Nat} (hd : depth < maxNestingDepth) (fuel : Nat) {s : Bytes}
    (hs : ∀ r, skipWs s ≠ 0x5D :: r) :
    parseValue (fuel + 1) depth (0x5B :: s) =
      (parseElems fuel (depth + 1) s).map fun (xs, r) => (.array xs, r) := by
  rw [parseValue, skipWs_cons_of_not_space (by decide)]
  dsimp only
  rw [if_neg (by decide), if_pos rfl, if_pos hd]
  split
  · exact absurd ‹_› (hs _)
  · rfl

/-- `{` opens an object, inside the nesting limit, unless `}` closes it at once. -/
theorem parseValue_object {depth : Nat} (hd : depth < maxNestingDepth) (fuel : Nat) {s : Bytes}
    (hs : ∀ r, skipWs s ≠ 0x7D :: r) :
    parseValue (fuel + 1) depth (0x7B :: s) =
      (parseMembers fuel (depth + 1) s).map fun (ms, r) =>
        (.object (ms.map fun (k, v, _) => (k, v)), r) := by
  rw [parseValue, skipWs_cons_of_not_space (by decide)]
  dsimp only
  rw [if_pos rfl, if_pos hd]
  split
  · exact absurd ‹_› (hs _)
  · rfl

theorem delimited_comma (r : Bytes) : Delimited (0x2C :: r) := .inr ⟨_, _, rfl, .inl rfl⟩
theorem delimited_bracket (r : Bytes) : Delimited (0x5D :: r) := .inr ⟨_, _, rfl, .inr (.inl rfl)⟩

section Elements

variable {depth : Nat}

/-- The elements after `[`, each read by `parseElems` in turn. -/
theorem parseElems_commaSep (xs : List (Bytes × JsonValue Bytes)) (hne : xs ≠ [])
    (h : ∀ p ∈ xs, ReadsAs depth p.1 p.2) (fuel : Nat)
    (hf : (commaSep (xs.map Prod.fst)).length + 1 ≤ fuel) (r : Bytes) :
    parseElems fuel depth (commaSep (xs.map Prod.fst) ++ 0x5D :: r) = .ok (xs.map Prod.snd, r) := by
  induction xs generalizing fuel with
  | nil => exact absurd rfl hne
  | cons x xs ih =>
    obtain ⟨f, rfl⟩ : ∃ f, fuel = f + 1 := ⟨fuel - 1, by omega⟩
    have hx := h x (List.mem_cons_self x xs)
    cases xs with
    | nil =>
      simp only [List.map_cons, List.map_nil, commaSep, List.flatMap_nil, List.append_nil] at hf ⊢
      rw [parseElems, hx.reads f (by omega) _ (delimited_bracket r)]
      dsimp only
      rw [skipWs_cons_of_not_space (by decide)]
      rfl
    | cons y ys =>
      have tail := ih (by simp) (fun p hp => h p (List.mem_cons_of_mem x hp))
      simp only [List.map_cons, commaSep_cons_cons, List.length_append, List.length_cons] at hf tail ⊢
      rw [List.append_assoc, List.cons_append, parseElems, hx.reads f (by omega) _ (delimited_comma _)]
      dsimp only
      rw [skipWs_cons_of_not_space (by decide)]
      dsimp only
      rw [if_pos rfl, tail f (by omega)]
      rfl

/-- An array of such elements, inside the nesting limit. -/
theorem readsAs_jsonArray (xs : List (Bytes × JsonValue Bytes)) (hd : depth < maxNestingDepth)
    (h : ∀ p ∈ xs, ReadsAs (depth + 1) p.1 p.2) :
    ReadsAs depth (jsonArray (xs.map Prod.fst)) (.array (xs.map Prod.snd)) := by
  refine ⟨⟨_, _, rfl, by decide, by decide, by decide⟩, fun fuel hf r _ => ?_⟩
  obtain ⟨f, rfl⟩ : ∃ f, fuel = f + 1 := ⟨fuel - 1, by simp [jsonArray] at hf; omega⟩
  simp only [jsonArray, List.length_cons, List.length_append, List.length_singleton] at hf
  simp only [jsonArray, List.cons_append, List.append_assoc, List.singleton_append, List.nil_append]
  cases xs with
  | nil => simp [parseValue, commaSep, skipWs, isSpace, hd]
  | cons x xs =>
    have hx := h x (List.mem_cons_self x xs)
    have e : commaSep ((x :: xs).map Prod.fst) ++ 0x5D :: r =
        x.1 ++ ((xs.map Prod.fst).flatMap (0x2C :: ·) ++ 0x5D :: r) := by
      simp [commaSep]
    rw [parseValue_array hd f (by rw [e]; exact fun r' => hx.not_close _ r' (.inl rfl)),
      parseElems_commaSep (x :: xs) (List.cons_ne_nil _ _) h f (by omega)]
    rfl

end Elements

section Members

variable {depth : Nat}

/-- The text of one member. -/
def memberText (k v : Bytes) : Bytes := 0x22 :: k ++ 0x22 :: 0x3A :: v

theorem length_memberText (k v : Bytes) : (memberText k v).length = k.length + v.length + 3 := by
  simp [memberText]; omega

/-- The bytes a value was read from, cut out of the input by what is left after it. -/
theorem take_span (v r : Bytes) : (v ++ r).take ((v ++ r).length - r.length) = v :=
  List.take_left' (by simp)

/-- One member, up to the delimiter after its value. -/
theorem parseMembers_member {k v : Bytes} {t : JsonValue Bytes} (hk : StrBody k)
    (hv : ReadsAs depth v t) (fuel : Nat) (hf : v.length ≤ fuel) (c : UInt8) (r : Bytes)
    (hc : c = 0x2C ∨ c = 0x7D) :
    parseMembers (fuel + 1) depth (memberText k v ++ c :: r) =
      if c = 0x2C then (parseMembers fuel depth r).map fun (ms, r) => ((k, t, v) :: ms, r)
      else if c = 0x7D then .ok ([(k, t, v)], r)
      else .error (.syntaxError c) := by
  have hr : Delimited (c :: r) := .inr ⟨c, r, rfl, hc.imp_right .inr⟩
  have hcs : isSpace c = false := by rcases hc with rfl | rfl <;> rfl
  simp only [memberText, List.cons_append, List.append_assoc]
  rw [parseMembers, skipWs_cons_of_not_space (by decide)]
  dsimp only
  rw [if_neg (by decide), scanStr_body hk]
  dsimp only
  rw [skipWs_cons_of_not_space (by decide)]
  dsimp only
  rw [if_neg (by decide), hv.skipWs, hv.reads fuel hf _ hr]
  dsimp only
  rw [take_span, skipWs_cons_of_not_space hcs]

/-- The members after `{` or `,`, each read by `parseMembers` in turn with its key and the exact
text of its value. -/
theorem parseMembers_commaSep (ms : List (Bytes × Bytes × JsonValue Bytes)) (hne : ms ≠ [])
    (hk : ∀ m ∈ ms, StrBody m.1) (h : ∀ m ∈ ms, ReadsAs depth m.2.1 m.2.2) (fuel : Nat)
    (hf : (commaSep (ms.map fun m => memberText m.1 m.2.1)).length + 1 ≤ fuel) (r : Bytes) :
    parseMembers fuel depth (commaSep (ms.map fun m => memberText m.1 m.2.1) ++ 0x7D :: r) =
      .ok (ms.map fun m => (m.1, m.2.2, m.2.1), r) := by
  induction ms generalizing fuel with
  | nil => exact absurd rfl hne
  | cons m ms ih =>
    obtain ⟨f, rfl⟩ : ∃ f, fuel = f + 1 := ⟨fuel - 1, by omega⟩
    have hm := parseMembers_member (hk m (List.mem_cons_self m ms)) (h m (List.mem_cons_self m ms)) f
    cases ms with
    | nil =>
      simp only [List.map_cons, List.map_nil, commaSep, List.flatMap_nil, List.append_nil,
        length_memberText] at hf ⊢
      rw [hm (by omega) _ r (.inr rfl)]
      rfl
    | cons m' ms =>
      have tail := ih (List.cons_ne_nil _ _) (fun p hp => hk p (List.mem_cons_of_mem m hp))
        (fun p hp => h p (List.mem_cons_of_mem m hp))
      simp only [List.map_cons, commaSep_cons_cons, List.length_append, List.length_cons,
        length_memberText] at hf tail ⊢
      rw [List.append_assoc, List.cons_append, hm (by omega) _ _ (.inl rfl), if_pos rfl,
        tail f (by omega)]
      rfl

/-- An object of such members, inside the nesting limit, is read whatever follows it: it ends
with its own `}`. -/
theorem parseValue_jsonObject (ms : List (Bytes × Bytes × JsonValue Bytes)) (hd : depth < maxNestingDepth)
    (hk : ∀ m ∈ ms, StrBody m.1) (h : ∀ m ∈ ms, ReadsAs (depth + 1) m.2.1 m.2.2) (fuel : Nat)
    (hf : (jsonObject (ms.map fun m => (m.1, m.2.1))).length ≤ fuel) (r : Bytes) :
    parseValue fuel depth (jsonObject (ms.map fun m => (m.1, m.2.1)) ++ r) =
      .ok (.object (ms.map fun m => (m.1, m.2.2)), r) := by
  obtain ⟨f, rfl⟩ : ∃ f, fuel = f + 1 := ⟨fuel - 1, by simp [jsonObject] at hf; omega⟩
  have e : (ms.map fun m => (m.1, m.2.1)).map (fun (k, v) => 0x22 :: k ++ 0x22 :: 0x3A :: v) =
      ms.map fun m => memberText m.1 m.2.1 := by
    simp [memberText]
  simp only [jsonObject, e, List.length_cons, List.length_append, List.length_singleton] at hf ⊢
  simp only [List.cons_append, List.append_assoc, List.singleton_append]
  cases ms with
  | nil => simp [parseValue, commaSep, skipWs, isSpace, hd]
  | cons m ms =>
    rw [parseValue_object hd f (by simp [commaSep, memberText, skipWs, isSpace]),
      parseMembers_commaSep (m :: ms) (List.cons_ne_nil _ _) hk h f (by omega)]
    simp only [Except.map, List.map_map]
    rfl

theorem readsAs_jsonObject (ms : List (Bytes × Bytes × JsonValue Bytes)) (hd : depth < maxNestingDepth)
    (hk : ∀ m ∈ ms, StrBody m.1) (h : ∀ m ∈ ms, ReadsAs (depth + 1) m.2.1 m.2.2) :
    ReadsAs depth (jsonObject (ms.map fun m => (m.1, m.2.1))) (.object (ms.map fun m => (m.1, m.2.2))) :=
  ⟨⟨_, _, rfl, by decide, by decide, by decide⟩, fun fuel hf r _ => parseValue_jsonObject ms hd hk h fuel hf r⟩

end Members

/-! ## Scalars -/

theorem readsAs_quote (s : String) (depth : Nat) : ReadsAs depth (quote s) (.string (quoteBody s)) :=
  ⟨⟨_, _, rfl, by decide, by decide, by decide⟩, fun fuel hf r _ => by
    obtain ⟨f, rfl⟩ : ∃ f, fuel = f + 1 := ⟨fuel - 1, by simp [quote] at hf; omega⟩
    exact parseValue_quote s r f depth⟩

/-- A digit neither is space nor ends a container. -/
theorem isDigit_not_delim {c : UInt8} (hd : isDigit c = true) :
    isSpace c = false ∧ c ≠ 0x5D ∧ c ≠ 0x7D := by
  simp only [isDigit, Bool.and_eq_true, decide_eq_true_eq] at hd
  refine ⟨?_, ?_, ?_⟩ <;> simp [isSpace, UInt8.ext_iff, UInt8.size] <;> omega

theorem formatInt_head (i : Int) :
    ∃ c w, formatInt i = c :: w ∧ isSpace c = false ∧ c ≠ 0x5D ∧ c ≠ 0x7D := by
  unfold formatInt
  split_ifs
  · exact ⟨_, _, rfl, by decide, by decide, by decide⟩
  · obtain ⟨d, t, e, -⟩ := decimal_eq_cons i.toNat
    exact ⟨d, t, e, isDigit_not_delim (decimal_digits _ d (by rw [e]; exact List.mem_cons_self _ _))⟩

theorem readsAs_formatInt (i : Int) (depth : Nat) : ReadsAs depth (formatInt i) (.number (formatInt i)) := by
  obtain ⟨c, w, e, hc⟩ := formatInt_head i
  refine ⟨⟨c, w, e, hc⟩, fun fuel hf r hr => ?_⟩
  obtain ⟨f, rfl⟩ : ∃ f, fuel = f + 1 := ⟨fuel - 1, by rw [e, List.length_cons] at hf; omega⟩
  exact parseValue_formatInt i hr f depth

/-- The literal `true`, which the encoder writes for a set `bool` field. -/
def trueText : Bytes := [0x74, 0x72, 0x75, 0x65]

/-- The literal `false`. -/
def falseText : Bytes := [0x66, 0x61, 0x6C, 0x73, 0x65]

/-- The literal `null`, which the encoder writes for a nil pointer or slice. -/
def nullText : Bytes := [0x6E, 0x75, 0x6C, 0x6C]

theorem readsAs_true (depth : Nat) : ReadsAs depth trueText (.bool true) :=
  ⟨⟨_, _, rfl, by decide, by decide, by decide⟩, fun fuel hf r _ => by
    obtain ⟨f, rfl⟩ : ∃ f, fuel = f + 1 := ⟨fuel - 1, by simp [trueText] at hf; omega⟩
    rfl⟩

end Telehash.Json
