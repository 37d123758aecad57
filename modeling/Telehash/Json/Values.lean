/-
# Telehash.Json.Values -- the trees the scanner returns

What `parseValue` returns is more than any `JsonValue`: the content of every string and key is
one the string scanner accepts (`StrBody`), every number literal is one the scanner reads back
whole when a delimiter follows it, and the nesting stays inside the limit, counted from the depth
the scanner started at.  `Wf` states the first two and `JsonValue.depth` measures the third.

* `scanNumber_append`: a literal the number scanner stopped reading is read the same way before
  any delimiter;
* `parse_fits`: whatever the scanner returns from inside `depth` open containers is `Wf` and
  nests at most `maxNestingDepth - depth` deep.  The value, element and member readers call each
  other with one unit of fuel less, so one induction on the fuel carries all three.
-/
import Telehash.Json.Containers

namespace Telehash.Json

set_option autoImplicit false

/-! ## Nesting -/

/-- How many arrays and objects nest at the deepest point of a value. -/
def JsonValue.depth {σ : Type} : JsonValue σ → Nat
  | .array xs => depthElems xs + 1
  | .object ms => depthMembers ms + 1
  | _ => 0
where
  depthElems : List (JsonValue σ) → Nat
    | [] => 0
    | x :: xs => max x.depth (depthElems xs)
  depthMembers : List (σ × JsonValue σ) → Nat
    | [] => 0
    | (_, v) :: ms => max v.depth (depthMembers ms)

section Depth

variable {σ : Type} {n : Nat}

theorem depthElems_le {xs : List (JsonValue σ)} :
    JsonValue.depth.depthElems xs ≤ n ↔ ∀ x ∈ xs, x.depth ≤ n := by
  induction xs with
  | nil => simp [JsonValue.depth.depthElems]
  | cons x xs ih => simp [JsonValue.depth.depthElems, ih]

theorem depthMembers_le {ms : List (σ × JsonValue σ)} :
    JsonValue.depth.depthMembers ms ≤ n ↔ ∀ m ∈ ms, m.2.depth ≤ n := by
  induction ms with
  | nil => simp [JsonValue.depth.depthMembers]
  | cons m ms ih => obtain ⟨k, v⟩ := m; simp [JsonValue.depth.depthMembers, ih]

@[simp] theorem depth_array (xs : List (JsonValue σ)) :
    (JsonValue.array xs).depth = JsonValue.depth.depthElems xs + 1 := rfl

@[simp] theorem depth_object (ms : List (σ × JsonValue σ)) :
    (JsonValue.object ms).depth = JsonValue.depth.depthMembers ms + 1 := rfl

end Depth

/-! ## Passing strings through a function -/

section Map

variable {σ τ : Type} (f : σ → τ)

theorem mapElems_eq (xs : List (JsonValue σ)) : JsonValue.map.mapElems f xs = xs.map (·.map f) := by
  induction xs with
  | nil => rfl
  | cons x xs ih => simp only [JsonValue.map.mapElems, ih, List.map_cons]

theorem mapMembers_eq (ms : List (σ × JsonValue σ)) :
    JsonValue.map.mapMembers f ms = ms.map fun m => (f m.1, m.2.map f) := by
  induction ms with
  | nil => rfl
  | cons m ms ih => obtain ⟨k, v⟩ := m; simp only [JsonValue.map.mapMembers, ih, List.map_cons]

@[simp] theorem map_array (xs : List (JsonValue σ)) :
    (JsonValue.array xs).map f = .array (xs.map (·.map f)) := by
  rw [JsonValue.map, mapElems_eq]

@[simp] theorem map_object (ms : List (σ × JsonValue σ)) :
    (JsonValue.object ms).map f = .object (ms.map fun m => (f m.1, m.2.map f)) := by
  rw [JsonValue.map, mapMembers_eq]

end Map

/-! ## Well-formed trees -/

/-- A tree the scanner can return: string contents and keys it accepts, and number literals it
reads back whole before a delimiter, from any depth. -/
inductive Wf : JsonValue Bytes → Prop where
  | null : Wf .null
  | bool (b : Bool) : Wf (.bool b)
  | number {lit : Bytes} : (∀ depth, ReadsAs depth lit (.number lit)) → Wf (.number lit)
  | string {raw : Bytes} : StrBody raw → Wf (.string raw)
  | array {xs : List (JsonValue Bytes)} : (∀ x ∈ xs, Wf x) → Wf (.array xs)
  | object {ms : List (Bytes × JsonValue Bytes)} : (∀ m ∈ ms, StrBody m.1) → (∀ m ∈ ms, Wf m.2) →
      Wf (.object ms)

/-- What the scanner returns from inside `depth` open arrays and objects: a well-formed tree with
room for its nesting. -/
def Fits (depth : Nat) (v : JsonValue Bytes) : Prop := Wf v ∧ depth + v.depth ≤ maxNestingDepth

/-! ## Numbers read again -/

/-- A literal the number scanner stopped reading is read the same, and left at once, before any
delimiter. -/
theorem scanNumber_append {q : NumState} {s b r : Bytes} (h : scanNumber q s = .ok (b, r))
    {r' : Bytes} (hr : Delimited r') : scanNumber q (b ++ r') = .ok (b, r') := by
  induction s generalizing q b with
  | nil =>
    simp only [scanNumber] at h
    split_ifs at h with hq
    cases h
    exact scanNumber_final hq hr
  | cons c s ih =>
    rw [scanNumber_cons] at h
    rcases hn : q.next c with _ | q'
    · rw [hn] at h
      dsimp only at h
      split_ifs at h with hq
      cases h
      exact scanNumber_final hq hr
    · rw [hn] at h
      obtain ⟨b', h', rfl⟩ := consRead_ok h
      rw [List.cons_append, scanNumber_cons, hn]
      dsimp only
      rw [ih h']
      rfl

theorem map_eq_ok {ε α β : Type} {f : α → β} {x : Except ε α} {y : β} (h : x.map f = .ok y) :
    ∃ a, x = .ok a ∧ f a = y := by
  cases x with
  | error e => cases h
  | ok a => exact ⟨a, rfl, by cases h; rfl⟩

/-- A number the scanner read, from a first byte `c` whose scanner state is `q`, is read back
whole from any depth. -/
theorem readsAs_number {c : UInt8} (q : NumState) {s b r : Bytes}
    (hc : isSpace c = false ∧ c ≠ 0x5D ∧ c ≠ 0x7D ∧ c ≠ 0x7B ∧ c ≠ 0x5B)
    (hq : ∀ s', parseScalar c s' = (scanNumber q s').map fun (b, r) => (.number (c :: b), r))
    (h : scanNumber q s = .ok (b, r)) (depth : Nat) : ReadsAs depth (c :: b) (.number (c :: b)) := by
  obtain ⟨hs, h5D, h7D, h7B, h5B⟩ := hc
  refine ⟨⟨c, b, rfl, hs, h5D, h7D⟩, fun fuel hf r' hr' => ?_⟩
  obtain ⟨f, rfl⟩ : ∃ f, fuel = f + 1 := ⟨fuel - 1, by simp at hf; omega⟩
  rw [List.cons_append, parseValue_scalar hs h7B h5B, hq, scanNumber_append h hr']
  rfl

/-! ## What the scanner returns -/

/-- A scalar the scanner read is well-formed and nests nothing. -/
theorem parseScalar_wf {c : UInt8} {s r : Bytes} {v : JsonValue Bytes}
    (h : parseScalar c s = .ok (v, r)) : Wf v ∧ v.depth = 0 := by
  have literal : ∀ {w : JsonValue Bytes} {x : Except JsonError Bytes}, Wf w → w.depth = 0 →
      (x.map fun r => (w, r)) = .ok (v, r) → Wf v ∧ v.depth = 0 := fun wf d h => by
    obtain ⟨_, -, e⟩ := map_eq_ok h; cases e; exact ⟨wf, d⟩
  unfold parseScalar at h
  by_cases h22 : c = 0x22
  · rw [if_pos h22] at h
    obtain ⟨⟨b, r'⟩, hs, e⟩ := map_eq_ok h
    cases e
    exact ⟨.string (scanStr_strBody _ le_rfl hs).1, rfl⟩
  rw [if_neg h22] at h
  by_cases h2D : c = 0x2D
  · rw [if_pos h2D] at h
    subst h2D
    obtain ⟨⟨b, r'⟩, hs, e⟩ := map_eq_ok h
    cases e
    exact ⟨.number (readsAs_number .neg (by decide) (fun _ => rfl) hs), rfl⟩
  rw [if_neg h2D] at h
  by_cases h30 : c = 0x30
  · rw [if_pos h30] at h
    subst h30
    obtain ⟨⟨b, r'⟩, hs, e⟩ := map_eq_ok h
    cases e
    exact ⟨.number (readsAs_number .zero (by decide) (fun _ => rfl) hs), rfl⟩
  rw [if_neg h30] at h
  by_cases hd : isDigit c = true
  · rw [if_pos hd] at h
    obtain ⟨⟨b, r'⟩, hs, e⟩ := map_eq_ok h
    cases e
    obtain ⟨hsp, h5D, h7D⟩ := isDigit_not_delim hd
    have h7B : c ≠ 0x7B := by rintro rfl; exact absurd hd (by decide)
    have h5B : c ≠ 0x5B := by rintro rfl; exact absurd hd (by decide)
    exact ⟨.number (readsAs_number .int ⟨hsp, h5D, h7D, h7B, h5B⟩ (parseScalar_digit hd h30) hs), rfl⟩
  rw [if_neg hd] at h
  by_cases h74 : c = 0x74
  · rw [if_pos h74] at h; exact literal (.bool true) rfl h
  rw [if_neg h74] at h
  by_cases h66 : c = 0x66
  · rw [if_pos h66] at h; exact literal (.bool false) rfl h
  rw [if_neg h66] at h
  by_cases h6E : c = 0x6E
  · rw [if_pos h6E] at h; exact literal .null rfl h
  rw [if_neg h6E] at h
  cases h

/-- An object whose keys the string scanner accepts and whose values fit one level further in. -/
theorem fits_object {depth : Nat} (hd : depth < maxNestingDepth)
    {ms : List (Bytes × JsonValue Bytes × Bytes)} (members : ∀ m ∈ ms, StrBody m.1 ∧ Fits (depth + 1) m.2.1) :
    Fits depth (.object (ms.map fun m => (m.1, m.2.1))) := by
  refine ⟨.object ?_ ?_, ?_⟩
  · simp only [List.forall_mem_map]
    exact fun m mem => (members m mem).1
  · simp only [List.forall_mem_map]
    exact fun m mem => (members m mem).2.1
  · have : JsonValue.depth.depthMembers (ms.map fun m => (m.1, m.2.1)) ≤ maxNestingDepth - (depth + 1) :=
      depthMembers_le.mpr (List.forall_mem_map.mpr fun m mem => by have := (members m mem).2.2; dsimp only; omega)
    simp only [depth_object]
    omega

/-- An array whose elements fit one level further in. -/
theorem fits_array {depth : Nat} (hd : depth < maxNestingDepth) {xs : List (JsonValue Bytes)}
    (elems : ∀ x ∈ xs, Fits (depth + 1) x) : Fits depth (.array xs) := by
  refine ⟨.array fun x mem => (elems x mem).1, ?_⟩
  have : JsonValue.depth.depthElems xs ≤ maxNestingDepth - (depth + 1) :=
    depthElems_le.mpr fun x mem => by have := (elems x mem).2; omega
  simp only [depth_array]
  omega

/-- Whatever the scanner returns from inside `depth` open containers fits there: the value
reader, the element reader and the member reader, by one induction on the fuel. -/
theorem parse_fits (fuel : Nat) :
    (∀ depth s v r, depth ≤ maxNestingDepth → parseValue fuel depth s = .ok (v, r) →
      Fits depth v) ∧
    (∀ depth s xs r, depth ≤ maxNestingDepth → parseElems fuel depth s = .ok (xs, r) →
      ∀ x ∈ xs, Fits depth x) ∧
    (∀ depth s ms r, depth ≤ maxNestingDepth → parseMembers fuel depth s = .ok (ms, r) →
      ∀ m ∈ ms, StrBody m.1 ∧ Fits depth m.2.1) := by
  induction fuel with
  | zero => refine ⟨?_, ?_, ?_⟩ <;> intro _ _ _ _ _ h <;> cases h
  | succ fuel ih =>
    obtain ⟨ihValue, ihElems, ihMembers⟩ := ih
    refine ⟨fun depth s v r hd h => ?_, fun depth s xs r hd h => ?_, fun depth s ms r hd h => ?_⟩
    · simp only [parseValue] at h
      split at h
      · cases h
      rename_i c s' _
      by_cases ho : c = 0x7B
      · rw [if_pos ho] at h
        split_ifs at h with hdo
        split at h
        · cases h
          exact @fits_object _ hdo [] fun m mem => absurd mem (List.not_mem_nil m)
        · obtain ⟨⟨ms, r'⟩, hm, e⟩ := map_eq_ok h
          cases e
          exact fits_object hdo (ihMembers (depth + 1) _ _ _ (by omega) hm)
      rw [if_neg ho] at h
      by_cases ha : c = 0x5B
      · rw [if_pos ha] at h
        split_ifs at h with hda
        split at h
        · cases h
          exact @fits_array _ hda [] fun x mem => absurd mem (List.not_mem_nil x)
        · obtain ⟨⟨xs, r'⟩, hx, e⟩ := map_eq_ok h
          cases e
          exact fits_array hda (ihElems (depth + 1) _ _ _ (by omega) hx)
      rw [if_neg ha] at h
      obtain ⟨wf, flat⟩ := parseScalar_wf h
      exact ⟨wf, by omega⟩
    · simp only [parseElems] at h
      split at h
      · cases h
      rename_i v r' hv
      have first := ihValue depth _ _ _ hd hv
      split at h
      · cases h
      split_ifs at h
      · obtain ⟨⟨xs', r''⟩, hx, e⟩ := map_eq_ok h
        cases e
        intro x mem
        rcases List.mem_cons.mp mem with rfl | mem
        · exact first
        · exact ihElems depth _ _ _ hd hx x mem
      · cases h
        intro x mem
        rw [List.mem_singleton.mp mem]
        exact first
    · simp only [parseMembers] at h
      split at h
      · cases h
      split_ifs at h with hq
      split at h
      · cases h
      rename_i key s' hk
      have keyBody := (scanStr_strBody _ le_rfl hk).1
      split at h
      · cases h
      split_ifs at h with hc
      split at h
      · cases h
      rename_i v r' hv
      have first := ihValue depth _ _ _ hd hv
      split at h
      · cases h
      split_ifs at h
      · obtain ⟨⟨ms', r''⟩, hm, e⟩ := map_eq_ok h
        cases e
        intro m mem
        rcases List.mem_cons.mp mem with rfl | mem
        · exact ⟨keyBody, first⟩
        · exact ihMembers depth _ _ _ hd hm m mem
      · cases h
        intro m mem
        rw [List.mem_singleton.mp mem]
        exact ⟨keyBody, first⟩

end Telehash.Json
