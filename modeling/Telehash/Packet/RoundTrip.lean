/-
# Telehash.Packet.RoundTrip -- what `parse_pkt` makes of `format_pkt`'s frames

The encoder writes each field of `pkt_hdr_t` that `omitempty` keeps as its key and its value's
text; the scanner reads each text back as one value (`FieldKind.decode_encode`), the decoder
finds the field by its key and stores the value into it.  A field the encoder left out stays at
its zero value, and a written field comes back as it was, but for the raw `_`, which comes back
as `appendCompact` wrote it: the header the decoder builds is `PktHdr.onWire` of the original.

* `decodeHdr_encode`: the encoded header decodes to `onWire` of the original, when the raw `_`
  nests less deep than the limit (the header object around it takes one level);
* `parsePkt_formatPkt_eq`: so a frame whose header, newline included, is shorter than 64 KiB
  parses back to that header and the same body;
* `parsePkt_formatPkt`: field by field that is the original header, a nil slice taken as an
  empty one and the raw `_` compared as the JSON value it holds;
* `parsePkt_formatPkt_sound`: whatever the packet, what `parse_pkt` makes of its frame, when it
  makes a packet at all, is that header on the wire and that body.  Read from outside every
  container each member of the encoded object is what the encoder wrote
  (`FieldKind.shallow_zero`), so a member the decoder walks is that member, and a prefix of the
  encoded header never ends a value (`decodeHdr_take_refused`);
* `justAck_survives_codec`: the pure-ack test gives the same answer on both sides, unless `see` is
  an empty slice that is not nil, which the encoder leaves out and the decoder reads as nil
  (`emptySee_becomes_justAck`).

A raw `_` as deep as `appendCompact` allows is one level too deep inside the header object, and
its frame never parses (`deepPkt_not_parsed`); a header of exactly 64 KiB with its newline is
framed with length 0 and no longer parses (`longTypePkt_not_parsed`).
-/
import Telehash.Packet.Codec

namespace Telehash

open Json

set_option autoImplicit false

/-! ## Integers -/

theorem toInt_bounds (n : GoInt) : -2 ^ 63 ≤ n.toInt ∧ n.toInt < 2 ^ 63 := by
  rw [BitVec.toInt_eq_toNat_cond]
  have := n.isLt
  split <;> omega

theorem ofInt_toInt (n : GoInt) : BitVec.ofInt 64 n.toInt = n := by
  apply BitVec.eq_of_toNat_eq
  rw [BitVec.toNat_ofInt, BitVec.toInt_eq_toNat_cond]
  have := n.isLt
  split <;> omega

/-! ## Decoding what was encoded, one Go type at a time -/

theorem decodeInt_formatInt (type field : String) (n : GoInt) (old : GoInt) :
    decodeInt type field (.number (formatInt n.toInt)) old = .ok n := by
  simp only [decodeInt, parseInt_formatInt n.toInt (toInt_bounds n).1 (toInt_bounds n).2, ofInt_toInt]

theorem decodeString_quote (field s old : String) :
    decodeString field (.string (quoteBody s)) old = .ok s := by
  simp only [decodeString, unquote_quoteBody]

/-- Elements that each decode to themselves, whatever the old slice held. -/
theorem decodeElems_map {α : Type} {zero : α} {dec : JsonValue Bytes → α → Except JsonError α}
    {enc : α → JsonValue Bytes} (h : ∀ x old, dec (enc x) old = .ok x) (xs : List α) (old : List α) :
    decodeElems zero dec (xs.map enc) old = .ok xs := by
  induction xs generalizing old with
  | nil => rfl
  | cons x xs ih => simp only [List.map_cons, decodeElems, h, ih, Except.bind, Except.map]

namespace FieldKind

/-- The zero value of each Go type, which a fresh `pkt_hdr_t` holds. -/
def zero : (k : FieldKind) → k.Ty
  | .string => ""
  | .int64 => 0
  | .int => 0
  | .intPtr => none
  | .ints => none
  | .bool => false
  | .strings => none
  | .raw => []

/-- The value a written field comes back with: itself, but for the raw document, which comes back
as `appendCompact` wrote it. -/
def wire : (k : FieldKind) → k.Ty → k.Ty
  | .raw, m => match compact m with
    | .ok text => text
    | .error _ => m
  | _, x => x

/-- A raw document leaves room for `depth` levels of nesting around it. -/
def Shallow (depth : Nat) : (k : FieldKind) → k.Ty → Prop
  | .raw, m => ∀ v, parseDocument m = .ok v → depth + v.depth ≤ maxNestingDepth
  | _, _ => True

/-- Every document `appendCompact` accepts fits where it stands. -/
theorem shallow_zero (k : FieldKind) (x : k.Ty) : k.Shallow 0 x := by
  cases k <;> first | trivial | exact fun v hv => (parseDocument_fits hv).2

/-- What the encoder writes for a field it keeps is read back as one value, inside `depth` open
containers, and decoded to the field's value on the wire, whatever the field held before. -/
theorem decode_encode (k : FieldKind) (name : String) {depth : Nat} (room : depth < maxNestingDepth)
    {x : k.Ty} {text : Bytes} (kept : k.isEmpty x = false) (shallow : k.Shallow depth x)
    (enc : k.encode x = .ok text) :
    ∃ t, ReadsAs depth text t ∧ ∀ old, k.decode name t text old = .ok (k.wire x) := by
  cases k with
  | string =>
    cases enc
    exact ⟨_, readsAs_quote x depth, fun old => decodeString_quote name x old⟩
  | int64 =>
    cases enc
    exact ⟨_, readsAs_formatInt _ depth, fun old => decodeInt_formatInt _ name x old⟩
  | int =>
    cases enc
    exact ⟨_, readsAs_formatInt _ depth, fun old => decodeInt_formatInt _ name x old⟩
  | intPtr =>
    obtain ⟨n, rfl⟩ := Option.isSome_iff_exists.mp (by simpa [isEmpty] using kept)
    cases enc
    exact ⟨_, readsAs_formatInt _ depth, fun old => by
      simp only [decode, decodeIntPtr, decodeInt_formatInt, Except.map]; rfl⟩
  | ints =>
    obtain ⟨xs, rfl⟩ := Option.ne_none_iff_exists'.mp (show x ≠ none by rintro rfl; cases kept)
    cases enc
    have texts := readsAs_jsonArray (xs.map fun n => (formatInt n.toInt, .number (formatInt n.toInt)))
      room (List.forall_mem_map.mpr fun n _ => readsAs_formatInt _ (depth + 1))
    simp only [List.map_map, Function.comp_def] at texts
    exact ⟨_, texts, fun old => by
      simp only [decode, decodeSlice]
      rw [decodeElems_map (fun n old => decodeInt_formatInt _ name n old)]
      rfl⟩
  | bool =>
    obtain rfl : x = true := by simpa [isEmpty] using kept
    cases enc
    exact ⟨_, readsAs_true depth, fun old => rfl⟩
  | strings =>
    obtain ⟨xs, rfl⟩ := Option.ne_none_iff_exists'.mp (show x ≠ none by rintro rfl; cases kept)
    cases enc
    have texts := readsAs_jsonArray (xs.map fun s => (quote s, .string (quoteBody s)))
      room (List.forall_mem_map.mpr fun s _ => readsAs_quote s (depth + 1))
    simp only [List.map_map, Function.comp_def] at texts
    exact ⟨_, texts, fun old => by
      simp only [decode, decodeSlice]
      rw [decodeElems_map (fun s old => decodeString_quote name s old)]
      rfl⟩
  | raw =>
    replace enc : compact x = .ok text := by rwa [encode, if_neg (by simpa [isEmpty] using kept)] at enc
    obtain ⟨t, ht⟩ := readsAs_compact enc shallow
    exact ⟨t, ht, fun old => by simp only [decode, wire, enc]⟩

end FieldKind

/-! ## The whole header -/

theorem unquote_key (f : HdrField) : unquote f.key = some f.name := unquote_quoteBody f.name

/-- Each field is found by its own name. -/
theorem fieldOf_name (f : HdrField) : fieldOf f.name = some f := by cases f <;> rfl

namespace PktHdr

/-- The header after the decoder has stored field `f` of `h`, when the encoder wrote it. -/
def store (h acc : PktHdr) (f : HdrField) : PktHdr :=
  if f.kind.isEmpty (h.get f) then acc else acc.set f (f.kind.wire (h.get f))

/-- The header the decoder builds from the encoding of `h`: the zero value in the fields the
encoder left out, the value on the wire in the others. -/
def onWire (h : PktHdr) : PktHdr :=
  ofFn fun f => if f.kind.isEmpty (h.get f) then f.kind.zero else f.kind.wire (h.get f)

theorem get_default (f : HdrField) : ({} : PktHdr).get f = f.kind.zero := by cases f <;> rfl

theorem get_foldl_store (h : PktHdr) (fs : List HdrField) (acc : PktHdr) (g : HdrField) :
    (fs.foldl h.store acc).get g =
      if g ∈ fs ∧ g.kind.isEmpty (h.get g) = false then g.kind.wire (h.get g) else acc.get g := by
  induction fs generalizing acc with
  | nil => simp
  | cons f fs ih =>
    rw [List.foldl_cons, ih]
    by_cases hg : g = f
    · subst hg
      cases e : g.kind.isEmpty (h.get g) <;> simp [store, e]
    · have other : (h.store acc f).get g = acc.get g := by
        unfold store; split_ifs
        · rfl
        · exact get_set_ne _ _ hg
      simp only [other, List.mem_cons, hg, false_or]

/-- Storing the fields in order builds `onWire`. -/
theorem foldl_store_all (h : PktHdr) : HdrField.all.foldl h.store {} = h.onWire := by
  refine ext_get fun g => ?_
  rw [get_foldl_store, onWire, get_ofFn, get_default]
  cases g.kind.isEmpty (h.get g) <;> simp [HdrField.mem_all]

end PktHdr

/-- The members the encoder writes for the fields `fs` are each read back as one value, and the
decoder, storing them in order, stores each written field's value on the wire. -/
theorem decodeMembers_encodeFields {h : PktHdr} {depth : Nat} (room : depth < maxNestingDepth)
    (shallow : ∀ f : HdrField, f.kind.Shallow depth (h.get f)) :
    ∀ (fs : List HdrField) (ms : List (Bytes × Bytes)), h.encodeFields fs = .ok ms →
      ∃ trips : List (Bytes × Bytes × JsonValue Bytes),
        trips.map (fun m => (m.1, m.2.1)) = ms ∧ (∀ m ∈ trips, StrBody m.1 ∧ ReadsAs depth m.2.1 m.2.2) ∧
        ∀ acc, decodeMembers (trips.map fun m => (m.1, m.2.2, m.2.1)) acc = .ok (fs.foldl h.store acc)
  | [], ms, enc => by
    cases enc
    exact ⟨[], rfl, fun _ mem => absurd mem (List.not_mem_nil _), fun _ => rfl⟩
  | f :: fs, ms, enc => by
    simp only [PktHdr.encodeFields] at enc
    split_ifs at enc with empty
    · obtain ⟨trips, rfl, reads, decodes⟩ := decodeMembers_encodeFields room shallow fs ms enc
      refine ⟨trips, rfl, reads, fun acc => ?_⟩
      rw [List.foldl_cons, PktHdr.store, if_pos empty]
      exact decodes acc
    · cases e : f.kind.encode (h.get f) with
      | error err => rw [e] at enc; cases enc
      | ok text =>
        rw [e] at enc
        obtain ⟨ms', enc', rfl⟩ := map_eq_ok enc
        obtain ⟨trips, rfl, reads, decodes⟩ := decodeMembers_encodeFields room shallow fs ms' enc'
        obtain ⟨t, ht, decoded⟩ :=
          f.kind.decode_encode f.name room (by simpa using empty) (shallow f) e
        refine ⟨(f.key, text, t) :: trips, rfl, ?_, fun acc => ?_⟩
        · intro m mem
          rcases List.mem_cons.mp mem with rfl | mem
          · exact ⟨strBody_quoteBody _, ht⟩
          · exact reads m mem
        · simp only [List.map_cons, decodeMembers, unquote_key, fieldOf_name, decodeField, decoded,
            Except.map, Except.bind, List.foldl_cons, PktHdr.store, if_neg empty]
          exact decodes _

/-- `(*decodeState).object` walks the members of an encoded object again, whatever follows it. -/
theorem objectMembers_open (t : Bytes) : objectMembers (0x7B :: t) =
    match skipWs t with
    | 0x7D :: _ => .ok []
    | _ => (parseMembers (t.length + 1) 1 t).map (·.1) := rfl

theorem objectMembers_jsonObject (trips : List (Bytes × Bytes × JsonValue Bytes))
    (reads : ∀ m ∈ trips, StrBody m.1 ∧ ReadsAs 1 m.2.1 m.2.2) (r : Bytes) :
    objectMembers (jsonObject (trips.map fun m => (m.1, m.2.1)) ++ r) =
      .ok (trips.map fun m => (m.1, m.2.2, m.2.1)) := by
  have text : jsonObject (trips.map fun m => (m.1, m.2.1)) ++ r =
      0x7B :: (commaSep (trips.map fun m => memberText m.1 m.2.1) ++ 0x7D :: r) := by
    simp [jsonObject, memberText, Function.comp_def]
  rw [text, objectMembers_open]
  cases trips with
  | nil => rfl
  | cons m trips =>
    obtain ⟨rest, hrest⟩ : ∃ rest,
        commaSep ((m :: trips).map fun m => memberText m.1 m.2.1) ++ 0x7D :: r = 0x22 :: rest :=
      ⟨_, rfl⟩
    have start : skipWs (commaSep ((m :: trips).map fun m => memberText m.1 m.2.1) ++ 0x7D :: r) =
        0x22 :: rest := by
      rw [hrest, skipWs_cons_of_not_space (by decide)]
    split
    · rename_i heq; rw [start] at heq; cases heq
    rw [parseMembers_commaSep (m :: trips) (List.cons_ne_nil _ _) (fun m mem => (reads m mem).1)
      (fun m mem => (reads m mem).2) _ (by simp) r]
    rfl

theorem length_encode {h : PktHdr} {hdr : Bytes} (enc : h.encode = .ok hdr) : 3 ≤ hdr.length := by
  obtain ⟨json, marshaled, rfl⟩ := map_eq_ok enc
  obtain ⟨ms, -, rfl⟩ := map_eq_ok marshaled
  simp [jsonObject]

/-- The encoded header decodes to the header on the wire, when the raw `_` leaves room for the
header object around it. -/
theorem decodeHdr_encode {h : PktHdr} {hdr : Bytes} (enc : h.encode = .ok hdr)
    (shallow : ∀ v, parseDocument h.custom = .ok v → v.depth < maxNestingDepth) :
    decodeHdr hdr = .ok h.onWire := by
  obtain ⟨json, marshaled, rfl⟩ := map_eq_ok enc
  obtain ⟨ms, fields, rfl⟩ := map_eq_ok marshaled
  obtain ⟨trips, rfl, reads, decodes⟩ :=
    decodeMembers_encodeFields (show 1 < maxNestingDepth by decide)
      (fun f => by cases f <;> first | trivial | exact fun v hv => by have := shallow v hv; omega) _ _ fields
  have object := parseValue_jsonObject trips (show 0 < maxNestingDepth by decide)
    (fun m mem => (reads m mem).1) (fun m mem => (reads m mem).2)
    ((jsonObject (trips.map fun m : Bytes × Bytes × JsonValue Bytes => (m.1, m.2.1)) ++ [0x0A]).length + 1)
    (by simp; omega) [0x0A]
  have read : readValue (jsonObject (trips.map fun m => (m.1, m.2.1)) ++ [0x0A]) =
      .ok (.object (trips.map fun m => (m.1, m.2.2)), [0x0A]) := by
    rw [readValue, if_neg (by simp [jsonObject, skipWs, isSpace])]
    exact object
  rw [decodeHdr, read]
  dsimp only
  rw [objectMembers_jsonObject trips reads, Except.bind, decodes, PktHdr.foldl_store_all]

/-- A frame whose header, newline included, is shorter than 64 KiB parses back to the header on
the wire and the same body. -/
theorem parsePkt_formatPkt_eq {p : Pkt} {frame : Bytes} (ok : p.formatPkt = .ok frame)
    (short : ∀ hdr, p.hdr.encode = .ok hdr → hdr.length < 2 ^ 16)
    (shallow : ∀ v, parseDocument p.hdr.custom = .ok v → v.depth < maxNestingDepth) :
    parsePkt frame = some (.ok { hdr := p.hdr.onWire, body := p.body }) := by
  obtain ⟨hdr, enc, rfl⟩ := map_eq_ok ok
  have len := short hdr enc
  have three := length_encode enc
  have declared : frameLength (putUint16 hdr.length ++ hdr ++ p.body) = hdr.length := by
    rw [List.append_assoc, frameLength_putUint16, Nat.mod_eq_of_lt len]
  have after : putUint16 hdr.length ++ hdr ++ p.body =
      (putUint16 hdr.length).getD 0 0 :: (putUint16 hdr.length).getD 1 0 :: (hdr ++ p.body) := rfl
  have total : (putUint16 hdr.length ++ hdr ++ p.body).length = hdr.length + 2 + p.body.length := by
    rw [after]; simp only [List.length_cons, List.length_append]; omega
  rw [parsePkt_eq (by omega), declared, if_neg (by omega), headerBytes, declared, after]
  simp only [List.drop_succ_cons, List.drop_zero, List.take_left, decodeHdr_encode enc shallow,
    List.drop_left]

/-! ## Whatever the header -/

/-- The members of an encoded object, when `objectMembers` walks them at all, are the encoded
ones: a raw `_` nested too deep stops the walk, and is never walked as something else. -/
theorem objectMembers_jsonObject_eq (trips : List (Bytes × Bytes × JsonValue Bytes))
    (reads : ∀ m ∈ trips, StrBody m.1 ∧ ReadsAs 0 m.2.1 m.2.2) (r : Bytes)
    {ms : List (Bytes × JsonValue Bytes × Bytes)}
    (h : objectMembers (jsonObject (trips.map fun m => (m.1, m.2.1)) ++ r) = .ok ms) :
    ms = trips.map fun m => (m.1, m.2.2, m.2.1) := by
  have text : jsonObject (trips.map fun m => (m.1, m.2.1)) ++ r =
      0x7B :: (commaSep (trips.map fun m => memberText m.1 m.2.1) ++ 0x7D :: r) := by
    simp [jsonObject, memberText, Function.comp_def]
  rw [text, objectMembers_open] at h
  cases trips with
  | nil => exact (Except.ok.inj (show (Except.ok [] : Except JsonError _) = .ok ms from h)).symm
  | cons m trips =>
    obtain ⟨rest, hrest⟩ : ∃ rest,
        commaSep ((m :: trips).map fun m => memberText m.1 m.2.1) ++ 0x7D :: r = 0x22 :: rest :=
      ⟨_, rfl⟩
    split at h
    · rename_i heq; rw [hrest, skipWs_cons_of_not_space (by decide)] at heq; cases heq
    obtain ⟨⟨walked, r'⟩, hm, rfl⟩ := map_eq_ok h
    exact (parseMembers_commaSep_eq (m :: trips) (List.cons_ne_nil _ _) (fun m mem => (reads m mem).1)
      (fun m mem => (reads m mem).2) hm).1

/-- What `objectMembers` walks fits inside the object around it. -/
theorem objectMembers_fits {s : Bytes} {ms : List (Bytes × JsonValue Bytes × Bytes)}
    (h : objectMembers s = .ok ms) : ∀ m ∈ ms, Fits 1 m.2.1 := by
  unfold objectMembers at h
  split at h
  · split at h
    · cases h; exact fun _ mem => absurd mem (List.not_mem_nil _)
    · obtain ⟨⟨walked, r⟩, hm, rfl⟩ := map_eq_ok h
      exact fun m mem => ((parse_fits _).2.2 1 _ _ _ (by decide) hm m mem).2
  · cases h; exact fun _ mem => absurd mem (List.not_mem_nil _)

/-- The members the encoder writes are each read back as one value from outside every container,
whatever the raw `_` holds. -/
theorem encode_members {h : PktHdr} {hdr : Bytes} (enc : h.encode = .ok hdr) :
    ∃ trips : List (Bytes × Bytes × JsonValue Bytes),
      hdr = jsonObject (trips.map fun m => (m.1, m.2.1)) ++ [0x0A] ∧
      (∀ m ∈ trips, StrBody m.1 ∧ ReadsAs 0 m.2.1 m.2.2) ∧
      decodeMembers (trips.map fun m => (m.1, m.2.2, m.2.1)) {} = .ok h.onWire := by
  obtain ⟨json, marshaled, rfl⟩ := map_eq_ok enc
  obtain ⟨ms, fields, rfl⟩ := map_eq_ok marshaled
  obtain ⟨trips, rfl, reads, decodes⟩ := decodeMembers_encodeFields (show 0 < maxNestingDepth by decide)
    (fun f => FieldKind.shallow_zero _ _) _ _ fields
  exact ⟨trips, rfl, reads, (decodes {}).trans (congrArg _ (PktHdr.foldl_store_all h))⟩

/-- Whatever the encoder wrote, the decoder reads it back as the header on the wire, or not at
all. -/
theorem decodeHdr_encode_eq {h : PktHdr} {hdr : Bytes} (enc : h.encode = .ok hdr) {h' : PktHdr}
    (dec : decodeHdr hdr = .ok h') : h' = h.onWire := by
  obtain ⟨trips, rfl, reads, decodes⟩ := encode_members enc
  obtain ⟨rem, ⟨read, -⟩ | ⟨_, ms, -, walked, dec⟩⟩ := decodeHdr_eq_ok dec
  · obtain ⟨_, e⟩ := parseValue_brace (readValue_eq read)
    cases e
  · rw [objectMembers_jsonObject_eq trips reads _ walked, decodes] at dec
    exact (Except.ok.inj dec).symm

/-- No prefix of an encoded header short of its last two bytes decodes: its first value would
have to end where the encoded object does. -/
theorem decodeHdr_take_refused {h : PktHdr} {hdr : Bytes} (enc : h.encode = .ok hdr) {n : Nat}
    (short : n + 2 ≤ hdr.length) (h' : PktHdr) : decodeHdr (hdr.take n) ≠ .ok h' := by
  obtain ⟨trips, text, reads, -⟩ := encode_members enc
  have first : ∀ t rem, readValue (hdr.take n) = .ok (t, rem) → t.isNumber = false → False := by
    intro t rem read flat
    have hv := readValue_eq read
    obtain ⟨u, split⟩ := ((parse_suffix _).1 _ _ _ _ hv).1
    rw [← split] at hv
    have whole := parseValue_frame hv (rem ++ hdr.drop n) (.inr flat) _ (.inl le_rfl)
    rw [← List.append_assoc, split, List.take_append_drop, text] at whole
    have ends := congrArg List.length (parseValue_jsonObject_rem trips reads whole)
    rw [← text] at ends
    simp only [List.length_append, List.length_drop, List.length_singleton] at ends
    omega
  intro dec
  obtain ⟨rem, ⟨read, -⟩ | ⟨_, _, read, -, -⟩⟩ := decodeHdr_eq_ok dec
  all_goals exact first _ _ read rfl

/-- An encoded object with a member nested too deep for the object around it is not decoded. -/
theorem decodeHdr_jsonObject_refused (trips : List (Bytes × Bytes × JsonValue Bytes))
    (reads : ∀ m ∈ trips, StrBody m.1 ∧ ReadsAs 0 m.2.1 m.2.2) (r : Bytes)
    (deep : ∃ m ∈ trips, ¬ Fits 1 m.2.2) (h' : PktHdr) :
    decodeHdr (jsonObject (trips.map fun m => (m.1, m.2.1)) ++ r) ≠ .ok h' := by
  intro dec
  obtain ⟨rem, ⟨read, -⟩ | ⟨_, ms, -, walked, -⟩⟩ := decodeHdr_eq_ok dec
  · obtain ⟨_, e⟩ := parseValue_brace (readValue_eq read)
    cases e
  · obtain ⟨m, mem, too⟩ := deep
    have fits := objectMembers_fits walked
    rw [objectMembers_jsonObject_eq trips reads r walked] at fits
    exact too (fits _ (List.mem_map_of_mem _ mem))

/-- `parse_pkt` on a frame `format_pkt` writes: the header bytes are the first `hdr.length % 2^16`
bytes of the header, the body what follows them. -/
theorem parsePkt_putUint16 {hdr : Bytes} (three : 3 ≤ hdr.length) (body : Bytes) :
    parsePkt (putUint16 hdr.length ++ hdr ++ body) =
      match decodeHdr (hdr.take (hdr.length % 2 ^ 16)) with
      | .error e => some (.error (.json e))
      | .ok h => some (.ok { hdr := h, body := (hdr ++ body).drop (hdr.length % 2 ^ 16) }) := by
  have after : putUint16 hdr.length ++ hdr ++ body =
      (putUint16 hdr.length).getD 0 0 :: (putUint16 hdr.length).getD 1 0 :: (hdr ++ body) := rfl
  have declared : frameLength (putUint16 hdr.length ++ hdr ++ body) = hdr.length % 2 ^ 16 := by
    rw [List.append_assoc, frameLength_putUint16]
  have long : 4 ≤ (putUint16 hdr.length ++ hdr ++ body).length := by
    rw [after]; simp only [List.length_cons, List.length_append]; omega
  rw [parsePkt_eq long, declared, headerBytes, declared, after,
    if_neg (by simp only [List.length_cons, List.length_append]; omega)]
  -- what is left is `parse_pkt`'s own `match`, up to the auxiliary matcher Lean names for it
  simp only [List.drop_succ_cons, List.drop_zero, List.take_append_of_le_length (Nat.mod_le _ _)]
  all_goals rfl

/-- Whatever packet `format_pkt` frames, what `parse_pkt` makes of the frame, when it makes a
packet, is that packet's header on the wire and its body: a header of 64 KiB or more, framed with
a wrapped length, or a raw `_` nested too deep, is refused, never read as another packet. -/
theorem parsePkt_formatPkt_sound {p : Pkt} {frame : Bytes} (ok : p.formatPkt = .ok frame) {q : Pkt}
    (parsed : parsePkt frame = some (.ok q)) : q = { hdr := p.hdr.onWire, body := p.body } := by
  obtain ⟨hdr, enc, rfl⟩ := map_eq_ok ok
  rw [parsePkt_putUint16 (length_encode enc)] at parsed
  split at parsed
  · cases parsed
  rename_i h' dec
  cases parsed
  by_cases fits : hdr.length < 2 ^ 16
  · rw [Nat.mod_eq_of_lt fits, List.take_length] at dec
    rw [decodeHdr_encode_eq enc dec, Nat.mod_eq_of_lt fits, List.drop_left]
  · exact absurd dec (decodeHdr_take_refused enc (by omega) h')

/-! ## What comes back, field by field -/

/-- A field the same after the round trip: a nil slice taken as an empty one, and the raw document
compared as the JSON value it holds. -/
def FieldKind.Same : (k : FieldKind) → k.Ty → k.Ty → Prop
  | .ints, a, b => a.getD [] = b.getD []
  | .strings, a, b => a.getD [] = b.getD []
  | .raw, a, b => jsonValue a = jsonValue b
  | _, a, b => a = b

/-- Two headers the same field by field. -/
def PktHdr.SameAs (h h' : PktHdr) : Prop := ∀ f : HdrField, f.kind.Same (h.get f) (h'.get f)

namespace FieldKind

/-- A field the encoder leaves out is the same as the zero value the decoder leaves there. -/
theorem same_zero (k : FieldKind) {x : k.Ty} (empty : k.isEmpty x = true) : k.Same k.zero x := by
  cases k with
  | string | int64 | int => exact (beq_iff_eq.mp empty).symm
  | intPtr => exact (Option.isNone_iff_eq_none.mp empty).symm
  | ints | strings => exact (List.isEmpty_iff.mp empty).symm
  | bool => cases x; rfl; cases empty
  | raw => show jsonValue [] = jsonValue x; rw [List.isEmpty_iff.mp empty]

/-- A field the encoder writes comes back the same. -/
theorem same_wire (k : FieldKind) {x : k.Ty} {text : Bytes} (kept : k.isEmpty x = false)
    (enc : k.encode x = .ok text) : k.Same (k.wire x) x := by
  cases k with
  | raw =>
    rw [encode, if_neg (by simpa [isEmpty] using kept)] at enc
    simp only [Same, wire, enc]
    exact jsonValue_compact enc
  | _ => rfl

/-- The types whose fields come back exactly. -/
def Exact : FieldKind → Prop
  | .ints | .strings | .raw => False
  | _ => True

theorem zero_of_isEmpty (k : FieldKind) (exact : k.Exact) {x : k.Ty} (empty : k.isEmpty x = true) :
    k.zero = x := by
  cases k with
  | string | int64 | int => exact (beq_iff_eq.mp empty).symm
  | intPtr => exact (Option.isNone_iff_eq_none.mp empty).symm
  | bool => cases x; rfl; cases empty
  | ints | strings | raw => exact exact.elim

theorem wire_exact (k : FieldKind) (exact : k.Exact) (x : k.Ty) : k.wire x = x := by
  cases k <;> first | rfl | exact exact.elim

end FieldKind

theorem encode_of_encodeFields {h : PktHdr} {f : HdrField} (kept : f.kind.isEmpty (h.get f) = false) :
    ∀ {fs : List HdrField} {ms : List (Bytes × Bytes)}, h.encodeFields fs = .ok ms → f ∈ fs →
      ∃ text, f.kind.encode (h.get f) = .ok text
  | [], _, _, mem => absurd mem (List.not_mem_nil f)
  | g :: fs, ms, enc, mem => by
    rcases List.mem_cons.mp mem with rfl | mem
    · rw [PktHdr.encodeFields, if_neg (by simp [kept])] at enc
      cases e : f.kind.encode (h.get f) with
      | error err => rw [e] at enc; cases enc
      | ok text => exact ⟨text, rfl⟩
    · simp only [PktHdr.encodeFields] at enc
      split_ifs at enc
      · exact encode_of_encodeFields kept enc mem
      · obtain ⟨text, e⟩ : ∃ text, g.kind.encode (h.get g) = .ok text := by
          cases e : g.kind.encode (h.get g) with
          | error err => rw [e] at enc; cases enc
          | ok text => exact ⟨text, rfl⟩
        rw [e] at enc
        obtain ⟨ms', enc', -⟩ := map_eq_ok enc
        exact encode_of_encodeFields kept enc' mem

namespace PktHdr

variable {h : PktHdr} {hdr : Bytes}

theorem get_onWire (f : HdrField) : h.onWire.get f =
    if f.kind.isEmpty (h.get f) then f.kind.zero else f.kind.wire (h.get f) := get_ofFn _ _

/-- The header on the wire is the original, field by field. -/
theorem onWire_sameAs (enc : h.encode = .ok hdr) : h.onWire.SameAs h := by
  obtain ⟨json, marshaled, -⟩ := map_eq_ok enc
  obtain ⟨ms, fields, -⟩ := map_eq_ok marshaled
  intro f
  rw [get_onWire]
  cases kept : f.kind.isEmpty (h.get f)
  · obtain ⟨text, e⟩ := encode_of_encodeFields kept fields (HdrField.mem_all f)
    exact f.kind.same_wire kept e
  · exact f.kind.same_zero kept

/-- A field of a type that comes back exactly comes back as it was. -/
theorem get_onWire_exact {f : HdrField} (exact : f.kind.Exact) : h.onWire.get f = h.get f := by
  rw [get_onWire]
  cases kept : f.kind.isEmpty (h.get f)
  · exact if_neg Bool.false_ne_true |>.trans (f.kind.wire_exact exact _)
  · exact if_pos rfl |>.trans (f.kind.zero_of_isEmpty exact kept)

end PktHdr

theorem emitValue_ne_nil {v : JsonValue Bytes} (wf : Wf v) : emitValue v ≠ [] := by
  cases wf with
  | number h => exact List.ne_nil_of_length_pos (h 0).length_pos
  | bool b => cases b <;> simp [emitValue, trueText, falseText]
  | _ => simp [emitValue, nullText, jsonArray, jsonObject]

theorem compact_ne_nil {src out : Bytes} (h : compact src = .ok out) : out ≠ [] := by
  unfold compact at h
  split at h
  · rename_i v hv
    cases h
    exact emitValue_ne_nil (parseDocument_fits hv).1
  · cases h

/-! ## The round trip -/

/-- Every packet whose header encodes in fewer than 64 KiB, newline included, and whose raw `_`
nests less deep than the limit, comes back from its frame with the same body and, field by field,
the same header. -/
theorem parsePkt_formatPkt {p : Pkt} {frame : Bytes} (ok : p.formatPkt = .ok frame)
    (short : ∀ hdr, p.hdr.encode = .ok hdr → hdr.length < 2 ^ 16)
    (shallow : ∀ v, parseDocument p.hdr.custom = .ok v → v.depth < maxNestingDepth) :
    ∃ q, parsePkt frame = some (.ok q) ∧ q.hdr.SameAs p.hdr ∧ q.body = p.body := by
  obtain ⟨hdr, enc, -⟩ := map_eq_ok ok
  exact ⟨_, parsePkt_formatPkt_eq ok short shallow, PktHdr.onWire_sameAs enc, rfl⟩

/-- A channel packet with most kinds of field set, an empty slice among them, and a raw `_`
with space to compact: ` {"k": [1, true]}`. -/
def chatPkt : Pkt :=
  { hdr :=
      { type := "chat", c := "7", seq := 1, ack := some 0, miss := some [], see := some ["a<b"]
        «end» := true
        custom := [0x20, 0x7B, 0x22, 0x6B, 0x22, 0x3A, 0x20, 0x5B, 0x31, 0x2C, 0x20, 0x74, 0x72,
          0x75, 0x65, 0x5D, 0x7D] }
    body := [0x68, 0x69] }

theorem chatPkt_round_trip :
    ∃ frame, chatPkt.formatPkt = .ok frame ∧
      ∃ q, parsePkt frame = some (.ok q) ∧ q.hdr.SameAs chatPkt.hdr ∧ q.body = chatPkt.body :=
  ⟨_, rfl, parsePkt_formatPkt rfl
    (fun hdr h => by obtain rfl := Except.ok.inj (h.symm.trans rfl); decide)
    (fun v h => by
      rw [show parseDocument chatPkt.hdr.custom =
        .ok (.object [([0x6B], .array [.number [0x31], .bool true])]) from rfl] at h
      cases h; decide)⟩

/-- `n + 1` arrays, each the only element of the one around it. -/
def deepArray : Nat → JsonValue Bytes
  | 0 => .array []
  | n + 1 => .array [deepArray n]

theorem deepArray_wf : ∀ n, Wf (deepArray n)
  | 0 => .array nofun
  | n + 1 => .array fun x mem => by rw [List.mem_singleton.mp mem]; exact deepArray_wf n

theorem depth_deepArray : ∀ n, (deepArray n).depth = n + 1
  | 0 => rfl
  | n + 1 => by simp [deepArray, JsonValue.depth.depthElems, depth_deepArray n]

/-- `n + 1` arrays do not fit inside one more container once they reach the limit. -/
theorem deepArray_not_fits {n : Nat} (deep : maxNestingDepth ≤ n + 1) : ¬ Fits 1 (deepArray n) :=
  fun fits => by
    have room := fits.2
    rw [depth_deepArray] at room
    omega

theorem map_deepArray (f : Bytes → Bytes) : ∀ n, (deepArray n).map f = deepArray n
  | 0 => rfl
  | n + 1 => by simp only [deepArray, JsonValue.map, JsonValue.map.mapElems, map_deepArray f n]

theorem length_emitValue_deepArray : ∀ n, (emitValue (deepArray n)).length = 2 * n + 2
  | 0 => rfl
  | n + 1 => by
    simp [deepArray, emitValue, emitValue.emitElems, jsonArray, commaSep, length_emitValue_deepArray n]
    omega

theorem isEmpty_emitValue_deepArray (n : Nat) : (emitValue (deepArray n)).isEmpty = false := by
  cases n <;> rfl

theorem length_jsonObject_single (k v : Bytes) : (jsonObject [(k, v)]).length = k.length + v.length + 5 := by
  simp only [jsonObject, List.map_cons, List.map_nil, commaSep, List.flatMap_nil, List.append_nil,
    List.length_cons, List.length_append, List.length_singleton, List.length_nil]
  omega

/-- A packet whose raw `_` is ten thousand arrays deep, as deep as `appendCompact` accepts. -/
def deepPkt : Pkt := { hdr := { custom := emitValue (deepArray 9999) } }

/-- Only `_` is written for a header that has nothing else. -/
theorem encodeFields_custom_only (x : Bytes) (hx : x.isEmpty = false) :
    ({ custom := x } : PktHdr).encodeFields HdrField.all =
      (compact x).map fun t => [(HdrField.custom.key, t)] := by
  simp only [HdrField.all, PktHdr.encodeFields, PktHdr.get, HdrField.kind, FieldKind.isEmpty, hx,
    FieldKind.encode, beq_self_eq_true, Option.isNone_none, Option.getD_none, List.isEmpty_nil,
    Bool.not_false, ↓reduceIte, Bool.false_eq_true]
  cases compact x <;> rfl

theorem deepPkt_marshal :
    deepPkt.hdr.marshal = .ok (jsonObject [(HdrField.custom.key, emitValue (deepArray 9999))]) := by
  have kept : compact (emitValue (deepArray 9999)) = .ok (emitValue (deepArray 9999)) := by
    rw [compact, parseDocument_emitValue ⟨deepArray_wf _, by rw [depth_deepArray]; decide⟩,
      map_deepArray]
  simp only [deepPkt, PktHdr.marshal, encodeFields_custom_only _ (isEmpty_emitValue_deepArray 9999), kept]
  rfl

/-- What the encoder writes for `deepPkt`'s header. -/
def deepHdr : Bytes := jsonObject [(HdrField.custom.key, emitValue (deepArray 9999))] ++ [0x0A]

theorem length_deepHdr : deepHdr.length = 20007 := by
  rw [deepHdr, List.length_append, length_jsonObject_single, length_emitValue_deepArray]
  rfl

theorem deepPkt_formatPkt : deepPkt.formatPkt = .ok (putUint16 deepHdr.length ++ deepHdr ++ []) := by
  rw [Pkt.formatPkt, PktHdr.encode, deepPkt_marshal]
  rfl

/-- The raw `_` of `deepPkt` fits where `appendCompact` reads it, in a header of 20006 bytes, but
not inside the header object, which the decoder counts as one more level: the frame is formatted
and never parsed. -/
theorem deepPkt_not_parsed :
    ∃ frame json, deepPkt.formatPkt = .ok frame ∧ deepPkt.hdr.marshal = .ok json ∧
      json.length < 2 ^ 16 ∧ ∀ q, parsePkt frame ≠ some (.ok q) := by
  have reads : ReadsAs 0 (emitValue (deepArray 9999)) (deepArray 9999) := by
    have := (readsAs_emitValue (deepArray_wf 9999) (by rw [depth_deepArray]; decide) : ReadsAs 0 _ _)
    rwa [map_deepArray] at this
  have len := length_deepHdr
  rw [deepHdr, List.length_append, List.length_singleton] at len
  refine ⟨_, _, deepPkt_formatPkt, deepPkt_marshal, by omega, fun q parsed => ?_⟩
  rw [parsePkt_putUint16 (by rw [length_deepHdr]; decide)] at parsed
  split at parsed
  · cases parsed
  rename_i h' dec
  rw [Nat.mod_eq_of_lt (by rw [length_deepHdr]; decide), List.take_length] at dec
  exact decodeHdr_jsonObject_refused [(HdrField.custom.key, emitValue (deepArray 9999), deepArray 9999)]
    (by simpa using ⟨strBody_quoteBody _, reads⟩) [0x0A]
    ⟨_, List.mem_singleton_self _, deepArray_not_fits (by decide)⟩ h' dec

/-- The JSON of the long header is one byte short of 64 KiB, but the newline the encoder puts
after it makes the frame declare a header of no bytes, and the decoder finds nothing to read. -/
theorem longTypePkt_not_parsed :
    ∃ frame json, longTypePkt.formatPkt = .ok frame ∧ longTypePkt.hdr.marshal = .ok json ∧
      json.length < 2 ^ 16 ∧ parsePkt frame = some (.error (.json .eof)) := by
  have json := length_typeHdr 65524
  rw [List.length_append, List.length_singleton] at json
  have none : frameLength (putUint16 longTypeHdr.length ++ longTypeHdr ++ []) = 0 := by
    rw [List.append_assoc, frameLength_putUint16, length_longTypeHdr, Nat.mod_self]
  have long : 4 ≤ (putUint16 longTypeHdr.length ++ longTypeHdr ++ []).length := by
    rw [List.append_nil, List.length_append, length_longTypeHdr]
    exact Nat.le_add_left 4 _
  refine ⟨_, _, longTypePkt_formatPkt, longTypePkt_marshal, by omega, ?_⟩
  rw [parsePkt_eq long, none, if_neg (by omega), headerBytes, none]
  rfl

/-! ## Pure acks -/

namespace PktHdr

variable {h : PktHdr}

/-- Only the slices and the raw `_` can come back other than they were. -/
theorem onWire_eq :
    h.onWire = { h with miss := h.onWire.miss, see := h.onWire.see, custom := h.onWire.custom } :=
  ext_get fun f => by cases f <;> first | exact get_onWire_exact trivial | rfl

/-- `see` comes back as it was unless it is an empty slice that is not nil. -/
theorem see_onWire (see : h.see ≠ some []) : h.onWire.see = h.see := by
  show h.onWire.get .see = h.get .see
  rw [get_onWire]
  cases e : h.get .see with
  | none => rfl
  | some xs => cases xs with
    | nil => exact absurd e see
    | cons => rfl

/-- The raw `_` comes back empty exactly when it was: what `appendCompact` writes is never
empty. -/
theorem custom_onWire_eq_nil : h.onWire.custom = [] ↔ h.custom = [] := by
  show h.onWire.get .custom = [] ↔ h.get .custom = []
  rw [get_onWire]
  cases e : h.get .custom with
  | nil => exact iff_of_true rfl rfl
  | cons b m =>
    refine iff_of_false ?_ (List.cons_ne_nil b m)
    show (match compact (b :: m) with | .ok text => text | .error _ => b :: m) ≠ []
    split
    · exact compact_ne_nil (by assumption)
    · exact List.cons_ne_nil b m

/-- The pure-ack test reads the header the decoder builds as it reads the original, when `see`
is not an empty slice that is not nil. -/
theorem justAck_onWire (see : h.see ≠ some []) : h.onWire.justAck = h.justAck := by
  have custom : (h.onWire.custom.length == 0) = (h.custom.length == 0) := by
    rw [Bool.eq_iff_iff, beq_iff_eq, beq_iff_eq, List.length_eq_zero, List.length_eq_zero]
    exact custom_onWire_eq_nil
  rw [onWire_eq]
  simp only [justAck, see_onWire see, custom]

end PktHdr

/-- The sender and the receiver agree on which packets are pure acks, for every packet that
comes back from its frame, unless its `see` is an empty slice that is not nil. -/
theorem justAck_survives_codec {p : Pkt} {frame : Bytes} (ok : p.formatPkt = .ok frame)
    (short : ∀ hdr, p.hdr.encode = .ok hdr → hdr.length < 2 ^ 16)
    (shallow : ∀ v, parseDocument p.hdr.custom = .ok v → v.depth < maxNestingDepth)
    (see : p.hdr.see ≠ some []) :
    ∃ q, parsePkt frame = some (.ok q) ∧ q.justAck = p.justAck :=
  ⟨_, parsePkt_formatPkt_eq ok short shallow, by simp only [Pkt.justAck, PktHdr.justAck_onWire see]⟩

/-- A pure ack of channel `"1"`: an `ack`, an empty `miss`, nothing else. -/
def ackPkt : Pkt := { hdr := { c := "1", ack := some 5, miss := some [] } }

theorem ackPkt_stays_justAck :
    ∃ frame, ackPkt.formatPkt = .ok frame ∧
      ∃ q, parsePkt frame = some (.ok q) ∧ q.justAck = ackPkt.justAck :=
  ⟨_, rfl, justAck_survives_codec rfl
    (fun hdr h => by obtain rfl := Except.ok.inj (h.symm.trans rfl); decide)
    (fun v h => by cases h) (by decide)⟩

/-- An ack that also carries an empty, non-nil `see`: not a pure ack where it is sent, a pure
ack where it arrives. -/
def emptySeePkt : Pkt := { hdr := { c := "1", ack := some 0, see := some [] } }

theorem emptySee_becomes_justAck :
    ∃ frame, emptySeePkt.formatPkt = .ok frame ∧
      (∀ hdr, emptySeePkt.hdr.encode = .ok hdr → hdr.length < 2 ^ 16) ∧
      emptySeePkt.justAck = false ∧ ∃ q, parsePkt frame = some (.ok q) ∧ q.justAck = true :=
  ⟨_, rfl, fun hdr h => by obtain rfl := Except.ok.inj (h.symm.trans rfl); decide, rfl, _, rfl, rfl⟩

end Telehash
