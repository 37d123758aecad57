/-
# Telehash.Packet.Codec -- `format_pkt` and `parse_pkt`

A packet goes on the wire as two bytes of header length, big-endian, then the header as
`json.Encoder.Encode` writes it (the JSON document and a newline), then the body.  The header's
encoding is `structEncoder` over `pkt_hdr_t`: the fields in declaration order, each left out when
`omitempty` finds it empty and otherwise written as `"name":value` by the encoder of its Go type;
the `json.RawMessage` `_` goes through `appendCompact`.  Decoding is `json.Decoder.Decode`:
`readValue` finds the first value of the header bytes, whatever follows it, and `unmarshal`
stores it into a zero `pkt_hdr_t`.  The members of an object are matched to fields by exact
name, then by `foldName`, and decoded by the field's Go type; `null` changes nothing, and a value
of any other kind is an `UnmarshalTypeError`.

The twenty fields are handled uniformly: `HdrField` lists them, `FieldKind` names their Go types,
and `PktHdr.get` and `PktHdr.set` read and write one field at the Lean type of its kind.

* `formatPkt_prefix`: the length prefix is the header's length modulo `2^16`, for every packet,
  so a header of 64 KiB or more is framed with a wrapped length and no error (`formatPkt_wraps`);
* `decodeHdr_ok_iff`: the header bytes decode exactly when, after space, they begin with `null`
  or with one whole object whose members decode, whatever follows (`HdrText`);
* `parsePkt_frames`: `parse_pkt` never slices outside its input, succeeds exactly when the input
  has four bytes, the declared header fits and the header bytes are of that grammar, and then
  takes the rest as the body: `[0 4]null` and `[0 3]{}x` are both accepted
  (`parsePkt_null_header`).
-/
import Telehash.Packet.Header
import Telehash.Json.Compact
import Telehash.Json.Frame

namespace Telehash

open Json

set_option autoImplicit false

/-! ## The fields of `pkt_hdr_t` -/

/-- The fields of `pkt_hdr_t`, in declaration order, which is the order they are written in. -/
inductive HdrField where
  | type | line | iv | «open» | sig | c | «to» | «at» | family | seq | ack | miss | «end» | err
  | seek | see | peer | ip | port | custom
  deriving DecidableEq, Repr

/-- The Go types of the fields. -/
inductive FieldKind where
  | string | int64 | int | intPtr | ints | bool | strings | raw
  deriving DecidableEq, Repr

/-- How the model holds a value of each Go type. -/
abbrev FieldKind.Ty : FieldKind → Type
  | .string => String
  | .int64 => GoInt
  | .int => GoInt
  | .intPtr => Option GoInt
  | .ints => Option (List GoInt)
  | .bool => Bool
  | .strings => Option (List String)
  | .raw => Bytes

namespace HdrField

/-- The name in the field's `json` tag. -/
def name : HdrField → String
  | .type => "type" | .line => "line" | .iv => "iv" | .«open» => "open" | .sig => "sig"
  | .c => "c" | .«to» => "to" | .«at» => "at" | .family => "family" | .seq => "seq"
  | .ack => "ack" | .miss => "miss" | .«end» => "end" | .err => "err" | .seek => "seek"
  | .see => "see" | .peer => "peer" | .ip => "ip" | .port => "port" | .custom => "_"

/-- The field's Go type. -/
def kind : HdrField → FieldKind
  | .type | .line | .iv | .«open» | .sig | .c | .«to» | .family | .err | .seek | .peer | .ip =>
    .string
  | .«at» => .int64
  | .seq | .port => .int
  | .ack => .intPtr
  | .miss => .ints
  | .«end» => .bool
  | .see => .strings
  | .custom => .raw

/-- All fields, in declaration order. -/
def all : List HdrField :=
  [.type, .line, .iv, .«open», .sig, .c, .«to», .«at», .family, .seq, .ack, .miss, .«end», .err,
    .seek, .see, .peer, .ip, .port, .custom]

theorem mem_all (f : HdrField) : f ∈ all := by cases f <;> decide

theorem all_nodup : all.Nodup := by decide

end HdrField

namespace PktHdr

/-- The value of one field. -/
def get (h : PktHdr) : (f : HdrField) → f.kind.Ty
  | .type => h.type | .line => h.line | .iv => h.iv | .«open» => h.«open» | .sig => h.sig
  | .c => h.c | .«to» => h.«to» | .«at» => h.«at» | .family => h.family | .seq => h.seq
  | .ack => h.ack | .miss => h.miss | .«end» => h.«end» | .err => h.err | .seek => h.seek
  | .see => h.see | .peer => h.peer | .ip => h.ip | .port => h.port | .custom => h.custom

/-- The header with the given value in every field. -/
def ofFn (v : (f : HdrField) → f.kind.Ty) : PktHdr where
  type := v .type
  line := v .line
  iv := v .iv
  «open» := v .«open»
  sig := v .sig
  c := v .c
  «to» := v .«to»
  «at» := v .«at»
  family := v .family
  seq := v .seq
  ack := v .ack
  miss := v .miss
  «end» := v .«end»
  err := v .err
  seek := v .seek
  see := v .see
  peer := v .peer
  ip := v .ip
  port := v .port
  custom := v .custom

/-- The header with field `f` set to `x`. -/
def set (h : PktHdr) (f : HdrField) (x : f.kind.Ty) : PktHdr := ofFn (Function.update h.get f x)

@[simp] theorem get_ofFn (v : (f : HdrField) → f.kind.Ty) (f : HdrField) : (ofFn v).get f = v f := by
  cases f <;> rfl

@[simp] theorem ofFn_get (h : PktHdr) : ofFn h.get = h := rfl

theorem get_injective : Function.Injective get := fun h h' e => by
  rw [← ofFn_get h, ← ofFn_get h', e]

theorem ext_get {h h' : PktHdr} (e : ∀ f, h.get f = h'.get f) : h = h' :=
  get_injective (funext e)

@[simp] theorem get_set_self (h : PktHdr) (f : HdrField) (x : f.kind.Ty) : (h.set f x).get f = x := by
  simp [set]

@[simp] theorem get_set_ne (h : PktHdr) {f g : HdrField} (x : f.kind.Ty) (ne : g ≠ f) :
    (h.set f x).get g = h.get g := by
  simp [set, Function.update_noteq ne]

end PktHdr

/-! ## Writing a header -/

namespace FieldKind

/-- `isEmptyValue`, which `omitempty` asks: the empty string, zero, `false`, a nil pointer, a slice
of length zero. -/
def isEmpty : (k : FieldKind) → k.Ty → Bool
  | .string, s => s == ""
  | .int64, n => n == 0
  | .int, n => n == 0
  | .intPtr, p => p.isNone
  | .ints, xs => (xs.getD []).isEmpty
  | .bool, b => !b
  | .strings, xs => (xs.getD []).isEmpty
  | .raw, m => m.isEmpty

/-- The encoder of each Go type: `stringEncoder` (`appendString` with HTML escaping),
`intEncoder` (`strconv.AppendInt`), `ptrEncoder` and `sliceEncoder` (`null` when nil),
`boolEncoder`, and for `json.RawMessage` its `MarshalJSON` (`null` when nil) through
`appendCompact`. -/
def encode : (k : FieldKind) → k.Ty → Except JsonError Bytes
  | .string, s => .ok (quote s)
  | .int64, n => .ok (formatInt n.toInt)
  | .int, n => .ok (formatInt n.toInt)
  | .intPtr, p => .ok (match p with | some n => formatInt n.toInt | none => nullText)
  | .ints, xs => .ok (match xs with | some xs => jsonArray (xs.map (formatInt ·.toInt)) | none => nullText)
  | .bool, b => .ok (if b then trueText else falseText)
  | .strings, xs => .ok (match xs with | some xs => jsonArray (xs.map quote) | none => nullText)
  | .raw, m => compact (if m.isEmpty then nullText else m)

end FieldKind

/-- The key `structEncoder` writes for a field: its name through `appendString`. -/
def HdrField.key (f : HdrField) : Bytes := quoteBody f.name

namespace PktHdr

/-- The members `structEncoder` writes for the fields `fs`, in order, the empty ones left out;
the first field whose encoder fails stops it. -/
def encodeFields (h : PktHdr) : List HdrField → Except JsonError (List (Bytes × Bytes))
  | [] => .ok []
  | f :: fs =>
    if f.kind.isEmpty (h.get f) then h.encodeFields fs
    else (f.kind.encode (h.get f)).bind fun v => (h.encodeFields fs).map ((f.key, v) :: ·)

/-- `json.Marshal` of the header: one object of its non-empty fields. -/
def marshal (h : PktHdr) : Except JsonError Bytes := (h.encodeFields HdrField.all).map jsonObject

/-- What `json.NewEncoder(buf).Encode(hdr)` writes: the document and a newline. -/
def encode (h : PktHdr) : Except JsonError Bytes := h.marshal.map (· ++ [0x0A])

end PktHdr

/-- `binary.BigEndian.PutUint16(b, uint16(l))`: the low 16 bits of `l`, high byte first. -/
def putUint16 (l : Nat) : Bytes := [(l % 2 ^ 16 / 2 ^ 8).toUInt8, (l % 2 ^ 8).toUInt8]

/-- `binary.BigEndian.Uint16`: two bytes, high byte first. -/
def uint16 (b0 b1 : UInt8) : Nat := b0.toNat * 2 ^ 8 + b1.toNat

/-- `(*pkt_t).format_pkt`: two bytes for the header's length, the header, the body. -/
def Pkt.formatPkt (p : Pkt) : Except JsonError Bytes :=
  p.hdr.encode.map fun hdr => putUint16 hdr.length ++ hdr ++ p.body

/-- The length the first two bytes of a frame declare. -/
def frameLength (frame : Bytes) : Nat := uint16 (frame.getD 0 0) (frame.getD 1 0)

theorem frameLength_putUint16 (l : Nat) (rest : Bytes) :
    frameLength (putUint16 l ++ rest) = l % 2 ^ 16 := by
  simp only [frameLength, putUint16, uint16, List.cons_append, List.getD_cons_zero,
    List.getD_cons_succ]
  show (l % 2 ^ 16 / 2 ^ 8) % 256 * 2 ^ 8 + l % 2 ^ 8 % 256 = l % 2 ^ 16
  omega

/-- `format_pkt` frames every header with its length modulo `2^16`: the exact length below
64 KiB, a wrapped one from there on, and it never refuses a header for its length. -/
theorem formatPkt_prefix {p : Pkt} {frame : Bytes} (ok : p.formatPkt = .ok frame) :
    ∃ hdr, p.hdr.encode = .ok hdr ∧ frame = putUint16 hdr.length ++ hdr ++ p.body ∧
      frameLength frame = hdr.length % 2 ^ 16 := by
  cases e : p.hdr.encode with
  | error err => simp [Pkt.formatPkt, e, Except.map] at ok
  | ok hdr =>
    simp only [Pkt.formatPkt, e, Except.map, Except.ok.injEq] at ok
    subst ok
    exact ⟨hdr, rfl, rfl, by rw [List.append_assoc, frameLength_putUint16]⟩

/-- A header whose only field is a `type` of 65524 letters: 65536 bytes with its newline. -/
def longTypePkt : Pkt := { hdr := { type := ⟨List.replicate 65524 'a'⟩ } }

theorem quoteBody_replicate (n : Nat) : quoteBody ⟨List.replicate n 'a'⟩ = List.replicate n 0x61 := by
  induction n with
  | zero => rfl
  | succ n ih =>
    simp only [quoteBody, List.replicate_succ, List.flatMap_cons] at ih ⊢
    rw [ih]
    rfl

/-- Only `type` is written for a header that has nothing else. -/
theorem encodeFields_type_only (s : String) (hs : (s == "") = false) :
    ({ type := s } : PktHdr).encodeFields HdrField.all = .ok [(HdrField.type.key, quote s)] := by
  simp only [HdrField.all, PktHdr.encodeFields, PktHdr.get, HdrField.kind, FieldKind.isEmpty, hs]
  rfl

/-- What the encoder writes for the long header. -/
def longTypeHdr : Bytes := jsonObject [(HdrField.type.key, quote ⟨List.replicate 65524 'a'⟩)] ++ [0x0A]

theorem longTypePkt_marshal : longTypePkt.hdr.marshal =
    .ok (jsonObject [(HdrField.type.key, quote ⟨List.replicate 65524 'a'⟩)]) := by
  simp only [longTypePkt, PktHdr.marshal,
    encodeFields_type_only _ (show ((⟨List.replicate 65524 'a'⟩ : String) == "") = false from rfl)]
  rfl

theorem longTypePkt_encode : longTypePkt.hdr.encode = .ok longTypeHdr := by
  rw [PktHdr.encode, longTypePkt_marshal]
  rfl

theorem length_typeHdr (n : Nat) :
    (jsonObject [(HdrField.type.key, quote ⟨List.replicate n 'a'⟩)] ++ [0x0A]).length = n + 12 := by
  simp only [jsonObject, commaSep, quote, quoteBody_replicate, List.map_cons, List.map_nil,
    List.flatMap_nil, List.append_nil, List.length_append, List.length_cons, List.length_replicate,
    List.length_singleton, List.length_nil, show HdrField.type.key.length = 4 from rfl]
  omega

theorem length_longTypeHdr : longTypeHdr.length = 2 ^ 16 := length_typeHdr 65524

theorem longTypePkt_formatPkt :
    longTypePkt.formatPkt = .ok (putUint16 longTypeHdr.length ++ longTypeHdr ++ []) := by
  simp only [Pkt.formatPkt, longTypePkt_encode, Except.map]
  rfl

/-- The long header goes out framed as if it had no bytes at all. -/
theorem formatPkt_wraps :
    ∃ frame hdr, longTypePkt.formatPkt = .ok frame ∧ longTypePkt.hdr.encode = .ok hdr ∧
      hdr.length = 2 ^ 16 ∧ frameLength frame = 0 := by
  have ok := longTypePkt_formatPkt
  obtain ⟨hdr, e, -, len⟩ := formatPkt_prefix ok
  obtain rfl : hdr = longTypeHdr := by rw [longTypePkt_encode, Except.ok.injEq] at e; exact e.symm
  exact ⟨_, _, ok, e, length_longTypeHdr, by rw [len, length_longTypeHdr, Nat.mod_self]⟩

/-! ## Reading a header -/

/-- What `UnmarshalTypeError` says a JSON value is. -/
def Json.JsonValue.kind {σ : Type} : JsonValue σ → String
  | .null => "null"
  | .bool _ => "bool"
  | .number _ => "number"
  | .string _ => "string"
  | .array _ => "array"
  | .object _ => "object"

/-- The text of a number literal, which is ASCII. -/
def asciiText (lit : Bytes) : String := ⟨lit.map fun b => Char.ofNat b.toNat⟩

/-- `UnmarshalTypeError` for the value `v` stored into a Go value of type `type` at `field`. -/
def typeError {α : Type} (v : JsonValue Bytes) (type field : String) : Except JsonError α :=
  .error (.unmarshalType v.kind type field)

/-- `literalStore` into a Go `string`: a JSON string sets it, `null` leaves it. -/
def decodeString (field : String) (v : JsonValue Bytes) (old : String) : Except JsonError String :=
  match v with
  | .string raw => match unquote raw with
    | some s => .ok s
    | none => .error .phase
  | .null => .ok old
  | v => typeError v "string" field

/-- `literalStore` into a Go integer of type `type`: a number sets it through
`strconv.ParseInt(s, 10, 64)`, whose failure (a fraction, an exponent, a value out of range) is
reported with the literal; `null` leaves it. -/
def decodeInt (type field : String) (v : JsonValue Bytes) (old : GoInt) : Except JsonError GoInt :=
  match v with
  | .number lit => match parseInt lit with
    | some n => .ok (BitVec.ofInt 64 n)
    | none => .error (.unmarshalType ("number " ++ asciiText lit) type field)
  | .null => .ok old
  | v => typeError v type field

/-- Into a Go `*int`: `null` sets the pointer to nil; anything else goes to the `int` it points
to, allocated when nil, and a wrong kind is reported against `int`. -/
def decodeIntPtr (field : String) (v : JsonValue Bytes) (old : Option GoInt) :
    Except JsonError (Option GoInt) :=
  match v with
  | .null => .ok none
  | v => (decodeInt "int" field v (old.getD 0)).map some

/-- `literalStore` into a Go `bool`: a JSON boolean sets it, `null` leaves it. -/
def decodeBool (field : String) (v : JsonValue Bytes) (old : Bool) : Except JsonError Bool :=
  match v with
  | .bool b => .ok b
  | .null => .ok old
  | v => typeError v "bool" field

/-- The elements of an array, element `i` decoded into the old slice's element `i`, or into a
zero value past its end. -/
def decodeElems {α : Type} (zero : α) (decodeElem : JsonValue Bytes → α → Except JsonError α) :
    List (JsonValue Bytes) → List α → Except JsonError (List α)
  | [], _ => .ok []
  | x :: xs, old =>
    (decodeElem x (old.headD zero)).bind fun y => (decodeElems zero decodeElem xs old.tail).map (y :: ·)

/-- `(*decodeState).array` into a Go slice of type `type`: an array gives a slice of its
elements, empty but not nil when the array is; `null` sets it to nil. -/
def decodeSlice {α : Type} (type : String) (zero : α)
    (decodeElem : JsonValue Bytes → α → Except JsonError α) (field : String) (v : JsonValue Bytes)
    (old : Option (List α)) : Except JsonError (Option (List α)) :=
  match v with
  | .array xs => (decodeElems zero decodeElem xs (old.getD [])).map some
  | .null => .ok none
  | v => typeError v type field

/-- The decoder of each Go type, for the field named `field`, given the value, its exact text
and the field's old value.  A `json.RawMessage` takes the text, `null` included. -/
def FieldKind.decode (field : String) :
    (k : FieldKind) → JsonValue Bytes → Bytes → k.Ty → Except JsonError k.Ty
  | .string, v, _, old => decodeString field v old
  | .int64, v, _, old => decodeInt "int64" field v old
  | .int, v, _, old => decodeInt "int" field v old
  | .intPtr, v, _, old => decodeIntPtr field v old
  | .ints, v, _, old => decodeSlice "[]int" 0 (decodeInt "int" field) field v old
  | .bool, v, _, old => decodeBool field v old
  | .strings, v, _, old => decodeSlice "[]string" "" (decodeString field) field v old
  | .raw, _, text, _ => .ok text

/-- `foldRune` on the runes that fold to an ASCII letter: the Kelvin sign to `K` and the long s
to `S`.  Every other rune above ASCII folds to one above ASCII, which no field name contains. -/
def foldRune (r : Char) : Char := if r = '\u212A' then 'K' else if r = '\u017F' then 'S' else r

/-- `foldName`: ASCII letters upper-cased, every other rune through `foldRune`. -/
def foldName (s : String) : List Char :=
  s.data.map fun r => if r.toNat < 0x80 then r.toUpper else foldRune r

/-- The field a member's key names: the one of that exact name, else the one whose name is the
same under `foldName`. -/
def fieldOf (key : String) : Option HdrField :=
  match HdrField.all.find? (·.name == key) with
  | some f => some f
  | none => HdrField.all.find? fun f => foldName f.name == foldName key

/-- One member stored into its field. -/
def decodeField (f : HdrField) (v : JsonValue Bytes) (raw : Bytes) (h : PktHdr) :
    Except JsonError PktHdr :=
  (f.kind.decode f.name v raw (h.get f)).map (h.set f)

/-- The members of an object, in order, into the header: a key that names no field is skipped,
and the first error is the one reported. -/
def decodeMembers : List (Bytes × JsonValue Bytes × Bytes) → PktHdr → Except JsonError PktHdr
  | [], h => .ok h
  | (k, v, raw) :: ms, h =>
    match unquote k with
    | none => .error .phase
    | some key =>
      match fieldOf key with
      | none => decodeMembers ms h
      | some f => (decodeField f v raw h).bind (decodeMembers ms)

/-- The members of the object at the start of `s`, each with the exact text of its value, as
`(*decodeState).object` walks them again after `readValue`. -/
def objectMembers (s : Bytes) : Except JsonError (List (Bytes × JsonValue Bytes × Bytes)) :=
  match skipWs s with
  | 0x7B :: t =>
    match skipWs t with
    | 0x7D :: _ => .ok []
    | _ => (parseMembers s.length 1 t).map (·.1)
  | _ => .ok []

/-- `json.NewDecoder(bytes.NewReader(s)).Decode(&hdr)` into a zero header: the first value of
`s`, whatever follows it; `null` leaves the header zero. -/
def decodeHdr (s : Bytes) : Except JsonError PktHdr :=
  match readValue s with
  | .error e => .error e
  | .ok (.null, _) => .ok {}
  | .ok (.object _, _) => (objectMembers s).bind (decodeMembers · {})
  | .ok (v, _) => typeError v "telehash.pkt_hdr_t" ""

/-! ## Reading a frame -/

/-- The errors of `parse_pkt`: its own, and the decoder's. -/
inductive PktError where
  | errorf (msg : String)
  | json (e : JsonError)
  deriving DecidableEq, Repr

/-- `s[lo:hi]`, or `none` where Go panics. -/
def goSlice (s : Bytes) (lo hi : Nat) : Option Bytes :=
  if lo ≤ hi ∧ hi ≤ s.length then some ((s.drop lo).take (hi - lo)) else none

/-- `parse_pkt`: `none` where it would panic. -/
def parsePkt (input : Bytes) : Option (Except PktError Pkt) :=
  if input.length < 4 then some (.error (.errorf "pkt is too short")) else
  (goSlice input 0 2).bind fun lenBytes =>
  let hdrLen := uint16 (lenBytes.getD 0 0) (lenBytes.getD 1 0)
  let bodyLen : Int := input.length - (hdrLen + 2)
  if bodyLen < 0 then some (.error (.errorf "pkt is too short")) else
  (goSlice input 2 (hdrLen + 2)).bind fun hdrBytes =>
  match decodeHdr hdrBytes with
  | .error e => some (.error (.json e))
  | .ok hdr =>
    if bodyLen = 0 then some (.ok { hdr })
    else (goSlice input (hdrLen + 2) input.length).map fun body => .ok { hdr, body }

/-! ## What `parse_pkt` accepts -/

/-- The header bytes of a frame: after the two length bytes, as many as they declare. -/
def headerBytes (frame : Bytes) : Bytes := (frame.drop 2).take (frameLength frame)

theorem goSlice_of_le {s : Bytes} {lo hi : Nat} (h1 : lo ≤ hi) (h2 : hi ≤ s.length) :
    goSlice s lo hi = some ((s.drop lo).take (hi - lo)) := if_pos ⟨h1, h2⟩

/-- `parse_pkt` on four bytes or more: refused when the declared header does not fit, else the
decoded header and the bytes after it. -/
theorem parsePkt_eq {input : Bytes} (long : 4 ≤ input.length) :
    parsePkt input =
      if input.length < frameLength input + 2 then some (.error (.errorf "pkt is too short"))
      else match decodeHdr (headerBytes input) with
        | .error e => some (.error (.json e))
        | .ok hdr => some (.ok { hdr, body := input.drop (frameLength input + 2) }) := by
  match input, long with
  | b0 :: b1 :: rest, long =>
    simp only [List.length_cons] at long
    unfold parsePkt
    rw [if_neg (by simp only [List.length_cons]; omega), goSlice_of_le (by omega) (by simp), Option.some_bind]
    have declared : frameLength (b0 :: b1 :: rest) = uint16 b0 b1 := rfl
    have header : headerBytes (b0 :: b1 :: rest) = rest.take (uint16 b0 b1) := rfl
    dsimp only
    rw [show List.take (2 - 0) (List.drop 0 (b0 :: b1 :: rest)) = [b0, b1] from rfl,
      show ([b0, b1] : Bytes).getD 0 0 = b0 from rfl, show ([b0, b1] : Bytes).getD 1 0 = b1 from rfl,
      declared, header, List.length_cons, List.length_cons]
    generalize uint16 b0 b1 = len
    by_cases fits : len ≤ rest.length
    · rw [if_neg (by omega), if_neg (by omega), goSlice_of_le (by omega) (by simp; omega),
        Option.some_bind, Nat.add_sub_cancel, show List.drop 2 (b0 :: b1 :: rest) = rest from rfl]
      cases decodeHdr (rest.take len) with
      | error e => rfl
      | ok hdr =>
        have after : (b0 :: b1 :: rest).drop (len + 2) = rest.drop len := rfl
        dsimp only
        by_cases full : len = rest.length
        · rw [if_pos (by omega), after, List.drop_eq_nil_of_le (by omega)]
        · rw [if_neg (by omega), goSlice_of_le (by omega) (by simp), after,
            show rest.length + 1 + 1 - (len + 2) = (rest.drop len).length by rw [List.length_drop]; omega,
            List.take_length]
          rfl
    · rw [if_pos (by omega), if_pos (by omega)]

/-! ## What `decodeHdr` accepts -/

/-- What `decodeHdr` decodes: a first value `null`, to the zero header, or an object, whose
members `objectMembers` walks and decodes. -/
theorem decodeHdr_eq_ok {s : Bytes} {hdr : PktHdr} (dec : decodeHdr s = .ok hdr) :
    ∃ rem, (readValue s = .ok (.null, rem) ∧ hdr = {}) ∨
      ∃ ms0 ms, readValue s = .ok (.object ms0, rem) ∧ objectMembers s = .ok ms ∧
        decodeMembers ms {} = .ok hdr := by
  unfold decodeHdr at dec
  split at dec
  · cases dec
  · rename_i rem read
    cases dec
    exact ⟨rem, .inl ⟨read, rfl⟩⟩
  · rename_i ms0 rem read
    cases walked : objectMembers s with
    | error e => rw [walked] at dec; cases dec
    | ok ms => rw [walked] at dec; exact ⟨rem, .inr ⟨ms0, ms, read, rfl, dec⟩⟩
  · cases dec

/-- `s` decodes to `hdr`: after space, `null`, the zero header, or one whole object, read up to
its closing brace, whose members decode to `hdr`; the bytes after it are never read. -/
def HdrText (s : Bytes) (hdr : PktHdr) : Prop :=
  ∃ ws text rest, s = ws ++ text ++ rest ∧ (∀ c ∈ ws, isSpace c = true) ∧
    ((text = nullText ∧ hdr = {}) ∨
      ((∃ ms, readValue text = .ok (.object ms, [])) ∧
        (objectMembers text).bind (decodeMembers · {}) = .ok hdr))

/-- After an object was read, `objectMembers` walks the same members, whatever space is before
the object and whatever bytes are after it. -/
theorem objectMembers_frame {fuel : Nat} {u rem : Bytes} {ms0 : List (Bytes × JsonValue Bytes)}
    (h : parseValue fuel 0 (u ++ rem) = .ok (.object ms0, rem)) :
    ∃ ms, ∀ ws rem', (∀ c ∈ ws, isSpace c = true) → objectMembers (ws ++ u ++ rem') = .ok ms := by
  obtain ⟨f, rfl⟩ : ∃ f, fuel = f + 1 := by
    cases fuel with
    | zero => cases h
    | succ f => exact ⟨f, rfl⟩
  obtain ⟨c, s', hs, br⟩ := parseValue_ok_iff.mp h
  have left : rem <:+ s' := by
    rcases br with ⟨-, -, ⟨empty, -⟩ | ⟨-, ms, hm, -⟩⟩ | ⟨_, _, ⟨_, e⟩ | ⟨_, _, _, e⟩⟩ | ⟨-, -, hsc⟩
    · exact (List.suffix_cons _ _).trans (empty ▸ skipWs_suffix _)
    · exact ((parse_suffix f).2.2 _ _ _ _ hm).1
    · cases e
    · cases e
    · exact absurd hsc parseScalar_ne_object
  obtain ⟨z, rfl⟩ := left
  obtain ⟨ws0, split, stop⟩ := skipWs_eq_cons hs
  obtain rfl : u = ws0 ++ c :: z := List.append_cancel_right (split.trans (by simp))
  have opens : ∀ ws rem', (∀ c ∈ ws, isSpace c = true) →
      skipWs (ws ++ (ws0 ++ c :: z) ++ rem') = c :: (z ++ rem') := fun ws rem' spaces => by
    rw [List.append_assoc, skipWs_space_append _ spaces, List.append_assoc, List.cons_append, stop]
  rcases br with ⟨rfl, -, ⟨empty, -⟩ | ⟨full, ms, hm, -⟩⟩ | ⟨_, _, ⟨_, e⟩ | ⟨_, _, _, e⟩⟩ | ⟨-, -, hsc⟩
  · exact ⟨[], fun ws rem' spaces => by
      simp only [objectMembers, opens ws rem' spaces, skipWs_frame empty rem']⟩
  · refine ⟨ms, fun ws rem' spaces => ?_⟩
    have other := skipWs_ne_frame ((parse_suffix f).2.2 _ _ _ _ hm).2 full rem'
    have inner := parseMembers_frame hm rem' (ws ++ (ws0 ++ 0x7B :: z) ++ rem').length
      (.inr (by simp; omega))
    simp only [objectMembers, opens ws rem' spaces, inner]
    rfl
  · cases e
  · cases e
  · exact absurd hsc parseScalar_ne_object

/-- The header bytes `decodeHdr` accepts are exactly those of its grammar. -/
theorem decodeHdr_ok_iff (s : Bytes) (hdr : PktHdr) : decodeHdr s = .ok hdr ↔ HdrText s hdr := by
  constructor
  · intro h
    obtain ⟨rem, ⟨read, rfl⟩ | ⟨ms0, ms', read, walked, decodes⟩⟩ := decodeHdr_eq_ok h
    · -- `null`
      obtain ⟨c, s', hs, br⟩ := parseValue_ok_iff.mp (readValue_eq read)
      rcases br with ⟨_, _, ⟨_, e⟩ | ⟨_, _, _, e⟩⟩ | ⟨_, _, ⟨_, e⟩ | ⟨_, _, _, e⟩⟩ | ⟨-, -, hsc⟩
      any_goals cases e
      obtain ⟨ws, split, spaces⟩ := skipWs_split s
      exact ⟨ws, nullText, rem, by rw [split, hs, parseScalar_null hsc, List.append_assoc], spaces,
        .inl ⟨rfl, rfl⟩⟩
    · -- an object
      have hv := readValue_eq read
      obtain ⟨u, rfl⟩ := ((parse_suffix _).1 _ _ _ _ hv).1
      obtain ⟨ms, walk⟩ := objectMembers_frame hv
      have whole := walk [] rem nofun
      have alone := walk [] [] nofun
      simp only [List.nil_append, List.append_nil] at whole alone
      refine ⟨[], u, rem, rfl, nofun, .inr ⟨⟨ms0, readValue_of_parseValue ?_⟩, ?_⟩⟩
      · have := parseValue_frame hv [] (.inr rfl) _ (.inr (Nat.le_succ _))
        rwa [List.append_nil] at this
      · rw [whole] at walked
        cases walked
        rw [alone]
        exact decodes
  · rintro ⟨ws, text, rest, rfl, spaces, ⟨rfl, rfl⟩ | ⟨⟨ms0, read⟩, decodes⟩⟩
    · have read : readValue (ws ++ nullText ++ rest) = .ok (.null, rest) :=
        readValue_of_parseValue (by rw [List.append_assoc, parseValue_space_append spaces]; rfl)
      rw [decodeHdr, read]
    · have hv : parseValue (text.length + 1) 0 (text ++ []) = .ok (.object ms0, []) := by
        rw [List.append_nil]; exact readValue_eq read
      obtain ⟨ms, walk⟩ := objectMembers_frame hv
      have alone := walk [] [] nofun
      simp only [List.nil_append, List.append_nil] at alone
      have whole : readValue (ws ++ text ++ rest) = .ok (.object ms0, rest) :=
        readValue_of_parseValue (by
          rw [List.append_assoc, parseValue_space_append spaces]
          exact parseValue_frame hv rest (.inr rfl) _ (.inr (by simp; omega)))
      rw [decodeHdr, whole]
      dsimp only
      rw [walk ws rest spaces]
      rw [alone] at decodes
      exact decodes

/-- `parse_pkt` never slices outside its input; it accepts exactly the inputs of at least four
bytes whose declared header fits and is, after space, `null` or one object whose members decode,
whatever follows it; and the packet is then that header and the bytes after it. -/
theorem parsePkt_frames (input : Bytes) :
    (parsePkt input).isSome ∧
      ((∃ p, parsePkt input = some (.ok p)) ↔
        4 ≤ input.length ∧ frameLength input + 2 ≤ input.length ∧
          ∃ hdr, HdrText (headerBytes input) hdr) ∧
      ∀ p, parsePkt input = some (.ok p) →
        HdrText (headerBytes input) p.hdr ∧ p.body = input.drop (frameLength input + 2) ∧
          p.peer = "" := by
  simp only [← decodeHdr_ok_iff]
  by_cases short : input.length < 4
  · simp [parsePkt, short]
  rw [parsePkt_eq (by omega)]
  by_cases fits : input.length < frameLength input + 2
  · simp [fits]
  · rw [if_neg fits]
    cases e : decodeHdr (headerBytes input) with
    | error err => simp
    | ok hdr =>
      refine ⟨rfl, ⟨fun _ => ⟨by omega, by omega, hdr, rfl⟩, fun _ => ⟨_, rfl⟩⟩, ?_⟩
      rintro p ⟨⟩
      exact ⟨rfl, rfl, rfl⟩

/-- A header of `null`, and an empty object with a byte after it, are both accepted, as the empty
header. -/
theorem parsePkt_null_header :
    parsePkt [0, 4, 0x6E, 0x75, 0x6C, 0x6C] = some (.ok {}) ∧
      parsePkt [0, 3, 0x7B, 0x7D, 0x78] = some (.ok {}) := ⟨rfl, rfl⟩

end Telehash
