/-
# Telehash.Json.Scanner -- the JSON syntax Go's decoder accepts

`parse_pkt` hands the header bytes to `json.NewDecoder(...).Decode`, and `format_pkt`'s encoder
checks and compacts the raw `_` document with the same scanner.  This module models that scanner
as a recursive-descent reader over bytes, token for token as `encoding/json/scanner.go` steps:

* `scanStr`, `scanNumber`, `scanLiteral`: the byte machines of string, number and `true`,
  `false`, `null` literals, with the scanner's states (`stateInStringEsc`, `stateDot`, ...);
  running out of input inside one is `io.ErrUnexpectedEOF`, a byte no state takes a syntax error;
* `parseValue`, `parseElems`, `parseMembers`: values, arrays and objects, with the scanner's
  nesting limit of 10000 (`maxNestingDepth`); they return the value's tree and the bytes after it,
  and `parseMembers` also the exact bytes of each member's value, which is what a
  `json.RawMessage` field receives;
* `readValue`: `(*Decoder).readValue`, one value after optional space, whatever follows it;
* `parseDocument`: one value with only space around it, which `json.Compact` requires.

Strings are kept as the bytes between their quotes (their unquoting is `Telehash.Json.Strings`)
and numbers as their literal text, which is what the decoder hands to `strconv.ParseInt`.  The
recursion is on a `fuel` argument, one unit per value or member read; the callers pass more than
the input's length, and every call consumes a byte.
-/
import Telehash.Json.Utf8

namespace Telehash.Json

set_option autoImplicit false

/-- The errors of `encoding/json` the packet codec can meet. -/
inductive JsonError where
  /-- `io.EOF`: no value at all, only space. -/
  | eof
  /-- `io.ErrUnexpectedEOF`: the input ends inside a value. -/
  | unexpectedEOF
  /-- `*SyntaxError`, at the byte the scanner refused. -/
  | syntaxError (c : UInt8)
  /-- `*UnmarshalTypeError`: a JSON value described by `value` for a Go value of type `type`, at
  the field path `field` (empty for the top-level value). -/
  | unmarshalType (value type field : String)
  /-- `*MarshalerError`: the bytes a `MarshalJSON` method returned are not one JSON value. -/
  | marshaler
  /-- The decoder's `panic(phasePanicMsg)`, for a state the scanner has already ruled out. -/
  | phase
  deriving DecidableEq, Repr

/-- A JSON value as the scanner reads it: strings as `σ`, numbers as their literal text, the
members of an object in order and with repeated keys kept. -/
inductive JsonValue (σ : Type) where
  | null
  | bool (b : Bool)
  | number (lit : Bytes)
  | string (s : σ)
  | array (xs : List (JsonValue σ))
  | object (ms : List (σ × JsonValue σ))

/-- The same value with every string and key passed through `f`. -/
def JsonValue.map {σ τ : Type} (f : σ → τ) : JsonValue σ → JsonValue τ
  | .null => .null
  | .bool b => .bool b
  | .number lit => .number lit
  | .string s => .string (f s)
  | .array xs => .array (mapElems xs)
  | .object ms => .object (mapMembers ms)
where
  mapElems : List (JsonValue σ) → List (JsonValue τ)
    | [] => []
    | x :: xs => x.map f :: mapElems xs
  mapMembers : List (σ × JsonValue σ) → List (τ × JsonValue τ)
    | [] => []
    | (k, v) :: ms => (f k, v.map f) :: mapMembers ms

/-- `maxNestingDepth` of the scanner. -/
def maxNestingDepth : Nat := 10000

/-! ## Tokens -/

/-- `isSpace`: space, tab, carriage return, newline. -/
def isSpace (c : UInt8) : Bool := c = 0x20 || c = 0x09 || c = 0x0D || c = 0x0A

/-- The bytes after the space at the front. -/
def skipWs : Bytes → Bytes
  | [] => []
  | c :: s => if isSpace c then skipWs s else c :: s

def isDigit (c : UInt8) : Bool := 0x30 ≤ c.toNat && c.toNat ≤ 0x39

def isHex (c : UInt8) : Bool :=
  isDigit c || (0x61 ≤ c.toNat && c.toNat ≤ 0x66) || (0x41 ≤ c.toNat && c.toNat ≤ 0x46)

/-- Puts `c` in front of the bytes a scan has read. -/
def consRead (c : UInt8) (r : Except JsonError (Bytes × Bytes)) : Except JsonError (Bytes × Bytes) :=
  r.map fun (read, rest) => (c :: read, rest)

/-- Where the scanner stands inside a string literal: `stateInString`, `stateInStringEsc`, and
`stateInStringEscU1` to `stateInStringEscU123`, owing `owed + 1` hex digits. -/
inductive StrState where
  | plain
  | esc
  | hex (owed : Nat)

/-- The content of a string literal whose opening quote has been read, up to its closing quote,
and the bytes after that quote. -/
def scanStr : StrState → Bytes → Except JsonError (Bytes × Bytes)
  | _, [] => .error .unexpectedEOF
  | .plain, c :: s =>
    if c = 0x22 then .ok ([], s)
    else if c = 0x5C then consRead c (scanStr .esc s)
    else if c.toNat < 0x20 then .error (.syntaxError c)
    else consRead c (scanStr .plain s)
  | .esc, c :: s =>
    if c = 0x62 ∨ c = 0x66 ∨ c = 0x6E ∨ c = 0x72 ∨ c = 0x74 ∨ c = 0x5C ∨ c = 0x2F ∨ c = 0x22 then
      consRead c (scanStr .plain s)
    else if c = 0x75 then consRead c (scanStr (.hex 3) s)
    else .error (.syntaxError c)
  | .hex owed, c :: s =>
    if isHex c then
      consRead c (scanStr (match owed with | 0 => .plain | k + 1 => .hex k) s)
    else .error (.syntaxError c)

/-- The scanner's states inside a number literal, after its first byte: `stateNeg`, `state0`,
`state1`, `stateDot`, `stateDot0`, `stateE`, `stateESign`, `stateE0`. -/
inductive NumState where
  | neg
  | zero
  | int
  | dot
  | frac
  | exp
  | expSign
  | expDigits

/-- The state after one more byte of the literal, or `none` where the byte does not extend it. -/
def NumState.next : NumState → UInt8 → Option NumState
  | .neg, c => if c = 0x30 then some .zero else if isDigit c then some .int else none
  | .zero, c => if c = 0x2E then some .dot else if c = 0x65 ∨ c = 0x45 then some .exp else none
  | .int, c =>
    if isDigit c then some .int
    else if c = 0x2E then some .dot
    else if c = 0x65 ∨ c = 0x45 then some .exp
    else none
  | .dot, c => if isDigit c then some .frac else none
  | .frac, c => if isDigit c then some .frac else if c = 0x65 ∨ c = 0x45 then some .exp else none
  | .exp, c =>
    if c = 0x2B ∨ c = 0x2D then some .expSign else if isDigit c then some .expDigits else none
  | .expSign, c => if isDigit c then some .expDigits else none
  | .expDigits, c => if isDigit c then some .expDigits else none

/-- The states in which a literal may end, handing the next byte to `stateEndValue`. -/
def NumState.final : NumState → Bool
  | .zero | .int | .frac | .expDigits => true
  | _ => false

/-- The rest of a number literal from state `q`, and the bytes after it. -/
def scanNumber (q : NumState) : Bytes → Except JsonError (Bytes × Bytes)
  | [] => if q.final then .ok ([], []) else .error .unexpectedEOF
  | c :: s =>
    match q.next c with
    | some q' => consRead c (scanNumber q' s)
    | none => if q.final then .ok ([], c :: s) else .error (.syntaxError c)

/-- The remaining letters `expect` of `true`, `false` or `null`, and the bytes after them. -/
def scanLiteral : Bytes → Bytes → Except JsonError Bytes
  | [], s => .ok s
  | _ :: _, [] => .error .unexpectedEOF
  | e :: es, c :: s => if c = e then scanLiteral es s else .error (.syntaxError c)

/-! ## Values -/

/-- What a value's first byte starts, other than an array or an object. -/
def parseScalar (c : UInt8) (s : Bytes) : Except JsonError (JsonValue Bytes × Bytes) :=
  if c = 0x22 then (scanStr .plain s).map fun (b, r) => (.string b, r)
  else if c = 0x2D then (scanNumber .neg s).map fun (b, r) => (.number (c :: b), r)
  else if c = 0x30 then (scanNumber .zero s).map fun (b, r) => (.number (c :: b), r)
  else if isDigit c then (scanNumber .int s).map fun (b, r) => (.number (c :: b), r)
  else if c = 0x74 then (scanLiteral [0x72, 0x75, 0x65] s).map fun r => (.bool true, r)
  else if c = 0x66 then (scanLiteral [0x61, 0x6C, 0x73, 0x65] s).map fun r => (.bool false, r)
  else if c = 0x6E then (scanLiteral [0x75, 0x6C, 0x6C] s).map fun r => (.null, r)
  else .error (.syntaxError c)

mutual

/-- One value after optional space, inside `depth` open arrays and objects; the tree and the
bytes after the value. -/
def parseValue : Nat → Nat → Bytes → Except JsonError (JsonValue Bytes × Bytes)
  | 0, _, _ => .error .unexpectedEOF
  | fuel + 1, depth, s =>
    match skipWs s with
    | [] => .error .unexpectedEOF
    | c :: s =>
      if c = 0x7B then
        if depth < maxNestingDepth then
          match skipWs s with
          | 0x7D :: r => .ok (.object [], r)
          | _ => (parseMembers fuel (depth + 1) s).map fun (ms, r) =>
              (.object (ms.map fun (k, v, _) => (k, v)), r)
        else .error (.syntaxError c)
      else if c = 0x5B then
        if depth < maxNestingDepth then
          match skipWs s with
          | 0x5D :: r => .ok (.array [], r)
          | _ => (parseElems fuel (depth + 1) s).map fun (xs, r) => (.array xs, r)
        else .error (.syntaxError c)
      else parseScalar c s

/-- The elements of an array after its `[` or a `,`, up to and past its `]`. -/
def parseElems : Nat → Nat → Bytes → Except JsonError (List (JsonValue Bytes) × Bytes)
  | 0, _, _ => .error .unexpectedEOF
  | fuel + 1, depth, s =>
    match parseValue fuel depth s with
    | .error e => .error e
    | .ok (v, r) =>
      match skipWs r with
      | [] => .error .unexpectedEOF
      | c :: r =>
        if c = 0x2C then (parseElems fuel depth r).map fun (xs, r) => (v :: xs, r)
        else if c = 0x5D then .ok ([v], r)
        else .error (.syntaxError c)

/-- The members of an object after its `{` or a `,`, up to and past its `}`: each key's content,
its value, and the exact bytes of the value. -/
def parseMembers : Nat → Nat → Bytes →
    Except JsonError (List (Bytes × JsonValue Bytes × Bytes) × Bytes)
  | 0, _, _ => .error .unexpectedEOF
  | fuel + 1, depth, s =>
    match skipWs s with
    | [] => .error .unexpectedEOF
    | c :: s =>
      if c ≠ 0x22 then .error (.syntaxError c) else
      match scanStr .plain s with
      | .error e => .error e
      | .ok (key, s) =>
        match skipWs s with
        | [] => .error .unexpectedEOF
        | c :: s =>
          if c ≠ 0x3A then .error (.syntaxError c) else
          match parseValue fuel depth (skipWs s) with
          | .error e => .error e
          | .ok (v, r) =>
            let raw := (skipWs s).take ((skipWs s).length - r.length)
            match skipWs r with
            | [] => .error .unexpectedEOF
            | c :: r =>
              if c = 0x2C then (parseMembers fuel depth r).map fun (ms, r) => ((key, v, raw) :: ms, r)
              else if c = 0x7D then .ok ([(key, v, raw)], r)
              else .error (.syntaxError c)

end

/-! ## Reading a value, one byte at a time -/

/-- What follows a value in the encoder's output: nothing, or `,`, `]` or `}`. -/
def Delimited (r : Bytes) : Prop := r = [] ∨ ∃ c t, r = c :: t ∧ (c = 0x2C ∨ c = 0x5D ∨ c = 0x7D)

theorem skipWs_cons_of_not_space {c : UInt8} (h : isSpace c = false) (s : Bytes) :
    skipWs (c :: s) = c :: s := by
  simp [skipWs, h]

/-- A value that starts with neither space nor a bracket is a scalar. -/
theorem parseValue_scalar {c : UInt8} (hs : isSpace c = false) (ho : c ≠ 0x7B) (ha : c ≠ 0x5B)
    (fuel depth : Nat) (s : Bytes) : parseValue (fuel + 1) depth (c :: s) = parseScalar c s := by
  simp only [parseValue, skipWs_cons_of_not_space hs, if_neg ho, if_neg ha]

theorem scanNumber_cons (q : NumState) (c : UInt8) (s : Bytes) : scanNumber q (c :: s) =
    match q.next c with
    | some q' => consRead c (scanNumber q' s)
    | none => if q.final then .ok ([], c :: s) else .error (.syntaxError c) := rfl

theorem parseScalar_digit {c : UInt8} (hd : isDigit c = true) (h0 : c ≠ 0x30) (s : Bytes) :
    parseScalar c s = (scanNumber .int s).map fun (b, r) => (.number (c :: b), r) := by
  have h22 : c ≠ 0x22 := by rintro rfl; exact absurd hd (by decide)
  have h2D : c ≠ 0x2D := by rintro rfl; exact absurd hd (by decide)
  simp only [parseScalar, if_neg h22, if_neg h2D, if_neg h0, hd, if_true]

/-- `(*Decoder).readValue`: the first value of the input, after optional space; what follows it
is left unread. -/
def readValue (s : Bytes) : Except JsonError (JsonValue Bytes × Bytes) :=
  if skipWs s = [] then .error .eof else parseValue (s.length + 1) 0 s

/-- The one value of `s`, with nothing but space around it: the input `json.Compact` and
`json.Valid` accept. -/
def parseDocument (s : Bytes) : Except JsonError (JsonValue Bytes) :=
  match parseValue (s.length + 1) 0 s with
  | .ok (v, r) =>
    match skipWs r with
    | [] => .ok v
    | c :: _ => .error (.syntaxError c)
  | .error e => .error e

end Telehash.Json
