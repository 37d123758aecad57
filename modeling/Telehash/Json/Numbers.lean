/-
# Telehash.Json.Numbers -- integers in JSON text

The header's integer fields go out through `strconv.AppendInt(dst, n, 10)` (`formatInt`) and come
back through `strconv.ParseInt(s, 10, 64)` (`parseInt`), which the decoder applies to the
literal's text; a literal with a fraction or an exponent, or out of the 64-bit range, is refused
there.

* `parseInt_formatInt`: every 64-bit value is read back as itself;
* `parseValue_formatInt`: the scanner reads the text `formatInt` writes as one number literal,
  when a `,`, `]` or `}` follows it, as it does in the encoder's output;
* `parseValue_quote`: the same for the text `appendString` writes, whatever follows it.
-/
import Telehash.Json.Strings

namespace Telehash.Json

set_option autoImplicit false

/-! ## Writing -/

/-- The decimal digits of `n`, most significant first, with fuel for the recursion on `n / 10`. -/
def decimalDigits : Nat → Nat → Bytes
  | 0, _ => []
  | fuel + 1, n => (if n < 10 then [] else decimalDigits fuel (n / 10)) ++ [(0x30 + n % 10).toUInt8]

/-- The decimal digits `strconv.FormatUint(n, 10)` writes. -/
def decimal (n : Nat) : Bytes := decimalDigits (n + 1) n

/-- `strconv.AppendInt(dst, i, 10)`: a minus sign for a negative value, then the digits of its
magnitude. -/
def formatInt (i : Int) : Bytes := if i < 0 then 0x2D :: decimal i.natAbs else decimal i.toNat

/-! ## Reading -/

/-- The digit loop of `strconv.ParseUint(s, 10, 64)` before its range check: the value of the
decimal digits `s`, or `none` at a byte that is not one. -/
def digitsValue (s : Bytes) : Option Nat :=
  s.foldl (fun acc c => acc.bind fun n => if isDigit c then some (n * 10 + (c.toNat - 0x30)) else none)
    (some 0)

/-- `strconv.ParseInt(s, 10, 64)`: an optional sign, at least one digit, and a value in the
range of `int64`. -/
def parseInt (s : Bytes) : Option Int :=
  let (neg, digits) : Bool × Bytes := match s with
    | c :: t => if c = 0x2B then (false, t) else if c = 0x2D then (true, t) else (false, s)
    | [] => (false, [])
  if digits = [] then none else
  match digitsValue digits with
  | none => none
  | some un =>
    if !neg ∧ 2 ^ 63 ≤ un then none
    else if neg ∧ 2 ^ 63 < un then none
    else some (if neg then -(un : Int) else un)

/-! ## Digits -/

theorem decimalDigits_succ (fuel n : Nat) : decimalDigits (fuel + 1) n =
    (if n < 10 then [] else decimalDigits fuel (n / 10)) ++ [(0x30 + n % 10).toUInt8] := rfl

theorem isDigit_digit (d : Nat) (h : d < 10) : isDigit (0x30 + d).toUInt8 = true := by
  simp only [isDigit, toNat_toUInt8 (show 0x30 + d < 256 by omega)]; simp; omega

theorem decimalDigits_digits (fuel n : Nat) : ∀ c ∈ decimalDigits fuel n, isDigit c = true := by
  induction fuel generalizing n with
  | zero => simp [decimalDigits]
  | succ fuel ih =>
    rw [decimalDigits_succ]
    intro c hc
    simp only [List.mem_append, List.mem_singleton] at hc
    rcases hc with hc | rfl
    · split at hc
      · simp at hc
      · exact ih _ c hc
    · exact isDigit_digit _ (Nat.mod_lt _ (by omega))

theorem digitsValue_append_digit (s : Bytes) (d : Nat) (h : d < 10) :
    digitsValue (s ++ [(0x30 + d).toUInt8]) = (digitsValue s).map (· * 10 + d) := by
  simp only [digitsValue, List.foldl_append, List.foldl_cons, List.foldl_nil]
  cases (s.foldl _ (some 0)) with
  | none => rfl
  | some n =>
    simp only [Option.some_bind, isDigit_digit d h, if_true, Option.map_some',
      toNat_toUInt8 (show 0x30 + d < 256 by omega), Nat.add_sub_cancel_left]

theorem digitsValue_decimalDigits (fuel n : Nat) (h : n < fuel) :
    digitsValue (decimalDigits fuel n) = some n := by
  induction fuel generalizing n with
  | zero => omega
  | succ fuel ih =>
    rw [decimalDigits_succ, digitsValue_append_digit _ _ (Nat.mod_lt _ (by omega))]
    split
    · simp [digitsValue]; omega
    · rw [ih _ (by omega)]; simp only [Option.map_some']; congr 1; omega

theorem decimal_digits (n : Nat) : ∀ c ∈ decimal n, isDigit c = true := decimalDigits_digits _ _

theorem digitsValue_decimal (n : Nat) : digitsValue (decimal n) = some n :=
  digitsValue_decimalDigits _ _ (Nat.lt_succ_self n)

theorem decimalDigits_eq_cons (fuel n : Nat) (h : n < fuel) : ∃ d t, decimalDigits fuel n = d :: t ∧
    (d = 0x30 ↔ n = 0) ∧ (n = 0 → t = []) := by
  induction fuel generalizing n with
  | zero => omega
  | succ fuel ih =>
    rw [decimalDigits_succ]
    split
    · refine ⟨_, [], rfl, ?_, fun _ => rfl⟩
      rw [UInt8.ext_iff, toNat_toUInt8 (by omega)]
      simp [UInt8.size]; omega
    · obtain ⟨d, t, e, hd, -⟩ := ih (n / 10) (by omega)
      exact ⟨d, t ++ _, by rw [e]; rfl, by rw [hd]; omega, by omega⟩

/-- The first digit `decimal` writes: `0` only for zero, and then alone. -/
theorem decimal_eq_cons (n : Nat) : ∃ d t, decimal n = d :: t ∧ (d = 0x30 ↔ n = 0) ∧ (n = 0 → t = []) :=
  decimalDigits_eq_cons _ _ (Nat.lt_succ_self n)

theorem parseInt_formatInt (i : Int) (lo : -2 ^ 63 ≤ i) (hi : i < 2 ^ 63) :
    parseInt (formatInt i) = some i := by
  unfold formatInt
  split_ifs with hneg
  · obtain ⟨d, t, e, -⟩ := decimal_eq_cons i.natAbs
    have hv := digitsValue_decimal i.natAbs
    rw [e] at hv
    simp only [parseInt, if_neg (show ¬(0x2D : UInt8) = 0x2B by decide), if_true, e,
      List.cons_ne_nil, if_false, hv]
    rw [if_neg (by simp), if_neg (by simp; omega)]
    simp only [if_true, Option.some.injEq]; omega
  · obtain ⟨d, t, e, -⟩ := decimal_eq_cons i.toNat
    have hd : isDigit d = true := decimal_digits _ d (by rw [e]; exact List.mem_cons_self _ _)
    have h2B : d ≠ 0x2B := by rintro rfl; exact absurd hd (by decide)
    have h2D : d ≠ 0x2D := by rintro rfl; exact absurd hd (by decide)
    have hv := digitsValue_decimal i.toNat
    rw [e] at hv
    simp only [parseInt, e, if_neg h2B, if_neg h2D, List.cons_ne_nil, if_false, hv]
    rw [if_neg (by simp; omega), if_neg (by simp)]
    simp; omega

/-! ## Scanning what was written -/

theorem scanNumber_final {q : NumState} (hq : q.final = true) {r : Bytes} (hr : Delimited r) :
    scanNumber q r = .ok ([], r) := by
  rcases hr with rfl | ⟨c, t, rfl, hc⟩
  · simp [scanNumber, hq]
  · cases q <;> first | exact absurd hq (by decide) | rcases hc with rfl | rfl | rfl <;> rfl

theorem scanNumber_digits {ds : Bytes} (hd : ∀ c ∈ ds, isDigit c = true) {r : Bytes}
    (hr : Delimited r) : scanNumber .int (ds ++ r) = .ok (ds, r) := by
  induction ds with
  | nil => exact scanNumber_final (show NumState.int.final = true from rfl) hr
  | cons c ds ih =>
    have hc := hd c (List.mem_cons_self c ds)
    rw [List.cons_append, scanNumber_cons, NumState.next, if_pos hc]
    dsimp only
    rw [ih fun x hx => hd x (List.mem_cons_of_mem c hx)]
    rfl

theorem parseValue_decimal (n : Nat) {r : Bytes} (hr : Delimited r) (fuel depth : Nat) :
    parseValue (fuel + 1) depth (decimal n ++ r) = .ok (.number (decimal n), r) := by
  obtain ⟨d, t, e, hd0, ht⟩ := decimal_eq_cons n
  have hd := decimal_digits n
  rw [e] at hd ⊢
  have hdig := hd d (List.mem_cons_self d t)
  have nsp : isSpace d = false := by
    simp only [isDigit, Bool.and_eq_true, decide_eq_true_eq] at hdig
    simp only [isSpace, Bool.or_eq_false_iff, decide_eq_false_iff_not, UInt8.ext_iff]
    simp [UInt8.size]; omega
  rw [List.cons_append, parseValue_scalar nsp (by rintro rfl; exact absurd hdig (by decide))
    (by rintro rfl; exact absurd hdig (by decide))]
  by_cases h0 : d = 0x30
  · subst h0
    show Except.map _ (scanNumber .zero (t ++ r)) = _
    rw [ht (hd0.mp rfl), List.nil_append, scanNumber_final (show NumState.zero.final = true from rfl) hr]
    rfl
  · rw [parseScalar_digit hdig h0, scanNumber_digits (fun x hx => hd x (List.mem_cons_of_mem d hx)) hr]
    rfl

theorem parseValue_formatInt (i : Int) {r : Bytes} (hr : Delimited r) (fuel depth : Nat) :
    parseValue (fuel + 1) depth (formatInt i ++ r) = .ok (.number (formatInt i), r) := by
  unfold formatInt
  split_ifs with hneg
  · obtain ⟨d, t, e, hd0, -⟩ := decimal_eq_cons i.natAbs
    have hd := decimal_digits i.natAbs
    rw [e] at hd ⊢
    have hdig := hd d (List.mem_cons_self d t)
    have hd0' : d ≠ 0x30 := fun h => by have := hd0.mp h; omega
    rw [List.cons_append, parseValue_scalar (by decide) (by decide) (by decide)]
    show Except.map _ (scanNumber .neg (d :: t ++ r)) = _
    rw [List.cons_append, scanNumber_cons, NumState.next, if_neg hd0', if_pos hdig]
    dsimp only
    rw [scanNumber_digits (fun x hx => hd x (List.mem_cons_of_mem d hx)) hr]
    rfl
  · exact parseValue_decimal _ hr fuel depth

theorem parseValue_quote (s : String) (r : Bytes) (fuel depth : Nat) :
    parseValue (fuel + 1) depth (quote s ++ r) = .ok (.string (quoteBody s), r) := by
  simp only [quote, List.cons_append, List.append_assoc, List.singleton_append]
  rw [parseValue_scalar (by decide) (by decide) (by decide)]
  show Except.map _ (scanStr .plain (quoteBody s ++ 0x22 :: r)) = _
  rw [scanStr_body (strBody_quoteBody s)]
  rfl

end Telehash.Json
