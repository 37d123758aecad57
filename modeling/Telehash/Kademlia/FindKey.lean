/-
# Telehash.Kademlia.FindKey -- the lookup of the hashnames nearest a key

`findKey` seeds a list with the active entries of the key's own bucket (bucket 0 when the key is
the local hashname), then walks outward, one bucket below and one above per round, until it
holds `n` entries or has made 255 rounds; it recomputes every entry's distance to the key, sorts
by it and keeps the first `n`.  `n` is a Go `uint`: the model reads it as 64 bits, converts it to
`int` in two's complement where the code does (`goInt`), and returns `none` where the code
faults at run time: `make` given a negative capacity, or one whose bytes pass the runtime's
`maxAlloc` or what the heap can give (`avail`), and a slice bound past the capacity.

The walk is summed up by `visited`, the buckets it has read after `r` rounds (those within `r` of
the start bucket, `mem_visited`):

* `walk_spec`: with enough fuel the walk stops after some `r < numBuckets` rounds, having
  collected the entries of `visited start r`, either because it made all its rounds or because
  it holds `n` entries;
* `findKey_eq`: when `make` can allocate the `n + 96` entries (after the default), the lookup is
  the first `n` entries of the collected ones sorted by `sortByKeyDistance`, and the walk stopped
  at `lookupReach`;
* `sortByKeyDistance_hashnames`: `sort.Sort` is modelled by `insertionSort`; distances to a key
  tell hashnames apart, so every sort of the same entries gives the same hashnames.
-/
import Telehash.Kademlia.Table

namespace Telehash.Kademlia

set_option autoImplicit false

/-- Go's `int(n)` of a `uint` on a 64-bit platform: the same 64 bits in two's complement. -/
def goInt (n : UInt64) : Int := if n.toNat < 2 ^ 63 then n.toNat else n.toNat - 2 ^ 64

theorem goInt_of_lt {n : UInt64} (h : n.toNat < 2 ^ 63) : goInt n = n.toNat := by
  rw [goInt, if_pos h]

/-- `n` after `if n == 0 { n = defaultLookupSize }`. -/
def lookupSize (n : UInt64) : UInt64 := if n = 0 then defaultLookupSize.toUInt64 else n

theorem lookupSize_toNat (n : UInt64) :
    (lookupSize n).toNat = if n = 0 then defaultLookupSize else n.toNat := by
  unfold lookupSize
  split <;> rfl

/-- `bucketIdx`: the bucket of the key's distance to the local hashname, clamped to 0. -/
def Table.startBucket (t : Table) (key : Key) : Int :=
  max 0 (bucketFromDistance (keyDistance t.localHashname key))

theorem Table.startBucket_bounds (t : Table) (key : Key) :
    0 ≤ t.startBucket key ∧ t.startBucket key < 256 := by
  have := bucketFromDistance_lt (keyDistance t.localHashname key)
  constructor <;> simp only [Table.startBucket] <;> omega

/-- The `peerInfo` of each active entry of bucket `idx`, front to back, as the inner loops of
`findKey` append them (every stored entry passes `v != nil`); nothing when `idx` is not a bucket
index, which is what the `idx >= 0` and `idx < numBuckets` tests skip (the other bound holds on
each side). -/
def Table.bucketPeers (t : Table) (idx : Int) : List PeerInfo :=
  if h : 0 ≤ idx ∧ idx < numBuckets then
    (t.buckets ⟨idx.toNat, by have : idx < 256 := h.2; show idx.toNat < 256; omega⟩).peers.map
      (·.peerInfo)
  else []

theorem Table.mem_bucketPeers {t : Table} {idx : Int} {p : PeerInfo} :
    p ∈ t.bucketPeers idx ↔ ∃ i : Fin numBuckets, (i : Int) = idx ∧ ∃ a ∈ (t.buckets i).peers, a.peerInfo = p := by
  unfold Table.bucketPeers
  split
  · rename_i h
    simp only [List.mem_map]
    constructor
    · exact fun found => ⟨_, by simp only [Int.toNat_of_nonneg h.1], found⟩
    · rintro ⟨i, rfl, found⟩
      exact found
  · rename_i h
    simp only [List.not_mem_nil, false_iff, not_exists, not_and]
    intro i same
    have := i.isLt
    exact absurd ⟨by omega, show (i : Int) < 256 by omega⟩ (same ▸ h)

/-- The `for len(peers) < int(n) && offset < int(numBuckets)` loop from `offset`, for at most
`fuel` rounds: the peers collected and the `offset` it stops at. -/
def Table.walk (t : Table) (bucketIdx n : Int) :
    (fuel offset : Nat) → List PeerInfo → List PeerInfo × Nat
  | 0, offset, peers => (peers, offset)
  | fuel + 1, offset, peers =>
      if peers.length < n ∧ offset < numBuckets then
        t.walk bucketIdx n fuel (offset + 1)
          (peers ++ t.bucketPeers (bucketIdx - offset) ++ t.bucketPeers (bucketIdx + offset))
      else (peers, offset)

/-- `peerInfoByDistance`: `sort.Sort` puts `a` before `b` unless `b`'s distance is less. -/
def peerInfoByDistance (a b : PeerInfo) : Prop := distanceLess b.distance a.distance = false

instance : DecidableRel peerInfoByDistance := fun a b =>
  inferInstanceAs (Decidable (distanceLess b.distance a.distance = false))

theorem peerInfoByDistance_iff {a b : PeerInfo} :
    peerInfoByDistance a b ↔ a.distance.toNat ≤ b.distance.toNat := by
  simp [peerInfoByDistance, distanceLess]

instance : IsTotal PeerInfo peerInfoByDistance :=
  ⟨fun a b => (Nat.le_total a.distance.toNat b.distance.toNat).imp peerInfoByDistance_iff.mpr
    peerInfoByDistance_iff.mpr⟩

instance : IsTrans PeerInfo peerInfoByDistance :=
  ⟨fun _ _ _ ab bc => peerInfoByDistance_iff.mpr
    ((peerInfoByDistance_iff.mp ab).trans (peerInfoByDistance_iff.mp bc))⟩

/-- The loop that sets each entry's `distance` to its distance to `key`, then
`sort.Sort(peerInfoByDistance(peers))`, modelled by insertion sort. -/
def sortByKeyDistance (key : Key) (peers : List PeerInfo) : List PeerInfo :=
  (peers.map fun p => { p with distance := keyDistance p.hashname key }).insertionSort
    peerInfoByDistance

/-- `if len(peers) > int(n) { peers = peers[:n] }`.  The slice expression faults when `n` passes
the capacity.  It is only reached with `n` above the length when `int(n)` is negative, so
`n ≥ 2^63`, which passes every capacity the slice can have, so the bound is checked against the
length. -/
def trim (peers : List PeerInfo) (n : UInt64) : Option (List PeerInfo) :=
  if goInt n < peers.length then
    if n.toNat ≤ peers.length then some (peers.take n.toNat) else none
  else some peers

/-- `maxAlloc` of the Go runtime on linux/amd64, `1 << heapAddrBits` with 48 address bits:
`makeslice` panics for a slice of more bytes. -/
def maxAlloc : Nat := 2 ^ 48

/-- `unsafe.Sizeof(peerInfo{})` on a 64-bit platform: an `int`, a 32-byte `keyDist` and a string
header of two words. -/
def peerInfoSize : Nat := 56

/-- `t.findKey(key, n)` on a heap that can give `avail` more bytes: `none` where the Go code
panics or runs out of memory.  `make([]peerInfo, 0, n+(3*maxPeers))` converts the `uint`
capacity to `int` and panics when it is negative or its bytes pass `maxAlloc` (`makeslice`); the
program dies when the heap cannot give them.  The call's other allocations (the result, 16 bytes
per hashname for at most the 8192 entries of a table, and the interface value `sort.Sort` takes)
are small and taken to succeed. -/
def Table.findKey (t : Table) (key : Key) (n : UInt64) (avail : Nat) : Option (List Hashname) :=
  let n := lookupSize n
  let bucketIdx := t.startBucket key
  let capacity := goInt (n + (3 * maxPeers).toUInt64)
  if capacity < 0 ∨ min maxAlloc avail < peerInfoSize * capacity.toNat then none
  else
    let peers := (t.walk bucketIdx (goInt n) numBuckets 1 (t.bucketPeers bucketIdx)).1
    (trim (sortByKeyDistance key peers) n).map (·.map (·.hashname))

/-- The `offset` at which `findKey`'s walk stops: it has read the buckets less than `offset`
away from the start bucket. -/
def Table.lookupReach (t : Table) (key : Key) (n : UInt64) : Nat :=
  (t.walk (t.startBucket key) (goInt (lookupSize n)) numBuckets 1
    (t.bucketPeers (t.startBucket key))).2

/-- The big-endian number of `copy(key[:], keyData)`. -/
def keyOfBytes (keyData : List UInt8) : Key :=
  BitVec.ofNat 256 (keyData.foldl (fun acc b => acc * 256 + b.toNat) 0)

/-- `t.findNode(hn, n)`, given what `base32util.DecodeString(string(hn))` returns (`none` for an
error, a package outside the sources): a malformed or wrong-length hashname finds nothing. -/
def Table.findNode (t : Table) (keyData : Option (List UInt8)) (n : UInt64) (avail : Nat) :
    Option (List Hashname) :=
  match keyData with
  | none => some []
  | some keyData =>
    if keyData.length = KeyLen then t.findKey (keyOfBytes keyData) n avail else some []

/-- Every active entry of the table, bucket by bucket. -/
def Table.activePeers (t : Table) : List ActivePeer :=
  (List.finRange numBuckets).flatMap fun i => (t.buckets i).peers

theorem UInt64.toNat_add_of_lt {a b : UInt64} (h : a.toNat + b.toNat < 2 ^ 64) :
    (a + b).toNat = a.toNat + b.toNat := by
  simp only [UInt64.toNat, UInt64.add_def, BitVec.toNat_add] at h ⊢
  exact Nat.mod_eq_of_lt h

/-! ## The buckets the walk reads -/

/-- The buckets read after `r` rounds from `start`: `start`, then `start - k` and `start + k` for
`k = 1, …, r`. -/
def visited (start : Int) : Nat → List Int
  | 0 => [start]
  | r + 1 => visited start r ++ [start - (r + 1), start + (r + 1)]

theorem mem_visited {start j : Int} : ∀ {r : Nat}, j ∈ visited start r ↔ start - r ≤ j ∧ j ≤ start + r
  | 0 => by simp only [visited, List.mem_singleton]; omega
  | r + 1 => by
      simp only [visited, List.mem_append, mem_visited, List.mem_cons, List.mem_singleton,
        List.not_mem_nil, or_false]
      omega

theorem nodup_visited (start : Int) : ∀ r, (visited start r).Nodup
  | 0 => List.nodup_singleton _
  | r + 1 => by
      refine List.nodup_append.mpr ⟨nodup_visited start r, ?_, ?_⟩
      · simp only [List.nodup_cons, List.mem_singleton, List.not_mem_nil, not_false_eq_true,
          List.nodup_nil, and_true]
        omega
      · intro j old new
        simp only [List.mem_cons, List.mem_singleton, List.not_mem_nil, or_false] at new
        have := mem_visited.mp old
        omega

/-- The walk from `offset = r + 1`, with the entries of `visited start r` collected, stops after
`r' ≥ r` rounds with those of `visited start r'`: at `offset = numBuckets`, or holding `n`. -/
theorem walk_spec (t : Table) (start n : Int) :
    ∀ fuel r, r < numBuckets → numBuckets ≤ fuel + r + 1 →
      ∃ r', r ≤ r' ∧ r' < numBuckets ∧
        t.walk start n fuel (r + 1) ((visited start r).flatMap t.bucketPeers) =
          ((visited start r').flatMap t.bucketPeers, r' + 1) ∧
        (r' + 1 = numBuckets ∨ n ≤ ((visited start r').flatMap t.bucketPeers).length)
  | 0, r, hr, fuel => ⟨r, le_rfl, hr, rfl, .inl (by omega)⟩
  | fuel + 1, r, hr, enough => by
      simp only [Table.walk]
      split
      · rename_i more
        have next : (visited start r).flatMap t.bucketPeers ++ t.bucketPeers (start - ↑(r + 1)) ++
            t.bucketPeers (start + ↑(r + 1)) = (visited start (r + 1)).flatMap t.bucketPeers := by
          simp [visited, List.flatMap_append, List.append_assoc]
        rw [next]
        obtain ⟨r', le, lt, eq, stop⟩ := walk_spec t start n fuel (r + 1) more.2 (by omega)
        exact ⟨r', by omega, lt, eq, stop⟩
      · rename_i stop
        refine ⟨r, le_rfl, hr, rfl, ?_⟩
        by_cases full : r + 1 = numBuckets
        · exact .inl full
        · exact .inr (by omega)

/-- Below `2^63 - 96` the capacity `n + 3*maxPeers` neither wraps nor reads as a negative `int`. -/
theorem goInt_capacity {n : UInt64} (small : n.toNat < 2 ^ 63 - 3 * maxPeers) :
    goInt (n + (3 * maxPeers).toUInt64) = ((n.toNat + 3 * maxPeers : Nat) : Int) := by
  have : (3 * maxPeers).toUInt64.toNat = 96 := rfl
  have : maxPeers = 32 := rfl
  rw [goInt_of_lt] <;> rw [UInt64.toNat_add_of_lt] <;> omega

/-- When `make` can allocate `n + 96` entries, `findKey` returns the first `n` of the entries its
walk collected, sorted by distance to the key; the walk stopped at `lookupReach` after reading
every bucket or holding `n` entries. -/
theorem findKey_eq (t : Table) (key : Key) {n : UInt64} {avail : Nat}
    (fits : peerInfoSize * ((lookupSize n).toNat + 3 * maxPeers) ≤ min maxAlloc avail) :
    ∃ r < numBuckets, t.lookupReach key n = r + 1 ∧
      (r + 1 = numBuckets ∨
        (lookupSize n).toNat ≤ ((visited (t.startBucket key) r).flatMap t.bucketPeers).length) ∧
      t.findKey key n avail = some (((sortByKeyDistance key
        ((visited (t.startBucket key) r).flatMap t.bucketPeers)).take (lookupSize n).toNat).map
          (·.hashname)) := by
  have peers32 : maxPeers = 32 := rfl
  have small : (lookupSize n).toNat < 2 ^ 63 - 3 * maxPeers := by
    have : min maxAlloc avail ≤ 2 ^ 48 := min_le_left _ _
    rw [peerInfoSize] at fits
    omega
  have seed : t.bucketPeers (t.startBucket key) =
      (visited (t.startBucket key) 0).flatMap t.bucketPeers := by
    simp [visited]
  obtain ⟨r, -, hr, walked, stop⟩ := walk_spec t (t.startBucket key) (goInt (lookupSize n))
    numBuckets 0 (by decide) (by omega)
  rw [← seed, Nat.zero_add] at walked
  have size : goInt (lookupSize n) = (lookupSize n).toNat := goInt_of_lt (by omega)
  have capacity : ¬ (goInt (lookupSize n + (3 * maxPeers).toUInt64) < 0 ∨
      min maxAlloc avail < peerInfoSize * (goInt (lookupSize n + (3 * maxPeers).toUInt64)).toNat) := by
    rw [goInt_capacity small, Int.toNat_ofNat]
    omega
  refine ⟨r, hr, by rw [Table.lookupReach, walked], by rwa [size, Int.ofNat_le] at stop, ?_⟩
  simp only [Table.findKey]
  rw [if_neg capacity]
  rw [walked]
  simp only [trim, size, Int.ofNat_lt]
  split
  · rw [if_pos (by omega)]
    simp only [Option.map_some', List.map_take]
  · rw [List.take_of_length_le (by omega)]
    simp only [Option.map_some', List.map_take]

/-! ## Sorting by distance to the key -/

section Sorting

variable (key : Key) (peers : List PeerInfo)

theorem sortByKeyDistance_perm :
    ((sortByKeyDistance key peers).map (·.hashname)).Perm (peers.map (·.hashname)) := by
  have := ((List.perm_insertionSort peerInfoByDistance
    (peers.map fun p => { p with distance := keyDistance p.hashname key })).map (·.hashname))
  simpa [List.map_map] using this

theorem sortByKeyDistance_distance {p : PeerInfo} (h : p ∈ sortByKeyDistance key peers) :
    p.distance = keyDistance p.hashname key := by
  have := (List.perm_insertionSort peerInfoByDistance _).subset h
  simp only [List.mem_map] at this
  obtain ⟨q, -, rfl⟩ := this
  rfl

/-- The sorted hashnames are in non-decreasing distance to the key. -/
theorem sortByKeyDistance_sorted :
    ((sortByKeyDistance key peers).map (·.hashname)).Sorted
      fun a b => (keyDistance a key).toNat ≤ (keyDistance b key).toNat := by
  refine List.pairwise_map.mpr ((List.sorted_insertionSort peerInfoByDistance _).imp_of_mem ?_)
  intro a b ha hb ordered
  rw [← sortByKeyDistance_distance key peers ha, ← sortByKeyDistance_distance key peers hb]
  exact peerInfoByDistance_iff.mp ordered

/-- Distances to a key tell hashnames apart. -/
theorem keyDistance_injective {a b : Hashname} (h : keyDistance a key = keyDistance b key) :
    a = b := by
  have := congrArg (· ^^^ key) h
  simpa [keyDistance, BitVec.xor_assoc] using this

/-- `sort.Sort` is not stable, but any ordering of the entries by distance to the key has the
hashnames of `sortByKeyDistance` in the same order. -/
theorem sortByKeyDistance_hashnames {sorted : List PeerInfo} (perm : sorted.Perm peers)
    (ordered : sorted.Sorted fun a b => (keyDistance a.hashname key).toNat ≤
      (keyDistance b.hashname key).toNat) :
    sorted.map (·.hashname) = (sortByKeyDistance key peers).map (·.hashname) := by
  have : IsAntisymm Hashname fun a b => (keyDistance a key).toNat ≤ (keyDistance b key).toNat :=
    ⟨fun a b ab ba => keyDistance_injective key (BitVec.eq_of_toNat_eq (by omega))⟩
  have sortedHashnames : (sorted.map (·.hashname)).Sorted
      fun a b => (keyDistance a key).toNat ≤ (keyDistance b key).toNat :=
    List.pairwise_map.mpr ordered
  exact List.eq_of_perm_of_sorted ((perm.map _).trans (sortByKeyDistance_perm key peers).symm)
    sortedHashnames (sortByKeyDistance_sorted key peers)

end Sorting

end Telehash.Kademlia
