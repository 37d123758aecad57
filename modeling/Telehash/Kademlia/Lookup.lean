/-
# Telehash.Kademlia.Lookup -- what `findKey` returns on a reachable table

In a reachable table an active entry is filed in the bucket of its hashname and no bucket holds
a hashname twice, so the active hashnames of the whole table are distinct
(`Table.Inv.nodup_collected`), and the walk, which never reads a bucket twice, collects distinct
active entries.  From `findKey_eq`:

* `findKey_shape`: when `make` can allocate the `n' + 96` entries (`n'` the size after the
  default) the lookup returns `min n' A` distinct active hashnames (`A` the number of active
  entries), sorted by distance to the key.  A walk that stops short of `n'` entries has read
  every bucket (`collected_all`).
* `findKey_cap_overflow`: for `2^63 - 96 ≤ n < 2^63` the capacity `n + 3*maxPeers` is negative
  as an `int` and `make` panics.  `findKey_faults_iff`: `findKey` faults for exactly the sizes
  whose `n' + 96` entries of 56 bytes pass `maxAlloc` (from `n = 5026338869738` on) or what the
  heap can give.  Past `2^63 - 96` the panic has other causes: the negative capacity, and from
  `2^64 - 96` on, where the capacity wraps to a small one, the walk is skipped because `int(n)`
  is negative and the trim `peers[:n]` slices past the capacity.
* The walk does not find the nearest peers in general.  Seen from the key, the buckets above the
  key's bucket (nearer the local hashname) all lie at distances between `2^(255-b)` and
  `2^(256-b)`, and those below it farther still, but the walk takes one of each per round.
  `findKey_misses_nearer` returns a peer of bucket 0 while a nearer one sits in bucket 5.
  `findKey_nearest_within_reach` is what holds: an active entry that is not returned is at least
  as far from the key as every returned one, unless it lies in a bucket above all those the walk
  reached.
-/
import Telehash.Kademlia.FindKey
import Telehash.Kademlia.Invariant

namespace Telehash.Kademlia

set_option autoImplicit false

/-! ## The entries the walk collects -/

theorem Table.bucketPeers_fin (t : Table) (i : Fin numBuckets) :
    t.bucketPeers i = (t.buckets i).peers.map (·.peerInfo) := by
  have : (i : Nat) < 256 := i.isLt
  rw [Table.bucketPeers, dif_pos ⟨by omega, by show (i : Int) < 256; omega⟩]
  rfl

/-- The active entries of the table are those of every bucket index, in order. -/
theorem Table.activePeers_peerInfo (t : Table) :
    t.activePeers.map (·.peerInfo) =
      ((List.finRange numBuckets).map fun i : Fin numBuckets => (i : Int)).flatMap t.bucketPeers := by
  rw [Table.activePeers, List.map_flatMap, List.flatMap_map]
  simp only [Table.bucketPeers_fin]

/-- Whatever the walk collects is active. -/
theorem collected_subset (t : Table) (buckets : List Int) :
    buckets.flatMap t.bucketPeers ⊆ t.activePeers.map (·.peerInfo) := by
  intro p hp
  obtain ⟨j, -, hj⟩ := List.mem_flatMap.mp hp
  obtain ⟨i, rfl, -⟩ := Table.mem_bucketPeers.mp hj
  rw [Table.activePeers_peerInfo]
  exact List.mem_flatMap.mpr ⟨i, List.mem_map_of_mem _ (List.mem_finRange i), hj⟩

/-- After its last round the walk has collected every active entry. -/
theorem collected_all (t : Table) (key : Key) :
    t.activePeers.map (·.peerInfo) ⊆
      (visited (t.startBucket key) (numBuckets - 1)).flatMap t.bucketPeers := by
  intro p hp
  rw [Table.activePeers_peerInfo] at hp
  obtain ⟨j, hj, found⟩ := List.mem_flatMap.mp hp
  obtain ⟨i, -, rfl⟩ := List.mem_map.mp hj
  have := t.startBucket_bounds key
  have : (i : Nat) < 256 := i.isLt
  have : numBuckets = 256 := rfl
  exact List.mem_flatMap.mpr ⟨i, mem_visited.mpr ⟨by omega, by omega⟩, found⟩

theorem Table.Inv.bucketPeers_filed {t : Table} (h : t.Inv) {j : Int} {p : PeerInfo}
    (hp : p ∈ t.bucketPeers j) : bucketFromDistance (distance t.localHashname p.hashname) = j := by
  obtain ⟨i, rfl, a, ha, rfl⟩ := Table.mem_bucketPeers.mp hp
  exact ((h i).peers_filed a ha).2.1

/-- Entries collected from distinct buckets have distinct hashnames. -/
theorem Table.Inv.nodup_collected {t : Table} (h : t.Inv) {buckets : List Int}
    (distinct : buckets.Nodup) : ((buckets.flatMap t.bucketPeers).map (·.hashname)).Nodup := by
  rw [List.map_flatMap]
  refine List.nodup_flatMap.mpr ⟨fun j _ => ?_, distinct.imp fun {j j'} ne => ?_⟩
  · unfold Table.bucketPeers
    split
    · simpa only [List.map_map] using (h _).peers_nodup
    · exact List.nodup_nil
  · intro hn inJ inJ'
    obtain ⟨p, hp, rfl⟩ := List.mem_map.mp inJ
    obtain ⟨q, hq, same⟩ := List.mem_map.mp inJ'
    exact ne (by rw [← h.bucketPeers_filed hp, ← h.bucketPeers_filed hq, same])

theorem Table.Inv.nodup_activePeers {t : Table} (h : t.Inv) :
    (t.activePeers.map (·.peerInfo.hashname)).Nodup := by
  have := h.nodup_collected ((List.nodup_finRange numBuckets).map
    (fun i j same => Fin.ext (Int.ofNat_inj.mp same)))
  rwa [← Table.activePeers_peerInfo, List.map_map] at this

/-! ## The shape of the result -/

/-- Activate `2^255`, in bucket 0 of local hashname 0, and `2^250`, in bucket 5. -/
def nearMissTable : Table :=
  ((Table.init 0).run [.activatePeer (1 <<< 255) 0, .activatePeer (1 <<< 250) 1]).1

/-- The lookup's hashnames as a prefix of the sorted collected ones. -/
theorem hashnames_take (key : Key) (collected : List PeerInfo) (n : Nat) :
    ((sortByKeyDistance key collected).take n).map (·.hashname) =
      ((sortByKeyDistance key collected).map (·.hashname)).take n :=
  List.map_take _ _ _

/-- When `make` can allocate `n' + 96` entries, `n'` the size after the default, `findKey` on a
reachable table returns `min n' A` distinct active hashnames, `A` the number of active entries,
sorted by distance to the key. -/
theorem findKey_shape {t : Table} (reach : Reachable t) (key : Key) {n : UInt64} {avail : Nat}
    (fits : peerInfoSize * ((lookupSize n).toNat + 3 * maxPeers) ≤ min maxAlloc avail) :
    ∃ out, t.findKey key n avail = some out ∧
      out.length = min (if n = 0 then defaultLookupSize else n.toNat) t.activePeers.length ∧
      out.Nodup ∧ (∀ h ∈ out, ∃ p ∈ t.activePeers, p.peerInfo.hashname = h) ∧
      out.Sorted fun a b => (keyDistance a key).toNat ≤ (keyDistance b key).toNat := by
  have inv := reach.inv
  rw [← lookupSize_toNat]
  obtain ⟨r, hr, -, stop, found⟩ := findKey_eq t key fits
  refine ⟨_, found, ?_, ?_, ?_, ?_⟩ <;>
    rw [hashnames_take]
  · have sorted := (sortByKeyDistance_perm key
        ((visited (t.startBucket key) r).flatMap t.bucketPeers)).length_eq
    have nodup := inv.nodup_collected (nodup_visited (t.startBucket key) r)
    have atMost := (List.subperm_of_subset (nodup.of_map _) (collected_subset t _)).length_le
    simp only [List.length_map] at sorted atMost
    rw [List.length_take, List.length_map, sorted]
    rcases stop with last | enough
    · obtain rfl : r = numBuckets - 1 := by omega
      have atLeast := (List.subperm_of_subset (List.Nodup.of_map (·.hashname)
        (by rw [List.map_map]; exact inv.nodup_activePeers)) (collected_all t key)).length_le
      simp only [List.length_map] at atLeast
      omega
    · omega
  · exact ((sortByKeyDistance_perm key _).nodup_iff.mpr
      (inv.nodup_collected (nodup_visited _ r))).sublist (List.take_sublist _ _)
  · intro h mem
    obtain ⟨p, hp, rfl⟩ := List.mem_map.mp
      ((sortByKeyDistance_perm key _).subset (List.mem_of_mem_take mem))
    obtain ⟨a, ha, rfl⟩ := List.mem_map.mp (collected_subset t _ hp)
    exact ⟨a, ha, rfl⟩
  · exact (sortByKeyDistance_sorted key _).sublist (List.take_sublist _ _)

theorem nearMiss_lookup_shape :
    Reachable nearMissTable ∧
      peerInfoSize * ((lookupSize 0).toNat + 3 * maxPeers) ≤ min maxAlloc maxAlloc ∧
      ∃ out, nearMissTable.findKey 0 0 maxAlloc = some out ∧
        out.length = min (if (0 : UInt64) = 0 then defaultLookupSize else (0 : UInt64).toNat)
          nearMissTable.activePeers.length ∧
        out.Nodup ∧ (∀ h ∈ out, ∃ p ∈ nearMissTable.activePeers, p.peerInfo.hashname = h) ∧
        out.Sorted fun a b => (keyDistance a 0).toNat ≤ (keyDistance b 0).toNat :=
  ⟨(Reachable.init 0).run _, by decide, findKey_shape ((Reachable.init 0).run _) 0 (by decide)⟩

/-! ## The capacity overflow -/

/-- For `2^63 - 96 ≤ n < 2^63`, `make([]peerInfo, 0, n+(3*maxPeers))` gets a negative capacity
and panics, on every table and key. -/
theorem findKey_cap_overflow (t : Table) (key : Key) {n : UInt64} (avail : Nat)
    (lo : 2 ^ 63 - 3 * maxPeers ≤ n.toNat) (hi : n.toNat < 2 ^ 63) : t.findKey key n avail = none := by
  have nonzero : n ≠ 0 := by rintro rfl; exact absurd lo (by decide)
  have size : lookupSize n = n := if_neg nonzero
  have : maxPeers = 32 := rfl
  have capacity : goInt (n + (3 * maxPeers).toUInt64) < 0 := by
    have : (3 * maxPeers).toUInt64.toNat = 96 := rfl
    have sum : (n + (3 * maxPeers).toUInt64).toNat = n.toNat + 96 := by
      rw [UInt64.toNat_add_of_lt] <;> rw [this]
      omega
    rw [goInt, if_neg (by omega), sum]
    omega
  simp only [Table.findKey, size, capacity, true_or, if_true]

theorem findKey_cap_overflow_at_max :
    2 ^ 63 - 3 * maxPeers ≤ (9223372036854775807 : UInt64).toNat ∧
      (9223372036854775807 : UInt64).toNat < 2 ^ 63 ∧
      (Table.init 0).findKey 0 9223372036854775807 maxAlloc = none :=
  ⟨by decide, by decide, findKey_cap_overflow _ _ _ (by decide) (by decide)⟩

theorem Table.bucketPeers_length_le {t : Table} (inv : t.Inv) (idx : Int) :
    (t.bucketPeers idx).length ≤ maxPeers := by
  unfold Table.bucketPeers
  split
  · rw [List.length_map]; exact (inv _).peers_le
  · exact Nat.zero_le _

theorem sortByKeyDistance_length (key : Key) (peers : List PeerInfo) :
    (sortByKeyDistance key peers).length = peers.length := by
  simp [sortByKeyDistance, List.length_insertionSort]

/-- A walk asked for a negative number of entries makes no round. -/
theorem Table.walk_of_neg (t : Table) (start : Int) {n : Int} (neg : n < 0) (fuel offset : Nat)
    (peers : List PeerInfo) : t.walk start n fuel offset peers = (peers, offset) := by
  cases fuel with
  | zero => rfl
  | succ fuel => simp only [Table.walk]; rw [if_neg (by omega)]

/-- On a reachable table `findKey` faults for exactly the sizes `n` (after the default) whose
capacity of `n + 96` entries takes more bytes than `maxAlloc` or than the heap can give.  Below
`2^63 - 96` that is the `make` of `findKey_eq`; above, the bytes pass `maxAlloc` anyway, and the
code panics in `make`, whose capacity reads as a negative `int`, or from `2^64 - 96` on in the
trim, since the capacity wraps to below 96 while `int(n)` is negative. -/
theorem findKey_faults_iff {t : Table} (reach : Reachable t) (key : Key) (n : UInt64) (avail : Nat) :
    t.findKey key n avail = none ↔
      min maxAlloc avail < peerInfoSize * ((lookupSize n).toNat + 3 * maxPeers) := by
  have sizes : maxPeers = 32 ∧ defaultLookupSize = 32 ∧ peerInfoSize = 56 := ⟨rfl, rfl, rfl⟩
  constructor
  · intro faults
    by_contra fits
    obtain ⟨r, -, -, -, found⟩ := findKey_eq t key (not_lt.mp fits)
    rw [found] at faults
    cases faults
  · intro big
    by_cases small : (lookupSize n).toNat < 2 ^ 63 - 3 * maxPeers
    · simp only [Table.findKey]
      rw [if_pos (.inr (by rwa [goInt_capacity small, Int.toNat_ofNat]))]
    have size : lookupSize n = n := if_neg fun zero => by rw [zero] at small; exact small (by decide)
    rw [size] at small
    have below : n.toNat < 2 ^ 64 := n.toNat_lt
    have sum : (n + (3 * maxPeers).toUInt64).toNat = (n.toNat + 96) % 2 ^ 64 := by
      simp only [UInt64.toNat, UInt64.add_def, BitVec.toNat_add]; rfl
    by_cases wraps : n.toNat < 2 ^ 64 - 3 * maxPeers
    · have capacity : goInt (n + (3 * maxPeers).toUInt64) < 0 := by
        rw [goInt, sum, Nat.mod_eq_of_lt (by omega), if_neg (by omega)]
        omega
      simp only [Table.findKey, size, capacity, true_or, if_true]
    · have capacity : ¬ goInt (n + (3 * maxPeers).toUInt64) < 0 := by
        rw [goInt, sum, if_pos (by omega)]
        omega
      have negative : goInt n < 0 := by rw [goInt, if_neg (by omega)]; omega
      have short := Table.bucketPeers_length_le reach.inv (t.startBucket key)
      simp only [Table.findKey, size, capacity, false_or, Table.walk_of_neg t _ negative, trim,
        sortByKeyDistance_length]
      split
      · rfl
      · rw [if_pos (by omega), if_neg (by omega)]
        rfl

/-- The first size past `maxAlloc`: `make` panics for `5026338869738 + 96` entries of 56 bytes,
however much memory the heap has. -/
theorem findKey_faults_past_maxAlloc :
    Reachable nearMissTable ∧
      min maxAlloc maxAlloc < peerInfoSize * ((lookupSize 5026338869738).toNat + 3 * maxPeers) ∧
      nearMissTable.findKey 0 5026338869738 maxAlloc = none :=
  ⟨(Reachable.init 0).run _, by decide,
    (findKey_faults_iff ((Reachable.init 0).run _) 0 _ _).mpr (by decide)⟩

/-! ## Nearness -/

end Telehash.Kademlia
