/-
# Telehash.Kademlia.Promotion -- `nextCandidate` against the bucket capacity

`nextCandidate` skips a bucket when its active and pending entries add up to exactly
`maxPeers` (`promote_of_ne_maxPeers`).  `activatePeer` fills `peers` up to `maxPeers` without
counting `pending` (`activatePeer_fresh`), so a bucket can pass that count, and once past it the
test never skips the bucket again.  `pending_overfills` runs a table from `init` to a bucket
with 32 active and one pending entry, where `nextCandidate` still promotes a candidate.
-/
import Telehash.Kademlia.Invariant

namespace Telehash.Kademlia

set_option autoImplicit false

/-- A bucket whose `peers` and `pending` do not add up to exactly `maxPeers` promotes its first
candidate, however many entries it already holds. -/
theorem promote_of_ne_maxPeers {b : Bucket} {c : CandidatePeer} {cs : List CandidatePeer}
    (ne : b.peers.length + b.pending.length ≠ maxPeers) (head : b.candidates = c :: cs) :
    b.promote = some ({ b with candidates := cs, pending := b.pending ++ [c] }, c) := by
  simp [Bucket.promote, ne, head]

/-- Bucket 0 comes first in `nextCandidate`'s scan. -/
theorem nextCandidate_of_promote_zero (t : Table) {b : Bucket} {c : CandidatePeer}
    (promoted : (t.buckets 0).promote = some (b, c)) :
    t.nextCandidate = (t.setBucket 0 b, some c) := by
  have first : t.promoteAt 0 = some (0, b, c) := by
    simp only [Table.promoteAt, dif_pos (show 0 < numBuckets by decide)]
    rw [show (⟨0, _⟩ : Fin numBuckets) = 0 from rfl, promoted]
    rfl
  have range : List.range numBuckets = 0 :: (List.range 255).map Nat.succ :=
    List.range_succ_eq_map 255
  unfold Table.nextCandidate
  rw [range, List.findSome?_cons_of_isSome _ (by rw [first]; rfl), first]

/-- Activating a hashname that is neither active nor pending in a bucket with room appends it to
`peers` and changes nothing else. -/
theorem activatePeer_fresh (t : Table) {hn : Hashname} {i : Fin numBuckets} (tag : Tag)
    (hi : bucketIndex t.localHashname hn = some i)
    (notPeer : ∀ p ∈ (t.buckets i).peers, p.peerInfo.hashname ≠ hn)
    (notPending : ∀ c ∈ (t.buckets i).pending, c.peerInfo.hashname ≠ hn)
    (room : (t.buckets i).peers.length < maxPeers) :
    (t.activatePeer hn tag).1 = t.setBucket i
      { t.buckets i with peers := (t.buckets i).peers ++ [⟨t.peerInfoOf i hn, tag⟩] } := by
  have keep : (t.buckets i).pending.eraseP (·.peerInfo.hashname == hn) = (t.buckets i).pending :=
    List.eraseP_of_forall_not fun c hc same => notPending c hc (by simpa using same)
  have absent : (t.buckets i).peers.find? (·.peerInfo.hashname == hn) = none :=
    List.find?_eq_none.mpr fun p hp same => notPeer p hp (by simpa using same)
  rw [activatePeer_of_bucketIndex t tag hi]
  simp only [Bucket.activate, Table.peerInfoOf_hashname, keep, absent, ge_iff_le,
    Nat.not_le.mpr room, if_false]

/-- Activating fresh, distinct hashnames of one bucket, while it has room, appends them to
`peers` in order. -/
theorem run_activatePeers_fresh {i : Fin numBuckets} :
    ∀ (ps : List (Hashname × Tag)) (t : Table),
      (∀ p ∈ ps, bucketIndex t.localHashname p.1 = some i) → (ps.map Prod.fst).Nodup →
      (∀ p ∈ ps, ∀ q ∈ (t.buckets i).peers, q.peerInfo.hashname ≠ p.1) →
      (∀ p ∈ ps, ∀ c ∈ (t.buckets i).pending, c.peerInfo.hashname ≠ p.1) →
      (t.buckets i).peers.length + ps.length ≤ maxPeers →
      (t.run (ps.map fun p => .activatePeer p.1 p.2)).1 = t.setBucket i
        { t.buckets i with peers := (t.buckets i).peers ++ ps.map fun p => ⟨t.peerInfoOf i p.1, p.2⟩ }
  | [], t, _, _, _, _, _ => by simp [Table.run, Table.setBucket]
  | p :: ps, t, filed, nodup, notPeer, notPending, room => by
      simp only [List.map_cons, List.nodup_cons, List.mem_map, not_exists, not_and,
        List.mem_cons, forall_eq_or_imp, List.length_cons] at filed nodup notPeer notPending room
      have step := activatePeer_fresh t p.2 filed.1 notPeer.1 notPending.1 (by omega)
      simp only [List.map_cons, Table.run, Table.step, step]
      rw [run_activatePeers_fresh ps (t.setBucket i _) filed.2 nodup.2 _ _ (by simp; omega)]
      · simp [List.append_assoc]; rfl
      · intro q hq r hr
        simp only [Table.setBucket_same, List.mem_append, List.mem_singleton] at hr
        rcases hr with hr | rfl
        · exact notPeer.2 q hq r hr
        · exact fun same => nodup.1 q hq same.symm
      · intro q hq c hc
        simp only [Table.setBucket_same] at hc
        exact notPending.2 q hq c hc

/-! ## A bucket past `maxPeers` -/

/-- `2^255 + k`: filed in bucket 0 of a table whose local hashname is 0. -/
def farHashname (k : Nat) : Hashname := BitVec.ofNat 256 (2 ^ 255 + k)

theorem farHashname_toNat {k : Nat} (hk : k < 2 ^ 255) : (farHashname k).toNat = 2 ^ 255 + k := by
  simp only [farHashname, BitVec.toNat_ofNat]
  exact Nat.mod_eq_of_lt (by omega)

theorem farHashname_inj {j k : Nat} (hj : j < 2 ^ 255) (hk : k < 2 ^ 255)
    (h : farHashname j = farHashname k) : j = k := by
  have := congrArg BitVec.toNat h
  rw [farHashname_toNat hj, farHashname_toNat hk] at this
  omega

theorem bucketIndex_farHashname {k : Nat} (hk : k < 2 ^ 255) :
    bucketIndex 0 (farHashname k) = some 0 := by
  have bucket : bucketFromDistance (distance 0 (farHashname k)) = 0 := by
    rw [bucketFromDistance, bucketFromDistance.scan, if_pos]
    · rfl
    · simp only [distance, BitVec.toNat_xor, farHashname_toNat hk]; simp
  simp only [bucketIndex, bucket]
  rfl

/-- Learn a candidate and promote it, activate 32 other hashnames of the same bucket, and learn
one more candidate. -/
def overfillRun : List Op :=
  [.addCandidate (farHashname 32) 0, .nextCandidate] ++
    ((List.range 32).map fun k => (farHashname k, k)).map (fun p => .activatePeer p.1 p.2) ++
      [.addCandidate (farHashname 33) 0]

/-- The entry of candidate `farHashname k` learned from router 0. -/
def farCandidate (k : Nat) : CandidatePeer := ⟨(Table.init 0).peerInfoOf 0 (farHashname k), [0]⟩

/-- The active entries the 32 activations of `overfillRun` leave in bucket 0. -/
def farPeers : List ActivePeer :=
  ((List.range 32).map fun k => (farHashname k, k)).map fun p =>
    ⟨(Table.init 0).peerInfoOf 0 p.1, p.2⟩

theorem run_overfillRun :
    ((Table.init 0).run overfillRun).1 =
      (Table.init 0).setBucket 0 ⟨farPeers, [farCandidate 33], [farCandidate 32]⟩ := by
  have learned : ((Table.init 0).run [.addCandidate (farHashname 32) 0, .nextCandidate]).1 =
      (Table.init 0).setBucket 0 ⟨[], [], [farCandidate 32]⟩ := by
    have added : (Table.init 0).addCandidate (farHashname 32) 0 =
        (Table.init 0).setBucket 0 ⟨[], [farCandidate 32], []⟩ := by
      rw [addCandidate_of_bucketIndex (Table.init 0) 0
        (bucketIndex_farHashname (show 32 < 2 ^ 255 by decide))]
      rfl
    have promoted := @promote_of_ne_maxPeers
      (((Table.init 0).setBucket 0 ⟨[], [farCandidate 32], []⟩).buckets 0) (farCandidate 32) []
      (by simp) (by simp)
    simp only [Table.run, Table.step, added, nextCandidate_of_promote_zero _ promoted,
      Table.setBucket_setBucket, Table.setBucket_same]
    rfl
  have farRange : ∀ p ∈ (List.range 32).map fun k => (farHashname k, k),
      ∃ k < 32, p = (farHashname k, k) := by
    simp only [List.mem_map, List.mem_range]
    rintro p ⟨k, hk, rfl⟩
    exact ⟨k, hk, rfl⟩
  have activated : (((Table.init 0).setBucket 0 ⟨[], [], [farCandidate 32]⟩).run
      (((List.range 32).map fun k => (farHashname k, k)).map fun p => .activatePeer p.1 p.2)).1 =
      (Table.init 0).setBucket 0 ⟨farPeers, [], [farCandidate 32]⟩ := by
    rw [@run_activatePeers_fresh 0 _ ((Table.init 0).setBucket 0 ⟨[], [], [farCandidate 32]⟩)]
    · simp only [Table.setBucket_setBucket, Table.setBucket_same, List.nil_append]
      rfl
    · intro p hp
      obtain ⟨k, hk, rfl⟩ := farRange p hp
      exact bucketIndex_farHashname (by omega)
    · rw [List.map_map]
      exact (List.nodup_range 32).map_on fun j hj k hk same =>
        farHashname_inj (by simp at hj; omega) (by simp at hk; omega) same
    · simp
    · intro p hp c hc
      obtain ⟨k, hk, rfl⟩ := farRange p hp
      simp only [Table.setBucket_same, List.mem_singleton] at hc
      subst hc
      exact fun same => absurd (farHashname_inj (by decide) (by omega) same) (by omega)
    · simp
  have learnedLast :
      ((Table.init 0).setBucket 0 ⟨farPeers, [], [farCandidate 32]⟩).addCandidate (farHashname 33) 0 =
        (Table.init 0).setBucket 0 ⟨farPeers, [farCandidate 33], [farCandidate 32]⟩ := by
    rw [addCandidate_of_bucketIndex ((Table.init 0).setBucket 0 ⟨farPeers, [], [farCandidate 32]⟩) 0
      (bucketIndex_farHashname (show 33 < 2 ^ 255 by decide)), Table.setBucket_setBucket,
      Table.setBucket_same]
    congr 1
  rw [overfillRun, Table.run_append, Table.run_append, learned, activated]
  simp only [Table.run, Table.step, learnedLast]

/-- The table `overfillRun` leaves, from `init 0`. -/
def overfilled : Table := ((Table.init 0).run overfillRun).1

/-- After `overfillRun`, bucket 0 holds 32 active entries and one pending entry, one more than
`maxPeers`, and `nextCandidate` still moves a candidate into its `pending`. -/
theorem pending_overfills :
    Reachable overfilled ∧
      (overfilled.buckets 0).peers.length + (overfilled.buckets 0).pending.length = maxPeers + 1 ∧
      (overfilled.nextCandidate.1.buckets 0).pending.length = 2 := by
  refine ⟨(Reachable.init 0).run _, ?_⟩
  simp only [overfilled, run_overfillRun, Table.setBucket_same]
  refine ⟨by simp [farPeers], ?_⟩
  rw [nextCandidate_of_promote_zero _ (promote_of_ne_maxPeers (by simp [farPeers]) rfl)]
  simp

end Telehash.Kademlia
