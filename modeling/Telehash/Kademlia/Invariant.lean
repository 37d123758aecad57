/-
# Telehash.Kademlia.Invariant -- what every reachable routing table satisfies

`Bucket.WellFormed` is the table's representation invariant, bucket by bucket: every entry is
filed in the bucket of its hashname, with that bucket in its `bucket` field, and is not the
local hashname; `peers` and `candidates` stay within `maxPeers` and `maxCandidates`; every
candidate, pending or not, names between one and `maxRoutersPerCandidate` routers; and no
hashname occurs twice in one list.  It is preserved together with one more fact, that
`candidates` and `pending` share no hashname (`Bucket.Inv`): by each bucket operation
(`Bucket.Inv.activate`, `.deactivate`, `.addCandidate`, `.promote`), so by every step
(`Table.Inv.step`) and every run (`reachable_wellFormed`).

The spec's exclusivity law is only two thirds of an invariant.  `candidates` and `pending` stay
disjoint, but `activatePeer` takes `hn` out of `pending` and never out of `candidates`
(`activatePeer_candidates`), so a candidate that is activated directly is active and a
candidate at once (`candidate_activated_stays_candidate`).
-/
import Telehash.Kademlia.Table

namespace Telehash.Kademlia

set_option autoImplicit false

/-- `e` is filed in bucket `i` of a table whose local hashname is `l`. -/
def PeerInfo.FiledIn (l : Hashname) (i : Fin numBuckets) (e : PeerInfo) : Prop :=
  e.hashname ≠ l ∧ bucketFromDistance (Kademlia.distance l e.hashname) = (i : Nat) ∧
    e.bucket = (i : Nat)

/-- A candidate's router list is never empty and never longer than `maxRoutersPerCandidate`. -/
def CandidatePeer.RoutersOk (c : CandidatePeer) : Prop :=
  1 ≤ c.routers.length ∧ c.routers.length ≤ maxRoutersPerCandidate

/-- The representation invariant of bucket `i` of a table whose local hashname is `l`. -/
structure Bucket.WellFormed (l : Hashname) (i : Fin numBuckets) (b : Bucket) : Prop where
  peers_filed : ∀ p ∈ b.peers, p.peerInfo.FiledIn l i
  candidates_filed : ∀ c ∈ b.candidates, c.peerInfo.FiledIn l i
  pending_filed : ∀ c ∈ b.pending, c.peerInfo.FiledIn l i
  peers_le : b.peers.length ≤ maxPeers
  candidates_le : b.candidates.length ≤ maxCandidates
  candidates_routers : ∀ c ∈ b.candidates, c.RoutersOk
  pending_routers : ∀ c ∈ b.pending, c.RoutersOk
  peers_nodup : (b.peers.map (·.peerInfo.hashname)).Nodup
  candidates_nodup : (b.candidates.map (·.peerInfo.hashname)).Nodup
  pending_nodup : (b.pending.map (·.peerInfo.hashname)).Nodup

/-- The invariant the bucket operations preserve: well formed, and no hashname both a candidate
and pending. -/
structure Bucket.Inv (l : Hashname) (i : Fin numBuckets) (b : Bucket)
    extends b.WellFormed l i : Prop where
  candidates_pending : ∀ c ∈ b.candidates, ∀ c' ∈ b.pending,
    c.peerInfo.hashname ≠ c'.peerInfo.hashname

/-- Every bucket of `t` satisfies `Bucket.Inv`. -/
def Table.Inv (t : Table) : Prop := ∀ i, (t.buckets i).Inv t.localHashname i

/-! ## Bucket operations -/

section Bucket

variable {l : Hashname} {i : Fin numBuckets} {b : Bucket}

theorem Bucket.inv_empty : Bucket.empty.Inv l i where
  peers_filed := by simp [Bucket.empty]
  candidates_filed := by simp [Bucket.empty]
  pending_filed := by simp [Bucket.empty]
  peers_le := by simp [Bucket.empty]
  candidates_le := by simp [Bucket.empty]
  candidates_routers := by simp [Bucket.empty]
  pending_routers := by simp [Bucket.empty]
  peers_nodup := by simp [Bucket.empty]
  candidates_nodup := by simp [Bucket.empty]
  pending_nodup := by simp [Bucket.empty]
  candidates_pending := by simp [Bucket.empty]

theorem Bucket.Inv.pending_sublist (h : b.Inv l i) {pending : List CandidatePeer}
    (sub : pending.Sublist b.pending) : ({ b with pending } : Bucket).Inv l i where
  __ := h
  pending_filed c hc := h.pending_filed c (sub.subset hc)
  pending_routers c hc := h.pending_routers c (sub.subset hc)
  pending_nodup := h.pending_nodup.sublist (sub.map _)
  candidates_pending c hc c' hc' := h.candidates_pending c hc c' (sub.subset hc')

theorem Bucket.Inv.candidates_sublist (h : b.Inv l i) {candidates : List CandidatePeer}
    (sub : candidates.Sublist b.candidates) : ({ b with candidates } : Bucket).Inv l i where
  __ := h
  candidates_filed c hc := h.candidates_filed c (sub.subset hc)
  candidates_le := sub.length_le.trans h.candidates_le
  candidates_routers c hc := h.candidates_routers c (sub.subset hc)
  candidates_nodup := h.candidates_nodup.sublist (sub.map _)
  candidates_pending c hc c' hc' := h.candidates_pending c (sub.subset hc) c' hc'

theorem Bucket.Inv.peers_sublist (h : b.Inv l i) {peers : List ActivePeer}
    (sub : peers.Sublist b.peers) : ({ b with peers } : Bucket).Inv l i where
  __ := h
  peers_filed p hp := h.peers_filed p (sub.subset hp)
  peers_le := sub.length_le.trans h.peers_le
  peers_nodup := h.peers_nodup.sublist (sub.map _)

/-- Swapping the tag of an active entry changes nothing the invariant reads. -/
theorem Bucket.Inv.swap_tag (h : b.Inv l i) (p : ActivePeer → Bool) (tag : Tag) :
    ({ b with peers := updateFirst p (fun q => { q with tag }) b.peers } : Bucket).Inv l i where
  __ := h
  peers_filed q hq := by
    rcases mem_updateFirst _ _ hq with hq | ⟨q', hq', rfl⟩
    · exact h.peers_filed q hq
    · exact h.peers_filed q' hq'
  peers_le := (length_updateFirst _ _ _).trans_le h.peers_le
  peers_nodup := by
    dsimp only
    rw [@map_updateFirst _ _ p (fun q => { q with tag }) (·.peerInfo.hashname) (fun _ => rfl)]
    exact h.peers_nodup

theorem Bucket.Inv.push_peer (h : b.Inv l i) {info : PeerInfo} (tag : Tag)
    (filed : info.FiledIn l i) (fresh : ∀ p ∈ b.peers, p.peerInfo.hashname ≠ info.hashname)
    (room : b.peers.length < maxPeers) :
    ({ b with peers := b.peers ++ [⟨info, tag⟩] } : Bucket).Inv l i where
  __ := h
  peers_filed p hp := by
    rcases List.mem_append.mp hp with hp | hp
    · exact h.peers_filed p hp
    · rw [List.mem_singleton.mp hp]; exact filed
  peers_le := by simp only [List.length_append, List.length_singleton]; omega
  peers_nodup := by
    simp only [List.map_append, List.map_singleton, List.nodup_append, List.nodup_singleton,
      List.disjoint_singleton, List.mem_map, not_exists, not_and]
    exact ⟨h.peers_nodup, trivial, fresh⟩

theorem Bucket.Inv.activate (h : b.Inv l i) {info : PeerInfo} (tag : Tag)
    (filed : info.FiledIn l i) : (b.activate info tag).1.Inv l i := by
  have erased :=
    h.pending_sublist (@List.eraseP_sublist _ (·.peerInfo.hashname == info.hashname) b.pending)
  unfold Bucket.activate
  dsimp only
  split
  · exact erased.swap_tag _ tag
  · rename_i notFound
    split
    · exact erased
    · refine erased.push_peer tag filed (fun p hp same => ?_) (by simp only at *; omega)
      simpa [same] using List.find?_eq_none.mp notFound p hp

theorem Bucket.Inv.deactivate (h : b.Inv l i) (hn : Hashname) : (b.deactivate hn).1.Inv l i :=
  ((h.peers_sublist (List.eraseP_sublist _)).candidates_sublist
    (List.eraseP_sublist _)).pending_sublist (List.eraseP_sublist _)

theorem mergeRouters_routersOk {c : CandidatePeer} (router : Hashname) (ok : c.RoutersOk) :
    (mergeRouters c router).RoutersOk := by
  unfold mergeRouters CandidatePeer.RoutersOk at *
  dsimp only
  split <;> simp only [List.length_append, List.length_take] at * <;> omega

theorem Bucket.Inv.merge_routers (h : b.Inv l i) (p : CandidatePeer → Bool) (router : Hashname) :
    ({ b with candidates := updateFirst p (mergeRouters · router) b.candidates } : Bucket).Inv
      l i where
  __ := h
  candidates_filed c hc := by
    rcases mem_updateFirst _ _ hc with hc | ⟨c', hc', rfl⟩
    · exact h.candidates_filed c hc
    · exact h.candidates_filed c' hc'
  candidates_le := (length_updateFirst _ _ _).trans_le h.candidates_le
  candidates_routers c hc := by
    rcases mem_updateFirst _ _ hc with hc | ⟨c', hc', rfl⟩
    · exact h.candidates_routers c hc
    · exact mergeRouters_routersOk router (h.candidates_routers c' hc')
  candidates_nodup := by
    dsimp only
    rw [@map_updateFirst _ _ p (mergeRouters · router) (·.peerInfo.hashname) (fun _ => rfl)]
    exact h.candidates_nodup
  candidates_pending c hc := by
    rcases mem_updateFirst _ _ hc with hc | ⟨c', hc', rfl⟩
    · exact h.candidates_pending c hc
    · exact h.candidates_pending c' hc'

theorem Bucket.Inv.push_candidate (h : b.Inv l i) {info : PeerInfo} (router : Hashname)
    (filed : info.FiledIn l i)
    (fresh : ∀ c ∈ b.candidates, c.peerInfo.hashname ≠ info.hashname)
    (notPending : ∀ c ∈ b.pending, c.peerInfo.hashname ≠ info.hashname)
    (room : b.candidates.length < maxCandidates) :
    ({ b with candidates := b.candidates ++ [⟨info, [router]⟩] } : Bucket).Inv l i where
  __ := h
  candidates_filed c hc := by
    rcases List.mem_append.mp hc with hc | hc
    · exact h.candidates_filed c hc
    · rw [List.mem_singleton.mp hc]; exact filed
  candidates_le := by simp only [List.length_append, List.length_singleton]; omega
  candidates_routers c hc := by
    rcases List.mem_append.mp hc with hc | hc
    · exact h.candidates_routers c hc
    · rw [List.mem_singleton.mp hc]; simp [CandidatePeer.RoutersOk, maxRoutersPerCandidate]
  candidates_nodup := by
    simp only [List.map_append, List.map_singleton, List.nodup_append, List.nodup_singleton,
      List.disjoint_singleton, List.mem_map, not_exists, not_and]
    exact ⟨h.candidates_nodup, trivial, fresh⟩
  candidates_pending c hc c' hc' := by
    rcases List.mem_append.mp hc with hc | hc
    · exact h.candidates_pending c hc c' hc'
    · rw [List.mem_singleton.mp hc]; exact (notPending c' hc').symm

theorem Bucket.Inv.addCandidate (h : b.Inv l i) {info : PeerInfo} (router : Hashname)
    (filed : info.FiledIn l i) : (b.addCandidate info router).Inv l i := by
  unfold Bucket.addCandidate
  dsimp only
  split
  · exact h
  split
  · exact h
  rename_i notPending
  split
  · exact h.merge_routers _ router
  rename_i notCandidate
  split
  · refine h.push_candidate router filed ?_ ?_ (by omega)
    · intro c hc same
      exact notCandidate (List.any_eq_true.mpr ⟨c, hc, by simp [same]⟩)
    · intro c hc same
      exact notPending (List.any_eq_true.mpr ⟨c, hc, by simp [same]⟩)
  · exact h

theorem Bucket.Inv.promote (h : b.Inv l i) {b' : Bucket} {c : CandidatePeer}
    (promoted : b.promote = some (b', c)) : b'.Inv l i := by
  unfold Bucket.promote at promoted
  split at promoted
  · cases promoted
  split at promoted
  · cases promoted
  rename_i c₀ cs heq
  cases promoted
  have hc : c ∈ b.candidates := by simp [heq]
  have nodup := h.candidates_nodup
  simp only [heq, List.map_cons, List.nodup_cons, List.mem_map, not_exists, not_and] at nodup
  exact {
    peers_filed := h.peers_filed
    candidates_filed := fun c' hc' => h.candidates_filed c' (by simp [heq, hc'])
    pending_filed := fun c' hc' => by
      rcases List.mem_append.mp hc' with hc' | hc'
      · exact h.pending_filed c' hc'
      · rw [List.mem_singleton.mp hc']; exact h.candidates_filed c hc
    peers_le := h.peers_le
    candidates_le := by
      have := h.candidates_le; simp only [heq, List.length_cons] at this ⊢; omega
    candidates_routers := fun c' hc' => h.candidates_routers c' (by simp [heq, hc'])
    pending_routers := fun c' hc' => by
      rcases List.mem_append.mp hc' with hc' | hc'
      · exact h.pending_routers c' hc'
      · rw [List.mem_singleton.mp hc']; exact h.candidates_routers c hc
    peers_nodup := h.peers_nodup
    candidates_nodup := nodup.2
    pending_nodup := by
      simp only [List.map_append, List.map_singleton, List.nodup_append, List.nodup_singleton,
        List.disjoint_singleton, List.mem_map, not_exists, not_and]
      exact ⟨h.pending_nodup, trivial, fun c' hc' same => h.candidates_pending c hc c' hc' same.symm⟩
    candidates_pending := fun c' hc' c'' hc'' => by
      rcases List.mem_append.mp hc'' with hc'' | hc''
      · exact h.candidates_pending c' (by simp [heq, hc']) c'' hc''
      · rw [List.mem_singleton.mp hc'']
        exact fun same => nodup.1 c' hc' same }

end Bucket

/-! ## Table steps and runs -/

theorem Table.inv_init (l : Hashname) : (Table.init l).Inv := fun _ => Bucket.inv_empty

theorem Table.Inv.setBucket {t : Table} (h : t.Inv) {i : Fin numBuckets} {b : Bucket}
    (hb : b.Inv t.localHashname i) : (t.setBucket i b).Inv := by
  intro j
  by_cases hj : j = i
  · subst hj; simpa using hb
  · rw [Table.setBucket_of_ne _ _ hj]; exact h j

theorem Table.peerInfoOf_filed (t : Table) {hn : Hashname} {i : Fin numBuckets}
    (hi : bucketIndex t.localHashname hn = some i) : (t.peerInfoOf i hn).FiledIn t.localHashname i :=
  ⟨(bucketIndex_filed hi).2, (bucketIndex_filed hi).1, rfl⟩

@[simp] theorem Table.step_localHashname (t : Table) (op : Op) :
    (t.step op).1.localHashname = t.localHashname := by
  cases op with
  | activatePeer hn tag =>
      simp only [Table.step, Table.activatePeer]; split <;> rfl
  | deactivatePeer hn =>
      simp only [Table.step, Table.deactivatePeer]; split <;> rfl
  | addCandidate hn router =>
      simp only [Table.step, Table.addCandidate]; split <;> rfl
  | nextCandidate =>
      rcases nextCandidate_cases t with h | ⟨i, b, c, -, h⟩ <;> simp only [Table.step, h, Table.setBucket]
  | findKey => rfl
  | findNode => rfl

/-- One call of the interface keeps the invariant. -/
theorem Table.Inv.step {t : Table} (h : t.Inv) (op : Op) : (t.step op).1.Inv := by
  cases op with
  | activatePeer hn tag =>
      simp only [Table.step, Table.activatePeer]
      split
      · exact h
      · rename_i i hi
        exact h.setBucket ((h i).activate tag (t.peerInfoOf_filed hi))
  | deactivatePeer hn =>
      simp only [Table.step, Table.deactivatePeer]
      split
      · exact h
      · exact h.setBucket ((h _).deactivate hn)
  | addCandidate hn router =>
      simp only [Table.step, Table.addCandidate]
      split
      · exact h
      · rename_i i hi
        exact h.setBucket ((h i).addCandidate router (t.peerInfoOf_filed hi))
  | nextCandidate =>
      rcases nextCandidate_cases t with eq | ⟨i, b, c, promoted, eq⟩ <;>
        simp only [Table.step, eq]
      · exact h
      · exact h.setBucket ((h i).promote promoted)
  | findKey => exact h
  | findNode => exact h

theorem Table.run_localHashname (t : Table) (ops : List Op) :
    (t.run ops).1.localHashname = t.localHashname := by
  induction ops generalizing t with
  | nil => rfl
  | cons op ops ih => simp [Table.run, ih]

theorem Reachable.inv {t : Table} (h : Reachable t) : t.Inv := by
  induction h with
  | init l => exact Table.inv_init l
  | step op _ ih => exact ih.step op

/-- Every reachable table is well formed in each of its buckets. -/
theorem reachable_wellFormed {t : Table} (h : Reachable t) (i : Fin numBuckets) :
    (t.buckets i).WellFormed t.localHashname i :=
  (h.inv i).toWellFormed

/-- Learning a candidate and promoting it leaves bucket 0 well formed. -/
theorem wellFormed_after_promotion :
    (((Table.init 0).run [.addCandidate (1 <<< 255 : Hashname) 7, .nextCandidate]).1.buckets 0).WellFormed
      0 0 := by
  simpa [Table.run_localHashname] using reachable_wellFormed ((Reachable.init 0).run
    [.addCandidate (1 <<< 255 : Hashname) 7, .nextCandidate]) 0

/-! ## Exclusivity of peers and candidates -/

/-- `activatePeer` never touches a bucket's `candidates`. -/
theorem activatePeer_candidates (t : Table) (hn : Hashname) (tag : Tag) (i : Fin numBuckets) :
    ((t.activatePeer hn tag).1.buckets i).candidates = (t.buckets i).candidates := by
  unfold Table.activatePeer
  split
  · rfl
  · rename_i j _
    by_cases hij : i = j
    · subst hij
      simp only [Table.setBucket_same, Bucket.activate]
      split
      · rfl
      · split <;> rfl
    · simp [Table.setBucket_of_ne _ _ hij]

/-- A table whose local hashname is 0, after `addCandidate(2^255, 7)` and then
`activatePeer(2^255, 3)`. -/
def candidateThenActivated : Table :=
  ((Table.init 0).run [.addCandidate (1 <<< 255 : Hashname) 7, .activatePeer (1 <<< 255 : Hashname) 3]).1

/-- A hashname learned by `addCandidate` and then activated directly is both active and a
candidate of bucket 0. -/
theorem candidate_activated_stays_candidate :
    Reachable candidateThenActivated ∧
      (1 <<< 255 : Hashname) ∈ (candidateThenActivated.buckets 0).peers.map (·.peerInfo.hashname) ∧
      (1 <<< 255 : Hashname) ∈
        (candidateThenActivated.buckets 0).candidates.map (·.peerInfo.hashname) := by
  refine ⟨(Reachable.init 0).run _, by decide, ?_⟩
  show _ ∈ ((((Table.init 0).addCandidate (1 <<< 255) 7).activatePeer (1 <<< 255) 3).1.buckets 0).candidates.map _
  rw [activatePeer_candidates]
  decide

end Telehash.Kademlia
