/-
# Telehash.Kademlia.Tags -- mesh tags are owned linearly

`activatePeer` takes ownership of the tag it is handed: it stores it in a new active entry, or
releases it at once (the local hashname, a full bucket), and when the peer is already active it
releases the entry's old tag and keeps the new one.  `deactivatePeer` releases the tag of the
entry it removes.  Nothing else touches a tag.

That is a conservation law, `step_tags`: the tags the table holds after a call, together with
the tags the call released, are the tags held before together with the tag the call was handed
(as multisets).  Over a run from `init` (`run_tags`) the tags held and released together are
exactly the tags handed in; when those are distinct, as each `activatePeer` gets a fresh tag, no
tag is released twice or stored twice, and the tags held are exactly those handed in and not
yet released (`tags_linear`).
-/
import Telehash.Kademlia.Table

namespace Telehash.Kademlia

set_option autoImplicit false

open scoped BigOperators

/-- The tags held by the active entries of a bucket. -/
def Bucket.tags (b : Bucket) : Multiset Tag := (b.peers.map (·.tag) : Multiset Tag)

/-- The tags held by the active entries of a table.  Kept irreducible: unfolding the sum over
the 256 buckets is never what a proof wants. -/
@[irreducible] def Table.tags (t : Table) : Multiset Tag := ∑ i, (t.buckets i).tags

/-- The tag a call hands to the table. -/
def Op.given : Op → List Tag
  | .activatePeer _ tag => [tag]
  | .deactivatePeer _ | .addCandidate _ _ | .nextCandidate | .findKey _ _ | .findNode _ _ => []

theorem Table.mem_tags {t : Table} {tag : Tag} :
    tag ∈ t.tags ↔ ∃ i, ∃ p ∈ (t.buckets i).peers, p.tag = tag := by
  simp [Table.tags, Bucket.tags, Multiset.mem_sum]

@[simp] theorem Table.tags_init (l : Hashname) : (Table.init l).tags = 0 := by
  simp [Table.tags, Bucket.tags, Table.init, Bucket.empty]

/-- Rewriting one bucket trades its tags for the new bucket's. -/
theorem Table.tags_setBucket (t : Table) (i : Fin numBuckets) (b : Bucket) :
    (t.setBucket i b).tags + (t.buckets i).tags = t.tags + b.tags := by
  have rest : ∑ j ∈ Finset.univ.erase i, ((t.setBucket i b).buckets j).tags =
      ∑ j ∈ Finset.univ.erase i, (t.buckets j).tags :=
    Finset.sum_congr rfl fun j hj => by rw [Table.setBucket_of_ne _ _ (Finset.ne_of_mem_erase hj)]
  unfold Table.tags
  rw [← Finset.add_sum_erase _ _ (Finset.mem_univ i), ← Finset.add_sum_erase _ _ (Finset.mem_univ i),
    rest, Table.setBucket_same]
  ac_rfl

/-! ## One bucket -/

/-- Swapping the tag of the first matching entry trades its old tag for the new one. -/
theorem map_tag_updateFirst (p : ActivePeer → Bool) (tag : Tag) :
    ∀ {peers : List ActivePeer} {old : ActivePeer}, peers.find? p = some old →
      ((updateFirst p (fun q => { q with tag }) peers).map (·.tag) : Multiset Tag) + {old.tag} =
        (peers.map (·.tag) : Multiset Tag) + {tag}
  | [], _, h => by simp at h
  | q :: peers, old, h => by
      by_cases hq : p q
      · simp only [List.find?_cons_of_pos _ hq, Option.some.injEq] at h
        subst h
        simp only [updateFirst, hq, if_true, List.map_cons, ← Multiset.cons_coe, Multiset.cons_add]
        rw [← Multiset.singleton_add, ← Multiset.singleton_add]
        ac_rfl
      · simp only [List.find?_cons_of_neg _ hq] at h
        have := map_tag_updateFirst p tag h
        simp only [updateFirst, hq, List.map_cons, ← Multiset.cons_coe, Multiset.cons_add,
          Bool.false_eq_true, if_false, this]

/-- Removing the first matching entry gives up exactly its tag. -/
theorem map_tag_eraseP (p : ActivePeer → Bool) (peers : List ActivePeer) :
    ((peers.eraseP p).map (·.tag) : Multiset Tag) + ((peers.find? p).map (·.tag)).toList =
      (peers.map (·.tag) : Multiset Tag) := by
  induction peers with
  | nil => simp
  | cons q peers ih =>
      by_cases hq : p q
      · simp [List.eraseP_cons_of_pos hq, List.find?_cons_of_pos _ hq, add_comm]
      · simp only [List.eraseP_cons_of_neg hq, List.find?_cons_of_neg _ hq, List.map_cons,
          ← Multiset.cons_coe, Multiset.cons_add, ih]

theorem Bucket.activate_tags (b : Bucket) (info : PeerInfo) (tag : Tag) :
    (b.activate info tag).1.tags + ((b.activate info tag).2 : Multiset Tag) = b.tags + {tag} := by
  unfold Bucket.activate
  dsimp only
  split
  · rename_i old found
    exact map_tag_updateFirst _ tag found
  · split
    · rfl
    · simp only [Bucket.tags, List.map_append, List.map_singleton, ← Multiset.coe_add,
        Multiset.coe_nil, add_zero, Multiset.coe_singleton]

theorem Bucket.deactivate_tags (b : Bucket) (hn : Hashname) :
    (b.deactivate hn).1.tags + ((b.deactivate hn).2 : Multiset Tag) = b.tags :=
  map_tag_eraseP _ b.peers

theorem Bucket.addCandidate_tags (b : Bucket) (info : PeerInfo) (router : Hashname) :
    (b.addCandidate info router).tags = b.tags := by
  unfold Bucket.addCandidate
  dsimp only
  split_ifs <;> rfl

theorem Bucket.promote_tags {b b' : Bucket} {c : CandidatePeer} (h : b.promote = some (b', c)) :
    b'.tags = b.tags := by
  unfold Bucket.promote at h
  split_ifs at h
  split at h
  · cases h
  · cases h; rfl

/-! ## Steps and runs -/

/-- A bucket rewrite `O ↦ B` with `B + R = O + G` keeps `tags + released = tags₀ + given` for the
table. -/
theorem tags_trade {T T' O B R G : Multiset Tag} (swap : T' + O = T + B) (bucket : B + R = O + G) :
    T' + R = T + G := by
  have : T' + R + O = T + G + O := by
    rw [add_right_comm, swap, add_assoc, bucket, add_comm O G, add_assoc]
  exact add_right_cancel this

/-- Conservation of tags over one call. -/
theorem step_tags (t : Table) (op : Op) :
    (t.step op).1.tags + ((t.step op).2 : Multiset Tag) = t.tags + (op.given : Multiset Tag) := by
  cases op with
  | activatePeer hn tag =>
      cases hb : bucketIndex t.localHashname hn with
      | none => simp only [Table.step, Table.activatePeer, hb, Op.given]
      | some i =>
          rw [Table.step, activatePeer_of_bucketIndex t tag hb]
          exact tags_trade (Table.tags_setBucket t i _) (Bucket.activate_tags _ _ tag)
  | deactivatePeer hn =>
      cases hb : bucketIndex t.localHashname hn with
      | none => simp only [Table.step, Table.deactivatePeer, hb, Op.given]
      | some i =>
          rw [Table.step, deactivatePeer_of_bucketIndex t hb, Op.given, Multiset.coe_nil, add_zero]
          exact tags_trade (Table.tags_setBucket t i _)
            ((Bucket.deactivate_tags (t.buckets i) hn).trans (add_zero _).symm) |>.trans (add_zero _)
  | addCandidate hn router =>
      cases hb : bucketIndex t.localHashname hn with
      | none => simp only [Table.step, Table.addCandidate, hb, Op.given]
      | some i =>
          rw [Table.step, addCandidate_of_bucketIndex t router hb, Op.given, Multiset.coe_nil,
            add_zero, add_zero]
          have := Table.tags_setBucket t i ((t.buckets i).addCandidate (t.peerInfoOf i hn) router)
          rw [Bucket.addCandidate_tags] at this
          exact add_right_cancel this
  | nextCandidate =>
      rcases nextCandidate_cases t with h | ⟨i, b, c, promoted, h⟩ <;>
        simp only [Table.step, Op.given, h, Multiset.coe_nil, add_zero]
      have := Table.tags_setBucket t i b
      rw [Bucket.promote_tags promoted] at this
      exact add_right_cancel this
  | findKey => simp only [Table.step, Op.given]
  | findNode => simp only [Table.step, Op.given]

/-- Conservation of tags over a run. -/
theorem run_tags (t : Table) (ops : List Op) :
    (t.run ops).1.tags + ((t.run ops).2 : Multiset Tag) =
      t.tags + ((ops.flatMap Op.given : List Tag) : Multiset Tag) := by
  induction ops generalizing t with
  | nil => rfl
  | cons op ops ih =>
      calc (t.run (op :: ops)).1.tags + ((t.run (op :: ops)).2 : Multiset Tag)
          = ((t.step op).1.run ops).1.tags + (((t.step op).1.run ops).2 : Multiset Tag) +
              ((t.step op).2 : Multiset Tag) := by
            simp only [Table.run, ← Multiset.coe_add]; ac_rfl
        _ = (t.step op).1.tags + ((t.step op).2 : Multiset Tag) +
              ((ops.flatMap Op.given : List Tag) : Multiset Tag) := by
            rw [ih]; ac_rfl
        _ = t.tags + (((op :: ops).flatMap Op.given : List Tag) : Multiset Tag) := by
            rw [step_tags, List.flatMap_cons, ← Multiset.coe_add, add_assoc]

/-- Tags held and released that add up to a list of distinct tags: neither side repeats a tag,
and the held ones are those of the list not released. -/
theorem held_of_conserved {held : Multiset Tag} {released given : List Tag}
    (conserved : held + released = given) (fresh : given.Nodup) :
    released.Nodup ∧ held.Nodup ∧ ∀ tag, tag ∈ held ↔ tag ∈ given ∧ tag ∉ released := by
  have nodup : (held + released).Nodup := by rw [conserved]; exact Multiset.coe_nodup.mpr fresh
  obtain ⟨heldNodup, releasedNodup, disjoint⟩ := Multiset.nodup_add.mp nodup
  refine ⟨Multiset.coe_nodup.mp releasedNodup, heldNodup, fun tag => ?_⟩
  rw [← Multiset.mem_coe, ← conserved, Multiset.mem_add, Multiset.mem_coe]
  constructor
  · exact fun h => ⟨.inl h, fun h' => Multiset.disjoint_left.mp disjoint h (Multiset.mem_coe.mpr h')⟩
  · rintro ⟨h | h, h'⟩
    · exact h
    · exact absurd h h'

/-- When every `activatePeer` of a run from `init` gets a fresh tag, no tag is released twice,
no tag is stored twice, and the tags held by active entries are exactly the tags handed in and
not yet released. -/
theorem tags_linear (l : Hashname) (ops : List Op) (fresh : (ops.flatMap Op.given).Nodup) :
    ((Table.init l).run ops).2.Nodup ∧ ((Table.init l).run ops).1.tags.Nodup ∧
      ∀ tag, (∃ i, ∃ p ∈ (((Table.init l).run ops).1.buckets i).peers, p.tag = tag) ↔
        tag ∈ ops.flatMap Op.given ∧ tag ∉ ((Table.init l).run ops).2 := by
  have conserved := run_tags (Table.init l) ops
  rw [Table.tags_init, zero_add] at conserved
  obtain ⟨released, held, mem⟩ := held_of_conserved conserved fresh
  exact ⟨released, held, fun tag => Table.mem_tags.symm.trans (mem tag)⟩

/-- Activate one hashname with tag 1, again with tag 2, and deactivate it. -/
def retagRun : List Op :=
  [.activatePeer (1 <<< 255) 1, .activatePeer (1 <<< 255) 2, .deactivatePeer (1 <<< 255)]

theorem retagRun_linear :
    (retagRun.flatMap Op.given).Nodup ∧
      ((Table.init 0).run retagRun).2.Nodup ∧ ((Table.init 0).run retagRun).1.tags.Nodup ∧
      ∀ tag, (∃ i, ∃ p ∈ (((Table.init 0).run retagRun).1.buckets i).peers, p.tag = tag) ↔
        tag ∈ retagRun.flatMap Op.given ∧ tag ∉ ((Table.init 0).run retagRun).2 :=
  ⟨by decide, tags_linear 0 retagRun (by decide)⟩

end Telehash.Kademlia
