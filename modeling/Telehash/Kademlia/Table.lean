/-
# Telehash.Kademlia.Table -- the routing table and its mutators

`table.go` keeps one bucket per bucket index, each holding three `container/list` lists:
active `peers` (each owning a mesh tag), `candidates` (each carrying the routers that named it)
and `pending` (candidates handed out by `nextCandidate`).  A list is modelled front to back; a
loop that removes the first element it finds is `List.eraseP`, and one that changes it in place
is `updateFirst`.

Every mutator finds one bucket and rewrites it, and the model is split the same way: a bucket
operation (`Bucket.activate`, `Bucket.deactivate`, `Bucket.addCandidate`, `Bucket.promote`)
holds the loops, and the table operation computes the bucket index and the `peerInfo` a new
entry gets.  Releasing a mesh tag is the only effect a mutator has outside the table; it is
returned as the list of tags released, in order.

`Table.step` runs one operation of the table's interface (the read-only lookups leave the table
as it is) and `Reachable` is the closure of `Table.init` under it.  The `mtx` lock only
serialises these steps, so it is not part of the state.
-/
import Telehash.Kademlia.Distance

namespace Telehash.Kademlia

set_option autoImplicit false

/-- `numBuckets`: one bucket per bit of a key. -/
abbrev numBuckets : Nat := KeyLen * 8

abbrev maxPeers : Nat := 32

abbrev maxCandidates : Nat := 128

abbrev maxRoutersPerCandidate : Nat := 5

abbrev defaultLookupSize : Nat := 32

instance : NeZero numBuckets := ⟨by decide⟩

/-- `mesh.Tag`: a reservation on a line, told apart from other tags by identity. -/
abbrev Tag := Nat

structure PeerInfo where
  bucket : Int
  distance : KeyDist
  hashname : Hashname
  deriving DecidableEq, Repr

structure ActivePeer where
  peerInfo : PeerInfo
  tag : Tag
  deriving DecidableEq, Repr

structure CandidatePeer where
  peerInfo : PeerInfo
  routers : List Hashname
  deriving DecidableEq, Repr

/-- `bucket`, without its `id`, which only `String()` reads. -/
structure Bucket where
  peers : List ActivePeer
  candidates : List CandidatePeer
  pending : List CandidatePeer
  deriving DecidableEq, Repr

/-- `table`, without its lock. -/
structure Table where
  localHashname : Hashname
  buckets : Fin numBuckets → Bucket

/-- `&bucket{id: i}`. -/
def Bucket.empty : Bucket := ⟨[], [], []⟩

/-- `t.init()` for a table whose local hashname is `localHashname`. -/
def Table.init (localHashname : Hashname) : Table := ⟨localHashname, fun _ => Bucket.empty⟩

def Table.setBucket (t : Table) (i : Fin numBuckets) (b : Bucket) : Table :=
  { t with buckets := Function.update t.buckets i b }

@[simp] theorem Table.setBucket_same (t : Table) (i : Fin numBuckets) (b : Bucket) :
    (t.setBucket i b).buckets i = b := by
  simp [setBucket]

theorem Table.setBucket_of_ne (t : Table) {i j : Fin numBuckets} (b : Bucket) (h : j ≠ i) :
    (t.setBucket i b).buckets j = t.buckets j := by
  simp [setBucket, h]

@[simp] theorem Table.setBucket_setBucket (t : Table) (i : Fin numBuckets) (b b' : Bucket) :
    (t.setBucket i b).setBucket i b' = t.setBucket i b' := by
  simp [setBucket]

/-! ## Loops over a bucket list -/

/-- Apply `f` to the first element satisfying `p`: a loop over a `container/list` that changes
the element it finds and stops. -/
def updateFirst {α : Type} (p : α → Bool) (f : α → α) : List α → List α
  | [] => []
  | a :: l => if p a then f a :: l else a :: updateFirst p f l

section UpdateFirst

variable {α β : Type} (p : α → Bool) (f : α → α)

theorem length_updateFirst (l : List α) : (updateFirst p f l).length = l.length := by
  induction l with
  | nil => rfl
  | cons a l ih => by_cases h : p a <;> simp [updateFirst, h, ih]

/-- An update that keeps the field `g` keeps the list's image under `g`. -/
theorem map_updateFirst {g : α → β} (keeps : ∀ a, g (f a) = g a) (l : List α) :
    (updateFirst p f l).map g = l.map g := by
  induction l with
  | nil => rfl
  | cons a l ih => by_cases h : p a <;> simp [updateFirst, h, ih, keeps]

theorem mem_updateFirst {l : List α} {a : α} (h : a ∈ updateFirst p f l) :
    a ∈ l ∨ ∃ b ∈ l, a = f b := by
  induction l with
  | nil => exact absurd h (List.not_mem_nil _)
  | cons b l ih =>
      simp only [updateFirst] at h
      split at h <;> simp only [List.mem_cons] at h
      · rcases h with rfl | h
        · exact .inr ⟨b, List.mem_cons_self _ _, rfl⟩
        · exact .inl (List.mem_cons_of_mem _ h)
      · rcases h with rfl | h
        · exact .inl (List.mem_cons_self _ _)
        · rcases ih h with h | ⟨c, hc, rfl⟩
          · exact .inl (List.mem_cons_of_mem _ h)
          · exact .inr ⟨c, List.mem_cons_of_mem _ hc, rfl⟩

end UpdateFirst

/-! ## Bucket operations -/

/-- The bucket `hn` is filed in: `bucketFromDistance(distance(localHashname, hn))`, or `none`
where that index is negative, which is `hn = localHashname`. -/
def bucketIndex (localHashname hn : Hashname) : Option (Fin numBuckets) :=
  if h : bucketFromDistance (distance localHashname hn) < 0 then none
  else some ⟨(bucketFromDistance (distance localHashname hn)).toNat,
    by have := bucketFromDistance_lt (distance localHashname hn); show _ < 256; omega⟩

/-- The body of `activatePeer` on the bucket of `info.hashname`, where `info` is the
`peerInfo` a new active entry gets.  The old tag of an entry found in `peers` is released and
replaced; a full bucket releases the new tag. -/
def Bucket.activate (b : Bucket) (info : PeerInfo) (tag : Tag) : Bucket × List Tag :=
  let hn := info.hashname
  let b := { b with pending := b.pending.eraseP (·.peerInfo.hashname == hn) }
  match b.peers.find? (·.peerInfo.hashname == hn) with
  | some i =>
      ({ b with peers := updateFirst (·.peerInfo.hashname == hn) (fun p => { p with tag }) b.peers },
        [i.tag])
  | none =>
      if b.peers.length ≥ maxPeers then (b, [tag])
      else ({ b with peers := b.peers ++ [⟨info, tag⟩] }, [])

/-- The body of `deactivatePeer`: the first entry of `hn` leaves each of the three lists, and
the tag of the active one is released. -/
def Bucket.deactivate (b : Bucket) (hn : Hashname) : Bucket × List Tag :=
  (⟨b.peers.eraseP (·.peerInfo.hashname == hn), b.candidates.eraseP (·.peerInfo.hashname == hn),
      b.pending.eraseP (·.peerInfo.hashname == hn)⟩,
    ((b.peers.find? (·.peerInfo.hashname == hn)).map (·.tag)).toList)

/-- The `add router` and `trim routers` steps of `addCandidate` on the candidate it found.  The
loop ranges over the router slice as it was when the loop began and appends each router other
than `router`; it never appends `router` itself. -/
def mergeRouters (c : CandidatePeer) (router : Hashname) : CandidatePeer :=
  let routers := c.routers ++ c.routers.filter (· != router)
  { c with routers :=
      if routers.length > maxRoutersPerCandidate then routers.take maxRoutersPerCandidate
      else routers }

/-- The body of `addCandidate` on the bucket of `info.hashname`. -/
def Bucket.addCandidate (b : Bucket) (info : PeerInfo) (router : Hashname) : Bucket :=
  let hn := info.hashname
  if b.peers.any (·.peerInfo.hashname == hn) then b
  else if b.pending.any (·.peerInfo.hashname == hn) then b
  else if b.candidates.any (·.peerInfo.hashname == hn) then
    { b with candidates := updateFirst (·.peerInfo.hashname == hn) (mergeRouters · router) b.candidates }
  else if b.candidates.length < maxCandidates then
    { b with candidates := b.candidates ++ [⟨info, [router]⟩] }
  else b

/-- One bucket's turn in `nextCandidate`: skipped when `peers` and `pending` add up to
`maxPeers` or when it has no candidate; otherwise its first candidate moves to the back of
`pending`. -/
def Bucket.promote (b : Bucket) : Option (Bucket × CandidatePeer) :=
  if b.peers.length + b.pending.length = maxPeers then none
  else
    match b.candidates with
    | [] => none
    | c :: cs => some ({ b with candidates := cs, pending := b.pending ++ [c] }, c)

/-! ## Table operations -/

/-- The `peerInfo` of a new entry for `hn` in bucket `i`. -/
def Table.peerInfoOf (t : Table) (i : Fin numBuckets) (hn : Hashname) : PeerInfo :=
  ⟨(i : Nat), distance t.localHashname hn, hn⟩

@[simp] theorem Table.peerInfoOf_hashname (t : Table) (i : Fin numBuckets) (hn : Hashname) :
    (t.peerInfoOf i hn).hashname = hn := rfl

/-- `t.activatePeer(hn, tag)`, with the tags it releases. -/
def Table.activatePeer (t : Table) (hn : Hashname) (tag : Tag) : Table × List Tag :=
  match bucketIndex t.localHashname hn with
  | none => (t, [tag])
  | some i =>
      let r := (t.buckets i).activate (t.peerInfoOf i hn) tag
      (t.setBucket i r.1, r.2)

/-- `t.deactivatePeer(hn)`, with the tags it releases. -/
def Table.deactivatePeer (t : Table) (hn : Hashname) : Table × List Tag :=
  match bucketIndex t.localHashname hn with
  | none => (t, [])
  | some i =>
      let r := (t.buckets i).deactivate hn
      (t.setBucket i r.1, r.2)

/-- `t.addCandidate(hn, router)`. -/
def Table.addCandidate (t : Table) (hn router : Hashname) : Table :=
  match bucketIndex t.localHashname hn with
  | none => t
  | some i => t.setBucket i ((t.buckets i).addCandidate (t.peerInfoOf i hn) router)

/-- Bucket `k`'s turn in the `range t.buckets` loop of `nextCandidate`, with its index. -/
def Table.promoteAt (t : Table) (k : Nat) : Option (Fin numBuckets × Bucket × CandidatePeer) :=
  if h : k < numBuckets then (t.buckets ⟨k, h⟩).promote.map fun r => (⟨k, h⟩, r) else none

/-- `t.nextCandidate()`: the first bucket, in index order, that has a candidate to promote. -/
def Table.nextCandidate (t : Table) : Table × Option CandidatePeer :=
  match (List.range numBuckets).findSome? t.promoteAt with
  | some (i, b, c) => (t.setBucket i b, some c)
  | none => (t, none)

/-! ## What each table operation does -/

theorem bucketIndex_filed {l hn : Hashname} {i : Fin numBuckets} (h : bucketIndex l hn = some i) :
    bucketFromDistance (distance l hn) = (i : Nat) ∧ hn ≠ l := by
  unfold bucketIndex at h
  split at h
  · cases h
  · cases h
    refine ⟨by simp only [Int.toNat_of_nonneg (Int.not_lt.mp ‹_›)], ?_⟩
    rintro rfl
    rename_i nonneg
    rw [bucketFromDistance_eq_neg_one_iff.mpr (distance_eq_zero_iff.mpr rfl)] at nonneg
    exact nonneg (by decide)

theorem bucketIndex_ne_none {l hn : Hashname} (h : hn ≠ l) : bucketIndex l hn ≠ none := by
  have ge := bucketFromDistance_ge (distance l hn)
  have ne : bucketFromDistance (distance l hn) ≠ -1 := fun eq =>
    h (distance_eq_zero_iff.mp (bucketFromDistance_eq_neg_one_iff.mp eq)).symm
  unfold bucketIndex
  split
  · omega
  · simp

section Operations

variable (t : Table) {hn : Hashname} {i : Fin numBuckets}

theorem activatePeer_of_bucketIndex (tag : Tag) (h : bucketIndex t.localHashname hn = some i) :
    t.activatePeer hn tag =
      (t.setBucket i ((t.buckets i).activate (t.peerInfoOf i hn) tag).1,
        ((t.buckets i).activate (t.peerInfoOf i hn) tag).2) := by
  simp [Table.activatePeer, h]

theorem deactivatePeer_of_bucketIndex (h : bucketIndex t.localHashname hn = some i) :
    t.deactivatePeer hn = (t.setBucket i ((t.buckets i).deactivate hn).1,
      ((t.buckets i).deactivate hn).2) := by
  simp [Table.deactivatePeer, h]

theorem addCandidate_of_bucketIndex (router : Hashname)
    (h : bucketIndex t.localHashname hn = some i) :
    t.addCandidate hn router =
      t.setBucket i ((t.buckets i).addCandidate (t.peerInfoOf i hn) router) := by
  simp [Table.addCandidate, h]

/-- `nextCandidate` either leaves the table as it is or promotes in one bucket. -/
theorem nextCandidate_cases :
    t.nextCandidate = (t, none) ∨
      ∃ i b c, (t.buckets i).promote = some (b, c) ∧ t.nextCandidate = (t.setBucket i b, some c) := by
  unfold Table.nextCandidate
  split
  · rename_i i b c found
    obtain ⟨k, -, hk⟩ := List.exists_of_findSome?_eq_some found
    unfold Table.promoteAt at hk
    split at hk
    · obtain ⟨r, hr, eq⟩ := Option.map_eq_some'.mp hk
      cases eq
      exact .inr ⟨_, b, c, hr, rfl⟩
    · cases hk
  · exact .inl rfl

end Operations

/-! ## Runs -/

/-- A call of the table's interface.  `findKey` and `findNode` only read the table. -/
inductive Op
  | activatePeer (hn : Hashname) (tag : Tag)
  | deactivatePeer (hn : Hashname)
  | addCandidate (hn router : Hashname)
  | nextCandidate
  | findKey (key : Key) (n : UInt64)
  | findNode (hn : String) (n : UInt64)
  deriving DecidableEq, Repr

/-- One call: the table after it and the tags it released. -/
def Table.step (t : Table) : Op → Table × List Tag
  | .activatePeer hn tag => t.activatePeer hn tag
  | .deactivatePeer hn => t.deactivatePeer hn
  | .addCandidate hn router => (t.addCandidate hn router, [])
  | .nextCandidate => (t.nextCandidate.1, [])
  | .findKey _ _ => (t, [])
  | .findNode _ _ => (t, [])

/-- A sequence of calls: the final table and every tag released, in order. -/
def Table.run (t : Table) : List Op → Table × List Tag
  | [] => (t, [])
  | op :: ops =>
      let r := (t.step op).1.run ops
      (r.1, (t.step op).2 ++ r.2)

theorem Table.run_append (t : Table) (ops ops' : List Op) :
    (t.run (ops ++ ops')).1 = ((t.run ops).1.run ops').1 := by
  induction ops generalizing t with
  | nil => rfl
  | cons op ops ih => exact ih _

/-- The tables reachable from `init` by calls of the interface. -/
inductive Reachable : Table → Prop
  | init (localHashname : Hashname) : Reachable (Table.init localHashname)
  | step {t : Table} (op : Op) : Reachable t → Reachable (t.step op).1

theorem Reachable.run {t : Table} (h : Reachable t) : ∀ ops, Reachable (t.run ops).1
  | [] => h
  | op :: ops => (h.step op).run ops

end Telehash.Kademlia
