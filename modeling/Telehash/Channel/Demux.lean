/-
# Telehash.Channel.Demux -- every channel id is opened from the remote side at most once

Every operation but one only adds: channels to the heap (their ids never change), entries to the
registry, calls to a channel's buffers.  `Controller.Grows` says so, and every operation has it
(`Controller.grows_step`) except `rcv_new_channel_pkt`, which in addition starts a handler for a
packet whose `c` is not registered (`rcvNewChannelPkt_spec`).  Since nothing removes a registry
entry (`Grows.keys`), an id that has had a handler stays registered, so no second packet with
that id reaches `rcv_new_channel_pkt`.

`Controller.Inv` collects what holds of every reachable controller: the started handlers have
pairwise distinct ids, all registered, and no pure ack was ever put into a receive buffer
(`rcv_new_channel_pkt` puts its packet without testing `JustAck`, but that packet has a `type`).
`demux_spawns_once` states it together with the two one-step facts: a handler starts only for
a packet with `c` and `type` whose `c` is unregistered, and a packet without `c`, or with an
unregistered `c` and no `type`, changes nothing.
-/
import Telehash.Channel.Controller

namespace Telehash

set_option autoImplicit false

/-! ## Lists changed at one position -/

section Modify

variable {α β : Type} (f : α → α)

theorem map_modify_of_keeps (g : α → β) (keeps : ∀ a, g (f a) = g a) :
    ∀ (n : Nat) (l : List α), (l.modify f n).map g = l.map g
  | 0, [] => rfl
  | 0, a :: l => by simp [keeps]
  | _ + 1, [] => rfl
  | n + 1, a :: l => by simp [map_modify_of_keeps g keeps n l]

theorem mem_modify {b : α} : ∀ {n : Nat} {l : List α}, b ∈ l.modify f n → b ∈ l ∨ ∃ a ∈ l, b = f a
  | _, [], h => by simp at h
  | 0, a :: l, h => by
      simp only [List.modify_zero_cons, List.mem_cons] at h
      rcases h with rfl | h
      · exact .inr ⟨a, List.mem_cons_self _ _, rfl⟩
      · exact .inl (List.mem_cons_of_mem _ h)
  | n + 1, a :: l, h => by
      simp only [List.modify_succ_cons, List.mem_cons] at h
      rcases h with rfl | h
      · exact .inl (List.mem_cons_self _ _)
      · rcases mem_modify h with h | ⟨a', h', rfl⟩
        · exact .inl (List.mem_cons_of_mem _ h)
        · exact .inr ⟨a', List.mem_cons_of_mem _ h', rfl⟩

end Modify

/-! ## What the operations add -/

/-- The packets put into a channel's receive buffer. -/
def Channel.puts (c : Channel) : List Pkt :=
  c.rcv.filterMap fun | .put pkt => some pkt | .close => none

namespace Channel

variable (pkt : Pkt) (c : Channel)

@[simp] theorem sndPut_id : (c.sndPut pkt).id = c.id := rfl
@[simp] theorem sndPut_puts : (c.sndPut pkt).puts = c.puts := rfl
@[simp] theorem tellAck_id (input : AckInput) : (c.tellAck input).id = c.id := rfl
@[simp] theorem tellAck_puts (input : AckInput) : (c.tellAck input).puts = c.puts := rfl
@[simp] theorem closeBuffers_id : c.closeBuffers.id = c.id := rfl
@[simp] theorem deliver_id : (c.deliver pkt).id = c.id := rfl

@[simp] theorem closeBuffers_puts : c.closeBuffers.puts = c.puts := by
  simp [puts, closeBuffers, List.filterMap_append]

@[simp] theorem deliver_puts : (c.deliver pkt).puts = c.puts ++ [pkt] := by
  simp [puts, deliver, List.filterMap_append]

end Channel

namespace Controller

/-- The ids of the allocated channels. -/
def ids (h : Controller) : List String := h.heap.map (·.id)

/-- The ids the registry holds. -/
def keys (h : Controller) : List String := h.channels.map (·.1)

/-- Every packet put into a receive buffer. -/
def puts (h : Controller) : List Pkt := h.heap.flatMap (·.puts)

/-- `h'` only adds to `h`: channels allocated, registry entries added, no handler started, and
only packets that are not pure acks put into receive buffers. -/
structure Grows (h h' : Controller) : Prop where
  ids : h.ids <+: h'.ids
  keys : h.keys <+: h'.keys
  handlers : h'.handlers = h.handlers
  puts : ∀ pkt ∈ h'.puts, pkt ∈ h.puts ∨ pkt.justAck = false

theorem Grows.refl (h : Controller) : h.Grows h :=
  ⟨List.prefix_refl _, List.prefix_refl _, rfl, fun _ p => .inl p⟩

theorem Grows.trans {h h' h'' : Controller} (g : h.Grows h') (g' : h'.Grows h'') : h.Grows h'' where
  ids := g.ids.trans g'.ids
  keys := g.keys.trans g'.keys
  handlers := g'.handlers.trans g.handlers
  puts pkt mem := (g'.puts pkt mem).elim (g.puts pkt) .inr

/-- A channel update that keeps the id and puts only packets that are not pure acks. -/
theorem grows_modify (h : Controller) (ptr : Nat) {f : Channel → Channel}
    (keepsId : ∀ c, (f c).id = c.id)
    (putsOk : ∀ c, ∀ pkt ∈ (f c).puts, pkt ∈ c.puts ∨ pkt.justAck = false) :
    h.Grows (h.modify ptr f) where
  ids := by
    show h.heap.map (·.id) <+: (h.heap.modify f ptr).map (·.id)
    rw [map_modify_of_keeps f _ keepsId]
  keys := List.prefix_refl _
  handlers := rfl
  puts pkt mem := by
    obtain ⟨c', hc', hp⟩ := List.mem_flatMap.mp mem
    rcases mem_modify f hc' with old | ⟨c, hc, rfl⟩
    · exact .inl (List.mem_flatMap.mpr ⟨c', old, hp⟩)
    · exact (putsOk c pkt hp).imp (fun p => List.mem_flatMap.mpr ⟨c, hc, p⟩) id

/-- An update that leaves the receive buffer's puts as they are. -/
theorem grows_modify_quiet (h : Controller) (ptr : Nat) {f : Channel → Channel}
    (keepsId : ∀ c, (f c).id = c.id) (keepsPuts : ∀ c, (f c).puts = c.puts) :
    h.Grows (h.modify ptr f) :=
  h.grows_modify ptr keepsId fun c pkt mem => .inl (by rwa [keepsPuts] at mem)

theorem grows_alloc (h : Controller) {c : Channel} (empty : c.puts = []) : h.Grows (h.alloc c) where
  ids := by simp only [ids, alloc, List.map_append]; exact List.prefix_append _ _
  keys := List.prefix_refl _
  handlers := rfl
  puts pkt mem := .inl (by simpa [puts, alloc, empty] using mem)

theorem grows_addChannel (h : Controller) (ptr : Nat) : h.Grows (h.addChannel ptr) where
  ids := List.prefix_refl _
  keys := by
    simp only [keys, addChannel, keys_mapSet]
    split
    · exact List.prefix_refl _
    · exact List.prefix_append _ _
  handlers := rfl
  puts _ p := .inl p

theorem grows_wire (h : Controller) (wire : List (Hashname × Pkt)) :
    h.Grows { h with wire := wire } :=
  ⟨List.prefix_refl _, List.prefix_refl _, rfl, fun _ p => .inl p⟩

theorem grows_send (h : Controller) (ptr : Nat) (pkt : Pkt) (out : SendOutcome) :
    h.Grows (h.send ptr pkt out).1 := by
  unfold send
  split
  · exact h.grows_modify_quiet ptr (Channel.sndPut_id _) (Channel.sndPut_puts _)
  · exact (h.grows_modify_quiet ptr (Channel.sndPut_id _) (Channel.sndPut_puts _)).trans
      ((grows_modify_quiet _ ptr (Channel.tellAck_id · _) (Channel.tellAck_puts · _)).trans
        (grows_wire _ _))

theorem grows_closeWithError (h : Controller) (ptr : Nat) (msg : String) (out : SendOutcome) :
    h.Grows (h.closeWithError ptr msg out).1 :=
  (h.grows_send ptr _ out).trans
    (grows_modify_quiet _ ptr Channel.closeBuffers_id Channel.closeBuffers_puts)

theorem grows_openChannel (h : Controller) (hashname : Hashname) (pkt : Pkt)
    (rand : Except String (List UInt8)) (sendOut closeOut : SendOutcome) :
    h.Grows (h.openChannel hashname pkt rand sendOut closeOut).1 := by
  unfold openChannel
  split
  · exact Grows.refl h
  · rename_i id
    have sent := ((@grows_alloc h { makeChannel hashname with id := hexEncode id } rfl).trans
      (grows_addChannel _ h.heap.length)).trans (grows_send _ h.heap.length pkt sendOut)
    dsimp only
    split
    · rename_i sendEq
      rw [sendEq] at sent
      exact sent.trans (grows_closeWithError _ _ _ closeOut)
    · rename_i sendEq
      rwa [sendEq] at sent

theorem grows_closeEach : ∀ (h : Controller) (ptrs : List Nat) (outs : List SendOutcome),
    h.Grows (h.closeEach ptrs outs)
  | h, [], _ => Grows.refl h
  | h, ptr :: ptrs, outs =>
      (h.grows_closeWithError ptr _ _).trans (grows_closeEach _ ptrs outs.tail)

/-- A packet on a registered channel: put unless a pure ack, and its ack fields handled. -/
theorem grows_rcvRegistered (h : Controller) (ptr : Nat) (pkt : Pkt) :
    h.Grows ((if pkt.justAck then h else h.modify ptr (Channel.deliver pkt)).modify ptr
      (Channel.tellAck (.handleAckInfo pkt))) := by
  refine Grows.trans ?_ (grows_modify_quiet _ ptr (Channel.tellAck_id · _) (Channel.tellAck_puts · _))
  split
  · exact Grows.refl h
  · rename_i data
    refine h.grows_modify ptr (Channel.deliver_id pkt) fun c p mem => ?_
    rw [Channel.deliver_puts, List.mem_append, List.mem_singleton] at mem
    exact mem.imp id fun same => by simpa [same] using data

/-- `rcv_new_channel_pkt` for a packet whose `c` is not registered: one channel, one registry
entry and one handler more, and the packet put. -/
theorem rcvNewChannelPkt_spec (h : Controller) (pkt : Pkt) (fresh : pkt.hdr.c ∉ h.keys) :
    (h.rcvNewChannelPkt pkt).ids = h.ids ++ [pkt.hdr.c] ∧
      (h.rcvNewChannelPkt pkt).keys = h.keys ++ [pkt.hdr.c] ∧
      (h.rcvNewChannelPkt pkt).handlers = h.handlers ++ [h.heap.length] ∧
      (h.rcvNewChannelPkt pkt).puts = h.puts ++ [pkt] := by
  have last : (h.heap ++ [{ makeChannel pkt.peer with
      id := pkt.hdr.c, channelType := pkt.hdr.type }]).getD h.heap.length default =
        { makeChannel pkt.peer with id := pkt.hdr.c, channelType := pkt.hdr.type } := by
    simp
  refine ⟨?_, ?_, rfl, ?_⟩
  · simp only [ids, rcvNewChannelPkt, modify, addChannel, alloc]
    rw [map_modify_of_keeps _ _ (Channel.deliver_id pkt)]
    simp [makeChannel]
  · simp only [keys, rcvNewChannelPkt, modify, addChannel, alloc, last, keys_mapSet]
    exact if_neg fresh
  · simp only [puts, rcvNewChannelPkt, modify, addChannel, alloc]
    rw [List.modify_eq_set, List.set_append_right _ _ (le_refl _)]
    simp [Channel.puts, Channel.deliver, makeChannel]

/-! ## Every step -/

/-- Every operation but a demultiplexed packet that opens a channel only adds. -/
theorem grows_step (h : Controller) (op : Op)
    (notOpened : ∀ pkt, op = .rcvChannelPkt pkt →
      ¬ (pkt.hdr.c ≠ "" ∧ mapGet h.channels pkt.hdr.c = none ∧ pkt.hdr.type ≠ "")) :
    h.Grows (h.step op) := by
  cases op with
  | openChannel hashname pkt rand sendOut closeOut => exact h.grows_openChannel _ _ _ _ _
  | rcvChannelPkt pkt =>
      simp only [step, rcvChannelPkt]
      split
      · exact Grows.refl h
      · split
        · rename_i named _ unknown
          rw [if_neg fun typed => notOpened pkt rfl ⟨named, unknown, typed⟩]
          exact Grows.refl h
        · exact h.grows_rcvRegistered _ pkt
  | send ptr pkt out =>
      simp only [step]
      split
      · exact h.grows_send ptr pkt out
      · exact Grows.refl h
  | closeWithError ptr msg out =>
      simp only [step]
      split
      · exact h.grows_closeWithError ptr msg out
      · exact Grows.refl h
  | handlerDone ptr panicked out =>
      simp only [step]
      split
      · exact h.grows_closeWithError ptr _ out
      · exact Grows.refl h
  | closeChannels outs => exact h.grows_closeEach _ outs

/-- A packet with a `c` and a `type` whose `c` is not registered opens a channel. -/
theorem step_opens (h : Controller) {pkt : Pkt} (named : pkt.hdr.c ≠ "")
    (unknown : mapGet h.channels pkt.hdr.c = none) (typed : pkt.hdr.type ≠ "") :
    h.step (.rcvChannelPkt pkt) = h.rcvNewChannelPkt pkt := by
  simp only [step, rcvChannelPkt, named, if_false, unknown, typed, ne_eq, not_false_eq_true, if_true]

/-! ## The invariant -/

theorem id_getD (h : Controller) (p : Nat) : (h.heap.getD p default).id = h.ids.getD p "" :=
  (List.getD_map h.heap default Channel.id).symm

theorem ids_length (h : Controller) : h.ids.length = h.heap.length := List.length_map _ _

/-- What every reachable controller satisfies: the started handlers' channels are allocated,
registered, and have pairwise distinct ids, and no pure ack was put into a receive buffer. -/
structure Inv (h : Controller) : Prop where
  handlers_lt : ∀ p ∈ h.handlers, p < h.ids.length
  handlers_registered : ∀ p ∈ h.handlers, h.ids.getD p "" ∈ h.keys
  handlers_nodup : (h.handlers.map (h.ids.getD · "")).Nodup
  no_pure_ack : ∀ pkt ∈ h.puts, pkt.justAck = false

theorem inv_init : Controller.init.Inv := ⟨nofun, nofun, List.nodup_nil, nofun⟩

/-- The id at an old position survives a prefix extension of the ids. -/
theorem getD_of_isPrefixOf {ids ids' : List String} (pre : ids <+: ids') {p : Nat} (hp : p < ids.length) :
    ids'.getD p "" = ids.getD p "" := by
  obtain ⟨rest, rfl⟩ := pre
  exact List.getD_append _ _ _ _ hp

theorem Inv.grows {h h' : Controller} (inv : h.Inv) (g : h.Grows h') : h'.Inv where
  handlers_lt p hp := by
    rw [g.handlers] at hp
    exact lt_of_lt_of_le (inv.handlers_lt p hp) g.ids.length_le
  handlers_registered p hp := by
    rw [g.handlers] at hp
    rw [getD_of_isPrefixOf g.ids (inv.handlers_lt p hp)]
    exact g.keys.subset (inv.handlers_registered p hp)
  handlers_nodup := by
    rw [g.handlers, List.map_congr_left fun p hp => getD_of_isPrefixOf g.ids (inv.handlers_lt p hp)]
    exact inv.handlers_nodup
  no_pure_ack pkt mem := (g.puts pkt mem).elim (inv.no_pure_ack pkt) id

theorem Inv.rcvNewChannelPkt {h : Controller} (inv : h.Inv) {pkt : Pkt} (fresh : pkt.hdr.c ∉ h.keys)
    (typed : pkt.hdr.type ≠ "") : (h.rcvNewChannelPkt pkt).Inv := by
  obtain ⟨ids, keys, handlers, puts⟩ := h.rcvNewChannelPkt_spec pkt fresh
  have old : ∀ p ∈ h.handlers, (h.rcvNewChannelPkt pkt).ids.getD p "" = h.ids.getD p "" :=
    fun p hp => by rw [ids]; exact List.getD_append _ _ _ _ (inv.handlers_lt p hp)
  have new : (h.rcvNewChannelPkt pkt).ids.getD h.heap.length "" = pkt.hdr.c := by
    rw [ids, ← ids_length, List.getD_append_right _ _ _ _ le_rfl]
    simp
  refine ⟨?_, ?_, ?_, ?_⟩
  · intro p hp
    rw [handlers, List.mem_append, List.mem_singleton] at hp
    rw [ids, List.length_append, List.length_singleton]
    rcases hp with hp | rfl
    · exact Nat.lt_succ_of_lt (inv.handlers_lt p hp)
    · rw [ids_length]; exact Nat.lt_succ_self _
  · intro p hp
    rw [handlers, List.mem_append, List.mem_singleton] at hp
    rw [keys]
    rcases hp with hp | rfl
    · rw [old p hp]; exact List.mem_append_left _ (inv.handlers_registered p hp)
    · rw [new]; exact List.mem_append_right _ (List.mem_singleton_self _)
  · rw [handlers, List.map_append, List.map_congr_left old, List.map_singleton, new]
    refine List.nodup_append.mpr ⟨inv.handlers_nodup, List.nodup_singleton _, ?_⟩
    intro id hid hid'
    rw [List.mem_singleton] at hid'
    obtain ⟨p, hp, rfl⟩ := List.mem_map.mp hid
    exact fresh (hid' ▸ inv.handlers_registered p hp)
  · intro p mem
    rw [puts, List.mem_append, List.mem_singleton] at mem
    rcases mem with mem | rfl
    · exact inv.no_pure_ack p mem
    · exact Bool.eq_false_iff.mpr fun pure => typed (Pkt.justAck_type pure)

theorem Inv.step {h : Controller} (inv : h.Inv) (op : Op) : (h.step op).Inv := by
  by_cases opened : ∃ pkt, op = .rcvChannelPkt pkt ∧
      pkt.hdr.c ≠ "" ∧ mapGet h.channels pkt.hdr.c = none ∧ pkt.hdr.type ≠ ""
  · obtain ⟨pkt, rfl, named, unknown, typed⟩ := opened
    rw [h.step_opens named unknown typed]
    exact inv.rcvNewChannelPkt (mapGet_eq_none.mp unknown) typed
  · exact inv.grows (h.grows_step op fun pkt eq conds => opened ⟨pkt, eq, conds⟩)

theorem Reachable.inv {h : Controller} (reach : h.Reachable) : h.Inv := by
  induction reach with
  | init => exact inv_init
  | step op _ ih => exact ih.step op

end Controller

/-- Over every run, a handler starts at most once per channel id, and only for a packet with a
`c` and a `type` whose `c` is not registered; a packet without `c`, or with an unregistered `c`
and no `type`, changes nothing; and no pure ack is ever put into a receive buffer. -/
theorem demux_spawns_once {h : Controller} (reach : h.Reachable) :
    (h.handlers.map fun p => (h.heap.getD p default).id).Nodup ∧
      (∀ c ∈ h.heap, ∀ pkt, RcvInput.put pkt ∈ c.rcv → pkt.justAck = false) ∧
      (∀ op, (h.step op).handlers = h.handlers ∨
        ∃ pkt, op = .rcvChannelPkt pkt ∧ pkt.hdr.c ≠ "" ∧ pkt.hdr.type ≠ "" ∧
          mapGet h.channels pkt.hdr.c = none ∧ (h.step op).handlers = h.handlers ++ [h.heap.length]) ∧
      (∀ pkt, pkt.hdr.c = "" ∨ (mapGet h.channels pkt.hdr.c = none ∧ pkt.hdr.type = "") →
        h.step (.rcvChannelPkt pkt) = h) := by
  have inv := reach.inv
  refine ⟨?_, ?_, fun op => ?_, fun pkt dropped => ?_⟩
  · simpa only [Controller.id_getD] using inv.handlers_nodup
  · intro c hc pkt put
    exact inv.no_pure_ack pkt (List.mem_flatMap.mpr ⟨c, hc, List.mem_filterMap.mpr ⟨_, put, rfl⟩⟩)
  · by_cases opened : ∃ pkt, op = .rcvChannelPkt pkt ∧
        pkt.hdr.c ≠ "" ∧ mapGet h.channels pkt.hdr.c = none ∧ pkt.hdr.type ≠ ""
    · obtain ⟨pkt, rfl, named, unknown, typed⟩ := opened
      refine .inr ⟨pkt, rfl, named, typed, unknown, ?_⟩
      rw [h.step_opens named unknown typed,
        (h.rcvNewChannelPkt_spec pkt (mapGet_eq_none.mp unknown)).2.2.1]
    · exact .inl (h.grows_step op fun pkt eq conds => opened ⟨pkt, eq, conds⟩).handlers
  · simp only [Controller.step, Controller.rcvChannelPkt]
    rcases dropped with empty | ⟨unknown, untyped⟩
    · rw [if_pos empty]
    · split
      · rfl
      · simp [unknown, untyped]

/-- `"P"` opens channel `"c1"` to us and sends its open packet again; the channel is closed, and
a late packet of `"c1"` arrives. -/
def retransmitRun : List Op :=
  [.rcvChannelPkt { hdr := { c := "c1", type := "chat" }, peer := "P" },
    .rcvChannelPkt { hdr := { c := "c1", type := "chat" }, peer := "P" },
    .closeWithError 0 "" {},
    .rcvChannelPkt { hdr := { c := "c1", seq := 2 }, body := [1], peer := "P" }]

/-- One handler for the whole of `retransmitRun`, and what `demux_spawns_once` says of its
controller. -/
theorem retransmitRun_spawns_once :
    (Controller.init.run retransmitRun).handlers = [0] ∧
      ((Controller.init.run retransmitRun).handlers.map fun p =>
          ((Controller.init.run retransmitRun).heap.getD p default).id).Nodup ∧
      (∀ c ∈ (Controller.init.run retransmitRun).heap, ∀ pkt, RcvInput.put pkt ∈ c.rcv →
        pkt.justAck = false) ∧
      (∀ op, ((Controller.init.run retransmitRun).step op).handlers =
          (Controller.init.run retransmitRun).handlers ∨
        ∃ pkt, op = .rcvChannelPkt pkt ∧ pkt.hdr.c ≠ "" ∧ pkt.hdr.type ≠ "" ∧
          mapGet (Controller.init.run retransmitRun).channels pkt.hdr.c = none ∧
          ((Controller.init.run retransmitRun).step op).handlers =
            (Controller.init.run retransmitRun).handlers ++
              [(Controller.init.run retransmitRun).heap.length]) ∧
      (∀ pkt, pkt.hdr.c = "" ∨
          (mapGet (Controller.init.run retransmitRun).channels pkt.hdr.c = none ∧ pkt.hdr.type = "") →
        (Controller.init.run retransmitRun).step (.rcvChannelPkt pkt) =
          Controller.init.run retransmitRun) :=
  ⟨by decide, demux_spawns_once (Controller.Reachable.init.run retransmitRun)⟩

end Telehash
