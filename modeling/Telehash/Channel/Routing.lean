/-
# Telehash.Channel.Routing -- a packet reaches only the channel its `c` names

`rcv_channel_pkt` looks the packet's `c` up in the registry and puts the packet into the receive
buffer of the channel it finds there; `rcv_new_channel_pkt` opens a channel with the packet's `c`
as its id and puts the packet into it.  `send` stamps a packet with the channel's id, gives it to
`snd.put` and, when that succeeds, to `ack.add_ack_info` and to the line layer for the channel's
peer.

`Controller.Change` says once what an operation can do to the controller: update a channel
without putting a packet, put a packet whose `c` is the channel's id, allocate a channel, register
an allocated one, start a handler, or hand the line layer a packet that an allocated channel has
buffered.  `Controller.step_moves` shows that every operation is a sequence of such changes,
given that the registry only names allocated channels (`_close_channels` sends on the channels
the registry names, and `rcv_channel_pkt` delivers to the one it finds).  The invariants are
then proved one change at a time:

* `Controller.Routed`: every registry entry names an allocated channel carrying the entry's key,
  and every packet put into a channel carries that channel's id; so over every run the id is
  all the demultiplexer checks before it hands a packet to a channel (`reachable_routed`);
* `Controller.Sent`: every packet on the wire was sent by an allocated channel, to its peer,
  with its id, and buffered for retransmission and acknowledgement (`reachable_wire_buffered`).
-/
import Telehash.Channel.Demux
import Mathlib.Data.List.GetD
import Mathlib.Logic.Relation

namespace Telehash

set_option autoImplicit false

theorem getD_modify {α : Type} (l : List α) (f : α → α) (n p : Nat) (d : α) :
    (l.modify f n).getD p d = if n = p ∧ p < l.length then f (l.getD p d) else l.getD p d := by
  simp only [List.getD_eq_getElem?_getD, List.getElem?_modify]
  by_cases hp : p < l.length
  · rw [List.getElem?_eq_getElem hp]
    by_cases hn : n = p <;> simp [hn, hp]
  · rw [List.getElem?_eq_none (by omega)]
    simp [hp]

/-- What `m[k]` finds is an entry of the map. -/
theorem mem_of_mapGet : ∀ {m : List (String × Nat)} {k : String} {p : Nat},
    mapGet m k = some p → (k, p) ∈ m
  | [], _, _, h => by simp [mapGet] at h
  | (k', p') :: m, k, p, h => by
    unfold mapGet List.lookup at h
    by_cases same : k = k'
    · subst same
      rw [beq_self_eq_true, Option.some.injEq] at h
      exact h ▸ List.mem_cons_self _ _
    · rw [beq_eq_false_iff_ne.mpr same] at h
      exact List.mem_cons_of_mem _ (mem_of_mapGet h)

/-- An entry of `m[k] = v` is an old entry or the new one. -/
theorem mem_mapSet {m : List (String × Nat)} {k : String} {v : Nat} {e : String × Nat}
    (h : e ∈ mapSet m k v) : e ∈ m ∨ e = (k, v) := by
  unfold mapSet at h
  split at h
  · obtain ⟨e', he', rfl⟩ := List.mem_map.mp h
    by_cases same : e'.1 = k
    · exact .inr (by simp [same])
    · exact .inl (by simpa [same] using he')
  · simpa using h

namespace Channel

/-- `c'` is `c` after more calls on its buffers: the same id and peer, and every call made on
`snd.put`, on the ack engine and on the receive buffer still recorded. -/
structure Extends (c c' : Channel) : Prop where
  id : c'.id = c.id
  peer : c'.peer = c.peer
  snd : c.snd <+: c'.snd
  ack : c.ack <+: c'.ack
  rcv : c.rcv <+: c'.rcv

theorem Extends.refl (c : Channel) : c.Extends c :=
  ⟨rfl, rfl, List.prefix_refl _, List.prefix_refl _, List.prefix_refl _⟩

theorem Extends.trans {c c' c'' : Channel} (e : c.Extends c') (e' : c'.Extends c'') : c.Extends c'' :=
  ⟨e'.id.trans e.id, e'.peer.trans e.peer, e.snd.trans e'.snd, e.ack.trans e'.ack, e.rcv.trans e'.rcv⟩

variable (pkt : Pkt) (c : Channel)

theorem extends_sndPut : c.Extends (c.sndPut pkt) :=
  ⟨rfl, rfl, List.prefix_append _ _, List.prefix_refl _, List.prefix_refl _⟩

theorem extends_tellAck (input : AckInput) : c.Extends (c.tellAck input) :=
  ⟨rfl, rfl, List.prefix_refl _, List.prefix_append _ _, List.prefix_refl _⟩

theorem extends_deliver : c.Extends (c.deliver pkt) :=
  ⟨rfl, rfl, List.prefix_refl _, List.prefix_append _ _, List.prefix_append _ _⟩

theorem extends_closeBuffers : c.Extends c.closeBuffers :=
  ⟨rfl, rfl, List.prefix_refl _, List.prefix_append _ _, List.prefix_append _ _⟩

/-- `send` on `c` has handed `pkt` to the line layer for `peer`: `c`'s peer, stamped with `c`'s
id, given to `c.snd.put` and to `c.ack.add_ack_info`. -/
structure Buffered (c : Channel) (peer : Hashname) (pkt : Pkt) : Prop where
  peer : c.peer = peer
  id : pkt.hdr.c = c.id
  snd : pkt ∈ c.snd
  ack : AckInput.addAckInfo pkt ∈ c.ack

theorem Buffered.mono {c c' : Channel} {peer : Hashname} {pkt : Pkt} (b : c.Buffered peer pkt)
    (e : c.Extends c') : c'.Buffered peer pkt :=
  ⟨e.peer.trans b.peer, b.id.trans e.id.symm, e.snd.subset b.snd, e.ack.subset b.ack⟩

end Channel

/-- The packets an operation may put into a receive buffer: the one `rcv_channel_pkt` is given. -/
def Op.Delivers : Op → Pkt → Prop
  | .rcvChannelPkt pkt, q => q = pkt
  | _, _ => False

namespace Controller

open Relation

/-- The registry and the receive buffers agree with the ids: every entry names an allocated
channel carrying its key, and every packet put into a channel carries that channel's id. -/
structure Routed (h : Controller) : Prop where
  registry : ∀ k p, (k, p) ∈ h.channels → p < h.heap.length ∧ h.ids.getD p "" = k
  delivered : ∀ p, ∀ pkt ∈ (h.heap.getD p default).puts, pkt.hdr.c = (h.heap.getD p default).id

/-- Every packet handed to the line layer was sent by an allocated channel: addressed to its
peer, stamped with its id, and buffered for retransmission and acknowledgement. -/
def Sent (h : Controller) : Prop :=
  ∀ peer pkt, (peer, pkt) ∈ h.wire → ∃ p < h.heap.length, (h.heap.getD p default).Buffered peer pkt

/-! ## What an operation can do -/

/-- One change an operation makes to the controller; `input` holds of the packets it may put into
a receive buffer. -/
inductive Change (input : Pkt → Prop) : Controller → Controller → Prop
  | quiet {h : Controller} (ptr : Nat) {f : Channel → Channel} :
      (∀ c : Channel, c.Extends (f c)) → (∀ c : Channel, (f c).puts = c.puts) →
        Change input h (h.modify ptr f)
  | deliver {h : Controller} (ptr : Nat) {pkt : Pkt} :
      (h.heap.getD ptr default).id = pkt.hdr.c → input pkt →
        Change input h (h.modify ptr (Channel.deliver pkt))
  | alloc {h : Controller} {c : Channel} : c.puts = [] → Change input h (h.alloc c)
  | addChannel {h : Controller} {ptr : Nat} : ptr < h.heap.length → Change input h (h.addChannel ptr)
  | spawn {h : Controller} (ptr : Nat) : Change input h { h with handlers := h.handlers ++ [ptr] }
  | transmit {h : Controller} (ptr : Nat) {peer : Hashname} {pkt : Pkt} : ptr < h.heap.length →
      (h.heap.getD ptr default).Buffered peer pkt →
        Change input h { h with wire := h.wire ++ [(peer, pkt)] }

theorem length_send (h : Controller) (ptr : Nat) (pkt : Pkt) (out : SendOutcome) :
    (h.send ptr pkt out).1.heap.length = h.heap.length := by
  unfold send
  split <;> simp [Controller.modify]

theorem length_closeWithError (h : Controller) (ptr : Nat) (msg : String) (out : SendOutcome) :
    (h.closeWithError ptr msg out).1.heap.length = h.heap.length := by
  simp only [closeWithError, Controller.modify, List.length_modify, length_send]

section Moves

variable {input : Pkt → Prop} {h : Controller}

/-- `send` on an allocated channel: `snd.put`, then `ack.add_ack_info` and the line layer. -/
theorem send_moves {ptr : Nat} (hp : ptr < h.heap.length) (pkt : Pkt) (out : SendOutcome) :
    ReflTransGen (Change input) h (h.send ptr pkt out).1 := by
  unfold send
  split
  · exact .single (.quiet ptr (Channel.extends_sndPut _) (Channel.sndPut_puts _))
  · refine .tail (.tail (.single (.quiet ptr (Channel.extends_sndPut _) (Channel.sndPut_puts _)))
      (.quiet ptr (Channel.extends_tellAck · _) (Channel.tellAck_puts · _)))
      (.transmit ptr (by simpa [Controller.modify] using hp) ?_)
    simp only [Controller.modify, getD_modify, List.length_modify, hp, and_self, if_true]
    exact ⟨rfl, rfl, by simp [Channel.sndPut, Channel.tellAck], by simp [Channel.tellAck]⟩

theorem closeWithError_moves {ptr : Nat} (hp : ptr < h.heap.length) (msg : String)
    (out : SendOutcome) : ReflTransGen (Change input) h (h.closeWithError ptr msg out).1 :=
  (send_moves hp _ out).tail (.quiet ptr Channel.extends_closeBuffers Channel.closeBuffers_puts)

theorem openChannel_moves (hashname : Hashname) (pkt : Pkt) (rand : Except String (List UInt8))
    (sendOut closeOut : SendOutcome) :
    ReflTransGen (Change input) h (h.openChannel hashname pkt rand sendOut closeOut).1 := by
  unfold openChannel
  split
  · exact .refl
  · rename_i id
    have empty : ({ makeChannel hashname with id := hexEncode id } : Channel).puts = [] := rfl
    generalize ({ makeChannel hashname with id := hexEncode id } : Channel) = ch at empty
    have live : h.heap.length < ((h.alloc ch).addChannel h.heap.length).heap.length := by
      simp [Controller.addChannel, Controller.alloc]
    have sent : ReflTransGen (Change input) h
        (((h.alloc ch).addChannel h.heap.length).send h.heap.length pkt sendOut).1 :=
      ((ReflTransGen.single (.alloc empty)).tail (.addChannel (by simpa using live))).trans
        (send_moves live pkt sendOut)
    have len := length_send ((h.alloc ch).addChannel h.heap.length) h.heap.length pkt sendOut
    dsimp only
    split
    · rename_i sendEq
      rw [sendEq] at sent len
      exact sent.trans (closeWithError_moves (len ▸ live) _ closeOut)
    · rename_i sendEq
      rwa [sendEq] at sent

/-- `rcv_new_channel_pkt`: allocate, register, start the handler, put the packet. -/
theorem rcvNewChannelPkt_moves {pkt : Pkt} (hin : input pkt) :
    ReflTransGen (Change input) h (h.rcvNewChannelPkt pkt) := by
  unfold rcvNewChannelPkt
  refine .tail (.tail (.tail (.single (.alloc ?_)) (.addChannel ?_)) (.spawn _)) (.deliver _ ?_ hin)
  · rfl
  · simp [Controller.alloc]
  · simp [Controller.addChannel, Controller.alloc]

/-- `rcv_channel_pkt` delivers only to the channel the registry names, which carries the
packet's `c`. -/
theorem rcvChannelPkt_moves (r : h.Routed) {pkt : Pkt} (hin : input pkt) :
    ReflTransGen (Change input) h (h.rcvChannelPkt pkt) := by
  unfold rcvChannelPkt
  split
  · exact .refl
  · split
    · split
      · exact rcvNewChannelPkt_moves hin
      · exact .refl
    · rename_i ptr found
      have hid := (r.registry _ _ (mem_of_mapGet found)).2
      rw [← id_getD] at hid
      refine .tail ?_ (.quiet ptr (Channel.extends_tellAck · _) (Channel.tellAck_puts · _))
      split
      · exact .refl
      · exact .single (.deliver ptr hid hin)

theorem closeEach_moves : ∀ {h : Controller} (ptrs : List Nat) (outs : List SendOutcome),
    (∀ p ∈ ptrs, p < h.heap.length) → ReflTransGen (Change input) h (h.closeEach ptrs outs)
  | _, [], _, _ => .refl
  | h, ptr :: ptrs, outs, live =>
    (closeWithError_moves (live ptr (List.mem_cons_self _ _)) _ _).trans
      (closeEach_moves ptrs outs.tail fun p hp => by
        rw [length_closeWithError]
        exact live p (List.mem_cons_of_mem _ hp))

/-- Every operation is a sequence of changes, and only `rcv_channel_pkt` puts a packet, its own. -/
theorem step_moves (r : h.Routed) (op : Op) : ReflTransGen (Change op.Delivers) h (h.step op) := by
  cases op with
  | openChannel hashname pkt rand sendOut closeOut => exact openChannel_moves _ _ _ _ _
  | rcvChannelPkt pkt => exact rcvChannelPkt_moves r rfl
  | send ptr pkt out =>
    simp only [Controller.step]
    split
    · exact send_moves ‹_› pkt out
    · exact .refl
  | closeWithError ptr msg out =>
    simp only [Controller.step]
    split
    · exact closeWithError_moves ‹_› msg out
    · exact .refl
  | handlerDone ptr panicked out =>
    simp only [Controller.step]
    split
    · exact closeWithError_moves ‹_› _ out
    · exact .refl
  | closeChannels outs =>
    refine closeEach_moves _ outs fun p mem => ?_
    obtain ⟨e, he, rfl⟩ := List.mem_map.mp mem
    exact (r.registry e.1 e.2 he).1

end Moves

/-! ## The registry and the receive buffers -/

theorem routed_init : Controller.init.Routed :=
  ⟨fun _ _ mem => absurd mem (List.not_mem_nil _), fun _ _ mem => absurd mem (List.not_mem_nil _)⟩

section Routed

variable {h : Controller}

/-- `Routed` reads only the heap and the registry. -/
theorem Routed.congr (r : h.Routed) {h' : Controller} (heap : h'.heap = h.heap)
    (channels : h'.channels = h.channels) : h'.Routed := by
  obtain ⟨registry, delivered⟩ := r
  exact ⟨by rw [ids, heap, channels]; exact registry, by rw [heap]; exact delivered⟩

/-- A channel update that keeps the id, and puts only packets that carry it. -/
theorem Routed.modify (r : h.Routed) (ptr : Nat) {f : Channel → Channel}
    (keepsId : ∀ c, (f c).id = c.id)
    (putsOk : ∀ pkt ∈ (f (h.heap.getD ptr default)).puts,
      pkt ∈ (h.heap.getD ptr default).puts ∨ pkt.hdr.c = (h.heap.getD ptr default).id) :
    (h.modify ptr f).Routed where
  registry k p mem := by
    rw [show (h.modify ptr f).ids = h.ids from map_modify_of_keeps f _ keepsId _ _]
    simpa only [Controller.modify, List.length_modify] using r.registry k p mem
  delivered p pkt mem := by
    simp only [Controller.modify, getD_modify] at mem ⊢
    by_cases at_ptr : ptr = p ∧ p < h.heap.length
    · rw [if_pos at_ptr] at mem ⊢
      obtain ⟨rfl, -⟩ := at_ptr
      rw [keepsId]
      exact (putsOk pkt mem).elim (r.delivered ptr pkt) id
    · rw [if_neg at_ptr] at mem ⊢
      exact r.delivered p pkt mem

theorem Routed.alloc (r : h.Routed) (c : Channel) (empty : c.puts = []) : (h.alloc c).Routed where
  registry k p mem := by
    obtain ⟨hp, hid⟩ := r.registry k p mem
    refine ⟨by simp only [Controller.alloc, List.length_append]; omega, ?_⟩
    rw [ids, Controller.alloc, List.map_append, List.getD_append _ _ _ _ (by rw [List.length_map]; exact hp)]
    exact hid
  delivered p pkt mem := by
    simp only [Controller.alloc] at mem ⊢
    by_cases old : p < h.heap.length
    · rw [List.getD_append _ _ _ _ old] at mem ⊢
      exact r.delivered p pkt mem
    · rw [List.getD_append_right _ _ _ _ (by omega)] at mem
      generalize p - h.heap.length = q at mem
      cases q with
      | zero => rw [List.getD_cons_zero, empty] at mem; exact absurd mem (List.not_mem_nil _)
      | succ => rw [List.getD_cons_succ, List.getD_nil] at mem; exact absurd mem (List.not_mem_nil _)

theorem Routed.addChannel (r : h.Routed) (ptr : Nat) (hp : ptr < h.heap.length) :
    (h.addChannel ptr).Routed where
  registry k p mem := by
    rcases mem_mapSet mem with old | new
    · exact r.registry k p old
    · obtain ⟨rfl, rfl⟩ := Prod.mk.inj new
      exact ⟨hp, (id_getD h _).symm⟩
  delivered := r.delivered

theorem Routed.change {input : Pkt → Prop} {h' : Controller} (r : h.Routed) :
    Change input h h' → h'.Routed
  | .quiet ptr ext keeps => r.modify ptr (fun c => (ext c).id) fun _ mem => .inl (by rwa [keeps] at mem)
  | .deliver ptr hid _ => r.modify ptr (Channel.deliver_id _) fun q mem => by
      rw [Channel.deliver_puts, List.mem_append, List.mem_singleton] at mem
      exact mem.imp id fun same => by rw [same, hid]
  | .alloc empty => r.alloc _ empty
  | .addChannel hp => r.addChannel _ hp
  | .spawn _ => r.congr rfl rfl
  | .transmit _ _ _ => r.congr rfl rfl

theorem Routed.moves {input : Pkt → Prop} {h' : Controller} (r : h.Routed)
    (m : ReflTransGen (Change input) h h') : h'.Routed := by
  induction m with
  | refl => exact r
  | tail _ c ih => exact ih.change c

theorem Reachable.routed (reach : h.Reachable) : h.Routed := by
  induction reach with
  | init => exact routed_init
  | step op _ ih => exact ih.moves (step_moves ih op)

/-- A packet in the receive buffer of an allocated channel carries the channel's id. -/
theorem Routed.put_id (r : h.Routed) {c : Channel} (hc : c ∈ h.heap) {pkt : Pkt}
    (put : RcvInput.put pkt ∈ c.rcv) : pkt.hdr.c = c.id := by
  obtain ⟨p, hp, rfl⟩ := List.getElem_of_mem hc
  have := r.delivered p pkt (by
    rw [List.getD_eq_getElem _ _ hp]
    exact List.mem_filterMap.mpr ⟨.put pkt, put, rfl⟩)
  rwa [List.getD_eq_getElem _ _ hp] at this

end Routed

/-! ## The wire -/

theorem sent_init : Controller.init.Sent := fun _ _ mem => absurd mem (List.not_mem_nil _)

section Sent

variable {h : Controller}

theorem Sent.modify (s : h.Sent) (ptr : Nat) {f : Channel → Channel}
    (ext : ∀ c : Channel, c.Extends (f c)) : (h.modify ptr f).Sent := fun peer pkt mem => by
  obtain ⟨p, hp, b⟩ := s peer pkt mem
  refine ⟨p, by rwa [Controller.modify, List.length_modify], ?_⟩
  simp only [Controller.modify, getD_modify]
  split
  · exact b.mono (ext _)
  · exact b

theorem Sent.alloc (s : h.Sent) (c : Channel) : (h.alloc c).Sent := fun peer pkt mem => by
  obtain ⟨p, hp, b⟩ := s peer pkt mem
  refine ⟨p, by simp only [Controller.alloc, List.length_append]; omega, ?_⟩
  rwa [Controller.alloc, List.getD_append _ _ _ _ hp]

theorem Sent.change {input : Pkt → Prop} {h' : Controller} (s : h.Sent) :
    Change input h h' → h'.Sent
  | .quiet ptr ext _ => s.modify ptr ext
  | .deliver ptr _ _ => s.modify ptr (Channel.extends_deliver _)
  | .alloc _ => s.alloc _
  | .addChannel _ => s
  | .spawn _ => s
  | .transmit ptr hp b => fun peer pkt mem => by
      rcases List.mem_append.mp mem with old | new
      · exact s peer pkt old
      · obtain ⟨rfl, rfl⟩ := Prod.mk.inj (List.mem_singleton.mp new)
        exact ⟨ptr, hp, b⟩

theorem Sent.moves {input : Pkt → Prop} {h' : Controller} (s : h.Sent)
    (m : ReflTransGen (Change input) h h') : h'.Sent := by
  induction m with
  | refl => exact s
  | tail _ c ih => exact ih.change c

theorem Reachable.sent (reach : h.Reachable) : h.Sent := by
  induction reach with
  | init => exact sent_init
  | step op reach ih => exact ih.moves (step_moves reach.routed op)

/-- A packet on the wire was buffered by an allocated channel. -/
theorem Sent.mem (s : h.Sent) {peer : Hashname} {pkt : Pkt} (mem : (peer, pkt) ∈ h.wire) :
    ∃ c ∈ h.heap, c.Buffered peer pkt := by
  obtain ⟨p, hp, b⟩ := s peer pkt mem
  rw [List.getD_eq_getElem _ _ hp] at b
  exact ⟨_, List.getElem_mem hp, b⟩

end Sent

/-! ## What the changes add -/

section Adds

variable {input : Pkt → Prop} {h h' : Controller}

theorem wire_change : Change input h h' → h.wire <+: h'.wire
  | .quiet _ _ _ | .deliver _ _ _ | .alloc _ | .addChannel _ | .spawn _ => List.prefix_refl _
  | .transmit _ _ _ => List.prefix_append _ _

/-- No operation takes a packet back from the line layer. -/
theorem wire_moves (m : ReflTransGen (Change input) h h') : h.wire <+: h'.wire := by
  induction m with
  | refl => exact List.prefix_refl _
  | tail _ c ih => exact ih.trans (wire_change c)

/-- A channel update that puts only packets of `input`. -/
theorem puts_modify (ptr : Nat) {f : Channel → Channel}
    (putsOk : ∀ c, ∀ q ∈ (f c).puts, q ∈ c.puts ∨ input q) :
    ∀ q ∈ (h.modify ptr f).puts, q ∈ h.puts ∨ input q := fun q mem => by
  obtain ⟨c', hc', hq⟩ := List.mem_flatMap.mp mem
  rcases mem_modify f hc' with old | ⟨c, hc, rfl⟩
  · exact .inl (List.mem_flatMap.mpr ⟨c', old, hq⟩)
  · exact (putsOk c q hq).imp_left fun p => List.mem_flatMap.mpr ⟨c, hc, p⟩

theorem puts_change : Change input h h' → ∀ q ∈ h'.puts, q ∈ h.puts ∨ input q
  | .quiet ptr _ keeps => puts_modify ptr fun c q mem => .inl (by rwa [keeps] at mem)
  | .deliver ptr _ hin => puts_modify ptr fun c q mem => by
      rw [Channel.deliver_puts, List.mem_append, List.mem_singleton] at mem
      exact mem.imp_right fun same => by rw [same]; exact hin
  | .alloc empty => fun q mem => .inl (by simpa [puts, Controller.alloc, empty] using mem)
  | .addChannel _ | .spawn _ | .transmit _ _ _ => fun _ mem => .inl mem

/-- A sequence of changes puts only packets of `input`. -/
theorem puts_moves (m : ReflTransGen (Change input) h h') : ∀ q ∈ h'.puts, q ∈ h.puts ∨ input q := by
  induction m with
  | refl => exact fun _ mem => .inl mem
  | tail _ c ih => exact fun q mem => (puts_change c q mem).elim (ih q) .inr

end Adds

end Controller

/-- Over every run, a packet is put into a channel's receive buffer only if its `c` is that
channel's id, and every id the registry gives a channel for is that channel's id. -/
theorem reachable_routed {h : Controller} (reach : h.Reachable) :
    (∀ c ∈ h.heap, ∀ pkt, RcvInput.put pkt ∈ c.rcv → pkt.hdr.c = c.id) ∧
      ∀ k ptr, mapGet h.channels k = some ptr → ptr < h.heap.length ∧ (h.heap.getD ptr default).id = k := by
  have r := reach.routed
  refine ⟨fun c hc pkt put => r.put_id hc put, fun k ptr found => ?_⟩
  obtain ⟨hp, hid⟩ := r.registry k ptr (mem_of_mapGet found)
  exact ⟨hp, (Controller.id_getD h ptr).trans hid⟩

/-- After `crossPeerRun`, where `"Q"` sends on the id of the channel `"P"` opened, every packet
put into a receive buffer still names that buffer's channel. -/
theorem crossPeerRun_routed :
    (Controller.init.run crossPeerRun).Reachable ∧
      (∀ c ∈ (Controller.init.run crossPeerRun).heap, ∀ pkt, RcvInput.put pkt ∈ c.rcv →
        pkt.hdr.c = c.id) ∧
      ∀ k ptr, mapGet (Controller.init.run crossPeerRun).channels k = some ptr →
        ptr < (Controller.init.run crossPeerRun).heap.length ∧
          ((Controller.init.run crossPeerRun).heap.getD ptr default).id = k :=
  ⟨Controller.Reachable.init.run crossPeerRun,
    reachable_routed (Controller.Reachable.init.run crossPeerRun)⟩

/-- Over every run, every packet handed to the line layer was sent by an allocated channel: it
is addressed to that channel's peer, carries its id, and was given to its `snd.put` and to its
ack engine's `add_ack_info` before it left. -/
theorem reachable_wire_buffered {h : Controller} (reach : h.Reachable) :
    ∀ peer pkt, (peer, pkt) ∈ h.wire → ∃ c ∈ h.heap,
      c.peer = peer ∧ pkt.hdr.c = c.id ∧ pkt ∈ c.snd ∧ AckInput.addAckInfo pkt ∈ c.ack := by
  intro peer pkt mem
  obtain ⟨c, hc, b⟩ := reach.sent.mem mem
  exact ⟨c, hc, b.peer, b.id, b.snd, b.ack⟩

/-- Open a channel to `"P"`, every call succeeding, and shut the controller down. -/
def openThenShutdown : List Op := [.openChannel "P" {} (.ok drawnBytes) {} {}, .closeChannels []]

/-- Both packets of `openThenShutdown` on the wire, the first packet and the `end` of the
shutdown, were sent and buffered by the channel to `"P"`. -/
theorem openThenShutdown_buffered :
    (Controller.init.run openThenShutdown).wire.map (·.1) = ["P", "P"] ∧
      ∀ peer pkt, (peer, pkt) ∈ (Controller.init.run openThenShutdown).wire →
        ∃ c ∈ (Controller.init.run openThenShutdown).heap,
          c.peer = peer ∧ pkt.hdr.c = c.id ∧ pkt ∈ c.snd ∧ AckInput.addAckInfo pkt ∈ c.ack :=
  ⟨by decide, reachable_wire_buffered (Controller.Reachable.init.run openThenShutdown)⟩

end Telehash
