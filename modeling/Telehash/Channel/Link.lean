/-
# Telehash.Channel.Link -- two switches, one line: both ends of a channel share its id

Two switches of hashnames `na` and `nb` run their channel controllers side by side.  Each runs
its own operations (opening channels, sending, closing, shutting down) in any interleaving, and
the line layer between them, whose code is outside the sources, carries a packet that the other
switch's channels sent to it as the frame `format_pkt` writes, and hands the switch what
`parse_pkt` makes of that frame, with the sender's hashname as its `peer`: each packet any number
of times, in any order, or never (`Link.Reachable`).

`link_channels_agree`: whatever a channel of one switch receives was sent by a channel of the
other switch to it, with the same id, and it is that channel's packet as the codec carries it:
its header on the wire and its body (`parsePkt_formatPkt_sound`, whatever the header holds).
The demultiplexer checks nothing but the id (`reachable_routed`), so this is what the two ends
of a channel have in common: a channel opened with `open_channel` and the one
`rcv_new_channel_pkt` opens for it at the other end carry the same id, and so do all the packets
between them.  It is proved from three facts: the registry routes by id (`Controller.Routed`), a
packet on the wire was sent and buffered by a channel with its id (`Controller.Sent`), and every
packet put into a receive buffer came over the line (`HeardFrom`, kept by every step of the
link).
-/
import Telehash.Channel.Routing
import Telehash.Packet.RoundTrip

namespace Telehash

set_option autoImplicit false

/-- An operation a switch makes on its own: any but `rcv_channel_pkt`, whose packets come from
the line. -/
def Op.Own : Op → Prop
  | .rcvChannelPkt _ => False
  | _ => True

theorem Op.not_delivers {op : Op} (own : op.Own) (q : Pkt) : ¬ op.Delivers q := by
  cases op <;> first | exact own.elim | exact id

/-- The channel controllers of two switches. -/
structure Link where
  a : Controller
  b : Controller

/-- The links that some interleaving reaches from two fresh switches `na` and `nb`: a switch runs
one of its own operations, or the line carries the frame of a packet that the other switch sent
to it and hands the switch the packet parsed from that frame, stamped with the sender's
hashname. -/
inductive Link.Reachable (na nb : Hashname) : Link → Prop
  | init : Reachable na nb ⟨Controller.init, Controller.init⟩
  | stepA {l : Link} (op : Op) : op.Own → Reachable na nb l → Reachable na nb ⟨l.a.step op, l.b⟩
  | stepB {l : Link} (op : Op) : op.Own → Reachable na nb l → Reachable na nb ⟨l.a, l.b.step op⟩
  | toA {l : Link} (pkt : Pkt) {frame : List UInt8} {q : Pkt} : (na, pkt) ∈ l.b.wire →
      pkt.formatPkt = .ok frame → parsePkt frame = some (.ok q) → Reachable na nb l →
      Reachable na nb ⟨l.a.step (.rcvChannelPkt { q with peer := nb }), l.b⟩
  | toB {l : Link} (pkt : Pkt) {frame : List UInt8} {q : Pkt} : (nb, pkt) ∈ l.a.wire →
      pkt.formatPkt = .ok frame → parsePkt frame = some (.ok q) → Reachable na nb l →
      Reachable na nb ⟨l.a, l.b.step (.rcvChannelPkt { q with peer := na })⟩

/-- Every packet put into a receive buffer of `dst` is one that `src` sent to `nb` over the line,
as the codec carries it, stamped with `na`. -/
def HeardFrom (na nb : Hashname) (src dst : Controller) : Prop :=
  ∀ q ∈ dst.puts, ∃ p, (nb, p) ∈ src.wire ∧ q = { hdr := p.hdr.onWire, body := p.body, peer := na }

section HeardFrom

variable {na nb : Hashname} {src dst : Controller}

theorem heardFrom_init : HeardFrom na nb src Controller.init := fun _ mem => absurd mem (List.not_mem_nil _)

/-- The sender's steps only add to its wire. -/
theorem HeardFrom.src_step (heard : HeardFrom na nb src dst) (reach : src.Reachable) (op : Op) :
    HeardFrom na nb (src.step op) dst := fun q mem => by
  obtain ⟨p, sent, rfl⟩ := heard q mem
  exact ⟨p, (Controller.wire_moves (Controller.step_moves reach.routed op)).subset sent, rfl⟩

/-- The receiver's steps put only packets of the line. -/
theorem HeardFrom.dst_step (heard : HeardFrom na nb src dst) (reach : dst.Reachable) {op : Op}
    (fromLine : ∀ q, op.Delivers q →
      ∃ p, (nb, p) ∈ src.wire ∧ q = { hdr := p.hdr.onWire, body := p.body, peer := na }) :
    HeardFrom na nb src (dst.step op) := fun q mem =>
  (Controller.puts_moves (Controller.step_moves reach.routed op) q mem).elim (heard q) (fromLine q)

/-- What a channel of `dst` received was sent to `nb` by a channel of `src` with the same id: the
codec carries the id as it is. -/
theorem HeardFrom.channels (heard : HeardFrom na nb src dst) (reachSrc : src.Reachable)
    (reachDst : dst.Reachable) : ∀ c ∈ dst.heap, ∀ q, RcvInput.put q ∈ c.rcv →
      ∃ c' ∈ src.heap, c'.peer = nb ∧ c'.id = c.id ∧
        ∃ p ∈ c'.snd, q = { hdr := p.hdr.onWire, body := p.body, peer := na } := by
  intro c hc q put
  obtain ⟨p, sent, rfl⟩ := heard _
    (List.mem_flatMap.mpr ⟨c, hc, List.mem_filterMap.mpr ⟨.put _, put, rfl⟩⟩)
  obtain ⟨c', hc', buffered⟩ := reachSrc.sent.mem sent
  refine ⟨c', hc', buffered.peer, ?_, p, buffered.snd, rfl⟩
  have routed := reachDst.routed.put_id hc put
  calc c'.id = p.hdr.c := buffered.id.symm
    _ = p.hdr.onWire.c := (PktHdr.get_onWire_exact (f := .c) trivial).symm
    _ = c.id := routed

end HeardFrom

/-- What holds of every reachable link: both switches run reachable controllers, and each heard
only the other. -/
structure Link.Inv (na nb : Hashname) (l : Link) : Prop where
  reachA : l.a.Reachable
  reachB : l.b.Reachable
  heardA : HeardFrom nb na l.b l.a
  heardB : HeardFrom na nb l.a l.b

theorem Link.Reachable.inv {na nb : Hashname} {l : Link} (reach : l.Reachable na nb) : l.Inv na nb := by
  induction reach with
  | init => exact ⟨.init, .init, heardFrom_init, heardFrom_init⟩
  | stepA op own _ ih =>
    exact ⟨ih.reachA.step op, ih.reachB,
      ih.heardA.dst_step ih.reachA fun q d => (Op.not_delivers own q d).elim,
      ih.heardB.src_step ih.reachA op⟩
  | stepB op own _ ih =>
    exact ⟨ih.reachA, ih.reachB.step op, ih.heardA.src_step ih.reachB op,
      ih.heardB.dst_step ih.reachB fun q d => (Op.not_delivers own q d).elim⟩
  | toA pkt sent fmt parsed _ ih =>
    exact ⟨ih.reachA.step (.rcvChannelPkt _), ih.reachB,
      ih.heardA.dst_step ih.reachA fun q d => ⟨pkt, sent, by rw [d, parsePkt_formatPkt_sound fmt parsed]⟩,
      ih.heardB.src_step ih.reachA _⟩
  | toB pkt sent fmt parsed _ ih =>
    exact ⟨ih.reachA, ih.reachB.step (.rcvChannelPkt _), ih.heardA.src_step ih.reachB _,
      ih.heardB.dst_step ih.reachB fun q d => ⟨pkt, sent, by rw [d, parsePkt_formatPkt_sound fmt parsed]⟩⟩

/-- Over every interleaving of two switches and every way the line hands packets over, whatever
a channel of one switch receives was sent to it by a channel of the other switch with the same
id, and it is that channel's packet as the codec carries it (its header on the wire and its body),
with the sender's hashname as its `peer`. -/
theorem link_channels_agree {na nb : Hashname} {l : Link} (reach : l.Reachable na nb) :
    (∀ c ∈ l.b.heap, ∀ q, RcvInput.put q ∈ c.rcv →
      ∃ c' ∈ l.a.heap, c'.peer = nb ∧ c'.id = c.id ∧
        ∃ p ∈ c'.snd, q = { hdr := p.hdr.onWire, body := p.body, peer := na }) ∧
    (∀ c ∈ l.a.heap, ∀ q, RcvInput.put q ∈ c.rcv →
      ∃ c' ∈ l.b.heap, c'.peer = na ∧ c'.id = c.id ∧
        ∃ p ∈ c'.snd, q = { hdr := p.hdr.onWire, body := p.body, peer := nb }) :=
  have inv := reach.inv
  ⟨inv.heardB.channels inv.reachA inv.reachB, inv.heardA.channels inv.reachB inv.reachA⟩

/-- `"A"` opens a `chat` channel to `"B"` on the sixteen bytes `drawnBytes` of `make_rand`. -/
def chatOpen : Op := .openChannel "B" { hdr := { type := "chat" } } (.ok drawnBytes) {} {}

/-- `"B"` answers on the channel that the first packet opened. -/
def chatReply : Op := .send 0 { body := [7] } {}

/-- The first packet of `chatOpen` and the answer of `chatReply`, as they leave and as `parse_pkt`
reads them back from their frames. -/
def chatOpened : Pkt := { hdr := { type := "chat", c := "5ea107c39b42f01d68e52ab70c9374d8" } }
def chatAnswer : Pkt := { hdr := { c := "5ea107c39b42f01d68e52ab70c9374d8" }, body := [7] }

/-- `"A"` opens a channel, the line carries its first packet to `"B"`, which opens the channel on
its side and answers, and the line carries the answer to `"A"`. -/
def chatLink : Link :=
  ⟨(Controller.init.step chatOpen).step (.rcvChannelPkt { chatAnswer with peer := "B" }),
    (Controller.init.step (.rcvChannelPkt { chatOpened with peer := "A" })).step chatReply⟩

/-- In `chatLink` the channels at both ends have the id `"5ea107c39b42f01d68e52ab70c9374d8"`,
each has received one packet, and what each received came from the other. -/
theorem chat_channels_agree :
    (chatLink.a.heap.map (·.id) = ["5ea107c39b42f01d68e52ab70c9374d8"] ∧
      chatLink.b.heap.map (·.id) = ["5ea107c39b42f01d68e52ab70c9374d8"] ∧
      chatLink.a.heap.map (·.puts.length) = [1] ∧ chatLink.b.heap.map (·.puts.length) = [1]) ∧
    (∀ c ∈ chatLink.b.heap, ∀ q, RcvInput.put q ∈ c.rcv →
      ∃ c' ∈ chatLink.a.heap, c'.peer = "B" ∧ c'.id = c.id ∧
        ∃ p ∈ c'.snd, q = { hdr := p.hdr.onWire, body := p.body, peer := "A" }) ∧
    (∀ c ∈ chatLink.a.heap, ∀ q, RcvInput.put q ∈ c.rcv →
      ∃ c' ∈ chatLink.b.heap, c'.peer = "A" ∧ c'.id = c.id ∧
        ∃ p ∈ c'.snd, q = { hdr := p.hdr.onWire, body := p.body, peer := "B" }) :=
  ⟨by decide, link_channels_agree (.toA chatAnswer (q := chatAnswer) (by decide) rfl rfl
    (.stepB chatReply trivial (.toB chatOpened (q := chatOpened) (by decide) rfl rfl
      (.stepA chatOpen trivial .init))))⟩

end Telehash
