/-
# Telehash.Channel.Controller -- the channel registry and the inbound demultiplexer

`channel_controller` keeps a Go map `channels` from channel id to channel.  `open_channel` draws
a random id, registers a new channel under it and sends the first packet; `rcv_channel_pkt`
routes an inbound packet by its `c` field alone, and an unknown `c` with a `type` opens a channel
from the remote side and starts its user handler; `close_with_error` sends an `end` packet and
closes the channel's ack engine and receive buffer; `_close_channels` closes every registered
channel at shutdown.

The model is a state machine over `Controller`.  Channels live in a heap (a pointer is a
position in it), since the map and the user handlers hold them by pointer and two channels may
carry one id.  The send and receive buffers and the ack engine are in files outside the sources:
each channel records, in order, every call the controller makes on them.  The calls that can
fail outside the controller (`make_rand`, `snd.put`, the line layer's `_snd_pkt`) take their
outcome as an input of the operation, so every failure point is a branch of the model.

Two facts about runs that the code does not have:

* `foreign_packet_enters_channel`: the demultiplexer never compares a packet's sender with the
  channel's peer, so a packet from `"Q"` that names the id of a channel opened by `"P"` goes
  into that channel's receive buffer.
* `registry_keeps_closed_channels`: nothing calls `drop_channel`, so no operation ever removes
  a registry entry (`Controller.Grows`): a closed channel stays registered, and so does the
  channel of an `open_channel` whose first send fails.
-/
import Telehash.Packet.Header

namespace Telehash

set_option autoImplicit false

/-- A call the controller makes on a channel's receive buffer `rcv`. -/
inductive RcvInput
  | put (pkt : Pkt)
  | close
  deriving DecidableEq, Repr

/-- A call the controller makes on a channel's ack engine `ack`. -/
inductive AckInput
  | addAckInfo (pkt : Pkt)
  | receivedPacket
  | handleAckInfo (pkt : Pkt)
  | close
  deriving DecidableEq, Repr

/-- `channel_t`: its id, peer and type, and in place of its buffers and ack engine every call
made on them, oldest first (`snd` holds the packets given to `snd.put`). -/
structure Channel where
  id : String
  peer : Hashname
  channelType : String
  snd : List Pkt
  rcv : List RcvInput
  ack : List AckInput
  deriving DecidableEq, Repr, Inhabited

/-- `h.make_channel(peer)`: empty buffers, id and type not yet set. -/
def makeChannel (peer : Hashname) : Channel := ⟨"", peer, "", [], [], []⟩

namespace Channel

/-- `c.snd.put(pkt)`. -/
def sndPut (pkt : Pkt) (c : Channel) : Channel := { c with snd := c.snd ++ [pkt] }

/-- A call on `c.ack`. -/
def tellAck (input : AckInput) (c : Channel) : Channel := { c with ack := c.ack ++ [input] }

/-- `c.rcv.put(pkt)` then `c.ack.received_packet()`. -/
def deliver (pkt : Pkt) (c : Channel) : Channel :=
  { c with rcv := c.rcv ++ [.put pkt], ack := c.ack ++ [.receivedPacket] }

/-- `c.ack.close()` then `c.rcv.close()`. -/
def closeBuffers (c : Channel) : Channel :=
  { c with ack := c.ack ++ [.close], rcv := c.rcv ++ [.close] }

end Channel

/-- `channel_controller`: the channels allocated so far, the map `channels` (its entries, keys
distinct), the channels whose user handler was started, and the packets handed to the line
layer, oldest first. -/
structure Controller where
  heap : List Channel
  channels : List (String × Nat)
  handlers : List Nat
  wire : List (Hashname × Pkt)
  deriving DecidableEq, Repr

/-- `channel_controller_open`: an empty registry. -/
def Controller.init : Controller := ⟨[], [], [], []⟩

/-! ## The Go map -/

/-- `m[k]`: the entry for `k`, `none` for Go's nil. -/
def mapGet (m : List (String × Nat)) (k : String) : Option Nat := m.lookup k

/-- `m[k] = v`: replaces the entry for `k`, or adds one. -/
def mapSet (m : List (String × Nat)) (k : String) (v : Nat) : List (String × Nat) :=
  if m.any (·.1 == k) then m.map fun e => if e.1 == k then (k, v) else e else m ++ [(k, v)]

/-- `delete(m, k)`. -/
def mapDelete (m : List (String × Nat)) (k : String) : List (String × Nat) :=
  m.filter (·.1 != k)

/-- `mapSet` keeps every key and adds `k` at the end when it is new. -/
theorem keys_mapSet (m : List (String × Nat)) (k : String) (v : Nat) :
    (mapSet m k v).map (·.1) = if k ∈ m.map (·.1) then m.map (·.1) else m.map (·.1) ++ [k] := by
  unfold mapSet
  by_cases h : k ∈ m.map (·.1)
  · obtain ⟨e, he, rfl⟩ := List.mem_map.mp h
    have : m.any (·.1 == e.1) = true := List.any_eq_true.mpr ⟨e, he, beq_self_eq_true _⟩
    simp only [this, if_true, h, List.map_map]
    exact List.map_congr_left fun e' _ => by by_cases same : e'.1 = e.1 <;> simp [same]
  · have : m.any (·.1 == k) = false :=
      List.any_eq_false.mpr fun e he same => h (List.mem_map.mpr ⟨e, he, by simpa using same⟩)
    simp [this, h]

theorem mapGet_eq_none {m : List (String × Nat)} {k : String} :
    mapGet m k = none ↔ k ∉ m.map (·.1) := by
  rw [mapGet, List.lookup_eq_none_iff]
  simp only [bne_iff_ne, ne_eq, List.mem_map, not_exists, not_and]
  exact ⟨fun h e he same => h e he same.symm, fun h e he same => h e he same.symm⟩

/-! ## Channels -/

/-- `encoding/hex.EncodeToString`: two lower-case hex digits per byte. -/
def hexEncode (bytes : List UInt8) : String :=
  String.mk (bytes.flatMap fun b => [hexDigit (b.toNat / 16), hexDigit (b.toNat % 16)])
where
  hexDigit (n : Nat) : Char := if n < 10 then Char.ofNat (48 + n) else Char.ofNat (87 + n)

/-- The outcomes of the calls one `send` makes outside the controller, `none` for success:
`snd.put`, then the line layer's `_snd_pkt`. -/
structure SendOutcome where
  put : Option String := none
  line : Option String := none
  deriving DecidableEq, Repr

namespace Controller

/-- Change the channel at `ptr`. -/
def modify (h : Controller) (ptr : Nat) (f : Channel → Channel) : Controller :=
  { h with heap := h.heap.modify f ptr }

/-- Allocate a channel; its pointer is the old size of the heap. -/
def alloc (h : Controller) (c : Channel) : Controller := { h with heap := h.heap ++ [c] }

/-- `h.add_channel(c)` for the channel at `ptr`. -/
def addChannel (h : Controller) (ptr : Nat) : Controller :=
  { h with channels := mapSet h.channels (h.heap.getD ptr default).id ptr }

/-- `h.drop_channel(c)` for the channel at `ptr`; no code of the sources calls it. -/
def dropChannel (h : Controller) (ptr : Nat) : Controller :=
  { h with channels := mapDelete h.channels (h.heap.getD ptr default).id }

/-- `c.send(pkt)` on the channel at `ptr`: stamp `c`, `snd.put`, `ack.add_ack_info`, then the
line layer; the error returned, if any. -/
def send (h : Controller) (ptr : Nat) (pkt : Pkt) (out : SendOutcome) : Controller × Option String :=
  let c := h.heap.getD ptr default
  let pkt := { pkt with hdr := { pkt.hdr with c := c.id } }
  let h := h.modify ptr (Channel.sndPut pkt)
  match out.put with
  | some err => (h, some err)
  | none =>
      let h := h.modify ptr (Channel.tellAck (.addAckInfo pkt))
      ({ h with wire := h.wire ++ [(c.peer, pkt)] }, out.line)

/-- `c.close_with_error(err_message)`: send `end` (and `err`), then close `ack` and `rcv`. -/
def closeWithError (h : Controller) (ptr : Nat) (msg : String) (out : SendOutcome) :
    Controller × Option String :=
  let r := h.send ptr { hdr := { «end» := true, err := msg } } out
  (r.1.modify ptr Channel.closeBuffers, r.2)

/-- `c.close()`. -/
def close (h : Controller) (ptr : Nat) (out : SendOutcome) : Controller × Option String :=
  h.closeWithError ptr "" out

/-- `h.open_channel(hashname, pkt)`, given what `make_rand(16)` returns, and the outcomes of the
first send and of the close that follows a failed one: the new channel's pointer, or the error. -/
def openChannel (h : Controller) (hashname : Hashname) (pkt : Pkt)
    (rand : Except String (List UInt8)) (sendOut closeOut : SendOutcome) :
    Controller × Except String Nat :=
  match rand with
  | .error err => (h, .error err)
  | .ok id =>
      let ptr := h.heap.length
      let h := (h.alloc { makeChannel hashname with id := hexEncode id }).addChannel ptr
      match h.send ptr pkt sendOut with
      | (h, some err) => ((h.close ptr closeOut).1, .error err)
      | (h, none) => (h, .ok ptr)

/-- `h.rcv_new_channel_pkt(pkt)`: a channel opened from the remote side, registered, its user
handler started, and the packet put as its first. -/
def rcvNewChannelPkt (h : Controller) (pkt : Pkt) : Controller :=
  let ptr := h.heap.length
  let h := (h.alloc { makeChannel pkt.peer with id := pkt.hdr.c, channelType := pkt.hdr.type }).addChannel ptr
  let h := { h with handlers := h.handlers ++ [ptr] }
  h.modify ptr (Channel.deliver pkt)

/-- `h.rcv_channel_pkt(pkt)`. -/
def rcvChannelPkt (h : Controller) (pkt : Pkt) : Controller :=
  if pkt.hdr.c = "" then h
  else
    match mapGet h.channels pkt.hdr.c with
    | none => if pkt.hdr.type ≠ "" then h.rcvNewChannelPkt pkt else h
    | some ptr =>
        let h := if pkt.justAck then h else h.modify ptr (Channel.deliver pkt)
        h.modify ptr (Channel.tellAck (.handleAckInfo pkt))

/-- The `for _, c := range h.channels` loop of `_close_channels`, over the pointers `ptrs`, with
the outcome of each close's send (success once `outs` runs out). -/
def closeEach (h : Controller) : List Nat → List SendOutcome → Controller
  | [], _ => h
  | ptr :: ptrs, outs =>
      ((h.closeWithError ptr "switch was terminated" (outs.headD {})).1).closeEach ptrs outs.tail

/-- `h._close_channels()`.  Go ranges over a map in no fixed order; the model takes the entries'
order. -/
def closeChannels (h : Controller) (outs : List SendOutcome) : Controller :=
  h.closeEach (h.channels.map (·.2)) outs

end Controller

/-! ## Runs -/

/-- One call on the controller or on one of its channels.  `send` and `closeWithError` are the
application's `Channel.Send` and `Channel.Close` (a `close` is `closeWithError` with the empty
message); `handlerDone` is the deferred close of `run_user_handler` when the handler returns or
panics. -/
inductive Op
  | openChannel (hashname : Hashname) (pkt : Pkt) (rand : Except String (List UInt8))
      (sendOut closeOut : SendOutcome)
  | rcvChannelPkt (pkt : Pkt)
  | send (ptr : Nat) (pkt : Pkt) (out : SendOutcome)
  | closeWithError (ptr : Nat) (msg : String) (out : SendOutcome)
  | handlerDone (ptr : Nat) (panicked : Bool) (out : SendOutcome)
  | closeChannels (outs : List SendOutcome)

/-- One operation.  A Go program only holds pointers to channels it was given, so an operation
on a pointer past the heap does nothing. -/
def Controller.step (h : Controller) : Op → Controller
  | .openChannel hashname pkt rand sendOut closeOut =>
      (h.openChannel hashname pkt rand sendOut closeOut).1
  | .rcvChannelPkt pkt => h.rcvChannelPkt pkt
  | .send ptr pkt out => if ptr < h.heap.length then (h.send ptr pkt out).1 else h
  | .closeWithError ptr msg out =>
      if ptr < h.heap.length then (h.closeWithError ptr msg out).1 else h
  | .handlerDone ptr panicked out =>
      if ptr < h.heap.length then
        (h.closeWithError ptr (if panicked then "internal server error" else "") out).1
      else h
  | .closeChannels outs => h.closeChannels outs

def Controller.run (h : Controller) : List Op → Controller
  | [] => h
  | op :: ops => (h.step op).run ops

/-- The controllers some run from `init` reaches. -/
inductive Controller.Reachable : Controller → Prop
  | init : Reachable Controller.init
  | step {h : Controller} (op : Op) : Reachable h → Reachable (h.step op)

theorem Controller.Reachable.run {h : Controller} (reach : h.Reachable) :
    ∀ ops, (h.run ops).Reachable
  | [] => reach
  | op :: ops => (reach.step op).run ops

/-! ## Routing by id alone -/

/-- A packet of `"Q"` on the id `"c1"`. -/
def foreignPkt : Pkt := { hdr := { c := "c1", seq := 1 }, body := [1], peer := "Q" }

/-- `"P"` opens channel `"c1"` to us, then `"Q"` sends `foreignPkt`. -/
def crossPeerRun : List Op :=
  [.rcvChannelPkt { hdr := { c := "c1", type := "chat" }, peer := "P" }, .rcvChannelPkt foreignPkt]

/-- After `crossPeerRun` the channel of `"P"` has been given the packet of `"Q"`. -/
theorem foreign_packet_enters_channel :
    ((Controller.init.run crossPeerRun).heap.getD 0 default).peer = "P" ∧ foreignPkt.peer = "Q" ∧
      RcvInput.put foreignPkt ∈ ((Controller.init.run crossPeerRun).heap.getD 0 default).rcv := by
  decide

/-- Sixteen bytes, as `make_rand(16)` returns them. -/
def drawnBytes : List UInt8 :=
  [0x5e, 0xa1, 0x07, 0xc3, 0x9b, 0x42, 0xf0, 0x1d, 0x68, 0xe5, 0x2a, 0xb7, 0x0c, 0x93, 0x74, 0xd8]

/-- Open a channel to `"P"` on the id `drawnBytes` gives, every call succeeding, and close it. -/
def openThenClose : List Op :=
  [.openChannel "P" {} (.ok drawnBytes) {} {}, .closeWithError 0 "" {}]

/-- After `openThenClose` the closed channel is still registered under its id; and an
`open_channel` whose `snd.put` fails returns the error with the new channel registered. -/
theorem registry_keeps_closed_channels :
    mapGet (Controller.init.run openThenClose).channels "5ea107c39b42f01d68e52ab70c9374d8" = some 0 ∧
      RcvInput.close ∈ ((Controller.init.run openThenClose).heap.getD 0 default).rcv ∧
      (Controller.init.openChannel "P" {} (.ok drawnBytes) { put := some "full" } {}).2 =
        .error "full" ∧
      mapGet (Controller.init.openChannel "P" {} (.ok drawnBytes) { put := some "full" } {}).1.channels
        "5ea107c39b42f01d68e52ab70c9374d8" = some 0 :=
  ⟨by decide, by decide, rfl, by decide⟩

end Telehash
