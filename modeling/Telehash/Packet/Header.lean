/-
# Telehash.Packet.Header -- packets and the pure-ack test

`pkt_t` is a header, a body and the hashname of the peer it came from.  The header `pkt_hdr_t`
has twenty optional fields; the model keeps each at the Go type it has: strings, `int64` and `int`
as 64-bit words (`GoInt`), the `*int` `Ack` as an option, the slices `Miss` and `See` as options
so that a nil slice (`none`) and an empty one (`some []`) stay apart, as `JustAck` tells them
apart, and the `json.RawMessage` `Custom` as its bytes.  A Go string is taken to be valid UTF-8
text, which is what every string the JSON decoder produces is.

`PktHdr.justAck` holds of a header that carries an `ack` and nothing else but `c` and `miss`;
`Pkt.justAck` asks in addition for an empty body.  Such a packet never has a `type`
(`PktHdr.justAck_type`), which is why a packet that opens a channel is never a pure ack.
-/
import Telehash.Kademlia.Distance

namespace Telehash

set_option autoImplicit false

/-- `Hashname` of the switch: the peer a packet came from or a channel belongs to.  Only compared
for equality here, so it is modelled by its text. -/
abbrev Hashname := String

/-- Go's `int` and `int64` on a 64-bit platform. -/
abbrev GoInt := BitVec 64

/-- `pkt_hdr_t`, with the JSON key of each field as its name. -/
structure PktHdr where
  type : String := ""
  line : String := ""
  iv : String := ""
  «open» : String := ""
  sig : String := ""
  c : String := ""
  «to» : String := ""
  «at» : GoInt := 0
  family : String := ""
  seq : GoInt := 0
  ack : Option GoInt := none
  miss : Option (List GoInt) := none
  «end» : Bool := false
  err : String := ""
  seek : String := ""
  see : Option (List String) := none
  peer : String := ""
  ip : String := ""
  port : GoInt := 0
  custom : List UInt8 := []
  deriving DecidableEq, Repr, Inhabited

/-- `pkt_t`, without `addr`, which only the line layer reads. -/
structure Pkt where
  hdr : PktHdr := {}
  body : List UInt8 := []
  peer : Hashname := ""
  deriving DecidableEq, Repr, Inhabited

/-- `(*pkt_hdr_t).JustAck`. -/
def PktHdr.justAck (p : PktHdr) : Bool :=
  p.type == "" && p.line == "" && p.iv == "" && p.«open» == "" && p.sig == "" && p.«to» == "" &&
    p.«at» == 0 && p.family == "" && p.seq == 0 && p.ack.isSome && p.«end» == false &&
    p.err == "" && p.seek == "" && p.see.isNone && p.peer == "" && p.ip == "" && p.port == 0 &&
    p.custom.length == 0

/-- `(*pkt_t).JustAck`. -/
def Pkt.justAck (p : Pkt) : Bool := p.body.length == 0 && p.hdr.justAck

/-- A pure ack has no `type`. -/
theorem PktHdr.justAck_type {p : PktHdr} (h : p.justAck = true) : p.type = "" := by
  by_contra typed
  simp [PktHdr.justAck, typed] at h

theorem Pkt.justAck_type {p : Pkt} (h : p.justAck = true) : p.hdr.type = "" := by
  simp only [Pkt.justAck, Bool.and_eq_true] at h
  exact PktHdr.justAck_type h.2

end Telehash
