/-
# Telehash.Channel.Ending -- how many `end` packets a channel sends

`close_with_error` sends a packet with `end:true` through `send`, which hands it to `snd.put`
and, when that succeeds, to the line layer; then it closes the ack engine and the receive buffer.
Nothing records that a channel has ended, and neither `close_with_error` nor `send` asks, so each
call sends one more `end` packet:

* `closeWithError_ends`: one call on a live channel gives `snd.put` exactly one more `end`
  packet of that channel, and one to the line layer when the put succeeds;
* `closes_end_each_time`: a run of `close` and `close_with_error` calls on one channel, by the
  application or by the deferred close of `run_user_handler`, gives `snd.put` as many `end`
  packets as it has calls.

The channel's own `Close` followed by its handler's return, or by `_close_channels` at shutdown,
is such a run of two.
-/
import Telehash.Channel.Demux

namespace Telehash

set_option autoImplicit false

/-- The `end` packets given to a channel's `snd.put`. -/
def Channel.ends (c : Channel) : Nat := (c.snd.filter (·.hdr.«end»)).length

namespace Channel

variable (pkt : Pkt) (c : Channel)

@[simp] theorem sndPut_snd : (c.sndPut pkt).snd = c.snd ++ [pkt] := rfl
@[simp] theorem tellAck_snd (input : AckInput) : (c.tellAck input).snd = c.snd := rfl
@[simp] theorem closeBuffers_snd : c.closeBuffers.snd = c.snd := rfl

end Channel

/-- The packets with `end:true` handed to the line layer. -/
def Controller.wireEnds (h : Controller) : List (Hashname × Pkt) := h.wire.filter (·.2.hdr.«end»)

/-- The channel at `ptr` after a change at `ptr`, when it is allocated. -/
theorem getD_modify_self {α : Type} (f : α → α) {l : List α} {n : Nat} (d : α) (hn : n < l.length) :
    (l.modify f n).getD n d = f (l.getD n d) := by
  rw [List.getD_eq_getElem _ _ (by simpa using hn), List.getD_eq_getElem _ _ hn,
    List.getElem_modify]
  simp

section Close

variable (h : Controller) {ptr : Nat} (live : ptr < h.heap.length) (msg : String)
  (out : SendOutcome)

include live

/-- One `close_with_error` on a live channel: the heap keeps its size, the channel's `snd.put`
gets one more `end` packet, and so does the line layer when the put succeeds. -/
theorem closeWithError_ends :
    (h.closeWithError ptr msg out).1.heap.length = h.heap.length ∧
      ((h.closeWithError ptr msg out).1.heap.getD ptr default).ends =
        (h.heap.getD ptr default).ends + 1 ∧
      (out.put = none → ((h.closeWithError ptr msg out).1.wireEnds).length = h.wireEnds.length + 1) := by
  have inner : ∀ f : Channel → Channel, ptr < (h.heap.modify f ptr).length := fun f => by
    rw [List.length_modify]; exact live
  simp only [Controller.closeWithError, Controller.send, Controller.modify]
  cases out.put with
  | some err =>
    rw [getD_modify_self _ _ (inner _), getD_modify_self _ _ live]
    simp only [Channel.closeBuffers_snd, Channel.sndPut_snd, Channel.ends, List.filter_append,
      List.length_append]
    exact ⟨by simp, rfl, fun h => by cases h⟩
  | none =>
    rw [getD_modify_self _ _ (by rw [List.length_modify]; exact inner _), getD_modify_self _ _ (inner _),
      getD_modify_self _ _ live]
    simp only [Channel.closeBuffers_snd, Channel.tellAck_snd, Channel.sndPut_snd, Channel.ends,
      List.filter_append, List.length_append, Controller.wireEnds]
    exact ⟨by simp, rfl, fun _ => rfl⟩

end Close

/-- `op` calls `close` or `close_with_error` on the channel at `ptr`: the application, or the
deferred close of `run_user_handler` when the handler returns or panics. -/
def Op.ClosesChannel (ptr : Nat) : Op → Prop
  | .closeWithError p _ _ => p = ptr
  | .handlerDone p _ _ => p = ptr
  | _ => False

/-- Every `close` or `close_with_error` on a live channel gives its `snd.put` one more `end`
packet: after any run of them there are as many more as there were calls. -/
theorem closes_end_each_time {h : Controller} {ptr : Nat} (live : ptr < h.heap.length)
    (ops : List Op) (closes : ∀ op ∈ ops, op.ClosesChannel ptr) :
    ((h.run ops).heap.getD ptr default).ends = (h.heap.getD ptr default).ends + ops.length := by
  induction ops generalizing h with
  | nil => rfl
  | cons op ops ih =>
    have step : (h.step op).heap.length = h.heap.length ∧
        ((h.step op).heap.getD ptr default).ends = (h.heap.getD ptr default).ends + 1 := by
      have closing := closes op (List.mem_cons_self _ _)
      cases op with
      | closeWithError p msg out =>
        obtain rfl : p = ptr := closing
        simp only [Controller.step, if_pos live]
        exact ⟨(closeWithError_ends h live msg out).1, (closeWithError_ends h live msg out).2.1⟩
      | handlerDone p panicked out =>
        obtain rfl : p = ptr := closing
        simp only [Controller.step, if_pos live]
        exact ⟨(closeWithError_ends h live _ out).1, (closeWithError_ends h live _ out).2.1⟩
      | _ => exact closing.elim
    rw [Controller.run, ih (step.1 ▸ live) fun op' mem => closes op' (List.mem_cons_of_mem _ mem),
      step.2, List.length_cons]
    omega

/-- `"P"` opens channel `"c1"` to us, which starts its user handler. -/
def openedByP : Controller :=
  Controller.init.rcvChannelPkt { hdr := { c := "c1", type := "chat" }, peer := "P" }

/-- The handler closes the channel, and `run_user_handler` closes it again when the handler
returns. -/
def closedTwice : List Op := [.closeWithError 0 "" {}, .handlerDone 0 false {}]

/-- After the handler's own close and the close of its return, the channel has given `snd.put`
two `end` packets, and the line layer has two for `"P"`. -/
theorem closedTwice_ends_twice :
    0 < openedByP.heap.length ∧
      ((openedByP.run closedTwice).heap.getD 0 default).ends =
        (openedByP.heap.getD 0 default).ends + closedTwice.length ∧
      (openedByP.run closedTwice).wireEnds.map (·.1) = ["P", "P"] :=
  ⟨by decide, closes_end_each_time (by decide) closedTwice (by
    intro op mem
    simp only [closedTwice, List.mem_cons, List.mem_singleton, List.not_mem_nil, or_false] at mem
    rcases mem with rfl | rfl <;> rfl), by decide⟩

end Telehash
