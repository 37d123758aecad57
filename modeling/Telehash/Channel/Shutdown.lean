/-
# Telehash.Channel.Shutdown -- `_close_channels` closes exactly the registered channels

`_close_channels` ranges over the registry and calls `close_with_error("switch was terminated")`
on each channel it names: that sends an `end` packet carrying the error (`snd.put` has it whether
the put succeeds or not) and closes the ack engine and the receive buffer.  `Channel.Closed msg`
says what a channel records of such a call.  The calls on the other channels only add to a
channel's records (`Controller.extends_moves`), so after the loop every registered channel is
closed; and the loop changes no other channel (`Controller.getD_closeEach_of_not_mem`).

So a channel that is allocated but not registered stays open at shutdown: the one an
`open_channel` or a `rcv_new_channel_pkt` registered under an id that a later channel took over
(`mapSet` replaces the entry), since nothing else ever removes an entry.
-/
import Telehash.Channel.Routing

namespace Telehash

set_option autoImplicit false

/-- `c` has been closed with `msg`: an `end` packet with the error `msg` given to `snd.put`, and
the ack engine and the receive buffer closed. -/
structure Channel.Closed (msg : String) (c : Channel) : Prop where
  sent : ∃ pkt ∈ c.snd, pkt.hdr.«end» = true ∧ pkt.hdr.err = msg
  ack : AckInput.close ∈ c.ack
  rcv : RcvInput.close ∈ c.rcv

theorem Channel.Closed.mono {msg : String} {c c' : Channel} (closed : c.Closed msg)
    (e : c.Extends c') : c'.Closed msg :=
  have ⟨pkt, mem, fin, err⟩ := closed.sent
  ⟨⟨pkt, e.snd.subset mem, fin, err⟩, e.ack.subset closed.ack, e.rcv.subset closed.rcv⟩

namespace Controller

open Relation

/-! ## What the changes keep -/

section Keeps

variable {input : Pkt → Prop} {h h' : Controller}

theorem length_change : Change input h h' → h.heap.length ≤ h'.heap.length
  | .quiet _ _ _ | .deliver _ _ _ => by simp [Controller.modify]
  | .alloc _ => by simp [Controller.alloc]
  | .addChannel _ | .spawn _ | .transmit _ _ _ => le_refl _

/-- A change only adds to the records of the channels allocated before it. -/
theorem extends_change : Change input h h' →
    ∀ p < h.heap.length, (h.heap.getD p default).Extends (h'.heap.getD p default)
  | .quiet ptr ext _ => fun p _ => by
    simp only [Controller.modify, getD_modify]
    split
    · exact ext _
    · exact .refl _
  | .deliver ptr _ _ => fun p _ => by
    simp only [Controller.modify, getD_modify]
    split
    · exact Channel.extends_deliver _ _
    · exact .refl _
  | .alloc _ => fun p hp => by
    rw [Controller.alloc, List.getD_append _ _ _ _ hp]
    exact .refl _
  | .addChannel _ | .spawn _ | .transmit _ _ _ => fun _ _ => .refl _

theorem length_moves (m : ReflTransGen (Change input) h h') : h.heap.length ≤ h'.heap.length := by
  induction m with
  | refl => exact le_refl _
  | tail _ c ih => exact ih.trans (length_change c)

theorem extends_moves (m : ReflTransGen (Change input) h h') :
    ∀ p < h.heap.length, (h.heap.getD p default).Extends (h'.heap.getD p default) := by
  induction m with
  | refl => exact fun p _ => .refl _
  | tail m c ih => exact fun p hp => (ih p hp).trans (extends_change c p (lt_of_lt_of_le hp (length_moves m)))

end Keeps

/-! ## One close -/

section Close

variable (h : Controller) {ptr : Nat} (msg : String) (out : SendOutcome)

theorem closeWithError_closes (hp : ptr < h.heap.length) :
    ((h.closeWithError ptr msg out).1.heap.getD ptr default).Closed msg := by
  rw [closeWithError, Controller.modify, getD_modify,
    if_pos ⟨rfl, by rw [length_send]; exact hp⟩]
  refine ⟨?_, by simp [Channel.closeBuffers], by simp [Channel.closeBuffers]⟩
  -- `send` gives `snd.put` the `end` packet stamped with the channel's id
  have sent : ((h.send ptr { hdr := { «end» := true, err := msg } } out).1.heap.getD ptr default).snd =
      (h.heap.getD ptr default).snd ++
        [{ hdr := { «end» := true, err := msg, c := (h.heap.getD ptr default).id } }] := by
    unfold send
    split <;> simp [Controller.modify, getD_modify, hp, Channel.sndPut, Channel.tellAck]
  show ∃ pkt ∈ ((h.send ptr _ out).1.heap.getD ptr default).snd, _
  rw [sent]
  exact ⟨_, List.mem_append_right _ (List.mem_singleton_self _), rfl, rfl⟩

/-- A close leaves the other channels as they are. -/
theorem getD_closeWithError_of_ne {p : Nat} (other : ptr ≠ p) :
    (h.closeWithError ptr msg out).1.heap.getD p default = h.heap.getD p default := by
  unfold closeWithError send
  split <;> simp [Controller.modify, getD_modify, other]

end Close

/-! ## The loop -/

/-- The loop closes every channel it is given. -/
theorem closeEach_closes : ∀ {h : Controller} (ptrs : List Nat) (outs : List SendOutcome),
    (∀ p ∈ ptrs, p < h.heap.length) →
      ∀ p ∈ ptrs, ((h.closeEach ptrs outs).heap.getD p default).Closed "switch was terminated"
  | _, [], _, _, _, mem => absurd mem (List.not_mem_nil _)
  | h, q :: ptrs, outs, live, p, mem => by
    have live' : ∀ p ∈ ptrs, p < (h.closeWithError q "switch was terminated" (outs.headD {})).1.heap.length :=
      fun p hp => by rw [length_closeWithError]; exact live p (List.mem_cons_of_mem _ hp)
    rcases List.mem_cons.mp mem with rfl | mem
    · have hp := live p (List.mem_cons_self _ _)
      exact (closeWithError_closes h _ _ hp).mono
        (extends_moves (@closeEach_moves (fun _ => False) _ ptrs outs.tail live') p
          (by rw [length_closeWithError]; exact hp))
    · exact closeEach_closes ptrs outs.tail live' p mem

/-- The loop changes no channel it is not given. -/
theorem getD_closeEach_of_not_mem : ∀ {h : Controller} (ptrs : List Nat) (outs : List SendOutcome)
    {p : Nat}, p ∉ ptrs → (h.closeEach ptrs outs).heap.getD p default = h.heap.getD p default
  | _, [], _, _, _ => rfl
  | h, q :: ptrs, outs, p, absent => by
    rw [closeEach, getD_closeEach_of_not_mem ptrs outs.tail (fun mem => absent (List.mem_cons_of_mem _ mem)),
      getD_closeWithError_of_ne _ _ _ fun same => absent (by subst same; exact List.mem_cons_self _ _)]

end Controller

/-- At shutdown, from any reachable controller, `_close_channels` closes every channel the registry
names (an `end` packet with the error `"switch was terminated"` given to `snd.put`, the ack engine
and the receive buffer closed), whatever its sends return, and leaves every other channel as it
was. -/
theorem closeChannels_closes_registered {h : Controller} (reach : h.Reachable) (outs : List SendOutcome) :
    (∀ k p, (k, p) ∈ h.channels →
      (∃ pkt ∈ ((h.closeChannels outs).heap.getD p default).snd,
        pkt.hdr.«end» = true ∧ pkt.hdr.err = "switch was terminated") ∧
      AckInput.close ∈ ((h.closeChannels outs).heap.getD p default).ack ∧
      RcvInput.close ∈ ((h.closeChannels outs).heap.getD p default).rcv) ∧
    ∀ p, (∀ k, (k, p) ∉ h.channels) →
      (h.closeChannels outs).heap.getD p default = h.heap.getD p default := by
  have r := reach.routed
  refine ⟨fun k p mem => ?_, fun p unregistered => ?_⟩
  · have closed := Controller.closeEach_closes (h.channels.map (·.2)) outs
      (fun p mem => by
        obtain ⟨e, he, rfl⟩ := List.mem_map.mp mem
        exact (r.registry e.1 e.2 he).1)
      p (List.mem_map.mpr ⟨(k, p), mem, rfl⟩)
    exact ⟨closed.sent, closed.ack, closed.rcv⟩
  · refine Controller.getD_closeEach_of_not_mem _ outs fun mem => ?_
    obtain ⟨e, he, rfl⟩ := List.mem_map.mp mem
    exact unregistered e.1 he

/-- Open two channels to `"P"` on two draws of `make_rand(16)` that coincide: the registry keeps
only the second. -/
def twiceOpened : Controller :=
  Controller.init.run
    [.openChannel "P" {} (.ok drawnBytes) {} {}, .openChannel "P" {} (.ok drawnBytes) {} {}]

/-- At the shutdown of `twiceOpened` the registry names only the second channel, which is closed,
and the first stays open. -/
theorem twiceOpened_shutdown :
    RcvInput.close ∉ (twiceOpened.heap.getD 0 default).rcv ∧
      ((∀ k p, (k, p) ∈ twiceOpened.channels →
        (∃ pkt ∈ ((twiceOpened.closeChannels []).heap.getD p default).snd,
          pkt.hdr.«end» = true ∧ pkt.hdr.err = "switch was terminated") ∧
        AckInput.close ∈ ((twiceOpened.closeChannels []).heap.getD p default).ack ∧
        RcvInput.close ∈ ((twiceOpened.closeChannels []).heap.getD p default).rcv) ∧
      ∀ p, (∀ k, (k, p) ∉ twiceOpened.channels) →
        (twiceOpened.closeChannels []).heap.getD p default = twiceOpened.heap.getD p default) ∧
      twiceOpened.channels.map (·.2) = [1] :=
  ⟨by decide, closeChannels_closes_registered (Controller.Reachable.init.run _) [], by decide⟩

end Telehash
