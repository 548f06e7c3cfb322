/-
**Where the relays of the selective-repeat transfer send the acknowledgements.**

The relays keep one client address, `cli_addr`, and every `recvfrom` on a relay socket overwrites it,
also when the packet is then dropped.  An acknowledgement goes to that address, whatever its
`channel_id` is.

Main definitions:

* `SelectiveRepeat.Routed` — the acknowledgements have gone to their own channels;
* `SelectiveRepeat.AckInTurn` — an acknowledgement is forwarded while its channel is the last one the
  relays have heard.

Main results:

* `SelectiveRepeat.routed_iff` — the acknowledgements of a run went to their channels exactly when
  each of them was forwarded in turn;
* `SelectiveRepeat.not_routed` — two channels are enough for the client to read the acknowledgement
  of one on the other.
-/

import NetworkProgramming.SelectiveRepeat

set_option relaxedAutoImplicit false
set_option autoImplicit false

namespace SelectiveRepeat

open Runs
open StopWait (Packet Byte)

/-! ### The right channel -/

/-- **The acknowledgements are on the right channels**: the relays sent each of them to the socket
from which the packets with its `channel_id` come, and each one that the client read acknowledges a
packet that it sent on the same channel. -/
structure Routed (s : Sys) : Prop where
  forwarded : ∀ f ∈ s.forwarded, f.2 = some f.1.header.channelId.toNat
  acked : ∀ x ∈ s.acked, ∃ p, (x.1, p) ∈ s.sent ∧ x.2 = p.ack

/-- An acknowledgement that a pass of the relays takes is one of the channel that they have heard
last, be it a packet that they dropped. -/
def AckInTurn (s : Sys) : Event → Prop
  | .pass (some x) _ =>
      ∀ a ∈ s.fromServer[x.1]?, s.heard.getLast? = some a.header.channelId.toNat
  | _ => True

instance (s : Sys) (e : Event) : Decidable (AckInTurn s e) :=
  match e with
  | .write => inferInstanceAs (Decidable True)
  | .timeout => inferInstanceAs (Decidable True)
  | .read _ => inferInstanceAs (Decidable True)
  | .serve _ => inferInstanceAs (Decidable True)
  | .pass none _ => inferInstanceAs (Decidable True)
  | .pass (some x) _ => inferInstanceAs
      (Decidable (∀ a ∈ s.fromServer[x.1]?, s.heard.getLast? = some a.header.channelId.toNat))

/-! ### The exact condition -/

/-- What the client has read is right as soon as what the relays have sent is: a datagram on the
socket of channel `i` was sent to its address. -/
theorem Traced.routed_iff_forwarded {s : Sys} (h : Traced s) :
    Routed s ↔ ∀ f ∈ s.forwarded, f.2 = some f.1.header.channelId.toNat := by
  constructor
  · exact Routed.forwarded
  · intro hright
    refine ⟨hright, ?_⟩
    intro x hx
    have hf := h.acked x hx
    obtain ⟨i, p, hp, hack⟩ := h.forwarded _ hf
    have hi : x.1 = i := by
      have haddr : x.1 = x.2.header.channelId.toNat := Option.some_inj.1 (hright _ hf)
      have hchannel : p.header.channelId.toNat = i := h.channel _ hp
      rw [haddr, show x.2 = p.ack from hack]
      exact hchannel
    subst hi
    exact ⟨p, hp, hack⟩

/-- A pass adds the acknowledgement it takes to those that were forwarded. -/
theorem routed_step {s t : Sys} {e : Event} (h : Traced s) (ht : step s e = some t) :
    (∀ f ∈ t.forwarded, f.2 = some f.1.header.channelId.toNat) ↔
      (∀ f ∈ s.forwarded, f.2 = some f.1.header.channelId.toNat) ∧ AckInTurn s e := by
  cases step_cases ht with
  | send hpc => exact (and_iff_left trivial).symm
  | sendFin hpc => exact (and_iff_left trivial).symm
  | resend hpc => exact (and_iff_left trivial).symm
  | resendFin hpc => exact (and_iff_left trivial).symm
  | readAck hpc hx => exact (and_iff_left trivial).symm
  | readFin hpc hx => exact (and_iff_left trivial).symm
  | served hp => exact (and_iff_left trivial).symm
  | pass _ _ hrecvs =>
      obtain ⟨-, -, hforwarded, -⟩ := run_forwardPacket hrecvs
      rw [hforwarded]
      exact (and_iff_left trivial).symm
  | @passAck x a recvs _ _ _ ha hrecvs =>
      obtain ⟨-, -, hforwarded, -⟩ := run_forwardPacket hrecvs
      have hturn : AckInTurn s (.pass (some x) recvs) ↔
          s.cliAddr = some a.header.channelId.toNat := by
        rw [h.cliAddr]
        simp [AckInTurn, ha]
      rw [hforwarded, hturn, Sys.ackForwarded_forwarded, List.forall_mem_append,
        List.forall_mem_singleton]
      rfl

/-- **The acknowledgements of a run are on the right channels exactly when every one was forwarded in
turn**: the last datagram that the relays had received, dropped or not, came from its channel.
Nothing in the relays waits for that. -/
theorem routed_iff {file : List Byte} {es : List Event} {s : Sys}
    (h : run step (Sys.init file) es = some s) :
    Routed s ↔ Along step AckInTurn (Sys.init file) es := by
  have htraced : Traced s :=
    run_invariant (fun s e t hs ht => hs.step ht) (traced_init file) h
  rw [htraced.routed_iff_forwarded, run_iff_along (fun s e t hs ht => hs.step ht)
    (fun s e t hs ht => routed_step hs ht) (traced_init file) h, and_iff_right]
  intro f hf
  cases hf

/-! ### Two runs -/

/-- The empty file: one packet on channel `0`, dropped once, and its acknowledgement. -/
def oneChannel : List Event :=
  [.write, .pass none [⟨0, 0, true⟩], .timeout, .pass none [⟨0, 0, false⟩], .serve 0,
    .pass (some (0, 2)) [], .read 0]

theorem routed_oneChannel : ∃ s, run step (Sys.init []) oneChannel = some s ∧
    s.acked.map Prod.fst = [0] ∧ Routed s :=
  ⟨_, rfl, by decide, (@routed_iff [] oneChannel _ rfl).2 (by decide)⟩

/-- Five bytes: the relays hear channel `0` and then channel `1`, and only then the acknowledgement
of channel `0` comes.  The client reads it on channel `1`, after a retransmission has brought it
another one on channel `0`. -/
def twoChannels : List Event :=
  [.write, .write, .pass none [⟨0, 0, false⟩, ⟨1, 0, false⟩], .serve 0, .pass (some (0, 0)) [],
    .timeout, .pass none [⟨0, 0, false⟩], .serve 1, .pass (some (0, 0)) [], .read 0, .read 0]

/-- **The acknowledgement of channel `0` is sent to channel `1`**, where the client reads it, though
it has sent no such packet there. -/
theorem not_routed : ∃ s, run step (Sys.init [104, 101, 108, 108, 111]) twoChannels = some s ∧
    (∃ f ∈ s.forwarded, f.1.header.channelId = 0 ∧ f.2 = some 1) ∧
    (∃ x ∈ s.acked, x.1 = 1 ∧ ∀ y ∈ s.sent, y.1 = 1 → x.2 ≠ y.2.ack) ∧ ¬ Routed s := by
  refine ⟨_, rfl, by decide, by decide, ?_⟩
  intro h
  have hright := h.forwarded
  revert hright
  decide

end SelectiveRepeat
