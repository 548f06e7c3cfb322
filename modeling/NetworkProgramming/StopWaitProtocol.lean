/-
**The N-channel stop-and-wait protocol: the client, the server and the channels between them.**

`connection_loop` (`client.c`) sends a round of packets, collects one acknowledgement per channel
with `poll` and `read`, retransmitting on every timeout, and finishes with a FIN packet on channel
`0`.  The loop in the server's `main` (`server.c`) calls `select`, serves every channel that is
readable, in order, and stops after the pass in which it accepted the FIN.  This module puts the
two together over reliable FIFO channels that preserve packet boundaries, as one step function on a
state with explicit program counters; every interleaving of the parties is a list of events.

What is not modelled: the time a `poll` waits (a timeout may fire at any moment), the failure exits
of `read` and `write`, and the set-up of the connections, which are all open in the initial state.
`struct pollfd pollfds[0]` is read as the one-element array it is used as.

Main definitions:

* `StopWait.Pc`, `StopWait.Sys` — where the client is in `connection_loop`; the whole state, with
  the packets sent and accepted so far as history variables;
* `StopWait.Event`, `StopWait.step` — the moves of the parties;
* `StopWait.TimeoutAfterDrop`, `StopWait.AcceptsOnce` — the two disciplines that runs are held to;
* `StopWait.LeavesRound`, `StopWait.roundPackets` — leaving the ACK-collecting loop, and the
  packets of the round.

Main results:

* `StopWait.step_cases` — what each move requires and what it does;
* `StopWait.serverServe_eq_serveConnection` — the server's move is a call of `serve_connection`.
-/

import NetworkProgramming.Runs
import NetworkProgramming.StopWaitServer

set_option relaxedAutoImplicit false
set_option autoImplicit false

namespace StopWait

open Runs

/-! ### The state -/

/-- Where the client is in `connection_loop`. -/
inductive Pc
  /-- About to run iteration `i` of the sending loop. -/
  | send (i : ℕ)
  /-- Polling channel `i` in the ACK-collecting loop. -/
  | ack (i : ℕ)
  /-- About to write the FIN packet. -/
  | sendFin
  /-- Polling channel `0` for the answer to the FIN packet. -/
  | fin
  /-- Returned. -/
  | done
  deriving DecidableEq

/-- The state of the client, the server and the channels. -/
structure Sys where
  pc : Pc
  sender : Sender
  /-- The retransmission copies `tmp[i]`. -/
  tmp : ℕ → Packet
  /-- The FIN packet, once it is built. -/
  finPkt : Packet
  /-- The contents of `output.txt`. -/
  out : List Byte
  /-- The server's `is_last == 1`. -/
  isLast : Bool
  /-- The channels that the current pass of the server still has to serve. -/
  ready : List ℕ
  toServer : ℕ → List Packet
  toClient : ℕ → List Packet
  /-- History: the packets written for the first time, with their channels, oldest first. -/
  sent : List (ℕ × Packet)
  /-- History: the packets the server accepted, with their channels, oldest first. -/
  accepted : List (ℕ × Packet)

/-- `Packet p = {0}`. -/
def zeroPacket : Packet := ⟨⟨0, 0, 0, 0, 0⟩, List.replicate packetSize 0, by simp⟩

/-- The FIN packet: the header as the source builds it, and the string `exit` for data. -/
def finPacket (c : Sender) : Packet :=
  ⟨⟨c.payloadSize, c.seqNo, 1, 1, 0⟩, [101, 120, 105, 116, 0], rfl⟩

def Sys.init (file : List Byte) : Sys where
  pc := .send 0
  sender := Sender.init file
  tmp := fun _ => zeroPacket
  finPkt := zeroPacket
  out := []
  isLast := false
  ready := []
  toServer := fun _ => []
  toClient := fun _ => []
  sent := []
  accepted := []

/-! ### The steps -/

/-- The moves of the parties. -/
inductive Event
  /-- The client writes the next packet of the round, or the FIN. -/
  | write
  /-- `poll` times out and the client retransmits. -/
  | timeout
  /-- `poll` succeeds and the client reads an acknowledgement. -/
  | read
  /-- The server's `select` returns. -/
  | select
  /-- The server serves the next readable channel, dropping the packet or not. -/
  | serve (drop : Bool)
  deriving DecidableEq

/-- Appending a packet to the queue of channel `i`. -/
def push (q : ℕ → List Packet) (i : ℕ) (p : Packet) : ℕ → List Packet :=
  Function.update q i (q i ++ [p])

@[simp] theorem push_self (q : ℕ → List Packet) (i : ℕ) (p : Packet) :
    push q i p i = q i ++ [p] := Function.update_self ..

theorem push_of_ne (q : ℕ → List Packet) {i j : ℕ} (p : Packet) (h : j ≠ i) :
    push q i p j = q j := Function.update_of_ne h ..

theorem mem_push {q : ℕ → List Packet} {i j : ℕ} {p r : Packet} (h : r ∈ push q i p j) :
    r ∈ q j ∨ (j = i ∧ r = p) := by
  rcases eq_or_ne j i with rfl | hne
  · simpa using h
  · rw [push_of_ne _ _ hne] at h
    exact Or.inl h

theorem mem_push_of_mem {q : ℕ → List Packet} {i j : ℕ} {p r : Packet} (h : r ∈ q j) :
    r ∈ push q i p j := by
  rcases eq_or_ne j i with rfl | hne
  · rw [push_self]
    exact List.mem_append_left _ h
  · rwa [push_of_ne _ _ hne]

/-- The last channel the round waits on: `last_packet`, or the last one there is. -/
def Sender.lastChannel (c : Sender) : ℕ := c.lastPacket.getD (numChannels - 1)

/-- The condition under which the ACK-collecting loop runs iteration `i`. -/
def Sender.waitsOn (c : Sender) (i : ℕ) : Bool :=
  i < numChannels && c.lastPacket.all fun l => decide (i ≤ l)

/-- Where the client goes when the ACK-collecting loop is over. -/
def afterAcks (c : Sender) : Pc :=
  if c.isEof then .sendFin else if c.eofSeqNo = none then .send 0 else .ack 0

/-- The head of iteration `i` of the ACK-collecting loop. -/
def nextAck (c : Sender) (i : ℕ) : Pc := if c.waitsOn i then .ack i else afterAcks c

/-- What the client makes of an acknowledgement: it only looks for `eof_seq_no`. -/
def noteAck (c : Sender) (a : Packet) : Sender :=
  if a.header.type = 1 ∧ some a.header.seqNo = c.eofSeqNo then { c with isEof := true } else c

/-- Where the client goes after it sent the packet `p` on channel `i`: an empty packet, or the last
channel, ends the round. -/
def afterSend (p : Packet) (i : ℕ) : Pc :=
  if p.header.size = 0 then .ack 0 else if i + 1 < numChannels then .send (i + 1) else .ack 0

/-- The state after iteration `i` of the sending loop. -/
@[simps] def Sys.sendOn (s : Sys) (i : ℕ) : Sys :=
  { s with
    pc := afterSend (sendPacket s.sender i).1 i
    sender := (sendPacket s.sender i).2
    tmp := Function.update s.tmp i (sendPacket s.sender i).1
    toServer := push s.toServer i (sendPacket s.sender i).1
    sent := s.sent ++ [(i, (sendPacket s.sender i).1)] }

/-- The state after the FIN packet is written. -/
@[simps] def Sys.sendFin (s : Sys) : Sys :=
  { s with
    pc := .fin
    sender := { s.sender with seqNo := s.sender.seqNo + (finPacket s.sender).header.size }
    finPkt := finPacket s.sender
    toServer := push s.toServer 0 (finPacket s.sender)
    sent := s.sent ++ [(0, finPacket s.sender)] }

/-- The state after the copy `p` is written on channel `i` once more. -/
@[simps] def Sys.resend (s : Sys) (i : ℕ) (p : Packet) : Sys :=
  { s with toServer := push s.toServer i p }

/-- The state after the acknowledgement `a` is read from channel `i`, with `as` left there. -/
@[simps] def Sys.readAck (s : Sys) (i : ℕ) (a : Packet) (as : List Packet) : Sys :=
  { s with
    pc := nextAck (noteAck s.sender a) (i + 1)
    sender := noteAck s.sender a
    toClient := Function.update s.toClient i as }

/-- The state after the answer to the FIN packet is read, with `as` left on channel `0`. -/
@[simps] def Sys.readFin (s : Sys) (as : List Packet) : Sys :=
  { s with pc := .done, toClient := Function.update s.toClient 0 as }

/-- The state after `select` reported the channels `ready`. -/
@[simps] def Sys.select (s : Sys) (ready : List ℕ) : Sys := { s with ready := ready }

/-- The state after the server read the packet `p` from channel `i`, with `ps` left there and the
channels `rest` left to serve, and dropped it. -/
@[simps] def Sys.drop (s : Sys) (i : ℕ) (rest : List ℕ) (ps : List Packet) : Sys :=
  { s with ready := rest, toServer := Function.update s.toServer i ps }

/-- The same when the server accepted the packet. -/
@[simps] def Sys.accept (s : Sys) (i : ℕ) (rest : List ℕ) (p : Packet) (ps : List Packet) : Sys :=
  { s with
    out := (serveConnection s.out p false).out
    isLast := s.isLast || p.header.isLast == 1
    ready := rest
    toServer := Function.update s.toServer i ps
    toClient := push s.toClient i p.ack
    accepted := s.accepted ++ [(i, p)] }

/-- The client writes the next packet. -/
def clientWrite (s : Sys) : Option Sys :=
  match s.pc with
  | .send i => some (s.sendOn i)
  | .sendFin => some s.sendFin
  | _ => none

/-- `poll` times out: the copy of the outstanding packet is written again. -/
def clientTimeout (s : Sys) : Option Sys :=
  match s.pc with
  | .ack i => some (s.resend i (s.tmp i))
  | .fin => some (s.resend 0 s.finPkt)
  | _ => none

/-- `poll` succeeds: one acknowledgement is read from the channel. -/
def clientRead (s : Sys) : Option Sys :=
  match s.pc with
  | .ack i =>
      match s.toClient i with
      | [] => none
      | a :: as => some (s.readAck i a as)
  | .fin =>
      match s.toClient 0 with
      | [] => none
      | _ :: as => some (s.readFin as)
  | _ => none

/-- `select` returns when at least one channel is readable; every readable one is served. -/
def serverSelect (s : Sys) : Option Sys :=
  let r := (List.range numChannels).filter fun i => !(s.toServer i).isEmpty
  if s.ready = [] ∧ s.isLast = false ∧ r ≠ [] then some (s.select r) else none

/-- The server serves the next channel of its pass. -/
def serverServe (s : Sys) (drop : Bool) : Option Sys :=
  match s.ready with
  | [] => none
  | i :: rest =>
      match s.toServer i with
      | [] => none
      | p :: ps => some (if drop then s.drop i rest ps else s.accept i rest p ps)

/-- **One step of the protocol.** -/
def step (s : Sys) : Event → Option Sys
  | .write => clientWrite s
  | .timeout => clientTimeout s
  | .read => clientRead s
  | .select => serverSelect s
  | .serve drop => serverServe s drop

/-- The server's step is what `serve_connection` computes: its output file, its acknowledgement and
its return value. -/
theorem serverServe_eq_serveConnection {s : Sys} {i : ℕ} {rest : List ℕ} {p : Packet}
    {ps : List Packet} (drop : Bool) (hready : s.ready = i :: rest)
    (hq : s.toServer i = p :: ps) :
    ∃ t, serverServe s drop = some t ∧ t.out = (serveConnection s.out p drop).out ∧
      t.toClient i = s.toClient i ++ (serveConnection s.out p drop).ack.toList ∧
      t.isLast = (s.isLast || (serveConnection s.out p drop).isLast == 1) := by
  cases drop <;> simp [serverServe, hready, hq, serveConnection]

/-! ### What each step requires and does -/

/-- The moves, each with what it requires and the state it leads to. -/
inductive Step (s : Sys) : Event → Sys → Prop
  | send {i : ℕ} (hpc : s.pc = .send i) : Step s .write (s.sendOn i)
  | sendFin (hpc : s.pc = .sendFin) : Step s .write s.sendFin
  | resend {i : ℕ} (hpc : s.pc = .ack i) : Step s .timeout (s.resend i (s.tmp i))
  | resendFin (hpc : s.pc = .fin) : Step s .timeout (s.resend 0 s.finPkt)
  | readAck {i : ℕ} {a : Packet} {as : List Packet} (hpc : s.pc = .ack i)
      (hq : s.toClient i = a :: as) : Step s .read (s.readAck i a as)
  | readFin {a : Packet} {as : List Packet} (hpc : s.pc = .fin) (hq : s.toClient 0 = a :: as) :
      Step s .read (s.readFin as)
  | select (ready : List ℕ) : Step s .select (s.select ready)
  | drop {i : ℕ} {rest : List ℕ} {p : Packet} {ps : List Packet} (hready : s.ready = i :: rest)
      (hq : s.toServer i = p :: ps) : Step s (.serve true) (s.drop i rest ps)
  | accept {i : ℕ} {rest : List ℕ} {p : Packet} {ps : List Packet} (hready : s.ready = i :: rest)
      (hq : s.toServer i = p :: ps) : Step s (.serve false) (s.accept i rest p ps)

/-- **Inversion of a step**: every step is one of the moves above. -/
theorem step_cases {s t : Sys} {e : Event} (h : step s e = some t) : Step s e t := by
  cases e with
  | write =>
      simp only [step, clientWrite] at h
      split at h
      · obtain rfl := Option.some_inj.1 h
        exact .send ‹_›
      · obtain rfl := Option.some_inj.1 h
        exact .sendFin ‹_›
      · cases h
  | timeout =>
      simp only [step, clientTimeout] at h
      split at h
      · obtain rfl := Option.some_inj.1 h
        exact .resend ‹_›
      · obtain rfl := Option.some_inj.1 h
        exact .resendFin ‹_›
      · cases h
  | read =>
      simp only [step, clientRead] at h
      split at h
      · split at h
        · cases h
        · obtain rfl := Option.some_inj.1 h
          exact .readAck ‹_› ‹_›
      · split at h
        · cases h
        · obtain rfl := Option.some_inj.1 h
          exact .readFin ‹_› ‹_›
      · cases h
  | select =>
      simp only [step, serverSelect] at h
      split at h
      · obtain rfl := Option.some_inj.1 h
        exact .select _
      · cases h
  | serve drop =>
      simp only [step, serverServe] at h
      split at h
      · cases h
      · split at h
        · cases h
        · obtain rfl := Option.some_inj.1 h
          cases drop with
          | false => exact .accept ‹_› ‹_›
          | true => exact .drop ‹_› ‹_›

/-! ### Disciplines and observations -/

/-- The packet the client is waiting for to be acknowledged, with its channel. -/
def Sys.polled (s : Sys) : Option (ℕ × Packet) :=
  match s.pc with
  | .ack i => some (i, s.tmp i)
  | .fin => some (0, s.finPkt)
  | _ => none

/-- Every copy of the packet `x.2` sent on channel `x.1` so far was dropped by the server: none is
still on its way and none was accepted. -/
def AllCopiesDropped (s : Sys) (x : ℕ × Packet) : Prop :=
  x.2 ∉ s.toServer x.1 ∧ x ∉ s.accepted

instance (s : Sys) (x : ℕ × Packet) : Decidable (AllCopiesDropped s x) :=
  inferInstanceAs (Decidable (_ ∧ _))

/-- `poll` times out on a channel only when every copy of its outstanding packet was dropped. -/
def TimeoutAfterDrop (s : Sys) (e : Event) : Prop :=
  e = .timeout → ∀ x ∈ s.polled, AllCopiesDropped s x

instance (s : Sys) (e : Event) : Decidable (TimeoutAfterDrop s e) :=
  inferInstanceAs (Decidable (_ → _))

/-- The packet that the next call of `serve_connection` reads, with its channel. -/
def Sys.served (s : Sys) : Option (ℕ × Packet) :=
  s.ready.head?.bind fun i => (s.toServer i).head?.map fun p => (i, p)

/-- The server does not accept a second copy of a packet it has already accepted. -/
def AcceptsOnce (s : Sys) (e : Event) : Prop :=
  e = .serve false → ∀ x ∈ s.served, x ∉ s.accepted

instance (s : Sys) (e : Event) : Decidable (AcceptsOnce s e) :=
  inferInstanceAs (Decidable (_ → _))

/-- The data packets sent so far. -/
def dataSent (s : Sys) : List Packet :=
  (s.sent.map Prod.snd).filter fun p => p.header.isLast != 1

/-- The packets of the current round, with their channels. -/
def roundPackets (s : Sys) : List (ℕ × Packet) :=
  ((List.range numChannels).filter s.sender.waitsOn).map fun i => (i, s.tmp i)

/-- The step from `s` to `t` leaves the ACK-collecting loop to send the next round or the FIN. -/
def LeavesRound (s t : Sys) : Prop :=
  (∃ i, s.pc = .ack i) ∧ (t.pc = .send 0 ∨ t.pc = .sendFin)

end StopWait
