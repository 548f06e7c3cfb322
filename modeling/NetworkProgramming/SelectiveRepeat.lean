/-
**The selective-repeat file transfer: the client, the relays and the server.**

`FileTransfer-Selective-Repeat` runs the client of the stop-and-wait protocol over datagrams and
through relays.  One relay process reads the datagrams of the client on `NUM_CHANNELS` sockets, drops
some of them and passes the others on to the server; the acknowledgements of the server come back on
one more socket and are sent to the client from one of the relays, chosen at random.

A datagram that was sent is there until it is received, and any one that is there may be received
next.  One pass of the loop of the relays is one step: what it reads was there when `select` had
returned.  The client keeps its variables and its program counter from `StopWait`; what differs is
that every channel has an address of a relay, which `recvfrom` overwrites.

Main definitions:

* `SelectiveRepeat.Sys` — the whole state, with histories of what was sent, heard and forwarded;
* `SelectiveRepeat.forwardAck`, `SelectiveRepeat.forwardPacket` — the two halves of a pass of the
  relays;
* `SelectiveRepeat.Event`, `SelectiveRepeat.step` — the moves of the parties.

Main results:

* `SelectiveRepeat.step_cases` — what each move requires and what it does;
* `SelectiveRepeat.Traced.step` — every packet on its way was sent by the client, in all runs.
-/

import NetworkProgramming.StopWaitInvariant

set_option relaxedAutoImplicit false
set_option autoImplicit false

namespace SelectiveRepeat

open Runs
open StopWait (Packet Byte Pc Sender numChannels sendPacket finPacket zeroPacket afterSend noteAck
  nextAck serveConnection)

/-! ### The state -/

/-- The state of the client, the relays, the server and the datagrams on their way. -/
structure Sys where
  pc : Pc
  sender : Sender
  /-- The retransmission copies `tmp[i]`. -/
  tmp : ℕ → Packet
  /-- The FIN packet, once it is built. -/
  finPkt : Packet
  /-- The relay to which channel `i` sends, `relay_addr[i]`. -/
  relayAddr : ℕ → ℕ
  /-- The datagrams for relay `j`, each with the channel whose socket it came from. -/
  toRelay : ℕ → List (ℕ × Packet)
  /-- The channel whose address is in `cli_addr`. -/
  cliAddr : Option ℕ
  /-- `is_last` of the relays. -/
  isLast : UInt8
  toServer : List Packet
  /-- The contents of `output.txt`. -/
  out : List Byte
  fromServer : List Packet
  /-- The datagrams for the socket of channel `i`, each with the relay that it came from. -/
  toClient : ℕ → List (ℕ × Packet)
  /-- History: the packets that the client built, with their channels. -/
  sent : List (ℕ × Packet)
  /-- History: the channels of the datagrams that the relays received, dropped or not. -/
  heard : List ℕ
  /-- History: the acknowledgements that the relays sent, and to the address of which channel. -/
  forwarded : List (Packet × Option ℕ)
  /-- History: the acknowledgements that the client read, with the channel. -/
  acked : List (ℕ × Packet)

def Sys.init (file : List Byte) : Sys where
  pc := .send 0
  sender := Sender.init file
  tmp := fun _ => zeroPacket
  finPkt := zeroPacket
  relayAddr := id
  toRelay := fun _ => []
  cliAddr := none
  isLast := 0
  toServer := []
  out := []
  fromServer := []
  toClient := fun _ => []
  sent := []
  heard := []
  forwarded := []
  acked := []

/-! ### The client -/

/-- A queue with one more datagram for the socket `i`. -/
def enqueue (q : ℕ → List (ℕ × Packet)) (i : ℕ) (x : ℕ × Packet) : ℕ → List (ℕ × Packet) :=
  Function.update q i (q i ++ [x])

/-- The state after the packet `p` is sent on channel `i`. -/
@[simps] def Sys.transmit (s : Sys) (i : ℕ) (p : Packet) : Sys :=
  { s with toRelay := enqueue s.toRelay (s.relayAddr i) (i, p) }

/-- The state after iteration `i` of the sending loop. -/
@[simps!] def Sys.sendOn (s : Sys) (i : ℕ) : Sys :=
  { s.transmit i (sendPacket s.sender i).1 with
    pc := afterSend (sendPacket s.sender i).1 i
    sender := (sendPacket s.sender i).2
    tmp := Function.update s.tmp i (sendPacket s.sender i).1
    sent := s.sent ++ [(i, (sendPacket s.sender i).1)] }

/-- The state after the FIN packet is sent. -/
@[simps!] def Sys.sendFin (s : Sys) : Sys :=
  { s.transmit 0 (finPacket s.sender) with
    pc := .fin
    sender := { s.sender with seqNo := s.sender.seqNo + (finPacket s.sender).header.size }
    finPkt := finPacket s.sender
    sent := s.sent ++ [(0, finPacket s.sender)] }

/-- The state after the `n`-th datagram for channel `i`, the acknowledgement `x.2` from the relay
`x.1`, is received in the ACK-collecting loop. -/
@[simps] def Sys.readAck (s : Sys) (i n : ℕ) (x : ℕ × Packet) : Sys :=
  { s with
    pc := nextAck (noteAck s.sender x.2) (i + 1)
    sender := noteAck s.sender x.2
    toClient := Function.update s.toClient i ((s.toClient i).eraseIdx n)
    relayAddr := Function.update s.relayAddr i x.1
    acked := s.acked ++ [(i, x.2)] }

/-- The same for the answer to the FIN packet. -/
@[simps] def Sys.readFin (s : Sys) (n : ℕ) (x : ℕ × Packet) : Sys :=
  { s with
    pc := .done
    toClient := Function.update s.toClient 0 ((s.toClient 0).eraseIdx n)
    relayAddr := Function.update s.relayAddr 0 x.1
    acked := s.acked ++ [(0, x.2)] }

/-- The client sends the next packet. -/
def clientWrite (s : Sys) : Option Sys :=
  match s.pc with
  | .send i => some (s.sendOn i)
  | .sendFin => some s.sendFin
  | _ => none

/-- `poll` times out: the copy of the outstanding packet is sent again. -/
def clientTimeout (s : Sys) : Option Sys :=
  match s.pc with
  | .ack i => some (s.transmit i (s.tmp i))
  | .fin => some (s.transmit 0 s.finPkt)
  | _ => none

/-- `poll` succeeds: the `n`-th datagram for the channel is received. -/
def clientRead (s : Sys) (n : ℕ) : Option Sys :=
  match s.pc with
  | .ack i => ((s.toClient i)[n]?).map fun x => s.readAck i n x
  | .fin => ((s.toClient 0)[n]?).map fun x => s.readFin n x
  | _ => none

/-! ### The server and the relays -/

/-- The state after the server has received the `n`-th datagram, the packet `p`, and has acknowledged
it. -/
@[simps] def Sys.served (s : Sys) (n : ℕ) (p : Packet) : Sys :=
  { s with
    toServer := s.toServer.eraseIdx n
    out := (serveConnection s.out p false).out
    fromServer := s.fromServer ++ [p.ack] }

/-- The server receives a datagram.  It never stops. -/
def serve (s : Sys) (n : ℕ) : Option Sys := (s.toServer[n]?).map fun p => s.served n p

/-- An acknowledgement is sent to the address in `cli_addr`, if there is one. -/
def deliver (q : ℕ → List (ℕ × Packet)) (addr : Option ℕ) (x : ℕ × Packet) :
    ℕ → List (ℕ × Packet) :=
  match addr with
  | none => q
  | some i => enqueue q i x

/-- The state after the acknowledgement `a` of the server was the datagram `x.1` and is sent to the
client from the relay number `x.2 % NUM_CHANNELS`. -/
@[simps] def Sys.ackForwarded (s : Sys) (x : ℕ × ℕ) (a : Packet) : Sys :=
  { s with
    fromServer := s.fromServer.eraseIdx x.1
    isLast := a.header.isLast
    toClient := deliver s.toClient s.cliAddr (x.2 % numChannels, a.ack)
    forwarded := s.forwarded ++ [(a.ack, s.cliAddr)] }

/-- **The first half of a pass**: an acknowledgement of the server, and the value of `rand()`. -/
def forwardAck (s : Sys) (x : ℕ × ℕ) : Option Sys :=
  (s.fromServer[x.1]?).map fun a => s.ackForwarded x a

/-- The relay `relay` receives the `n`-th datagram that is there for it, and drops it or not. -/
structure Recv where
  relay : ℕ
  n : ℕ
  drop : Bool
  deriving DecidableEq

/-- The state after the relay has received the packet `x.2` of channel `x.1`. -/
@[simps] def Sys.packetHeard (s : Sys) (r : Recv) (x : ℕ × Packet) : Sys :=
  { s with
    toRelay := Function.update s.toRelay r.relay ((s.toRelay r.relay).eraseIdx r.n)
    cliAddr := some x.1
    heard := s.heard ++ [x.1]
    isLast := if r.drop then s.isLast else x.2.header.isLast
    toServer := if r.drop then s.toServer else s.toServer ++ [x.2] }

/-- **The second half of a pass**, for one relay. -/
def forwardPacket (s : Sys) (r : Recv) : Option Sys :=
  ((s.toRelay r.relay)[r.n]?).map fun x => s.packetHeard r x

/-- `select` can have returned these sockets: at least one, and the relays in their order. -/
def Selected (ack : Option (ℕ × ℕ)) (recvs : List Recv) : Prop :=
  (ack ≠ none ∨ recvs ≠ []) ∧ (recvs.map Recv.relay).Pairwise (· < ·) ∧
    ∀ r ∈ recvs, r.relay < numChannels

instance (ack : Option (ℕ × ℕ)) (recvs : List Recv) : Decidable (Selected ack recvs) :=
  inferInstanceAs (Decidable (_ ∧ _ ∧ _))

/-- **One pass of the loop of the relays.** -/
def pass (s : Sys) (ack : Option (ℕ × ℕ)) (recvs : List Recv) : Option Sys :=
  if s.isLast ≠ 1 ∧ Selected ack recvs then
    (match ack with
      | none => some s
      | some x => forwardAck s x).bind fun s => run forwardPacket s recvs
  else none

/-! ### The steps -/

/-- The moves of the parties. -/
inductive Event
  /-- The client sends the next packet of the round, or the FIN. -/
  | write
  /-- `poll` times out and the client retransmits. -/
  | timeout
  /-- `poll` succeeds and the client reads an acknowledgement. -/
  | read (n : ℕ)
  /-- The server receives a packet. -/
  | serve (n : ℕ)
  /-- The relays make a pass. -/
  | pass (ack : Option (ℕ × ℕ)) (recvs : List Recv)

/-- **One step of the system.** -/
def step (s : Sys) : Event → Option Sys
  | .write => clientWrite s
  | .timeout => clientTimeout s
  | .read n => clientRead s n
  | .serve n => serve s n
  | .pass ack recvs => pass s ack recvs

/-- The moves, each with what it requires and the state it leads to. -/
inductive Step (s : Sys) : Event → Sys → Prop
  | send {i : ℕ} (hpc : s.pc = .send i) : Step s .write (s.sendOn i)
  | sendFin (hpc : s.pc = .sendFin) : Step s .write s.sendFin
  | resend {i : ℕ} (hpc : s.pc = .ack i) : Step s .timeout (s.transmit i (s.tmp i))
  | resendFin (hpc : s.pc = .fin) : Step s .timeout (s.transmit 0 s.finPkt)
  | readAck {i n : ℕ} {x : ℕ × Packet} (hpc : s.pc = .ack i) (hx : (s.toClient i)[n]? = some x) :
      Step s (.read n) (s.readAck i n x)
  | readFin {n : ℕ} {x : ℕ × Packet} (hpc : s.pc = .fin) (hx : (s.toClient 0)[n]? = some x) :
      Step s (.read n) (s.readFin n x)
  | served {n : ℕ} {p : Packet} (hp : s.toServer[n]? = some p) : Step s (.serve n) (s.served n p)
  | pass {recvs : List Recv} {t : Sys} (hrunning : s.isLast ≠ 1) (hsel : Selected none recvs)
      (hrecvs : run forwardPacket s recvs = some t) : Step s (.pass none recvs) t
  | passAck {x : ℕ × ℕ} {a : Packet} {recvs : List Recv} {t : Sys} (hrunning : s.isLast ≠ 1)
      (hsel : Selected (some x) recvs) (ha : s.fromServer[x.1]? = some a)
      (hrecvs : run forwardPacket (s.ackForwarded x a) recvs = some t) :
      Step s (.pass (some x) recvs) t

/-- **Inversion of a step**: every step is one of the moves above. -/
theorem step_cases {s t : Sys} {e : Event} (h : step s e = some t) : Step s e t := by
  cases e with
  | write =>
      simp only [step, clientWrite] at h
      split at h
      · obtain rfl := Option.some_inj.1 h
        exact .send ‹_›
      · obtain rfl := Option.some_inj.1 h
        exact .sendFin ‹_›
      · cases h
  | timeout =>
      simp only [step, clientTimeout] at h
      split at h
      · obtain rfl := Option.some_inj.1 h
        exact .resend ‹_›
      · obtain rfl := Option.some_inj.1 h
        exact .resendFin ‹_›
      · cases h
  | read n =>
      simp only [step, clientRead] at h
      split at h
      · obtain ⟨x, hx, rfl⟩ := Option.map_eq_some_iff.1 h
        exact .readAck ‹_› hx
      · obtain ⟨x, hx, rfl⟩ := Option.map_eq_some_iff.1 h
        exact .readFin ‹_› hx
      · cases h
  | serve n =>
      obtain ⟨p, hp, rfl⟩ := Option.map_eq_some_iff.1 h
      exact .served hp
  | pass ack recvs =>
      simp only [step, SelectiveRepeat.pass] at h
      split_ifs at h with hc
      cases ack with
      | none => exact .pass hc.1 hc.2 h
      | some x =>
          obtain ⟨s₁, hs₁, hrun⟩ := Option.bind_eq_some_iff.1 h
          obtain ⟨a, ha, rfl⟩ := Option.map_eq_some_iff.1 hs₁
          exact .passAck hc.1 hc.2 ha hrun

/-- The second half of a pass moves packets to the server and does nothing else to the client or the
way back. -/
theorem run_forwardPacket {s t : Sys} {recvs : List Recv}
    (h : run forwardPacket s recvs = some t) :
    t.pc = s.pc ∧ t.toClient = s.toClient ∧ t.forwarded = s.forwarded ∧ t.sent = s.sent := by
  refine run_invariant (I := fun t => t.pc = s.pc ∧ t.toClient = s.toClient ∧
    t.forwarded = s.forwarded ∧ t.sent = s.sent) ?_ ⟨rfl, rfl, rfl, rfl⟩ h
  intro u r v hu hstep
  obtain ⟨x, -, rfl⟩ := Option.map_eq_some_iff.1 hstep
  exact hu

/-! ### Where the packets come from -/

/-- The copies that a retransmission may send were sent before. -/
def Copies (s : Sys) : Prop :=
  match s.pc with
  | .send i => i < numChannels ∧ ∀ l < i, (l, s.tmp l) ∈ s.sent
  | .ack i => s.sender.waitsOn i ∧ ∀ l, s.sender.waitsOn l → (l, s.tmp l) ∈ s.sent
  | .fin => (0, s.finPkt) ∈ s.sent
  | _ => True

/-- **Every packet on its way was sent by the client**, and the relays answer to whom they have heard
last. -/
structure Traced (s : Sys) : Prop where
  cliAddr : s.cliAddr = s.heard.getLast?
  channel : ∀ x ∈ s.sent, x.2.header.channelId.toNat = x.1
  lastFin : ∀ x ∈ s.sent, x.2.header.isLast = 1 → s.pc = .fin ∨ s.pc = .done
  copies : Copies s
  toRelay : ∀ j, ∀ x ∈ s.toRelay j, x ∈ s.sent
  toServer : ∀ p ∈ s.toServer, ∃ i, (i, p) ∈ s.sent
  fromServer : ∀ a ∈ s.fromServer, ∃ i p, (i, p) ∈ s.sent ∧ a = p.ack
  forwarded : ∀ f ∈ s.forwarded, ∃ i p, (i, p) ∈ s.sent ∧ f.1 = p.ack
  toClient : ∀ i, ∀ x ∈ s.toClient i, (x.2, some i) ∈ s.forwarded
  acked : ∀ x ∈ s.acked, (x.2, some x.1) ∈ s.forwarded

theorem traced_init (file : List Byte) : Traced (Sys.init file) := by
  refine ⟨rfl, ?_, ?_, ⟨by decide, ?_⟩, ?_, ?_, ?_, ?_, ?_, ?_⟩
  all_goals simp [Sys.init]

theorem mem_enqueue {q : ℕ → List (ℕ × Packet)} {i j : ℕ} {x y : ℕ × Packet}
    (h : x ∈ enqueue q i y j) : x ∈ q j ∨ (j = i ∧ x = y) := by
  rcases eq_or_ne j i with rfl | hne
  · simpa [enqueue] using h
  · rw [enqueue, Function.update_of_ne hne] at h
    exact Or.inl h

theorem mem_of_mem_update_eraseIdx {q : ℕ → List (ℕ × Packet)} {i j n : ℕ} {x : ℕ × Packet}
    (h : x ∈ Function.update q i ((q i).eraseIdx n) j) : x ∈ q j := by
  rcases eq_or_ne j i with rfl | hne
  · rw [Function.update_self] at h
    exact List.mem_of_mem_eraseIdx h
  · rwa [Function.update_of_ne hne] at h

namespace Traced

variable {s t : Sys}

/-- A packet that was sent may be sent again. -/
theorem transmit (h : Traced s) {i : ℕ} {p : Packet} (hp : (i, p) ∈ s.sent) :
    Traced (s.transmit i p) := by
  refine ⟨h.cliAddr, h.channel, h.lastFin, h.copies, ?_, h.toServer, h.fromServer, h.forwarded,
    h.toClient, h.acked⟩
  intro j x hx
  rcases mem_enqueue hx with hx | ⟨-, rfl⟩
  · exact h.toRelay j x hx
  · exact hp

/-- Before the end of its program the client has sent no FIN. -/
theorem isLast_ne (h : Traced s) (hfin : s.pc ≠ .fin) (hdone : s.pc ≠ .done) :
    ∀ x ∈ s.sent, x.2.header.isLast ≠ 1 := by
  intro x hx hlast
  rcases h.lastFin x hx hlast with hpc | hpc
  · exact hfin hpc
  · exact hdone hpc

/-- A round that ends with channel `k` waits on no later channel. -/
theorem le_of_waitsOn {c : Sender} {k l : ℕ}
    (hend : (sendPacket c k).1.header.size = 0 ∨ numChannels ≤ k + 1)
    (hl : (sendPacket c k).2.waitsOn l = true) : l ≤ k := by
  obtain ⟨hlt, hle⟩ := (StopWait.waitsOn_iff _ _).1 hl
  rcases hend with hz | hk
  · exact hle k (if_pos hz)
  · omega

/-- The copies of a round are kept while its packets are sent. -/
theorem copies_sendOn (h : Traced s) {k : ℕ} (hpc : s.pc = .send k) : Copies (s.sendOn k) := by
  have hold : ∀ l < k, (l, s.tmp l) ∈ s.sent := by
    have hc := h.copies
    rw [Copies, hpc] at hc
    exact hc.2
  have hnew : ∀ l ≤ k, (l, (s.sendOn k).tmp l) ∈ (s.sendOn k).sent := by
    intro l hl
    rcases Nat.lt_or_eq_of_le hl with hlt | rfl
    · rw [Sys.sendOn_tmp, Function.update_of_ne (Nat.ne_of_lt hlt)]
      exact List.mem_append_left _ (hold l hlt)
    · simp
  rcases StopWait.afterSend_cases (sendPacket s.sender k).1 k with ⟨hp, hk, -⟩ | ⟨hp, hend⟩
  · rw [Copies, Sys.sendOn_pc, hp]
    exact ⟨hk, fun l hl => hnew l (Nat.lt_succ_iff.1 hl)⟩
  · rw [Copies, Sys.sendOn_pc, hp]
    exact ⟨StopWait.SenderInv.waitsOn_zero _, fun l hl => hnew l (le_of_waitsOn hend hl)⟩

/-- What a packet of the history says holds when the history grows by one more packet. -/
theorem sent_append (h : Traced s) {i : ℕ} {p : Packet} {tmp : ℕ → Packet} {finPkt : Packet}
    {pc : Pc} {sender : Sender} (hchannel : p.header.channelId.toNat = i)
    (hlast : ∀ x ∈ s.sent ++ [(i, p)], x.2.header.isLast = 1 → pc = .fin ∨ pc = .done)
    (hcopies : Copies { s.transmit i p with pc, sender, tmp, finPkt, sent := s.sent ++ [(i, p)] }) :
    Traced { s.transmit i p with pc, sender, tmp, finPkt, sent := s.sent ++ [(i, p)] } := by
  refine ⟨h.cliAddr, ?_, hlast, hcopies, ?_, ?_, ?_, ?_, h.toClient, h.acked⟩
  · intro x hx
    rcases List.mem_append.1 hx with hx | hx
    · exact h.channel x hx
    · rw [List.mem_singleton.1 hx]
      exact hchannel
  · intro j x hx
    rcases mem_enqueue hx with hx | ⟨-, rfl⟩
    · exact List.mem_append_left _ (h.toRelay j x hx)
    · exact List.mem_append_right _ (List.mem_singleton_self _)
  · intro p hp
    obtain ⟨i, hi⟩ := h.toServer p hp
    exact ⟨i, List.mem_append_left _ hi⟩
  · intro a ha
    obtain ⟨i, p, hp, rfl⟩ := h.fromServer a ha
    exact ⟨i, p, List.mem_append_left _ hp, rfl⟩
  · intro f hf
    obtain ⟨i, p, hp, hack⟩ := h.forwarded f hf
    exact ⟨i, p, List.mem_append_left _ hp, hack⟩

theorem sendOn (h : Traced s) {k : ℕ} (hpc : s.pc = .send k) : Traced (s.sendOn k) := by
  have hk : k < numChannels := by
    have hc := h.copies
    rw [Copies, hpc] at hc
    exact hc.1
  have hchannel : (sendPacket s.sender k).1.header.channelId.toNat = k :=
    UInt8.toNat_ofNat_of_lt' (lt_trans hk (by decide))
  refine h.sent_append hchannel ?_ (h.copies_sendOn hpc)
  intro x hx hlast
  rcases List.mem_append.1 hx with hx | hx
  · exact absurd hlast (h.isLast_ne (by simp [hpc]) (by simp [hpc]) x hx)
  · rw [List.mem_singleton.1 hx] at hlast
    exact absurd hlast (by simp [StopWait.sendPacket_isLast])

theorem sendFin (h : Traced s) : Traced s.sendFin := by
  refine h.sent_append rfl (fun _ _ _ => Or.inl rfl) ?_
  exact List.mem_append_right _ (List.mem_singleton_self _)

/-- The client may retransmit the packet of the channel it waits on. -/
theorem resend (h : Traced s) {i : ℕ} (hpc : s.pc = .ack i) :
    Traced (s.transmit i (s.tmp i)) := by
  have hc := h.copies
  rw [Copies, hpc] at hc
  exact h.transmit (hc.2 i hc.1)

theorem resendFin (h : Traced s) (hpc : s.pc = .fin) : Traced (s.transmit 0 s.finPkt) := by
  have hc := h.copies
  rw [Copies, hpc] at hc
  exact h.transmit hc

/-- The copies of a round are kept until all its acknowledgements are read. -/
theorem copies_readAck (h : Traced s) {i : ℕ} (hpc : s.pc = .ack i) (n : ℕ) (x : ℕ × Packet) :
    Copies (s.readAck i n x) := by
  have hold : ∀ l, (noteAck s.sender x.2).waitsOn l = true → (l, s.tmp l) ∈ s.sent := by
    have hc := h.copies
    rw [Copies, hpc] at hc
    intro l hl
    exact hc.2 l (by rwa [StopWait.SenderInv.waitsOn_noteAck] at hl)
  rw [Copies, Sys.readAck_pc]
  rcases StopWait.SenderInv.nextAck_cases (noteAck s.sender x.2) (i + 1) with
    ⟨hp, hw⟩ | ⟨-, ⟨hp, -⟩ | ⟨hp, -⟩ | ⟨hp, -⟩⟩
  · rw [hp]
    exact ⟨hw, hold⟩
  · rw [hp]
    trivial
  · rw [hp]
    exact ⟨by decide, fun l hl => absurd hl (Nat.not_lt_zero l)⟩
  · rw [hp]
    exact ⟨StopWait.SenderInv.waitsOn_zero _, hold⟩

/-- An acknowledgement that the client reads was sent to the address of the channel. -/
theorem acked_append (h : Traced s) {i n : ℕ} {x : ℕ × Packet}
    (hx : (s.toClient i)[n]? = some x) :
    ∀ y ∈ s.acked ++ [(i, x.2)], (y.2, some y.1) ∈ s.forwarded := by
  intro y hy
  rcases List.mem_append.1 hy with hy | hy
  · exact h.acked y hy
  · rw [List.mem_singleton.1 hy]
    exact h.toClient i x (List.mem_of_getElem? hx)

theorem readAck (h : Traced s) {i n : ℕ} {x : ℕ × Packet} (hpc : s.pc = .ack i)
    (hx : (s.toClient i)[n]? = some x) : Traced (s.readAck i n x) := by
  refine ⟨h.cliAddr, h.channel, ?_, h.copies_readAck hpc n x, h.toRelay, h.toServer,
    h.fromServer, h.forwarded, ?_, h.acked_append hx⟩
  · intro y hy hlast
    exact absurd hlast (h.isLast_ne (by simp [hpc]) (by simp [hpc]) y hy)
  · intro j y hy
    exact h.toClient j y (mem_of_mem_update_eraseIdx hy)

theorem readFin (h : Traced s) {n : ℕ} {x : ℕ × Packet} (hx : (s.toClient 0)[n]? = some x) :
    Traced (s.readFin n x) := by
  refine ⟨h.cliAddr, h.channel, fun _ _ _ => Or.inr rfl, trivial, h.toRelay, h.toServer,
    h.fromServer, h.forwarded, ?_, h.acked_append hx⟩
  intro j y hy
  exact h.toClient j y (mem_of_mem_update_eraseIdx hy)

theorem served (h : Traced s) {n : ℕ} {p : Packet} (hp : s.toServer[n]? = some p) :
    Traced (s.served n p) := by
  refine ⟨h.cliAddr, h.channel, h.lastFin, h.copies, h.toRelay, ?_, ?_, h.forwarded, h.toClient,
    h.acked⟩
  · intro q hq
    exact h.toServer q (List.mem_of_mem_eraseIdx hq)
  · intro a ha
    rcases List.mem_append.1 ha with ha | ha
    · exact h.fromServer a ha
    · obtain ⟨i, hi⟩ := h.toServer p (List.mem_of_getElem? hp)
      exact ⟨i, p, hi, List.mem_singleton.1 ha⟩

theorem ackForwarded (h : Traced s) {x : ℕ × ℕ} {a : Packet} (ha : s.fromServer[x.1]? = some a) :
    Traced (s.ackForwarded x a) := by
  refine ⟨h.cliAddr, h.channel, h.lastFin, h.copies, h.toRelay, h.toServer, ?_, ?_, ?_, ?_⟩
  · intro b hb
    exact h.fromServer b (List.mem_of_mem_eraseIdx hb)
  · intro f hf
    rcases List.mem_append.1 hf with hf | hf
    · exact h.forwarded f hf
    · obtain ⟨i, p, hp, rfl⟩ := h.fromServer a (List.mem_of_getElem? ha)
      exact ⟨i, p, hp, by rw [List.mem_singleton.1 hf]; rfl⟩
  · intro i y hy
    rw [Sys.ackForwarded_forwarded, List.mem_append, List.mem_singleton]
    cases haddr : s.cliAddr with
    | none =>
        rw [Sys.ackForwarded_toClient, haddr] at hy
        exact Or.inl (h.toClient i y hy)
    | some j =>
        rw [Sys.ackForwarded_toClient, haddr] at hy
        rcases mem_enqueue hy with hy | ⟨rfl, rfl⟩
        · exact Or.inl (h.toClient i y hy)
        · exact Or.inr rfl
  · intro y hy
    exact List.mem_append_left _ (h.acked y hy)

theorem packetHeard (h : Traced s) {r : Recv} {x : ℕ × Packet}
    (hx : (s.toRelay r.relay)[r.n]? = some x) : Traced (s.packetHeard r x) := by
  refine ⟨by simp, h.channel, h.lastFin, h.copies, ?_, ?_, h.fromServer, h.forwarded, h.toClient,
    h.acked⟩
  · intro j y hy
    exact h.toRelay j y (mem_of_mem_update_eraseIdx hy)
  · intro p hp
    rw [Sys.packetHeard_toServer] at hp
    split_ifs at hp with hdrop
    · exact h.toServer p hp
    · rcases List.mem_append.1 hp with hp | hp
      · exact h.toServer p hp
      · rw [List.mem_singleton.1 hp]
        exact ⟨x.1, h.toRelay _ x (List.mem_of_getElem? hx)⟩

theorem forwardPackets (h : Traced s) {recvs : List Recv}
    (hrun : run forwardPacket s recvs = some t) : Traced t := by
  refine run_invariant ?_ h hrun
  intro s r t hs hstep
  obtain ⟨x, hx, rfl⟩ := Option.map_eq_some_iff.1 hstep
  exact hs.packetHeard hx

/-- **The step lemma**: every move keeps the packets on their way traced. -/
theorem step {e : Event} (h : Traced s) (ht : step s e = some t) : Traced t := by
  cases step_cases ht with
  | send hpc => exact h.sendOn hpc
  | sendFin hpc => exact h.sendFin
  | resend hpc => exact h.resend hpc
  | resendFin hpc => exact h.resendFin hpc
  | readAck hpc hx => exact h.readAck hpc hx
  | readFin hpc hx => exact h.readFin hx
  | served hp => exact h.served hp
  | pass _ _ hrecvs => exact h.forwardPackets hrecvs
  | passAck _ _ ha hrecvs => exact (h.ackForwarded ha).forwardPackets hrecvs

end Traced

end SelectiveRepeat
