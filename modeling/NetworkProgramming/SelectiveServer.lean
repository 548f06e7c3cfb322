/-
**The server of the selective-repeat transfer and its end.**

The loop of `main` runs while `is_last` is not `1`.  The block that handles a datagram declares an
`is_last` of its own, and it is this one that takes the flag of the packet.  In the server of the
stop-and-wait transfer the flag comes out of `serve_connection`, and `main` stores it in the variable
of the loop.

A loop that has read all packets and is not over waits in `select`.

Main definitions:

* `SelectiveRepeat.Server`, `SelectiveRepeat.Server.receive` — the variables of `main`, and what is
  done for a datagram;
* `SelectiveRepeat.serverMain`, `SelectiveRepeat.channelMain` — the loops of the two servers;
* `SelectiveRepeat.StopsAtFin` — the loop ends with the first FIN packet.

Main results:

* `SelectiveRepeat.channelMain_stopsAtFin` — the server of the stop-and-wait transfer stops;
* `SelectiveRepeat.not_stopsAtFin` — **the server of the selective-repeat transfer never stops**.
-/

import NetworkProgramming.SelectiveRepeat

set_option relaxedAutoImplicit false
set_option autoImplicit false

namespace SelectiveRepeat

open Runs SparseFile
open StopWait (Packet Byte)

/-! ### The two servers -/

/-- A line of the standard output. -/
inductive Line
  | received (seqNo size channel : ℕ)
  | receivedFin (seqNo channel : ℕ)
  | sentAck (seqNo channel : ℕ)
  | sentFinAck (seqNo channel : ℕ)
  deriving DecidableEq, Repr

/-- The state of a server at the head of the loop. -/
structure Server where
  /-- The `is_last` of `main`. -/
  isLast : ℤ
  /-- The contents of `output.txt`. -/
  out : List Byte
  /-- The acknowledgements sent, oldest first. -/
  acks : List Packet
  log : List Line
  deriving DecidableEq

def Server.init : Server := ⟨0, [], [], []⟩

/-- The condition of the loop. -/
def Server.running (s : Server) : Bool := s.isLast ≠ 1

/-- **What the selective-repeat server does for a datagram.**  The `is_last` declared here hides that
of `main` and ends with the block. -/
def Server.receive (s : Server) (recv : Packet) : Server :=
  let seqNo := recv.header.seqNo
  let channel := recv.header.channelId.toNat
  let isLast := recv.header.isLast
  { s with
    out := if recv.header.isLast ≠ 1 then writeAt s.out seqNo recv.payload else s.out
    acks := s.acks ++ [recv.ack]
    log := s.log ++
      if isLast = 0 then [.received seqNo recv.header.size channel, .sentAck seqNo channel]
      else [.receivedFin seqNo channel, .sentFinAck seqNo channel] }

/-- What the stop-and-wait server does for a channel that is ready, when it drops nothing.  The line
for a FIN packet has the size where it should have the channel. -/
def Server.serveChannel (s : Server) (x : ℕ × Packet) : Server :=
  let seqNo := x.2.header.seqNo
  let served := StopWait.serveConnection s.out x.2 false
  { isLast := if served.isLast = 1 then 1 else s.isLast
    out := served.out
    acks := s.acks ++ served.ack.toList
    log := s.log ++
      if x.2.header.isLast = 0 then [.received seqNo x.2.header.size x.1, .sentAck seqNo x.1]
      else [.receivedFin seqNo x.2.header.size, .sentFinAck seqNo x.1] }

/-- A pass of the stop-and-wait server over the channels that are ready. -/
def Server.pass (s : Server) (ready : List (ℕ × Packet)) : Server := ready.foldl Server.serveChannel s

/-- Where the `main` of a server is when it has got some packets. -/
structure Outcome where
  server : Server
  /-- The packets that it has not read. -/
  left : List Packet
  /-- The loop is over and `output.txt` is closed. -/
  closed : Bool
  deriving DecidableEq

/-- **The `main` of the selective-repeat server.** -/
def serverMain (ps : List Packet) : Outcome :=
  let r := readWhile Server.running Server.receive Server.init ps
  ⟨r.1, r.2, !r.1.running⟩

/-- The `main` of the stop-and-wait server, with the packets that are ready for each pass. -/
def channelMain (passes : List (List (ℕ × Packet))) : Outcome :=
  let r := readWhile Server.running Server.pass Server.init passes
  ⟨r.1, r.2.flatten.map Prod.snd, !r.1.running⟩

/-- The passes when the packets come one at a time, each on its channel. -/
def oneByOne (ps : List Packet) : List (List (ℕ × Packet)) :=
  ps.map fun p => [(p.header.channelId.toNat, p)]

/-- **The loop ends with the first FIN packet**: the packets before it are written and acknowledged,
the FIN packet is acknowledged, the file is closed, and what comes behind is not read. -/
def StopsAtFin (ps : List Packet) (o : Outcome) : Prop :=
  ∃ (front : List Packet) (fin : Packet) (rest : List Packet),
    ps = front ++ fin :: rest ∧ (∀ p ∈ front, p.header.isLast ≠ 1) ∧ fin.header.isLast = 1 ∧
      o.server.acks = (front ++ [fin]).map Packet.ack ∧
      o.server.out = writeAll (front.map Packet.write) ∧ o.left = rest ∧ o.closed = true

/-! ### What a server does for its packets -/

/-- The server of the model of the whole transfer does the same for a datagram. -/
theorem receive_served (v : Server) (s : Sys) (n : ℕ) (p : Packet) (hout : v.out = s.out)
    (hacks : v.acks = s.fromServer) :
    (v.receive p).out = (s.served n p).out ∧ (v.receive p).acks = (s.served n p).fromServer := by
  simp [Server.receive, StopWait.serveConnection, hout, hacks]

theorem receive_running (s : Server) (p : Packet) (hs : s.running = true) :
    (s.receive p).running = true := hs

theorem foldl_receive_acks (ps : List Packet) (s : Server) :
    (ps.foldl Server.receive s).acks = s.acks ++ ps.map Packet.ack := by
  induction ps generalizing s with
  | nil => simp
  | cons p ps ih => simp [ih, Server.receive]

theorem serveChannel_isLast (s : Server) (x : ℕ × Packet) :
    (s.serveChannel x).isLast = if x.2.header.isLast = 1 then 1 else s.isLast := rfl

/-- A FIN packet in a pass sets the variable of the loop. -/
theorem pass_isLast_eq (s : Server) (ready : List (ℕ × Packet)) :
    (s.pass ready).isLast = if ∃ x ∈ ready, x.2.header.isLast = 1 then 1 else s.isLast := by
  induction ready generalizing s with
  | nil => simp [Server.pass]
  | cons x ready ih =>
      have hcons : s.pass (x :: ready) = (s.serveChannel x).pass ready := rfl
      rw [hcons, ih, serveChannel_isLast]
      by_cases hready : ∃ y ∈ ready, y.2.header.isLast = 1
      · simp [hready]
      · by_cases hx : x.2.header.isLast = 1 <;> simp [hready, hx]

/-- A pass keeps the loop going exactly if there is no FIN packet in it. -/
theorem pass_running (s : Server) (ready : List (ℕ × Packet)) (hs : s.running = true) :
    (s.pass ready).running = true ↔ ¬ ∃ x ∈ ready, x.2.header.isLast = 1 := by
  have hs' : s.isLast ≠ 1 := by simpa [Server.running] using hs
  simp [Server.running, pass_isLast_eq, hs']

theorem foldl_pass_acks (ps : List Packet) (s : Server) :
    ((oneByOne ps).foldl Server.pass s).acks = s.acks ++ ps.map Packet.ack := by
  induction ps generalizing s with
  | nil => simp [oneByOne]
  | cons p ps ih =>
      rw [oneByOne, List.map_cons, List.foldl_cons, ← oneByOne, ih]
      simp [Server.pass, Server.serveChannel, StopWait.serveConnection]

/-- Packets that are not FIN packets are written at their sequence numbers. -/
theorem foldl_pass_out {ps : List Packet} (hps : ∀ p ∈ ps, p.header.isLast ≠ 1) (s : Server) :
    ((oneByOne ps).foldl Server.pass s).out = writeFrom s.out (ps.map Packet.write) := by
  induction ps generalizing s with
  | nil => rfl
  | cons p ps ih =>
      have hp := List.forall_mem_cons.1 hps
      have hout : (s.pass [(p.header.channelId.toNat, p)]).out =
          writeAt s.out p.write.1 p.write.2 := by
        simp [Server.pass, Server.serveChannel, StopWait.serveConnection, hp.1, Packet.write]
      rw [oneByOne, List.map_cons, List.foldl_cons, ← oneByOne, ih hp.2, hout]
      rfl

theorem flatten_oneByOne (ps : List Packet) : (oneByOne ps).flatten.map Prod.snd = ps := by
  induction ps with
  | nil => rfl
  | cons p ps ih =>
      rw [oneByOne, List.map_cons, ← oneByOne, List.flatten_cons, List.map_append, ih]
      rfl

/-! ### The end of the loop -/

/-- A list in which something has a property, up to the first such entry. -/
theorem exists_first_fin {ps : List Packet} (h : ∃ p ∈ ps, p.header.isLast = 1) :
    ∃ front fin rest, ps = front ++ fin :: rest ∧ (∀ p ∈ front, p.header.isLast ≠ 1) ∧
      fin.header.isLast = 1 := by
  induction ps with
  | nil => simp at h
  | cons p ps ih =>
      by_cases hp : p.header.isLast = 1
      · exact ⟨[], p, ps, rfl, by simp, hp⟩
      · have htail : ∃ q ∈ ps, q.header.isLast = 1 := by simpa [hp] using h
        obtain ⟨front, fin, rest, rfl, hfront, hfin⟩ := ih htail
        exact ⟨p :: front, fin, rest, rfl, List.forall_mem_cons.2 ⟨hp, hfront⟩, hfin⟩

/-- **The server of the stop-and-wait transfer stops at the FIN.** -/
theorem channelMain_stopsAtFin {ps : List Packet} (h : ∃ p ∈ ps, p.header.isLast = 1) :
    StopsAtFin ps (channelMain (oneByOne ps)) := by
  obtain ⟨front, fin, rest, rfl, hfront, hfin⟩ := exists_first_fin h
  have hpasses : oneByOne (front ++ fin :: rest) =
      oneByOne front ++ [(fin.header.channelId.toNat, fin)] :: oneByOne rest := by
    simp [oneByOne]
  have hno : ∀ ready ∈ oneByOne front, ¬ ∃ x ∈ ready, x.2.header.isLast = 1 := by
    intro ready hready
    obtain ⟨p, hp, rfl⟩ := List.mem_map.1 hready
    simpa using hfront p hp
  obtain ⟨hread, hend⟩ := readWhile_of_first (q := fun ready => ∃ x ∈ ready, x.2.header.isLast = 1)
    (fun s ready => pass_running s ready) (s := Server.init) rfl hno
    (a := [(fin.header.channelId.toNat, fin)]) (by simpa using hfin) (oneByOne rest)
  have hfold :
      oneByOne front ++ [[(fin.header.channelId.toNat, fin)]] = oneByOne (front ++ [fin]) := by
    simp [oneByOne]
  rw [hfold] at hread hend
  refine ⟨front, fin, rest, rfl, hfront, hfin, ?_, ?_, ?_, ?_⟩
  · rw [channelMain, hpasses, hread]
    exact foldl_pass_acks _ _
  · have hlast : ∀ s : Server, (s.pass [(fin.header.channelId.toNat, fin)]).out = s.out := by
      intro s
      simp [Server.pass, Server.serveChannel, StopWait.serveConnection, hfin]
    rw [channelMain, hpasses, hread, ← hfold, List.foldl_append, List.foldl_cons, List.foldl_nil,
      hlast, foldl_pass_out hfront]
    rfl
  · rw [channelMain, hpasses, hread]
    exact flatten_oneByOne rest
  · rw [channelMain, hpasses, hread, hend]
    rfl

/-- Whatever it receives, the server of the selective-repeat transfer reads on. -/
theorem serverMain_eq (ps : List Packet) :
    serverMain ps = ⟨ps.foldl Server.receive Server.init, [], false⟩ := by
  obtain ⟨hread, hgo⟩ :=
    readWhile_of_forall (fun s p => receive_running s p) (s := Server.init) rfl ps
  rw [serverMain, hread, hgo]
  rfl

/-- **The server of the selective-repeat transfer never stops.**  It acknowledges the FIN packet and
all packets behind it and never closes the file, where the server of the stop-and-wait transfer, which
gets the same packets one at a time, stops. -/
theorem not_stopsAtFin (ps : List Packet) (h : ∃ p ∈ ps, p.header.isLast = 1) :
    ¬ StopsAtFin ps (serverMain ps) ∧ (serverMain ps).closed = false ∧ (serverMain ps).left = [] ∧
      (serverMain ps).server.acks = ps.map Packet.ack ∧
      StopsAtFin ps (channelMain (oneByOne ps)) := by
  rw [serverMain_eq]
  refine ⟨?_, rfl, rfl, foldl_receive_acks ps Server.init, channelMain_stopsAtFin h⟩
  rintro ⟨front, fin, rest, -, -, -, -, -, -, hclosed⟩
  cases hclosed

/-- The packets of an empty file. -/
def emptyTransfer : List Packet := StopWait.dataPackets [] ++ [StopWait.finPacket (.init [])]

/-- The server waits for more after the packets of an empty file. -/
theorem not_stopsAtFin_emptyTransfer :
    (∃ p ∈ emptyTransfer, p.header.isLast = 1) ∧
      ¬ StopsAtFin emptyTransfer (serverMain emptyTransfer) := by
  refine ⟨by decide, ?_⟩
  rintro ⟨front, fin, rest, -, -, -, -, -, -, hclosed⟩
  exact absurd hclosed (by decide)

/-- The same packets end the loop of the stop-and-wait server. -/
theorem channelMain_emptyTransfer :
    (serverMain emptyTransfer).closed = false ∧
      StopsAtFin emptyTransfer (channelMain (oneByOne emptyTransfer)) := by
  have hstops := not_stopsAtFin emptyTransfer (by decide)
  exact ⟨hstops.2.1, hstops.2.2.2.2⟩

end SelectiveRepeat
