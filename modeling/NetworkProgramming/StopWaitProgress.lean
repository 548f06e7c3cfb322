/-
**Progress of the N-channel stop-and-wait protocol.**

`StopWaitDelivery` says what a transfer has done when it is over.  Here it is shown that it gets
over.  Two facts do this.

* **No dead end.**  As long as `poll` times out only after every copy of its packet was dropped, the
  transfer can be brought to its end from every state that it can be in, whatever was dropped before;
  the server in particular never waits for a channel that has nothing to read, and has not stopped
  before the FIN.
* **Only timeouts keep it going.**  Every packet is written, selected, served and acknowledged, and
  each of these happens once for a packet or a retransmission.  So the number of steps of any run,
  whatever the timeouts, is bounded by the number of packets and of timeouts.

Main definitions:

* `StopWait.PassInv`, `StopWait.Stopped` — what the server waits for, and when it has stopped;
* `StopWait.ProtocolInv` — all that holds in the runs whose timeouts fire only after drops;
* `StopWait.onWire`, `StopWait.potential` — the packets on the wires, and the steps they still cause.

Main results:

* `StopWait.ProtocolInv.exists_acked` — the acknowledgement that the client polls for can be brought
  about;
* `StopWait.transfer_can_finish` — **no dead end**;
* `StopWait.steps_bounded_by_timeouts` — **only timeouts keep the transfer going**.
-/

import NetworkProgramming.Progress
import NetworkProgramming.StopWaitDelivery

set_option relaxedAutoImplicit false
set_option autoImplicit false

namespace StopWait

open Runs SparseFile

/-! ### The server -/

/-- The channels that `select` reports. -/
def Sys.readable (s : Sys) : List ℕ :=
  (List.range numChannels).filter fun i => !(s.toServer i).isEmpty

theorem mem_readable {s : Sys} {i : ℕ} :
    i ∈ s.readable ↔ i < numChannels ∧ s.toServer i ≠ [] := by
  simp [Sys.readable]

theorem select_eq_some {s t : Sys} :
    StopWait.step s .select = some t ↔
      (s.ready = [] ∧ s.isLast = false ∧ s.readable ≠ []) ∧ t = s.select s.readable := by
  change (if s.ready = [] ∧ s.isLast = false ∧ s.readable ≠ [] then some (s.select s.readable)
    else none) = some t ↔ _
  constructor
  · intro h
    split at h
    · exact ⟨‹_›, (Option.some_inj.1 h).symm⟩
    · cases h
  · rintro ⟨hc, rfl⟩
    exact if_pos hc

/-- Every channel that the pass of the server has still to serve has something to read. -/
structure PassInv (s : Sys) : Prop where
  nodup : s.ready.Nodup
  waiting : ∀ i ∈ s.ready, i < numChannels ∧ s.toServer i ≠ []

theorem passInv_init (file : List Byte) : PassInv (Sys.init file) where
  nodup := List.nodup_nil
  waiting _ hi := absurd hi List.not_mem_nil

namespace PassInv

variable {s : Sys}

/-- Another packet on a channel does not change what the server has to read. -/
theorem push (h : PassInv s) {t : Sys} {i : ℕ} {p : Packet} (hready : t.ready = s.ready)
    (hqueue : t.toServer = push s.toServer i p) : PassInv t := by
  refine ⟨hready ▸ h.nodup, ?_⟩
  intro j hj
  rw [hready] at hj
  obtain ⟨hlt, hne⟩ := h.waiting j hj
  refine ⟨hlt, ?_⟩
  rw [hqueue]
  rcases eq_or_ne j i with rfl | hji
  · simp
  · rwa [push_of_ne _ p hji]

/-- The rest of the pass when one channel was served. -/
theorem pop (h : PassInv s) {t : Sys} {i : ℕ} {ps : List Packet} (hready : s.ready = i :: t.ready)
    (hqueue : t.toServer = Function.update s.toServer i ps) : PassInv t := by
  have hnodup := h.nodup
  rw [hready, List.nodup_cons] at hnodup
  refine ⟨hnodup.2, ?_⟩
  intro j hj
  have hne : j ≠ i := fun hji => hnodup.1 (hji ▸ hj)
  rw [hqueue, Function.update_of_ne hne]
  exact h.waiting j (hready ▸ List.mem_cons_of_mem i hj)

theorem step (h : PassInv s) {e : Event} {t : Sys} (ht : StopWait.step s e = some t) :
    PassInv t := by
  cases step_cases ht with
  | send hpc => exact h.push rfl rfl
  | sendFin hpc => exact h.push rfl rfl
  | resend hpc => exact h.push rfl rfl
  | resendFin hpc => exact h.push rfl rfl
  | readAck hpc hcons => exact ⟨h.nodup, h.waiting⟩
  | readFin hpc hcons => exact ⟨h.nodup, h.waiting⟩
  | select ready =>
      obtain ⟨-, heq⟩ := select_eq_some.1 ht
      rw [heq]
      exact ⟨List.nodup_range.filter _, fun i hi => mem_readable.1 hi⟩
  | drop hready hcons => exact h.pop hready rfl
  | accept hready hcons => exact h.pop hready rfl

theorem length_ready_le (h : PassInv s) : s.ready.length ≤ numChannels := by
  have hsub : s.ready ⊆ List.range numChannels :=
    fun j hj => List.mem_range.2 (h.waiting j hj).1
  have hle := (h.nodup.subperm hsub).length_le
  rwa [List.length_range] at hle

end PassInv

/-- The server has stopped only when it has accepted the FIN packet. -/
def Stopped (s : Sys) : Prop :=
  s.isLast = true → (0, s.finPkt) ∈ s.accepted ∧ (s.pc = .fin ∨ s.pc = .done)

namespace Stopped

variable {file : List Byte} {s : Sys}

theorem running (h : Stopped s) (hfin : s.pc ≠ .fin) (hdone : s.pc ≠ .done) : s.isLast = false := by
  by_contra hlast
  rcases (h (by simpa using hlast)).2 with hpc | hpc
  · exact hfin hpc
  · exact hdone hpc

/-- The FIN packet that the server accepts is that of the client. -/
theorem accept (h : Stopped s) (hs : SenderInv file s) (hw : WireInv s) (hq : QueueInv s)
    {i : ℕ} {rest : List ℕ} {p : Packet} {ps : List Packet} (hcons : s.toServer i = p :: ps) :
    Stopped (s.accept i rest p ps) := by
  intro hlast
  rcases Bool.or_eq_true_iff.1 hlast with hold | hnew
  · obtain ⟨hacc, hpc⟩ := h hold
    exact ⟨List.mem_append_left _ hacc, hpc⟩
  · have hsent : (i, p) ∈ s.sent := hw.wire_sent i p (by rw [hcons]; exact List.mem_cons_self)
    have hpc := hs.last_fin (i, p) hsent (by simpa using hnew)
    obtain ⟨haw, hout⟩ := (hw.settled _ hsent).resolve_left (hq.of_cons hcons).1
    refine ⟨?_, hpc⟩
    rcases hpc with hpc | hpc
    · simp only [Sys.awaits, Sys.outstanding, hpc] at haw hout
      simp [haw, hout]
    · simp [Sys.awaits, hpc] at haw

theorem step (h : Stopped s) (hs : SenderInv file s) (hw : WireInv s) (hq : QueueInv s) {e : Event}
    {t : Sys} (ht : StopWait.step s e = some t) : Stopped t := by
  cases step_cases ht with
  | send hpc =>
      intro hlast
      rw [Sys.sendOn_isLast, h.running (by simp [hpc]) (by simp [hpc])] at hlast
      cases hlast
  | sendFin hpc =>
      intro hlast
      rw [Sys.sendFin_isLast, h.running (by simp [hpc]) (by simp [hpc])] at hlast
      cases hlast
  | resend hpc => exact h
  | resendFin hpc => exact h
  | readAck hpc hcons =>
      intro hlast
      rw [Sys.readAck_isLast, h.running (by simp [hpc]) (by simp [hpc])] at hlast
      cases hlast
  | readFin hpc hcons => exact fun hlast => ⟨(h hlast).1, Or.inr rfl⟩
  | select ready => exact h
  | drop hready hcons => exact h
  | accept hready hcons => exact h.accept hs hw hq hcons

end Stopped

/-- All that holds in the runs in which timeouts fire only after drops. -/
structure ProtocolInv (file : List Byte) (s : Sys) : Prop where
  sender : SenderInv file s
  wire : WireInv s
  queue : QueueInv s
  pass : PassInv s
  stopped : Stopped s

theorem protocolInv_init (file : List Byte) : ProtocolInv file (Sys.init file) :=
  ⟨senderInv_init file, wireInv_init file, queueInv_init file, passInv_init file,
    fun h => nomatch h⟩

theorem ProtocolInv.step {file : List Byte} {s t : Sys} {e : Event} (h : ProtocolInv file s)
    (htime : TimeoutAfterDrop s e) (ht : StopWait.step s e = some t) : ProtocolInv file t where
  sender := h.sender.step ht
  wire := h.wire.step h.sender (h.queue.acceptsOnce e) ht
  queue := h.queue.step h.sender h.wire htime ht
  pass := h.pass.step ht
  stopped := h.stopped.step h.sender h.wire h.queue ht

/-! ### The acknowledgement that the client polls for -/

/-- The channel that the client polls. -/
def Sys.polls (s : Sys) (i : ℕ) : Prop := s.pc = .ack i ∨ (s.pc = .fin ∧ i = 0)

/-- The variables of the client are the same. -/
def SameClient (s t : Sys) : Prop :=
  t.pc = s.pc ∧ t.sender = s.sender ∧ t.tmp = s.tmp ∧ t.finPkt = s.finPkt

namespace ProtocolInv

variable {file : List Byte} {s : Sys} {i : ℕ}

theorem polls_awaits (h : ProtocolInv file s) (hi : s.polls i) :
    s.awaits i ∧ i < numChannels ∧ s.polled = some (i, s.outstanding i) := by
  rcases hi with hpc | ⟨hpc, rfl⟩
  · have hw := (h.sender.at_ack i hpc).1
    simp only [Sys.awaits, Sys.polled, Sys.outstanding, hpc]
    exact ⟨⟨le_rfl, hw⟩, ((waitsOn_iff _ _).1 hw).1, trivial⟩
  · simp only [Sys.awaits, Sys.polled, Sys.outstanding, hpc]
    exact ⟨trivial, by decide, trivial⟩

/-- While the client polls in vain its packet was not accepted, and the server has not stopped. -/
theorem not_accepted (h : ProtocolInv file s) (hi : s.polls i) (hnil : s.toClient i = []) :
    (i, s.outstanding i) ∉ s.accepted ∧ s.isLast = false := by
  obtain ⟨haw, -, -⟩ := h.polls_awaits hi
  have hacc : (i, s.outstanding i) ∉ s.accepted := by
    rcases h.wire.acks i with ⟨-, -, hq⟩ | ⟨hn, -⟩
    · rw [hnil] at hq
      cases hq
    · exact fun hacc => hn ⟨haw, hacc⟩
  refine ⟨hacc, ?_⟩
  rcases hi with hpc | ⟨hpc, rfl⟩
  · exact h.stopped.running (by simp [hpc]) (by simp [hpc])
  · by_contra hlast
    simp only [Sys.outstanding, hpc] at hacc
    exact hacc (h.stopped (by simpa using hlast)).1

/-- How far the packet of channel `i` is from being accepted. -/
def serveRank (i : ℕ) (s : Sys) : ℕ :=
  if i ∈ s.ready then s.ready.length else if s.toServer i = [] then 5 + s.ready.length
  else 4 + s.ready.length

/-- The server serves the next channel of its pass and accepts what it reads. -/
theorem exists_serve (h : ProtocolInv file s) {j : ℕ} {rest : List ℕ} (hready : s.ready = j :: rest) :
    ∃ p ps, s.toServer j = p :: ps ∧
      StopWait.step s (.serve false) = some (s.accept j rest p ps) := by
  have hne := (h.pass.waiting j (hready ▸ List.mem_cons_self)).2
  obtain ⟨p, ps, hcons⟩ := List.exists_cons_of_ne_nil hne
  refine ⟨p, ps, hcons, ?_⟩
  simp [StopWait.step, serverServe, hready, hcons]

/-- **The acknowledgement that the client polls for** can be brought about without a step of the
client other than retransmissions after drops. -/
theorem exists_acked (h : ProtocolInv file s) (hi : s.polls i) :
    ∃ t, Reaches StopWait.step TimeoutAfterDrop s t ∧
      (ProtocolInv file t ∧ SameClient s t) ∧ t.toClient i ≠ [] := by
  refine reaches_of_rank (I := fun t => ProtocolInv file t ∧ SameClient s t)
    (G := fun t => t.toClient i ≠ []) (serveRank i) ?_ ⟨h, rfl, rfl, rfl, rfl⟩
  rintro u ⟨hu, hsame⟩ hnil
  rw [not_not] at hnil
  have hpolls : u.polls i := by
    unfold Sys.polls
    rw [hsame.1]
    exact hi
  obtain ⟨hacc, hrunning⟩ := hu.not_accepted hpolls hnil
  have hlt := (hu.polls_awaits hpolls).2.1
  cases hready : u.ready with
  | cons j rest =>
      -- the pass goes on
      obtain ⟨p, ps, hcons, hstep⟩ := hu.exists_serve hready
      have htime : TimeoutAfterDrop u (.serve false) := by simp [TimeoutAfterDrop]
      refine ⟨_, Reaches.single htime hstep, ⟨hu.step htime hstep, hsame⟩, ?_⟩
      rcases eq_or_ne i j with rfl | hne
      · left
        simp
      · right
        have hmem : i ∈ j :: rest ↔ i ∈ rest := by rw [List.mem_cons, or_iff_right hne]
        simp only [serveRank, Sys.accept_ready, Sys.accept_toServer, Function.update_of_ne hne, hready,
          hmem, List.length_cons]
        split_ifs <;> omega
  | nil =>
      by_cases hqueue : u.toServer i = []
      · -- every copy was dropped: the packet is sent again
        have hstep : StopWait.step u .timeout = some (u.resend i (u.outstanding i)) := by
          rcases hpolls with hpc | ⟨hpc, rfl⟩ <;>
            simp [StopWait.step, clientTimeout, Sys.outstanding, hpc]
        have htime : TimeoutAfterDrop u .timeout := by
          rintro - x hx
          rw [(hu.polls_awaits hpolls).2.2] at hx
          obtain rfl := Option.some_inj.1 hx
          exact ⟨by simp [hqueue], hacc⟩
        refine ⟨_, Reaches.single htime hstep, ⟨hu.step htime hstep, hsame⟩, Or.inr ?_⟩
        simp [serveRank, hready, hqueue]
      · -- `select` reports the channel
        have hread : i ∈ u.readable := mem_readable.2 ⟨hlt, hqueue⟩
        have hstep : StopWait.step u .select = some (u.select u.readable) :=
          select_eq_some.2 ⟨⟨hready, hrunning, List.ne_nil_of_mem hread⟩, rfl⟩
        have htime : TimeoutAfterDrop u .select := by simp [TimeoutAfterDrop]
        have hnext := hu.step htime hstep
        refine ⟨_, Reaches.single htime hstep, ⟨hnext, hsame⟩, Or.inr ?_⟩
        have hlen := hnext.pass.length_ready_le
        simp only [serveRank, Sys.select_ready, hread, if_true, hready, List.not_mem_nil, if_false,
          hqueue, numChannels] at hlen ⊢
        omega

end ProtocolInv

/-! ### No dead end -/

/-- How far the client is from its end, when `n` packets are still to be sent. -/
def clientRank (n : ℕ) : Pc → ℕ
  | .send _ => (numChannels + 3) * n + 3
  | .ack k => (numChannels + 3) * n + (4 + (numChannels - k))
  | .sendFin => 2
  | .fin => 1
  | .done => 0

/-- Reading an acknowledgement brings the client closer to its end. -/
theorem clientRank_readAck {file : List Byte} {s : Sys} (h : ProtocolInv file s) {k : ℕ}
    (hpc : s.pc = .ack k) {a : Packet} {as : List Packet} (hq : s.toClient k = a :: as) :
    clientRank (remaining (s.readAck k a as)).length (s.readAck k a as).pc <
      clientRank (remaining s).length s.pc := by
  have hrem : remaining (s.readAck k a as) = remaining s := by
    rw [h.sender.remaining_readAck]
    simp only [remaining, hpc]
  have hk := ((waitsOn_iff _ _).1 (h.sender.at_ack k hpc).1).1
  rw [hrem, Sys.readAck_pc, hpc]
  rcases SenderInv.nextAck_cases (noteAck s.sender a) (k + 1) with
    ⟨hp, hw⟩ | ⟨hn, ⟨hp, -⟩ | ⟨hp, -⟩ | ⟨-, hE, hN⟩⟩
  · have hk' := ((waitsOn_iff _ _).1 hw).1
    rw [hp]
    simp only [clientRank]
    omega
  · rw [hp]
    simp only [clientRank]
    omega
  · rw [hp]
    simp only [clientRank]
    omega
  · -- the last acknowledgement of a round with the end of the file sets `is_eof`
    rw [SenderInv.waitsOn_noteAck] at hn
    rw [(SenderInv.noteAck_fields s.sender a).2.1] at hN
    rw [h.wire.isEof_noteAck h.sender hpc hq hn hN] at hE
    cases hE

/-- Wherever the client is, it can be brought closer to its end. -/
theorem ProtocolInv.exists_closer {file : List Byte} {s : Sys} (h : ProtocolInv file s)
    (hdone : s.pc ≠ .done) :
    ∃ t, Reaches StopWait.step TimeoutAfterDrop s t ∧ ProtocolInv file t ∧
      (t.pc = .done ∨ clientRank (remaining t).length t.pc <
        clientRank (remaining s).length s.pc) := by
  cases hpc : s.pc with
  | send k =>
      have hstep : StopWait.step s .write = some (s.sendOn k) := by
        simp [StopWait.step, clientWrite, hpc]
      have htime : TimeoutAfterDrop s .write := by simp [TimeoutAfterDrop]
      refine ⟨_, Reaches.single htime hstep, h.step htime hstep, Or.inr ?_⟩
      rw [h.sender.remaining_sendOn hpc, List.length_cons, Sys.sendOn_pc]
      rcases afterSend_cases (sendPacket s.sender k).1 k with ⟨hp, -⟩ | ⟨hp, -⟩
      · rw [hp]
        simp only [clientRank, Nat.mul_succ]
        omega
      · rw [hp]
        simp only [clientRank, Nat.mul_succ]
        omega
  | ack k =>
      obtain ⟨u, hsu, ⟨hu, hsame⟩, hne⟩ := h.exists_acked (Or.inl hpc)
      obtain ⟨a, as, hq⟩ := List.exists_cons_of_ne_nil hne
      have hpcu : u.pc = .ack k := hsame.1.trans hpc
      have hstep : StopWait.step u .read = some (u.readAck k a as) := by
        simp [StopWait.step, clientRead, hpcu, hq]
      have htime : TimeoutAfterDrop u .read := by simp [TimeoutAfterDrop]
      refine ⟨_, hsu.trans (Reaches.single htime hstep), hu.step htime hstep, Or.inr ?_⟩
      have hrem : remaining u = remaining s := by simp only [remaining, hsame.1, hsame.2.1]
      have hlow := clientRank_readAck hu hpcu hq
      rwa [hrem, hpcu] at hlow
  | sendFin =>
      have hstep : StopWait.step s .write = some s.sendFin := by
        simp [StopWait.step, clientWrite, hpc]
      have htime : TimeoutAfterDrop s .write := by simp [TimeoutAfterDrop]
      refine ⟨_, Reaches.single htime hstep, h.step htime hstep, Or.inr ?_⟩
      simp [clientRank]
  | fin =>
      obtain ⟨u, hsu, ⟨hu, hsame⟩, hne⟩ := h.exists_acked (Or.inr ⟨hpc, rfl⟩)
      obtain ⟨a, as, hq⟩ := List.exists_cons_of_ne_nil hne
      have hpcu : u.pc = .fin := hsame.1.trans hpc
      have hstep : StopWait.step u .read = some (u.readFin as) := by
        simp [StopWait.step, clientRead, hpcu, hq]
      have htime : TimeoutAfterDrop u .read := by simp [TimeoutAfterDrop]
      exact ⟨_, hsu.trans (Reaches.single htime hstep), hu.step htime hstep, Or.inl rfl⟩
  | done => exact absurd hpc hdone

theorem protocolInv_of_run {file : List Byte} {es : List Event} {s : Sys}
    (htime : Along step TimeoutAfterDrop (Sys.init file) es)
    (h : run step (Sys.init file) es = some s) : ProtocolInv file s :=
  run_invariant_along (fun _ _ _ hs hC ht => hs.step hC ht) (protocolInv_init file) htime h

/-- When the client has returned, the output is what survives of the file. -/
theorem out_eq_transmitted {file : List Byte} {es : List Event} {s : Sys} (h : ProtocolInv file s)
    (hrun : run step (Sys.init file) es = some s) (hdone : s.pc = .done) :
    s.out = transmitted file := by
  have hall : ∀ x ∈ s.sent, x ∈ s.accepted := by
    intro x hx
    refine (h.wire.settled x hx).resolve_right ?_
    intro hc
    simp [Sys.awaits, hdone] at hc
  have hdata : dataSent s = dataPackets file := by
    have hp := h.sender.packets
    simpa only [remaining, hdone, List.append_nil] using hp
  rw [out_eq_flatMap_payload h.sender h.wire (out_eq_acceptAll hrun) hdone hall, hdata,
    flatMap_payload_dataPackets]

/-- **No dead end.**  From every state of every run in which `poll` times out only after every copy of
its packet was dropped, the transfer can be brought to its end under the same discipline, and
`output.txt` then holds what survives of the file. -/
theorem transfer_can_finish (file : List Byte) (es : List Event) (s : Sys)
    (htime : Along step TimeoutAfterDrop (Sys.init file) es)
    (hrun : run step (Sys.init file) es = some s) :
    ∃ es' t, Along step TimeoutAfterDrop s es' ∧ run step s es' = some t ∧ t.pc = .done ∧
      t.out = transmitted file := by
  have hs := protocolInv_of_run htime hrun
  obtain ⟨t, ⟨es', halong, hrun'⟩, ht, hdone⟩ :=
    reaches_of_rank (G := fun s => s.pc = .done)
      (fun s => clientRank (remaining s).length s.pc)
      (fun s hs hdone => hs.exists_closer hdone) hs
  exact ⟨es', t, halong, hrun', hdone, out_eq_transmitted ht (run_append hrun hrun') hdone⟩

/-- In the run `dropRun` a packet was dropped and sent again; the transfer can be finished. -/
theorem transfer_can_finish_dropRun :
    ∃ es' t, Along step TimeoutAfterDrop dropState es' ∧ run step dropState es' = some t ∧
      t.pc = .done ∧ t.out = transmitted [1, 2, 3] :=
  transfer_can_finish [1, 2, 3] dropRun dropState (by decide) (Option.some_get _).symm

/-! ### The length of a run -/

/-- The packets on the wires of the channels. -/
def onWire (q : ℕ → List Packet) : ℕ := ∑ i ∈ Finset.range numChannels, (q i).length

theorem onWire_update (q : ℕ → List Packet) {i : ℕ} (hi : i < numChannels) (ps : List Packet) :
    onWire (Function.update q i ps) + (q i).length = onWire q + ps.length :=
  sum_update List.length q hi ps

theorem onWire_push (q : ℕ → List Packet) {i : ℕ} (hi : i < numChannels) (p : Packet) :
    onWire (push q i p) = onWire q + 1 := by
  have h := onWire_update q hi (q i ++ [p])
  rw [List.length_append, List.length_singleton] at h
  unfold push
  omega

theorem onWire_pop {q : ℕ → List Packet} {i : ℕ} (hi : i < numChannels) {p : Packet}
    {ps : List Packet} (hq : q i = p :: ps) : onWire (Function.update q i ps) + 1 = onWire q := by
  have h := onWire_update q hi ps
  rw [hq, List.length_cons] at h
  omega

/-- Every channel that is still to be served has a packet of its own. -/
theorem PassInv.length_ready_le_onWire {s : Sys} (h : PassInv s) :
    s.ready.length ≤ onWire s.toServer := by
  have hsub : s.ready.toFinset ⊆ Finset.range numChannels :=
    fun i hi => Finset.mem_range.2 (h.waiting i (List.mem_toFinset.1 hi)).1
  calc s.ready.length = ∑ _i ∈ s.ready.toFinset, 1 := by
        rw [Finset.sum_const, List.toFinset_card_of_nodup h.nodup, smul_eq_mul, mul_one]
    _ ≤ ∑ i ∈ s.ready.toFinset, (s.toServer i).length := by
        refine Finset.sum_le_sum fun i hi => ?_
        exact List.length_pos_of_ne_nil (h.waiting i (List.mem_toFinset.1 hi)).2
    _ ≤ onWire s.toServer := Finset.sum_le_sum_of_subset hsub

/-- The packets that the client has not written yet, the FIN packet with them. -/
def unwritten (s : Sys) : ℕ :=
  (remaining s).length + if s.pc = .fin ∨ s.pc = .done then 0 else 1

/-- The steps that the packets can still cause: one that is not written yet is written, selected,
served and acknowledged. -/
def potential (s : Sys) : ℕ :=
  4 * unwritten s + (3 * onWire s.toServer - s.ready.length) + onWire s.toClient

/-- A timeout writes one more packet, which is then selected, served and acknowledged. -/
def timeoutCredit (e : Event) : ℕ := if e = .timeout then 4 else 0

/-- **Every step but a timeout lowers the potential.** -/
theorem potential_step {file : List Byte} {s t : Sys} {e : Event} (hs : SenderInv file s)
    (hp : PassInv s) (ht : step s e = some t) : potential t + 1 ≤ potential s + timeoutCredit e := by
  have hready := hp.length_ready_le_onWire
  unfold potential
  cases step_cases ht with
  | @send k hpc =>
      have hpush : onWire (s.sendOn k).toServer = onWire s.toServer + 1 :=
        onWire_push s.toServer (hs.at_send k hpc).1 _
      have hclient : onWire (s.sendOn k).toClient = onWire s.toClient := rfl
      have hdone := afterSend_ne_fin (sendPacket s.sender k).1 k
      have hlow : unwritten s = unwritten (s.sendOn k) + 1 := by
        rw [unwritten, unwritten, hs.remaining_sendOn hpc, Sys.sendOn_pc, if_neg hdone,
          if_neg (by simp [hpc]), List.length_cons]
      rw [Sys.sendOn_ready]
      omega
  | sendFin hpc =>
      have hpush : onWire s.sendFin.toServer = onWire s.toServer + 1 :=
        onWire_push s.toServer (by decide) _
      have hclient : onWire s.sendFin.toClient = onWire s.toClient := rfl
      have hlow : unwritten s = unwritten s.sendFin + 1 := by simp [unwritten, remaining, hpc]
      rw [Sys.sendFin_ready]
      omega
  | @resend k hpc =>
      have hk := ((waitsOn_iff _ _).1 (hs.at_ack k hpc).1).1
      have hpush : onWire (s.resend k (s.tmp k)).toServer = onWire s.toServer + 1 :=
        onWire_push s.toServer hk _
      have hclient : onWire (s.resend k (s.tmp k)).toClient = onWire s.toClient := rfl
      have hlow : unwritten (s.resend k (s.tmp k)) = unwritten s := rfl
      have hcredit : timeoutCredit .timeout = 4 := rfl
      rw [Sys.resend_ready]
      omega
  | resendFin hpc =>
      have hpush : onWire (s.resend 0 s.finPkt).toServer = onWire s.toServer + 1 :=
        onWire_push s.toServer (by decide) _
      have hclient : onWire (s.resend 0 s.finPkt).toClient = onWire s.toClient := rfl
      have hlow : unwritten (s.resend 0 s.finPkt) = unwritten s := rfl
      have hcredit : timeoutCredit .timeout = 4 := rfl
      rw [Sys.resend_ready]
      omega
  | @readAck k a as hpc hq =>
      have hk := ((waitsOn_iff _ _).1 (hs.at_ack k hpc).1).1
      have hpop : onWire (s.readAck k a as).toClient + 1 = onWire s.toClient := onWire_pop hk hq
      have hserver : onWire (s.readAck k a as).toServer = onWire s.toServer := rfl
      have hdone := SenderInv.nextAck_ne_fin (noteAck s.sender a) (k + 1)
      have hlow : unwritten (s.readAck k a as) = unwritten s := by
        have hrem : remaining s = restPackets s.sender := by simp only [remaining, hpc]
        rw [unwritten, unwritten, hs.remaining_readAck, Sys.readAck_pc, if_neg hdone,
          if_neg (by simp [hpc]), hrem]
      rw [Sys.readAck_ready]
      omega
  | @readFin a as hpc hq =>
      have hpop : onWire (s.readFin as).toClient + 1 = onWire s.toClient :=
        onWire_pop (by decide) hq
      have hserver : onWire (s.readFin as).toServer = onWire s.toServer := rfl
      have hlow : unwritten (s.readFin as) = unwritten s := by simp [unwritten, remaining, hpc]
      rw [Sys.readFin_ready]
      omega
  | select ready =>
      obtain ⟨⟨hnil, -, hne⟩, heq⟩ := select_eq_some.1 ht
      obtain rfl : ready = s.readable := congrArg Sys.ready heq
      have hle := (hp.step ht).length_ready_le_onWire
      have hpos := List.length_pos_of_ne_nil hne
      have hserver : onWire (s.select s.readable).toServer = onWire s.toServer := rfl
      have hclient : onWire (s.select s.readable).toClient = onWire s.toClient := rfl
      have hlow : unwritten (s.select s.readable) = unwritten s := rfl
      rw [Sys.select_ready] at hle ⊢
      rw [hnil, List.length_nil]
      omega
  | @drop i rest p ps hrest hq =>
      have hi := (hp.waiting i (hrest ▸ List.mem_cons_self)).1
      have hpop : onWire (s.drop i rest ps).toServer + 1 = onWire s.toServer := onWire_pop hi hq
      have hclient : onWire (s.drop i rest ps).toClient = onWire s.toClient := rfl
      have hlow : unwritten (s.drop i rest ps) = unwritten s := rfl
      rw [hrest, List.length_cons] at hready ⊢
      rw [Sys.drop_ready]
      omega
  | @accept i rest p ps hrest hq =>
      have hi := (hp.waiting i (hrest ▸ List.mem_cons_self)).1
      have hpop : onWire (s.accept i rest p ps).toServer + 1 = onWire s.toServer := onWire_pop hi hq
      have hpush : onWire (s.accept i rest p ps).toClient = onWire s.toClient + 1 :=
        onWire_push s.toClient hi _
      have hlow : unwritten (s.accept i rest p ps) = unwritten s := rfl
      rw [hrest, List.length_cons] at hready ⊢
      rw [Sys.accept_ready]
      omega

/-- At the end of the file at most one packet follows, an empty one. -/
theorem Sends.length_le_one {c d : Sender} {ps : List Packet} (h : Sends c ps d) (hnil : c.fp = []) :
    ps.length ≤ 1 := by
  cases h with
  | nil => exact Nat.zero_le 1
  | cons i h₀ hs =>
      rcases sendPacket_cases c i with ⟨hf, -⟩ | ⟨-, hsize, -⟩
      · rw [hnil] at hf
        exact absurd (by decide) hf
      · rw [hnil] at hsize
        rw [h₀ hsize]
        exact le_rfl

theorem Sends.length_le {c d : Sender} {ps : List Packet} (h : Sends c ps d) :
    ps.length ≤ c.fp.length / packetSize + 2 := by
  induction h with
  | nil c => exact Nat.zero_le _
  | @cons c d ps i h₀ hs ih =>
      rw [List.length_cons]
      rcases sendPacket_cases c i with ⟨hf, -, -, hr, -⟩ | ⟨-, -, -, hr, -⟩
      · rw [hr, List.length_drop] at ih
        simp only [packetSize] at hf ih ⊢
        omega
      · exact le_trans (Nat.succ_le_succ (hs.length_le_one hr)) (Nat.le_add_left 2 _)

/-- **Only timeouts keep the transfer going.**  Whatever is dropped and whenever `poll` times out, a
run has at most four steps for every packet of the file and for every timeout. -/
theorem steps_bounded_by_timeouts (file : List Byte) (es : List Event) (s : Sys)
    (hrun : run step (Sys.init file) es = some s) :
    es.length ≤ 4 * (file.length / packetSize + 3 + es.count .timeout) := by
  have hbound := length_add_le_of_potential (I := fun s => SenderInv file s ∧ PassInv s)
    (f := potential) (c := timeoutCredit)
    (fun s e t hs ht => ⟨⟨hs.1.step ht, hs.2.step ht⟩, potential_step hs.1 hs.2 ht⟩)
    ⟨senderInv_init file, passInv_init file⟩ hrun
  have hcredit : (es.map timeoutCredit).sum = 4 * es.count .timeout := sum_map_ite Event.timeout 4 es
  have hpackets : remaining (Sys.init file) = dataPackets file := (senderInv_init file).packets
  have hlen : (dataPackets file).length ≤ file.length / packetSize + 2 :=
    (sends_dataPackets file).length_le
  have hinit : potential (Sys.init file) = 4 * ((dataPackets file).length + 1) := by
    rw [potential, unwritten, hpackets]
    simp [Sys.init, onWire]
  omega

/-- The run `dropRun` of nine steps with one timeout. -/
theorem steps_bounded_by_timeouts_dropRun : dropRun.length ≤ 4 * (3 / 5 + 3 + 1) :=
  steps_bounded_by_timeouts [1, 2, 3] dropRun dropState (Option.some_get _).symm

end StopWait
