/-
**Completion of the N-channel stop-and-wait protocol.**

When `poll` times out on a channel only after every copy of its outstanding packet was dropped, at
most one copy of a packet is ever on its way and it was not accepted before; the server then accepts
no packet twice (`StopWait.acceptsOnce_of_timeoutAfterDrop`), and the invariants of
`StopWaitInvariant` apply.  When the client returns, every packet it sent has been accepted and the
output is the concatenation of the payloads.

Main definitions:

* `StopWait.QueueInv` — what can be on its way to the server.

Main results:

* `StopWait.acceptsOnce_of_timeoutAfterDrop` — the discipline of the timeouts implies that of the
  server;
* `StopWait.delivery` — **completion**.
-/

import NetworkProgramming.StopWaitInvariant

set_option relaxedAutoImplicit false
set_option autoImplicit false

namespace StopWait

open Runs SparseFile

/-! ### One copy at a time -/

/-- A channel carries nothing to the server, or one copy of its outstanding packet, which was not
accepted yet. -/
def QueueInv (s : Sys) : Prop :=
  ∀ i, s.toServer i = [] ∨
    (s.awaits i ∧ s.toServer i = [s.outstanding i] ∧ (i, s.outstanding i) ∉ s.accepted)

theorem queueInv_init (file : List Byte) : QueueInv (Sys.init file) := fun _ => Or.inl rfl

namespace QueueInv

variable {file : List Byte} {s : Sys}

theorem eq_nil (h : QueueInv s) {i : ℕ} (hi : ¬ s.awaits i) : s.toServer i = [] :=
  (h i).resolve_right fun hc => hi hc.1

theorem eq_nil_of_accepted (h : QueueInv s) {i : ℕ} (hi : (i, s.outstanding i) ∈ s.accepted) :
    s.toServer i = [] :=
  (h i).resolve_right fun hc => hc.2.2 hi

/-- What the server reads was not accepted before, and nothing is behind it. -/
theorem of_cons (h : QueueInv s) {i : ℕ} {p : Packet} {ps : List Packet}
    (hq : s.toServer i = p :: ps) : (i, p) ∉ s.accepted ∧ ps = [] := by
  rcases h i with hnil | ⟨_, hone, hnew⟩
  · rw [hq] at hnil
    cases hnil
  · rw [hq] at hone
    injection hone with hp hps
    exact ⟨hp ▸ hnew, hps⟩

theorem sendOn (h : QueueInv s) (hs : SenderInv file s) (hw : WireInv s) {k : ℕ}
    (hpc : s.pc = .send k) : QueueInv (s.sendOn k) := by
  have hold : ∀ i, s.awaits i ↔ i < k := fun i => by simp only [Sys.awaits, hpc]
  have hout : ∀ i, s.outstanding i = s.tmp i := fun i => by simp only [Sys.outstanding, hpc]
  intro i
  rw [awaits_sendOn hs hpc, outstanding_sendOn, Sys.sendOn_toServer]
  by_cases hik : i = k
  · subst hik
    have hnil := h.eq_nil (mt (hold i).1 (lt_irrefl i))
    rw [push_self, hnil, Function.update_self]
    exact Or.inr ⟨le_rfl, rfl, fun hacc => hs.fresh hpc (hw.accepted_sent _ hacc)⟩
  · rw [push_of_ne _ _ hik, Function.update_of_ne hik]
    have hi := h i
    rw [hold, hout] at hi
    exact hi.imp_right fun hc => ⟨hc.1.le, hc.2⟩

theorem sendFin (h : QueueInv s) (hs : SenderInv file s) (hw : WireInv s)
    (hpc : s.pc = .sendFin) : QueueInv s.sendFin := by
  have hnil : ∀ i, s.toServer i = [] := fun i => h.eq_nil (by simp [Sys.awaits, hpc])
  intro i
  rw [Sys.sendFin_toServer]
  by_cases hi : i = 0
  · subst hi
    rw [push_self, hnil]
    refine Or.inr ⟨rfl, rfl, ?_⟩
    intro hacc
    have hf := hs.last_fin _ (hw.accepted_sent _ hacc) rfl
    simp [hpc] at hf
  · rw [push_of_ne _ _ hi]
    exact Or.inl (hnil i)

/-- A copy is sent again only when no other copy is left. -/
theorem resend (h : QueueInv s) {i : ℕ} (haw : s.awaits i)
    (hdrop : AllCopiesDropped s (i, s.outstanding i)) :
    QueueInv (s.resend i (s.outstanding i)) := by
  have hnil : s.toServer i = [] := by
    refine (h i).resolve_right fun hc => hdrop.1 ?_
    simp [hc.2.1]
  intro j
  rw [Sys.resend_toServer]
  by_cases hj : j = i
  · subst hj
    rw [push_self, hnil]
    exact Or.inr ⟨haw, rfl, hdrop.2⟩
  · rw [push_of_ne _ _ hj]
    exact h j

theorem readAck (h : QueueInv s) (hs : SenderInv file s) (hw : WireInv s) {k : ℕ}
    (hpc : s.pc = .ack k) {a : Packet} {as : List Packet} (hq : s.toClient k = a :: as) :
    QueueInv (s.readAck k a as) := by
  intro i
  rw [hw.awaits_readAck hs hpc hq, WireInv.outstanding_readAck hpc]
  by_cases hk : i = k
  · subst hk
    exact Or.inl (h.eq_nil_of_accepted (hw.of_toClient hq).1)
  · exact (h i).imp_right fun hc => ⟨⟨hc.1, hk⟩, hc.2⟩

theorem readFin (h : QueueInv s) (hw : WireInv s) (hpc : s.pc = .fin) {a : Packet}
    {as : List Packet} (hq : s.toClient 0 = a :: as) : QueueInv (s.readFin as) := by
  intro i
  refine Or.inl ?_
  by_cases hi : i = 0
  · subst hi
    exact h.eq_nil_of_accepted (hw.of_toClient hq).1
  · exact h.eq_nil (by simpa [Sys.awaits, hpc] using hi)

theorem drop (h : QueueInv s) {i : ℕ} (rest : List ℕ) {p : Packet} {ps : List Packet}
    (hq : s.toServer i = p :: ps) : QueueInv (s.drop i rest ps) := by
  intro j
  rw [Sys.drop_toServer]
  by_cases hj : j = i
  · subst hj
    exact Or.inl (by rw [Function.update_self, (h.of_cons hq).2])
  · rw [Function.update_of_ne hj]
    exact h j

theorem accept (h : QueueInv s) {i : ℕ} (rest : List ℕ) {p : Packet} {ps : List Packet}
    (hq : s.toServer i = p :: ps) : QueueInv (s.accept i rest p ps) := by
  intro j
  rw [Sys.accept_toServer]
  by_cases hj : j = i
  · subst hj
    exact Or.inl (by rw [Function.update_self, (h.of_cons hq).2])
  · rw [Function.update_of_ne hj]
    refine (h j).imp_right fun hc => ⟨hc.1, hc.2.1, ?_⟩
    intro hacc
    rcases List.mem_append.1 hacc with hacc | hacc
    · exact hc.2.2 hacc
    · exact hj (congrArg Prod.fst (List.mem_singleton.1 hacc))

theorem acceptsOnce (h : QueueInv s) (e : Event) : AcceptsOnce s e := by
  rintro - x hx
  simp only [Sys.served, Option.mem_def, Option.bind_eq_some_iff, Option.map_eq_some_iff,
    List.head?_eq_some_iff] at hx
  obtain ⟨i, -, p, ⟨ps, hq⟩, rfl⟩ := hx
  exact (h.of_cons hq).1

theorem step (h : QueueInv s) (hs : SenderInv file s) (hw : WireInv s) {e : Event} {t : Sys}
    (htime : TimeoutAfterDrop s e) (ht : StopWait.step s e = some t) : QueueInv t := by
  cases step_cases ht with
  | send hpc => exact h.sendOn hs hw hpc
  | sendFin hpc => exact h.sendFin hs hw hpc
  | @resend i hpc =>
      have hout : s.outstanding i = s.tmp i := by simp only [Sys.outstanding, hpc]
      have hdrop := htime rfl (i, s.tmp i) (by simp [Sys.polled, hpc])
      rw [← hout] at hdrop ⊢
      refine h.resend ?_ hdrop
      simp only [Sys.awaits, hpc]
      exact ⟨le_rfl, (hs.at_ack i hpc).1⟩
  | resendFin hpc =>
      have hout : s.outstanding 0 = s.finPkt := by simp only [Sys.outstanding, hpc]
      have hdrop := htime rfl (0, s.finPkt) (by simp [Sys.polled, hpc])
      rw [← hout] at hdrop ⊢
      exact h.resend (by simp only [Sys.awaits, hpc]) hdrop
  | readAck hpc hq => exact h.readAck hs hw hpc hq
  | readFin hpc hq => exact h.readFin hw hpc hq
  | select ready => exact h
  | drop hready hq => exact h.drop _ hq
  | accept hready hq => exact h.accept _ hq

end QueueInv

/-- **If timeouts fire only after drops, the server accepts no packet twice.** -/
theorem acceptsOnce_of_timeoutAfterDrop {file : List Byte} {es : List Event} {s : Sys}
    (htime : Along step TimeoutAfterDrop (Sys.init file) es)
    (h : run step (Sys.init file) es = some s) :
    Along step AcceptsOnce (Sys.init file) es := by
  refine along_of_invariant (I := fun s => SenderInv file s ∧ WireInv s ∧ QueueInv s)
    (D := TimeoutAfterDrop) ?_ ?_ ⟨senderInv_init file, wireInv_init file, queueInv_init file⟩
    htime h
  · rintro s e t ⟨hs, hw, hq⟩ hd ht
    exact ⟨hs.step ht, hw.step hs (hq.acceptsOnce e) ht, hq.step hs hw hd ht⟩
  · rintro s e t ⟨_, _, hq⟩ _ _
    exact hq.acceptsOnce e

/-! ### The output -/

/-- The output is what the accepted packets wrote. -/
theorem out_eq_acceptAll {file : List Byte} {es : List Event} {s : Sys}
    (h : run step (Sys.init file) es = some s) : s.out = acceptAll (s.accepted.map Prod.snd) := by
  refine run_invariant (I := fun s => s.out = acceptAll (s.accepted.map Prod.snd)) ?_ rfl h
  intro s e t hs ht
  cases step_cases ht with
  | accept hready hq =>
      rw [Sys.accept_out, Sys.accept_accepted, hs]
      simp [acceptAll]
  | _ => exact hs

/-- The FIN packet writes nothing. -/
theorem acceptAll_filter (ps : List Packet) :
    acceptAll ps = acceptAll (ps.filter fun p => p.header.isLast != 1) := by
  unfold acceptAll
  generalize ([] : List Byte) = out
  induction ps generalizing out with
  | nil => rfl
  | cons p ps ih =>
      by_cases hp : p.header.isLast = 1
      · rw [List.foldl_cons, ih, List.filter_cons_of_neg (by simp [hp])]
        simp [serveConnection, hp]
      · rw [List.foldl_cons, ih, List.filter_cons_of_pos (by simp [hp]), List.foldl_cons]

/-- When every packet sent was accepted and none remains, the output is what the packets carry. -/
theorem out_eq_flatMap_payload {file : List Byte} {s : Sys} (hs : SenderInv file s)
    (hw : WireInv s) (hout : s.out = acceptAll (s.accepted.map Prod.snd))
    (hdone : s.pc = .done) (hall : ∀ x ∈ s.sent, x ∈ s.accepted) :
    s.out = (dataSent s).flatMap Packet.payload := by
  have hdata : dataSent s = dataPackets file := by
    have hp := hs.packets
    simpa only [remaining, hdone, List.append_nil] using hp
  have hmem : ∀ p, p ∈ (s.accepted.map Prod.snd).filter (fun p => p.header.isLast != 1) ↔
      p ∈ dataSent s := by
    intro p
    simp only [dataSent, List.mem_filter, List.mem_map]
    refine and_congr_left fun _ => exists_congr fun x => and_congr_left ?_
    intro _
    exact ⟨hw.accepted_sent x, hall x⟩
  have hsub : ∀ p ∈ (s.accepted.map Prod.snd).filter (fun p => p.header.isLast != 1),
      p ∈ dataPackets file := fun p hp => hdata ▸ (hmem p).1 hp
  have hcongr : writeAll (((s.accepted.map Prod.snd).filter fun p => p.header.isLast != 1).map
      Packet.write) = writeAll ((dataPackets file).map Packet.write) := by
    refine writeAll_congr (compatible_of_subset hsub) ?_
    intro w
    simp only [List.mem_map]
    exact exists_congr fun p => and_congr_left fun _ => hdata ▸ hmem p
  rw [hout, acceptAll_filter, acceptAll_eq_writeAll hsub, hcongr, ← hdata,
    writeAll_of_tiled (hdata ▸ tiled_dataPackets file), List.flatMap_map]
  rfl

/-- In a tiled file the cells of a packet are where its sequence number says. -/
theorem take_drop_of_tiled {ps : List Packet} {n : ℕ} (htile : Tiled n (ps.map Packet.write))
    {p : Packet} (hp : p ∈ ps) :
    ((ps.flatMap Packet.payload).drop (p.header.seqNo - n)).take p.payload.length =
      p.payload := by
  induction ps generalizing n with
  | nil => exact absurd hp List.not_mem_nil
  | cons q ps ih =>
      obtain ⟨hq, htail⟩ := htile
      rcases List.mem_cons.1 hp with rfl | hp
      · have hz : p.header.seqNo - n = 0 := by
          simp only [Packet.write] at hq
          omega
        rw [hz, List.drop_zero, List.flatMap_cons, List.take_left]
      · have hle : n + q.payload.length ≤ p.header.seqNo :=
          htail.le_fst p.write (List.mem_map_of_mem hp)
        have hsplit : p.header.seqNo - n =
            q.payload.length + (p.header.seqNo - (n + q.payload.length)) := by omega
        rw [List.flatMap_cons, hsplit, List.drop_length_add_append]
        exact ih htail hp

/-- **Completion.**  In every run in which `poll` times out on a channel only after every copy of
its outstanding packet was dropped: when `connection_loop` has returned, the server has accepted the
FIN packet and every packet the client sent, and the output is exactly the data packets laid out at
their sequence numbers, without gaps. -/
theorem delivery (file : List Byte) (es : List Event) (s : Sys)
    (htime : Along step TimeoutAfterDrop (Sys.init file) es)
    (hrun : run step (Sys.init file) es = some s) (hdone : s.pc = .done) :
    (s.finPkt.header.isLast = 1 ∧ (0, s.finPkt) ∈ s.accepted) ∧
      (∀ x ∈ s.sent, x ∈ s.accepted) ∧
      (∀ p ∈ dataSent s,
        (s.out.drop p.header.seqNo).take p.header.size = p.data.take p.header.size) ∧
      s.out.length = ((dataSent s).map fun p => p.header.size).sum ∧
      s.out = (dataSent s).flatMap Packet.payload ∧ dataSent s = dataPackets file := by
  obtain ⟨hs, hw⟩ := wireInv_of_run (acceptsOnce_of_timeoutAfterDrop htime hrun) hrun
  have hall : ∀ x ∈ s.sent, x ∈ s.accepted := by
    intro x hx
    refine (hw.settled x hx).resolve_right ?_
    intro hc
    simp [Sys.awaits, hdone] at hc
  have hout := out_eq_flatMap_payload hs hw (out_eq_acceptAll hrun) hdone hall
  have hdata : dataSent s = dataPackets file := by
    have hp := hs.packets
    simpa only [remaining, hdone, List.append_nil] using hp
  have hfin := hs.fin_sent (Or.inr hdone)
  have hlen : ∀ p ∈ dataSent s, p.payload.length = p.header.size :=
    fun p hp => dataPackets_length_payload (hdata ▸ hp)
  refine ⟨⟨hfin.2, hall _ hfin.1⟩, hall, ?_, ?_, hout, hdata⟩
  · intro p hp
    have htile : Tiled 0 ((dataSent s).map Packet.write) := hdata ▸ tiled_dataPackets file
    have htake := take_drop_of_tiled htile hp
    rwa [← hout, hlen p hp, Nat.sub_zero] at htake
  · rw [hout, List.length_flatMap]
    exact congrArg List.sum (List.map_congr_left hlen)

/-- Three bytes sent to the end, with the first copy of a data packet and of the FIN dropped. -/
def completeRun : List Event :=
  dropRun ++ [.read, .write, .select, .serve true, .timeout, .select, .serve false, .read]

/-- The state after `completeRun`. -/
def completeState : Sys := (run step (Sys.init [1, 2, 3]) completeRun).get (by decide)

/-- The run `completeRun` keeps the discipline and returns; the output lacks the last byte, as the
sender does. -/
theorem delivery_completeRun :
    Along step TimeoutAfterDrop (Sys.init [1, 2, 3]) completeRun ∧ completeState.pc = .done ∧
      completeState.out = [1, 2] ∧
      completeState.out = (dataSent completeState).flatMap Packet.payload :=
  ⟨by decide, by decide, by decide,
    (delivery [1, 2, 3] completeRun completeState (by decide) (Option.some_get _).symm
      (by decide)).2.2.2.2.1⟩

end StopWait
