/-
**Invariants of the N-channel stop-and-wait protocol.**

Two invariants carry everything that is proved about `StopWait.step`.

`StopWait.SenderInv` is about the client alone and holds in every run: whatever the server and the
timeouts do, the data packets sent so far are a front part of `dataPackets file`, in order, and the
bookkeeping of `eof_seq_no` and `last_packet` is right.

`StopWait.WireInv` is about acknowledgements.  The client never compares an acknowledgement with
the packet it is waiting for, so it relies on each channel carrying at most one of them, for the
outstanding packet.  This holds as long as the server accepts no packet twice
(`StopWait.AcceptsOnce`); a second acknowledgement of one packet is taken for that of the next one
on the same channel (`StopWait.not_noAdvanceWithoutAcceptance`).

Main definitions:

* `StopWait.remaining` — the data packets the client has still to send;
* `StopWait.Sys.awaits`, `StopWait.Sys.outstanding` — the channels whose acknowledgement has not
  been read, and the packets on them;
* `StopWait.NoAdvanceWithoutAcceptance` — a step leaves a round, or returns, only after acceptance.

Main results:

* `StopWait.senderInv_of_run` — the sender invariant in every run;
* `StopWait.wireInv_of_run` — the wire invariant in every run that accepts no packet twice;
* `StopWait.noAdvance_of_acceptsOnce` — **no advance without acceptance** in those runs.
-/

import NetworkProgramming.StopWaitProtocol

set_option relaxedAutoImplicit false
set_option autoImplicit false

namespace StopWait

open Runs

/-! ### The sender -/

/-- The data packets the client has still to send. -/
def remaining (s : Sys) : List Packet :=
  match s.pc with
  | .send k =>
      (sendRound (numChannels - k) k s.sender).1 ++
        restPackets (sendRound (numChannels - k) k s.sender).2
  | .ack _ => restPackets s.sender
  | _ => []

/-- Channel `j` carries a packet of the current round. -/
def Sys.inRound (s : Sys) (j : ℕ) : Prop :=
  match s.pc with
  | .send k => j < k
  | .ack _ => s.sender.waitsOn j
  | _ => False

theorem waitsOn_iff (c : Sender) (i : ℕ) :
    c.waitsOn i = true ↔ i < numChannels ∧ ∀ l, c.lastPacket = some l → i ≤ l := by
  cases h : c.lastPacket <;> simp [Sender.waitsOn, h]

/-- The client's bookkeeping. -/
structure SenderInv (file : List Byte) (s : Sys) : Prop where
  eof_fp : s.sender.eofSeqNo ≠ none → s.sender.fp = []
  isEof_eof : s.sender.isEof = true → s.sender.eofSeqNo ≠ none
  last_eof : s.sender.lastPacket ≠ none → s.sender.eofSeqNo ≠ none
  last_lt : ∀ l, s.sender.lastPacket = some l → l < numChannels
  at_send : ∀ k, s.pc = .send k → k < numChannels ∧ s.sender.isEof = false ∧
    s.sender.lastPacket = none ∧
    ∀ e, s.sender.eofSeqNo = some e → 0 < k ∧ (s.tmp (k - 1)).header.seqNo = e
  at_ack : ∀ k, s.pc = .ack k → s.sender.waitsOn k ∧
    ∀ e, s.sender.eofSeqNo = some e → (s.tmp s.sender.lastChannel).header.seqNo = e
  packets : dataSent s ++ remaining s = dataPackets file
  in_round : ∀ j, s.inRound j → (j, s.tmp j) ∈ s.sent
  fin_sent : s.pc = .fin ∨ s.pc = .done → (0, s.finPkt) ∈ s.sent ∧ s.finPkt.header.isLast = 1
  last_fin : ∀ x ∈ s.sent, x.2.header.isLast = 1 → s.pc = .fin ∨ s.pc = .done

theorem senderInv_init (file : List Byte) : SenderInv file (Sys.init file) where
  eof_fp h := absurd rfl h
  isEof_eof h := nomatch h
  last_eof h := absurd rfl h
  last_lt l h := nomatch h
  at_send k h := by
    obtain rfl := Pc.send.inj h
    exact ⟨by decide, rfl, rfl, fun e he => nomatch he⟩
  at_ack k h := nomatch h
  packets := (restPackets_of_none (Sender.wf_init file) rfl).symm
  in_round j h := absurd h (Nat.not_lt_zero j)
  fin_sent h := by rcases h with h | h <;> cases h
  last_fin x hx := absurd hx List.not_mem_nil

theorem afterSend_cases (p : Packet) (k : ℕ) :
    (afterSend p k = .send (k + 1) ∧ k + 1 < numChannels ∧ p.header.size ≠ 0) ∨
      (afterSend p k = .ack 0 ∧ (p.header.size = 0 ∨ numChannels ≤ k + 1)) := by
  by_cases hz : p.header.size = 0
  · exact Or.inr ⟨by simp [afterSend, hz], Or.inl hz⟩
  · by_cases hk : k + 1 < numChannels
    · exact Or.inl ⟨by simp [afterSend, hz, hk], hk, hz⟩
    · exact Or.inr ⟨by simp [afterSend, hz, hk], Or.inr (not_lt.1 hk)⟩

/-- No data packet is the end of the transfer. -/
theorem afterSend_ne_fin (p : Packet) (k : ℕ) :
    ¬ (afterSend p k = .fin ∨ afterSend p k = .done) := by
  rcases afterSend_cases p k with ⟨hp, _⟩ | ⟨hp, _⟩ <;> simp [hp]

namespace SenderInv

variable {file : List Byte} {s : Sys}

theorem wf (h : SenderInv file s) {k : ℕ} (hpc : s.pc = .send k) : s.sender.Wf :=
  ⟨(h.at_send k hpc).2.1, h.eof_fp⟩

/-- The packet about to be sent is the first of the remaining ones. -/
theorem remaining_sendOn (h : SenderInv file s) {k : ℕ} (hpc : s.pc = .send k) :
    remaining s = (sendPacket s.sender k).1 :: remaining (s.sendOn k) := by
  have hk := (h.at_send k hpc).1
  obtain ⟨n, hn⟩ : ∃ n, numChannels - k = n + 1 := ⟨numChannels - k - 1, by omega⟩
  have hs : remaining s = (sendRound (n + 1) k s.sender).1 ++
      restPackets (sendRound (n + 1) k s.sender).2 := by simp only [remaining, hpc, hn]
  rw [hs, sendRound]
  rcases afterSend_cases (sendPacket s.sender k).1 k with ⟨hp, hk', hz⟩ | ⟨hp, hz | hk'⟩
  · have hn' : numChannels - (k + 1) = n := by omega
    simp [remaining, hp, hz, hn']
  · simp [remaining, hp, hz]
  · obtain rfl : n = 0 := by omega
    by_cases hz : (sendPacket s.sender k).1.header.size = 0
    · simp [remaining, hp, hz]
    · simp [remaining, hp, hz, sendRound]

/-- The sequence number recorded at the end of the file is that of the packet just sent. -/
theorem eofSeqNo_sendPacket (h : SenderInv file s) {k e : ℕ} (hpc : s.pc = .send k)
    (he : (sendPacket s.sender k).2.eofSeqNo = some e) :
    (sendPacket s.sender k).1.header.seqNo = e := by
  rcases sendPacket_cases s.sender k with ⟨hf, _, _, _, heq⟩ | ⟨_, _, _, _, heq⟩
  · rw [heq (h.wf hpc).isEof] at he
    have hnil := h.eof_fp (by simp [he])
    rw [hnil] at hf
    exact absurd (by decide) hf
  · rw [heq] at he
    exact Option.some_inj.1 he

theorem lastPacket_sendPacket (h : SenderInv file s) {k : ℕ} (hpc : s.pc = .send k) :
    (sendPacket s.sender k).2.lastPacket =
      if (sendPacket s.sender k).1.header.size = 0 then some k else none := by
  rw [← (h.at_send k hpc).2.2.1]
  rfl

/-- A round that ends with channel `k` waits on the channels up to `k`. -/
theorem waitsOn_sendOn (h : SenderInv file s) {k : ℕ} (hpc : s.pc = .send k)
    (hend : (sendPacket s.sender k).1.header.size = 0 ∨ numChannels ≤ k + 1) :
    (sendPacket s.sender k).2.lastChannel = k ∧
      ∀ j, (sendPacket s.sender k).2.waitsOn j = true ↔ j ≤ k := by
  have hk := (h.at_send k hpc).1
  simp only [waitsOn_iff, Sender.lastChannel, h.lastPacket_sendPacket hpc]
  by_cases hz : (sendPacket s.sender k).1.header.size = 0
  · simp only [hz, if_true, Option.getD_some, Option.some.injEq, forall_eq', true_and]
    intro j
    omega
  · have hk' : numChannels ≤ k + 1 := hend.resolve_left hz
    simp only [hz, if_false, Option.getD_none, reduceCtorEq, false_implies, implies_true,
      and_true]
    exact ⟨by omega, fun j => by omega⟩

theorem inRound_sendOn (h : SenderInv file s) {k : ℕ} (hpc : s.pc = .send k) {j : ℕ}
    (hj : (s.sendOn k).inRound j) : j ≤ k := by
  rcases afterSend_cases (sendPacket s.sender k).1 k with ⟨hp, _⟩ | ⟨hp, hend⟩
  · simp only [Sys.inRound, Sys.sendOn_pc, hp] at hj
    omega
  · simp only [Sys.inRound, Sys.sendOn_pc, hp, Sys.sendOn_sender] at hj
    exact ((h.waitsOn_sendOn hpc hend).2 j).1 hj

theorem dataSent_sendOn (k : ℕ) :
    dataSent (s.sendOn k) = dataSent s ++ [(sendPacket s.sender k).1] := by
  simp [dataSent, List.filter_append, List.filter_singleton, sendPacket_isLast]

theorem sendOn (h : SenderInv file s) {k : ℕ} (hpc : s.pc = .send k) :
    SenderInv file (s.sendOn k) := by
  have hk := (h.at_send k hpc).1
  have hlast := h.lastPacket_sendPacket hpc
  refine
    { eof_fp := ((h.wf hpc).sendPacket k).fp
      isEof_eof := fun he => nomatch he
      last_eof := ?_
      last_lt := ?_
      at_send := ?_
      at_ack := ?_
      packets := ?_
      in_round := ?_
      fin_sent := ?_
      last_fin := ?_ }
  · intro hne
    refine eofSeqNo_of_size_eq_zero s.sender k ?_
    by_contra hz
    rw [Sys.sendOn_sender, hlast, if_neg hz] at hne
    exact hne rfl
  · intro l hl
    rw [Sys.sendOn_sender, hlast] at hl
    split at hl
    · obtain rfl := Option.some_inj.1 hl
      exact hk
    · cases hl
  · intro m hm
    rcases afterSend_cases (sendPacket s.sender k).1 k with ⟨hp, hk', hz⟩ | ⟨hp, _⟩
    · rw [Sys.sendOn_pc, hp] at hm
      obtain rfl := Pc.send.inj hm
      refine ⟨hk', rfl, by rw [Sys.sendOn_sender, hlast, if_neg hz], ?_⟩
      intro e he
      simpa using h.eofSeqNo_sendPacket hpc he
    · rw [Sys.sendOn_pc, hp] at hm
      cases hm
  · intro m hm
    rcases afterSend_cases (sendPacket s.sender k).1 k with ⟨hp, _⟩ | ⟨hp, hend⟩
    · rw [Sys.sendOn_pc, hp] at hm
      cases hm
    · rw [Sys.sendOn_pc, hp] at hm
      obtain rfl := Pc.ack.inj hm
      obtain ⟨hch, hwait⟩ := h.waitsOn_sendOn hpc hend
      refine ⟨(hwait 0).2 (Nat.zero_le k), ?_⟩
      intro e he
      rw [Sys.sendOn_sender, hch]
      simpa using h.eofSeqNo_sendPacket hpc he
  · rw [dataSent_sendOn, ← h.packets, h.remaining_sendOn hpc, List.append_assoc,
      List.singleton_append]
  · intro j hj
    -- a packet of the round is the one just sent or one that was sent before it
    rcases Nat.lt_or_eq_of_le (h.inRound_sendOn hpc hj) with hlt | rfl
    · have hold : (j, s.tmp j) ∈ s.sent := h.in_round j (by simpa [Sys.inRound, hpc] using hlt)
      rw [Sys.sendOn_tmp, Function.update_of_ne (Nat.ne_of_lt hlt)]
      exact List.mem_append_left _ hold
    · simp
  · intro hf
    exact absurd hf (afterSend_ne_fin _ k)
  · intro x hx h1
    rcases List.mem_append.1 hx with hx | hx
    · have hf := h.last_fin x hx h1
      simp [hpc] at hf
    · obtain rfl := List.mem_singleton.1 hx
      rw [sendPacket_isLast] at h1
      exact absurd h1 (by decide)

/-- When the client is about to send the FIN packet it has sent every data packet. -/
theorem sendFin (h : SenderInv file s) (hpc : s.pc = .sendFin) : SenderInv file s.sendFin where
  eof_fp := h.eof_fp
  isEof_eof := h.isEof_eof
  last_eof := h.last_eof
  last_lt := h.last_lt
  at_send k hk := nomatch hk
  at_ack k hk := nomatch hk
  packets := by
    have hp := h.packets
    simp only [remaining, hpc] at hp
    simpa [dataSent, remaining, List.filter_append, List.filter_singleton, finPacket] using hp
  in_round j hj := by simp [Sys.inRound] at hj
  fin_sent _ := ⟨by simp, rfl⟩
  last_fin x hx h1 := Or.inl rfl

theorem resend (h : SenderInv file s) (i : ℕ) (p : Packet) : SenderInv file (s.resend i p) :=
  ⟨h.eof_fp, h.isEof_eof, h.last_eof, h.last_lt, h.at_send, h.at_ack, h.packets, h.in_round,
    h.fin_sent, h.last_fin⟩

theorem noteAck_fields (c : Sender) (a : Packet) :
    (noteAck c a).fp = c.fp ∧ (noteAck c a).eofSeqNo = c.eofSeqNo ∧
      (noteAck c a).lastPacket = c.lastPacket ∧
      ((noteAck c a).isEof = true → c.isEof = true ∨ c.eofSeqNo ≠ none) := by
  unfold noteAck
  split
  · rename_i hc
    exact ⟨rfl, rfl, rfl, fun _ => Or.inr (by simp [← hc.2])⟩
  · exact ⟨rfl, rfl, rfl, Or.inl⟩

theorem waitsOn_noteAck (c : Sender) (a : Packet) (i : ℕ) :
    (noteAck c a).waitsOn i = c.waitsOn i := by
  simp only [Sender.waitsOn, (noteAck_fields c a).2.2.1]

theorem restPackets_noteAck (c : Sender) (a : Packet) :
    restPackets (noteAck c a) = restPackets c := by
  unfold noteAck
  split
  · rename_i hc
    have hne : c.eofSeqNo ≠ none := by simp [← hc.2]
    rw [restPackets_of_eof hne, restPackets_of_eof (c := { c with isEof := true }) hne]
  · rfl

/-- Where the client can be after it read an acknowledgement. -/
theorem nextAck_cases (c : Sender) (i : ℕ) :
    (nextAck c i = .ack i ∧ c.waitsOn i = true) ∨
      (c.waitsOn i = false ∧
        ((nextAck c i = .sendFin ∧ c.isEof = true) ∨
          (nextAck c i = .send 0 ∧ c.isEof = false ∧ c.eofSeqNo = none) ∨
          (nextAck c i = .ack 0 ∧ c.isEof = false ∧ c.eofSeqNo ≠ none))) := by
  unfold nextAck afterAcks
  cases hw : c.waitsOn i with
  | true => exact Or.inl ⟨rfl, rfl⟩
  | false =>
      refine Or.inr ⟨rfl, ?_⟩
      cases he : c.isEof with
      | true => exact Or.inl ⟨rfl, rfl⟩
      | false =>
          by_cases hn : c.eofSeqNo = none
          · exact Or.inr (Or.inl ⟨by simp [hn], rfl, hn⟩)
          · exact Or.inr (Or.inr ⟨by simp [hn], rfl, hn⟩)

/-- No acknowledgement of a data packet is the end of the transfer. -/
theorem nextAck_ne_fin (c : Sender) (i : ℕ) : ¬ (nextAck c i = .fin ∨ nextAck c i = .done) := by
  rcases nextAck_cases c i with ⟨hp, _⟩ | ⟨_, ⟨hp, _⟩ | ⟨hp, _⟩ | ⟨hp, _⟩⟩ <;> simp [hp]

theorem waitsOn_zero (c : Sender) : c.waitsOn 0 = true :=
  (waitsOn_iff _ _).2 ⟨by decide, fun l _ => Nat.zero_le l⟩

/-- `is_eof` is set only at the end of the file. -/
theorem isEof_noteAck_ne (h : SenderInv file s) {a : Packet}
    (he : (noteAck s.sender a).isEof = true) : s.sender.eofSeqNo ≠ none :=
  ((noteAck_fields s.sender a).2.2.2 he).elim h.isEof_eof id

/-- The packets that remain are those of the rounds to come, wherever the client goes next. -/
theorem remaining_readAck (h : SenderInv file s) (k : ℕ) (a : Packet) (as : List Packet) :
    remaining (s.readAck k a as) = restPackets s.sender := by
  obtain ⟨hfp, heof, -⟩ := noteAck_fields s.sender a
  rcases nextAck_cases (noteAck s.sender a) (k + 1) with
    ⟨hp, _⟩ | ⟨_, ⟨hp, hE⟩ | ⟨hp, hE, hN⟩ | ⟨hp, _⟩⟩
  · simp [remaining, hp, restPackets_noteAck]
  · simp [remaining, hp, restPackets_of_eof (h.isEof_noteAck_ne hE)]
  · have hwf : (noteAck s.sender a).Wf := ⟨hE, by simpa [heof, hfp] using h.eof_fp⟩
    rw [← restPackets_noteAck s.sender a, restPackets_of_none hwf hN]
    simp [remaining, hp]
  · simp [remaining, hp, restPackets_noteAck]

theorem inRound_of_readAck {k : ℕ} (hpc : s.pc = .ack k) {a : Packet} {as : List Packet} {j : ℕ}
    (hj : (s.readAck k a as).inRound j) : s.inRound j := by
  simp only [Sys.inRound, Sys.readAck_pc, Sys.readAck_sender] at hj
  rcases nextAck_cases (noteAck s.sender a) (k + 1) with
    ⟨hp, _⟩ | ⟨_, ⟨hp, _⟩ | ⟨hp, _⟩ | ⟨hp, _⟩⟩ <;> rw [hp] at hj
  · simpa [Sys.inRound, hpc, waitsOn_noteAck] using hj
  · exact absurd hj (by simp)
  · exact absurd hj (Nat.not_lt_zero j)
  · simpa [Sys.inRound, hpc, waitsOn_noteAck] using hj

theorem readAck (h : SenderInv file s) {k : ℕ} (hpc : s.pc = .ack k) (a : Packet)
    (as : List Packet) : SenderInv file (s.readAck k a as) := by
  obtain ⟨hfp, heof, hlast, -⟩ := noteAck_fields s.sender a
  refine
    { eof_fp := by simpa [hfp, heof] using h.eof_fp
      isEof_eof := by simpa [heof] using h.isEof_noteAck_ne
      last_eof := by simpa [heof, hlast] using h.last_eof
      last_lt := by simpa [hlast] using h.last_lt
      at_send := ?_
      at_ack := ?_
      packets := ?_
      in_round := ?_
      fin_sent := ?_
      last_fin := ?_ }
  · intro m hm
    rw [Sys.readAck_pc] at hm
    rcases nextAck_cases (noteAck s.sender a) (k + 1) with
      ⟨hp, _⟩ | ⟨_, ⟨hp, _⟩ | ⟨hp, hE, hN⟩ | ⟨hp, _⟩⟩ <;> rw [hp] at hm
    · cases hm
    · cases hm
    · obtain rfl := Pc.send.inj hm
      rw [heof] at hN
      refine ⟨by decide, hE, ?_, ?_⟩
      · by_contra hl
        exact h.last_eof (by rwa [Sys.readAck_sender, hlast] at hl) hN
      · intro e he
        rw [Sys.readAck_sender, heof, hN] at he
        cases he
    · cases hm
  · intro m hm
    rw [Sys.readAck_pc] at hm
    have hold : ∀ e, (noteAck s.sender a).eofSeqNo = some e →
        (s.tmp (noteAck s.sender a).lastChannel).header.seqNo = e := by
      simpa only [heof, Sender.lastChannel, hlast] using (h.at_ack k hpc).2
    rcases nextAck_cases (noteAck s.sender a) (k + 1) with
      ⟨hp, hw⟩ | ⟨_, ⟨hp, _⟩ | ⟨hp, _⟩ | ⟨hp, _⟩⟩ <;> rw [hp] at hm
    · obtain rfl := Pc.ack.inj hm
      exact ⟨hw, hold⟩
    · cases hm
    · cases hm
    · obtain rfl := Pc.ack.inj hm
      exact ⟨waitsOn_zero _, hold⟩
  · have hp := h.packets
    simp only [remaining, hpc] at hp
    rw [h.remaining_readAck]
    exact hp
  · intro j hj
    exact h.in_round j (inRound_of_readAck hpc hj)
  · intro hf
    exact absurd hf (nextAck_ne_fin _ (k + 1))
  · intro x hx h1
    have hf := h.last_fin x hx h1
    simp [hpc] at hf

theorem readFin (h : SenderInv file s) (hpc : s.pc = .fin) (as : List Packet) :
    SenderInv file (s.readFin as) where
  eof_fp := h.eof_fp
  isEof_eof := h.isEof_eof
  last_eof := h.last_eof
  last_lt := h.last_lt
  at_send k hk := nomatch hk
  at_ack k hk := nomatch hk
  packets := by
    have hp := h.packets
    simp only [remaining, hpc] at hp
    simpa [dataSent, remaining] using hp
  in_round j hj := by simp [Sys.inRound] at hj
  fin_sent _ := h.fin_sent (Or.inl hpc)
  last_fin x hx h1 := Or.inr rfl

theorem select (h : SenderInv file s) (ready : List ℕ) : SenderInv file (s.select ready) :=
  ⟨h.eof_fp, h.isEof_eof, h.last_eof, h.last_lt, h.at_send, h.at_ack, h.packets, h.in_round,
    h.fin_sent, h.last_fin⟩

theorem drop (h : SenderInv file s) (i : ℕ) (rest : List ℕ) (ps : List Packet) :
    SenderInv file (s.drop i rest ps) :=
  ⟨h.eof_fp, h.isEof_eof, h.last_eof, h.last_lt, h.at_send, h.at_ack, h.packets, h.in_round,
    h.fin_sent, h.last_fin⟩

theorem accept (h : SenderInv file s) (i : ℕ) (rest : List ℕ) (p : Packet) (ps : List Packet) :
    SenderInv file (s.accept i rest p ps) :=
  ⟨h.eof_fp, h.isEof_eof, h.last_eof, h.last_lt, h.at_send, h.at_ack, h.packets, h.in_round,
    h.fin_sent, h.last_fin⟩

/-- Every step keeps the client's bookkeeping. -/
theorem step (h : SenderInv file s) {e : Event} {t : Sys} (ht : StopWait.step s e = some t) :
    SenderInv file t := by
  cases step_cases ht with
  | send hpc => exact h.sendOn hpc
  | sendFin hpc => exact h.sendFin hpc
  | resend hpc => exact h.resend _ _
  | resendFin hpc => exact h.resend _ _
  | readAck hpc hq => exact h.readAck hpc _ _
  | readFin hpc hq => exact h.readFin hpc _
  | select ready => exact h.select ready
  | drop hready hq => exact h.drop _ _ _
  | accept hready hq => exact h.accept _ _ _ _

end SenderInv

/-- The client's bookkeeping is right in every run, whatever the server and the timeouts do. -/
theorem senderInv_of_run {file : List Byte} {es : List Event} {s : Sys}
    (h : run step (Sys.init file) es = some s) : SenderInv file s :=
  run_invariant (fun _ _ _ hs ht => hs.step ht) (senderInv_init file) h

/-! ### The wires -/

/-- Channel `i` carries an outstanding packet whose acknowledgement has not been read. -/
def Sys.awaits (s : Sys) (i : ℕ) : Prop :=
  match s.pc with
  | .send k => i < k
  | .ack k => k ≤ i ∧ s.sender.waitsOn i
  | .fin => i = 0
  | _ => False

/-- The outstanding packet of channel `i`. -/
def Sys.outstanding (s : Sys) (i : ℕ) : Packet :=
  match s.pc with
  | .fin => s.finPkt
  | _ => s.tmp i

/-- Each packet sent was accepted or is outstanding, and the only acknowledgements on the wires are
those of accepted outstanding packets, one each. -/
structure WireInv (s : Sys) : Prop where
  accepted_sent : ∀ x ∈ s.accepted, x ∈ s.sent
  wire_sent : ∀ i, ∀ p ∈ s.toServer i, (i, p) ∈ s.sent
  settled : ∀ x ∈ s.sent, x ∈ s.accepted ∨ (s.awaits x.1 ∧ x.2 = s.outstanding x.1)
  acks : ∀ i, (s.awaits i ∧ (i, s.outstanding i) ∈ s.accepted ∧
      s.toClient i = [(s.outstanding i).ack]) ∨
    (¬ (s.awaits i ∧ (i, s.outstanding i) ∈ s.accepted) ∧ s.toClient i = [])

theorem wireInv_init (file : List Byte) : WireInv (Sys.init file) where
  accepted_sent _ hx := absurd hx List.not_mem_nil
  wire_sent _ _ hp := absurd hp List.not_mem_nil
  settled _ hx := absurd hx List.not_mem_nil
  acks _ := Or.inr ⟨fun h => absurd h.2 List.not_mem_nil, rfl⟩

/-- The packet about to be sent was not sent before: sequence numbers increase. -/
theorem SenderInv.fresh {file : List Byte} {s : Sys} (h : SenderInv file s) {k : ℕ}
    (hpc : s.pc = .send k) : (k, (sendPacket s.sender k).1) ∉ s.sent := by
  intro hmem
  have hdata : (sendPacket s.sender k).1 ∈ dataSent s := by
    refine List.mem_filter.2 ⟨List.mem_map_of_mem hmem, ?_⟩
    rw [sendPacket_isLast]
    rfl
  have hpair := dataPackets_seqNo_lt file
  rw [← h.packets, h.remaining_sendOn hpc, List.pairwise_append] at hpair
  exact absurd (hpair.2.2 _ hdata _ List.mem_cons_self) (lt_irrefl _)

theorem awaits_sendOn {file : List Byte} {s : Sys} (h : SenderInv file s) {k : ℕ}
    (hpc : s.pc = .send k) (i : ℕ) : (s.sendOn k).awaits i ↔ i ≤ k := by
  simp only [Sys.awaits, Sys.sendOn_pc, Sys.sendOn_sender]
  rcases afterSend_cases (sendPacket s.sender k).1 k with ⟨hp, _⟩ | ⟨hp, hend⟩
  · rw [hp]
    exact Nat.lt_succ_iff
  · rw [hp]
    simp [(h.waitsOn_sendOn hpc hend).2 i]

theorem outstanding_sendOn (s : Sys) (k i : ℕ) :
    (s.sendOn k).outstanding i = Function.update s.tmp k (sendPacket s.sender k).1 i := by
  simp only [Sys.outstanding, Sys.sendOn_pc]
  rcases afterSend_cases (sendPacket s.sender k).1 k with ⟨hp, _⟩ | ⟨hp, _⟩ <;> rw [hp] <;> rfl

theorem waitsOn_mono {c : Sender} {i j : ℕ} (hij : i ≤ j) (h : c.waitsOn j = true) :
    c.waitsOn i = true := by
  rw [waitsOn_iff] at h ⊢
  exact ⟨lt_of_le_of_lt hij h.1, fun l hl => le_trans hij (h.2 l hl)⟩

/-- The last channel a round waits on. -/
theorem SenderInv.eq_lastChannel {file : List Byte} {s : Sys} (h : SenderInv file s) {k : ℕ}
    (hw : s.sender.waitsOn k = true) (hn : s.sender.waitsOn (k + 1) = false) :
    k = s.sender.lastChannel := by
  have hk := (waitsOn_iff _ _).1 hw
  have hk' : ¬ (k + 1 < numChannels ∧ ∀ l, s.sender.lastPacket = some l → k + 1 ≤ l) := by
    rw [← waitsOn_iff, hn]
    exact Bool.false_ne_true
  unfold Sender.lastChannel
  cases hl : s.sender.lastPacket with
  | none =>
      simp only [hl, reduceCtorEq, false_implies, implies_true, and_true] at hk hk'
      rw [Option.getD_none]
      omega
  | some l =>
      have hlt := h.last_lt l hl
      simp only [hl, Option.some.injEq, forall_eq'] at hk hk'
      rw [Option.getD_some]
      omega

namespace WireInv

variable {file : List Byte} {s : Sys}

theorem sendOn (h : WireInv s) (hs : SenderInv file s) {k : ℕ} (hpc : s.pc = .send k) :
    WireInv (s.sendOn k) := by
  have hfresh := hs.fresh hpc
  have hold : ∀ i, s.awaits i ↔ i < k := fun i => by simp only [Sys.awaits, hpc]
  have hout : ∀ i, s.outstanding i = s.tmp i := fun i => by simp only [Sys.outstanding, hpc]
  have hnew : ∀ i, i < k → (s.sendOn k).outstanding i = s.outstanding i := by
    intro i hi
    rw [outstanding_sendOn, Function.update_of_ne (Nat.ne_of_lt hi), hout]
  refine ⟨?_, ?_, ?_, ?_⟩
  · intro x hx
    exact List.mem_append_left _ (h.accepted_sent x hx)
  · intro i p hp
    rw [Sys.sendOn_toServer] at hp
    by_cases hik : i = k
    · subst hik
      rw [push_self] at hp
      rcases List.mem_append.1 hp with hp | hp
      · exact List.mem_append_left _ (h.wire_sent i p hp)
      · rw [List.mem_singleton.1 hp]
        simp
    · rw [push_of_ne _ _ hik] at hp
      exact List.mem_append_left _ (h.wire_sent i p hp)
  · intro x hx
    rcases List.mem_append.1 hx with hx | hx
    · rcases h.settled x hx with hacc | ⟨haw, hx2⟩
      · exact Or.inl hacc
      · have hlt := (hold x.1).1 haw
        exact Or.inr ⟨(awaits_sendOn hs hpc x.1).2 hlt.le, by rw [hnew _ hlt, hx2]⟩
    · obtain rfl := List.mem_singleton.1 hx
      refine Or.inr ⟨(awaits_sendOn hs hpc k).2 le_rfl, ?_⟩
      rw [outstanding_sendOn, Function.update_self]
  · intro i
    rw [awaits_sendOn hs hpc]
    rcases Nat.lt_trichotomy i k with hlt | rfl | hgt
    · have hi := h.acks i
      rw [hold] at hi
      rw [hnew i hlt]
      rcases hi with ⟨_, hacc, hq⟩ | ⟨hn, hq⟩
      · exact Or.inl ⟨hlt.le, hacc, hq⟩
      · exact Or.inr ⟨fun hc => hn ⟨hlt, hc.2⟩, hq⟩
    · -- the new packet cannot have been accepted, and nothing was on its way on this channel
      refine Or.inr ⟨?_, ?_⟩
      · rintro ⟨_, hacc⟩
        rw [outstanding_sendOn, Function.update_self] at hacc
        exact hfresh (h.accepted_sent _ hacc)
      · rcases h.acks i with ⟨haw, _⟩ | ⟨_, hq⟩
        · exact absurd ((hold i).1 haw) (lt_irrefl i)
        · exact hq
    · refine Or.inr ⟨fun hc => absurd hc.1 (by omega), ?_⟩
      rcases h.acks i with ⟨haw, _⟩ | ⟨_, hq⟩
      · exact absurd ((hold i).1 haw) (by omega)
      · exact hq

theorem sendFin (h : WireInv s) (hs : SenderInv file s) (hpc : s.pc = .sendFin) :
    WireInv s.sendFin := by
  have hno : ∀ i, ¬ s.awaits i := fun i => by simp [Sys.awaits, hpc]
  have hfresh : (0, finPacket s.sender) ∉ s.sent := by
    intro hmem
    have hf := hs.last_fin _ hmem rfl
    simp [hpc] at hf
  refine ⟨?_, ?_, ?_, ?_⟩
  · intro x hx
    exact List.mem_append_left _ (h.accepted_sent x hx)
  · intro i p hp
    rw [Sys.sendFin_toServer] at hp
    by_cases hi : i = 0
    · subst hi
      rw [push_self] at hp
      rcases List.mem_append.1 hp with hp | hp
      · exact List.mem_append_left _ (h.wire_sent 0 p hp)
      · rw [List.mem_singleton.1 hp]
        simp
    · rw [push_of_ne _ _ hi] at hp
      exact List.mem_append_left _ (h.wire_sent i p hp)
  · intro x hx
    rcases List.mem_append.1 hx with hx | hx
    · exact (h.settled x hx).imp_right fun hc => absurd hc.1 (hno x.1)
    · obtain rfl := List.mem_singleton.1 hx
      exact Or.inr ⟨rfl, rfl⟩
  · intro i
    refine Or.inr ⟨?_, ?_⟩
    · rintro ⟨haw, hacc⟩
      obtain rfl : i = 0 := haw
      exact hfresh (h.accepted_sent _ hacc)
    · rcases h.acks i with ⟨haw, _⟩ | ⟨_, hq⟩
      · exact absurd haw (hno i)
      · exact hq

theorem resend (h : WireInv s) {i : ℕ} {p : Packet} (hp : (i, p) ∈ s.sent) :
    WireInv (s.resend i p) := by
  refine ⟨h.accepted_sent, ?_, h.settled, h.acks⟩
  intro j q hq
  rw [Sys.resend_toServer] at hq
  by_cases hj : j = i
  · subst hj
    rw [push_self] at hq
    rcases List.mem_append.1 hq with hq | hq
    · exact h.wire_sent j q hq
    · rw [List.mem_singleton.1 hq]
      exact hp
  · rw [push_of_ne _ _ hj] at hq
    exact h.wire_sent j q hq

/-- The acknowledgement found on a channel is that of its outstanding packet, and the only one. -/
theorem of_toClient (h : WireInv s) {i : ℕ} {a : Packet} {as : List Packet}
    (hq : s.toClient i = a :: as) :
    (i, s.outstanding i) ∈ s.accepted ∧ a = (s.outstanding i).ack ∧ as = [] := by
  rcases h.acks i with ⟨_, hacc, hq'⟩ | ⟨_, hq'⟩
  · rw [hq] at hq'
    injection hq' with ha has
    exact ⟨hacc, ha, has⟩
  · rw [hq] at hq'
    cases hq'

/-- After its last acknowledgement the client has seen `eof_seq_no`, if it is set: it does not run
the ACK-collecting loop a second time for one round. -/
theorem isEof_noteAck (h : WireInv s) (hs : SenderInv file s) {k : ℕ} (hpc : s.pc = .ack k)
    {a : Packet} {as : List Packet} (hq : s.toClient k = a :: as)
    (hn : s.sender.waitsOn (k + 1) = false) (he : s.sender.eofSeqNo ≠ none) :
    (noteAck s.sender a).isEof = true := by
  obtain ⟨hw, heof⟩ := hs.at_ack k hpc
  obtain ⟨-, rfl, -⟩ := h.of_toClient hq
  obtain ⟨e, he⟩ := Option.ne_none_iff_exists'.1 he
  have hout : s.outstanding k = s.tmp k := by simp only [Sys.outstanding, hpc]
  have hseq : (s.tmp k).header.seqNo = e := by
    rw [hs.eq_lastChannel hw hn]
    exact heof e he
  have hcond : (s.outstanding k).ack.header.type = 1 ∧
      some (s.outstanding k).ack.header.seqNo = s.sender.eofSeqNo := by
    rw [he, hout]
    exact ⟨rfl, congrArg some hseq⟩
  rw [noteAck, if_pos hcond]

/-- Reading an acknowledgement takes its channel off the channels the client waits on. -/
theorem awaits_readAck (h : WireInv s) (hs : SenderInv file s) {k : ℕ} (hpc : s.pc = .ack k)
    {a : Packet} {as : List Packet} (hq : s.toClient k = a :: as) (i : ℕ) :
    (s.readAck k a as).awaits i ↔ s.awaits i ∧ i ≠ k := by
  have hold : s.awaits i ↔ k ≤ i ∧ s.sender.waitsOn i = true := by simp only [Sys.awaits, hpc]
  rw [hold]
  simp only [Sys.awaits, Sys.readAck_pc, Sys.readAck_sender]
  rcases SenderInv.nextAck_cases (noteAck s.sender a) (k + 1) with
    ⟨hp, _⟩ | ⟨hn, hend⟩
  · rw [hp]
    simp only [SenderInv.waitsOn_noteAck]
    constructor
    · rintro ⟨hk, hw⟩
      exact ⟨⟨by omega, hw⟩, by omega⟩
    · rintro ⟨⟨hk, hw⟩, hne⟩
      exact ⟨by omega, hw⟩
  · rw [SenderInv.waitsOn_noteAck] at hn
    have hnone : ¬ ((k ≤ i ∧ s.sender.waitsOn i = true) ∧ i ≠ k) := by
      rintro ⟨⟨hk, hw⟩, hne⟩
      have hw' := waitsOn_mono (show k + 1 ≤ i by omega) hw
      rw [hn] at hw'
      cases hw'
    rcases hend with ⟨hp, _⟩ | ⟨hp, _⟩ | ⟨_, hE, hN⟩
    · rw [hp]
      exact ⟨False.elim, hnone⟩
    · rw [hp]
      exact ⟨fun hi => absurd hi (Nat.not_lt_zero i), fun hc => absurd hc hnone⟩
    · rw [(SenderInv.noteAck_fields s.sender a).2.1] at hN
      rw [h.isEof_noteAck hs hpc hq hn hN] at hE
      cases hE

theorem outstanding_readAck {k : ℕ} (hpc : s.pc = .ack k) (a : Packet) (as : List Packet) (i : ℕ) :
    (s.readAck k a as).outstanding i = s.outstanding i := by
  simp only [Sys.outstanding, Sys.readAck_pc, hpc]
  rcases SenderInv.nextAck_cases (noteAck s.sender a) (k + 1) with
    ⟨hp, _⟩ | ⟨_, ⟨hp, _⟩ | ⟨hp, _⟩ | ⟨hp, _⟩⟩ <;> rw [hp] <;> rfl

theorem readAck (h : WireInv s) (hs : SenderInv file s) {k : ℕ} (hpc : s.pc = .ack k)
    {a : Packet} {as : List Packet} (hq : s.toClient k = a :: as) :
    WireInv (s.readAck k a as) := by
  obtain ⟨hacc, -, has⟩ := h.of_toClient hq
  refine ⟨h.accepted_sent, h.wire_sent, ?_, ?_⟩
  · intro x hx
    rw [h.awaits_readAck hs hpc hq, outstanding_readAck hpc]
    rcases h.settled x hx with hx' | ⟨haw, hx2⟩
    · exact Or.inl hx'
    · by_cases hk : x.1 = k
      · refine Or.inl ?_
        have hxe : x = (k, s.outstanding k) := Prod.ext hk (by rw [hx2, hk])
        rw [hxe]
        exact hacc
      · exact Or.inr ⟨⟨haw, hk⟩, hx2⟩
  · intro i
    rw [h.awaits_readAck hs hpc hq, outstanding_readAck hpc, Sys.readAck_toClient]
    by_cases hk : i = k
    · subst hk
      exact Or.inr ⟨fun hc => hc.1.2 rfl, by rw [Function.update_self, has]⟩
    · rw [Function.update_of_ne hk]
      exact (h.acks i).imp (fun hc => ⟨⟨hc.1, hk⟩, hc.2⟩)
        fun hc => ⟨fun hc' => hc.1 ⟨hc'.1.1, hc'.2⟩, hc.2⟩

theorem readFin (h : WireInv s) (hpc : s.pc = .fin) {a : Packet} {as : List Packet}
    (hq : s.toClient 0 = a :: as) : WireInv (s.readFin as) := by
  obtain ⟨hacc, -, has⟩ := h.of_toClient hq
  have hold : ∀ i, s.awaits i ↔ i = 0 := fun i => by simp only [Sys.awaits, hpc]
  refine ⟨h.accepted_sent, h.wire_sent, ?_, ?_⟩
  · intro x hx
    refine Or.inl ?_
    rcases h.settled x hx with hx' | ⟨haw, hx2⟩
    · exact hx'
    · have h0 := (hold x.1).1 haw
      have hxe : x = (0, s.outstanding 0) := Prod.ext h0 (by rw [hx2, h0])
      rw [hxe]
      exact hacc
  · intro i
    refine Or.inr ⟨fun hc => hc.1, ?_⟩
    rw [Sys.readFin_toClient]
    by_cases hi : i = 0
    · rw [hi, Function.update_self, has]
    · rw [Function.update_of_ne hi]
      rcases h.acks i with ⟨haw, _⟩ | ⟨_, hq'⟩
      · exact absurd ((hold i).1 haw) hi
      · exact hq'

theorem select (h : WireInv s) (ready : List ℕ) : WireInv (s.select ready) :=
  ⟨h.accepted_sent, h.wire_sent, h.settled, h.acks⟩

theorem wire_sent_pop (h : WireInv s) {i : ℕ} {p : Packet} {ps : List Packet}
    (hq : s.toServer i = p :: ps) :
    ∀ j, ∀ q ∈ Function.update s.toServer i ps j, (j, q) ∈ s.sent := by
  intro j q hmem
  by_cases hj : j = i
  · subst hj
    rw [Function.update_self] at hmem
    exact h.wire_sent j q (by rw [hq]; exact List.mem_cons_of_mem p hmem)
  · rw [Function.update_of_ne hj] at hmem
    exact h.wire_sent j q hmem

theorem drop (h : WireInv s) {i : ℕ} (rest : List ℕ) {p : Packet} {ps : List Packet}
    (hq : s.toServer i = p :: ps) : WireInv (s.drop i rest ps) :=
  ⟨h.accepted_sent, h.wire_sent_pop hq, h.settled, h.acks⟩

/-- A packet that is accepted for the first time is the outstanding one of its channel. -/
theorem accept (h : WireInv s) {i : ℕ} (rest : List ℕ) {p : Packet} {ps : List Packet}
    (hq : s.toServer i = p :: ps) (hnew : (i, p) ∉ s.accepted) :
    WireInv (s.accept i rest p ps) := by
  have hsent : (i, p) ∈ s.sent := h.wire_sent i p (by rw [hq]; exact List.mem_cons_self)
  obtain ⟨haw, hout⟩ := (h.settled _ hsent).resolve_left hnew
  simp only at haw hout
  refine ⟨?_, h.wire_sent_pop hq, ?_, ?_⟩
  · intro x hx
    rcases List.mem_append.1 hx with hx | hx
    · exact h.accepted_sent x hx
    · rw [List.mem_singleton.1 hx]
      exact hsent
  · intro x hx
    exact (h.settled x hx).imp_left fun hc => List.mem_append_left _ hc
  · intro j
    by_cases hj : j = i
    · subst hj
      refine Or.inl ⟨haw, ?_, ?_⟩
      · change (j, s.outstanding j) ∈ s.accepted ++ [(j, p)]
        rw [← hout]
        simp
      · rcases h.acks j with ⟨_, hacc, _⟩ | ⟨_, hnil⟩
        · rw [← hout] at hacc
          exact absurd hacc hnew
        · change push s.toClient j p.ack j = [(s.outstanding j).ack]
          rw [push_self, hnil, ← hout]
          rfl
    · have hmem : ∀ q, (j, q) ∈ s.accepted ++ [(i, p)] ↔ (j, q) ∈ s.accepted := by
        intro q
        simp [hj]
      have hout' : (s.accept i rest p ps).outstanding j = s.outstanding j := rfl
      rw [hout', Sys.accept_toClient, Sys.accept_accepted, push_of_ne _ _ hj, hmem]
      exact h.acks j

/-- Every step that accepts no packet twice keeps the wires right. -/
theorem step (h : WireInv s) (hs : SenderInv file s) {e : Event} {t : Sys}
    (honce : AcceptsOnce s e) (ht : StopWait.step s e = some t) : WireInv t := by
  cases step_cases ht with
  | send hpc => exact h.sendOn hs hpc
  | sendFin hpc => exact h.sendFin hs hpc
  | resend hpc =>
      refine h.resend (hs.in_round _ ?_)
      simp only [Sys.inRound, hpc]
      exact (hs.at_ack _ hpc).1
  | resendFin hpc => exact h.resend (hs.fin_sent (Or.inl hpc)).1
  | readAck hpc hq => exact h.readAck hs hpc hq
  | readFin hpc hq => exact h.readFin hpc hq
  | select ready => exact h.select ready
  | drop hready hq => exact h.drop _ hq
  | accept hready hq => exact h.accept _ hq (honce rfl _ (by simp [Sys.served, hready, hq]))

end WireInv

/-- The wires are right in every run that accepts no packet twice. -/
theorem wireInv_of_run {file : List Byte} {es : List Event} {s : Sys}
    (honce : Along step AcceptsOnce (Sys.init file) es)
    (h : run step (Sys.init file) es = some s) : SenderInv file s ∧ WireInv s :=
  run_invariant_along (I := fun s => SenderInv file s ∧ WireInv s)
    (fun _ _ _ hs hc ht => ⟨hs.1.step ht, hs.2.step hs.1 hc ht⟩)
    ⟨senderInv_init file, wireInv_init file⟩ honce h

/-! ### No advance without acceptance -/

/-- The step from `s` to `t` does not advance without acceptance: if it leaves the ACK-collecting
loop of a round, the server has accepted every packet of the round, and if the client returns, the
server has accepted the FIN packet. -/
def NoAdvanceWithoutAcceptance (s t : Sys) : Prop :=
  (LeavesRound s t → ∀ x ∈ roundPackets s, x ∈ s.accepted) ∧
    (s.pc ≠ .done → t.pc = .done → s.finPkt.header.isLast = 1 ∧ (0, s.finPkt) ∈ s.accepted)

/-- Leaving a round, the client waits on no channel. -/
theorem WireInv.accepted_of_leaves {file : List Byte} {s t : Sys} (h : WireInv s)
    (hs : SenderInv file s) {e : Event} (ht : StopWait.step s e = some t) (hl : LeavesRound s t) :
    ∀ x ∈ roundPackets s, x ∈ s.accepted := by
  obtain ⟨⟨k, hpc⟩, hto⟩ := hl
  intro x hx
  obtain ⟨j, hj, rfl⟩ := List.mem_map.1 hx
  have hwait : s.sender.waitsOn j = true := (List.mem_filter.1 hj).2
  have hsent : (j, s.tmp j) ∈ s.sent := hs.in_round j (by simp only [Sys.inRound, hpc, hwait])
  cases step_cases ht with
  | readAck hpc' hq =>
      have ht' := h.readAck hs hpc' hq
      refine (ht'.settled _ hsent).resolve_right ?_
      rintro ⟨haw, -⟩
      rcases hto with hto | hto <;> simp only [Sys.awaits, hto, Nat.not_lt_zero] at haw
  | send hpc' => simp [hpc] at hpc'
  | sendFin hpc' => simp [hpc] at hpc'
  | readFin hpc' => simp [hpc] at hpc'
  | resend hpc' => simp [hpc'] at hto
  | resendFin hpc' => simp [hpc] at hpc'
  | select ready => simp [hpc] at hto
  | drop hready hq => simp [hpc] at hto
  | accept hready hq => simp [hpc] at hto

theorem WireInv.accepted_of_done {file : List Byte} {s t : Sys} (h : WireInv s)
    (hs : SenderInv file s) {e : Event} (ht : StopWait.step s e = some t) (hpc : s.pc ≠ .done)
    (hd : t.pc = .done) : s.finPkt.header.isLast = 1 ∧ (0, s.finPkt) ∈ s.accepted := by
  cases step_cases ht with
  | readFin hpc' hq =>
      refine ⟨(hs.fin_sent (Or.inl hpc')).2, ?_⟩
      have hacc := (h.of_toClient hq).1
      simpa only [Sys.outstanding, hpc'] using hacc
  | @send k hpc' =>
      exact absurd (Or.inr hd) (afterSend_ne_fin _ k)
  | sendFin hpc' => simp at hd
  | @readAck k a as hpc' hq =>
      exact absurd (Or.inr hd) (SenderInv.nextAck_ne_fin _ (k + 1))
  | resend hpc' => exact absurd hd hpc
  | resendFin hpc' => exact absurd hd hpc
  | select ready => exact absurd hd hpc
  | drop hready hq => exact absurd hd hpc
  | accept hready hq => exact absurd hd hpc

/-- **No advance without acceptance.**  In every run in which the server accepts no packet twice,
the client leaves a round only after the server accepted every packet of it, and returns only after
the server accepted the FIN packet. -/
theorem noAdvance_of_acceptsOnce (file : List Byte) (es : List Event) (e : Event) (s t : Sys)
    (honce : Along step AcceptsOnce (Sys.init file) es)
    (hrun : run step (Sys.init file) es = some s) (ht : step s e = some t) :
    NoAdvanceWithoutAcceptance s t := by
  obtain ⟨hs, hw⟩ := wireInv_of_run honce hrun
  exact ⟨hw.accepted_of_leaves hs ht, hw.accepted_of_done hs ht⟩

/-- The events that send twenty bytes with one premature timeout on channel `0`: both copies of the
first packet are accepted, so two acknowledgements of it come back, and the second one is taken for
that of the packet with sequence number `15`, which the server drops. -/
def staleAckRun : List Event :=
  [.write, .write, .write, .timeout, .select, .serve false, .serve false, .serve false, .select,
    .serve false, .read, .read, .read, .write, .write, .select, .serve true, .serve false, .read]

/-- The state after `staleAckRun`, about to read the last acknowledgement of the second round. -/
def staleAckState : Sys :=
  (run step (Sys.init (List.replicate 20 65)) staleAckRun).get (by decide)

/-- The state after that acknowledgement is read. -/
def staleAckNext : Sys := (step staleAckState .read).get (by decide)

/-- A stale acknowledgement stands in for a dropped packet: the client goes on to the FIN although
the server never accepted the packet with sequence number `15`. -/
theorem not_noAdvanceWithoutAcceptance :
    ¬ ∀ (file : List Byte) (es : List Event) (e : Event) (s t : Sys),
      run step (Sys.init file) es = some s → step s e = some t →
        NoAdvanceWithoutAcceptance s t := by
  intro h
  have hno := h (List.replicate 20 65) staleAckRun .read staleAckState staleAckNext
    (Option.some_get _).symm (Option.some_get _).symm
  have hleave : LeavesRound staleAckState staleAckNext := ⟨⟨1, by decide⟩, Or.inr (by decide)⟩
  exact absurd (hno.1 hleave) (by decide)

/-- Three bytes sent with a dropped first copy and no premature timeout. -/
def dropRun : List Event :=
  [.write, .write, .select, .serve true, .serve false, .timeout, .select, .serve false, .read]

/-- The state after `dropRun`, about to read the last acknowledgement of the only round. -/
def dropState : Sys := (run step (Sys.init [1, 2, 3]) dropRun).get (by decide)

/-- The state after that acknowledgement is read. -/
def dropNext : Sys := (step dropState .read).get (by decide)

/-- The run `dropRun` accepts no packet twice and leaves its round with every packet accepted. -/
theorem noAdvance_dropRun :
    Along step AcceptsOnce (Sys.init [1, 2, 3]) dropRun ∧ LeavesRound dropState dropNext ∧
      NoAdvanceWithoutAcceptance dropState dropNext :=
  ⟨by decide, ⟨⟨1, by decide⟩, Or.inr (by decide)⟩,
    noAdvance_of_acceptsOnce [1, 2, 3] dropRun .read dropState dropNext (by decide)
      (Option.some_get _).symm (Option.some_get _).symm⟩

end StopWait
