/-
**The rounds of the N-channel stop-and-wait client when nothing is lost or late.**

Every packet is accepted and acknowledged once, on its own channel, before `poll` times out; the
channels may be served in any order, also while the client still sends.  `StopWait.step` without
timeouts and drops is the special case in which the channels are served in the order of the server.

A round is one pass of the `while` loop of `connection_loop`.  For every round it is recorded which
packets were sent and on which channels the ACK loop has waited.

Main definitions:

* `StopWait.Move`, `StopWait.move` — the moves of the client and of what answers it;
* `StopWait.Round`, `StopWait.Watched`, `StopWait.watch` — the same moves with a record of the rounds;
* `StopWait.Consecutive` — sequence numbers without gaps;
* `StopWait.Bookkeeping`, `StopWait.Finished` — what holds in every state, and in the last one.

Main results:

* `StopWait.watch_cases` — what each move requires and what it does;
* `StopWait.ledger_of_run` — the invariants of all runs;
* `StopWait.length_run_le` — a run ends after a bounded number of moves;
* `StopWait.exists_move` — the client is never stuck;
* `StopWait.rounds_bookkeeping` — **the bookkeeping at the end of the file**;
* `StopWait.exists_watched` — the runs of the protocol without timeouts and drops are among these.
-/

import NetworkProgramming.StopWaitDelivery

set_option relaxedAutoImplicit false
set_option autoImplicit false

namespace StopWait

open Runs

/-! ### The moves -/

/-- The moves when nothing is lost or late. -/
inductive Move
  /-- The client writes the next packet of the round, or the FIN. -/
  | write
  /-- `poll` succeeds and the client reads an acknowledgement. -/
  | read
  /-- The next packet on channel `i` is accepted and acknowledged. -/
  | accept (i : ℕ)
  deriving DecidableEq

/-- The packet at the head of channel `i` is accepted and acknowledged. -/
def promptAccept (s : Sys) (i : ℕ) : Option Sys :=
  match s.toServer i with
  | [] => none
  | p :: ps => some (s.accept i s.ready p ps)

/-- One move. -/
def move (s : Sys) : Move → Option Sys
  | .write => clientWrite s
  | .read => clientRead s
  | .accept i => promptAccept s i

/-! ### The record of the rounds -/

/-- A pass of the `while` loop: the packets that it sends, with their channels, and the channels on
which its ACK loop waits, in their order. -/
structure Round where
  sent : List (ℕ × Packet)
  polled : List ℕ

/-- The channels on which a round sends. -/
def Round.channels (r : Round) : List ℕ := r.sent.map Prod.fst

/-- The state, the rounds that are over, and the one that goes on. -/
structure Watched where
  sys : Sys
  ended : List Round
  current : Round

def Watched.init (file : List Byte) : Watched := ⟨Sys.init file, [], ⟨[], []⟩⟩

/-- All rounds, the oldest first. -/
def Watched.rounds (w : Watched) : List Round := w.ended ++ [w.current]

/-- Iteration `i` of the sending loop. -/
def Watched.sendOn (w : Watched) (i : ℕ) : Watched :=
  { w with
    sys := w.sys.sendOn i
    current := { w.current with sent := w.current.sent ++ [(i, (sendPacket w.sys.sender i).1)] } }

/-- Iteration `i` of the ACK loop.  Behind the last one another round begins, unless `is_eof` is
set. -/
def Watched.readAck (w : Watched) (i : ℕ) (a : Packet) (as : List Packet) : Watched :=
  let c := noteAck w.sys.sender a
  let current : Round := { w.current with polled := w.current.polled ++ [i] }
  if c.waitsOn (i + 1) || c.isEof then ⟨w.sys.readAck i a as, w.ended, current⟩
  else ⟨w.sys.readAck i a as, w.ended ++ [current], ⟨[], []⟩⟩

/-- **One move with a record of the rounds.** -/
def watch (w : Watched) : Move → Option Watched
  | .write =>
      match w.sys.pc with
      | .send i => some (w.sendOn i)
      | .sendFin => some { w with sys := w.sys.sendFin }
      | _ => none
  | .read =>
      match w.sys.pc with
      | .ack i =>
          match w.sys.toClient i with
          | [] => none
          | a :: as => some (w.readAck i a as)
      | .fin =>
          match w.sys.toClient 0 with
          | [] => none
          | _ :: as => some { w with sys := w.sys.readFin as }
      | _ => none
  | .accept i => (promptAccept w.sys i).map fun s => { w with sys := s }

@[simp] theorem sendOn_sys (w : Watched) (i : ℕ) : (w.sendOn i).sys = w.sys.sendOn i := rfl

theorem readAck_sys (w : Watched) (i : ℕ) (a : Packet) (as : List Packet) :
    (w.readAck i a as).sys = w.sys.readAck i a as := by
  simp only [Watched.readAck]
  split <;> rfl

theorem readAck_of_not_ends {w : Watched} {i : ℕ} {a : Packet} {as : List Packet}
    (h : (noteAck w.sys.sender a).waitsOn (i + 1) = true ∨ (noteAck w.sys.sender a).isEof = true) :
    w.readAck i a as =
      ⟨w.sys.readAck i a as, w.ended, ⟨w.current.sent, w.current.polled ++ [i]⟩⟩ := by
  rw [Watched.readAck, if_pos (by simpa using h)]

/-- The end of the ACK loop ends the round. -/
theorem readAck_of_ends {w : Watched} {i : ℕ} {a : Packet} {as : List Packet}
    (hwait : (noteAck w.sys.sender a).waitsOn (i + 1) = false)
    (heof : (noteAck w.sys.sender a).isEof = false) :
    w.readAck i a as =
      ⟨w.sys.readAck i a as, w.ended ++ [⟨w.current.sent, w.current.polled ++ [i]⟩], ⟨[], []⟩⟩ := by
  rw [Watched.readAck, if_neg (by simp [hwait, heof])]

/-- The record does not change the moves. -/
theorem watch_sys (w : Watched) (m : Move) : (watch w m).map Watched.sys = move w.sys m := by
  cases m with
  | write => cases hpc : w.sys.pc <;> simp [watch, move, clientWrite, hpc]
  | read =>
      cases hpc : w.sys.pc with
      | ack i => cases hq : w.sys.toClient i <;> simp [watch, move, clientRead, hpc, hq, readAck_sys]
      | fin => cases hq : w.sys.toClient 0 <;> simp [watch, move, clientRead, hpc, hq]
      | send i => simp [watch, move, clientRead, hpc]
      | sendFin => simp [watch, move, clientRead, hpc]
      | done => simp [watch, move, clientRead, hpc]
  | accept i => simp [watch, move, Function.comp_def]

/-- The moves, each with what it requires and what it leads to. -/
inductive WatchStep (w : Watched) : Move → Watched → Prop
  | send {i : ℕ} (hpc : w.sys.pc = .send i) : WatchStep w .write (w.sendOn i)
  | sendFin (hpc : w.sys.pc = .sendFin) : WatchStep w .write { w with sys := w.sys.sendFin }
  | readAck {i : ℕ} {a : Packet} {as : List Packet} (hpc : w.sys.pc = .ack i)
      (hq : w.sys.toClient i = a :: as) : WatchStep w .read (w.readAck i a as)
  | readFin {a : Packet} {as : List Packet} (hpc : w.sys.pc = .fin)
      (hq : w.sys.toClient 0 = a :: as) : WatchStep w .read { w with sys := w.sys.readFin as }
  | accept {i : ℕ} {p : Packet} {ps : List Packet} (hq : w.sys.toServer i = p :: ps) :
      WatchStep w (.accept i) { w with sys := w.sys.accept i w.sys.ready p ps }

/-- **Inversion of a move.** -/
theorem watch_cases {w v : Watched} {m : Move} (h : watch w m = some v) : WatchStep w m v := by
  cases m with
  | write =>
      simp only [watch] at h
      split at h
      · obtain rfl := Option.some_inj.1 h
        exact .send ‹_›
      · obtain rfl := Option.some_inj.1 h
        exact .sendFin ‹_›
      · cases h
  | read =>
      simp only [watch] at h
      split at h
      · split at h
        · cases h
        · obtain rfl := Option.some_inj.1 h
          exact .readAck ‹_› ‹_›
      · split at h
        · cases h
        · obtain rfl := Option.some_inj.1 h
          exact .readFin ‹_› ‹_›
      · cases h
  | accept i =>
      simp only [watch, promptAccept] at h
      split at h
      · cases h
      · obtain rfl := Option.some_inj.1 h
        exact .accept ‹_›

/-! ### Nothing is lost -/

/-- Every packet that was sent was accepted or is on its way. -/
def Kept (s : Sys) : Prop := ∀ x ∈ s.sent, x ∈ s.accepted ∨ x.2 ∈ s.toServer x.1

theorem Kept.push {s t : Sys} (h : Kept s) {i : ℕ} {p : Packet}
    (hserver : t.toServer = StopWait.push s.toServer i p) (haccepted : t.accepted = s.accepted)
    (hsent : t.sent = s.sent ++ [(i, p)]) : Kept t := by
  intro x hx
  rw [hserver, haccepted]
  rw [hsent] at hx
  rcases List.mem_append.1 hx with hx | hx
  · exact (h x hx).imp_right mem_push_of_mem
  · obtain rfl := List.mem_singleton.1 hx
    exact Or.inr (by simp)

/-- What all states of these runs have in common. -/
structure PromptInv (file : List Byte) (s : Sys) : Prop where
  sender : SenderInv file s
  wire : WireInv s
  queue : QueueInv s
  kept : Kept s
  accepted_nodup : s.accepted.Nodup

theorem promptInv_init (file : List Byte) : PromptInv file (Sys.init file) where
  sender := senderInv_init file
  wire := wireInv_init file
  queue := queueInv_init file
  kept _ hx := absurd hx List.not_mem_nil
  accepted_nodup := List.nodup_nil

theorem PromptInv.accept {file : List Byte} {s : Sys} (h : PromptInv file s) {i : ℕ} {p : Packet}
    {ps : List Packet} (hq : s.toServer i = p :: ps) :
    PromptInv file (s.accept i s.ready p ps) := by
  obtain ⟨hnew, rfl⟩ := h.queue.of_cons hq
  refine ⟨h.sender.accept i _ p _, h.wire.accept _ hq hnew, h.queue.accept _ hq, ?_, ?_⟩
  · intro x hx
    rw [Sys.accept_accepted, Sys.accept_toServer]
    rcases h.kept x hx with hacc | hmem
    · exact Or.inl (List.mem_append_left _ hacc)
    · by_cases hi : x.1 = i
      · rw [hi, hq] at hmem
        have hx' : x = (i, p) := Prod.ext hi (List.mem_singleton.1 hmem)
        exact Or.inl (by simp [hx'])
      · rw [Function.update_of_ne hi]
        exact Or.inr hmem
  · rw [Sys.accept_accepted, List.nodup_append]
    refine ⟨h.accepted_nodup, List.nodup_singleton _, ?_⟩
    rintro x hx y hy rfl
    exact hnew (List.mem_singleton.1 hy ▸ hx)

/-- Every move keeps the invariants of the protocol. -/
theorem PromptInv.watch {file : List Byte} {w v : Watched} {m : Move} (h : PromptInv file w.sys)
    (hm : StopWait.watch w m = some v) : PromptInv file v.sys := by
  cases watch_cases hm with
  | send hpc =>
      exact ⟨h.sender.sendOn hpc, h.wire.sendOn h.sender hpc, h.queue.sendOn h.sender h.wire hpc,
        h.kept.push rfl rfl rfl, h.accepted_nodup⟩
  | sendFin hpc =>
      exact ⟨h.sender.sendFin hpc, h.wire.sendFin h.sender hpc,
        h.queue.sendFin h.sender h.wire hpc, h.kept.push rfl rfl rfl, h.accepted_nodup⟩
  | readAck hpc hq =>
      rw [readAck_sys]
      exact ⟨h.sender.readAck hpc _ _, h.wire.readAck h.sender hpc hq,
        h.queue.readAck h.sender h.wire hpc hq, h.kept, h.accepted_nodup⟩
  | readFin hpc hq =>
      exact ⟨h.sender.readFin hpc _, h.wire.readFin hpc hq, h.queue.readFin h.wire hpc hq, h.kept,
        h.accepted_nodup⟩
  | accept hq => exact h.accept hq

/-! ### Sequence numbers -/

/-- The sequence numbers begin with `n`, each is the one before plus the size before, and `m` comes
next. -/
def Consecutive : ℕ → List Packet → ℕ → Prop
  | n, [], m => n = m
  | n, p :: ps, m => p.header.seqNo = n ∧ Consecutive (n + p.header.size) ps m

theorem Consecutive.append {n m : ℕ} {ps : List Packet} {p : Packet} (h : Consecutive n ps m)
    (hp : p.header.seqNo = m) : Consecutive n (ps ++ [p]) (m + p.header.size) := by
  induction ps generalizing n with
  | nil =>
      obtain rfl : n = m := h
      exact ⟨hp, rfl⟩
  | cons q ps ih => exact ⟨h.1, ih h.2⟩

/-- The numbers of the packets, the number recorded at the end of the file, and the FIN packet. -/
structure Numbered (s : Sys) : Prop where
  consecutive : Consecutive 0 (s.sent.map Prod.snd) s.sender.seqNo
  eof : ∀ e, s.sender.eofSeqNo = some e →
    (dataSent s).getLast?.map (fun p => p.header.seqNo) = some e
  fins : s.pc = .fin ∨ s.pc = .done → (s.sent.filter fun x => x.2.header.isLast == 1).length = 1

theorem numbered_init (file : List Byte) : Numbered (Sys.init file) where
  consecutive := rfl
  eof e he := nomatch he
  fins h := by rcases h with h | h <;> cases h

theorem noteAck_seqNo (c : Sender) (a : Packet) : (noteAck c a).seqNo = c.seqNo := by
  unfold noteAck
  split <;> rfl

theorem Numbered.sendOn {file : List Byte} {s : Sys} (h : Numbered s) (hs : SenderInv file s) {k : ℕ}
    (hpc : s.pc = .send k) : Numbered (s.sendOn k) := by
  refine ⟨?_, ?_, ?_⟩
  · rw [Sys.sendOn_sent, List.map_append]
    exact h.consecutive.append (sendPacket_seqNo s.sender k)
  · intro e he
    rw [SenderInv.dataSent_sendOn, List.getLast?_append, List.getLast?_singleton, Option.some_or,
      Option.map_some, hs.eofSeqNo_sendPacket hpc he]
  · intro hpc'
    exact absurd hpc' (afterSend_ne_fin _ k)

theorem filter_fin_eq_nil {file : List Byte} {s : Sys} (h : SenderInv file s)
    (hpc : ¬ (s.pc = .fin ∨ s.pc = .done)) :
    (s.sent.filter fun x => x.2.header.isLast == 1) = [] := by
  rw [List.filter_eq_nil_iff]
  intro x hx hlast
  exact hpc (h.last_fin x hx (by simpa using hlast))

theorem Numbered.sendFin {file : List Byte} {s : Sys} (h : Numbered s) (hs : SenderInv file s)
    (hpc : s.pc = .sendFin) : Numbered s.sendFin := by
  refine ⟨?_, ?_, ?_⟩
  · rw [Sys.sendFin_sent, List.map_append]
    exact h.consecutive.append rfl
  · intro e he
    have hdata : dataSent s.sendFin = dataSent s := by
      simp [dataSent, List.filter_append, finPacket]
    rw [hdata]
    exact h.eof e he
  · intro _
    rw [Sys.sendFin_sent, List.filter_append, filter_fin_eq_nil hs (by simp [hpc])]
    rfl

theorem Numbered.readAck {s : Sys} (h : Numbered s) (k : ℕ) (a : Packet) (as : List Packet) :
    Numbered (s.readAck k a as) := by
  refine ⟨?_, ?_, ?_⟩
  · rw [Sys.readAck_sender, noteAck_seqNo]
    exact h.consecutive
  · intro e he
    rw [Sys.readAck_sender, (SenderInv.noteAck_fields s.sender a).2.1] at he
    exact h.eof e he
  · intro hpc'
    exact absurd hpc' (SenderInv.nextAck_ne_fin _ (k + 1))

theorem Numbered.watch {file : List Byte} {w v : Watched} {m : Move} (h : Numbered w.sys)
    (hs : PromptInv file w.sys) (hm : StopWait.watch w m = some v) : Numbered v.sys := by
  cases watch_cases hm with
  | send hpc => exact h.sendOn hs.sender hpc
  | sendFin hpc => exact h.sendFin hs.sender hpc
  | readAck hpc hq =>
      rw [readAck_sys]
      exact h.readAck _ _ _
  | readFin hpc hq => exact ⟨h.consecutive, h.eof, fun _ => h.fins (Or.inl hpc)⟩
  | accept hq => exact ⟨h.consecutive, h.eof, h.fins⟩

/-! ### The rounds -/

/-- What a round takes from the file. -/
def roundSize : ℕ := numChannels * packetSize

/-- The sender has taken `taken` bytes from the file, or it has come to the end of it in the round
after `n` full ones. -/
def Consumed (file : List Byte) (c : Sender) (taken n : ℕ) : Prop :=
  (c.eofSeqNo = none → file.length = taken + c.fp.length) ∧
    (c.eofSeqNo ≠ none → n = file.length / roundSize)

theorem Consumed.sendPacket {file : List Byte} {c : Sender} {n k : ℕ} (hc : c.Wf)
    (hk : k < numChannels) (h : Consumed file c (n * roundSize + k * packetSize) n) :
    Consumed file (StopWait.sendPacket c k).2 (n * roundSize + (k + 1) * packetSize) n := by
  rcases sendPacket_cases c k with ⟨hfull, -, -, hfp, heof⟩ | ⟨hshort, -, -, -, heof⟩
  · rw [Consumed, heof hc.isEof, hfp, List.length_drop]
    refine ⟨?_, h.2⟩
    intro hnone
    have hlen := h.1 hnone
    simp only [packetSize] at hfull hlen ⊢
    omega
  · rw [Consumed, heof]
    refine ⟨(fun hnone => absurd hnone (Option.some_ne_none _)), ?_⟩
    intro _
    by_cases hnone : c.eofSeqNo = none
    · have hlen := h.1 hnone
      simp only [roundSize, numChannels, packetSize] at hk hshort hlen ⊢
      omega
    · exact h.2 hnone

theorem Consumed.noteAck {file : List Byte} {c : Sender} {taken n : ℕ} (a : Packet)
    (h : Consumed file c taken n) : Consumed file (StopWait.noteAck c a) taken n := by
  obtain ⟨hfp, heof, -⟩ := SenderInv.noteAck_fields c a
  rwa [Consumed, hfp, heof]

/-- The ACK loop of a round has waited on exactly the channels on which the round has sent. -/
structure Round.Complete (r : Round) : Prop where
  polled : r.polled = r.channels
  few : r.channels.length ≤ numChannels

/-- Where the client is in the round `r`, which comes after `n` others. -/
def InRound (file : List Byte) (s : Sys) (r : Round) (n : ℕ) : Prop :=
  match s.pc with
  | .send k => r.channels = List.range k ∧ r.polled = [] ∧
      Consumed file s.sender (n * roundSize + k * packetSize) n
  | .ack k => r.channels = List.range (s.sender.lastChannel + 1) ∧ r.polled = List.range k ∧
      Consumed file s.sender ((n + 1) * roundSize) n
  | _ => r.Complete ∧ n = file.length / roundSize ∧ s.sender.eofSeqNo ≠ none

/-- **The record of the rounds is right.** -/
structure Ledger (file : List Byte) (w : Watched) : Prop where
  sent : w.rounds.flatMap Round.sent = w.sys.sent.filter fun x => x.2.header.isLast != 1
  ended : ∀ r ∈ w.ended, r.Complete
  current : InRound file w.sys w.current w.ended.length

theorem ledger_init (file : List Byte) : Ledger file (Watched.init file) where
  sent := rfl
  ended r hr := absurd hr List.not_mem_nil
  current := by
    refine ⟨rfl, rfl, ?_, fun hne => absurd rfl hne⟩
    intro _
    simp [Watched.init, Sys.init, Sender.init]

theorem lastChannel_lt {file : List Byte} {s : Sys} (h : SenderInv file s) :
    s.sender.lastChannel < numChannels := by
  unfold Sender.lastChannel
  cases hl : s.sender.lastPacket with
  | none => decide
  | some l => exact h.last_lt l hl

namespace Ledger

variable {file : List Byte} {w : Watched}

theorem sendOn (h : Ledger file w) (hs : SenderInv file w.sys) {k : ℕ} (hpc : w.sys.pc = .send k) :
    Ledger file (w.sendOn k) := by
  have hcur := h.current
  simp only [InRound, hpc] at hcur
  obtain ⟨hchannels, hpolled, hconsumed⟩ := hcur
  have hk := (hs.at_send k hpc).1
  have hnext := hconsumed.sendPacket (hs.wf hpc) hk
  have hchannels' : (w.sendOn k).current.channels = List.range (k + 1) := by
    rw [List.range_succ, ← hchannels]
    simp [Round.channels, Watched.sendOn]
  refine ⟨?_, h.ended, ?_⟩
  · have hrounds : (w.sendOn k).rounds.flatMap Round.sent =
        w.rounds.flatMap Round.sent ++ [(k, (sendPacket w.sys.sender k).1)] := by
      simp [Watched.rounds, Watched.sendOn]
    rw [hrounds, h.sent, sendOn_sys, Sys.sendOn_sent, List.filter_append]
    simp [List.filter_singleton, sendPacket_isLast]
  · rcases afterSend_cases (sendPacket w.sys.sender k).1 k with ⟨hp, -⟩ | ⟨hp, hend⟩
    · simp only [InRound, sendOn_sys, Sys.sendOn_pc, hp]
      exact ⟨hchannels', hpolled, hnext⟩
    · have hlast := (hs.waitsOn_sendOn hpc hend).1
      simp only [InRound, sendOn_sys, Sys.sendOn_pc, hp, Sys.sendOn_sender, hlast]
      refine ⟨hchannels', hpolled, ?_⟩
      rcases hend with hz | hk'
      · -- an empty packet: the file is at its end
        have hne := eofSeqNo_of_size_eq_zero w.sys.sender k hz
        exact ⟨fun hnone => absurd hnone hne, hnext.2⟩
      · have hfull : k + 1 = numChannels := by omega
        rw [hfull] at hnext
        rw [Nat.succ_mul]
        exact hnext

/-- The round in which the client has waited for its last acknowledgement is complete. -/
theorem complete_readAck (h : Ledger file w) (hs : SenderInv file w.sys) {k : ℕ}
    (hpc : w.sys.pc = .ack k) (hend : w.sys.sender.waitsOn (k + 1) = false) :
    (⟨w.current.sent, w.current.polled ++ [k]⟩ : Round).Complete := by
  have hcur := h.current
  simp only [InRound, hpc] at hcur
  obtain ⟨hchannels, hpolled, -⟩ := hcur
  have hk : k = w.sys.sender.lastChannel := hs.eq_lastChannel (hs.at_ack k hpc).1 hend
  have hpolled' : w.current.polled ++ [k] = List.range (k + 1) := by
    rw [hpolled, List.range_succ]
  have hlt := lastChannel_lt hs
  have hlen := congrArg List.length hchannels
  refine ⟨hpolled'.trans (hk ▸ hchannels.symm), ?_⟩
  simp only [Round.channels, List.length_map, List.length_range] at hlen ⊢
  omega

/-- The ACK loop goes on to the next channel, or it ends the round: then the FIN comes, or another
round. -/
theorem readAck (h : Ledger file w) (hs : PromptInv file w.sys) {k : ℕ} (hpc : w.sys.pc = .ack k)
    {a : Packet} {as : List Packet} (hq : w.sys.toClient k = a :: as) :
    Ledger file (w.readAck k a as) := by
  have hcur := h.current
  simp only [InRound, hpc] at hcur
  obtain ⟨hchannels, hpolled, hconsumed⟩ := hcur
  obtain ⟨-, heof, hlast, -⟩ := SenderInv.noteAck_fields w.sys.sender a
  rcases SenderInv.nextAck_cases (noteAck w.sys.sender a) (k + 1) with
    ⟨hp, hwait⟩ | ⟨hwait, hnext⟩
  · have hchannel : (noteAck w.sys.sender a).lastChannel = w.sys.sender.lastChannel := by
      rw [Sender.lastChannel, hlast, Sender.lastChannel]
    rw [readAck_of_not_ends (Or.inl hwait)]
    refine ⟨by simpa [Watched.rounds] using h.sent, h.ended, ?_⟩
    simp only [InRound, Sys.readAck_pc, hp, Sys.readAck_sender, hchannel]
    refine ⟨hchannels, ?_, hconsumed.noteAck a⟩
    rw [hpolled, List.range_succ]
  · have hend : w.sys.sender.waitsOn (k + 1) = false := by
      rwa [SenderInv.waitsOn_noteAck] at hwait
    have hcomplete := h.complete_readAck hs.sender hpc hend
    rcases hnext with ⟨hp, hE⟩ | ⟨hp, hE, hnone⟩ | ⟨-, hE, hne⟩
    · have hne : w.sys.sender.eofSeqNo ≠ none := hs.sender.isEof_noteAck_ne hE
      rw [readAck_of_not_ends (Or.inr hE)]
      refine ⟨by simpa [Watched.rounds] using h.sent, h.ended, ?_⟩
      simp only [InRound, Sys.readAck_pc, hp]
      exact ⟨hcomplete, hconsumed.2 hne, heof ▸ hne⟩
    · rw [readAck_of_ends hwait hE]
      refine ⟨by simpa [Watched.rounds] using h.sent, ?_, ?_⟩
      · rw [List.forall_mem_append, List.forall_mem_singleton]
        exact ⟨h.ended, hcomplete⟩
      · simp only [InRound, Sys.readAck_pc, hp, Sys.readAck_sender, List.length_append,
          List.length_singleton, Nat.zero_mul, Nat.add_zero]
        exact ⟨rfl, trivial, (hconsumed.noteAck a).1, fun hne => absurd hnone hne⟩
    · -- nothing is late, so the acknowledgement of the last data packet has set `is_eof`
      rw [heof] at hne
      rw [hs.wire.isEof_noteAck hs.sender hpc hq hend hne] at hE
      cases hE

theorem watch (h : Ledger file w) (hs : PromptInv file w.sys) {v : Watched} {m : Move}
    (hm : StopWait.watch w m = some v) : Ledger file v := by
  have hcur := h.current
  cases watch_cases hm with
  | send hpc => exact h.sendOn hs.sender hpc
  | sendFin hpc =>
      refine ⟨?_, h.ended, ?_⟩
      · rw [Sys.sendFin_sent, List.filter_append]
        have hfin : [(0, finPacket w.sys.sender)].filter (fun x => x.2.header.isLast != 1) = [] := rfl
        rw [hfin, List.append_nil]
        exact h.sent
      · simp only [InRound, hpc] at hcur
        exact hcur
  | readAck hpc hq => exact h.readAck hs hpc hq
  | readFin hpc hq =>
      refine ⟨h.sent, h.ended, ?_⟩
      simp only [InRound, hpc] at hcur
      exact hcur
  | accept hq => exact ⟨h.sent, h.ended, h.current⟩

end Ledger

/-- **The invariants of all runs.** -/
theorem ledger_of_run {file : List Byte} {ms : List Move} {w : Watched}
    (h : run watch (Watched.init file) ms = some w) :
    PromptInv file w.sys ∧ Numbered w.sys ∧ Ledger file w := by
  refine run_invariant (I := fun w => PromptInv file w.sys ∧ Numbered w.sys ∧ Ledger file w) ?_
    ⟨promptInv_init file, numbered_init file, ledger_init file⟩ h
  rintro w m v ⟨hs, hn, hl⟩ hm
  exact ⟨hs.watch hm, hn.watch hs hm, hl.watch hs hm⟩

/-! ### The end of a run -/

/-- **The client is never stuck**: until it returns it can send, or read, or the packet whose
acknowledgement it waits for can be accepted. -/
theorem exists_move {file : List Byte} {w : Watched} (h : PromptInv file w.sys)
    (hpc : w.sys.pc ≠ .done) : ∃ m v, watch w m = some v := by
  -- a packet that the client waits for is acknowledged, or on its way to the server
  have hwait : ∀ i, w.sys.awaits i → (i, w.sys.outstanding i) ∈ w.sys.sent →
      (∃ a as, w.sys.toClient i = a :: as) ∨ ∃ p ps, w.sys.toServer i = p :: ps := by
    intro i haw hsent
    rcases h.kept _ hsent with hacc | hmem
    · rcases h.wire.acks i with ⟨-, -, hq⟩ | ⟨hno, -⟩
      · exact Or.inl ⟨_, _, hq⟩
      · exact absurd ⟨haw, hacc⟩ hno
    · exact Or.inr (List.exists_cons_of_ne_nil (List.ne_nil_of_mem hmem))
  cases hcase : w.sys.pc with
  | send i => exact ⟨.write, w.sendOn i, by simp [watch, hcase]⟩
  | sendFin => exact ⟨.write, { w with sys := w.sys.sendFin }, by simp only [watch, hcase]⟩
  | done => exact absurd hcase hpc
  | ack i =>
      have haw : w.sys.awaits i := by
        simp only [Sys.awaits, hcase]
        exact ⟨le_rfl, (h.sender.at_ack i hcase).1⟩
      have hsent : (i, w.sys.outstanding i) ∈ w.sys.sent := by
        simp only [Sys.outstanding, hcase]
        refine h.sender.in_round i ?_
        simp only [Sys.inRound, hcase]
        exact (h.sender.at_ack i hcase).1
      rcases hwait i haw hsent with ⟨a, as, hq⟩ | ⟨p, ps, hq⟩
      · exact ⟨.read, w.readAck i a as, by simp only [watch, hcase, hq]⟩
      · exact ⟨.accept i, { w with sys := w.sys.accept i w.sys.ready p ps },
          by simp only [watch, promptAccept, hq, Option.map_some]⟩
  | fin =>
      have haw : w.sys.awaits 0 := by simp only [Sys.awaits, hcase]
      have hsent : (0, w.sys.outstanding 0) ∈ w.sys.sent := by
        simp only [Sys.outstanding, hcase]
        exact (h.sender.fin_sent (Or.inl hcase)).1
      rcases hwait 0 haw hsent with ⟨a, as, hq⟩ | ⟨p, ps, hq⟩
      · exact ⟨.read, { w with sys := w.sys.readFin as }, by simp only [watch, hcase, hq]⟩
      · exact ⟨.accept 0, { w with sys := w.sys.accept 0 w.sys.ready p ps },
          by simp only [watch, promptAccept, hq, Option.map_some]⟩

/-- The packets sent, the packets accepted and the acknowledgements read so far. -/
def moveCount (w : Watched) : ℕ :=
  w.sys.sent.length + w.sys.accepted.length + (w.rounds.flatMap Round.polled).length +
    if w.sys.pc = .done then 1 else 0

/-- Every move sends a packet, accepts one or reads an acknowledgement. -/
theorem moveCount_watch {w v : Watched} {m : Move} (h : watch w m = some v) :
    moveCount v = moveCount w + 1 := by
  cases watch_cases h with
  | @send i hpc =>
      have hdone : afterSend (sendPacket w.sys.sender i).1 i ≠ .done :=
        fun hd => afterSend_ne_fin _ i (Or.inr hd)
      have hpolled : (w.sendOn i).rounds.flatMap Round.polled = w.rounds.flatMap Round.polled := by
        simp [Watched.rounds, Watched.sendOn]
      rw [moveCount, hpolled]
      simp [moveCount, hpc, hdone]
      omega
  | sendFin hpc =>
      simp [moveCount, hpc, Watched.rounds]
      omega
  | @readAck i a as hpc hq =>
      have hdone : nextAck (noteAck w.sys.sender a) (i + 1) ≠ .done :=
        fun hd => SenderInv.nextAck_ne_fin _ (i + 1) (Or.inr hd)
      have hpolled : (w.readAck i a as).rounds.flatMap Round.polled =
          w.rounds.flatMap Round.polled ++ [i] := by
        simp only [Watched.readAck]
        split <;> simp [Watched.rounds]
      rw [moveCount, hpolled, readAck_sys]
      simp [moveCount, hpc, hdone]
      omega
  | readFin hpc hq => simp [moveCount, hpc, Watched.rounds]
  | accept hq =>
      simp [moveCount, Watched.rounds]
      omega

theorem moveCount_of_run {file : List Byte} {ms : List Move} {w : Watched}
    (h : run watch (Watched.init file) ms = some w) : moveCount w = ms.length := by
  have hcount := count_of_run (I := fun _ => True) (f := moveCount)
    (fun s m t _ hm => ⟨trivial, moveCount_watch hm⟩) trivial h
  rw [hcount]
  simp [moveCount, Watched.init, Watched.rounds, Sys.init]

namespace Ledger

variable {file : List Byte} {w : Watched}

/-- No round sends more packets than there are channels, or waits more often. -/
theorem few (h : Ledger file w) (hs : SenderInv file w.sys) :
    ∀ r ∈ w.rounds, r.sent.length ≤ numChannels ∧ r.polled.length ≤ numChannels := by
  have hcomplete : ∀ r : Round, r.Complete →
      r.sent.length ≤ numChannels ∧ r.polled.length ≤ numChannels := by
    intro r hr
    have hlen := hr.few
    have hchannels : r.channels.length = r.sent.length := List.length_map ..
    exact ⟨by omega, by rw [hr.polled]; exact hlen⟩
  rw [Watched.rounds, List.forall_mem_append, List.forall_mem_singleton]
  refine ⟨fun r hr => hcomplete r (h.ended r hr), ?_⟩
  have hcur := h.current
  have hchannels : w.current.channels.length = w.current.sent.length := List.length_map ..
  unfold InRound at hcur
  split at hcur
  · rename_i k hpc
    have hk := (hs.at_send k hpc).1
    rw [hcur.1, List.length_range] at hchannels
    rw [hcur.2.1]
    exact ⟨by omega, Nat.zero_le _⟩
  · rename_i k hpc
    have hk := ((waitsOn_iff _ _).1 (hs.at_ack k hpc).1).1
    have hlast := lastChannel_lt hs
    rw [hcur.1, List.length_range] at hchannels
    rw [hcur.2.1, List.length_range]
    exact ⟨by omega, hk.le⟩
  · exact hcomplete _ hcur.1

/-- No more rounds are over than the file has room for. -/
theorem length_ended_le (h : Ledger file w) : w.ended.length ≤ file.length / roundSize := by
  have hcur := h.current
  have hconsumed : ∀ taken, w.ended.length * roundSize ≤ taken →
      Consumed file w.sys.sender taken w.ended.length →
      w.ended.length ≤ file.length / roundSize := by
    intro taken hle hc
    by_cases hnone : w.sys.sender.eofSeqNo = none
    · rw [Nat.le_div_iff_mul_le (by decide)]
      have hlen := hc.1 hnone
      omega
    · exact (hc.2 hnone).le
  unfold InRound at hcur
  split at hcur
  · exact hconsumed _ (Nat.le_add_right _ _) hcur.2.2
  · exact hconsumed _ (Nat.mul_le_mul_right _ (Nat.le_succ _)) hcur.2.2
  · exact hcur.2.1.le

/-- The packets sent are those of the rounds and the FIN packet. -/
theorem length_sent_le (h : Ledger file w) (hs : SenderInv file w.sys) (hn : Numbered w.sys) :
    w.sys.sent.length ≤ (w.rounds.flatMap Round.channels).length + 1 := by
  have hchannels : w.rounds.flatMap Round.channels = (w.rounds.flatMap Round.sent).map Prod.fst := by
    rw [List.map_flatMap]
    rfl
  have hfin : (w.sys.sent.filter fun x => x.2.header.isLast == 1).length ≤ 1 := by
    by_cases hpc : w.sys.pc = .fin ∨ w.sys.pc = .done
    · exact (hn.fins hpc).le
    · rw [filter_fin_eq_nil hs hpc]
      exact Nat.zero_le 1
  have hsplit := List.length_eq_length_filter_add (l := w.sys.sent)
    fun x => x.2.header.isLast == 1
  have hdata : (w.sys.sent.filter fun x => !(x.2.header.isLast == 1)) =
      w.rounds.flatMap Round.sent := h.sent.symm
  rw [hchannels, List.length_map, ← hdata]
  omega

end Ledger

theorem length_flatMap_le {r : List Round} {f : Round → List ℕ} {n : ℕ}
    (h : ∀ x ∈ r, (f x).length ≤ n) : (r.flatMap f).length ≤ r.length * n := by
  rw [List.length_flatMap]
  simpa using List.sum_le_card_nsmul (r.map fun x => (f x).length) n (by simpa using h)

/-- **A run ends** after so many moves. -/
theorem length_run_le {file : List Byte} {ms : List Move} {w : Watched}
    (h : run watch (Watched.init file) ms = some w) :
    ms.length ≤ 3 * (numChannels * (file.length / roundSize + 1) + 1) := by
  obtain ⟨hs, hn, hl⟩ := ledger_of_run h
  have hfew := hl.few hs.sender
  have hrounds : w.rounds.length ≤ file.length / roundSize + 1 := by
    rw [Watched.rounds, List.length_append, List.length_singleton]
    exact Nat.succ_le_succ hl.length_ended_le
  have hpolled := length_flatMap_le fun r hr => (hfew r hr).2
  have hdata := length_flatMap_le (f := Round.channels) fun r hr => by
    simpa [Round.channels] using (hfew r hr).1
  have hmul := Nat.mul_le_mul_right numChannels hrounds
  have hsent := hl.length_sent_le hs.sender hn
  have haccepted : w.sys.accepted.length ≤ w.sys.sent.length :=
    (hs.accepted_nodup.subperm fun x hx => hs.wire.accepted_sent x hx).length_le
  rw [← moveCount_of_run h, moveCount]
  split <;> simp only [numChannels] at hmul hpolled hdata ⊢ <;> omega

/-- **What holds in every state.**  The ACK loop of every round waits on exactly the channels on which
the round has sent; the sequence numbers have no gaps; `eof_seq_no` is the number of the last data
packet. -/
structure Bookkeeping (w : Watched) : Prop where
  ended : ∀ r ∈ w.ended, r.polled = r.channels
  waits : ∀ k, w.sys.pc = .ack k → ∀ i, w.sys.sender.waitsOn i = true ↔ i ∈ w.current.channels
  consecutive : Consecutive 0 (w.sys.sent.map Prod.snd) w.sys.sender.seqNo
  eof : ∀ e, w.sys.sender.eofSeqNo = some e →
    (dataSent w.sys).getLast?.map (fun p => p.header.seqNo) = some e

/-- **What holds when the client has returned.**  All rounds have waited on exactly the channels on
which they have sent, there were as many as the length of the file says, `eof_seq_no` is that of the
last data packet, and one FIN packet was sent. -/
structure Finished (file : List Byte) (w : Watched) : Prop where
  rounds : ∀ r ∈ w.rounds, r.polled = r.channels
  count : w.rounds.length = file.length / (numChannels * packetSize) + 1
  eof : ∃ p, (dataSent w.sys).getLast? = some p ∧ w.sys.sender.eofSeqNo = some p.header.seqNo
  fin : (w.sys.sent.filter fun x => x.2.header.isLast == 1).length = 1
  stops : ∀ m, watch w m = none

theorem bookkeeping_of_ledger {file : List Byte} {w : Watched} (hs : SenderInv file w.sys)
    (hn : Numbered w.sys) (hl : Ledger file w) : Bookkeeping w where
  ended r hr := (hl.ended r hr).polled
  waits k hpc i := by
    have hcur := hl.current
    simp only [InRound, hpc] at hcur
    have hlt := lastChannel_lt hs
    rw [hcur.1, List.mem_range, Nat.lt_succ_iff, waitsOn_iff]
    unfold Sender.lastChannel at hlt ⊢
    cases hlast : w.sys.sender.lastPacket with
    | none =>
        simp only [reduceCtorEq, false_implies, implies_true, and_true, Option.getD_none]
        omega
    | some l =>
        rw [hlast, Option.getD_some] at hlt
        simp only [Option.some.injEq, forall_eq', Option.getD_some]
        omega
  consecutive := hn.consecutive
  eof := hn.eof

theorem finished_of_ledger {file : List Byte} {w : Watched} (hs : PromptInv file w.sys)
    (hn : Numbered w.sys) (hl : Ledger file w) (hpc : w.sys.pc = .done) : Finished file w := by
  have hcur := hl.current
  simp only [InRound, hpc] at hcur
  obtain ⟨hcomplete, hcount, hne⟩ := hcur
  refine ⟨?_, ?_, ?_, hn.fins (Or.inr hpc), ?_⟩
  · rw [Watched.rounds, List.forall_mem_append, List.forall_mem_singleton]
    exact ⟨fun r hr => (hl.ended r hr).polled, hcomplete.polled⟩
  · rw [Watched.rounds, List.length_append, hcount]
    rfl
  · obtain ⟨e, he⟩ := Option.ne_none_iff_exists'.1 hne
    obtain ⟨p, hp, rfl⟩ := Option.map_eq_some_iff.1 (hn.eof e he)
    exact ⟨p, hp, he⟩
  · intro m
    cases m with
    | write => simp only [watch, hpc]
    | read => simp only [watch, hpc]
    | accept i =>
        have hnil : w.sys.toServer i = [] := hs.queue.eq_nil (by simp [Sys.awaits, hpc])
        simp only [watch, promptAccept, hnil, Option.map_none]

/-- **The bookkeeping at the end of the file.**  Whatever the length of the file, and in whatever order
the channels are served: in every state the records are right; until it has returned the client can go
on; it returns after a bounded number of moves; and then it has made `L / 15 + 1` rounds and has sent
one FIN packet. -/
theorem rounds_bookkeeping (file : List Byte) (ms : List Move) (w : Watched)
    (h : run watch (Watched.init file) ms = some w) :
    Bookkeeping w ∧ (w.sys.pc = .done → Finished file w) ∧
      (w.sys.pc ≠ .done → ∃ m v, watch w m = some v) ∧
      ms.length ≤ 3 * (numChannels * (file.length / (numChannels * packetSize) + 1) + 1) := by
  obtain ⟨hs, hn, hl⟩ := ledger_of_run h
  exact ⟨bookkeeping_of_ledger hs.sender hn hl, finished_of_ledger hs hn hl, exists_move hs,
    length_run_le h⟩

/-- Eight bytes: a full chunk, a short one and an empty packet; the channels are served in the order
`1`, `2`, `0`. -/
def swappedMoves : List Move :=
  [.write, .write, .accept 1, .write, .accept 2, .accept 0, .read, .read, .read, .write, .accept 0,
    .read]

/-- The state after these moves. -/
def swappedEnd : Watched :=
  (run watch (Watched.init [1, 2, 3, 4, 5, 6, 7, 8]) swappedMoves).get (by decide)

/-- One round on three channels, and the number `7` of the empty packet at the end of the file. -/
theorem rounds_bookkeeping_swapped :
    swappedEnd.sys.pc = .done ∧ swappedEnd.rounds.length = 1 ∧
      swappedEnd.sys.sender.eofSeqNo = some 7 ∧ Finished [1, 2, 3, 4, 5, 6, 7, 8] swappedEnd := by
  have hdone : swappedEnd.sys.pc = .done := by decide
  have hrun := rounds_bookkeeping [1, 2, 3, 4, 5, 6, 7, 8] swappedMoves swappedEnd
    (Option.some_get _).symm
  exact ⟨hdone, by decide, by decide, hrun.2.1 hdone⟩

/-! ### The runs of the protocol -/

/-- A step that is neither a timeout nor a drop. -/
def Prompt (_ : Sys) (e : Event) : Prop := e ≠ .timeout ∧ e ≠ .serve true

/-- **The runs of the protocol without timeouts and drops are among these runs**: they differ only in
the channels that the server has still to serve. -/
theorem exists_watched {file : List Byte} {es : List Event} {s : Sys}
    (hprompt : Along step Prompt (Sys.init file) es)
    (h : run step (Sys.init file) es = some s) :
    ∃ ms w, run watch (Watched.init file) ms = some w ∧ w.sys = s.select [] := by
  refine run_invariant_along (I := fun s => ∃ ms w, run watch (Watched.init file) ms = some w ∧
    w.sys = s.select []) ?_ ⟨[], Watched.init file, rfl, rfl⟩ hprompt h
  rintro s e t ⟨ms, w, hrun, hw⟩ ⟨htimeout, hdrop⟩ ht
  have hgo : ∀ m v, watch w m = some v → v.sys = t.select [] →
      ∃ ms v, run watch (Watched.init file) ms = some v ∧ v.sys = t.select [] := by
    intro m v hm hv
    exact ⟨ms ++ [m], v, run_append hrun (run_cons_eq_some.2 ⟨v, hm, rfl⟩), hv⟩
  cases step_cases ht with
  | @send i hpc =>
      have hpc' : w.sys.pc = .send i := by rw [hw]; exact hpc
      exact hgo .write (w.sendOn i) (by simp only [watch, hpc']) (by rw [sendOn_sys, hw]; rfl)
  | sendFin hpc =>
      have hpc' : w.sys.pc = .sendFin := by rw [hw]; exact hpc
      exact hgo .write { w with sys := w.sys.sendFin } (by simp only [watch, hpc']) (by rw [hw]; rfl)
  | resend hpc => exact absurd rfl htimeout
  | resendFin hpc => exact absurd rfl htimeout
  | @readAck i a as hpc hq =>
      have hpc' : w.sys.pc = .ack i := by rw [hw]; exact hpc
      have hq' : w.sys.toClient i = a :: as := by rw [hw]; exact hq
      exact hgo .read (w.readAck i a as) (by simp only [watch, hpc', hq'])
        (by rw [readAck_sys, hw]; rfl)
  | @readFin a as hpc hq =>
      have hpc' : w.sys.pc = .fin := by rw [hw]; exact hpc
      have hq' : w.sys.toClient 0 = a :: as := by rw [hw]; exact hq
      exact hgo .read { w with sys := w.sys.readFin as } (by simp only [watch, hpc', hq'])
        (by rw [hw]; rfl)
  | select ready => exact ⟨ms, w, hrun, hw⟩
  | drop hready hq => exact absurd rfl hdrop
  | @accept i rest p ps hready hq =>
      have hq' : w.sys.toServer i = p :: ps := by rw [hw]; exact hq
      exact hgo (.accept i) { w with sys := w.sys.accept i w.sys.ready p ps }
        (by simp only [watch, promptAccept, hq', Option.map_some]) (by rw [hw]; rfl)

end StopWait
