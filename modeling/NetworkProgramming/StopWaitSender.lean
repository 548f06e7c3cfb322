/-
**The sender of the N-channel stop-and-wait protocol: cutting a file into packets.**

`N-Channel-StopNWait/utils.h` declares the packet, and `get_next_chunk` reads the next chunk of the
input file; the sending half of `connection_loop` (`client.c`) numbers the chunks and copies them
into packets, one round of `NUM_CHANNELS` packets at a time.  This module models that half.  It
does not depend on the network: the packets that are built are a function of the file, and only how
far the client gets with them depends on the acknowledgements (`StopWaitProtocol`).

The counters are natural numbers.  The length of a file is an `off_t`, below `2 ^ 63`, so the
`uint64_t` counters of the source do not wrap and do not reach the value `-1` that `eof_seq_no`
starts with; `none` stands for it.

Main definitions:

* `StopWait.Packet` — a header and exactly `PACKET_SIZE` bytes of data;
* `StopWait.getNextChunk`, `StopWait.strncpy` — reading a chunk and copying it into a packet;
* `StopWait.sendPacket`, `StopWait.sendRound`, `StopWait.sendRounds` — one iteration of the sending
  loop, one round, and all rounds;
* `StopWait.dataPackets`, `StopWait.rebuild` — the data packets of a file, and the file they lay out;
* `StopWait.transmitted` — what survives of a file.

Main results:

* `StopWait.tiled_dataPackets`, `StopWait.dataPackets_seqNo_lt` — the packets tile the output and
  carry increasing sequence numbers;
* `StopWait.flatMap_payload_dataPackets` — the payloads are `transmitted file`;
* `StopWait.rebuild_eq_self_iff` — **exactly the files that survive the transfer**.
-/

import Mathlib.Data.UInt
import NetworkProgramming.SparseFile

set_option relaxedAutoImplicit false
set_option autoImplicit false

namespace StopWait

open SparseFile

/-! ### Packets -/

/-- The macro `PACKET_SIZE`. -/
def packetSize : ℕ := 5

/-- The macro `NUM_CHANNELS`. -/
def numChannels : ℕ := 3

abbrev Byte := UInt8

/-- The packet header, with its fields in host order. -/
structure Header where
  size : ℕ
  seqNo : ℕ
  isLast : UInt8
  type : UInt8
  channelId : UInt8
  deriving DecidableEq, Repr

/-- A packet carries exactly `PACKET_SIZE` bytes, whatever its header says. -/
structure Packet where
  header : Header
  data : List Byte
  length_data : data.length = packetSize
  deriving DecidableEq

/-- The bytes the server writes for a packet: the first `header.size` of its data. -/
def Packet.payload (p : Packet) : List Byte := p.data.take p.header.size

/-- The write the server performs for a packet. -/
def Packet.write (p : Packet) : ℕ × List Byte := (p.header.seqNo, p.payload)

/-! ### Reading a chunk -/

/-- `strncpy`: the bytes of `src` up to the first NUL, at most `n` of them, padded with NULs. -/
def strncpy : List Byte → ℕ → List Byte
  | _, 0 => []
  | [], n + 1 => List.replicate (n + 1) 0
  | b :: src, n + 1 => if b = 0 then List.replicate (n + 1) 0 else b :: strncpy src n

@[simp] theorem length_strncpy (src : List Byte) (n : ℕ) : (strncpy src n).length = n := by
  induction n generalizing src with
  | zero => cases src <;> rfl
  | succ n ih =>
      cases src with
      | nil => simp [strncpy]
      | cons b src =>
          rw [strncpy]
          split
          · simp
          · simp [ih]

/-- What `get_next_chunk` returns: the buffer it filled, the payload size, the end-of-file flag and
the file that is left. -/
structure Chunk where
  buffer : List Byte
  payloadSize : ℕ
  isEof : Bool
  fp : List Byte

/-- `get_next_chunk`: a full chunk is returned as it is; a short chunk raises the end-of-file flag
and, if it is not empty, loses its last byte. -/
def getNextChunk (fp : List Byte) (chunkSize : ℕ) (isEof : Bool) : Chunk :=
  let got := fp.take chunkSize
  let buffer := got ++ [0]
  if got.length < chunkSize then
    if 0 < got.length then
      ⟨buffer.set (got.length - 1) 0, got.length - 1, true, fp.drop chunkSize⟩
    else ⟨buffer, got.length, true, fp.drop chunkSize⟩
  else ⟨buffer, got.length, isEof, fp.drop chunkSize⟩

/-! ### The sending loop -/

/-- The variables of `connection_loop` that the sending loop reads and writes. -/
structure Sender where
  fp : List Byte
  isEof : Bool
  payloadSize : ℕ
  seqNo : ℕ
  /-- `none` is the initial `-1`. -/
  eofSeqNo : Option ℕ
  /-- `none` is the initial `-1`. -/
  lastPacket : Option ℕ

def Sender.init (file : List Byte) : Sender := ⟨file, false, 0, 0, none, none⟩

/-- One iteration of the sending loop: the packet written on channel `i`. -/
def sendPacket (c : Sender) (i : ℕ) : Packet × Sender :=
  let k := getNextChunk c.fp packetSize c.isEof
  let header : Header := ⟨k.payloadSize, c.seqNo, 0, 0, UInt8.ofNat i⟩
  (⟨header, strncpy k.buffer packetSize, length_strncpy _ _⟩,
    { fp := k.fp
      isEof := false
      payloadSize := k.payloadSize
      seqNo := c.seqNo + k.payloadSize
      eofSeqNo := if k.isEof then some c.seqNo else c.eofSeqNo
      lastPacket := if k.payloadSize = 0 then some i else c.lastPacket })

/-- The sending loop from channel `i` on, with `n` iterations left; an empty packet ends it. -/
def sendRound : ℕ → ℕ → Sender → List Packet × Sender
  | 0, _, c => ([], c)
  | n + 1, i, c =>
      let s := sendPacket c i
      if s.1.header.size = 0 then ([s.1], s.2)
      else
        let r := sendRound n (i + 1) s.2
        (s.1 :: r.1, r.2)

/-- At most `n` rounds of sending; no round is sent once `eof_seq_no` is set. -/
def sendRounds : ℕ → Sender → List Packet × Sender
  | 0, c => ([], c)
  | n + 1, c =>
      if c.eofSeqNo = none then
        let r := sendRound numChannels 0 c
        let q := sendRounds n r.2
        (r.1 ++ q.1, q.2)
      else ([], c)

/-- The data packets still to be built when the next round is about to begin.  A round that does
not reach the end of the file consumes at least one byte, so the fuel suffices
(`sendRounds_eofSeqNo`). -/
def restPackets (c : Sender) : List Packet := (sendRounds (c.fp.length + 1) c).1

/-- **The data packets `connection_loop` builds for a file.** -/
def dataPackets (file : List Byte) : List Packet := restPackets (Sender.init file)

/-- The file laid out by the data packets: each payload at its sequence number. -/
def rebuild (file : List Byte) : List Byte := writeAll ((dataPackets file).map Packet.write)

/-! ### What survives of a file -/

/-- What survives of a chunk: `strncpy` blanks everything from the first NUL on. -/
def clip (xs : List Byte) : List Byte := strncpy xs xs.length

@[simp] theorem length_clip (xs : List Byte) : (clip xs).length = xs.length := length_strncpy _ _

/-- What survives of a file: every full chunk clipped, and the short one without its last byte. -/
def transmitted (file : List Byte) : List Byte :=
  if file.length < packetSize then clip file.dropLast
  else clip (file.take packetSize) ++ transmitted (file.drop packetSize)
termination_by file.length
decreasing_by
  simp only [List.length_drop, packetSize] at *
  omega

theorem transmitted_of_short {file : List Byte} (h : file.length < packetSize) :
    transmitted file = clip file.dropLast := by
  rw [transmitted, if_pos h]

theorem transmitted_of_full {file : List Byte} (h : ¬ file.length < packetSize) :
    transmitted file = clip (file.take packetSize) ++ transmitted (file.drop packetSize) := by
  rw [transmitted, if_neg h]

@[simp] theorem transmitted_nil : transmitted [] = [] := by
  rw [transmitted_of_short (by decide)]
  rfl

/-- Copying a chunk that is followed by a NUL clips it. -/
theorem take_strncpy (xs ys : List Byte) (n : ℕ) (h : xs.length ≤ n) :
    (strncpy (xs ++ 0 :: ys) n).take xs.length = clip xs := by
  induction xs generalizing n with
  | nil => rfl
  | cons b xs ih =>
      obtain ⟨n, rfl⟩ : ∃ m, n = m + 1 := ⟨n - 1, by simp at h; omega⟩
      have hlen : xs.length ≤ n := by simpa using h
      simp only [clip, List.cons_append, strncpy, List.length_cons]
      split
      · simp [hlen]
      · rw [List.take_succ_cons, ih n hlen, clip]

/-! ### One packet -/

theorem getNextChunk_of_full {fp : List Byte} (isEof : Bool) (h : ¬ fp.length < packetSize) :
    getNextChunk fp packetSize isEof =
      ⟨fp.take packetSize ++ [0], packetSize, isEof, fp.drop packetSize⟩ := by
  have hlen : (fp.take packetSize).length = packetSize := by
    rw [List.length_take]
    omega
  simp [getNextChunk, hlen]

theorem getNextChunk_of_short {fp : List Byte} (isEof : Bool) (h : fp.length < packetSize) :
    ∃ ys, getNextChunk fp packetSize isEof =
      ⟨fp.dropLast ++ 0 :: ys, fp.length - 1, true, []⟩ := by
  have htake : fp.take packetSize = fp := List.take_of_length_le h.le
  have hdrop : fp.drop packetSize = [] := List.drop_of_length_le h.le
  rcases List.eq_nil_or_concat fp with rfl | ⟨xs, b, rfl⟩
  · exact ⟨[], rfl⟩
  · refine ⟨[0], ?_⟩
    simp only [getNextChunk, htake, hdrop, if_pos h]
    simp

section SendPacket

variable (c : Sender) (i : ℕ)

theorem sendPacket_seqNo : (sendPacket c i).1.header.seqNo = c.seqNo := rfl

theorem sendPacket_isLast : (sendPacket c i).1.header.isLast = 0 := rfl

theorem sendPacket_next_seqNo :
    (sendPacket c i).2.seqNo = c.seqNo + (sendPacket c i).1.header.size := rfl

/-- The two ways an iteration can go: a full chunk, or the end of the file. -/
theorem sendPacket_cases :
    (¬ c.fp.length < packetSize ∧ (sendPacket c i).1.header.size = packetSize ∧
        (sendPacket c i).1.payload = clip (c.fp.take packetSize) ∧
        (sendPacket c i).2.fp = c.fp.drop packetSize ∧
        (c.isEof = false → (sendPacket c i).2.eofSeqNo = c.eofSeqNo)) ∨
      (c.fp.length < packetSize ∧ (sendPacket c i).1.header.size = c.fp.length - 1 ∧
        (sendPacket c i).1.payload = clip c.fp.dropLast ∧ (sendPacket c i).2.fp = [] ∧
        (sendPacket c i).2.eofSeqNo = some c.seqNo) := by
  by_cases h : c.fp.length < packetSize
  · obtain ⟨ys, hk⟩ := getNextChunk_of_short c.isEof h
    refine Or.inr ⟨h, by simp [sendPacket, hk], ?_, by simp [sendPacket, hk],
      by simp [sendPacket, hk]⟩
    have hlen : c.fp.dropLast.length = c.fp.length - 1 := List.length_dropLast
    simp only [Packet.payload, sendPacket, hk, ← hlen]
    exact take_strncpy _ _ _ (by omega)
  · have hk := getNextChunk_of_full c.isEof h
    refine Or.inl ⟨h, by simp [sendPacket, hk], ?_, by simp [sendPacket, hk], ?_⟩
    · have hlen : (c.fp.take packetSize).length = packetSize := by
        rw [List.length_take]
        omega
      have ht := take_strncpy (c.fp.take packetSize) [] packetSize hlen.le
      simp only [Packet.payload, sendPacket, hk]
      rwa [hlen] at ht
    · intro he
      rw [he] at hk
      simp [sendPacket, hk, he]

theorem length_payload_sendPacket :
    (sendPacket c i).1.payload.length = (sendPacket c i).1.header.size := by
  rcases sendPacket_cases c i with ⟨hf, hs, hp, _⟩ | ⟨_, hs, hp, _⟩
  · rw [hp, hs, length_clip, List.length_take]
    omega
  · rw [hp, hs, length_clip, List.length_dropLast]

/-- A packet carries off the front of what is still to be transmitted. -/
theorem payload_append_transmitted :
    (sendPacket c i).1.payload ++ transmitted (sendPacket c i).2.fp = transmitted c.fp := by
  rcases sendPacket_cases c i with ⟨hf, _, hp, hr, _⟩ | ⟨hf, _, hp, hr, _⟩
  · rw [hp, hr, transmitted_of_full hf]
  · rw [hp, hr, transmitted_of_short hf, transmitted_nil, List.append_nil]

end SendPacket

/-! ### Chains of packets -/

/-- What the sending loop keeps true at the head of an iteration: the end-of-file flag is down, and
once `eof_seq_no` is set nothing of the file is left. -/
structure Sender.Wf (c : Sender) : Prop where
  isEof : c.isEof = false
  fp : c.eofSeqNo ≠ none → c.fp = []

theorem Sender.wf_init (file : List Byte) : (Sender.init file).Wf :=
  ⟨rfl, fun h => absurd rfl h⟩

theorem Sender.Wf.sendPacket {c : Sender} (h : c.Wf) (i : ℕ) : (sendPacket c i).2.Wf := by
  refine ⟨rfl, ?_⟩
  rcases sendPacket_cases c i with ⟨hf, _, _, hr, he⟩ | ⟨_, _, _, hr, _⟩
  · intro hne
    rw [he h.isEof] at hne
    rw [hr, h.fp hne]
    rfl
  · exact fun _ => hr

/-- `eof_seq_no` is never reset. -/
theorem Sender.Wf.eofSeqNo_sendPacket {c : Sender} (h : c.Wf) (i : ℕ)
    (hne : c.eofSeqNo ≠ none) : (StopWait.sendPacket c i).2.eofSeqNo ≠ none := by
  rcases sendPacket_cases c i with ⟨_, _, _, _, he⟩ | ⟨_, _, _, _, he⟩
  · rwa [he h.isEof]
  · simp [he]

/-- Only the end of the file produces an empty packet. -/
theorem eofSeqNo_of_size_eq_zero (c : Sender) (i : ℕ)
    (h : (sendPacket c i).1.header.size = 0) : (sendPacket c i).2.eofSeqNo ≠ none := by
  rcases sendPacket_cases c i with ⟨_, hs, _⟩ | ⟨_, _, _, _, he⟩
  · rw [hs] at h
    exact absurd h (by decide)
  · simp [he]

/-- `Sends c ps d`: from `c` the sending loop builds the packets `ps`, one after the other on some
channels, and ends in `d`; only the last of them may be empty. -/
inductive Sends : Sender → List Packet → Sender → Prop
  | nil (c : Sender) : Sends c [] c
  | cons {c d : Sender} {ps : List Packet} (i : ℕ) :
      ((sendPacket c i).1.header.size = 0 → ps = []) →
      Sends (sendPacket c i).2 ps d → Sends c ((sendPacket c i).1 :: ps) d

namespace Sends

variable {c d e : Sender} {ps qs : List Packet}

theorem wf (h : Sends c ps d) (hc : c.Wf) : d.Wf := by
  induction h with
  | nil c => exact hc
  | cons i _ _ ih => exact ih (hc.sendPacket i)

theorem eofSeqNo (h : Sends c ps d) (hc : c.Wf) (hne : c.eofSeqNo ≠ none) :
    d.eofSeqNo ≠ none := by
  induction h with
  | nil c => exact hne
  | cons i _ _ ih => exact ih (hc.sendPacket i) (hc.eofSeqNo_sendPacket i hne)

theorem append (h : Sends c ps d) (hc : c.Wf) (hq : d.eofSeqNo ≠ none → qs = [])
    (h' : Sends d qs e) : Sends c (ps ++ qs) e := by
  induction h with
  | nil c => exact h'
  | @cons c d ps i h₀ hs ih =>
      refine Sends.cons i ?_ (ih (hc.sendPacket i) hq h')
      intro hz
      have hne := hs.eofSeqNo (hc.sendPacket i) (eofSeqNo_of_size_eq_zero c i hz)
      rw [h₀ hz, hq hne]
      rfl

/-- The payloads of a chain are the front of what is still to be transmitted. -/
theorem flatMap_payload (h : Sends c ps d) :
    ps.flatMap Packet.payload ++ transmitted d.fp = transmitted c.fp := by
  induction h with
  | nil c => rfl
  | @cons c d ps i _ _ ih =>
      rw [List.flatMap_cons, List.append_assoc, ih, payload_append_transmitted]

/-- A chain lays its payloads out without gaps, from the current sequence number on. -/
theorem tiled (h : Sends c ps d) : Tiled c.seqNo (ps.map Packet.write) := by
  induction h with
  | nil c => trivial
  | @cons c d ps i _ _ ih =>
      refine ⟨sendPacket_seqNo c i, ?_⟩
      rwa [Packet.write, length_payload_sendPacket, ← sendPacket_next_seqNo]

theorem seqNo_le (h : Sends c ps d) : ∀ p ∈ ps, c.seqNo ≤ p.header.seqNo := by
  intro p hp
  exact h.tiled.le_fst p.write (List.mem_map_of_mem hp)

/-- **Sequence numbers increase along a chain**: every packet but the last carries something. -/
theorem pairwise_seqNo (h : Sends c ps d) :
    ps.Pairwise fun p q => p.header.seqNo < q.header.seqNo := by
  induction h with
  | nil c => exact List.Pairwise.nil
  | @cons c d ps i h₀ hs ih =>
      refine List.Pairwise.cons ?_ ih
      intro q hq
      have hle := hs.seqNo_le q hq
      have hpos : (sendPacket c i).1.header.size ≠ 0 := by
        intro hz
        rw [h₀ hz] at hq
        exact absurd hq List.not_mem_nil
      rw [sendPacket_next_seqNo] at hle
      rw [sendPacket_seqNo]
      omega

theorem isLast_eq_zero (h : Sends c ps d) : ∀ p ∈ ps, p.header.isLast = 0 := by
  induction h with
  | nil c => simp
  | @cons c d ps i _ _ ih => exact List.forall_mem_cons.2 ⟨sendPacket_isLast c i, ih⟩

theorem length_payload (h : Sends c ps d) : ∀ p ∈ ps, p.payload.length = p.header.size := by
  induction h with
  | nil c => simp
  | @cons c d ps i _ _ ih => exact List.forall_mem_cons.2 ⟨length_payload_sendPacket c i, ih⟩

end Sends

/-! ### Rounds -/

theorem sends_sendRound (n i : ℕ) (c : Sender) :
    Sends c (sendRound n i c).1 (sendRound n i c).2 := by
  induction n generalizing i c with
  | zero => exact Sends.nil c
  | succ n ih =>
      simp only [sendRound]
      split
      · exact Sends.cons i (fun _ => rfl) (Sends.nil _)
      · rename_i hz
        exact Sends.cons i (fun h => absurd h hz) (ih _ _)

/-- A round either reaches the end of the file or consumes some of it. -/
theorem sendRound_progress {c : Sender} (hc : c.Wf) (i n : ℕ) :
    (sendRound (n + 1) i c).2.eofSeqNo ≠ none ∨
      (sendRound (n + 1) i c).2.fp.length < c.fp.length := by
  induction n generalizing i c with
  | zero =>
      have hstep : (sendRound 1 i c).2 = (sendPacket c i).2 := by
        simp only [sendRound]
        split <;> rfl
      rw [hstep]
      rcases sendPacket_cases c i with ⟨hf, _, _, hr, _⟩ | ⟨_, _, _, _, he⟩
      · refine Or.inr ?_
        simp only [hr, List.length_drop, packetSize] at hf ⊢
        omega
      · exact Or.inl (by simp [he])
  | succ n ih =>
      rw [sendRound]
      split
      · rename_i hz
        exact Or.inl (eofSeqNo_of_size_eq_zero c i hz)
      · rcases ih (hc.sendPacket i) (i + 1) with hne | hlt
        · exact Or.inl hne
        · refine Or.inr (lt_of_lt_of_le hlt ?_)
          rcases sendPacket_cases c i with ⟨_, _, _, hr, _⟩ | ⟨_, _, _, hr, _⟩
          · simp [hr]
          · simp [hr]

theorem sendRound_numChannels_progress {c : Sender} (hc : c.Wf) :
    (sendRound numChannels 0 c).2.eofSeqNo ≠ none ∨
      (sendRound numChannels 0 c).2.fp.length < c.fp.length :=
  sendRound_progress hc 0 2

theorem sendRounds_of_eof {c : Sender} (h : c.eofSeqNo ≠ none) (n : ℕ) :
    sendRounds n c = ([], c) := by
  cases n with
  | zero => rfl
  | succ n => rw [sendRounds, if_neg h]

theorem sends_sendRounds (n : ℕ) {c : Sender} (hc : c.Wf) :
    Sends c (sendRounds n c).1 (sendRounds n c).2 := by
  induction n generalizing c with
  | zero => exact Sends.nil c
  | succ n ih =>
      rw [sendRounds]
      split
      · have hr := sends_sendRound numChannels 0 c
        refine hr.append hc ?_ (ih (hr.wf hc))
        intro hne
        rw [sendRounds_of_eof hne]
      · exact Sends.nil c

/-- **The fuel suffices**: with more rounds than bytes the end of the file is reached. -/
theorem sendRounds_eofSeqNo {n : ℕ} {c : Sender} (hc : c.Wf) (hn : c.fp.length < n) :
    (sendRounds n c).2.eofSeqNo ≠ none := by
  induction n generalizing c with
  | zero => omega
  | succ n ih =>
      rw [sendRounds]
      split
      · have hr := sends_sendRound numChannels 0 c
        rcases sendRound_numChannels_progress hc with hne | hlt
        · exact (sends_sendRounds n (hr.wf hc)).eofSeqNo (hr.wf hc) hne
        · exact ih (hr.wf hc) (lt_of_lt_of_le hlt (by omega))
      · assumption

theorem sendRounds_fuel {n m : ℕ} {c : Sender} (hc : c.Wf) (hn : c.fp.length < n)
    (hm : c.fp.length < m) : sendRounds n c = sendRounds m c := by
  induction n generalizing m c with
  | zero => omega
  | succ n ih =>
      obtain ⟨m, rfl⟩ : ∃ k, m = k + 1 := ⟨m - 1, by omega⟩
      have hr := sends_sendRound numChannels 0 c
      have hq : sendRounds n (sendRound numChannels 0 c).2 =
          sendRounds m (sendRound numChannels 0 c).2 := by
        rcases sendRound_numChannels_progress hc with hne | hlt
        · rw [sendRounds_of_eof hne, sendRounds_of_eof hne]
        · exact ih (hr.wf hc) (lt_of_lt_of_le hlt (by omega)) (lt_of_lt_of_le hlt (by omega))
      simp only [sendRounds, hq]

theorem restPackets_of_eof {c : Sender} (h : c.eofSeqNo ≠ none) : restPackets c = [] := by
  rw [restPackets, sendRounds_of_eof h]

/-- The packets still to be built are those of the next round and those after it. -/
theorem restPackets_of_none {c : Sender} (hc : c.Wf) (h : c.eofSeqNo = none) :
    restPackets c =
      (sendRound numChannels 0 c).1 ++ restPackets (sendRound numChannels 0 c).2 := by
  have hr := sends_sendRound numChannels 0 c
  rw [restPackets, sendRounds, if_pos h]
  refine congrArg ((sendRound numChannels 0 c).1 ++ ·) ?_
  rcases sendRound_numChannels_progress hc with hne | hlt
  · rw [restPackets_of_eof hne, sendRounds_of_eof hne]
  · rw [restPackets]
    exact congrArg Prod.fst (sendRounds_fuel (hr.wf hc) hlt (Nat.lt_succ_self _))

/-! ### The packets of a file -/

theorem sends_dataPackets (file : List Byte) :
    Sends (Sender.init file) (dataPackets file)
      (sendRounds (file.length + 1) (Sender.init file)).2 :=
  sends_sendRounds (file.length + 1) (Sender.wf_init file)

/-- The packets of a file tile the output from offset `0` on. -/
theorem tiled_dataPackets (file : List Byte) : Tiled 0 ((dataPackets file).map Packet.write) :=
  (sends_dataPackets file).tiled

theorem dataPackets_seqNo_lt (file : List Byte) :
    (dataPackets file).Pairwise fun p q => p.header.seqNo < q.header.seqNo :=
  (sends_dataPackets file).pairwise_seqNo

/-- **What the packets of a file carry.** -/
theorem flatMap_payload_dataPackets (file : List Byte) :
    (dataPackets file).flatMap Packet.payload = transmitted file := by
  have hs := sends_dataPackets file
  have hw := hs.wf (Sender.wf_init file)
  have hnil := hw.fp (sendRounds_eofSeqNo (Sender.wf_init file) (Nat.lt_succ_self _))
  have hp := hs.flatMap_payload
  rwa [hnil, transmitted_nil, List.append_nil] at hp

theorem rebuild_eq_transmitted (file : List Byte) : rebuild file = transmitted file := by
  rw [rebuild, writeAll_of_tiled (tiled_dataPackets file), List.flatMap_map]
  exact flatMap_payload_dataPackets file

/-! ### The files that survive -/

/-- A chunk survives exactly when no other byte follows a NUL in it. -/
theorem clip_eq_self_iff (xs : List Byte) :
    clip xs = xs ↔
      ∀ i j, i < j → j < xs.length → xs.getD i 0 = 0 → xs.getD j 0 = 0 := by
  induction xs with
  | nil => simp [clip, strncpy]
  | cons b xs ih =>
      by_cases hb : b = 0
      · subst hb
        have hclip : clip (0 :: xs) = List.replicate (xs.length + 1) 0 := by simp [clip, strncpy]
        rw [hclip]
        constructor
        · intro h i j _ _ _
          rw [← h]
          simp only [List.getD_eq_getElem?_getD, List.getElem?_replicate]
          split <;> rfl
        · intro h
          refine ext_getD (by simp) ?_
          intro j
          rcases Nat.lt_or_ge j (xs.length + 1) with hj | hj
          · rw [List.getD_replicate _ hj]
            cases j with
            | zero => rfl
            | succ j => exact (h 0 (j + 1) (by omega) (by simpa using hj) rfl).symm
          · rw [List.getD_eq_default _ _ (by simpa using hj),
              List.getD_eq_default _ _ (by simpa using hj)]
      · have hclip : clip (b :: xs) = b :: clip xs := by simp [clip, strncpy, hb]
        rw [hclip, List.cons_inj_right, ih]
        constructor
        · intro h i j hij hj hi
          match i, j with
          | 0, _ => exact absurd (by simpa using hi) hb
          | i + 1, j + 1 => exact h i j (by omega) (by simpa using hj) (by simpa using hi)
        · intro h i j hij hj hi
          simpa using h (i + 1) (j + 1) (by omega) (by simpa using hj) (by simpa using hi)

/-- No byte other than NUL follows a NUL within one block of `PACKET_SIZE` bytes. -/
def NulTailed (file : List Byte) : Prop :=
  ∀ i j, i < j → j < file.length → i / packetSize = j / packetSize →
    file.getD i 0 = 0 → file.getD j 0 = 0

theorem nulTailed_of_full {file : List Byte} (h : ¬ file.length < packetSize) :
    NulTailed file ↔
      clip (file.take packetSize) = file.take packetSize ∧ NulTailed (file.drop packetSize) := by
  have htake : ∀ i, i < packetSize → (file.take packetSize).getD i 0 = file.getD i 0 := by
    intro i hi
    simp [List.getD_eq_getElem?_getD, hi]
  have hdrop : ∀ i, (file.drop packetSize).getD i 0 = file.getD (packetSize + i) 0 := by
    intro i
    simp [List.getD_eq_getElem?_getD]
  have hlen : (file.take packetSize).length = packetSize := by
    rw [List.length_take]
    omega
  rw [clip_eq_self_iff, hlen]
  constructor
  · intro hf
    refine ⟨?_, ?_⟩
    · intro i j hij hj hi
      rw [htake j hj]
      rw [htake i (by omega)] at hi
      exact hf i j hij (by omega) (by rw [Nat.div_eq_of_lt hj, Nat.div_eq_of_lt (by omega)]) hi
    · intro i j hij hj hb hi
      rw [hdrop] at hi ⊢
      rw [List.length_drop] at hj
      refine hf _ _ (by omega) (by omega) ?_ hi
      simp only [packetSize] at hb ⊢
      omega
  · rintro ⟨hhead, htail⟩ i j hij hj hb hi
    rcases Nat.lt_or_ge i packetSize with hlt | hge
    · have hj' : j < packetSize := by
        simp only [packetSize] at hb hlt ⊢
        omega
      have := hhead i j hij hj' (by rwa [htake i hlt])
      rwa [htake j hj'] at this
    · obtain ⟨i, rfl⟩ := Nat.exists_eq_add_of_le hge
      obtain ⟨j, rfl⟩ := Nat.exists_eq_add_of_le (le_trans hge hij.le)
      rw [← hdrop] at hi ⊢
      refine htail i j (by omega) (by rw [List.length_drop]; omega) ?_ hi
      simp only [packetSize] at hb ⊢
      omega

theorem transmitted_eq_self_iff (file : List Byte) :
    transmitted file = file ↔ file.length % packetSize = 0 ∧ NulTailed file := by
  induction hn : file.length using Nat.strong_induction_on generalizing file with
  | _ n ih =>
      by_cases h : file.length < packetSize
      · rw [transmitted_of_short h]
        constructor
        · intro heq
          have hl : file.length = 0 := by
            have := congrArg List.length heq
            rw [length_clip, List.length_dropLast] at this
            omega
          obtain rfl := List.length_eq_zero_iff.1 hl
          exact ⟨by simp [← hn], by simp [NulTailed]⟩
        · rintro ⟨hmod, _⟩
          rw [Nat.mod_eq_of_lt (by omega)] at hmod
          obtain rfl := List.length_eq_zero_iff.1 (hn.trans hmod)
          rfl
      · have hsplit : transmitted file = file ↔
            clip (file.take packetSize) = file.take packetSize ∧
              transmitted (file.drop packetSize) = file.drop packetSize := by
          rw [transmitted_of_full h]
          constructor
          · intro heq
            exact List.append_inj (heq.trans (List.take_append_drop packetSize file).symm) (by simp)
          · rintro ⟨h₁, h₂⟩
            rw [h₁, h₂, List.take_append_drop]
        have hlt : (file.drop packetSize).length < n := by
          simp only [List.length_drop, packetSize] at h ⊢
          omega
        rw [hsplit, ih _ hlt _ rfl, nulTailed_of_full h, List.length_drop, hn]
        have hmod : (n - packetSize) % packetSize = n % packetSize :=
          (Nat.mod_eq_sub_mod (by omega)).symm
        rw [hmod]
        tauto

/-- **Exactly the files that survive the transfer**: those whose length is a multiple of
`PACKET_SIZE` and in which no other byte follows a NUL within a block. -/
theorem rebuild_eq_self_iff (file : List Byte) :
    rebuild file = file ↔
      file.length % packetSize = 0 ∧
        ∀ i j, i < j → j < file.length → i / packetSize = j / packetSize →
          file.getD i 0 = 0 → file.getD j 0 = 0 := by
  rw [rebuild_eq_transmitted]
  exact transmitted_eq_self_iff file

/-- A file of one byte arrives empty, and a NUL blanks the bytes after it in its block. -/
theorem not_rebuild_eq_self :
    rebuild [97] = [] ∧ rebuild [97, 0, 98, 99, 100] = [97, 0, 0, 0, 0] ∧
      ¬ ∀ file : List Byte, rebuild file = file := by
  refine ⟨by decide, by decide, ?_⟩
  intro h
  exact absurd (h [97]) (by decide)

end StopWait
