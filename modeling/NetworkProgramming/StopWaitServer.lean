/-
**The server of the N-channel stop-and-wait protocol: one call of `serve_connection`.**

`serve_connection` (`N-Channel-StopNWait/server.c`) reads one packet, may drop it with probability
`PDR`, and otherwise writes its payload at its sequence number and answers with an acknowledgement.
The drop is decided by `rand()`, so it is an argument here.  Two properties of the function stand on
their own, before any network is modelled.

* **Writing.**  The packets of one file may be accepted in any order and any number of times: the
  output depends on the set of accepted packets only.
* **Framing.**  The function calls `read` once and takes whatever it gets for a whole packet.  On a
  byte stream this is right exactly when no call returns short.

Main definitions:

* `StopWait.serveConnection`, `StopWait.acceptAll` — one call, and a sequence of accepting calls;
* `StopWait.Image`, `StopWait.readPacket`, `StopWait.processed` — the memory image of a packet, the
  image one `read` leaves in `recv_packet`, and those of repeated calls on one stream.

Main results:

* `StopWait.acceptAll_congr` — **writes are order-independent and idempotent**;
* `StopWait.processed_eq_iff` — **framing is right exactly when every read is full**.
-/

import NetworkProgramming.StopWaitSender

set_option relaxedAutoImplicit false
set_option autoImplicit false

namespace StopWait

open SparseFile

/-! ### Serving one packet -/

/-- What a call of `serve_connection` leaves behind: the output file, the acknowledgement written
to the socket, if any, and the returned `is_last`. -/
structure Served where
  out : List Byte
  ack : Option Packet
  isLast : UInt8
  deriving DecidableEq

/-- The acknowledgement of a packet: the packet itself with type `1`. -/
def Packet.ack (p : Packet) : Packet := { p with header := { p.header with type := 1 } }

/-- `serve_connection` on a packet it has read; `drop` is the outcome of the `PDR` test. -/
def serveConnection (out : List Byte) (recv : Packet) (drop : Bool) : Served :=
  if drop then ⟨out, none, 0⟩
  else
    ⟨if recv.header.isLast ≠ 1 then writeAt out recv.header.seqNo recv.payload else out,
      some recv.ack, recv.header.isLast⟩

/-- The output after the packets `ps` are accepted, in order, starting from the empty file. -/
def acceptAll (ps : List Packet) : List Byte :=
  ps.foldl (fun out p => (serveConnection out p false).out) []

/-! ### Order and repetition -/

theorem out_serveConnection {p : Packet} (hp : p.header.isLast ≠ 1) (out : List Byte) :
    (serveConnection out p false).out = writeAt out p.write.1 p.write.2 := by
  simp [serveConnection, hp, Packet.write]

theorem foldl_serveConnection {ps : List Packet} (hps : ∀ p ∈ ps, p.header.isLast ≠ 1)
    (out : List Byte) :
    ps.foldl (fun out p => (serveConnection out p false).out) out =
      writeFrom out (ps.map Packet.write) := by
  induction ps generalizing out with
  | nil => rfl
  | cons p ps ih =>
      have hp := List.forall_mem_cons.1 hps
      rw [List.foldl_cons, out_serveConnection hp.1, ih hp.2]
      rfl

theorem dataPackets_isLast {file : List Byte} {p : Packet} (hp : p ∈ dataPackets file) :
    p.header.isLast = 0 :=
  (sends_dataPackets file).isLast_eq_zero p hp

theorem dataPackets_length_payload {file : List Byte} {p : Packet} (hp : p ∈ dataPackets file) :
    p.payload.length = p.header.size :=
  (sends_dataPackets file).length_payload p hp

/-- Accepting packets of one file performs their writes. -/
theorem acceptAll_eq_writeAll {file : List Byte} {ps : List Packet}
    (h : ∀ p ∈ ps, p ∈ dataPackets file) : acceptAll ps = writeAll (ps.map Packet.write) :=
  foldl_serveConnection (fun p hp => by simp [dataPackets_isLast (h p hp)]) []

theorem compatible_of_subset {file : List Byte} {ps : List Packet}
    (h : ∀ p ∈ ps, p ∈ dataPackets file) : Compatible (ps.map Packet.write) := by
  refine (tiled_dataPackets file).compatible.mono ?_
  intro w hw
  obtain ⟨p, hp, rfl⟩ := List.mem_map.1 hw
  exact List.mem_map_of_mem (h p hp)

theorem covers_write_iff {file : List Byte} {p : Packet} (hp : p ∈ dataPackets file) (j : ℕ) :
    Covers p.write j ↔ p.header.seqNo ≤ j ∧ j < p.header.seqNo + p.header.size := by
  simp only [Covers, Packet.write, dataPackets_length_payload hp]

/-- The length of the output, in terms of the accepted packets. -/
theorem length_acceptAll {file : List Byte} {ps : List Packet}
    (h : ∀ p ∈ ps, p ∈ dataPackets file) :
    (acceptAll ps).length =
      ((ps.filter fun p => p.header.size ≠ 0).map fun p =>
        p.header.seqNo + p.header.size).foldr max 0 := by
  rw [acceptAll_eq_writeAll h, length_writeAll]
  induction ps with
  | nil => rfl
  | cons p ps ih =>
      have hp := List.forall_mem_cons.1 h
      have hlen := dataPackets_length_payload hp.1
      have hnil : p.write.2 = [] ↔ p.header.size = 0 := by
        rw [← hlen, Packet.write, List.length_eq_zero_iff]
      rw [List.map_cons, extent_cons, ih hp.2]
      by_cases hz : p.header.size = 0
      · rw [if_pos (hnil.2 hz), List.filter_cons_of_neg (by simp [hz])]
      · rw [if_neg (mt hnil.1 hz), List.filter_cons_of_pos (by simp [hz])]
        simp [Packet.write, hlen]

/-- A byte of an accepted packet is where the packet says it is. -/
theorem getElem?_acceptAll {file : List Byte} {ps : List Packet}
    (h : ∀ p ∈ ps, p ∈ dataPackets file) {p : Packet} (hp : p ∈ ps) {k : ℕ}
    (hk : k < p.header.size) : (acceptAll ps)[p.header.seqNo + k]? = p.data[k]? := by
  have hlen := dataPackets_length_payload (h p hp)
  have hcov : Covers p.write (p.header.seqNo + k) :=
    (covers_write_iff (h p hp) _).2 ⟨by omega, by omega⟩
  have hmem := List.mem_map_of_mem (f := Packet.write) hp
  have hlt : p.header.seqNo + k < (acceptAll ps).length := by
    have hext := (extent_le_iff (ps.map Packet.write) _).1 le_rfl p.write hmem
      (List.ne_nil_of_length_pos (by rw [Packet.write, hlen]; omega))
    rw [acceptAll_eq_writeAll h, length_writeAll]
    simp only [Packet.write, hlen] at hext
    omega
  have hval : (acceptAll ps).getD (p.header.seqNo + k) 0 = p.payload.getD k 0 := by
    rw [acceptAll_eq_writeAll h, getD_writeAll_of_mem (compatible_of_subset h) hmem hcov]
    simp [Packet.write]
  have hk' : k < p.payload.length := by omega
  have hpay : p.payload[k]? = p.data[k]? := List.getElem?_take_of_lt hk
  rw [List.getD_eq_getElem _ _ hlt, List.getD_eq_getElem _ _ hk'] at hval
  rw [← hpay, List.getElem?_eq_getElem hlt, List.getElem?_eq_getElem hk', hval]

/-- A byte that no accepted packet covers is zero. -/
theorem getElem?_acceptAll_of_gap {file : List Byte} {ps : List Packet}
    (h : ∀ p ∈ ps, p ∈ dataPackets file) {j : ℕ} (hj : j < (acceptAll ps).length)
    (hgap : ∀ p ∈ ps, ¬ (p.header.seqNo ≤ j ∧ j < p.header.seqNo + p.header.size)) :
    (acceptAll ps)[j]? = some 0 := by
  have hun : ∀ w ∈ ps.map Packet.write, ¬ Covers w j := by
    intro w hw
    obtain ⟨p, hp, rfl⟩ := List.mem_map.1 hw
    rw [covers_write_iff (h p hp)]
    exact hgap p hp
  have hval := getD_writeAll_of_uncovered hun
  rw [← acceptAll_eq_writeAll h, List.getD_eq_getElem _ _ hj] at hval
  rw [List.getElem?_eq_getElem hj, hval]

/-- **Writes are order-independent and idempotent.**  Two sequences of packets of one file with the
same members leave the same output; it holds each accepted payload at its sequence number, zeros in
the gaps, and ends with the last byte of an accepted packet. -/
theorem acceptAll_congr (file : List Byte) (ps qs : List Packet)
    (hps : ∀ p ∈ ps, p ∈ dataPackets file) (hqs : ∀ q ∈ qs, q ∈ dataPackets file)
    (hset : ∀ p, p ∈ ps ↔ p ∈ qs) :
    acceptAll ps = acceptAll qs ∧
      (∀ p ∈ ps, ∀ k < p.header.size, (acceptAll ps)[p.header.seqNo + k]? = p.data[k]?) ∧
      (∀ j < (acceptAll ps).length,
        (∀ p ∈ ps, ¬ (p.header.seqNo ≤ j ∧ j < p.header.seqNo + p.header.size)) →
          (acceptAll ps)[j]? = some 0) ∧
      (acceptAll ps).length =
        ((ps.filter fun p => p.header.size ≠ 0).map fun p =>
          p.header.seqNo + p.header.size).foldr max 0 := by
  refine ⟨?_, fun p hp k hk => getElem?_acceptAll hps hp hk,
    fun j hj hgap => getElem?_acceptAll_of_gap hps hj hgap, length_acceptAll hps⟩
  rw [acceptAll_eq_writeAll hps, acceptAll_eq_writeAll hqs]
  refine writeAll_congr (compatible_of_subset hps) ?_
  intro w
  simp only [List.mem_map]
  exact exists_congr fun p => and_congr_left fun _ => hset p

/-- Seven bytes make three data packets; the last two alone leave a hole of five zeros, in either
order. -/
theorem acceptAll_congr_hole :
    acceptAll ((dataPackets [1, 2, 3, 4, 5, 6, 7]).drop 1) = [0, 0, 0, 0, 0, 6] ∧
      acceptAll ((dataPackets [1, 2, 3, 4, 5, 6, 7]).drop 1) =
        acceptAll ((dataPackets [1, 2, 3, 4, 5, 6, 7]).drop 1).reverse := by
  refine ⟨by decide, ?_⟩
  exact (acceptAll_congr [1, 2, 3, 4, 5, 6, 7] _ _ (fun p hp => List.mem_of_mem_drop hp)
    (fun p hp => List.mem_of_mem_drop (List.mem_reverse.1 hp)) (fun p => List.mem_reverse.symm)).1

/-! ### Framing -/

/-- `sizeof(Packet)`: a header of 19 bytes padded to 24, five bytes of data, padded to 32. -/
def sizeofPacket : ℕ := 32

/-- The memory image of a `Packet`. -/
structure Image where
  bytes : List Byte
  length_bytes : bytes.length = sizeofPacket
  deriving DecidableEq

/-- The image in `recv_packet`, which starts zeroed, after `read` has stored `got` there. -/
def Image.ofRead (got : List Byte) : Image :=
  ⟨got.take sizeofPacket ++ List.replicate (sizeofPacket - got.length) 0, by simp; omega⟩

/-- One call of `serve_connection` on the stream: `read` returns `n` bytes, and the packet that is
processed is whatever `recv_packet` holds then. -/
def readPacket (stream : List Byte) (n : ℕ) : Image × List Byte :=
  (Image.ofRead (stream.take n), stream.drop n)

/-- The packets processed by repeated calls whose reads return `reads` bytes. -/
def processed : List Byte → List ℕ → List Image
  | _, [] => []
  | stream, n :: reads => (readPacket stream n).1 :: processed (readPacket stream n).2 reads

@[simp] theorem length_processed (stream : List Byte) (reads : List ℕ) :
    (processed stream reads).length = reads.length := by
  induction reads generalizing stream with
  | nil => rfl
  | cons n reads ih => simp [processed, ih]

theorem Image.ofRead_bytes (m : Image) : Image.ofRead m.bytes = m := by
  obtain ⟨bytes, hlen⟩ := m
  simp [Image.ofRead, hlen]

theorem length_flatMap_bytes (ms : List Image) :
    (ms.flatMap Image.bytes).length = ms.length * sizeofPacket := by
  induction ms with
  | nil => simp
  | cons m ms ih => rw [List.flatMap_cons, List.length_append, ih, m.length_bytes,
      List.length_cons, Nat.succ_mul, Nat.add_comm]

/-- Full reads give back the packets. -/
theorem processed_of_full (ms : List Image) :
    processed (ms.flatMap Image.bytes) (List.replicate ms.length sizeofPacket) = ms := by
  induction ms with
  | nil => rfl
  | cons m ms ih =>
      have htake : (m.bytes ++ ms.flatMap Image.bytes).take sizeofPacket = m.bytes := by
        rw [List.take_append_of_le_length m.length_bytes.ge, List.take_of_length_le
          m.length_bytes.le]
      have hdrop : (m.bytes ++ ms.flatMap Image.bytes).drop sizeofPacket =
          ms.flatMap Image.bytes := by
        rw [← m.length_bytes, List.drop_left]
      rw [List.length_cons, List.replicate_succ, List.flatMap_cons, processed, readPacket, htake,
        hdrop, ih, Image.ofRead_bytes]

/-- Reads of at most `k` bytes that add up to `k` bytes each are all full. -/
theorem eq_of_sum_eq_mul {k : ℕ} {reads : List ℕ} (hle : ∀ n ∈ reads, n ≤ k)
    (hsum : reads.sum = reads.length * k) : ∀ n ∈ reads, n = k := by
  induction reads with
  | nil => simp
  | cons n reads ih =>
      have h := List.forall_mem_cons.1 hle
      have hrest : reads.sum ≤ reads.length * k := by
        simpa using List.sum_le_card_nsmul reads k h.2
      simp only [List.sum_cons, List.length_cons, Nat.succ_mul] at hsum
      exact List.forall_mem_cons.2 ⟨by omega, ih h.2 (by omega)⟩

/-- **Framing is right exactly when every read is full.**  The stream of the packets `ms` is
consumed by calls of `read` that return any positive number of bytes up to the number requested;
the packets processed are those sent if and only if none of the reads is short. -/
theorem processed_eq_iff (ms : List Image) (reads : List ℕ)
    (hread : ∀ n ∈ reads, 0 < n ∧ n ≤ sizeofPacket)
    (hall : reads.sum = (ms.flatMap Image.bytes).length) :
    processed (ms.flatMap Image.bytes) reads = ms ↔ ∀ n ∈ reads, n = sizeofPacket := by
  rw [length_flatMap_bytes] at hall
  constructor
  · intro h
    -- one packet is processed for each read, so the reads are as many as the packets
    have hlen : reads.length = ms.length := by
      rw [← length_processed (ms.flatMap Image.bytes) reads, h]
    exact eq_of_sum_eq_mul (fun n hn => (hread n hn).2) (by rw [hall, hlen])
  · intro h
    have hrep : reads = List.replicate reads.length sizeofPacket := List.eq_replicate_of_mem h
    have hlen : reads.length = ms.length := by
      rw [hrep, List.sum_replicate, smul_eq_mul] at hall
      exact Nat.eq_of_mul_eq_mul_right (by decide) hall
    rw [hrep, hlen]
    exact processed_of_full ms

/-- The image of a packet of ones. -/
def onesImage : Image := ⟨List.replicate sizeofPacket 1, by simp⟩

/-- One packet delivered in two halves is processed as two packets. -/
theorem processed_ne_of_short :
    (∀ n ∈ [16, 16], 0 < n ∧ n ≤ sizeofPacket) ∧
      [16, 16].sum = ([onesImage].flatMap Image.bytes).length ∧
      processed ([onesImage].flatMap Image.bytes) [16, 16] ≠ [onesImage] := by
  decide

/-- Two packets delivered by two full reads. -/
theorem processed_two_full :
    processed ([onesImage, onesImage].flatMap Image.bytes) [32, 32] = [onesImage, onesImage] :=
  (processed_eq_iff [onesImage, onesImage] [32, 32] (by decide) (by decide)).2 (by decide)

end StopWait
