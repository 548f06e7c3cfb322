/-
**Sniffer: frames and packets.**

The program listens on two sockets.  The loop of `main` receives IP packets.  A thread receives Ethernet
frames, which are a header of fourteen bytes and a packet behind it; it prints the addresses in this
header, and then calls `process_packet` with the frame and not with the packet in it.  What the entry
shows as an IP header are then the first bytes of the frame.

Main definitions:

* `Sniffer.threadTurn`, `Sniffer.mainTurn` — what the two do with what they receive;
* `Sniffer.ports` — the ports of an entry;
* `Sniffer.SameEntry` — the same counter, addresses and ports;
* `Sniffer.Alike` — the condition on the bytes.

Main results:

* `Sniffer.ports_eq_iff` — the bytes that the ports depend on;
* `Sniffer.sameEntry_iff` — **a frame is logged like its packet exactly if** they are alike.
-/

import NetworkProgramming.SnifferPacket

set_option relaxedAutoImplicit false
set_option autoImplicit false

namespace Sniffer

/-! ### The two loops -/

/-- The header of a frame. -/
structure EtherHeader where
  bytes : List UInt8
  length_eq : bytes.length = 14

/-- An IP packet has a header of twenty bytes at least. -/
structure IpPacket where
  bytes : List UInt8
  le_length : 20 ≤ bytes.length

/-- `%.2X`. -/
def hexPair (b : UInt8) : Text := [hexDigit (b.toNat / 16), hexDigit (b.toNat % 16)]

/-- The six bytes of an Ethernet address. -/
def macAddress (buffer : Bytes) (i : ℕ) : Text :=
  hexPair (buffer i) ++ '-' :: (hexPair (buffer (i + 1)) ++ '-' :: (hexPair (buffer (i + 2)) ++ '-' ::
    (hexPair (buffer (i + 3)) ++ '-' :: (hexPair (buffer (i + 4)) ++ '-' :: hexPair (buffer (i + 5))))))

/-- `print_ethernet_header`.  The protocol is in the order of the host. -/
def printEthernetHeader (buffer : Bytes) : Text :=
  "\nEthernet Header\n".toList ++
    entry "   |-Destination Address : " (macAddress buffer 0 ++ [' ']) ++
    entry "   |-Source Address      : " (macAddress buffer 6 ++ [' ']) ++
    entry "   |-Protocol            : "
      (dec ((buffer 12).toNat + 256 * (buffer 13).toNat) ++ [' '])

/-- One turn of the loop of `ThreadEntry`. -/
def threadTurn (c : Counters) (old : Bytes) (frame : List UInt8) : Counters × Text :=
  let buffer := recvfrom frame old
  let entry := processPacket c buffer
  (entry.1, printEthernetHeader buffer ++ entry.2)

/-- One turn of the loop of `main`. -/
def mainTurn (c : Counters) (old : Bytes) (packet : List UInt8) : Counters × Text :=
  processPacket c (recvfrom packet old)

/-- The ports of an entry, where it has some. -/
def ports (buffer : Bytes) : Option (ℕ × ℕ) :=
  if protoOf (buffer 9) = .tcp ∨ protoOf (buffer 9) = .udp then
    some (ntohs buffer (iphdrlen buffer), ntohs buffer (iphdrlen buffer + 2))
  else none

/-- The packet behind its header. -/
def frameOf (h : EtherHeader) (p : IpPacket) : List UInt8 := h.bytes ++ p.bytes

/-- **A frame is logged like its packet**: the same counter goes up, and the entries have the same
addresses and ports.  The two buffers had the bytes `old` and `old'` before. -/
def SameEntry (h : EtherHeader) (p : IpPacket) (old old' : Bytes) : Prop :=
  (∀ c, (threadTurn c old (frameOf h p)).1 = (mainTurn c old' p.bytes).1) ∧
    inetNtoa (recvfrom (frameOf h p) old) 12 = inetNtoa (recvfrom p.bytes old') 12 ∧
    inetNtoa (recvfrom (frameOf h p) old) 16 = inetNtoa (recvfrom p.bytes old') 16 ∧
    ports (recvfrom (frameOf h p) old) = ports (recvfrom p.bytes old')

/-- **The condition on the bytes.**  The byte 9 of the frame and of the packet stand for the same counter,
the bytes 12 to 19 are equal, and with TCP or UDP so are the four bytes behind the header lengths that
the first bytes of the frame and of the packet give. -/
structure Alike (h : EtherHeader) (p : IpPacket) (old old' : Bytes) : Prop where
  proto : protoOf (h.bytes.getD 9 0) = protoOf (p.bytes.getD 9 0)
  addresses : ∀ i, 12 ≤ i → i < 20 → (frameOf h p).getD i 0 = p.bytes.getD i 0
  ports : protoOf (p.bytes.getD 9 0) = .tcp ∨ protoOf (p.bytes.getD 9 0) = .udp → ∀ k < 4,
    recvfrom (frameOf h p) old ((h.bytes.getD 0 0).toNat % 16 * 4 + k) =
      recvfrom p.bytes old' ((p.bytes.getD 0 0).toNat % 16 * 4 + k)

/-! ### Fields of two buffers -/

section Fields

variable {b b' : Bytes}

theorem Counters.count_inj {c : Counters} {x y : Proto} (h : c.count x = c.count y) : x = y := by
  cases x <;> cases y <;> simp [Counters.count] at h ⊢

theorem ntohs_eq_iff {i i' : ℕ} :
    ntohs b i = ntohs b' i' ↔ b i = b' i' ∧ b (i + 1) = b' (i' + 1) := by
  have hlt := (b (i + 1)).toNat_lt
  have hlt' := (b' (i' + 1)).toNat_lt
  rw [← UInt8.toNat_inj, ← UInt8.toNat_inj, ntohs, ntohs]
  omega

theorem inetNtoa_eq_iff {i i' : ℕ} :
    inetNtoa b i = inetNtoa b' i' ↔ ∀ k < 4, b (i + k) = b' (i' + k) :=
  ⟨inetNtoa_inj, inetNtoa_congr⟩

/-- **The bytes that the ports depend on.** -/
theorem ports_eq_iff (hproto : protoOf (b 9) = protoOf (b' 9)) :
    ports b = ports b' ↔ (protoOf (b' 9) = .tcp ∨ protoOf (b' 9) = .udp →
      ∀ k < 4, b (iphdrlen b + k) = b' (iphdrlen b' + k)) := by
  unfold ports
  rw [hproto]
  by_cases hports : protoOf (b' 9) = .tcp ∨ protoOf (b' 9) = .udp
  · rw [if_pos hports, if_pos hports, Option.some_inj, Prod.mk_inj, ntohs_eq_iff, ntohs_eq_iff]
    constructor
    · rintro ⟨⟨h0, h1⟩, h2, h3⟩ - k hk
      interval_cases k
      · exact h0
      · exact h1
      · exact h2
      · exact h3
    · intro h
      have h := h hports
      exact ⟨⟨h 0 (by omega), h 1 (by omega)⟩, h 2 (by omega), h 3 (by omega)⟩
  · rw [if_neg hports, if_neg hports]
    exact iff_of_true rfl fun h => absurd h hports

end Fields

/-! ### Frames and their packets -/

section Frames

variable (h : EtherHeader) (p : IpPacket) (old old' : Bytes)

theorem recvfrom_frame {i : ℕ} (hi : i < 34) :
    recvfrom (frameOf h p) old i = (frameOf h p).getD i 0 := by
  have hlen : (frameOf h p).length = h.bytes.length + p.bytes.length := List.length_append
  have hbuf : bufSize = 65536 := rfl
  exact recvfrom_of_lt (by rw [hlen, h.length_eq]; have := p.le_length; omega) (by omega)

theorem recvfrom_packet {i : ℕ} (hi : i < 20) :
    recvfrom p.bytes old' i = p.bytes.getD i 0 := by
  have hbuf : bufSize = 65536 := rfl
  exact recvfrom_of_lt (hi.trans_le p.le_length) (by omega)

/-- The first bytes of a frame are those of its header. -/
theorem recvfrom_header {i : ℕ} (hi : i < 14) :
    recvfrom (frameOf h p) old i = h.bytes.getD i 0 := by
  rw [recvfrom_frame h p old (by omega)]
  exact List.getD_append _ _ _ _ (by rw [h.length_eq]; exact hi)

/-- The same counter goes up exactly if the protocols are counted together. -/
theorem counters_eq_iff :
    (∀ c, (threadTurn c old (frameOf h p)).1 = (mainTurn c old' p.bytes).1) ↔
      protoOf (h.bytes.getD 9 0) = protoOf (p.bytes.getD 9 0) := by
  have hframe := recvfrom_header h p old (by omega : 9 < 14)
  have hpacket := recvfrom_packet p old' (by omega : 9 < 20)
  simp only [threadTurn, mainTurn, processPacket, hframe, hpacket]
  constructor
  · intro hc
    exact Counters.count_inj (hc ⟨0, 0, 0, 0, 0, 0⟩)
  · intro hproto c
    rw [hproto]

/-- An address is the same exactly if its bytes are. -/
theorem address_eq_iff {i : ℕ} (hi : i + 4 ≤ 20) :
    inetNtoa (recvfrom (frameOf h p) old) i = inetNtoa (recvfrom p.bytes old') i ↔
      ∀ k < 4, (frameOf h p).getD (i + k) 0 = p.bytes.getD (i + k) 0 := by
  rw [inetNtoa_eq_iff]
  refine forall_congr' fun k => imp_congr_right fun hk => ?_
  rw [recvfrom_frame h p old (by omega), recvfrom_packet p old' (by omega)]

/-- With protocols that are counted together, the ports are the same exactly if their bytes are. -/
theorem ports_frame_eq_iff (hproto : protoOf (h.bytes.getD 9 0) = protoOf (p.bytes.getD 9 0)) :
    ports (recvfrom (frameOf h p) old) = ports (recvfrom p.bytes old') ↔
      (protoOf (p.bytes.getD 9 0) = .tcp ∨ protoOf (p.bytes.getD 9 0) = .udp → ∀ k < 4,
        recvfrom (frameOf h p) old ((h.bytes.getD 0 0).toNat % 16 * 4 + k) =
          recvfrom p.bytes old' ((p.bytes.getD 0 0).toNat % 16 * 4 + k)) := by
  have hpacket := recvfrom_packet p old' (by omega : 9 < 20)
  have hsame : protoOf (recvfrom (frameOf h p) old 9) = protoOf (recvfrom p.bytes old' 9) := by
    rw [recvfrom_header h p old (by omega), hpacket, hproto]
  rw [ports_eq_iff hsame, iphdrlen, iphdrlen, recvfrom_header h p old (by omega), hpacket,
    recvfrom_packet p old' (by omega : 0 < 20)]

end Frames

/-- **When a frame is logged like its packet.**  The counter, the addresses and the ports are the same
exactly if the frame and the packet have like protocols in byte 9, equal bytes 12 to 19, and, with TCP or
UDP, equal bytes at the places where the ports are read. -/
theorem sameEntry_iff (h : EtherHeader) (p : IpPacket) (old old' : Bytes) :
    SameEntry h p old old' ↔ Alike h p old old' := by
  rw [SameEntry, counters_eq_iff, address_eq_iff h p old old' (by omega),
    address_eq_iff h p old old' (by omega)]
  constructor
  · rintro ⟨hproto, hsource, hdest, hports⟩
    refine ⟨hproto, ?_, (ports_frame_eq_iff h p old old' hproto).1 hports⟩
    intro i hi hi'
    rcases lt_or_ge i 16 with hlt | hge
    · obtain ⟨k, rfl⟩ := Nat.exists_eq_add_of_le hi
      exact hsource k (by omega)
    · obtain ⟨k, rfl⟩ := Nat.exists_eq_add_of_le hge
      exact hdest k (by omega)
  · rintro ⟨hproto, haddress, hports⟩
    refine ⟨hproto, ?_, ?_, (ports_frame_eq_iff h p old old' hproto).2 hports⟩
    · exact fun k hk => haddress (12 + k) (by omega) (by omega)
    · exact fun k hk => haddress (16 + k) (by omega) (by omega)

/-- A header with two addresses, for IP. -/
def macHeader : EtherHeader :=
  ⟨[0xff, 0xff, 0xff, 0xff, 0xff, 0xff, 0x02, 0, 0, 0, 0, 1, 0x08, 0], rfl⟩

/-- A TCP packet from `10.0.0.1` to `10.0.0.2`. -/
def synPacket : IpPacket :=
  ⟨[0x45, 0, 0, 40, 0, 0, 0, 0, 64, 6, 0, 0, 10, 0, 0, 1, 10, 0, 0, 2,
    3, 232, 0, 80, 0, 0, 0, 1, 0, 0, 0, 0, 0x50, 2, 32, 0, 0, 0, 0, 0], by decide⟩

/-- Without its header the packet is a TCP packet; in the frame it is counted with the others. -/
theorem not_sameEntry_synPacket :
    ¬ ∀ (h : EtherHeader) (p : IpPacket) (old old' : Bytes), SameEntry h p old old' := by
  intro hall
  have hcounters := (hall macHeader synPacket (fun _ => 0) (fun _ => 0)).1
  rw [counters_eq_iff] at hcounters
  exact absurd hcounters (by decide)

end Sniffer
