/-
**Sniffer: the log entry of a packet.**

`process_packet` takes a pointer to a buffer and not the number of bytes in it.  It reads the fields of
an IP header, and behind `ihl * 4` bytes the fields of the header that the protocol stands for.  The
buffer is used for all packets; where a packet is too short for its fields, they are bytes of packets
that came before it.

Main definitions:

* `Sniffer.recvfrom` — a packet in the buffer, with what was there before behind it;
* `Sniffer.printIpHeader`, `Sniffer.printTcpPacket`, `Sniffer.printUdpPacket`,
  `Sniffer.printIcmpPacket` — the text of the log;
* `Sniffer.processPacket` — the counters and the text;
* `Sniffer.Independent` — the text is the same after all histories;
* `Sniffer.Whole` — the packet has all bytes that its protocol asks for.

Main results:

* `Sniffer.logText_congr` — the bytes that the text depends on;
* `Sniffer.inetNtoa_inj` — an address determines its bytes;
* `Sniffer.independent_iff` — **the text depends on the packet alone exactly if** the packet is whole.
-/

import Mathlib
import NetworkProgramming.SnifferDump

set_option relaxedAutoImplicit false
set_option autoImplicit false

namespace Sniffer

/-! ### The buffer -/

/-- The size of the buffer. -/
def bufSize : ℕ := 65536

/-- `recvfrom`: the packet, up to the size of the buffer; the other bytes keep their values. -/
def recvfrom (packet : List UInt8) (old : Bytes) : Bytes :=
  fun i => ((packet.take bufSize)[i]?).getD (old i)

/-- The buffer after the packets of a history. -/
def history (init : Bytes) (packets : List (List UInt8)) : Bytes :=
  packets.foldl (fun old packet => recvfrom packet old) init

/-! ### Fields -/

/-- `%d` and `%u`. -/
def dec (n : ℕ) : Text := n.repr.toList

/-- `inet_ntoa`. -/
def inetNtoa (buffer : Bytes) (i : ℕ) : Text :=
  dec (buffer i).toNat ++ '.' :: (dec (buffer (i + 1)).toNat ++ '.' ::
    (dec (buffer (i + 2)).toNat ++ '.' :: dec (buffer (i + 3)).toNat))

/-- Two bytes in the order of the network. -/
def ntohs (buffer : Bytes) (i : ℕ) : ℕ := 256 * (buffer i).toNat + (buffer (i + 1)).toNat

/-- Four bytes in the order of the network. -/
def ntohl (buffer : Bytes) (i : ℕ) : ℕ := 65536 * ntohs buffer i + ntohs buffer (i + 2)

/-- A flag. -/
def bit (b : UInt8) (k : ℕ) : ℕ := b.toNat / 2 ^ k % 2

/-- `iph->ihl * 4`. -/
def iphdrlen (buffer : Bytes) : ℕ := (buffer 0).toNat % 16 * 4

/-- A line of the log. -/
def entry (label : String) (value : Text) : Text := label.toList ++ value ++ ['\n']

/-! ### The text of a packet -/

/-- The protocols of the `switch`. -/
inductive Proto
  | icmp
  | igmp
  | tcp
  | udp
  | others
  deriving DecidableEq

def protoOf (protocol : UInt8) : Proto :=
  if protocol = 1 then .icmp
  else if protocol = 2 then .igmp
  else if protocol = 6 then .tcp
  else if protocol = 17 then .udp
  else .others

/-- The line above the IP header. -/
def Proto.banner : Proto → Text
  | .icmp => "\n\n***********************ICMP Packet*************************\n".toList
  | .tcp => "\n\n***********************TCP Packet*************************\n".toList
  | .udp => "\n\n***********************UDP Packet*************************\n".toList
  | _ => []

/-- `print_ip_header`. -/
def printIpHeader (buffer : Bytes) : Text :=
  "\nIP Header\n".toList ++
    entry "   |-Source IP        : " (inetNtoa buffer 12) ++
    entry "   |-Destination IP   : " (inetNtoa buffer 16) ++
    entry "   |-TTL      : " (dec (buffer 8).toNat) ++
    entry "   |-Protocol : " (dec (buffer 9).toNat)

/-- The line of signs that ends a packet. -/
def closingLine : Text := "\n###########################################################".toList

/-- The first lines of `print_tcp_packet`, the header of the packet at `tcph`. -/
def tcpFields (buffer : Bytes) (tcph : ℕ) : Text :=
  "\nTCP Header\n".toList ++
    entry "   |-Source Port      : " (dec (ntohs buffer tcph)) ++
    entry "   |-Destination Port : " (dec (ntohs buffer (tcph + 2))) ++
    entry "   |-Sequence Number    : " (dec (ntohl buffer (tcph + 4))) ++
    entry "   |- ACK : " (dec (bit (buffer (tcph + 13)) 4)) ++
    entry "   |- RST           : " (dec (bit (buffer (tcph + 13)) 2)) ++
    entry "   |- SYN     : " (dec (bit (buffer (tcph + 13)) 1)) ++
    entry "   |- FIN          : " (dec (bit (buffer (tcph + 13)) 0))

/-- `print_tcp_packet`. -/
def printTcpPacket (buffer : Bytes) : Text :=
  Proto.banner .tcp ++ printIpHeader buffer ++ tcpFields buffer (iphdrlen buffer) ++
    entry "   |- WINDOW         : " (dec (ntohs buffer (iphdrlen buffer + 14))) ++
    ['\n'] ++ closingLine

/-- The first lines of `print_udp_packet`, the header of the packet at `udph`. -/
def udpFields (buffer : Bytes) (udph : ℕ) : Text :=
  "\nUDP Header\n".toList ++
    entry "   |-Source Port      : " (dec (ntohs buffer udph)) ++
    entry "   |-Destination Port : " (dec (ntohs buffer (udph + 2))) ++
    "\nIP Header\n".toList ++ printData buffer udph ++ "UDP Header\n".toList

/-- `print_udp_packet`.  The size of the second dump is that of a pointer. -/
def printUdpPacket (buffer : Bytes) : Text :=
  Proto.banner .udp ++ printIpHeader buffer ++ udpFields buffer (iphdrlen buffer) ++
    printData (fun i => buffer (iphdrlen buffer + i)) 8 ++ closingLine

/-- `print_icmp_packet`. -/
def printIcmpPacket (buffer : Bytes) : Text :=
  Proto.banner .icmp ++ printIpHeader buffer ++ "\nICMP Header\n   |-Type : ".toList ++
    dec (buffer (iphdrlen buffer)).toNat ++ closingLine

/-! ### `process_packet` -/

/-- The counters. -/
structure Counters where
  tcp : ℕ
  udp : ℕ
  icmp : ℕ
  others : ℕ
  igmp : ℕ
  total : ℕ
  deriving DecidableEq

/-- A packet is counted. -/
def Counters.count (c : Counters) : Proto → Counters
  | .icmp => { c with total := c.total + 1, icmp := c.icmp + 1 }
  | .igmp => { c with total := c.total + 1, igmp := c.igmp + 1 }
  | .tcp => { c with total := c.total + 1, tcp := c.tcp + 1 }
  | .udp => { c with total := c.total + 1, udp := c.udp + 1 }
  | .others => { c with total := c.total + 1, others := c.others + 1 }

/-- What is written to the log for a packet. -/
def logText (buffer : Bytes) : Text :=
  match protoOf (buffer 9) with
  | .icmp => printIcmpPacket buffer
  | .igmp => printIpHeader buffer
  | .tcp => printTcpPacket buffer
  | .udp => printUdpPacket buffer
  | .others => printIpHeader buffer

/-- `process_packet`. -/
def processPacket (c : Counters) (buffer : Bytes) : Counters × Text :=
  (c.count (protoOf (buffer 9)), logText buffer)

/-! ### Two histories -/

/-- **The text depends on the packet alone.** -/
def Independent (packet : List UInt8) : Prop :=
  ∀ (c : Counters) (init : Bytes) (before before' : List (List UInt8)),
    (processPacket c (recvfrom packet (history init before))).2 =
      (processPacket c (recvfrom packet (history init before'))).2

/-- The number of bytes that a protocol asks for behind the IP header. -/
def Proto.headerSize : Proto → ℕ
  | .icmp => 1
  | .tcp => 16
  | .udp => 8
  | _ => 0

/-- **The packet is whole**: it has an IP header of twenty bytes and, where the protocol has fields of its
own, these too. -/
def Whole (packet : List UInt8) : Prop :=
  20 ≤ packet.length ∧
    ((protoOf (packet.getD 9 0)).headerSize ≠ 0 →
      (packet.getD 0 0).toNat % 16 * 4 + (protoOf (packet.getD 9 0)).headerSize ≤ packet.length)

instance (packet : List UInt8) : Decidable (Whole packet) := inferInstanceAs (Decidable (_ ∧ _))

/-! ### The bytes that a text depends on -/

section Congr

variable {b b' : Bytes}

theorem printData_congr {data data' : Bytes} {size : ℕ} (h : ∀ i < size, data i = data' i) :
    printData data size = printData data' size := by
  have hchunk : ∀ r, chunk data size r = chunk data' size r := by
    intro r
    refine List.map_congr_left ?_
    intro i hi
    have hi := List.mem_range'_1.1 hi
    exact h i (by omega)
  rw [printData_eq, printData_eq]
  simp only [hchunk]

theorem inetNtoa_congr {i i' : ℕ} (h : ∀ k < 4, b (i + k) = b' (i' + k)) :
    inetNtoa b i = inetNtoa b' i' := by
  have hfirst : b i = b' i' := h 0 (by omega)
  rw [inetNtoa, inetNtoa, hfirst, h 1 (by omega), h 2 (by omega), h 3 (by omega)]

theorem ntohs_congr {i : ℕ} (h : b i = b' i) (h' : b (i + 1) = b' (i + 1)) :
    ntohs b i = ntohs b' i := by
  rw [ntohs, ntohs, h, h']

theorem iphdrlen_congr (h : b 0 = b' 0) : iphdrlen b = iphdrlen b' := by
  rw [iphdrlen, iphdrlen, h]

theorem printIpHeader_congr (h : ∀ i < 20, b i = b' i) : printIpHeader b = printIpHeader b' := by
  have hsource : inetNtoa b 12 = inetNtoa b' 12 := inetNtoa_congr fun k hk => h (12 + k) (by omega)
  have hdest : inetNtoa b 16 = inetNtoa b' 16 := inetNtoa_congr fun k hk => h (16 + k) (by omega)
  unfold printIpHeader
  rw [hsource, hdest, h 8 (by omega), h 9 (by omega)]

theorem tcpFields_congr {t : ℕ} (h : ∀ k < 14, b (t + k) = b' (t + k)) :
    tcpFields b t = tcpFields b' t := by
  have hsource : ntohs b t = ntohs b' t := ntohs_congr (h 0 (by omega)) (h 1 (by omega))
  have hdest : ntohs b (t + 2) = ntohs b' (t + 2) := ntohs_congr (h 2 (by omega)) (h 3 (by omega))
  have hseq : ntohl b (t + 4) = ntohl b' (t + 4) := by
    have hhigh : ntohs b (t + 4) = ntohs b' (t + 4) := ntohs_congr (h 4 (by omega)) (h 5 (by omega))
    have hlow : ntohs b (t + 4 + 2) = ntohs b' (t + 4 + 2) :=
      ntohs_congr (h 6 (by omega)) (h 7 (by omega))
    rw [ntohl, ntohl, hhigh, hlow]
  unfold tcpFields
  rw [hsource, hdest, hseq, h 13 (by omega)]

theorem udpFields_congr {t : ℕ} (h : ∀ k < 4, b (t + k) = b' (t + k)) (hip : ∀ i < t, b i = b' i) :
    udpFields b t = udpFields b' t := by
  have hsource : ntohs b t = ntohs b' t := ntohs_congr (h 0 (by omega)) (h 1 (by omega))
  have hdest : ntohs b (t + 2) = ntohs b' (t + 2) := ntohs_congr (h 2 (by omega)) (h 3 (by omega))
  have hdump : printData b t = printData b' t := printData_congr hip
  unfold udpFields
  rw [hsource, hdest, hdump]

/-- **The bytes that the text depends on**: the IP header, and what the protocol asks for behind it. -/
theorem logText_congr (hip : ∀ i < 20, b i = b' i)
    (h : (protoOf (b 9)).headerSize ≠ 0 →
      ∀ i < iphdrlen b + (protoOf (b 9)).headerSize, b i = b' i) :
    logText b = logText b' := by
  have hlen : iphdrlen b' = iphdrlen b := (iphdrlen_congr (hip 0 (by omega))).symm
  have hheader : printIpHeader b = printIpHeader b' := printIpHeader_congr hip
  unfold logText
  rw [← hip 9 (by omega)]
  cases hproto : protoOf (b 9) with
  | icmp =>
      have h : ∀ i < iphdrlen b + 1, b i = b' i := by
        rw [hproto] at h
        exact h Nat.one_ne_zero
      dsimp only
      unfold printIcmpPacket
      rw [hlen, hheader, h (iphdrlen b) (Nat.lt_succ_self _)]
  | igmp => exact hheader
  | tcp =>
      have h : ∀ i < iphdrlen b + 16, b i = b' i := by
        rw [hproto] at h
        exact h (Nat.succ_ne_zero _)
      have hfields : tcpFields b (iphdrlen b) = tcpFields b' (iphdrlen b) :=
        tcpFields_congr fun k hk => h _ (by omega)
      have hwindow : ntohs b (iphdrlen b + 14) = ntohs b' (iphdrlen b + 14) :=
        ntohs_congr (h _ (by omega)) (h _ (by omega))
      dsimp only
      unfold printTcpPacket
      rw [hlen, hheader, hfields, hwindow]
  | udp =>
      have h : ∀ i < iphdrlen b + 8, b i = b' i := by
        rw [hproto] at h
        exact h (Nat.succ_ne_zero _)
      have hfields : udpFields b (iphdrlen b) = udpFields b' (iphdrlen b) :=
        udpFields_congr (fun k hk => h _ (by omega)) (fun i hi => h i (by omega))
      have hdump : printData (fun i => b (iphdrlen b + i)) 8 =
          printData (fun i => b' (iphdrlen b + i)) 8 :=
        printData_congr fun i hi => h _ (by omega)
      dsimp only
      unfold printUdpPacket
      rw [hlen, hheader, hfields, hdump]
  | others => exact hheader

end Congr

/-! ### The bytes that a text shows -/

section Shown

variable {b b' : Bytes}

theorem dec_inj {m n : ℕ} (h : dec m = dec n) : m = n :=
  Nat.repr_injective (String.toList_injective h)

theorem notMem_dec {c : Char} (hc : c.isDigit = false) (n : ℕ) : c ∉ dec n := by
  intro hmem
  rw [dec, Nat.toList_repr] at hmem
  have hdigit := Nat.isDigit_of_mem_toDigits (by omega) (by omega) hmem
  rw [hc] at hdigit
  cases hdigit

theorem dec_toNat_inj {x y : UInt8} (h : dec x.toNat = dec y.toNat) : x = y :=
  UInt8.toNat_inj.1 (dec_inj h)

/-- **An address determines its bytes.** -/
theorem inetNtoa_inj {i i' : ℕ} (h : inetNtoa b i = inetNtoa b' i') :
    ∀ k < 4, b (i + k) = b' (i' + k) := by
  have hdot : ∀ n, '.' ∉ dec n := notMem_dec (by decide)
  obtain ⟨h0, h⟩ := append_sep_inj (hdot _) (hdot _) h
  obtain ⟨h1, h⟩ := append_sep_inj (hdot _) (hdot _) h
  obtain ⟨h2, h3⟩ := append_sep_inj (hdot _) (hdot _) h
  intro k hk
  interval_cases k
  · exact dec_toNat_inj h0
  · exact dec_toNat_inj h1
  · exact dec_toNat_inj h2
  · exact dec_toNat_inj h3

theorem newline_notMem_inetNtoa (i : ℕ) : '\n' ∉ inetNtoa b i := by
  have hnewline : ∀ n, '\n' ∉ dec n := notMem_dec (by decide)
  simp [inetNtoa, hnewline]

theorem entry_inj {label : String} {v v' : Text} (h : entry label v = entry label v') : v = v' :=
  List.append_cancel_left (List.append_cancel_right h)

/-- Every entry begins with the IP header. -/
theorem exists_logText_eq (b : Bytes) :
    ∃ rest, logText b = (protoOf (b 9)).banner ++ (printIpHeader b ++ rest) := by
  unfold logText
  cases protoOf (b 9) with
  | icmp =>
      refine ⟨"\nICMP Header\n   |-Type : ".toList ++ dec (b (iphdrlen b)).toNat ++ closingLine, ?_⟩
      simp only [printIcmpPacket, List.append_assoc]
  | igmp => exact ⟨[], (List.append_nil _).symm⟩
  | tcp =>
      refine ⟨tcpFields b (iphdrlen b) ++
        entry "   |- WINDOW         : " (dec (ntohs b (iphdrlen b + 14))) ++ ['\n'] ++ closingLine, ?_⟩
      simp only [printTcpPacket, List.append_assoc]
  | udp =>
      refine ⟨udpFields b (iphdrlen b) ++ printData (fun i => b (iphdrlen b + i)) 8 ++ closingLine, ?_⟩
      simp only [printUdpPacket, List.append_assoc]
  | others => exact ⟨[], (List.append_nil _).symm⟩

/-- Entries of one protocol and one source with the same text have the same destination. -/
theorem dest_of_logText (hproto : b 9 = b' 9) (hsource : inetNtoa b 12 = inetNtoa b' 12)
    (h : logText b = logText b') : inetNtoa b 16 = inetNtoa b' 16 := by
  obtain ⟨rest, hrest⟩ := exists_logText_eq b
  obtain ⟨rest', hrest'⟩ := exists_logText_eq b'
  rw [hrest, hrest', hproto] at h
  have h := List.append_cancel_left h
  unfold printIpHeader at h
  rw [hsource] at h
  simp only [List.append_assoc] at h
  have h := List.append_cancel_left (List.append_cancel_left h)
  unfold entry at h
  simp only [List.append_assoc] at h
  have h := List.append_cancel_left h
  exact (append_sep_inj (newline_notMem_inetNtoa 16) (newline_notMem_inetNtoa 16) h).1

/-- The type of an ICMP packet is shown. -/
theorem icmp_of_text (hip : ∀ i < 20, b i = b' i) (h : printIcmpPacket b = printIcmpPacket b') :
    b (iphdrlen b) = b' (iphdrlen b) := by
  unfold printIcmpPacket at h
  rw [← printIpHeader_congr hip, ← iphdrlen_congr (hip 0 (by omega))] at h
  exact dec_toNat_inj (List.append_cancel_left (List.append_cancel_right h))

/-- The window of a TCP packet is shown. -/
theorem window_of_text (hip : ∀ i < 20, b i = b' i)
    (hfields : ∀ k < 14, b (iphdrlen b + k) = b' (iphdrlen b + k))
    (h : printTcpPacket b = printTcpPacket b') :
    ntohs b (iphdrlen b + 14) = ntohs b' (iphdrlen b + 14) := by
  unfold printTcpPacket at h
  rw [← printIpHeader_congr hip, ← iphdrlen_congr (hip 0 (by omega)), ← tcpFields_congr hfields] at h
  have h := List.append_cancel_right (List.append_cancel_right h)
  exact dec_inj (entry_inj (List.append_cancel_left h))

/-- The eight bytes behind the IP header of a UDP packet are shown. -/
theorem dump_of_text (hip : ∀ i < 20, b i = b' i)
    (hfields : ∀ k < 4, b (iphdrlen b + k) = b' (iphdrlen b + k))
    (hdump : ∀ i < iphdrlen b, b i = b' i) (h : printUdpPacket b = printUdpPacket b') :
    ∀ k < 8, b (iphdrlen b + k) = b' (iphdrlen b + k) := by
  unfold printUdpPacket at h
  rw [← printIpHeader_congr hip, ← iphdrlen_congr (hip 0 (by omega)),
    ← udpFields_congr hfields hdump] at h
  exact (printData_inj (List.append_cancel_left (List.append_cancel_right h))).2

/-- The last byte of a header is shown: buffers that differ in no other byte have different texts. -/
theorem last_of_logText (hip : ∀ i < 20, b i = b' i) (hsize : (protoOf (b 9)).headerSize ≠ 0)
    (hsame : ∀ i ≠ iphdrlen b + (protoOf (b 9)).headerSize - 1, b i = b' i)
    (h : logText b = logText b') :
    b (iphdrlen b + (protoOf (b 9)).headerSize - 1) =
      b' (iphdrlen b + (protoOf (b 9)).headerSize - 1) := by
  unfold logText at h
  rw [← hip 9 (by omega)] at h
  cases hproto : protoOf (b 9) with
  | icmp =>
      rw [hproto] at h
      exact icmp_of_text hip h
  | igmp =>
      rw [hproto] at hsize
      exact absurd rfl hsize
  | tcp =>
      rw [hproto] at hsame h
      have hsame : ∀ i ≠ iphdrlen b + 15, b i = b' i := hsame
      have hwindow := window_of_text hip (fun k hk => hsame _ (by omega)) h
      rw [ntohs, ntohs, hsame _ (by omega)] at hwindow
      exact UInt8.toNat_inj.1 (Nat.add_left_cancel hwindow)
  | udp =>
      rw [hproto] at hsame h
      have hsame : ∀ i ≠ iphdrlen b + 7, b i = b' i := hsame
      exact dump_of_text hip (fun k hk => hsame _ (by omega)) (fun i hi => hsame i (by omega)) h 7
        (by omega)
  | others =>
      rw [hproto] at hsize
      exact absurd rfl hsize

end Shown

/-! ### Histories -/

section Histories

variable {packet : List UInt8} {old : Bytes} {i k : ℕ}

theorem recvfrom_of_lt (hi : i < packet.length) (hbuf : i < bufSize) :
    recvfrom packet old i = packet.getD i 0 := by
  rw [recvfrom, List.getElem?_take_of_lt hbuf, List.getElem?_eq_getElem hi, Option.getD_some,
    List.getD_eq_getElem _ _ hi]

theorem recvfrom_of_le (hi : packet.length ≤ i) : recvfrom packet old i = old i := by
  rw [recvfrom, List.getElem?_eq_none (by rw [List.length_take]; omega), Option.getD_none]

/-- The fields of a packet are in the first bytes of the buffer. -/
theorem header_lt_bufSize (packet : List UInt8) :
    (packet.getD 0 0).toNat % 16 * 4 + (protoOf (packet.getD 9 0)).headerSize < bufSize := by
  have hbound : (packet.getD 0 0).toNat % 16 < 16 := Nat.mod_lt _ (by omega)
  have hle : (protoOf (packet.getD 9 0)).headerSize ≤ 16 := by
    cases protoOf (packet.getD 9 0) <;> decide
  have hbuf : bufSize = 65536 := rfl
  omega

/-- The bytes of two histories can differ in any one byte of the buffer. -/
theorem exists_histories (init : Bytes) (hk : k < bufSize) :
    ∃ before before', (∀ i ≠ k, history init before i = history init before' i) ∧
      history init before k ≠ history init before' k := by
  refine ⟨[List.replicate k 0 ++ [0]], [List.replicate k 0 ++ [1]], ?_, ?_⟩
  · intro i hi
    simp only [history, List.foldl_cons, List.foldl_nil]
    rcases lt_or_gt_of_ne hi with hlt | hgt
    · rw [recvfrom_of_lt (by simp; omega) (by omega), recvfrom_of_lt (by simp; omega) (by omega),
        List.getD_append _ _ _ _ (by simpa using hlt), List.getD_append _ _ _ _ (by simpa using hlt)]
    · rw [recvfrom_of_le (by simp; omega), recvfrom_of_le (by simp; omega)]
  · simp only [history, List.foldl_cons, List.foldl_nil]
    rw [recvfrom_of_lt (by simp) hk, recvfrom_of_lt (by simp) hk,
      List.getD_append_right _ _ _ _ (by simp), List.getD_append_right _ _ _ _ (by simp)]
    simp

/-- Where the text depends on the packet alone, two buffers that differ only in a byte behind the packet
have the same text. -/
theorem exists_buffers (h : Independent packet) (hk : packet.length ≤ k) (hbuf : k < bufSize) :
    ∃ b b' : Bytes, (∀ i < packet.length, b i = packet.getD i 0) ∧ (∀ i ≠ k, b i = b' i) ∧
      b k ≠ b' k ∧ logText b = logText b' := by
  obtain ⟨before, before', hsame, hdiff⟩ := exists_histories (fun _ => 0) hbuf
  refine ⟨_, _, fun i hi => recvfrom_of_lt hi (by omega), ?_, ?_,
    h ⟨0, 0, 0, 0, 0, 0⟩ (fun _ => 0) before before'⟩
  · intro i hi
    rcases lt_or_ge i packet.length with hlt | hge
    · rw [recvfrom_of_lt hlt (by omega), recvfrom_of_lt hlt (by omega)]
    · rw [recvfrom_of_le hge, recvfrom_of_le hge]
      exact hsame i hi
  · rw [recvfrom_of_le hk, recvfrom_of_le hk]
    exact hdiff

/-- A packet without a whole IP header shows a byte behind it. -/
theorem length_of_independent (h : Independent packet) : 20 ≤ packet.length := by
  by_contra hlen
  obtain ⟨b, b', -, hsame, hdiff, htext⟩ :=
    exists_buffers (k := 19) h (by omega) (by decide)
  have hsource : inetNtoa b 12 = inetNtoa b' 12 :=
    inetNtoa_congr fun k hk => hsame _ (by omega)
  have hdest := dest_of_logText (hsame 9 (by omega)) hsource htext
  exact hdiff (inetNtoa_inj hdest 3 (by omega))

/-- A packet without the whole header of its protocol shows a byte behind it. -/
theorem headerSize_of_independent (h : Independent packet) (hip : 20 ≤ packet.length)
    (hsize : (protoOf (packet.getD 9 0)).headerSize ≠ 0) :
    (packet.getD 0 0).toNat % 16 * 4 + (protoOf (packet.getD 9 0)).headerSize ≤ packet.length := by
  by_contra hlen
  have hbuf := header_lt_bufSize packet
  obtain ⟨b, b', hpacket, hsame, hdiff, htext⟩ := exists_buffers
    (k := (packet.getD 0 0).toNat % 16 * 4 + (protoOf (packet.getD 9 0)).headerSize - 1) h
    (by omega) (by omega)
  have hlenb : (packet.getD 0 0).toNat % 16 * 4 = iphdrlen b := by
    rw [iphdrlen, hpacket 0 (by omega)]
  have hprotob : protoOf (packet.getD 9 0) = protoOf (b 9) := by rw [hpacket 9 (by omega)]
  have hfirst : ∀ i < 20, b i = b' i := fun i hi => hsame i (by omega)
  rw [hlenb, hprotob] at hsame hdiff
  rw [hprotob] at hsize
  exact hdiff (last_of_logText hfirst hsize hsame htext)

/-- A packet that is whole shows its own bytes only. -/
theorem independent_of_whole (h : Whole packet) : Independent packet := by
  obtain ⟨hip, hheader⟩ := h
  intro c init before before'
  have hbuf : bufSize = 65536 := rfl
  have hsame : ∀ i < packet.length, i < bufSize →
      recvfrom packet (history init before) i = recvfrom packet (history init before') i := by
    intro i hi hi'
    rw [recvfrom_of_lt hi hi', recvfrom_of_lt hi hi']
  refine logText_congr (fun i hi => hsame i (by omega) (by omega)) ?_
  rw [iphdrlen, recvfrom_of_lt (by omega : 9 < packet.length) (by omega),
    recvfrom_of_lt (by omega : 0 < packet.length) (by omega)]
  intro hsize i hi
  exact hsame i (hi.trans_le (hheader hsize)) (hi.trans (header_lt_bufSize packet))

end Histories

/-- **When an entry depends on its packet alone.**  The text that is logged for a packet is the same after
all histories of packets exactly if the packet has the twenty bytes of an IP header and, behind the
length that this header gives, the byte, the sixteen bytes or the eight bytes of an ICMP, TCP or UDP
header that the text shows. -/
theorem independent_iff (packet : List UInt8) : Independent packet ↔ Whole packet := by
  constructor
  · intro h
    have hip := length_of_independent h
    exact ⟨hip, headerSize_of_independent h hip⟩
  · exact independent_of_whole

/-- The header of an IP packet for TCP, with nothing behind it. -/
def bareHeader : List UInt8 :=
  [0x45, 0, 0, 20, 0, 0, 0, 0, 64, 6, 0, 0, 10, 0, 0, 1, 10, 0, 0, 2]

/-- The ports of a packet that ends before its TCP header are bytes of older packets. -/
theorem not_independent_bareHeader : ¬ ∀ packet : List UInt8, Independent packet := by
  intro h
  have hlen := headerSize_of_independent (h bareHeader) (by decide) (by decide)
  exact absurd hlen (by decide)

end Sniffer
