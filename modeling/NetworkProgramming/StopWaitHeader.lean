/-
**The header of a packet in memory, and the byte order of the hosts.**

`utils.h` of the stop-and-wait protocol builds `htonll` and `ntohll` from the conversions for 32 bits:
the two halves of a number are converted each for itself and change places, unless the host has the
network byte order already, which `1==htonl(1)` finds out.  `hton_header` writes a header into a
buffer field by field.

`htonl` and `ntohl` are those of the standard library: the network order is that of a big-endian
host.  `memcpy` fails outside of the buffer.

Main definitions:

* `StopWait.htonl`, `StopWait.ntohl`, `StopWait.htonll`, `StopWait.ntohll` — the conversions;
* `StopWait.RawHeader`, `StopWait.htonHeader` — the header with the types of the source, and
  `hton_header`;
* `StopWait.decode` — what a host reads from the bytes of a header.

Main results:

* `StopWait.store_htonll` — every host stores the most significant byte first;
* `StopWait.htonHeader_eq` — what `hton_header` leaves in the buffer;
* `StopWait.header_portable` — **the header means the same on every host**;
* `StopWait.receive_header` — the same for the headers of the protocol model.
-/

import NetworkProgramming.ByteOrder
import NetworkProgramming.StopWaitSender

set_option relaxedAutoImplicit false
set_option autoImplicit false

namespace StopWait

open ByteOrder

/-! ### The conversions -/

/-- `htonl`: stored by the host, the result has the bytes of `x` in network order. -/
def htonl (e : Host) (x : UInt32) : UInt32 := UInt32.ofNat (load e (store .big 4 x.toNat))

/-- `ntohl`: the number whose bytes in network order the host has loaded as `x`. -/
def ntohl (e : Host) (x : UInt32) : UInt32 := UInt32.ofNat (load .big (store e 4 x.toNat))

/-- The macro `htonll`; the argument of `htonl` is a `uint32_t`. -/
def htonll (e : Host) (x : UInt64) : UInt64 :=
  if 1 = htonl e 1 then x
  else
    (htonl e (x &&& 0xFFFFFFFF).toUInt32).toUInt64 <<< 32 ||| (htonl e (x >>> 32).toUInt32).toUInt64

/-- The macro `ntohll`. -/
def ntohll (e : Host) (x : UInt64) : UInt64 :=
  if 1 = ntohl e 1 then x
  else
    (ntohl e (x &&& 0xFFFFFFFF).toUInt32).toUInt64 <<< 32 ||| (ntohl e (x >>> 32).toUInt32).toUInt64

/-- The memory of a host that holds a `uint64_t`. -/
def store64 (e : Host) (x : UInt64) : List Byte := store e 8 x.toNat

/-- The `uint64_t` that a host finds in its memory. -/
def load64 (e : Host) (bs : List Byte) : UInt64 := UInt64.ofNat (load e bs)

@[simp] theorem length_store64 (e : Host) (x : UInt64) : (store64 e x).length = 8 :=
  length_store e 8 x.toNat

theorem load64_store64 (e : Host) (x : UInt64) : load64 e (store64 e x) = x := by
  refine UInt64.toNat_inj.1 ?_
  rw [load64, store64, load_store, UInt64.toNat_ofNat', Nat.mod_mod_of_dvd _ (by norm_num)]
  exact Nat.mod_eq_of_lt x.toNat_lt

theorem store64_injective (e : Host) {x y : UInt64} (h : store64 e x = store64 e y) : x = y := by
  rw [← load64_store64 e x, h, load64_store64]

theorem store_htonl (e : Host) (x : UInt32) :
    store e 4 (htonl e x).toNat = store .big 4 x.toNat := by
  have hlen : (store .big 4 x.toNat).length = 4 := length_store _ _ _
  have hlt : load e (store .big 4 x.toNat) < 2 ^ 32 := by
    simpa [hlen] using load_lt e (store .big 4 x.toNat)
  have hload := store_load e (store .big 4 x.toNat)
  rw [hlen] at hload
  rw [htonl, UInt32.toNat_ofNat', Nat.mod_eq_of_lt hlt, hload]

theorem ntohl_eq_htonl (e : Host) : ntohl e = htonl e := by
  funext x
  cases e <;> simp [ntohl, htonl, load, store]

theorem ntohll_eq_htonll (e : Host) : ntohll e = htonll e := by
  funext x
  rw [ntohll, htonll, ntohl_eq_htonl]

/-- The number of two halves. -/
theorem toNat_halves (a b : UInt32) :
    (a.toUInt64 <<< 32 ||| b.toUInt64).toNat = a.toNat * 256 ^ 4 + b.toNat := by
  have ha := a.toNat_lt
  have hb := b.toNat_lt
  have hshift : a.toNat <<< 32 % 2 ^ 64 = a.toNat <<< 32 := by
    rw [Nat.shiftLeft_eq]
    exact Nat.mod_eq_of_lt (by omega)
  have hword : (a.toUInt64 <<< 32).toNat = a.toNat <<< 32 := by
    simpa using hshift
  rw [UInt64.toNat_or, hword, UInt32.toNat_toUInt64, ← Nat.shiftLeft_add_eq_or_of_lt hb,
    Nat.shiftLeft_eq]
  omega

/-- **Every host stores the most significant byte first.** -/
theorem store_htonll (e : Host) (x : UInt64) : store64 e (htonll e x) = store .big 8 x.toNat := by
  cases e with
  | big =>
      have hone : (1 : UInt32) = htonl .big 1 := by decide
      rw [htonll, if_pos hone]
      rfl
  | little =>
      have hone : (1 : UInt32) ≠ htonl .little 1 := by decide
      have hx := x.toNat_lt
      have hlow : (x &&& 0xFFFFFFFF).toUInt32.toNat = x.toNat % 256 ^ 4 := by
        have hmask := Nat.and_two_pow_sub_one_eq_mod (x.toNat % 2 ^ 32) 32
        simpa using hmask
      have hhigh : (x >>> 32).toUInt32.toNat = x.toNat / 256 ^ 4 := by
        simp [Nat.shiftRight_eq_div_pow]
        omega
      have hsplit : ∀ a b : UInt32, store64 .little (a.toUInt64 <<< 32 ||| b.toUInt64) =
          store .little 4 b.toNat ++ store .little 4 a.toNat := by
        intro a b
        have hb := b.toNat_lt
        rw [store64, toNat_halves, store, bytesOf_add 4 4, ← bytesOf_mod 4]
        congr 2 <;> omega
      rw [htonll, if_neg hone, hsplit, store_htonl, store_htonl, hlow, hhigh]
      simp only [store, bytesOf_add 4 4, List.reverse_append, bytesOf_mod]

/-- Converting twice gives back the number. -/
theorem htonll_htonll (e : Host) (x : UInt64) : htonll e (htonll e x) = x := by
  cases e with
  | big => rfl
  | little =>
      refine store64_injective .little ?_
      have htwice := store_htonll .little (htonll .little x)
      have honce := store_htonll .little x
      simp only [store64, store] at htwice honce ⊢
      rw [htwice, honce, List.reverse_reverse]

/-- **What one host has converted and stored, the other loads and converts back.** -/
theorem ntohll_load (s r : Host) (x : UInt64) :
    ntohll r (load64 r (store64 s (htonll s x))) = x := by
  rw [store_htonll, ← store_htonll r, load64_store64, ntohll_eq_htonll, htonll_htonll]

/-! ### The header -/

/-- The header with the types that it has in the source. -/
structure RawHeader where
  size : UInt64
  seqNo : UInt64
  isLast : UInt8
  type : UInt8
  channelId : UInt8
  deriving DecidableEq, Repr

/-- `sizeof(Header)`: 19 bytes and the padding to a multiple of eight. -/
def sizeofHeader : ℕ := 24

/-- The argument `char buffer[sizeof(Header)]`. -/
structure HeaderBuffer where
  bytes : List Byte
  length_bytes : bytes.length = sizeofHeader
  deriving DecidableEq

/-- `memcpy` to an offset of a buffer; outside of it it fails. -/
def memcpy (buffer : List Byte) (off : ℕ) (src : List Byte) : Option (List Byte) :=
  if off + src.length ≤ buffer.length then
    some (buffer.take off ++ src ++ buffer.drop (off + src.length))
  else none

/-- **`hton_header`.** -/
def htonHeader (e : Host) (header : RawHeader) (buffer : List Byte) : Option (List Byte) := do
  let buffer ← memcpy buffer 0 (store64 e (htonll e header.size))
  let buffer ← memcpy buffer 8 (store64 e (htonll e header.seqNo))
  let buffer ← memcpy buffer 16 [header.isLast]
  let buffer ← memcpy buffer 17 [header.type]
  memcpy buffer 18 [header.channelId]

/-- The 19 bytes of a header. -/
def wireBytes (header : RawHeader) : List Byte :=
  store .big 8 header.size.toNat ++ store .big 8 header.seqNo.toNat ++
    [header.isLast, header.type, header.channelId]

/-- What a host reads from the bytes of a header, field by field. -/
def decode (e : Host) (bs : List Byte) : RawHeader where
  size := ntohll e (load64 e (bs.take 8))
  seqNo := ntohll e (load64 e ((bs.drop 8).take 8))
  isLast := bs.getD 16 0
  type := bs.getD 17 0
  channelId := bs.getD 18 0

@[simp] theorem length_wireBytes (header : RawHeader) : (wireBytes header).length = 19 := by
  simp [wireBytes]

/-- A copy behind the part of the buffer that is filled already. -/
theorem memcpy_fill (bytes front src : List Byte) {off : ℕ} (hoff : front.length = off)
    (hfits : off + src.length ≤ bytes.length) :
    memcpy (front ++ bytes.drop off) off src =
      some (front ++ src ++ bytes.drop (off + src.length)) := by
  subst hoff
  rw [memcpy, if_pos (by simp; omega), List.take_left, List.drop_length_add_append,
    List.drop_drop]

/-- **What `hton_header` leaves in the buffer**: the padding keeps what it was. -/
theorem htonHeader_eq (e : Host) (header : RawHeader) (buffer : HeaderBuffer) :
    htonHeader e header buffer.bytes = some (wireBytes header ++ buffer.bytes.drop 19) := by
  obtain ⟨bytes, hlen⟩ := buffer
  have hlen' : bytes.length = 24 := hlen
  simp only [htonHeader, store_htonll, wireBytes]
  have hsize : (store .big 8 header.size.toNat).length = 8 := length_store _ _ _
  have hseqNo : (store .big 8 header.seqNo.toNat).length = 8 := length_store _ _ _
  generalize store .big 8 header.size.toNat = size at hsize ⊢
  generalize store .big 8 header.seqNo.toNat = seqNo at hseqNo ⊢
  -- every copy goes right behind the one before
  have h₀ : memcpy bytes 0 size = some (size ++ bytes.drop 8) := by
    have hcopy := memcpy_fill bytes [] size rfl (by simp; omega)
    simpa [hsize] using hcopy
  have h₈ : memcpy (size ++ bytes.drop 8) 8 seqNo = some (size ++ seqNo ++ bytes.drop 16) := by
    have hcopy := memcpy_fill bytes size seqNo hsize (by omega)
    simpa [hseqNo] using hcopy
  have hlast : ∀ {front : List Byte} {off : ℕ} (b : Byte), front.length = off → off < 19 →
      memcpy (front ++ bytes.drop off) off [b] = some (front ++ [b] ++ bytes.drop (off + 1)) := by
    intro front off b hfront hoff
    exact memcpy_fill bytes front [b] hfront (by simp; omega)
  simp only [Option.bind_eq_bind]
  rw [h₀, Option.bind_some, h₈, Option.bind_some, hlast _ (by simp; omega) (by omega),
    Option.bind_some, hlast _ (by simp; omega) (by omega), Option.bind_some,
    hlast _ (by simp; omega) (by omega)]
  simp

/-- **The bytes of a header give back the header**, on the host that has written them or on any
other. -/
theorem decode_wireBytes (e : Host) (header : RawHeader) : decode e (wireBytes header) = header := by
  have hword : ∀ x : UInt64, ntohll e (load64 e (store .big 8 x.toNat)) = x := by
    intro x
    rw [← store_htonll e, ntohll_load]
  have hsize : (wireBytes header).take 8 = store .big 8 header.size.toNat := by
    simp [wireBytes]
  have hseqNo : ((wireBytes header).drop 8).take 8 = store .big 8 header.seqNo.toNat := by
    simp [wireBytes]
  rw [decode, hsize, hseqNo, hword, hword]
  simp [wireBytes, List.getD_eq_getElem?_getD]

/-- **The header means the same on every host.**  `htonll` stores every number with its most
significant byte first, any host that loads the bytes gets the number back by `ntohll`, and
`hton_header` fills 19 bytes from which any host reads the five fields; so no two headers have the
same bytes. -/
theorem header_portable (s r : Host) :
    (∀ x : UInt64,
      store64 s (htonll s x) = (List.range 8).map (fun i => UInt8.ofNat (x.toNat / 256 ^ (7 - i))) ∧
        ntohll r (load64 r (store64 s (htonll s x))) = x) ∧
      (∀ (header : RawHeader) (buffer : HeaderBuffer), ∃ bytes, bytes.length = 19 ∧
        htonHeader s header buffer.bytes = some (bytes ++ buffer.bytes.drop 19) ∧
        decode r bytes = header) ∧
      ∀ (header header' : RawHeader) (buffer buffer' : HeaderBuffer),
        (htonHeader s header buffer.bytes).map (List.take 19) =
          (htonHeader r header' buffer'.bytes).map (List.take 19) ↔ header = header' := by
  refine ⟨?_, ?_, ?_⟩
  · intro x
    exact ⟨(store_htonll s x).trans (store_big 8 x.toNat), ntohll_load s r x⟩
  · intro header buffer
    exact ⟨wireBytes header, length_wireBytes header, htonHeader_eq s header buffer,
      decode_wireBytes r header⟩
  · intro header header' buffer buffer'
    have htake : ∀ (e : Host) (h : RawHeader) (b : HeaderBuffer),
        (htonHeader e h b.bytes).map (List.take 19) = some (wireBytes h) := by
      intro e h b
      rw [htonHeader_eq, Option.map_some, ← length_wireBytes h, List.take_left]
    rw [htake, htake, Option.some_inj]
    constructor
    · intro heq
      rw [← decode_wireBytes s header, heq, decode_wireBytes]
    · intro heq
      rw [heq]

/-! ### The headers of the protocol -/

/-- The header as the protocol model has it. -/
def RawHeader.toHeader (header : RawHeader) : Header where
  size := header.size.toNat
  seqNo := header.seqNo.toNat
  isLast := header.isLast
  type := header.type
  channelId := header.channelId

/-- The header in the types of the source. -/
def Header.toRaw (header : Header) : RawHeader where
  size := UInt64.ofNat header.size
  seqNo := UInt64.ofNat header.seqNo
  isLast := header.isLast
  type := header.type
  channelId := header.channelId

/-- **A header of the protocol arrives unchanged**, whatever hosts the two parties run on, as long as
its numbers fit into their types. -/
theorem receive_header (r : Host) (header : Header) (hsize : header.size < 2 ^ 64)
    (hseqNo : header.seqNo < 2 ^ 64) : (decode r (wireBytes header.toRaw)).toHeader = header := by
  rw [decode_wireBytes]
  simp only [RawHeader.toHeader, Header.toRaw, UInt64.toNat_ofNat', Nat.mod_eq_of_lt hsize,
    Nat.mod_eq_of_lt hseqNo]

end StopWait
