/-
**Numbers in memory.**

A number of `n` bytes stands in memory with its least significant byte first on a little-endian host
and with its most significant byte first on a big-endian one.  What one host has stored the other may
load, so the bytes are kept apart from the number here and the kind of the host is an argument.

Main definitions:

* `ByteOrder.bytesOf`, `ByteOrder.numberOf` — the bytes of a number, the least significant one first,
  and the number of such bytes;
* `ByteOrder.store`, `ByteOrder.load` — the same in the order of a host.

Main results:

* `ByteOrder.numberOf_bytesOf`, `ByteOrder.bytesOf_numberOf` — the two are inverse;
* `ByteOrder.bytesOf_add` — the bytes of a number are those of its lower and of its upper part;
* `ByteOrder.store_big` — the most significant byte first;
* `ByteOrder.load_store`, `ByteOrder.store_load` — the two are inverse on every host.
-/

import Mathlib.Data.Nat.Digits.Lemmas

set_option relaxedAutoImplicit false
set_option autoImplicit false

namespace ByteOrder

/-! ### The bytes of a number -/

/-- The `n` lower bytes of a number, the least significant one first. -/
def bytesOf (n x : ℕ) : List UInt8 := (List.range n).map fun i => UInt8.ofNat (x / 256 ^ i)

/-- The number of these bytes. -/
def numberOf (bs : List UInt8) : ℕ := Nat.ofDigits 256 (bs.map UInt8.toNat)

@[simp] theorem length_bytesOf (n x : ℕ) : (bytesOf n x).length = n := by simp [bytesOf]

/-- The bytes of a number are those of its lower and of its upper part. -/
theorem bytesOf_add (m n x : ℕ) : bytesOf (m + n) x = bytesOf m x ++ bytesOf n (x / 256 ^ m) := by
  simp only [bytesOf, List.range_add, List.map_append, List.map_map, Function.comp_def, pow_add,
    Nat.div_div_eq_div_mul]

theorem numberOf_append (bs cs : List UInt8) :
    numberOf (bs ++ cs) = numberOf bs + 256 ^ bs.length * numberOf cs := by
  simp [numberOf, Nat.ofDigits_append]

theorem lt_of_mem_map_toNat (bs : List UInt8) : ∀ d ∈ bs.map UInt8.toNat, d < 256 := by
  intro d hd
  obtain ⟨b, -, rfl⟩ := List.mem_map.1 hd
  exact b.toNat_lt

theorem numberOf_lt (bs : List UInt8) : numberOf bs < 256 ^ bs.length := by
  simpa [numberOf] using Nat.ofDigits_lt_base_pow_length (by omega) (lt_of_mem_map_toNat bs)

/-- What does not fit into the bytes is lost. -/
theorem numberOf_bytesOf (n x : ℕ) : numberOf (bytesOf n x) = x % 256 ^ n := by
  induction n with
  | zero => simp [bytesOf, numberOf, Nat.mod_one]
  | succ n ih =>
      have hbyte : numberOf (bytesOf 1 (x / 256 ^ n)) = x / 256 ^ n % 256 := by
        simp [bytesOf, numberOf]
      rw [bytesOf_add, numberOf_append, ih, hbyte, length_bytesOf, Nat.mod_pow_succ]

/-- Bytes of one length are determined by their number. -/
theorem eq_of_numberOf_eq {bs cs : List UInt8} (hlen : bs.length = cs.length)
    (h : numberOf bs = numberOf cs) : bs = cs := by
  refine List.map_injective_iff.2 (fun b c => UInt8.toNat_inj.1) ?_
  exact Nat.ofDigits_inj_of_len_eq (by omega) (by simpa using hlen) (lt_of_mem_map_toNat bs)
    (lt_of_mem_map_toNat cs) h

theorem bytesOf_numberOf (bs : List UInt8) : bytesOf bs.length (numberOf bs) = bs := by
  refine eq_of_numberOf_eq (length_bytesOf _ _) ?_
  rw [numberOf_bytesOf, Nat.mod_eq_of_lt (numberOf_lt bs)]

/-- Only the lower bytes of a number matter. -/
theorem bytesOf_mod (n x : ℕ) : bytesOf n (x % 256 ^ n) = bytesOf n x := by
  refine eq_of_numberOf_eq (by simp) ?_
  rw [numberOf_bytesOf, numberOf_bytesOf, Nat.mod_mod]

/-! ### Hosts -/

/-- The kinds of hosts. -/
inductive Host
  | little
  | big
  deriving DecidableEq, Repr

/-- The memory of a host that holds the number `x` of `n` bytes. -/
def store : Host → ℕ → ℕ → List UInt8
  | .little, n, x => bytesOf n x
  | .big, n, x => (bytesOf n x).reverse

/-- The number that a host finds in its memory. -/
def load : Host → List UInt8 → ℕ
  | .little, bs => numberOf bs
  | .big, bs => numberOf bs.reverse

/-- A big-endian host has the most significant byte first. -/
theorem store_big (n x : ℕ) :
    store .big n x = (List.range n).map fun i => UInt8.ofNat (x / 256 ^ (n - 1 - i)) := by
  refine List.ext_getElem (by simp [store]) ?_
  intro i h₁ h₂
  simp [store, bytesOf]

@[simp] theorem length_store (e : Host) (n x : ℕ) : (store e n x).length = n := by
  cases e <;> simp [store]

theorem load_lt (e : Host) (bs : List UInt8) : load e bs < 256 ^ bs.length := by
  cases e with
  | little => exact numberOf_lt bs
  | big => simpa [load] using numberOf_lt bs.reverse

/-- A host loads what it has stored. -/
theorem load_store (e : Host) (n x : ℕ) : load e (store e n x) = x % 256 ^ n := by
  cases e with
  | little => exact numberOf_bytesOf n x
  | big => simp only [load, store, List.reverse_reverse, numberOf_bytesOf]

/-- A host stores what it has loaded. -/
theorem store_load (e : Host) (bs : List UInt8) : store e bs.length (load e bs) = bs := by
  cases e with
  | little => exact bytesOf_numberOf bs
  | big =>
      have hrev := bytesOf_numberOf bs.reverse
      rw [List.length_reverse] at hrev
      simp only [load, store, hrev, List.reverse_reverse]

end ByteOrder
