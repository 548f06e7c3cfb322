/-
**Memory from an allocator.**

A C program asks the allocator for a number of bytes and may get more: what stands behind the bytes
that were asked for, up to the end of the block, can be written without harm.  What stands behind the
block belongs to somebody else, and a write there has no result in a model that uses this module.

Main definitions:

* `Malloc.Allocator` — how many bytes of a block can be used, given how many were asked for;
* `Malloc.glibc` — the allocator of a 64-bit GNU system;
* `Malloc.Block` — a block as an array of cells, `Malloc.Block.write` — a write to one of them;
* `Malloc.Allocator.strcpy` — a string that is copied into a block.

Main results:

* `Malloc.Block.write_eq_some_iff` — a write has a result inside of the block alone;
* `Malloc.Allocator.strcpy_eq_some_iff` — a string is copied if it fits with its zero.
-/

import Mathlib.Logic.Function.Basic
import Mathlib.Order.Basic
import Mathlib.Tactic

set_option relaxedAutoImplicit false
set_option autoImplicit false

namespace Malloc

/-! ### The allocator -/

/-- An allocator: a block that was asked for with `n` bytes has `usable n` of them. -/
structure Allocator where
  usable : ℕ → ℕ
  le_usable : ∀ n, n ≤ usable n

/-- The blocks of a 64-bit GNU system: a multiple of sixteen bytes, eight of which are the
allocator's, and never fewer than `24`. -/
def glibc : Allocator where
  usable n := max 24 ((n + 23) / 16 * 16 - 8)
  le_usable n := by omega

/-! ### Blocks -/

/-- A block of `size` cells. -/
structure Block (α : Type*) where
  size : ℕ
  cell : ℕ → α

namespace Block

variable {α : Type*} {b b' : Block α} {i : ℕ} {a : α}

/-- A write to a cell; behind the last one it has no result. -/
def write (b : Block α) (i : ℕ) (a : α) : Option (Block α) :=
  if i < b.size then some ⟨b.size, Function.update b.cell i a⟩ else none

theorem write_of_lt (h : i < b.size) :
    b.write i a = some ⟨b.size, Function.update b.cell i a⟩ := if_pos h

theorem write_of_le (h : b.size ≤ i) : b.write i a = none := if_neg (Nat.not_lt.2 h)

/-- **A write has a result inside of the block alone.** -/
theorem write_eq_some_iff :
    b.write i a = some b' ↔ i < b.size ∧ b' = ⟨b.size, Function.update b.cell i a⟩ := by
  rw [write]
  split_ifs with h
  · rw [Option.some_inj, and_iff_right h, eq_comm]
  · exact iff_of_false nofun fun h' => h h'.1

theorem size_of_write (h : b.write i a = some b') : b'.size = b.size := by
  rw [(write_eq_some_iff.1 h).2]

end Block

/-! ### Strings -/

namespace Allocator

variable {m : Allocator} {n : ℕ} {w w' : List Char}

/-- `strcpy` into a block that was asked for with `n` bytes: what the block holds then. -/
def strcpy (m : Allocator) (n : ℕ) (w : List Char) : Option (List Char) :=
  if w.length < m.usable n then some w else none

theorem strcpy_of_lt (h : w.length < m.usable n) : m.strcpy n w = some w := if_pos h

/-- **A string is copied if it fits with its zero.** -/
theorem strcpy_eq_some_iff : m.strcpy n w = some w' ↔ w.length < m.usable n ∧ w' = w := by
  rw [strcpy]
  split_ifs with h
  · rw [Option.some_inj, and_iff_right h, eq_comm]
  · exact iff_of_false nofun fun h' => h h'.1

theorem strcpy_eq_none_iff : m.strcpy n w = none ↔ m.usable n ≤ w.length := by
  rw [strcpy]
  split_ifs with h
  · exact iff_of_false nofun (Nat.not_le.2 h)
  · exact iff_of_true rfl (Nat.not_lt.1 h)

end Allocator

end Malloc
