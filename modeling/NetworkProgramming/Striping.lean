/-
**BigFileSystem: the blocks of a file.**

The client of `BigFileSystem` copies a file to the data servers: one thread per server reads blocks
of the file and sends them there.  The macro for the size of a block is `10 * 1024`, without
parentheses, so that a division by it divides by `10` and multiplies by `1024`.

The arithmetic is that of a 32-bit `int`; an expression that overflows has no value.

Main definitions:

* `Striping.int` — the value of an `int` expression;
* `Striping.blocksInNode`, `Striping.sendLoop`, `Striping.sendFiles` — the offsets at which a thread
  reads;
* `Striping.Striped` — the servers get the blocks of the file in turn.

Main results:

* `Striping.sendLoop_eq` — the offsets are those of consecutive blocks;
* `Striping.striped_iff` — **only four sizes of files are copied as they should be**.
-/

import Mathlib.Algebra.Order.Group.Unbundled.Int
import Mathlib.Tactic.IntervalCases

set_option relaxedAutoImplicit false
set_option autoImplicit false

namespace Striping

/-! ### The threads of the client -/

/-- The value of an expression of type `int`, unless it overflows. -/
def int (x : ℤ) : Option ℤ := if -2 ^ 31 ≤ x ∧ x < 2 ^ 31 then some x else none

theorem int_eq_some {x y : ℤ} (h : int x = some y) : x = y := by
  unfold int at h
  split_ifs at h
  exact Option.some_inj.1 h

/-- The number of the data servers, `NUM_SERVERS`. -/
def numServers : ℕ := 2

/-- `blocks_in_node` in `send_files`.  `file_size % BLOCK_SIZE` is `file_size % 10 * 1024`, and
`file_size/BLOCK_SIZE` is `file_size/10 * 1024`. -/
def blocksInNode (fileSize nodeNum : ℤ) : Option ℤ := do
  let rem ← int (fileSize.tmod 10 * 1024)
  let quot ← int (fileSize.tdiv 10 * 1024)
  let blocks := quot.tdiv nodeNum
  if rem = 0 then return blocks
  else
    let whole ← int (fileSize - rem)
    if nodeNum = whole.tmod numServers + 1 then int (blocks + 1) else return blocks

/-- The loop of `send_files`: the offsets at which a block is read and sent. -/
def sendLoop : ℕ → ℤ → Option (List ℤ)
  | 0, _ => some []
  | i + 1, offset => do
      let offset' ← int (offset + 10 * 1024)
      let rest ← sendLoop i offset'
      return offset :: rest

/-- **The offsets that `send_files` reads and sends** to the server `nodeNum`. -/
def sendFiles (fileSize nodeNum : ℤ) : Option (List ℤ) := do
  let offset ← int (10 * 1024 * (nodeNum - 1))
  let blocks ← blocksInNode fileSize nodeNum
  sendLoop blocks.toNat offset

/-! ### Striping -/

/-- The number of the blocks of a file; the last one may be shorter. -/
def numBlocks (fileSize : ℕ) : ℕ := (fileSize + 10239) / 10240

/-- The offsets of all blocks of a file. -/
def allBlocks (fileSize : ℕ) : List ℤ :=
  (List.range (numBlocks fileSize)).map fun b : ℕ => 10240 * (b : ℤ)

/-- The offsets of the blocks `k - 1`, `k - 1 + numServers`, … of a file. -/
def nodeBlocks (fileSize k : ℕ) : List ℤ :=
  ((List.range (numBlocks fileSize)).filter fun b => b % numServers = k - 1).map
    fun b : ℕ => 10240 * (b : ℤ)

/-- **The servers get the blocks of the file in turn**: no expression overflows, the server `k` gets
every `numServers`-th block from number `k - 1` on, and all servers together get every block once. -/
def Striped (fileSize : ℕ) : Prop :=
  ∃ sent : ℕ → List ℤ,
    (∀ k, 1 ≤ k → k ≤ numServers →
      sendFiles fileSize k = some (sent k) ∧ (sent k).Perm (nodeBlocks fileSize k)) ∧
    ((List.range' 1 numServers).flatMap sent).Perm (allBlocks fileSize)

/-- The thread of a server reads consecutive blocks. -/
theorem sendLoop_eq {n : ℕ} {offset : ℤ} {sent : List ℤ} (h : sendLoop n offset = some sent) :
    sent = (List.range n).map fun i : ℕ => offset + 10240 * (i : ℤ) := by
  induction n generalizing offset sent with
  | zero =>
      cases h
      rfl
  | succ n ih =>
      simp only [sendLoop, Option.bind_eq_bind, Option.bind_eq_some_iff] at h
      obtain ⟨offset', hoffset, rest, hrest, heq⟩ := h
      cases heq
      rw [ih hrest, ← int_eq_some hoffset, List.range_succ_eq_map, List.map_cons, List.map_map]
      congr 1
      · simp
      · refine List.map_congr_left ?_
        intro i _
        simp only [Function.comp_apply, Nat.succ_eq_add_one]
        omega

/-- From ten bytes on the first server is to get a thousand blocks or more. -/
theorem le_blocksInNode {fileSize blocks : ℤ} (hsize : 10 ≤ fileSize)
    (h : blocksInNode fileSize 1 = some blocks) : 1024 ≤ blocks := by
  simp only [blocksInNode, Option.bind_eq_bind, Option.bind_eq_some_iff] at h
  obtain ⟨rem, -, quot, hquot, h⟩ := h
  have hle : 1024 ≤ quot := by
    rw [← int_eq_some hquot, Int.tdiv_eq_ediv_of_nonneg (by omega)]
    omega
  rw [Int.tdiv_one] at h
  split_ifs at h
  · exact Option.some_inj.1 h ▸ hle
  · simp only [Option.bind_eq_some_iff] at h
    obtain ⟨whole, -, h⟩ := h
    split_ifs at h
    · have := int_eq_some h
      omega
    · exact Option.some_inj.1 h ▸ hle

/-- A file of ten bytes or more is not striped: the first server gets the block number `1`. -/
theorem lt_ten_of_striped {fileSize : ℕ} (h : Striped fileSize) : fileSize < 10 := by
  by_contra hsize
  obtain ⟨sent, hnode, -⟩ := h
  obtain ⟨hsent, hperm⟩ := hnode 1 (by omega) (by decide)
  simp only [sendFiles, Option.bind_eq_bind, Option.bind_eq_some_iff] at hsent
  obtain ⟨offset, hoffset, blocks, hblocks, hloop⟩ := hsent
  have hle := le_blocksInNode (by omega) hblocks
  -- the second offset of the thread is that of a block of the second server
  have hmem : (10240 : ℤ) ∈ sent 1 := by
    rw [sendLoop_eq hloop, ← int_eq_some hoffset]
    exact List.mem_map.2 ⟨1, List.mem_range.2 (by omega), by omega⟩
  obtain ⟨b, hb, heq⟩ := List.mem_map.1 (hperm.mem_iff.1 hmem)
  have hmod := (List.mem_filter.1 hb).2
  obtain rfl : b = 1 := by omega
  revert hmod
  decide

/-- **Only four sizes of files are copied as they should be**: the even ones below ten. -/
theorem striped_iff {fileSize : ℕ} (hpos : 0 < fileSize) (hlt : fileSize < 2 ^ 31) :
    Striped fileSize ↔ fileSize < 10 ∧ fileSize % 2 = 0 := by
  constructor
  · intro h
    have hten := lt_ten_of_striped h
    refine ⟨hten, ?_⟩
    obtain ⟨sent, hnode, -⟩ := h
    obtain ⟨hsent, hperm⟩ := hnode 1 (by decide) (by decide)
    by_contra hodd
    -- nothing is sent of a file of odd size
    have hnone : sendFiles fileSize (1 : ℕ) = some [] ∧ nodeBlocks fileSize 1 = [0] := by
      interval_cases fileSize <;> first | decide | omega
    rw [hnone.1] at hsent
    rw [← Option.some_inj.1 hsent, hnone.2] at hperm
    exact absurd hperm.length_eq (by decide)
  · rintro ⟨hten, heven⟩
    refine ⟨fun k => (sendFiles fileSize k).getD [], ?_, ?_⟩
    · intro k hk₁ hk₂
      have hk : k = 1 ∨ k = 2 := by
        rw [numServers] at hk₂
        omega
      rcases hk with rfl | rfl <;> interval_cases fileSize <;> first | decide | omega
    · interval_cases fileSize <;> first | decide | omega

theorem striped_eight : (0 < 8 ∧ 8 < 2 ^ 31) ∧ (Striped 8 ↔ 8 < 10 ∧ 8 % 2 = 0) :=
  ⟨by decide, striped_iff (by decide) (by decide)⟩

/-- A file of two blocks: the first server gets both, and many more. -/
theorem not_striped : ¬ ∀ fileSize : ℕ, 0 < fileSize → fileSize < 2 ^ 31 → Striped fileSize := by
  intro hall
  exact absurd (lt_ten_of_striped (hall 20480 (by decide) (by decide))) (by decide)

end Striping
