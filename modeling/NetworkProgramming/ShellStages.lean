/-
**MyShell: the table of stages.**

A pipeline is cut into `commands`, an array of rows of twenty cells.  `count_pipes` counts the
operators and allocates the array, two loops of `pipe_filter` copy the first and the middle stages,
a third loop in `output_redirection` copies the last one, and each of them computes its own indices
from `lastPipe`, where `0` also says that there was no operator yet.

`ShellDispatch` has the stages as lists.  This module goes down to the cells: what is copied,
released and set to null, in which row, and whether it is inside the block of the row.  At the end
`output_redirection` releases the row behind the last stage and writes through it once more, at the
index of the end of the line.  Inside of the block of that row the write meets nothing that the array
has; behind it, it has no result.

Main definitions:

* `Shell.Cell`, `Shell.Commands` — the cells, and the rows of the array;
* `Shell.rowCells` — the cells that the block of a row has room for;
* `Shell.pipeFilterCells`, `Shell.splitLast` — the loops that fill it;
* `Shell.stageCells` — a row that holds a stage;
* `Shell.SplitAt` — what the loop has cut off the line.

Main results:

* `Shell.fillLoop_eq` — the loop over the cells does what the loop over lists does;
* `Shell.stagesOf_eq_splitOnP` — the lists are the line, split at its operators;
* `Shell.commands_eq_splitOnP_iff` — **the array holds the line, split at its operators, exactly when**
  the line has fewer words than a row has room for.
-/

import NetworkProgramming.Malloc
import NetworkProgramming.ShellDispatch

set_option relaxedAutoImplicit false
set_option autoImplicit false

namespace Shell

open Malloc

/-! ### Rows of cells -/

/-- A cell of `commands`. -/
inductive Cell
  /-- It points to memory that was allocated and not filled. -/
  | fresh
  | word (w : Word)
  | null
  /-- It points to memory that was released. -/
  | freed
  /-- It is behind the cells that were asked for, and was never set. -/
  | junk
  deriving DecidableEq

/-- The array of rows; a row may be null. -/
abbrev Commands := List (Option (List Cell))

/-- The cells of eight bytes in the block of a row that was asked for with `n` of them. -/
def rowCells (m : Allocator) (n : ℕ) : ℕ := m.usable (8 * n) / 8

/-- A new row of `n` cells. -/
def freshRow (m : Allocator) (n : ℕ) : Option (List Cell) :=
  some (List.replicate n .fresh ++ List.replicate (rowCells m n - n) .junk)

/-- `initTripleGlobalCharPtr`. -/
def initTripleGlobalCharPtr (m : Allocator) (rows n : ℕ) : Commands :=
  List.replicate rows (freshRow m n)

/-- A change of the cells of row `k`. -/
def onRow (t : Commands) (k : ℕ) (f : List Cell → Option (List Cell)) : Option Commands :=
  match t[k]? with
  | some (some row) => (f row).map fun row => t.set k (some row)
  | _ => none

/-- `realloc` and `strcpy` into cell `a`, which must point to memory that was not released. -/
def copyCell (w : Word) (a : ℕ) (row : List Cell) : Option (List Cell) :=
  match row[a]? with
  | none => none
  | some .freed => none
  | some .junk => none
  | some _ => some (row.set a (.word w))

/-- `free` of cell `a`, once. -/
def freeCell (a : ℕ) (row : List Cell) : Option (List Cell) :=
  match row[a]? with
  | none => none
  | some .freed => none
  | some .junk => none
  | some .null => some row
  | some _ => some (row.set a .freed)

/-- The assignment of `0` to cell `a`. -/
def clearCell (a : ℕ) (row : List Cell) : Option (List Cell) :=
  if a < row.length then some (row.set a .null) else none

/-- `for (a = lo; a < hi; a++)`: word `a` is copied to cell `a - lo`, unless it is skipped. -/
def copyWords (skip : Word → Bool) (argv : List Word) (lo hi : ℕ) (row : List Cell) :
    Option (List Cell) :=
  (List.range' lo (hi - lo)).foldlM
    (fun row a => argv[a]?.bind fun w => if skip w then some row else copyCell w (a - lo) row) row

/-- `for (b = n; b < 20; b++)`: the cells are released. -/
def freeFrom (n : ℕ) (row : List Cell) : Option (List Cell) :=
  (List.range' n (20 - n)).foldlM (fun row b => freeCell b row) row

/-- **One stage is copied** from the words `lo` to `hi`, and ended with a null cell. -/
def copyStage (skip : Word → Bool) (argv : List Word) (lo hi : ℕ) (row : List Cell) :
    Option (List Cell) := do
  let row ← copyWords skip argv lo hi row
  let row ← freeFrom (hi - lo) row
  clearCell (hi - lo) row

/-! ### The functions of the source -/

/-- What `pipe_filter` leaves behind, with the array in place of the list of stages. -/
structure FilledTable where
  globals : Globals
  commands : Commands
  tripped : Bool

/-- The loop of `pipe_filter`, at word `i` with `rest` ahead of it. -/
def fillLoop (argv : List Word) : List Word → ℕ → Globals → Commands → Option FilledTable
  | [], _, g, t => some ⟨g, t, false⟩
  | w :: rest, i, g, t =>
      let g := { g with pipeargCount := g.pipeargCount + 1 }
      if isPipeOp w then
        if inputBefore argv i && g.redirectionInPipe then
          some ⟨{ g with badRedirectpipe := true }, t, true⟩
        else do
          -- the first stage starts at the first word, a later one after the last operator
          let lo := if g.lastPipe = 0 then 0 else g.lastPipe + 1
          let t ← onRow t g.pipeCount (copyStage (fun _ => false) argv lo i)
          fillLoop argv rest (i + 1)
            { g with
              redirectionInPipe := g.redirectionInPipe || inputBefore argv i
              lastPipe := i
              pipeCount := g.pipeCount + 1 } t
      else fillLoop argv rest (i + 1) g t

/-- `pipe_filter`.  Without an operator nothing is allocated. -/
def pipeFilterCells (m : Allocator) (argv : List Word) (g : Globals) : Option FilledTable :=
  let counter := argv.countP isPipeOp
  fillLoop argv argv 0 (countPipes argv g)
    (if counter = 0 then [] else initTripleGlobalCharPtr m (counter + 2) 20)

/-- The splitting part of `output_redirection`: the last stage is copied, the cells of the row after it
and the row itself are released.  The cell of that row at the end of the line is still set to null;
then the row itself is. -/
def splitLast (argv : List Word) (g : Globals) (t : Commands) : Option Commands := do
  let t ← onRow t g.pipeCount (copyStage isPipeOp argv (g.lastPipe + 1) argv.length)
  let t ← onRow t (g.pipeCount + 1) (freeFrom 0)
  let t ← onRow t (g.pipeCount + 1) (clearCell argv.length)
  some (t.set (g.pipeCount + 1) none)

/-- `pipe_filter` and the splitting part of `output_redirection`. -/
def splitCommands (m : Allocator) (argv : List Word) (g : Globals) : Option (Globals × Commands) := do
  let f ← pipeFilterCells m argv g
  let t ← splitLast argv f.globals f.commands
  some (f.globals, t)

/-- **A row that holds a stage**: its words, a null cell, cells that were released, and those that were
never set. -/
def stageCells (m : Allocator) (stage : List Word) : List Cell :=
  stage.map .word ++ .null :: (List.replicate (19 - stage.length) .freed ++
    List.replicate (rowCells m 20 - max 20 (stage.length + 1)) .junk)

/-! ### One row -/

section Rows

variable {skip : Word → Bool} {argv : List Word} {m : Allocator}

theorem le_rowCells (m : Allocator) (n : ℕ) : n ≤ rowCells m n := by
  have hle := m.le_usable (8 * n)
  rw [rowCells]
  omega

/-- The loop that copies, with the cells `filled` behind it and `fresh` fresh ones ahead. -/
theorem copyWords_loop {lo : ℕ} (hskip : ∀ w ∈ argv.drop lo, skip w = false) (filled : List Cell)
    (n fresh junk : ℕ) (hn : lo + filled.length + n ≤ argv.length) :
    (List.range' (lo + filled.length) n).foldlM
        (fun row a => argv[a]?.bind fun w => if skip w then some row else copyCell w (a - lo) row)
        (filled ++ (List.replicate fresh .fresh ++ List.replicate junk .junk)) =
      if n ≤ fresh then
        some (filled ++ ((argv.drop (lo + filled.length)).take n).map .word ++
          (List.replicate (fresh - n) .fresh ++ List.replicate junk .junk))
      else none := by
  induction n generalizing filled fresh with
  | zero => simp
  | succ n ih =>
      have hlt : lo + filled.length < argv.length := by omega
      have hmem : argv[lo + filled.length] ∈ argv.drop lo :=
        List.mem_drop_iff_getElem.2 ⟨filled.length, by omega, rfl⟩
      rw [List.range'_succ, List.foldlM_cons, List.getElem?_eq_getElem hlt, Option.bind_some,
        hskip _ hmem, Nat.add_sub_cancel_left, if_neg Bool.false_ne_true]
      cases fresh with
      | zero => cases junk <;> simp [copyCell, List.replicate_succ]
      | succ fresh =>
          have hcopy : copyCell argv[lo + filled.length] filled.length
              (filled ++ (List.replicate (fresh + 1) .fresh ++ List.replicate junk .junk)) =
              some (filled ++ [.word argv[lo + filled.length]] ++
                (List.replicate fresh .fresh ++ List.replicate junk .junk)) := by
            simp [copyCell, List.replicate_succ]
          have hlen : lo + filled.length + 1 =
              lo + (filled ++ [Cell.word argv[lo + filled.length]]).length := by
            simp [Nat.add_assoc]
          rw [hcopy, Option.bind_eq_bind, Option.bind_some, hlen, ih _ _ (by simp; omega), ← hlen,
            List.drop_eq_getElem_cons hlt, List.take_succ_cons]
          simp

/-- The loop that releases cells, from the fresh ones on. -/
theorem freeFrom_loop (kept tail : List Cell) (n : ℕ) :
    (List.range' kept.length n).foldlM (fun row b => freeCell b row)
        (kept ++ (List.replicate n .fresh ++ tail)) =
      some (kept ++ (List.replicate n .freed ++ tail)) := by
  induction n generalizing kept with
  | zero => simp
  | succ n ih =>
      have hfree : freeCell kept.length (kept ++ (List.replicate (n + 1) .fresh ++ tail)) =
          some (kept ++ [.freed] ++ (List.replicate n .fresh ++ tail)) := by
        simp [freeCell, List.replicate_succ]
      have hlen : kept.length + 1 = (kept ++ [Cell.freed]).length := by simp
      rw [List.range'_succ, List.foldlM_cons, hfree, Option.bind_eq_bind, Option.bind_some, hlen,
        ih, List.replicate_succ, List.append_assoc]
      rfl

/-- The cell behind the last word is the first of those that were released, or one behind them. -/
theorem clearCell_stage {stage : List Word} (hle : stage.length ≤ 20) :
    clearCell stage.length (stage.map .word ++
        (List.replicate (20 - stage.length) .freed ++ List.replicate (rowCells m 20 - 20) .junk)) =
      if stage.length < rowCells m 20 then some (stageCells m stage) else none := by
  have hrow := le_rowCells m 20
  have hlen : (stage.map Cell.word ++ (List.replicate (20 - stage.length) Cell.freed ++
      List.replicate (rowCells m 20 - 20) Cell.junk)).length = rowCells m 20 := by
    simp
    omega
  rw [clearCell, hlen]
  split_ifs with hlt
  · rw [List.set_append_right _ _ (by simp), List.length_map, Nat.sub_self, stageCells]
    rcases Nat.lt_or_ge stage.length 20 with h | h
    · have hk : 20 - stage.length = 19 - stage.length + 1 := by omega
      have hmax : max 20 (stage.length + 1) = 20 := by omega
      rw [hk, List.replicate_succ, List.cons_append, List.set_cons_zero, hmax]
    · -- all cells that were asked for have words
      have hk : 20 - stage.length = 0 := by omega
      have hk' : 19 - stage.length = 0 := by omega
      have hj : rowCells m 20 - 20 = rowCells m 20 - max 20 (stage.length + 1) + 1 := by omega
      rw [hk, hk', hj, List.replicate_succ, List.replicate_zero, List.nil_append, List.nil_append,
        List.set_cons_zero]
  · rfl

/-- A stage fits into a row, with its null cell. -/
def FitsRow (m : Allocator) (stage : List Word) : Prop := stage.length < min 21 (rowCells m 20)

instance (m : Allocator) (stage : List Word) : Decidable (FitsRow m stage) :=
  inferInstanceAs (Decidable (_ < _))

theorem fitsRow_iff {stage : List Word} :
    FitsRow m stage ↔ stage.length ≤ 20 ∧ stage.length < rowCells m 20 := by
  rw [FitsRow, lt_min_iff, Nat.lt_succ_iff]

/-- **A stage copied to a fresh row**: it has to fit. -/
theorem copyStage_fresh {lo hi : ℕ} (hskip : ∀ w ∈ argv.drop lo, skip w = false)
    (hlo : lo ≤ hi) (hhi : hi ≤ argv.length) :
    copyStage skip argv lo hi
        (List.replicate 20 .fresh ++ List.replicate (rowCells m 20 - 20) .junk) =
      if FitsRow m ((argv.take hi).drop lo) then some (stageCells m ((argv.take hi).drop lo))
      else none := by
  have hstage : (argv.drop lo).take (hi - lo) = (argv.take hi).drop lo := List.drop_take.symm
  have hlen : hi - lo = ((argv.take hi).drop lo).length := by simp; omega
  have hcopy := copyWords_loop hskip [] (hi - lo) 20 (rowCells m 20 - 20) (by simp; omega)
  rw [List.length_nil, Nat.add_zero, List.nil_append, List.nil_append, hstage] at hcopy
  rw [copyStage, copyWords, hcopy, hlen]
  generalize (argv.take hi).drop lo = stage
  by_cases hle : stage.length ≤ 20
  · have hfree := freeFrom_loop (stage.map .word) (List.replicate (rowCells m 20 - 20) .junk)
      (20 - stage.length)
    rw [List.length_map] at hfree
    rw [if_pos hle, Option.bind_eq_bind, Option.bind_some, freeFrom, hfree, Option.bind_some,
      clearCell_stage hle]
    simp only [fitsRow_iff, hle, true_and]
  · rw [if_neg hle, if_neg fun h => hle (fitsRow_iff.1 h).1]
    rfl

end Rows

/-! ### The loop over the cells and the loop over lists -/

/-- The array with some stages filled in and `rows` rows left. -/
def tableOf (m : Allocator) (stages : List (List Word)) (rows : ℕ) : Commands :=
  stages.map (fun stage => some (stageCells m stage)) ++ List.replicate rows (freshRow m 20)

/-- Every stage fits into a row. -/
def Short (m : Allocator) (stages : List (List Word)) : Prop := ∀ stage ∈ stages, FitsRow m stage

instance (m : Allocator) (stages : List (List Word)) : Decidable (Short m stages) :=
  inferInstanceAs (Decidable (∀ stage ∈ stages, _))

/-- A stage of fewer words than the row was asked for fits. -/
theorem short_of_lt {m : Allocator} {stages : List (List Word)}
    (h : ∀ stage ∈ stages, stage.length < 20) : Short m stages := by
  intro stage hmem
  have hlt := h stage hmem
  exact fitsRow_iff.2 ⟨hlt.le, hlt.trans_le (le_rowCells m 20)⟩

theorem onRow_next (m : Allocator) (stages : List (List Word)) (rows : ℕ)
    (f : List Cell → Option (List Cell)) :
    onRow (tableOf m stages (rows + 1)) stages.length f =
      (f (List.replicate 20 .fresh ++ List.replicate (rowCells m 20 - 20) .junk)).map fun row =>
        stages.map (fun stage => some (stageCells m stage)) ++
          some row :: List.replicate rows (freshRow m 20) := by
  have hrow : (tableOf m stages (rows + 1))[stages.length]? = some (freshRow m 20) := by
    simp [tableOf, List.replicate_succ]
  rw [onRow, hrow]
  simp [freshRow, tableOf, List.replicate_succ]

/-- **The next stage is copied to the next row.** -/
theorem onRow_copyStage {skip : Word → Bool} {argv : List Word} {lo hi : ℕ}
    (hskip : ∀ w ∈ argv.drop lo, skip w = false) (hlo : lo ≤ hi) (hhi : hi ≤ argv.length)
    (m : Allocator) (stages : List (List Word)) (rows : ℕ) :
    onRow (tableOf m stages (rows + 1)) stages.length (copyStage skip argv lo hi) =
      if FitsRow m ((argv.take hi).drop lo) then
        some (tableOf m (stages ++ [(argv.take hi).drop lo]) rows)
      else none := by
  rw [onRow_next, copyStage_fresh hskip hlo hhi]
  split_ifs
  · simp [tableOf]
  · rfl

section Loop

variable (m : Allocator) (argv : List Word)

/-- The stages that were cut off stay. -/
theorem stages_pipeFilterLoop (rest : List Word) (i : ℕ) (g : Globals)
    (stages : List (List Word)) : stages <+: (pipeFilterLoop argv rest i g stages).stages := by
  fun_induction pipeFilterLoop argv rest i g stages with
  | case1 => exact List.prefix_rfl
  | case2 => exact List.prefix_rfl
  | case3 _ _ _ _ _ _ _ _ _ ih => exact (List.prefix_append _ _).trans ih
  | case4 _ _ _ _ _ _ _ ih => exact ih

/-- **The loop over the cells does what the loop over lists does**, as long as the stages fit. -/
theorem fillLoop_eq (rest : List Word) (i : ℕ) (g : Globals) (stages : List (List Word))
    (rows : ℕ) (hi : i + rest.length = argv.length) (hcount : g.pipeCount = stages.length)
    (hlast : g.lastPipe = 0 ∨ g.lastPipe < i) (hshort : Short m stages)
    (htrip : (pipeFilterLoop argv rest i g stages).tripped = false) :
    fillLoop argv rest i g (tableOf m stages (rest.countP isPipeOp + rows)) =
      if Short m (pipeFilterLoop argv rest i g stages).stages then
        some ⟨(pipeFilterLoop argv rest i g stages).globals,
          tableOf m (pipeFilterLoop argv rest i g stages).stages rows, false⟩
      else none := by
  fun_induction pipeFilterLoop argv rest i g stages with
  | case1 i g stages => simp [fillLoop, hshort]
  | case2 => cases htrip
  | case3 w rest i g stages g' hop hin stage ih =>
      have hstage : stage = (argv.take i).drop (if g.lastPipe = 0 then 0 else g.lastPipe + 1) := by
        simp only [stage, g']
        split_ifs <;> rfl
      have hlen : i + rest.length + 1 = argv.length := by simpa [Nat.add_assoc] using hi
      have hlo : (if g.lastPipe = 0 then 0 else g.lastPipe + 1) ≤ i := by split_ifs <;> omega
      have hrow := @onRow_copyStage (fun _ => false) argv _ i (fun _ _ => rfl) hlo (by omega) m
        stages (rest.countP isPipeOp + rows)
      rw [← hstage, ← hcount] at hrow
      rw [fillLoop, if_pos hop, if_neg hin, List.countP_cons_of_pos hop,
        Nat.add_right_comm _ 1 rows]
      dsimp only
      rw [hrow]
      by_cases hfits : FitsRow m stage
      · rw [if_pos hfits]
        refine ih (by omega) ?_ (Or.inr (Nat.lt_succ_self i)) ?_ htrip
        · rw [List.length_append, List.length_singleton, ← hcount]
        · exact List.forall_mem_append.2 ⟨hshort, List.forall_mem_singleton.2 hfits⟩
      · -- the stage stays among those that are found, so they do not all fit
        rw [if_neg hfits, if_neg]
        · rfl
        · intro hall
          refine hfits (hall stage ((stages_pipeFilterLoop argv rest (i + 1) _ _).subset ?_))
          exact List.mem_append_right _ (List.mem_singleton_self stage)
  | case4 w rest i g stages g' hop ih =>
      rw [fillLoop, if_neg hop, List.countP_cons_of_neg hop]
      exact ih (by simp at hi; omega) hcount (by simp only [g']; omega) hshort htrip

variable {m argv}

theorem take_succ_of_drop {i : ℕ} {w : Word} {rest : List Word} (hrest : argv.drop i = w :: rest) :
    argv.take (i + 1) = argv.take i ++ [w] ∧ argv.drop (i + 1) = rest ∧ i < argv.length := by
  have hget : argv[i]? = some w := by
    rw [← List.head?_drop, hrest, List.head?_cons]
  refine ⟨?_, ?_, (List.getElem?_eq_some_iff.1 hget).1⟩
  · rw [List.take_add_one, hget, Option.toList_some]
  · rw [← List.tail_drop, hrest, List.tail_cons]

/-- No operator stands between `lastPipe` and the word that the loop has come to. -/
def NoneSince (argv : List Word) (i l : ℕ) : Prop :=
  (l = 0 ∨ l < i) ∧ ∀ w ∈ (argv.take i).drop (l + 1), isPipeOp w = false

theorem noneSince_pipeFilterLoop {rest : List Word} {i : ℕ} {g : Globals}
    {stages : List (List Word)} (hi : i ≤ argv.length) (hrest : argv.drop i = rest)
    (hsince : NoneSince argv i g.lastPipe)
    (htrip : (pipeFilterLoop argv rest i g stages).tripped = false) :
    NoneSince argv argv.length (pipeFilterLoop argv rest i g stages).globals.lastPipe := by
  fun_induction pipeFilterLoop argv rest i g stages with
  | case1 i g stages =>
      have hend : i = argv.length := le_antisymm hi (List.drop_eq_nil_iff.1 hrest)
      exact hend ▸ hsince
  | case2 => cases htrip
  | case3 w rest i g stages g' hop hin stage ih =>
      obtain ⟨-, hdrop, hlt⟩ := take_succ_of_drop hrest
      refine ih hlt hdrop ⟨Or.inr (Nat.lt_succ_self i), ?_⟩ htrip
      simp
  | case4 w rest i g stages g' hop ih =>
      obtain ⟨htake, hdrop, hlt⟩ := take_succ_of_drop hrest
      refine ih hlt hdrop ⟨hsince.1.imp_right Nat.lt_succ_of_lt, ?_⟩ htrip
      intro v hv
      rw [htake, List.drop_append] at hv
      rcases List.mem_append.1 hv with hv | hv
      · exact hsince.2 v hv
      · rw [List.mem_singleton.1 (List.mem_of_mem_drop hv)]
        exact Bool.not_eq_true _ ▸ hop

/-- The row behind the last stage is released, and written through when it was. -/
theorem onRow_released (stages : List (List Word)) (rows n : ℕ) :
    ((onRow (tableOf m stages (rows + 1)) stages.length (freeFrom 0)).bind fun t =>
        (onRow t stages.length (clearCell n)).map fun t => t.set stages.length none) =
      if n < rowCells m 20 then
        some (stages.map (fun stage => some (stageCells m stage)) ++
          none :: List.replicate rows (freshRow m 20))
      else none := by
  have hfree := freeFrom_loop [] (List.replicate (rowCells m 20 - 20) .junk) 20
  rw [List.length_nil, List.nil_append, List.nil_append] at hfree
  have hlen : (List.replicate 20 Cell.freed ++
      List.replicate (rowCells m 20 - 20) Cell.junk).length = rowCells m 20 := by
    have hrow := le_rowCells m 20
    simp
    omega
  rw [onRow_next, freeFrom, Nat.sub_zero, hfree, Option.map_some, Option.bind_some, onRow,
    List.getElem?_append_right (by simp), List.length_map, Nat.sub_self, List.getElem?_cons_zero]
  dsimp only
  rw [clearCell, hlen]
  split_ifs with h
  · simp
  · rfl

/-- **The last stage**, on an array with a row for it and one more. -/
theorem splitLast_eq {g : Globals} {stages : List (List Word)} (hne : argv ≠ [])
    (hcount : g.pipeCount = stages.length) (hsince : NoneSince argv argv.length g.lastPipe) :
    splitLast argv g (tableOf m stages 2) =
      if FitsRow m (argv.drop (g.lastPipe + 1)) ∧ argv.length < rowCells m 20 then
        some ((stages ++ [argv.drop (g.lastPipe + 1)]).map
          (fun stage => some (stageCells m stage)) ++ [none])
      else none := by
  have hle : g.lastPipe + 1 ≤ argv.length := by
    have hpos := List.length_pos_iff.2 hne
    have := hsince.1
    omega
  have hclear := hsince.2
  rw [List.take_length] at hclear
  have hrow := onRow_copyStage hclear hle le_rfl m stages 1
  rw [List.take_length, ← hcount] at hrow
  rw [splitLast, hrow]
  by_cases hfits : FitsRow m (argv.drop (g.lastPipe + 1))
  · have hlen : g.pipeCount + 1 = (stages ++ [argv.drop (g.lastPipe + 1)]).length := by
      simp [hcount]
    have hreleased := @onRow_released m (stages ++ [argv.drop (g.lastPipe + 1)]) 0 argv.length
    rw [List.replicate_zero] at hreleased
    rw [if_pos hfits, Option.bind_eq_bind, Option.bind_some, hlen]
    simp only [hfits, true_and]
    rw [← hreleased]
    simp only [Option.map_eq_bind, Function.comp_def, Nat.zero_add]
  · rw [if_neg hfits, if_neg fun h => hfits h.1]
    rfl

/-- `pipeCount` is the number of stages cut off. -/
theorem pipeCount_pipeFilterLoop {rest : List Word} {i : ℕ} {g : Globals}
    {stages : List (List Word)} (hcount : g.pipeCount = stages.length) :
    (pipeFilterLoop argv rest i g stages).globals.pipeCount =
      (pipeFilterLoop argv rest i g stages).stages.length := by
  fun_induction pipeFilterLoop argv rest i g stages with
  | case1 => exact hcount
  | case2 => exact hcount
  | case3 w rest i g stages g' hop hin stage ih =>
      refine ih ?_
      rw [List.length_append, List.length_singleton, ← hcount]
  | case4 w rest i g stages g' hop ih => exact ih hcount

end Loop

/-- The stages of a line, as the two functions cut them. -/
def stagesOf (argv : List Word) (g : Globals) : List (List Word) :=
  (pipeFilter argv g).stages ++ [argv.drop ((pipeFilter argv g).globals.lastPipe + 1)]

section Split

variable {argv : List Word} {g : Globals}

theorem noneSince_pipeFilter (hlast : g.lastPipe = 0)
    (htrip : (pipeFilter argv g).tripped = false) :
    NoneSince argv argv.length (pipeFilter argv g).globals.lastPipe := by
  rw [pipeFilter] at htrip ⊢
  refine noneSince_pipeFilterLoop (Nat.zero_le _) List.drop_zero ⟨Or.inl hlast, ?_⟩ htrip
  simp

theorem pipeCount_pipeFilter (hcount : g.pipeCount = 0) :
    (pipeFilter argv g).globals.pipeCount = (pipeFilter argv g).stages.length :=
  pipeCount_pipeFilterLoop hcount

/-- `pipe_filter` leaves two rows, for the last stage and for the end of the array. -/
theorem pipeFilterCells_eq (m : Allocator) (hop : argv.any isPipeOp = true) (hcount : g.pipeCount = 0)
    (hlast : g.lastPipe = 0) (htrip : (pipeFilter argv g).tripped = false) :
    pipeFilterCells m argv g =
      if Short m (pipeFilter argv g).stages then
        some ⟨(pipeFilter argv g).globals, tableOf m (pipeFilter argv g).stages 2, false⟩
      else none := by
  have hpos : argv.countP isPipeOp ≠ 0 := by
    rw [Ne, List.countP_eq_zero]
    simpa using hop
  have hinit : initTripleGlobalCharPtr m (argv.countP isPipeOp + 2) 20 =
      tableOf m [] (argv.countP isPipeOp + 2) := rfl
  rw [pipeFilter] at htrip ⊢
  rw [pipeFilterCells, if_neg hpos, hinit]
  exact fillLoop_eq m argv argv 0 (countPipes argv g) [] 2 (Nat.zero_add _) hcount (Or.inl hlast)
    (by simp [Short]) htrip

/-- **The array after both functions**, whatever the first word is. -/
theorem splitCommands_eq (m : Allocator) (hop : argv.any isPipeOp = true) (hcount : g.pipeCount = 0)
    (hlast : g.lastPipe = 0) (htrip : (pipeFilter argv g).tripped = false) :
    splitCommands m argv g =
      if Short m (stagesOf argv g) ∧ argv.length < rowCells m 20 then
        some ((pipeFilter argv g).globals,
          (stagesOf argv g).map (fun stage => some (stageCells m stage)) ++ [none])
      else none := by
  have hne : argv ≠ [] := by
    rintro rfl
    cases hop
  have hrow := @splitLast_eq m argv _ _ hne (pipeCount_pipeFilter hcount)
    (noneSince_pipeFilter hlast htrip)
  have hshort : (Short m (stagesOf argv g) ∧ argv.length < rowCells m 20) ↔
      Short m (pipeFilter argv g).stages ∧
        FitsRow m (argv.drop ((pipeFilter argv g).globals.lastPipe + 1)) ∧
          argv.length < rowCells m 20 := by
    rw [Short, stagesOf, List.forall_mem_append, List.forall_mem_singleton, Short, and_assoc]
  rw [splitCommands, pipeFilterCells_eq m hop hcount hlast htrip, if_congr hshort rfl rfl]
  by_cases hfits : Short m (pipeFilter argv g).stages
  · rw [if_pos hfits, Option.bind_eq_bind, Option.bind_some, hrow]
    by_cases hlast : FitsRow m (argv.drop ((pipeFilter argv g).globals.lastPipe + 1)) ∧
        argv.length < rowCells m 20
    · rw [if_pos hlast, if_pos ⟨hfits, hlast⟩]
      rfl
    · rw [if_neg hlast, if_neg fun h => hlast h.2]
      rfl
  · rw [if_neg hfits, if_neg fun h => hfits h.1]
    rfl

end Split

/-! ### The line, split at its operators -/

/-- What the loop has cut off the words `pre`: nothing before the first operator, and then all
stages before the last one. -/
inductive SplitAt (pre : List Word) : ℕ → List (List Word) → Prop
  | first (hnone : ∀ w ∈ pre, isPipeOp w = false) : SplitAt pre 0 []
  | later {p cur : List Word} {op : Word} (hpre : pre = p ++ op :: cur) (hop : isPipeOp op = true)
      (hne : p ≠ []) (hcur : ∀ w ∈ cur, isPipeOp w = false) :
      SplitAt pre p.length (p.splitOnP isPipeOp)

section SplitOnP

variable {pre argv : List Word} {g : Globals} {l : ℕ} {stages : List (List Word)} {w : Word}

theorem SplitAt.word (h : SplitAt pre l stages) (hw : isPipeOp w = false) :
    SplitAt (pre ++ [w]) l stages := by
  cases h with
  | first hnone =>
      exact .first (List.forall_mem_append.2 ⟨hnone, List.forall_mem_singleton.2 hw⟩)
  | @later p cur op hpre hop hne hcur =>
      refine @SplitAt.later _ p (cur ++ [w]) op ?_ hop hne ?_
      · rw [hpre, List.append_assoc, List.cons_append]
      · exact List.forall_mem_append.2 ⟨hcur, List.forall_mem_singleton.2 hw⟩

/-- The words between the last operator and the end. -/
theorem SplitAt.append_stage (h : SplitAt pre l stages) :
    stages ++ [if l = 0 then pre else pre.drop (l + 1)] = pre.splitOnP isPipeOp := by
  cases h with
  | first hnone => rw [if_pos rfl, List.splitOnP_eq_singleton hnone, List.nil_append]
  | @later p cur op hpre hop hne hcur =>
      have hdrop : pre.drop (p.length + 1) = cur := by simp [hpre]
      rw [if_neg (by simpa using hne), hdrop, hpre, List.splitOnP_append_cons _ _ hop,
        List.splitOnP_eq_singleton hcur]

theorem SplitAt.ne_zero (h : SplitAt pre l stages) (hop : pre.any isPipeOp = true) : l ≠ 0 := by
  cases h with
  | first hnone =>
      obtain ⟨w, hmem, hw⟩ := List.any_eq_true.1 hop
      exact absurd hw (by simp [hnone w hmem])
  | later _ _ hne _ => simpa using hne

theorem SplitAt.op (h : SplitAt pre l stages) (hw : isPipeOp w = true) (hne : pre ≠ []) :
    SplitAt (pre ++ [w]) pre.length (stages ++ [if l = 0 then pre else pre.drop (l + 1)]) := by
  rw [h.append_stage]
  exact .later rfl hw hne (by simp)

/-- The invariant of the loop, up to the end of the line. -/
theorem splitAt_pipeFilterLoop {rest : List Word} {i : ℕ}
    (hfirst : ∀ w ∈ argv.head?, isPipeOp w = false) (hrest : argv.drop i = rest)
    (h : SplitAt (argv.take i) g.lastPipe stages)
    (htrip : (pipeFilterLoop argv rest i g stages).tripped = false) :
    SplitAt argv (pipeFilterLoop argv rest i g stages).globals.lastPipe
      (pipeFilterLoop argv rest i g stages).stages := by
  fun_induction pipeFilterLoop argv rest i g stages with
  | case1 i g stages => rwa [List.take_of_length_le (List.drop_eq_nil_iff.1 hrest)] at h
  | case2 => cases htrip
  | case3 w rest i g stages g' hop hin stage ih =>
      obtain ⟨htake, hdrop, hlt⟩ := take_succ_of_drop hrest
      have hne : argv.take i ≠ [] := by
        -- the first word is not an operator, so the loop is past it
        intro hnil
        obtain rfl : i = 0 := by
          refine (List.take_eq_nil_iff.1 hnil).resolve_right ?_
          rintro rfl
          exact Nat.not_lt_zero i hlt
        rw [List.drop_zero] at hrest
        exact Bool.false_ne_true ((hfirst w (by rw [hrest]; rfl)).symm.trans hop)
      have hlen : (argv.take i).length = i := by simp; omega
      have hnext := h.op hop hne
      rw [← htake, hlen] at hnext
      exact ih hdrop hnext htrip
  | case4 w rest i g stages g' hop ih =>
      obtain ⟨htake, hdrop, -⟩ := take_succ_of_drop hrest
      have hnext := h.word (w := w) (by simpa using hop)
      rw [← htake] at hnext
      exact ih hdrop hnext htrip

/-- **The stages are the line, split at its operators**, when the line does not start with one. -/
theorem stagesOf_eq_splitOnP (hfirst : ∀ w ∈ argv.head?, isPipeOp w = false)
    (hop : argv.any isPipeOp = true) (hlast : g.lastPipe = 0)
    (htrip : (pipeFilter argv g).tripped = false) :
    stagesOf argv g = argv.splitOnP isPipeOp := by
  have hsplit : SplitAt argv (pipeFilter argv g).globals.lastPipe (pipeFilter argv g).stages := by
    rw [pipeFilter] at htrip ⊢
    refine splitAt_pipeFilterLoop hfirst List.drop_zero ?_ htrip
    rw [show (countPipes argv g).lastPipe = 0 from hlast]
    exact .first (by simp)
  rw [← hsplit.append_stage, if_neg (hsplit.ne_zero hop), stagesOf]

/-- **When the array holds the line, split at its operators**, one stage in each row and ended by null,
with a null row behind the last stage.  For a line that does not start with an operator and has fewer
than twenty words in each stage this is so, for every allocator, exactly if the line has fewer words
than the block of a row has room for. -/
theorem commands_eq_splitOnP_iff (m : Allocator)
    (hfirst : ∀ w ∈ argv.head?, isPipeOp w = false) (hop : argv.any isPipeOp = true)
    (hshort : ∀ stage ∈ argv.splitOnP isPipeOp, stage.length < 20) (hcount : g.pipeCount = 0)
    (hlast : g.lastPipe = 0) (htrip : (pipeFilter argv g).tripped = false) :
    (∃ g' commands, splitCommands m argv g = some (g', commands) ∧
      g'.pipeCount + 1 = (argv.splitOnP isPipeOp).length ∧
      (∀ k ≤ g'.pipeCount, commands[k]? =
        (argv.splitOnP isPipeOp)[k]?.map fun stage => some (stageCells m stage)) ∧
      commands[g'.pipeCount + 1]? = some none) ↔
      argv.length < rowCells m 20 := by
  have hstages := stagesOf_eq_splitOnP hfirst hop hlast htrip
  have hlen : (pipeFilter argv g).globals.pipeCount + 1 = (argv.splitOnP isPipeOp).length := by
    rw [← hstages, stagesOf, List.length_append, List.length_singleton, pipeCount_pipeFilter hcount]
  have hsplit := splitCommands_eq m hop hcount hlast htrip
  rw [hstages] at hsplit
  constructor
  · rintro ⟨g', commands, hsome, -⟩
    rw [hsplit] at hsome
    split_ifs at hsome with h
    exact h.2
  · intro hroom
    rw [if_pos ⟨short_of_lt hshort, hroom⟩] at hsplit
    refine ⟨_, _, hsplit, hlen, ?_, ?_⟩
    · intro k hk
      rw [List.getElem?_append_left (by rw [List.length_map]; omega), List.getElem?_map]
    · rw [hlen]
      simp

end SplitOnP

/-- A line with an empty stage in the middle and one at the end. -/
def emptyStages : List Word := (initArgs "ls -l | wc # S sort |".toList false).1

theorem commands_emptyStages :
    ∃ g' commands, splitCommands glibc emptyStages Globals.init = some (g', commands) ∧
      g'.pipeCount + 1 = 5 ∧
      (∀ k ≤ g'.pipeCount, commands[k]? =
        [["ls".toList, "-l".toList], ["wc".toList], [], ["sort".toList], []][k]?.map
          fun stage => some (stageCells glibc stage)) ∧
      commands[g'.pipeCount + 1]? = some none :=
  (@commands_eq_splitOnP_iff emptyStages Globals.init glibc (by decide) (by decide) (by decide) rfl rfl
    (by decide)).2 (by decide)

/-- A line of two stages and twenty-two words. -/
def longLine : List Word := List.replicate 10 ['a'] ++ ["|".toList] ++ List.replicate 11 ['b']

/-- **The write through the released row is behind its block**, which a 64-bit GNU system makes of
twenty-one cells. -/
theorem not_commands_longLine :
    (∀ w ∈ longLine.head?, isPipeOp w = false) ∧ longLine.any isPipeOp = true ∧
      (∀ stage ∈ longLine.splitOnP isPipeOp, stage.length < 20) ∧
      (pipeFilter longLine Globals.init).tripped = false ∧
      splitCommands glibc longLine Globals.init = none := by
  decide +kernel

end Shell
