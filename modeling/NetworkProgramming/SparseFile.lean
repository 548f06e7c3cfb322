/-
**Writes at an offset into a file that may have holes.**

A file is a list of cells with a filler value `0`.  Writing at an offset past the end leaves a hole
that reads as the filler, a write of nothing leaves the file alone, and every other write replaces
exactly the cells it covers.  The module answers one question in general: what does a file look like
after a list of such writes, and when does the order of the writes not matter?

Main definitions:

* `SparseFile.writeAt` — one write;
* `SparseFile.writeAll` — a list of writes into the empty file;
* `SparseFile.Covers`, `SparseFile.Compatible` — a write covers a cell; any two writes of a list
  agree on every cell that both cover;
* `SparseFile.Tiled` — each write begins where the one before it ended.

Main results:

* `SparseFile.getD_writeAt`, `SparseFile.length_writeAt` — one write, cell by cell;
* `SparseFile.getD_writeAll_of_mem`, `SparseFile.getD_writeAll_of_uncovered`,
  `SparseFile.length_writeAll` — the contents and the length after compatible writes;
* `SparseFile.writeAll_congr` — **the order and the repetitions of compatible writes do not
  matter**;
* `SparseFile.writeAll_of_tiled` — tiled writes concatenate.
-/

import Mathlib.Data.List.GetD
import Mathlib.Data.List.Pairwise
import Mathlib.Tactic

set_option relaxedAutoImplicit false
set_option autoImplicit false

namespace SparseFile

variable {α : Type*} [Zero α]

/-! ### One write -/

/-- The file `f` after the cells `bs` are written at the offset `off`.  Writing nothing does not
extend the file, whatever the offset. -/
def writeAt (f : List α) (off : ℕ) (bs : List α) : List α :=
  match bs with
  | [] => f
  | _ :: _ => f.take off ++ List.replicate (off - f.length) 0 ++ bs ++ f.drop (off + bs.length)

@[simp] theorem writeAt_nil (f : List α) (off : ℕ) : writeAt f off [] = f := rfl

theorem writeAt_of_ne_nil (f : List α) (off : ℕ) {bs : List α} (h : bs ≠ []) :
    writeAt f off bs =
      f.take off ++ List.replicate (off - f.length) 0 ++ bs ++ f.drop (off + bs.length) := by
  cases bs with
  | nil => exact absurd rfl h
  | cons b bs => rfl

theorem length_writeAt (f : List α) (off : ℕ) {bs : List α} (h : bs ≠ []) :
    (writeAt f off bs).length = max f.length (off + bs.length) := by
  rw [writeAt_of_ne_nil f off h]
  simp only [List.length_append, List.length_take, List.length_replicate, List.length_drop]
  omega

/-- Reading back a cell: a covered cell carries the written value, every other cell is as it was,
and the cells of a hole read as `0`. -/
theorem getD_writeAt (f : List α) (off : ℕ) (bs : List α) (j : ℕ) :
    (writeAt f off bs).getD j 0 =
      if off ≤ j ∧ j < off + bs.length then bs.getD (j - off) 0 else f.getD j 0 := by
  by_cases h : bs = []
  · subst h
    rw [writeAt_nil, if_neg (by simp)]
  have hpre : (f.take off ++ List.replicate (off - f.length) (0 : α)).length = off := by
    simp only [List.length_append, List.length_take, List.length_replicate]
    omega
  rw [writeAt_of_ne_nil f off h]
  rcases Nat.lt_or_ge j off with hj | hj
  · -- before the write: an old cell or a cell of the hole
    rw [if_neg (by omega), List.append_assoc, List.getD_append _ _ _ _ (by omega)]
    rcases Nat.lt_or_ge j f.length with hf | hf
    · rw [List.getD_append _ _ _ _ (by simp; omega), List.getD_eq_getElem _ _ (by simp; omega),
        List.getD_eq_getElem _ _ hf, List.getElem_take]
    · rw [List.getD_append_right _ _ _ _ (by simp; omega), List.getD_eq_default _ _ hf,
        List.getD_eq_getElem _ _ (by simp; omega), List.getElem_replicate]
  · rcases Nat.lt_or_ge j (off + bs.length) with hk | hk
    · rw [if_pos ⟨hj, hk⟩, List.getD_append _ _ _ _ (by simp at hpre ⊢; omega),
        List.getD_append_right _ _ _ _ (by omega), hpre]
    · -- past the write: the rest of the old file
      rw [if_neg (by omega), List.getD_append_right _ _ _ _ (by simp at hpre ⊢; omega)]
      simp only [List.length_append, List.getD_eq_getElem?_getD, List.getElem?_drop] at hpre ⊢
      congr 2
      omega

theorem writeAt_length_self (f bs : List α) : writeAt f f.length bs = f ++ bs := by
  cases bs with
  | nil => simp
  | cons b bs =>
      rw [writeAt_of_ne_nil _ _ (by simp)]
      simp

/-- Two files of one length that read the same everywhere are equal. -/
theorem ext_getD {f g : List α} (hlen : f.length = g.length)
    (h : ∀ j, f.getD j 0 = g.getD j 0) : f = g := by
  refine List.ext_getElem hlen ?_
  intro j hf hg
  rw [← List.getD_eq_getElem _ 0 hf, ← List.getD_eq_getElem _ 0 hg]
  exact h j

/-! ### A list of writes -/

/-- The file after the writes `ws`, oldest first, into `f`. -/
def writeFrom (f : List α) (ws : List (ℕ × List α)) : List α :=
  ws.foldl (fun f w => writeAt f w.1 w.2) f

/-- The file after the writes `ws`, oldest first, into the empty file. -/
def writeAll (ws : List (ℕ × List α)) : List α := writeFrom [] ws

@[simp] theorem writeFrom_nil (f : List α) : writeFrom f [] = f := rfl

@[simp] theorem writeFrom_cons (f : List α) (w : ℕ × List α) (ws : List (ℕ × List α)) :
    writeFrom f (w :: ws) = writeFrom (writeAt f w.1 w.2) ws := rfl

/-- The write `w` covers the cell `j`. -/
def Covers (w : ℕ × List α) (j : ℕ) : Prop := w.1 ≤ j ∧ j < w.1 + w.2.length

/-- Any two of the writes agree on every cell that both cover. -/
def Compatible (ws : List (ℕ × List α)) : Prop :=
  ∀ v ∈ ws, ∀ w ∈ ws, ∀ j, Covers v j → Covers w j → v.2.getD (j - v.1) 0 = w.2.getD (j - w.1) 0

/-- A cell holds what some write that covers it wrote, or what it held before. -/
theorem getD_writeFrom_cases (f : List α) (ws : List (ℕ × List α)) (j : ℕ) :
    (∃ w ∈ ws, Covers w j ∧ (writeFrom f ws).getD j 0 = w.2.getD (j - w.1) 0) ∨
      ((∀ w ∈ ws, ¬ Covers w j) ∧ (writeFrom f ws).getD j 0 = f.getD j 0) := by
  induction ws generalizing f with
  | nil => exact Or.inr ⟨by simp, rfl⟩
  | cons w ws ih =>
      rw [writeFrom_cons]
      rcases ih (writeAt f w.1 w.2) with ⟨v, hv, hcov, hval⟩ | ⟨hnone, hval⟩
      · exact Or.inl ⟨v, List.mem_cons_of_mem w hv, hcov, hval⟩
      · rw [hval, getD_writeAt]
        by_cases hw : Covers w j
        · exact Or.inl ⟨w, List.mem_cons_self, hw, if_pos hw⟩
        · refine Or.inr ⟨?_, if_neg hw⟩
          intro v hv
          rcases List.mem_cons.1 hv with rfl | hv
          · exact hw
          · exact hnone v hv

/-- After compatible writes, a covered cell holds what each of the writes covering it wrote. -/
theorem getD_writeAll_of_mem {ws : List (ℕ × List α)} (hc : Compatible ws) {w : ℕ × List α}
    (hw : w ∈ ws) {j : ℕ} (hj : Covers w j) : (writeAll ws).getD j 0 = w.2.getD (j - w.1) 0 := by
  rcases getD_writeFrom_cases [] ws j with ⟨v, hv, hcov, hval⟩ | ⟨hnone, _⟩
  · exact hval.trans (hc v hv w hw j hcov hj)
  · exact absurd hj (hnone w hw)

/-- A cell that no write covers reads as `0`. -/
theorem getD_writeAll_of_uncovered {ws : List (ℕ × List α)} {j : ℕ}
    (hj : ∀ w ∈ ws, ¬ Covers w j) : (writeAll ws).getD j 0 = 0 := by
  rcases getD_writeFrom_cases [] ws j with ⟨v, hv, hcov, _⟩ | ⟨_, hval⟩
  · exact absurd hcov (hj v hv)
  · exact hval.trans (by simp)

/-- The largest end of a non-empty write, and `0` if there is none. -/
def extent (ws : List (ℕ × List α)) : ℕ :=
  ((ws.filter fun w => !w.2.isEmpty).map fun w => w.1 + w.2.length).foldr max 0

omit [Zero α] in
theorem extent_cons (w : ℕ × List α) (ws : List (ℕ × List α)) :
    extent (w :: ws) = if w.2 = [] then extent ws else max (w.1 + w.2.length) (extent ws) := by
  by_cases h : w.2 = []
  · simp [extent, h]
  · simp [extent, h]

theorem length_writeFrom (f : List α) (ws : List (ℕ × List α)) :
    (writeFrom f ws).length = max f.length (extent ws) := by
  induction ws generalizing f with
  | nil => simp [extent]
  | cons w ws ih =>
      rw [writeFrom_cons, ih, extent_cons]
      by_cases h : w.2 = []
      · rw [if_pos h, h, writeAt_nil]
      · rw [if_neg h, length_writeAt _ _ h, max_assoc]

/-- **The length after a list of writes** is the largest end of a non-empty one. -/
theorem length_writeAll (ws : List (ℕ × List α)) : (writeAll ws).length = extent ws := by
  rw [writeAll, length_writeFrom]
  simp

omit [Zero α] in
theorem extent_le_iff (ws : List (ℕ × List α)) (n : ℕ) :
    extent ws ≤ n ↔ ∀ w ∈ ws, w.2 ≠ [] → w.1 + w.2.length ≤ n := by
  induction ws with
  | nil => simp [extent]
  | cons w ws ih =>
      rw [extent_cons, List.forall_mem_cons, ← ih]
      by_cases h : w.2 = []
      · simp [h]
      · simp [h]

omit [Zero α] in
theorem extent_congr {vs ws : List (ℕ × List α)} (h : ∀ w, w ∈ vs ↔ w ∈ ws) :
    extent vs = extent ws := by
  refine eq_of_forall_ge_iff ?_
  intro n
  rw [extent_le_iff, extent_le_iff]
  exact ⟨fun hv w hw => hv w ((h w).2 hw), fun hw w hv => hw w ((h w).1 hv)⟩

/-- **Order and repetition do not matter**: two lists with the same compatible writes leave the
same file. -/
theorem writeAll_congr {vs ws : List (ℕ × List α)} (hc : Compatible vs)
    (h : ∀ w, w ∈ vs ↔ w ∈ ws) : writeAll vs = writeAll ws := by
  refine ext_getD ?_ ?_
  · rw [length_writeAll, length_writeAll, extent_congr h]
  · intro j
    rcases getD_writeFrom_cases [] ws j with ⟨w, hw, hcov, hval⟩ | ⟨hnone, _⟩
    · rw [getD_writeAll_of_mem hc ((h w).2 hw) hcov]
      exact hval.symm
    · rw [getD_writeAll_of_uncovered hnone,
        getD_writeAll_of_uncovered fun w hw => hnone w ((h w).1 hw)]

theorem Compatible.mono {vs ws : List (ℕ × List α)} (hc : Compatible ws)
    (h : ∀ w ∈ vs, w ∈ ws) : Compatible vs :=
  fun v hv w hw => hc v (h v hv) w (h w hw)

/-! ### Tiled writes -/

/-- The first write begins at `n`, and each of the others where the one before it ended. -/
def Tiled : ℕ → List (ℕ × List α) → Prop
  | _, [] => True
  | n, w :: ws => w.1 = n ∧ Tiled (n + w.2.length) ws

omit [Zero α] in
theorem Tiled.le_fst {n : ℕ} {ws : List (ℕ × List α)} (h : Tiled n ws) :
    ∀ w ∈ ws, n ≤ w.1 := by
  induction ws generalizing n with
  | nil => simp
  | cons v ws ih =>
      intro w hw
      rcases List.mem_cons.1 hw with rfl | hw
      · exact h.1.ge
      · exact le_trans (Nat.le_add_right n _) (ih h.2 w hw)

omit [Zero α] in
theorem Tiled.pairwise {n : ℕ} {ws : List (ℕ × List α)} (h : Tiled n ws) :
    ws.Pairwise fun v w => v.1 + v.2.length ≤ w.1 := by
  induction ws generalizing n with
  | nil => exact List.Pairwise.nil
  | cons v ws ih =>
      refine List.Pairwise.cons ?_ (ih h.2)
      intro w hw
      rw [h.1]
      exact h.2.le_fst w hw

/-- Tiled writes are compatible: no cell is covered by two of them. -/
theorem Tiled.compatible {n : ℕ} {ws : List (ℕ × List α)} (h : Tiled n ws) : Compatible ws := by
  have hp : ws.Pairwise fun v w => ∀ j, Covers v j → Covers w j →
      v.2.getD (j - v.1) 0 = w.2.getD (j - w.1) 0 := by
    refine h.pairwise.imp ?_
    rintro v w hvw j ⟨_, hv⟩ ⟨hw, _⟩
    omega
  intro v hv w hw
  refine List.Pairwise.forall_of_forall_of_flip ?_ hp ?_ hv hw
  · intro x _ j _ _
    rfl
  · exact hp.imp fun hxy j hy hx => (hxy j hx hy).symm

theorem writeFrom_of_tiled (f : List α) {ws : List (ℕ × List α)} (h : Tiled f.length ws) :
    writeFrom f ws = f ++ ws.flatMap Prod.snd := by
  induction ws generalizing f with
  | nil => simp
  | cons w ws ih =>
      rw [writeFrom_cons, h.1, writeAt_length_self, ih]
      · simp
      · simpa using h.2

/-- **Tiled writes concatenate.** -/
theorem writeAll_of_tiled {ws : List (ℕ × List α)} (h : Tiled 0 ws) :
    writeAll ws = ws.flatMap Prod.snd := by
  rw [writeAll, writeFrom_of_tiled [] (by simpa using h)]
  simp

end SparseFile
