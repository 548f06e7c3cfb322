/-
**Windows of characters.**

A window has rows and columns of characters and a cursor, and does not scroll: a character that is
written in the last column takes the cursor to the next row, and in the last row the cursor stays
where it is and the operation fails.  The module describes what an operation does to the text to the
left of the cursor.

Main definitions:

* `Window.move`, `Window.clrtoeol`, `Window.delch`, `Window.addch`, `Window.print` — the operations,
  under the names they have in `curses`;
* `Window.left` — the text to the left of the cursor;
* `Window.shown` — its part behind the last space;
* `Window.Alike` — windows with the same text to the left of the cursor;
* `Window.Beyond` — a window that differs from another one only behind a position.

Main results:

* `Window.shown_addch` — the word before the cursor after one more character;
* `Window.shown_foldl_addch` — **a text is the end of that word** if it has no space and there is
  room for it, and else the word is shorter;
* `Window.Beyond.alike_move` — operations behind a position leave the text before it as it was.
-/

import NetworkProgramming.CString
import Mathlib.Tactic

set_option relaxedAutoImplicit false
set_option autoImplicit false

open CString

/-- A window with the rows `0` to `maxy`, the columns `0` to `maxx` and a cursor. -/
structure Window where
  maxy : ℕ
  maxx : ℕ
  cells : ℕ → ℕ → Char
  cury : ℕ
  curx : ℕ

namespace Window

/-! ### The operations -/

/-- The cursor is moved, if the position is in the window. -/
def move (w : Window) (y x : ℕ) : Window :=
  if y ≤ w.maxy ∧ x ≤ w.maxx then { w with cury := y, curx := x } else w

/-- The row is cleared from the cursor to its end. -/
def clrtoeol (w : Window) : Window :=
  { w with cells := fun y x => if y = w.cury ∧ w.curx ≤ x then ' ' else w.cells y x }

/-- The character under the cursor is deleted and the ones behind it move to the left. -/
def delch (w : Window) : Window :=
  { w with cells := fun y x =>
      if y = w.cury ∧ w.curx ≤ x then if x < w.maxx then w.cells y (x + 1) else ' '
      else w.cells y x }

/-- The cursor goes to the next row.  In the last one it stays, and there is no success. -/
def nextRow (w : Window) : Window × Bool :=
  if w.cury < w.maxy then ({ w with cury := w.cury + 1, curx := 0 }, true) else (w, false)

/-- A character that takes one cell is written. -/
def put (w : Window) (c : Char) : Window :=
  { w with cells := fun y x => if y = w.cury ∧ x = w.curx then c else w.cells y x }

/-- A character is written and the cursor moves on; a newline clears the rest of the row. -/
def addch (w : Window) (c : Char) : Window × Bool :=
  if c = '\n' then w.clrtoeol.nextRow
  else if w.curx < w.maxx then ({ w.put c with curx := w.curx + 1 }, true)
  else (w.put c).nextRow

/-- The characters are written up to the first one that fails. -/
def print : Window → Text → Window
  | w, [] => w
  | w, c :: s => if (w.addch c).2 then print (w.addch c).1 s else (w.addch c).1

/-- The text to the left of the cursor. -/
def left (w : Window) : Text := (List.range w.curx).map (w.cells w.cury)

/-- A word with one more character; a space begins a new one. -/
def typed (t : Text) (c : Char) : Text := if c = ' ' then [] else t ++ [c]

/-- The part of a text behind its last space. -/
def lastWord (t : Text) : Text := t.foldl typed []

/-- The word before the cursor. -/
def shown (w : Window) : Text := lastWord w.left

/-- The cursor is in the window. -/
structure Inside (w : Window) : Prop where
  row : w.cury ≤ w.maxy
  column : w.curx ≤ w.maxx

section

variable {w v : Window} {c : Char} {x y : ℕ}

/-! ### The last word of a text -/

theorem lastWord_append_singleton (t : Text) (c : Char) :
    lastWord (t ++ [c]) = typed (lastWord t) c := by
  rw [lastWord, List.foldl_append, ← lastWord, List.foldl_cons, List.foldl_nil]

theorem typed_space (t : Text) : typed t ' ' = [] := if_pos rfl

theorem typed_of_ne (hc : c ≠ ' ') (t : Text) : typed t c = t ++ [c] := if_neg hc

/-- Without its last character, a text whose last word is not empty ends in a shorter word. -/
theorem lastWord_dropLast {t : Text} (ht : lastWord t ≠ []) :
    lastWord t.dropLast = (lastWord t).dropLast := by
  induction t using List.reverseRecOn with
  | nil => rfl
  | append_singleton t c _ =>
      rw [lastWord_append_singleton] at ht ⊢
      have hc : c ≠ ' ' := by
        rintro rfl
        exact ht (typed_space _)
      rw [typed_of_ne hc, List.dropLast_concat, List.dropLast_concat]

/-! ### The text to the left of the cursor -/

theorem left_of_zero (h : w.curx = 0) : w.left = [] := by
  rw [left, h, List.range_zero, List.map_nil]

/-- The text to the left is the same if its characters are. -/
theorem left_congr (hx : v.curx = w.curx) (h : ∀ i < w.curx, v.cells v.cury i = w.cells w.cury i) :
    v.left = w.left := by
  rw [left, hx]
  exact List.map_congr_left fun i hi => h i (List.mem_range.1 hi)

theorem left_move (hy : y ≤ w.maxy) (hx : x ≤ w.maxx) :
    (w.move y x).left = (List.range x).map (w.cells y) := by
  rw [move, if_pos ⟨hy, hx⟩]
  rfl

theorem left_clrtoeol (w : Window) : w.clrtoeol.left = w.left :=
  left_congr rfl fun _ hi => if_neg fun h => absurd h.2 hi.not_ge

theorem left_delch (w : Window) : w.delch.left = w.left :=
  left_congr rfl fun _ hi => if_neg fun h => absurd h.2 hi.not_ge

theorem left_put (w : Window) (c : Char) : (w.put c).left = w.left :=
  left_congr rfl fun _ hi => if_neg fun h => hi.ne h.2

theorem left_nextRow (w : Window) : w.nextRow.1.left = if w.cury < w.maxy then [] else w.left := by
  rw [nextRow]
  split_ifs with h
  · exact left_of_zero rfl
  · rfl

/-- One step back, the last character is not to the left of the cursor any more. -/
theorem left_move_pred (hw : w.Inside) : (w.move w.cury (w.curx - 1)).left = w.left.dropLast := by
  have hcolumn := hw.column
  rw [left_move hw.row (by omega), left, ← List.map_dropLast, List.dropLast_eq_take,
    List.length_range, List.take_range, min_eq_left (Nat.sub_le _ _)]

theorem left_addch (w : Window) (c : Char) :
    (w.addch c).1.left =
      if c ≠ '\n' ∧ w.curx < w.maxx then w.left ++ [c]
      else if w.cury < w.maxy then [] else w.left := by
  by_cases hc : c = '\n'
  · rw [addch, if_pos hc, if_neg (fun h => h.1 hc), left_nextRow, left_clrtoeol]
    rfl
  · rw [addch, if_neg hc]
    by_cases hx : w.curx < w.maxx
    · rw [if_pos hx, if_pos ⟨hc, hx⟩]
      have hput : ∀ i < w.curx, (w.put c).cells w.cury i = w.cells w.cury i :=
        fun i hi => if_neg fun h => hi.ne h.2
      rw [left, List.range_succ, List.map_append, List.map_singleton]
      congr 1
      · exact List.map_congr_left fun i hi => hput i (List.mem_range.1 hi)
      · exact congrArg (fun d => [d]) (if_pos ⟨rfl, rfl⟩)
    · rw [if_neg hx, if_neg (fun h => hx h.2), left_nextRow, left_put]
      rfl

/-- **The word before the cursor** after one more character. -/
theorem shown_addch (w : Window) (c : Char) :
    (w.addch c).1.shown =
      if c ≠ '\n' ∧ w.curx < w.maxx then typed w.shown c
      else if w.cury < w.maxy then [] else w.shown := by
  rw [shown, left_addch]
  split_ifs
  · exact lastWord_append_singleton _ _
  · rfl
  · rfl

/-! ### The size and the cursor -/

@[simp] theorem maxy_move (w : Window) (y x : ℕ) : (w.move y x).maxy = w.maxy := by
  rw [move]
  split_ifs <;> rfl

@[simp] theorem maxx_move (w : Window) (y x : ℕ) : (w.move y x).maxx = w.maxx := by
  rw [move]
  split_ifs <;> rfl

theorem move_of_le (hy : y ≤ w.maxy) (hx : x ≤ w.maxx) :
    (w.move y x).cury = y ∧ (w.move y x).curx = x := by
  rw [move, if_pos ⟨hy, hx⟩]
  exact ⟨rfl, rfl⟩

theorem Inside.move (hw : w.Inside) (y x : ℕ) : (w.move y x).Inside := by
  rw [Window.move]
  split_ifs with h
  · exact ⟨h.1, h.2⟩
  · exact hw

theorem Inside.nextRow (hw : w.Inside) : w.nextRow.1.Inside := by
  rw [Window.nextRow]
  split_ifs with h
  · exact ⟨h, Nat.zero_le _⟩
  · exact hw

theorem Inside.addch (hw : w.Inside) (c : Char) : (w.addch c).1.Inside := by
  rw [Window.addch]
  split_ifs with hc hx
  · exact Inside.nextRow ⟨hw.row, hw.column⟩
  · exact ⟨hw.row, hx⟩
  · exact Inside.nextRow ⟨hw.row, hw.column⟩

theorem Inside.foldl_addch (hw : w.Inside) (s : Text) :
    (s.foldl (fun w c => (w.addch c).1) w).Inside := by
  induction s generalizing w with
  | nil => exact hw
  | cons c s ih => exact ih (hw.addch c)

@[simp] theorem maxx_addch (w : Window) (c : Char) : (w.addch c).1.maxx = w.maxx := by
  rw [addch, nextRow, nextRow]
  split_ifs <;> rfl

@[simp] theorem maxy_addch (w : Window) (c : Char) : (w.addch c).1.maxy = w.maxy := by
  rw [addch, nextRow, nextRow]
  split_ifs <;> rfl

@[simp] theorem size_foldl_addch (w : Window) (s : Text) :
    (s.foldl (fun w c => (w.addch c).1) w).maxy = w.maxy ∧
      (s.foldl (fun w c => (w.addch c).1) w).maxx = w.maxx := by
  induction s generalizing w with
  | nil => exact ⟨rfl, rfl⟩
  | cons c s ih => simpa using ih (w.addch c).1

/-! ### Writing a text -/

/-- A word before the cursor gets longer with a character only if that is not a space and there is
room for it. -/
theorem length_shown_addch_le (w : Window) (c : Char) :
    (w.addch c).1.shown.length ≤ w.shown.length + 1 := by
  rw [shown_addch, typed]
  split_ifs <;> simp

theorem length_shown_foldl_addch_le (w : Window) (s : Text) :
    (s.foldl (fun w c => (w.addch c).1) w).shown.length ≤ w.shown.length + s.length := by
  induction s generalizing w with
  | nil => exact le_rfl
  | cons c s ih =>
      have hfirst := length_shown_addch_le w c
      have hrest := ih (w.addch c).1
      rw [List.foldl_cons, List.length_cons]
      omega

/-- **A text is the end of the word before the cursor** if it has no space and no newline and there
is room for it; otherwise that word is shorter. -/
theorem shown_foldl_addch (w : Window) (s : Text) (hx : w.curx ≤ w.maxx) :
    if ' ' ∉ s ∧ '\n' ∉ s ∧ w.curx + s.length ≤ w.maxx then
      (s.foldl (fun w c => (w.addch c).1) w).shown = w.shown ++ s
    else (s.foldl (fun w c => (w.addch c).1) w).shown.length < w.shown.length + s.length := by
  induction s generalizing w with
  | nil => simpa using hx
  | cons c s ih =>
      rw [List.foldl_cons, List.length_cons]
      by_cases hc : c ≠ ' ' ∧ c ≠ '\n' ∧ w.curx < w.maxx
      · obtain ⟨hspace, hnewline, hroom⟩ := hc
        have hnext : (w.addch c).1.shown = w.shown ++ [c] := by
          rw [shown_addch, if_pos ⟨hnewline, hroom⟩, typed_of_ne hspace]
        have hcurx : (w.addch c).1.curx = w.curx + 1 := by
          rw [addch, if_neg hnewline, if_pos hroom]
        have hrest := ih (w.addch c).1 (by rw [hcurx, maxx_addch]; exact hroom)
        have hiff : (' ' ∉ s ∧ '\n' ∉ s ∧ w.curx + 1 + s.length ≤ w.maxx) ↔
            (' ' ∉ c :: s ∧ '\n' ∉ c :: s ∧ w.curx + (s.length + 1) ≤ w.maxx) := by
          have harith : w.curx + 1 + s.length = w.curx + (s.length + 1) := by omega
          simp [hspace.symm, hnewline.symm, harith]
        rw [hnext, hcurx, maxx_addch, List.append_assoc, List.singleton_append,
          List.length_append, List.length_singleton] at hrest
        rw [if_congr hiff.symm rfl rfl]
        split_ifs at hrest ⊢ with h
        · exact hrest
        · omega
      · -- the word does not get longer here, so it stays behind
        rw [if_neg]
        · have hshort : (w.addch c).1.shown.length ≤ w.shown.length := by
            rw [shown_addch]
            split_ifs with h1 h2
            · have hspace : c = ' ' := by
                by_contra hne
                exact hc ⟨hne, h1⟩
              rw [hspace, typed_space]
              exact Nat.zero_le _
            · exact Nat.zero_le _
            · exact le_rfl
          have hrest := length_shown_foldl_addch_le (w.addch c).1 s
          omega
        · rintro ⟨h1, h2, h3⟩
          refine hc ⟨?_, ?_, by omega⟩
          · exact (List.ne_of_not_mem_cons h1).symm
          · exact (List.ne_of_not_mem_cons h2).symm

/-! ### Behind a position -/

/-- The windows have one size, one position of the cursor and one text to the left of it. -/
structure Alike (w v : Window) : Prop where
  maxy : v.maxy = w.maxy
  maxx : v.maxx = w.maxx
  cury : v.cury = w.cury
  curx : v.curx = w.curx
  left : v.left = w.left

namespace Alike

theorem refl (w : Window) : Alike w w := ⟨rfl, rfl, rfl, rfl, rfl⟩

theorem trans {u : Window} (h : Alike w v) (h' : Alike v u) : Alike w u :=
  ⟨h'.maxy.trans h.maxy, h'.maxx.trans h.maxx, h'.cury.trans h.cury, h'.curx.trans h.curx,
    h'.left.trans h.left⟩

theorem clrtoeol (h : Alike w v) : Alike w v.clrtoeol :=
  ⟨h.maxy, h.maxx, h.cury, h.curx, (left_clrtoeol v).trans h.left⟩

theorem shown (h : Alike w v) : v.shown = w.shown := congrArg lastWord h.left

theorem inside (h : Alike w v) (hw : w.Inside) : v.Inside :=
  ⟨by rw [h.cury, h.maxy]; exact hw.row, by rw [h.curx, h.maxx]; exact hw.column⟩

end Alike

/-- The window has the size of `w` and its characters before the column `x` of the row `y`, and its
cursor is not before this position. -/
structure Beyond (y x : ℕ) (w v : Window) : Prop where
  maxy : v.maxy = w.maxy
  maxx : v.maxx = w.maxx
  cells : ∀ i < x, v.cells y i = w.cells y i
  past : y < v.cury ∨ (y = v.cury ∧ x ≤ v.curx)

namespace Beyond

theorem refl (w : Window) : Beyond w.cury w.curx w w :=
  ⟨rfl, rfl, fun _ _ => rfl, Or.inr ⟨rfl, le_rfl⟩⟩

theorem clrtoeol (h : Beyond y x w v) : Beyond y x w v.clrtoeol := by
  refine ⟨h.maxy, h.maxx, ?_, h.past⟩
  intro i hi
  rw [← h.cells i hi]
  have hpast := h.past
  exact if_neg (by omega)

theorem put (h : Beyond y x w v) (c : Char) : Beyond y x w (v.put c) := by
  refine ⟨h.maxy, h.maxx, ?_, h.past⟩
  intro i hi
  rw [← h.cells i hi]
  have hpast := h.past
  exact if_neg (by omega)

theorem nextRow (h : Beyond y x w v) : Beyond y x w v.nextRow.1 := by
  rw [Window.nextRow]
  split_ifs
  · refine ⟨h.maxy, h.maxx, h.cells, Or.inl ?_⟩
    have hpast := h.past
    dsimp only
    omega
  · exact h

theorem addch (h : Beyond y x w v) (c : Char) : Beyond y x w (v.addch c).1 := by
  rw [Window.addch]
  split_ifs
  · exact h.clrtoeol.nextRow
  · refine ⟨h.maxy, h.maxx, (h.put c).cells, ?_⟩
    have hpast := h.past
    dsimp only [Window.put]
    omega
  · exact (h.put c).nextRow

theorem print (h : Beyond y x w v) (s : Text) : Beyond y x w (v.print s) := by
  induction s generalizing v with
  | nil => exact h
  | cons c s ih =>
      rw [Window.print]
      split_ifs
      · exact ih (h.addch c)
      · exact h.addch c

/-- A move to a position behind the given one, or outside of the window. -/
theorem move (h : Beyond y x w v) {y' x' : ℕ} (hpast : y < y' ∨ (y = y' ∧ x ≤ x')) :
    Beyond y x w (v.move y' x') := by
  rw [Window.move]
  split_ifs
  · exact ⟨h.maxy, h.maxx, h.cells, hpast⟩
  · exact h

/-- **What stands before the position is as it was**, and the cursor can come back to it. -/
theorem alike_move (h : Beyond w.cury w.curx w v) (hw : w.Inside) :
    Alike w (v.move w.cury w.curx) := by
  have hrow : w.cury ≤ v.maxy := h.maxy ▸ hw.row
  have hcolumn : w.curx ≤ v.maxx := h.maxx ▸ hw.column
  obtain ⟨hcury, hcurx⟩ := move_of_le hrow hcolumn
  refine ⟨(maxy_move v _ _).trans h.maxy, (maxx_move v _ _).trans h.maxx, hcury, hcurx, ?_⟩
  rw [left_move hrow hcolumn]
  exact List.map_congr_left fun i hi => h.cells i (List.mem_range.1 hi)

end Beyond

end

end Window
