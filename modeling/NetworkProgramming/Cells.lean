/-
**Cells and pointers.**

The memory that `malloc` hands out, as a list of cells of one type: a pointer is the index of a
cell or `NULL`, a new cell goes to the end, and nothing is freed.  Reading or writing through `NULL`
fails.

Main definitions:

* `Cells.load`, `Cells.store`, `Cells.alloc` — reading, writing and a new cell;
* `Cells.Chain` — the cells that are reached from a pointer along a field;
* `Cells.walk` — the loop `while (p && !stop(p)) p = p->next`.

Main results:

* `Cells.Chain.congr` — a write to other cells keeps a chain;
* `Cells.Chain.append` — a cell attached to the last one makes the chain longer;
* `Cells.walk_eq_find` — **the loop ends at the first cell of the chain that stops it**.
-/

import Mathlib.Data.List.Nodup
import Mathlib.Data.List.Perm.Subperm

set_option relaxedAutoImplicit false
set_option autoImplicit false

namespace Cells

/-- A pointer; `none` is `NULL`. -/
abbrev Ptr := Option ℕ

section Memory

variable {α : Type}

/-- The cell behind a pointer. -/
def load (h : List α) (p : Ptr) : Option α := p.bind fun a => h[a]?

/-- A change of the cell behind a pointer. -/
def store (h : List α) (p : Ptr) (f : α → α) : Option (List α) :=
  p.bind fun a => if a < h.length then some (h.modify a f) else none

/-- A new cell, and the pointer to it. -/
def alloc (h : List α) (c : α) : List α × Ptr := (h ++ [c], some h.length)

@[simp] theorem load_null (h : List α) : load h none = none := rfl

@[simp] theorem load_some (h : List α) (a : ℕ) : load h (some a) = h[a]? := rfl

@[simp] theorem store_null (h : List α) (f : α → α) : store h none f = none := rfl

theorem store_some {h : List α} {a : ℕ} (ha : a < h.length) (f : α → α) :
    store h (some a) f = some (h.modify a f) := by
  simp [store, ha]

/-- A change of the newest cell. -/
theorem modify_alloc (h : List α) (c : α) (f : α → α) :
    (h ++ [c]).modify h.length f = h ++ [f c] := by
  induction h with
  | nil => rfl
  | cons d h ih => simpa using ih

end Memory

/-! ### Chains -/

section Chain

variable {α : Type} {next : α → Ptr} {h h' : List α}

/-- **The cells that are reached from a pointer along a field**, up to `NULL`. -/
inductive Chain (next : α → Ptr) (h : List α) : Ptr → List ℕ → Prop
  | null : Chain next h none []
  | cell {a : ℕ} {c : α} {l : List ℕ} (hc : h[a]? = some c) (hl : Chain next h (next c) l) :
      Chain next h (some a) (a :: l)

/-- A write that keeps the field of the cells of a chain keeps the chain. -/
theorem Chain.congr {p : Ptr} {l : List ℕ} (hl : Chain next h p l)
    (hsame : ∀ a ∈ l, ∀ c, h[a]? = some c → ∃ c', h'[a]? = some c' ∧ next c' = next c) :
    Chain next h' p l := by
  induction hl with
  | null => exact Chain.null
  | cell hc _ ih =>
      obtain ⟨c', hc', hnext⟩ := hsame _ (by simp) _ hc
      refine Chain.cell hc' ?_
      rw [hnext]
      exact ih fun a ha => hsame a (by simp [ha])

theorem Chain.lt_length {p : Ptr} {l : List ℕ} (hl : Chain next h p l) :
    ∀ a ∈ l, a < h.length := by
  induction hl with
  | null => simp
  | cell hc _ ih =>
      intro a ha
      rcases List.mem_cons.1 ha with rfl | ha
      · exact (List.getElem?_eq_some_iff.1 hc).1
      · exact ih a ha

theorem Chain.nil_iff {p : Ptr} : Chain next h p [] ↔ p = none := by
  constructor
  · intro hl
    cases hl
    rfl
  · rintro rfl
    exact Chain.null

theorem Chain.cons_iff {p : Ptr} {a : ℕ} {l : List ℕ} :
    Chain next h p (a :: l) ↔ p = some a ∧ ∃ c, h[a]? = some c ∧ Chain next h (next c) l := by
  constructor
  · intro hl
    cases hl with
    | cell hc hl => exact ⟨rfl, _, hc, hl⟩
  · rintro ⟨rfl, c, hc, hl⟩
    exact Chain.cell hc hl

/-- The cells of a chain are determined. -/
theorem Chain.unique {p : Ptr} {l m : List ℕ} (hl : Chain next h p l) (hm : Chain next h p m) :
    l = m := by
  induction hl generalizing m with
  | null =>
      cases hm
      rfl
  | cell hc _ ih =>
      cases hm with
      | cell hc' hm =>
          rw [hc] at hc'
          rw [← Option.some_inj.1 hc'] at hm
          rw [ih hm]

/-- The cells from one of the chain on are a chain again. -/
theorem Chain.suffix {p : Ptr} {l : List ℕ} (hl : Chain next h p l) {a : ℕ} (ha : a ∈ l) :
    ∃ m, Chain next h (some a) (a :: m) ∧ a :: m <:+ l := by
  induction hl with
  | null => cases ha
  | cell hc hl ih =>
      rcases List.mem_cons.1 ha with rfl | ha
      · exact ⟨_, Chain.cell hc hl, List.suffix_rfl⟩
      · obtain ⟨m, hm, hsuffix⟩ := ih ha
        exact ⟨m, hm, hsuffix.trans (List.suffix_cons _ _)⟩

/-- No cell of a chain is reached twice. -/
theorem Chain.nodup {p : Ptr} {l : List ℕ} (hl : Chain next h p l) : l.Nodup := by
  induction hl with
  | null => exact List.nodup_nil
  | cell hc hl ih =>
      refine List.nodup_cons.2 ⟨?_, ih⟩
      intro ha
      -- a second visit would make the chain its own proper suffix
      obtain ⟨m, hm, hsuffix⟩ := hl.suffix ha
      have heq := (Chain.cell hc hl).unique hm
      have hlen := hsuffix.length_le
      rw [← heq, List.length_cons] at hlen
      omega

theorem Chain.length_le {p : Ptr} {l : List ℕ} (hl : Chain next h p l) : l.length ≤ h.length := by
  have hsub : l ⊆ List.range h.length := fun a ha => List.mem_range.2 (hl.lt_length a ha)
  simpa using (List.subperm_of_subset hl.nodup hsub).length_le

/-- The pointer of the last cell is changed to a new cell. -/
theorem Chain.append {p : Ptr} {l : List ℕ} {a b : ℕ} {c : α}
    (hl : Chain next h p (l ++ [a]))
    (hsame : ∀ x ∈ l, ∀ c, h[x]? = some c → ∃ c', h'[x]? = some c' ∧ next c' = next c)
    (ha : ∃ c', h'[a]? = some c' ∧ next c' = some b) (hb : h'[b]? = some c)
    (hc : next c = none) : Chain next h' p (l ++ [a, b]) := by
  induction l generalizing p with
  | nil =>
      obtain ⟨rfl, -⟩ := Chain.cons_iff.1 hl
      obtain ⟨c', hc', hnext⟩ := ha
      refine Chain.cell hc' ?_
      rw [hnext]
      refine Chain.cell hb ?_
      rw [hc]
      exact Chain.null
  | cons x l ih =>
      obtain ⟨rfl, d, hx, hl⟩ := Chain.cons_iff.1 hl
      obtain ⟨c', hc', hnext⟩ := hsame x (by simp) _ hx
      refine Chain.cell hc' ?_
      rw [hnext]
      exact ih hl fun y hy => hsame y (by simp [hy])

/-- **The loop** `while (p && !stop(p)) p = p->next`, with fuel. -/
def walk (next : α → Ptr) (stop : α → Bool) (h : List α) : ℕ → Ptr → Ptr
  | 0, _ => none
  | _ + 1, none => none
  | fuel + 1, some a =>
      match h[a]? with
      | none => none
      | some c => if stop c then some a else walk next stop h fuel (next c)

/-- **The loop ends at the first cell of the chain that stops it**, or behind the chain. -/
theorem walk_eq_find (stop : α → Bool) {p : Ptr} {l : List ℕ} (hl : Chain next h p l) {fuel : ℕ}
    (hfuel : l.length < fuel) :
    walk next stop h fuel p = l.find? fun a => (h[a]?).any stop := by
  induction hl generalizing fuel with
  | null =>
      cases fuel with
      | zero => rfl
      | succ fuel => rfl
  | cell hc _ ih =>
      cases fuel with
      | zero => cases hfuel
      | succ fuel =>
          rw [walk, hc, List.find?_cons]
          simp only [hc, Option.any_some]
          cases stop _ with
          | true => rfl
          | false => exact ih (by simpa using hfuel)

/-- The loop that looks for the end of the chain finds its last cell. -/
theorem walk_last {p : Ptr} {l : List ℕ} {z : ℕ} (hl : Chain next h p (l ++ [z])) {fuel : ℕ}
    (hfuel : l.length < fuel) :
    walk next (fun c => decide (next c = none)) h fuel p = some z := by
  induction l generalizing p fuel with
  | nil =>
      obtain ⟨rfl, c, hc, hl⟩ := Chain.cons_iff.1 hl
      cases fuel with
      | zero => cases hfuel
      | succ fuel => simp [walk, hc, Chain.nil_iff.1 hl]
  | cons a l ih =>
      obtain ⟨rfl, c, hc, hl⟩ := Chain.cons_iff.1 hl
      have hnext : next c ≠ none := by
        intro hnone
        rw [hnone] at hl
        simpa using Chain.null.unique hl
      cases fuel with
      | zero => cases hfuel
      | succ fuel =>
          simp only [walk, hc, decide_eq_true_eq, if_neg hnext]
          exact ih hl (by simpa using hfuel)

end Chain

end Cells
