/-
**Tries.**

A trie over an arbitrary type of letters: a node says whether a word ends there and has a child, or
`null`, for every letter.  The module relates what is stored in a trie to the words that were
inserted, and lists the words of a trie in the order of the letters.

Main definitions:

* `Trie` — the tries, with `Trie.isEnd` and `Trie.child`;
* `Trie.insert`, `Trie.insertAll` — insertion of a word, and of a list into an empty trie;
* `Trie.descend` — the subtrie behind a word;
* `Trie.words` — the words of a trie, a word before its extensions;
* `Trie.Grown` — the tries in which every path leads to a word.

Main results:

* `Trie.isEnd_descend_insertAll` — **a word ends where it was inserted**, and nowhere else;
* `Trie.descend_insertAll_eq_null_iff` — the paths of a trie are the starts of its words;
* `Trie.grown_insertAll` — a trie that was filled by insertion is grown;
* `Trie.mem_words_iff`, `Trie.pairwise_words` — the list has exactly the words of the trie, in
  lexicographic order.
-/

import Mathlib.Data.List.Induction
import Mathlib.Data.List.Pairwise
import Mathlib.Data.List.Lex
import Mathlib.Logic.Function.Basic

set_option relaxedAutoImplicit false
set_option autoImplicit false

/-- A trie: no node, or a node with its children. -/
inductive Trie (α : Type) : Type
  | null : Trie α
  | node (isEnd : Bool) (child : α → Trie α) : Trie α

namespace Trie

variable {α : Type}

/-- A word ends here. -/
def isEnd : Trie α → Bool
  | null => false
  | node isEnd _ => isEnd

/-- The child for a letter. -/
def child : Trie α → α → Trie α
  | null, _ => null
  | node _ child, a => child a

/-- There is no node. -/
def isNull : Trie α → Bool
  | null => true
  | node _ _ => false

/-- A node without children. -/
def empty : Trie α := node false fun _ => null

/-- The subtrie that a word leads to. -/
def descend : Trie α → List α → Trie α
  | t, [] => t
  | t, a :: w => descend (t.child a) w

/-- The words of a trie, in the order in which `order` lists the letters. -/
def words (order : List α) : Trie α → List (List α)
  | null => []
  | node isEnd child =>
      (if isEnd then [[]] else []) ++ order.flatMap fun a => (words order (child a)).map (a :: ·)

@[simp] theorem isEnd_null : (null : Trie α).isEnd = false := rfl

@[simp] theorem isEnd_node (b : Bool) (c : α → Trie α) : (node b c).isEnd = b := rfl

@[simp] theorem child_null (a : α) : (null : Trie α).child a = null := rfl

@[simp] theorem child_node (b : Bool) (c : α → Trie α) : (node b c).child = c := rfl

@[simp] theorem isNull_eq_true_iff {t : Trie α} : t.isNull = true ↔ t = null := by
  cases t <;> simp [isNull]

@[simp] theorem descend_nil (t : Trie α) : descend t [] = t := rfl

@[simp] theorem descend_cons (t : Trie α) (a : α) (w : List α) :
    descend t (a :: w) = descend (t.child a) w := rfl

@[simp] theorem descend_null (w : List α) : descend (null : Trie α) w = null := by
  induction w with
  | nil => rfl
  | cons a w ih => exact ih

theorem descend_append (t : Trie α) (v w : List α) :
    descend t (v ++ w) = descend (descend t v) w := by
  induction v generalizing t with
  | nil => rfl
  | cons a v ih => exact ih (t.child a)

/-! ### Insertion -/

section Insert

variable [DecidableEq α]

/-- The trie after a word was inserted; the nodes on its path are created. -/
def insert : Trie α → List α → Trie α
  | t, [] => node true t.child
  | t, a :: w => node t.isEnd (Function.update t.child a (insert (t.child a) w))

/-- The trie of a list of words. -/
def insertAll (ws : List (List α)) : Trie α := ws.foldl insert empty

theorem isEnd_descend_insert (t : Trie α) (w v : List α) :
    (descend (insert t w) v).isEnd = true ↔ v = w ∨ (descend t v).isEnd = true := by
  induction w generalizing t v with
  | nil =>
      cases v with
      | nil => simp [insert]
      | cons b v => simp [insert]
  | cons a w ih =>
      cases v with
      | nil => simp [insert]
      | cons b v =>
          rw [insert, descend_cons, child_node, descend_cons]
          by_cases hb : b = a
          · subst hb
            rw [Function.update_self, ih]
            simp
          · rw [Function.update_of_ne hb]
            simp [hb]

theorem descend_insert_eq_null_iff (t : Trie α) (w v : List α) :
    descend (insert t w) v = null ↔ ¬ v <+: w ∧ descend t v = null := by
  induction w generalizing t v with
  | nil =>
      cases v with
      | nil => simp [insert]
      | cons b v => simp [insert]
  | cons a w ih =>
      cases v with
      | nil => simp [insert]
      | cons b v =>
          rw [insert, descend_cons, child_node, descend_cons, List.cons_prefix_cons]
          by_cases hb : b = a
          · subst hb
            rw [Function.update_self, ih]
            simp
          · rw [Function.update_of_ne hb]
            simp [hb]

/-- **A word ends where it was inserted.** -/
theorem isEnd_descend_insertAll (ws : List (List α)) (v : List α) :
    (descend (insertAll ws) v).isEnd = true ↔ v ∈ ws := by
  induction ws using List.reverseRecOn with
  | nil => cases v <;> simp [insertAll, empty]
  | append_singleton ws w ih =>
      rw [insertAll, List.foldl_append, List.foldl_cons, List.foldl_nil, ← insertAll,
        isEnd_descend_insert, ih, List.mem_append, List.mem_singleton, or_comm]

/-- The paths of a trie are the starts of its words. -/
theorem descend_insertAll_eq_null_iff (ws : List (List α)) (v : List α) :
    descend (insertAll ws) v = null ↔ v ≠ [] ∧ ∀ w ∈ ws, ¬ v <+: w := by
  induction ws using List.reverseRecOn with
  | nil => cases v <;> simp [insertAll, empty]
  | append_singleton ws w ih =>
      rw [insertAll, List.foldl_append, List.foldl_cons, List.foldl_nil, ← insertAll,
        descend_insert_eq_null_iff, ih]
      simp only [List.mem_append, List.mem_singleton, or_imp, forall_and, forall_eq]
      constructor
      · rintro ⟨hw, hne, hws⟩
        exact ⟨hne, hws, hw⟩
      · rintro ⟨hne, hws, hw⟩
        exact ⟨hw, hne, hws⟩

end Insert

/-! ### The words of a trie -/

/-- Every path that is not empty leads to a word. -/
def Grown (t : Trie α) : Prop :=
  ∀ v, v ≠ [] → descend t v ≠ null → ∃ w, (descend t (v ++ w)).isEnd = true

theorem grown_insertAll [DecidableEq α] (ws : List (List α)) : Grown (insertAll ws) := by
  intro v hv hnull
  rw [Ne, descend_insertAll_eq_null_iff] at hnull
  push Not at hnull
  obtain ⟨_, hmem, w, rfl⟩ := hnull hv
  exact ⟨w, (isEnd_descend_insertAll ws _).2 hmem⟩

theorem Grown.child {t : Trie α} (h : Grown t) (a : α) : Grown (t.child a) := by
  intro v _ hnull
  exact h (a :: v) (List.cons_ne_nil _ _) hnull

theorem Grown.descend {t : Trie α} (h : Grown t) (v : List α) : Grown (descend t v) := by
  induction v generalizing t with
  | nil => exact h
  | cons a v ih => exact ih (h.child a)

section Words

variable {order : List α}

/-- **The list has exactly the words of the trie.** -/
theorem mem_words_iff (horder : ∀ a, a ∈ order) (t : Trie α) (w : List α) :
    w ∈ words order t ↔ (descend t w).isEnd = true := by
  induction w generalizing t with
  | nil =>
      cases t with
      | null => simp [words]
      | node b c => cases b <;> simp [words]
  | cons a w ih =>
      cases t with
      | null => simp [words]
      | node b c =>
          rw [descend_cons, child_node, ← ih]
          cases b <;> simp [words, horder]

/-- **The words are in lexicographic order**, a word before its extensions. -/
theorem pairwise_words {r : α → α → Prop} (horder : order.Pairwise r) (t : Trie α) :
    (words order t).Pairwise (List.Lex r) := by
  induction t with
  | null => exact List.Pairwise.nil
  | node b c ih =>
      rw [words, List.pairwise_append]
      refine ⟨?_, ?_, ?_⟩
      · cases b <;> simp
      · rw [List.pairwise_flatMap]
        refine ⟨fun a _ => ?_, horder.imp fun {a b} hab v hv w hw => ?_⟩
        · rw [List.pairwise_map]
          exact (ih a).imp fun h => List.Lex.cons h
        · obtain ⟨v, -, rfl⟩ := List.mem_map.1 hv
          obtain ⟨w, -, rfl⟩ := List.mem_map.1 hw
          exact List.Lex.rel hab
      · intro v hv w hw
        obtain ⟨a, -, hw⟩ := List.mem_flatMap.1 hw
        obtain ⟨w, -, rfl⟩ := List.mem_map.1 hw
        have hnil : v = [] := by
          cases b <;> simp_all
        rw [hnil]
        exact List.Lex.nil

end Words

end Trie
