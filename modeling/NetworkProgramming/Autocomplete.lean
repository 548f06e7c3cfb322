/-
**The autocompletion engine: the dictionary.**

`MyShell/engine.c` keeps a dictionary of words over the 27 characters `a` to `z` and space in a trie.
Insertion maps a space to the child 26; lookup and completion compute the index of every character
as its distance from `a`, which for a space is `-65`.  In the model an index outside of `0..26` has
no result.

Every string of the engine stands in a block that was allocated for one byte: the completions, and the
prefixes that `str_concat` makes of them.  A string that is too long for such a block has no result
either.

Main definitions:

* `Autocomplete.insertPosition`, `Autocomplete.searchPosition` — the two ways to compute an index;
* `Autocomplete.insertTrie`, `Autocomplete.searchTrie`, `Autocomplete.recursiveInsert`,
  `Autocomplete.completeWord` — the functions of the source;
* `Autocomplete.Completions`, `Autocomplete.strConcat` — `completion_arr` with `completion_count`, and
  `str_concat`;
* `Autocomplete.dictionary` — the trie of a list of words;
* `Autocomplete.encode` — a word as a path of the trie.

Main results:

* `Autocomplete.dictionary_eq` — the dictionary is the trie of the encoded words;
* `Autocomplete.searchTrie_dictionary_iff` — **lookup matches insertion exactly when** no space is
  reached;
* `Autocomplete.recursiveInsert_eq` — the nested loops store the words of the trie, in order;
* `Autocomplete.completeWord_dictionary_iff` — **completion lists exactly the completions**, each once,
  in order, exactly when they fit their blocks.
-/

import NetworkProgramming.CString
import NetworkProgramming.Malloc
import NetworkProgramming.Trie
import Mathlib.Data.List.FinRange
import Mathlib.Data.List.Perm.Basic
import Mathlib.Tactic

set_option relaxedAutoImplicit false
set_option autoImplicit false

namespace Autocomplete

open CString Malloc

/-! ### The functions -/

/-- The array `alphabets`. -/
def alphabets (i : Fin 27) : Char := "abcdefghijklmnopqrstuvwxyz ".toList.getD i '\x00'

/-- The index that `insertTrie` computes. -/
def insertPosition (c : Char) : ℤ := if c ≠ ' ' then c.toNat - 'a'.toNat else 26

/-- The index that `searchTrie` and `completeWord` compute. -/
def searchPosition (c : Char) : ℤ := c.toNat - 'a'.toNat

/-- An index into the children of a node. -/
def index (p : ℤ) : Option (Fin 27) :=
  if h : 0 ≤ p ∧ p < 27 then some ⟨p.toNat, by omega⟩ else none

/-- The dictionary. -/
abbrev Node := Trie (Fin 27)

/-- `newNode`. -/
def newNode : Node := .empty

/-- `insertTrie`. -/
def insertTrie : Node → Text → Option Node
  | temp, [] => some (.node true temp.child)
  | temp, c :: str =>
      (index (insertPosition c)).bind fun i =>
        (insertTrie (temp.child i) str).map fun u =>
          .node temp.isEnd (Function.update temp.child i u)

/-- The loop with which `searchTrie` and `completeWord` begin: the node behind the string, or `none`
where the function returns `0` for a missing child. -/
def follow : Node → Text → Option (Option Node)
  | temp, [] => some (some temp)
  | temp, c :: str =>
      (index (searchPosition c)).bind fun i =>
        if (temp.child i).isNull then some none else follow (temp.child i) str

/-- `searchTrie`. -/
def searchTrie (head : Node) (str : Text) : Option Bool :=
  (follow head str).map fun
    | none => false
    | some temp => temp.isEnd

/-- `MAX_WORDS`. -/
def maxWords : ℕ := 10000

/-- `completion_arr`, of which `completion_count` elements belong to the last completion. -/
structure Completions where
  arr : ℕ → Text
  count : ℕ

/-- The string is copied to the next element, if there is one; its block is `malloc(sizeof(char))`. -/
def Completions.store (m : Allocator) (s : Completions) (op : Text) : Option Completions :=
  if s.count < maxWords then
    (m.strcpy 1 op).map fun op => ⟨Function.update s.arr s.count op, s.count + 1⟩
  else none

/-- `str_concat`: `s1` and `s2` in a new block, which is `malloc(sizeof(char))`. -/
def strConcat (m : Allocator) (s1 : Text) (s2 : Char) : Option Text := m.strcpy 1 (s1 ++ [s2])

/-- `recursiveInsert`.  The loop over `i` ends with the first child it finds, after the loop over all
the children; `str_concat` is called for each of them, also where there is no child. -/
def recursiveInsert (m : Allocator) : Node → ℕ → Text → Completions → Option Completions
  | .null, _, _, s => some s
  | .node isEnd child, start, op, s =>
      if 27 ≤ start then some s
      else
        (if isEnd then s.store m op else some s).bind fun s =>
          if (List.finRange 27).any fun i => start ≤ i.val && !(child i).isNull then
            (List.finRange 27).foldlM
              (fun s j =>
                (strConcat m op (alphabets j)).bind fun op => recursiveInsert m (child j) 0 op s) s
          else some s

/-- `completeWord`: the result and the completions. -/
def completeWord (m : Allocator) (head : Node) (str op : Text) (s : Completions) :
    Option (Bool × Completions) :=
  (follow head str).bind fun
    | none => some (false, s)
    | some temp => (recursiveInsert m temp 0 op s).map fun s => (true, s)

/-- The words are inserted one after the other. -/
def dictionary (words : List Text) : Option Node := words.foldlM insertTrie newNode

/-- The elements that belong to the last completion. -/
def Completions.listed (s : Completions) : List Text := (List.range s.count).map s.arr

/-! ### Letters -/

/-- A character of the alphabet. -/
def IsLetter (c : Char) : Prop := c = ' ' ∨ ('a' ≤ c ∧ c ≤ 'z')

instance (c : Char) : Decidable (IsLetter c) := inferInstanceAs (Decidable (_ ∨ _))

/-- The place of a letter in the alphabet, with the space behind `z`. -/
def rank (c : Char) : Fin 27 := (index (insertPosition c)).getD 26

/-- A word as a path of the trie. -/
def encode (w : Text) : List (Fin 27) := w.map rank

section Letters

variable {c : Char} {v w : Text}

theorem index_of_lt (n : ℕ) (hn : n < 27) : index n = some ⟨n, hn⟩ := by
  rw [index, dif_pos ⟨by omega, by omega⟩]
  simp

/-- A letter other than the space. -/
theorem toNat_of_lower (h : 'a' ≤ c ∧ c ≤ 'z') : ∃ n : Fin 26, c.toNat = 97 + n.val := by
  have hle : 97 ≤ c.toNat ∧ c.toNat ≤ 122 := ⟨h.1, h.2⟩
  exact ⟨⟨c.toNat - 97, by omega⟩, by dsimp only; omega⟩

theorem ne_space_of_lower (h : 'a' ≤ c ∧ c ≤ 'z') : c ≠ ' ' := by
  rintro rfl
  revert h
  decide

/-- For a letter that is no space both functions compute its rank. -/
theorem index_searchPosition (h : 'a' ≤ c ∧ c ≤ 'z') : index (searchPosition c) = some (rank c) := by
  obtain ⟨n, hn⟩ := toNat_of_lower h
  have hpos : searchPosition c = (n.val : ℤ) := by
    rw [searchPosition, hn]
    simp
  have hins : insertPosition c = searchPosition c := if_pos (ne_space_of_lower h)
  rw [rank, hins, hpos, index_of_lt n.val (by omega), Option.getD_some]

/-- The index of a space is not one of a child. -/
theorem index_searchPosition_space : index (searchPosition ' ') = none := by decide

theorem index_insertPosition (h : IsLetter c) : index (insertPosition c) = some (rank c) := by
  rcases h with rfl | h
  · decide
  · rw [insertPosition, if_pos (ne_space_of_lower h)]
    exact index_searchPosition h

theorem alphabets_of_lt (m : Fin 26) :
    alphabets ⟨m.val, m.isLt.trans (by omega)⟩ = Char.ofNat (97 + m.val) := by
  revert m
  decide

theorem alphabets_rank (h : IsLetter c) : alphabets (rank c) = c := by
  rcases h with rfl | h
  · decide
  · obtain ⟨n, hn⟩ := toNat_of_lower h
    have hrank : rank c = ⟨n.val, by omega⟩ := by
      have hpos : insertPosition c = (n.val : ℤ) := by
        rw [insertPosition, if_pos (ne_space_of_lower h), hn]
        simp
      rw [rank, hpos, index_of_lt n.val (by omega), Option.getD_some]
    rw [hrank, alphabets_of_lt, ← hn, Char.ofNat_toNat]

theorem rank_alphabets (i : Fin 27) : rank (alphabets i) = i := by
  revert i
  decide

theorem map_alphabets_encode (hw : ∀ c ∈ w, IsLetter c) : (encode w).map alphabets = w := by
  rw [encode, List.map_map]
  nth_rewrite 2 [← List.map_id w]
  exact List.map_congr_left fun c hc => alphabets_rank (hw c hc)

theorem encode_inj (hv : ∀ c ∈ v, IsLetter c) (hw : ∀ c ∈ w, IsLetter c) :
    encode v = encode w ↔ v = w := by
  constructor
  · intro h
    rw [← map_alphabets_encode hv, h, map_alphabets_encode hw]
  · rintro rfl
    rfl

theorem encode_prefix_iff (hv : ∀ c ∈ v, IsLetter c) (hw : ∀ c ∈ w, IsLetter c) :
    encode v <+: encode w ↔ v <+: w := by
  constructor
  · intro h
    rw [← map_alphabets_encode hv, ← map_alphabets_encode hw]
    exact h.map alphabets
  · intro h
    exact h.map rank

theorem mem_map_encode_iff {words : List Text} (hwords : ∀ v ∈ words, ∀ c ∈ v, IsLetter c)
    (hw : ∀ c ∈ w, IsLetter c) : encode w ∈ words.map encode ↔ w ∈ words := by
  rw [List.mem_map]
  constructor
  · rintro ⟨v, hv, heq⟩
    rwa [← (encode_inj (hwords v hv) hw).1 heq]
  · intro h
    exact ⟨w, h, rfl⟩

end Letters

/-! ### Insertion and lookup -/

section Lookup

variable {words : List Text} {t : Node}

theorem insertTrie_eq (t : Node) {w : Text} (hw : ∀ c ∈ w, IsLetter c) :
    insertTrie t w = some (t.insert (encode w)) := by
  induction w generalizing t with
  | nil => rfl
  | cons c w ih =>
      obtain ⟨hc, hw⟩ := List.forall_mem_cons.1 hw
      rw [insertTrie, index_insertPosition hc, Option.bind_some, ih _ hw]
      rfl

/-- **The dictionary is the trie of the encoded words**: no index is outside of a node. -/
theorem dictionary_eq (hwords : ∀ v ∈ words, ∀ c ∈ v, IsLetter c) :
    dictionary words = some (Trie.insertAll (words.map encode)) := by
  have hfold : ∀ t : Node, words.foldlM insertTrie t =
      some ((words.map encode).foldl Trie.insert t) := by
    induction words with
    | nil => exact fun _ => rfl
    | cons w words ih =>
        intro t
        obtain ⟨hw, hwords⟩ := List.forall_mem_cons.1 hwords
        rw [List.foldlM_cons, insertTrie_eq t hw, Option.bind_eq_bind, Option.bind_some, ih hwords]
        rfl
  exact hfold newNode

/-- The loop passes through letters that are no spaces, as far as there are children. -/
theorem follow_append (ht : t.isNull = false) {u : Text} (hu : ∀ c ∈ u, 'a' ≤ c ∧ c ≤ 'z')
    (rest : Text) :
    follow t (u ++ rest) =
      if (t.descend (encode u)).isNull then some none else follow (t.descend (encode u)) rest := by
  induction u generalizing t with
  | nil => simp [encode, ht]
  | cons c u ih =>
      obtain ⟨hc, hu⟩ := List.forall_mem_cons.1 hu
      rw [List.cons_append, follow, index_searchPosition hc, Option.bind_some, encode, List.map_cons,
        Trie.descend_cons]
      cases hchild : (t.child (rank c)).isNull with
      | true =>
          rw [Trie.isNull_eq_true_iff] at hchild
          rw [if_pos rfl, hchild, Trie.descend_null]
          rfl
      | false =>
          rw [if_neg Bool.false_ne_true, ih hchild hu]
          rfl

theorem isNull_insertAll (ws : List (List (Fin 27))) : (Trie.insertAll ws).isNull = false := by
  rw [← Bool.not_eq_true, Trie.isNull_eq_true_iff, ← Trie.descend_nil (Trie.insertAll ws),
    Trie.descend_insertAll_eq_null_iff]
  exact fun h => h.1 rfl

/-- The node behind the letters `u` is missing if no word of the dictionary starts with them. -/
theorem isNull_descend_iff (hwords : ∀ v ∈ words, ∀ c ∈ v, IsLetter c) {u : Text}
    (hu : ∀ c ∈ u, IsLetter c) :
    ((Trie.insertAll (words.map encode)).descend (encode u)).isNull = true ↔
      u ≠ [] ∧ ∀ v ∈ words, ¬ u <+: v := by
  rw [Trie.isNull_eq_true_iff, Trie.descend_insertAll_eq_null_iff, List.forall_mem_map]
  refine and_congr ?_ (forall₂_congr fun v hv => ?_)
  · rw [encode, Ne, List.map_eq_nil_iff]
  · rw [encode_prefix_iff hu (hwords v hv)]

theorem isEnd_descend_iff (hwords : ∀ v ∈ words, ∀ c ∈ v, IsLetter c) {w : Text}
    (hw : ∀ c ∈ w, IsLetter c) :
    ((Trie.insertAll (words.map encode)).descend (encode w)).isEnd = true ↔ w ∈ words := by
  rw [Trie.isEnd_descend_insertAll, mem_map_encode_iff hwords hw]

/-- A word with a space, up to its first one and from there on. -/
theorem split_at_space {w : Text} (hw : ∀ c ∈ w, IsLetter c) :
    (∀ c ∈ w.takeWhile (· ≠ ' '), 'a' ≤ c ∧ c ≤ 'z') ∧
      (' ' ∈ w → ∃ v, w = w.takeWhile (· ≠ ' ') ++ ' ' :: v) := by
  constructor
  · intro c hc
    have hne : c ≠ ' ' := by simpa using List.mem_takeWhile_imp hc
    exact (hw c ((List.takeWhile_prefix _).mem hc)).resolve_left hne
  · intro hmem
    have hdrop : w.dropWhile (· ≠ ' ') ≠ [] := by
      rw [Ne, List.dropWhile_eq_nil_iff]
      intro h
      simpa using h ' ' hmem
    have hhead := List.head?_dropWhile_not (fun c => decide (c ≠ ' ')) w
    obtain ⟨d, v, hcons⟩ := List.exists_cons_of_ne_nil hdrop
    rw [hcons] at hhead
    have hd : d = ' ' := by simpa using hhead
    refine ⟨v, ?_⟩
    have happend := (List.takeWhile_append_dropWhile (p := fun c => decide (c ≠ ' ')) (l := w)).symm
    rwa [hcons, hd] at happend

end Lookup

/-- **When lookup matches insertion.**  For words and queries over the alphabet, `searchTrie` answers
whether the query was inserted, with indices of children only, exactly when the query has no space,
or what stands before its first space is not empty and no word starts with it. -/
theorem searchTrie_dictionary_iff (words : List Text) (hwords : ∀ v ∈ words, ∀ c ∈ v, IsLetter c)
    (w : Text) (hw : ∀ c ∈ w, IsLetter c) :
    (∃ root, dictionary words = some root ∧ searchTrie root w = some (decide (w ∈ words))) ↔
      ' ' ∉ w ∨ (w.takeWhile (· ≠ ' ') ≠ [] ∧
        ∀ v ∈ words, ¬ w.takeWhile (· ≠ ' ') <+: v) := by
  obtain ⟨hlower, hspace⟩ := split_at_space hw
  have hroot := isNull_insertAll (words.map encode)
  rw [dictionary_eq hwords]
  simp only [Option.some_inj, exists_eq_left']
  by_cases hmem : ' ' ∈ w
  · obtain ⟨v, hsplit⟩ := hspace hmem
    have hletters : ∀ c ∈ w.takeWhile (· ≠ ' '), IsLetter c := fun c hc => Or.inr (hlower c hc)
    have hnotin : ((Trie.insertAll (words.map encode)).descend
        (encode (w.takeWhile (· ≠ ' ')))).isNull = true → w ∉ words := by
      intro hnull hin
      exact ((isNull_descend_iff hwords hletters).1 hnull).2 w hin (List.takeWhile_prefix _)
    have hfollow : follow (Trie.insertAll (words.map encode)) w = _ :=
      (congrArg (follow _) hsplit).trans (follow_append hroot hlower (' ' :: v))
    rw [or_iff_right (not_not.2 hmem), ← isNull_descend_iff hwords hletters, searchTrie, hfollow]
    cases hnull : ((Trie.insertAll (words.map encode)).descend
        (encode (w.takeWhile (· ≠ ' ')))).isNull with
    | true => simp [hnotin hnull]
    | false => simp [follow, index_searchPosition_space]
  · have hall : ∀ c ∈ w, 'a' ≤ c ∧ c ≤ 'z' :=
      fun c hc => (hw c hc).resolve_left fun heq => hmem (heq ▸ hc)
    have hfollow := follow_append hroot hall []
    rw [List.append_nil] at hfollow
    refine iff_of_true ?_ (Or.inl hmem)
    have hend := isEnd_descend_iff hwords hw
    rw [searchTrie, hfollow]
    cases hnode : (Trie.insertAll (words.map encode)).descend (encode w) with
    | null =>
        rw [hnode, Trie.isEnd_null] at hend
        have hnot : w ∉ words := fun h => Bool.false_ne_true (hend.2 h)
        simp [Trie.isNull, hnot]
    | node b c =>
        rw [hnode, Trie.isEnd_node] at hend
        simp only [Trie.isNull, Bool.false_eq_true, if_false, follow, Option.map_some, Option.some_inj,
          Trie.isEnd_node]
        rw [Bool.eq_iff_iff, hend, decide_eq_true_iff]

/-- The words that `main` inserts. -/
def samples : List Text :=
  ["thesis".toList, "omg".toList, "theresa".toList, "thevenin".toList, "thames river".toList,
    "lol".toList]

theorem isLetter_samples : ∀ v ∈ samples, ∀ c ∈ v, IsLetter c := by
  have hall : samples.all (fun v => v.all fun c => decide (IsLetter c)) = true := by decide +kernel
  simpa only [List.all_eq_true, decide_eq_true_eq] using hall

theorem searchTrie_dictionary_iff_samples :
    (∃ root, dictionary samples = some root ∧
        searchTrie root "thesis".toList = some (decide ("thesis".toList ∈ samples))) ↔
      ' ' ∉ "thesis".toList ∨ ("thesis".toList.takeWhile (· ≠ ' ') ≠ [] ∧
        ∀ v ∈ samples, ¬ "thesis".toList.takeWhile (· ≠ ' ') <+: v) :=
  searchTrie_dictionary_iff samples isLetter_samples "thesis".toList
    (isLetter_samples _ (by decide +kernel))

/-- The word with a space of `main`'s own list is not found: the index of the space is `-65`. -/
theorem searchTrie_thames_river :
    "thames river".toList ∈ samples ∧
      ((dictionary samples).map fun root => searchTrie root "thames river".toList) = some none ∧
      searchPosition ' ' = -65 := by
  decide +kernel

/-! ### Completion -/

/-- `v` comes before `w`: letters compare as in the alphabet, and a word comes before its
extensions. -/
def Before (v w : Text) : Prop := List.Lex (fun c d => rank c < rank d) v w

/-- The array with more words at its end. -/
def Completions.filled (s : Completions) (ws : List Text) : Completions :=
  ws.foldl (fun s w => ⟨Function.update s.arr s.count w, s.count + 1⟩) s

section Complete

variable {words : List Text} {m : Allocator}

namespace Completions

theorem storeAll_of_le (s : Completions) (ws : List Text) (h : s.count + ws.length ≤ maxWords)
    (hfit : ∀ w ∈ ws, w.length < m.usable 1) : ws.foldlM (store m) s = some (s.filled ws) := by
  induction ws generalizing s with
  | nil => rfl
  | cons w ws ih =>
      obtain ⟨hw, hfit⟩ := List.forall_mem_cons.1 hfit
      rw [List.length_cons] at h
      rw [List.foldlM_cons, store, if_pos (by omega), Allocator.strcpy_of_lt hw, Option.map_some,
        Option.bind_eq_bind, Option.bind_some]
      exact ih _ (by dsimp only; omega) hfit

/-- What is stored fits, and the array has it at its end. -/
theorem storeAll_eq_some {s s' : Completions} {ws : List Text}
    (h : ws.foldlM (store m) s = some s') :
    (∀ w ∈ ws, w.length < m.usable 1) ∧ s' = s.filled ws := by
  induction ws generalizing s with
  | nil => exact ⟨fun w hw => absurd hw List.not_mem_nil, (Option.some_inj.1 h).symm⟩
  | cons w ws ih =>
      rw [List.foldlM_cons, store] at h
      split_ifs at h with hlt
      · obtain ⟨t, ht, hloop⟩ := Option.bind_eq_some_iff.1 h
        obtain ⟨w', hw', rfl⟩ := Option.map_eq_some_iff.1 ht
        obtain ⟨hfits, rfl⟩ := Allocator.strcpy_eq_some_iff.1 hw'
        obtain ⟨hrest, rfl⟩ := ih hloop
        exact ⟨List.forall_mem_cons.2 ⟨hfits, hrest⟩, rfl⟩
      · cases h

@[simp] theorem count_filled (s : Completions) (ws : List Text) :
    (s.filled ws).count = s.count + ws.length := by
  induction ws generalizing s with
  | nil => rfl
  | cons w ws ih =>
      rw [filled, List.foldl_cons, ← filled, ih, List.length_cons]
      dsimp only
      omega

theorem listed_filled (s : Completions) (ws : List Text) :
    (s.filled ws).listed = s.listed ++ ws := by
  induction ws generalizing s with
  | nil => exact (List.append_nil _).symm
  | cons w ws ih =>
      have hnext : listed ⟨Function.update s.arr s.count w, s.count + 1⟩ = s.listed ++ [w] := by
        rw [listed, List.range_succ, List.map_append, List.map_singleton]
        dsimp only
        rw [Function.update_self]
        congr 1
        refine List.map_congr_left ?_
        intro n hn
        exact Function.update_of_ne (List.mem_range.1 hn).ne _ _
      rw [filled, List.foldl_cons, ← filled, ih, hnext, List.append_assoc, List.singleton_append]

end Completions

/-- The loop over the children has no result when `str_concat` has none. -/
theorem foldlM_strConcat_eq_none {op : Text} (hop : m.usable 1 ≤ op.length + 1)
    (f : Fin 27 → Text → Completions → Option Completions) (s : Completions) :
    (List.finRange 27).foldlM (fun s j => (strConcat m op (alphabets j)).bind fun op => f j op s) s =
      none := by
  have hconcat : strConcat m op (alphabets 0) = none :=
    Allocator.strcpy_eq_none_iff.2 (by rwa [List.length_append, List.length_singleton])
  rw [List.finRange_succ, List.foldlM_cons, hconcat]
  rfl

/-- The words of the children, each behind the letter that leads to the child. -/
def childWords (c : Fin 27 → Node) (order : List (Fin 27)) : List (List (Fin 27)) :=
  order.flatMap fun a => ((c a).words (List.finRange 27)).map (a :: ·)

/-- The loop over the children stores their words, when there is room for one letter more. -/
theorem foldlM_childWords {c : Fin 27 → Node} {op : Text} (hop : op.length + 1 < m.usable 1)
    (hchild : ∀ a op s, recursiveInsert m (c a) 0 op s =
      (((c a).words (List.finRange 27)).map fun w => op ++ w.map alphabets).foldlM
        (Completions.store m) s) (order : List (Fin 27)) (s : Completions) :
    ((childWords c order).map fun w => op ++ w.map alphabets).foldlM (Completions.store m) s =
      order.foldlM (fun s j => (strConcat m op (alphabets j)).bind fun op =>
        recursiveInsert m (c j) 0 op s) s := by
  have hconcat : ∀ j, strConcat m op (alphabets j) = some (op ++ [alphabets j]) := by
    intro j
    refine Allocator.strcpy_of_lt ?_
    rwa [List.length_append, List.length_singleton]
  induction order generalizing s with
  | nil => rfl
  | cons a order ih =>
      rw [childWords, List.flatMap_cons, ← childWords, List.map_append, List.foldlM_append,
        List.foldlM_cons, hconcat, Option.bind_some, hchild a]
      simp only [List.map_map, Function.comp_def, List.map_cons, List.append_assoc,
        List.singleton_append, ih]

/-- Without that room the words of the children have none either. -/
theorem storeAll_childWords_eq_none {b : Bool} {c : Fin 27 → Node} (ht : (Trie.node b c).Grown)
    {op : Text} (hop : m.usable 1 ≤ op.length + 1) {a : Fin 27} (ha : c a ≠ .null)
    (s : Completions) :
    ((childWords c (List.finRange 27)).map fun w => op ++ w.map alphabets).foldlM
      (Completions.store m) s = none := by
  obtain ⟨w, hw⟩ := ht [a] (List.cons_ne_nil _ _) ha
  have hmem : a :: w ∈ childWords c (List.finRange 27) := by
    refine List.mem_flatMap.2 ⟨a, List.mem_finRange a, List.mem_map_of_mem ?_⟩
    exact (Trie.mem_words_iff List.mem_finRange _ _).2 hw
  rw [Option.eq_none_iff_forall_ne_some]
  intro s' hs'
  have hlt := (Completions.storeAll_eq_some hs').1 _ (List.mem_map_of_mem hmem)
  rw [List.length_append, List.length_map, List.length_cons] at hlt
  omega

theorem childWords_eq_nil {c : Fin 27 → Node} (hnull : ∀ a, c a = .null) (order : List (Fin 27)) :
    childWords c order = [] :=
  List.flatMap_eq_nil_iff.2 fun a _ => by rw [hnull, Trie.words, List.map_nil]

/-- **The nested loops store the words of the trie**, each behind the letters that lead to it. -/
theorem recursiveInsert_eq (t : Node) (ht : t.Grown) (op : Text) (s : Completions) :
    recursiveInsert m t 0 op s =
      ((t.words (List.finRange 27)).map fun w => op ++ w.map alphabets).foldlM
        (Completions.store m) s := by
  induction t generalizing op s with
  | null => rfl
  | node b c ih =>
      have hfirst : ∀ s : Completions, (if b then s.store m op else some s) =
          ((if b then [[]] else []).map fun w : List (Fin 27) => op ++ w.map alphabets).foldlM
            (Completions.store m) s := by
        intro s
        cases b with
        | true =>
            simp only [if_true, List.map_cons, List.map_nil, List.append_nil, List.foldlM_cons,
              List.foldlM_nil]
            exact (bind_pure _).symm
        | false => rfl
      rw [recursiveInsert, if_neg (by omega), Trie.words, List.map_append, List.foldlM_append,
        ← hfirst]
      refine congrArg (Option.bind _) (funext fun s => ?_)
      change _ = ((childWords c (List.finRange 27)).map _).foldlM _ s
      split_ifs with hany
      · by_cases hop : op.length + 1 < m.usable 1
        · exact (foldlM_childWords hop (fun a => ih a (ht.child a)) _ s).symm
        · -- the word that a child leads to is too long as well
          obtain ⟨a, -, ha⟩ := List.any_eq_true.1 hany
          have hnull : c a ≠ .null := by
            rintro heq
            rw [heq] at ha
            exact Bool.false_ne_true ((Bool.and_eq_true_iff.1 ha).2)
          rw [foldlM_strConcat_eq_none (not_lt.1 hop),
            storeAll_childWords_eq_none ht (not_lt.1 hop) hnull]
      · -- without children there is nothing in the inner loop either
        have hnull : ∀ a, c a = .null := by
          intro a
          refine Trie.isNull_eq_true_iff.1 ?_
          by_contra ha
          rw [Bool.not_eq_true] at ha
          exact hany (List.any_eq_true.2 ⟨a, List.mem_finRange a, by simp [ha]⟩)
        rw [childWords_eq_nil hnull]
        rfl

/-- The words of the dictionary that start with `p`, as they are stored. -/
def completions (words : List Text) (p : Text) : List Text :=
  (((Trie.insertAll (words.map encode)).descend (encode p)).words (List.finRange 27)).map
    fun w => p ++ w.map alphabets

theorem mem_completions_iff (hwords : ∀ v ∈ words, ∀ c ∈ v, IsLetter c) {p : Text}
    (hp : ∀ c ∈ p, IsLetter c) (v : Text) :
    v ∈ completions words p ↔ v ∈ words ∧ p <+: v := by
  have hmem : ∀ w, w ∈ ((Trie.insertAll (words.map encode)).descend (encode p)).words
      (List.finRange 27) ↔ encode p ++ w ∈ words.map encode := by
    intro w
    rw [Trie.mem_words_iff List.mem_finRange, ← Trie.descend_append, Trie.isEnd_descend_insertAll]
  rw [completions, List.mem_map]
  constructor
  · rintro ⟨w, hw, rfl⟩
    obtain ⟨u, hu, heq⟩ := List.mem_map.1 ((hmem w).1 hw)
    have hsame : u = p ++ w.map alphabets := by
      rw [← map_alphabets_encode (hwords u hu), heq, List.map_append, map_alphabets_encode hp]
    exact ⟨hsame ▸ hu, List.prefix_append _ _⟩
  · rintro ⟨hv, u, rfl⟩
    have hu : ∀ c ∈ u, IsLetter c := fun c hc => hwords _ hv c (List.mem_append_right _ hc)
    refine ⟨encode u, (hmem _).2 ?_, by rw [map_alphabets_encode hu]⟩
    have hencode : encode p ++ encode u = encode (p ++ u) := by simp [encode]
    rw [hencode]
    exact List.mem_map_of_mem hv

theorem before_append_map (p : Text) {v w : List (Fin 27)} (h : List.Lex (· < ·) v w) :
    Before (p ++ v.map alphabets) (p ++ w.map alphabets) := by
  have hmap : Before (v.map alphabets) (w.map alphabets) := by
    induction h with
    | nil => exact List.Lex.nil
    | cons _ ih => exact List.Lex.cons ih
    | rel hab => exact List.Lex.rel (by simpa only [rank_alphabets] using hab)
  induction p with
  | nil => exact hmap
  | cons c p ih => exact List.Lex.cons ih

theorem not_before_self (v : Text) : ¬ Before v v := by
  induction v with
  | nil => exact fun h => by cases h
  | cons c v ih =>
      intro h
      cases h with
      | cons h => exact ih h
      | rel h => exact lt_irrefl _ h

/-- **The completions are in order**, a word before its extensions. -/
theorem pairwise_completions (words : List Text) (p : Text) :
    (completions words p).Pairwise Before := by
  rw [completions, List.pairwise_map]
  exact (Trie.pairwise_words (List.pairwise_lt_finRange 27) _).imp fun h => before_append_map p h

theorem nodup_completions (words : List Text) (p : Text) : (completions words p).Nodup := by
  refine (pairwise_completions words p).imp ?_
  rintro v w h rfl
  exact not_before_self v h

/-- **What `completeWord` does** with a prefix without spaces, as far as the array reaches. -/
theorem completeWord_eq (m : Allocator) (hwords : ∀ v ∈ words, ∀ c ∈ v, IsLetter c) {p : Text}
    (hp : ∀ c ∈ p, 'a' ≤ c ∧ c ≤ 'z') (s : Completions) :
    completeWord m (Trie.insertAll (words.map encode)) p p s =
      if p ≠ [] ∧ ∀ v ∈ words, ¬ p <+: v then some (false, s)
      else ((completions words p).foldlM (Completions.store m) s).map fun s => (true, s) := by
  have hletters : ∀ c ∈ p, IsLetter c := fun c hc => Or.inr (hp c hc)
  have hfollow := follow_append (isNull_insertAll (words.map encode)) hp []
  rw [List.append_nil] at hfollow
  rw [completeWord, hfollow]
  split_ifs with hnull hnone hnone
  · rfl
  · exact absurd ((isNull_descend_iff hwords hletters).1 hnull) hnone
  · exact absurd ((isNull_descend_iff hwords hletters).2 hnone) hnull
  · rw [follow, Option.bind_some]
    dsimp only
    rw [recursiveInsert_eq _ ((Trie.grown_insertAll _).descend _), completions]

/-- The completions are as many as the distinct words that start with the prefix. -/
theorem length_completions (hwords : ∀ v ∈ words, ∀ c ∈ v, IsLetter c) {p : Text}
    (hp : ∀ c ∈ p, IsLetter c) :
    (completions words p).length = ((words.filter fun v => p <+: v).dedup).length := by
  refine List.Perm.length_eq ((List.perm_ext_iff_of_nodup (nodup_completions words p)
    (List.nodup_dedup _)).2 ?_)
  intro v
  rw [mem_completions_iff hwords hp, List.mem_dedup, List.mem_filter, decide_eq_true_iff]

end Complete

/-- **When completion lists exactly the completions.**  With an empty list before and room for all
matches in the array, for every allocator: exactly if all the words that start with the prefix fit the
blocks of their strings, `completeWord` lists the distinct ones, each once and in order, and returns `0`
when there are none and then only. -/
theorem completeWord_dictionary_iff (m : Allocator) (words : List Text)
    (hwords : ∀ v ∈ words, ∀ c ∈ v, IsLetter c) (p : Text) (hp : ∀ c ∈ p, 'a' ≤ c ∧ c ≤ 'z')
    (s : Completions) (hs : s.count = 0)
    (hmax : ((words.filter fun v => p <+: v).dedup).length ≤ maxWords) :
    (∃ root r s', dictionary words = some root ∧ completeWord m root p p s = some (r, s') ∧
      (∀ v, v ∈ s'.listed ↔ v ∈ words ∧ p <+: v) ∧ s'.listed.Nodup ∧
      s'.listed.Pairwise Before ∧
      (words ≠ [] → (r = false ↔ ∀ v ∈ words, ¬ p <+: v))) ↔
      ∀ v ∈ words, p <+: v → v.length < m.usable 1 := by
  have hletters : ∀ c ∈ p, IsLetter c := fun c hc => Or.inr (hp c hc)
  have hmem := mem_completions_iff hwords hletters
  have hlisted : s.listed = [] := by rw [Completions.listed, hs, List.range_zero, List.map_nil]
  have hcomplete := completeWord_eq m hwords hp s
  by_cases hnone : p ≠ [] ∧ ∀ v ∈ words, ¬ p <+: v
  · rw [if_pos hnone] at hcomplete
    refine iff_of_true ?_ fun v hv hprefix => absurd hprefix (hnone.2 v hv)
    refine ⟨_, false, s, dictionary_eq hwords, hcomplete, ?_, ?_, ?_, fun _ => ?_⟩
    · intro v
      rw [hlisted]
      exact iff_of_false List.not_mem_nil fun h => hnone.2 v h.1 h.2
    · rw [hlisted]
      exact List.nodup_nil
    · rw [hlisted]
      exact List.Pairwise.nil
    · exact iff_of_true rfl hnone.2
  rw [if_neg hnone] at hcomplete
  constructor
  · rintro ⟨root, r, s', hroot, hresult, -⟩ v hv hprefix
    obtain rfl := Option.some_inj.1 ((dictionary_eq hwords).symm.trans hroot)
    obtain ⟨t, ht, -⟩ := Option.map_eq_some_iff.1 (hcomplete.symm.trans hresult)
    exact (Completions.storeAll_eq_some ht).1 v ((hmem v).2 ⟨hv, hprefix⟩)
  · intro hfit
    have hlen := length_completions hwords hletters
    have hfill := s.storeAll_of_le (completions words p) (by omega)
      (fun v hv => hfit v ((hmem v).1 hv).1 ((hmem v).1 hv).2)
    rw [hfill, Option.map_some] at hcomplete
    have hlist : (s.filled (completions words p)).listed = completions words p := by
      rw [Completions.listed_filled, hlisted, List.nil_append]
    refine ⟨_, true, _, dictionary_eq hwords, hcomplete, ?_, ?_, ?_, fun hne => ?_⟩
    · rw [hlist]
      exact hmem
    · rw [hlist]
      exact nodup_completions words p
    · rw [hlist]
      exact pairwise_completions words p
    · refine iff_of_false (by decide) ?_
      intro hall
      refine hnone ⟨?_, hall⟩
      rintro rfl
      obtain ⟨v, hv⟩ := List.exists_mem_of_ne_nil words hne
      exact hall v hv List.nil_prefix

theorem completeWord_dictionary_samples :
    ∃ root r s', dictionary samples = some root ∧
      completeWord glibc root "the".toList "the".toList ⟨fun _ => [], 0⟩ = some (r, s') ∧
      (∀ v, v ∈ s'.listed ↔ v ∈ samples ∧ "the".toList <+: v) ∧ s'.listed.Nodup ∧
      s'.listed.Pairwise Before ∧
      (samples ≠ [] → (r = false ↔ ∀ v ∈ samples, ¬ "the".toList <+: v)) := by
  have hall : "the".toList.all (fun c => decide ('a' ≤ c ∧ c ≤ 'z')) = true := by decide +kernel
  refine (completeWord_dictionary_iff glibc samples isLetter_samples "the".toList ?_ ⟨fun _ => [], 0⟩
    rfl (by decide +kernel)).2 (by decide +kernel)
  simpa only [List.all_eq_true, decide_eq_true_eq] using hall

theorem isLetter_longWords :
    ∀ v ∈ [List.replicate 40 'a', List.replicate 40 'a' ++ ['b']], ∀ c ∈ v, IsLetter c := by
  have ha : IsLetter 'a' := by decide +kernel
  have hb : IsLetter 'b' := by decide +kernel
  have hlong : ∀ c ∈ List.replicate 40 'a', IsLetter c := by
    intro c hc
    rw [List.eq_of_mem_replicate hc]
    exact ha
  intro v hv
  rcases List.mem_pair.1 hv with rfl | rfl
  · exact hlong
  · exact List.forall_mem_append.2 ⟨hlong, List.forall_mem_singleton.2 hb⟩

/-- Two words of forty letters and more: `str_concat` writes behind the block of a prefix. -/
theorem not_completeWord_dictionary :
    ∃ root, dictionary [List.replicate 40 'a', List.replicate 40 'a' ++ ['b']] = some root ∧
      completeWord glibc root ['a'] ['a'] ⟨fun _ => [], 0⟩ = none := by
  have hwords := isLetter_longWords
  have hp : ∀ c ∈ ['a'], 'a' ≤ c ∧ c ≤ 'z' := List.forall_mem_singleton.2 (by decide)
  refine ⟨_, dictionary_eq hwords, ?_⟩
  rw [completeWord_eq glibc hwords hp, if_neg (by decide +kernel), Option.map_eq_none_iff,
    Option.eq_none_iff_forall_ne_some]
  intro s hs
  have hmem := (mem_completions_iff hwords (fun c hc => Or.inr (hp c hc)) (List.replicate 40 'a')).2
    (by decide +kernel)
  have hlt := (Completions.storeAll_eq_some hs).1 _ hmem
  revert hlt
  decide +kernel

example : completions samples "the".toList =
    ["theresa".toList, "thesis".toList, "thevenin".toList] := by decide +kernel

end Autocomplete
