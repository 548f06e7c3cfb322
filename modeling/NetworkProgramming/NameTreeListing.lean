/-
**BigFileSystem: what the tree of names really holds.**

A node of the tree has the whole path as its value, and `find_node` compares it with one component of a
path.  So only the paths of one component are ever found, and the tree has three levels: the root, its
sons, and the sons of those that are found.  `Entry` is the tree without its pointers, and
`insertEntry` is `insert_node` on it, with the two cases in which the server follows a null pointer.

`list_node` prints the tree.  It follows the pointers to the sons and to the siblings, and ends because
the pointers are a tree.

Main definitions:

* `NameTree.listNode`, `NameTree.fileTreeList` — the functions of the server that print the tree;
* `NameTree.Entry`, `NameTree.insertEntry` — a son of the root, and an insertion;
* `NameTree.Tidy`, `NameTree.Built` — the sons of a node are chained in the order of their insertion.

Main results:

* `NameTree.Tidy.attach` — a new node goes behind the other sons of its parent;
* `NameTree.Built.insertNode_eq` — an insertion into the tree of pointers is one into the tree without;
* `NameTree.inserts_listing` — **what the server answers and prints** after any history of insertions;
* `NameTree.listed_once` — **every path that was inserted is printed once**.
-/

import Mathlib.Data.List.Find
import NetworkProgramming.NameTree

set_option relaxedAutoImplicit false
set_option autoImplicit false

namespace NameTree

open Cells CString

/-! ### Printing the tree -/

/-- **`list_node`**, with fuel: the lines that are printed. -/
def listNode (h : List TreeNode) : ℕ → Ptr → Option (List Text)
  | 0, _ => none
  | _ + 1, none => some []
  | fuel + 1, some a => do
      let n ← h[a]?
      let sons ← listNode h fuel n.firstSon
      let rest ← listNode h fuel n.nextSibling
      return n.value :: (sons ++ rest)

/-- `file_tree_list`. -/
def fileTreeList (s : State) (fuel : ℕ) : Option (List Text) := listNode s.nodes fuel s.root

/-! ### The tree without pointers -/

/-- A son of the root: its path, and the paths of its sons. -/
structure Entry where
  path : Text
  isFile : Bool
  sons : List (Text × Bool)
  deriving DecidableEq, Repr

/-- A new last son of the first entry of the name. -/
def addSon (name : Text) (son : Text × Bool) : List Entry → List Entry
  | [] => []
  | e :: entries =>
      if e.path = name then { e with sons := e.sons ++ [son] } :: entries
      else e :: addSon name son entries

/-- **An insertion.**  It fails when `find_node` looks at the first son of a node that has none. -/
def insertEntry (entries : List Entry) (p : Path) (isFile : Bool) : Option (Bool × List Entry) :=
  match p.comps.dropLast with
  | [] => entries.head?.map fun e =>
      if e.isFile then (false, entries) else (true, entries ++ [⟨p.text, isFile, []⟩])
  | name :: dirs =>
      match entries.find? fun e => decide (e.path = name) with
      | none => some (true, entries ++ [⟨p.text, isFile, []⟩])
      | some e =>
          match dirs with
          | [] => e.sons.head?.map fun son =>
              if son.2 then (false, entries) else (true, addSon name (p.text, isFile) entries)
          | _ :: _ => some (true, addSon name (p.text, isFile) entries)

/-- A history of insertions. -/
def insertEntries : List (Path × Bool) → List Entry → Option (List Bool × List Entry)
  | [], entries => some ([], entries)
  | (p, isFile) :: es, entries => do
      let (r, entries) ← insertEntry entries p isFile
      let (rs, entries) ← insertEntries es entries
      return (r :: rs, entries)

/-- The lines that are printed. -/
def printed (entries : List Entry) : List Text :=
  ['/'] :: entries.flatMap fun e => e.path :: e.sons.map Prod.fst

/-! ### The sons of a node -/

/-- **The sons of a node**, in the order of their insertion. -/
def sons (h : List TreeNode) (a : ℕ) : List ℕ :=
  (List.range h.length).filter fun b => decide ((h[b]?).bind TreeNode.parent = some a)

/-- What a write to a pointer leaves of a node. -/
def TreeNode.fixed (n : TreeNode) : Text × Bool × Ptr := (n.value, n.isFile, n.parent)

theorem mem_sons {h : List TreeNode} {a b : ℕ} :
    b ∈ sons h a ↔ ∃ n, h[b]? = some n ∧ n.parent = some a := by
  simp only [sons, List.mem_filter, List.mem_range, decide_eq_true_eq, Option.bind_eq_some_iff]
  constructor
  · exact fun h => h.2
  · rintro ⟨n, hn, hparent⟩
    exact ⟨(List.getElem?_eq_some_iff.1 hn).1, n, hn, hparent⟩

theorem fixed_of_map_eq {h h' : List TreeNode} (heq : h'.map TreeNode.fixed = h.map TreeNode.fixed)
    (b : ℕ) : (h'[b]?).map TreeNode.fixed = (h[b]?).map TreeNode.fixed := by
  rw [← List.getElem?_map, heq, List.getElem?_map]

theorem sons_congr {h h' : List TreeNode} (heq : h'.map TreeNode.fixed = h.map TreeNode.fixed)
    (a : ℕ) : sons h' a = sons h a := by
  have hlen : h'.length = h.length := by simpa using congrArg List.length heq
  have hbind : ∀ o : Option TreeNode,
      o.bind TreeNode.parent = (o.map TreeNode.fixed).bind fun f => f.2.2 := by
    intro o
    cases o <;> rfl
  have hparent : ∀ b : ℕ, (h'[b]?).bind TreeNode.parent = (h[b]?).bind TreeNode.parent := by
    intro b
    rw [hbind, hbind, fixed_of_map_eq heq]
  simp only [sons, hlen, hparent]

theorem sons_append (h : List TreeNode) (new : TreeNode) (a : ℕ) :
    sons (h ++ [new]) a = sons h a ++ if new.parent = some a then [h.length] else [] := by
  rw [sons, List.length_append, List.length_singleton, List.range_succ, List.filter_append]
  congr 1
  · refine List.filter_congr ?_
    intro b hb
    rw [List.getElem?_append_left (List.mem_range.1 hb)]
  · simp [List.filter_singleton]

theorem map_fixed_modify {h : List TreeNode} {a : ℕ} {f : TreeNode → TreeNode}
    (hf : ∀ n, (f n).fixed = n.fixed) :
    (h.modify a f).map TreeNode.fixed = h.map TreeNode.fixed := by
  refine List.ext_getElem? ?_
  intro b
  rw [List.getElem?_map, List.getElem?_map, List.getElem?_modify]
  cases h[b]? with
  | none => rfl
  | some n =>
      refine congrArg some ?_
      dsimp only
      split_ifs
      · exact hf n
      · rfl

/-! ### The pointers -/

/-- **The sons of every node are chained in the order of their insertion**, and the root is nobody's
son. -/
structure Tidy (h : List TreeNode) : Prop where
  root : ∃ n, h[0]? = some n ∧ n.parent = none ∧ n.nextSibling = none
  chain : ∀ (a : ℕ) n, h[a]? = some n → Chain TreeNode.nextSibling h n.firstSon (sons h a)
  parent_lt : ∀ (b : ℕ) n a, h[b]? = some n → n.parent = some a → a < b

section Attach

variable {h h' : List TreeNode} {a : ℕ} {n new : TreeNode}

theorem Tidy.sons_length (ht : Tidy h) : sons h h.length = [] := by
  refine List.eq_nil_iff_forall_not_mem.2 ?_
  intro b hb
  obtain ⟨m, hm, hparent⟩ := mem_sons.1 hb
  have hlt := ht.parent_lt b m _ hm hparent
  have hb := (List.getElem?_eq_some_iff.1 hm).1
  omega

/-- A tree with one more node, of which only the chain of its siblings has to be looked at. -/
theorem Tidy.of_sons (ht : Tidy h) (ha : a < h.length) (hparent : new.parent = some a)
    (hson : new.firstSon = none) (hfixed : h'.map TreeNode.fixed = (h ++ [new]).map TreeNode.fixed)
    (hold : ∀ (b : ℕ) m, (h ++ [new])[b]? = some m → ∃ m', h'[b]? = some m' ∧
      (b ≠ a → m'.firstSon = m.firstSon) ∧ (b ∉ sons h a → m'.nextSibling = m.nextSibling))
    (hsons : ∀ m', h'[a]? = some m' →
      Chain TreeNode.nextSibling h' m'.firstSon (sons h a ++ [h.length])) : Tidy h' := by
  have hparents : ∀ (b : ℕ) m', h'[b]? = some m' → ∃ m, (h ++ [new])[b]? = some m ∧
      m'.parent = m.parent := by
    intro b m' hm'
    have hb := fixed_of_map_eq hfixed b
    rw [hm'] at hb
    obtain ⟨m, hm, heq⟩ := Option.map_eq_some_iff.1 hb.symm
    exact ⟨m, hm, (congrArg (fun f => f.2.2) heq).symm⟩
  refine ⟨?_, ?_, ?_⟩
  · obtain ⟨r, hr, hrparent, hrnext⟩ := ht.root
    obtain ⟨r', hr', -, hnext⟩ := hold 0 r (getElem?_append_singleton_of_some new hr)
    refine ⟨r', hr', ?_, ?_⟩
    · obtain ⟨m, hm, heq⟩ := hparents 0 r' hr'
      rw [getElem?_append_singleton_of_some new hr] at hm
      rw [heq, ← Option.some_inj.1 hm, hrparent]
    · rw [hnext ?_, hrnext]
      intro hmem
      obtain ⟨m, hm, hmparent⟩ := mem_sons.1 hmem
      rw [hr] at hm
      rw [← Option.some_inj.1 hm, hrparent] at hmparent
      cases hmparent
  · intro x m' hm'
    rw [sons_congr hfixed, sons_append, hparent]
    by_cases hxa : x = a
    · subst hxa
      rw [if_pos rfl]
      exact hsons m' hm'
    · rw [if_neg fun heq => hxa (Option.some_inj.1 heq).symm, List.append_nil]
      obtain ⟨m, hm, -⟩ := hparents x m' hm'
      obtain ⟨m'', hm'', hfirst, -⟩ := hold x m hm
      obtain rfl := Option.some_inj.1 (hm'.symm.trans hm'')
      rw [hfirst hxa]
      rcases Nat.lt_or_ge x h.length with hx | hx
      · rw [List.getElem?_append_left hx] at hm
        refine (ht.chain x m hm).congr ?_
        -- a son of another node is no son of `a`
        intro b hb c hc
        obtain ⟨c₀, hc₀, hcparent⟩ := mem_sons.1 hb
        obtain rfl := Option.some_inj.1 (hc.symm.trans hc₀)
        obtain ⟨c', hc', -, hnext⟩ := hold b c (getElem?_append_singleton_of_some new hc)
        refine ⟨c', hc', hnext ?_⟩
        intro hmem
        obtain ⟨c₁, hc₁, hcparent'⟩ := mem_sons.1 hmem
        obtain rfl := Option.some_inj.1 (hc.symm.trans hc₁)
        rw [hcparent] at hcparent'
        exact hxa (Option.some_inj.1 hcparent')
      · have hlast : x = h.length := by
          have hlt := (List.getElem?_eq_some_iff.1 hm).1
          rw [List.length_append, List.length_singleton] at hlt
          omega
        subst hlast
        rw [List.getElem?_concat_length] at hm
        rw [← Option.some_inj.1 hm, hson, ht.sons_length]
        exact Chain.null
  · intro b m' x hm' hx
    obtain ⟨m, hm, heq⟩ := hparents b m' hm'
    rcases Nat.lt_or_ge b h.length with hb | hb
    · rw [List.getElem?_append_left hb] at hm
      exact ht.parent_lt b m x hm (heq ▸ hx)
    · have hlast : b = h.length := by
        have hlt := (List.getElem?_eq_some_iff.1 hm).1
        rw [List.length_append, List.length_singleton] at hlt
        omega
      subst hlast
      rw [List.getElem?_concat_length] at hm
      rw [heq, ← Option.some_inj.1 hm, hparent] at hx
      rw [← Option.some_inj.1 hx]
      exact ha

/-- **A new node goes behind the other sons of its parent.** -/
theorem Tidy.attach (ht : Tidy h) (hn : h[a]? = some n) (hparent : new.parent = some a)
    (hson : new.firstSon = none) (hnext : new.nextSibling = none) :
    ∃ h', attach (h ++ [new]) (some a) (some h.length) = some h' ∧
      h'.map TreeNode.fixed = (h ++ [new]).map TreeNode.fixed ∧ Tidy h' := by
  have ha : a < h.length := (List.getElem?_eq_some_iff.1 hn).1
  have hload := getElem?_append_singleton_of_some new hn
  have hchain := ht.chain a n hn
  rcases List.eq_nil_or_concat (sons h a) with hnil | ⟨l, z, hconcat⟩
  · -- the new node is the only son
    have hfirst : n.firstSon = none := Chain.nil_iff.1 (hnil ▸ hchain)
    have hfixed : ((h ++ [new]).modify a fun n => { n with firstSon := some h.length }).map
        TreeNode.fixed = (h ++ [new]).map TreeNode.fixed := map_fixed_modify fun _ => rfl
    refine ⟨_, ?_, hfixed, ht.of_sons ha hparent hson hfixed ?_ ?_⟩
    · simp only [NameTree.attach, load_some, hload, Option.bind_eq_bind, Option.bind_some, hfirst]
      rw [store_some (by simp; omega)]
    · intro b m hm
      rw [List.getElem?_modify, hm]
      refine ⟨_, rfl, ?_, ?_⟩
      · intro hba
        simp [Ne.symm hba]
      · intro _
        dsimp only
        split_ifs <;> rfl
    · intro m' hm'
      rw [List.getElem?_modify_eq, hload] at hm'
      obtain rfl := Option.some_inj.1 hm'
      rw [hnil, List.nil_append]
      refine Chain.cell (c := new) ?_ ?_
      · rw [List.getElem?_modify_ne _ _ (by omega), List.getElem?_concat_length]
      · rw [hnext]
        exact Chain.null
  · -- the loop over the siblings ends at the last son
    have hchain' : Chain TreeNode.nextSibling h n.firstSon (l ++ [z]) := by
      rwa [← List.concat_eq_append, ← hconcat]
    have hfixed : ((h ++ [new]).modify z fun n => { n with nextSibling := some h.length }).map
        TreeNode.fixed = (h ++ [new]).map TreeNode.fixed := map_fixed_modify fun _ => rfl
    have hwalk : walk TreeNode.nextSibling (fun n => decide (n.nextSibling = none)) (h ++ [new])
        ((h ++ [new]).length + 1) n.firstSon = some z := by
      refine walk_last (hchain'.congr fun b _ m hm =>
        ⟨m, getElem?_append_singleton_of_some new hm, rfl⟩) ?_
      have hle := hchain'.length_le
      rw [List.length_append, List.length_singleton] at hle ⊢
      omega
    have hz : z < h.length := hchain'.lt_length z (by simp)
    have hfirst : n.firstSon ≠ none := by
      intro hnull
      rw [hnull] at hchain'
      exact absurd (hchain'.unique Chain.null) (by simp)
    obtain ⟨f, hf⟩ := Option.ne_none_iff_exists'.1 hfirst
    refine ⟨_, ?_, hfixed, ht.of_sons ha hparent hson hfixed ?_ ?_⟩
    · simp only [NameTree.attach, load_some, hload, Option.bind_eq_bind, Option.bind_some]
      rw [hf] at hwalk ⊢
      dsimp only
      rw [hwalk, store_some (by rw [List.length_append]; omega)]
    · intro b m hm
      rw [List.getElem?_modify, hm]
      refine ⟨_, rfl, ?_, ?_⟩
      · intro _
        dsimp only
        split_ifs <;> rfl
      · intro hb
        have hzb : z ≠ b := by
          rintro rfl
          exact hb (by simp [hconcat])
        simp [hzb]
    · intro m' hm'
      obtain ⟨mz, hmz, hzparent⟩ := mem_sons.1 (show z ∈ sons h a by simp [hconcat])
      have hza : z ≠ a := Nat.ne_of_gt (ht.parent_lt z mz a hmz hzparent)
      rw [List.getElem?_modify_ne _ _ hza, hload] at hm'
      obtain rfl := Option.some_inj.1 hm'
      rw [hconcat, List.concat_eq_append, List.append_assoc, List.singleton_append]
      refine hchain'.append (c := new) ?_ ?_ ?_ hnext
      · intro x hx c hc
        have hzx : z ≠ x := by
          rintro rfl
          exact (List.nodup_append.1 hchain'.nodup).2.2 _ hx _ (by simp) rfl
        refine ⟨c, ?_, rfl⟩
        rw [List.getElem?_modify_ne _ _ hzx, getElem?_append_singleton_of_some new hc]
      · refine ⟨{ mz with nextSibling := some h.length }, ?_, rfl⟩
        rw [List.getElem?_modify_eq, getElem?_append_singleton_of_some new hmz]
        rfl
      · rw [List.getElem?_modify_ne _ _ (by omega), List.getElem?_concat_length]

/-- The loop over the sons of a node, from the first one on. -/
theorem Tidy.walk_eq (ht : Tidy h) (hn : h[a]? = some n) (stop : TreeNode → Bool) :
    walk TreeNode.nextSibling stop h (h.length + 1) n.firstSon =
      (sons h a).find? fun b => (h[b]?).any stop :=
  walk_eq_find stop (ht.chain a n hn) (Nat.lt_succ_of_le (ht.chain a n hn).length_le)

/-- The first son of a node. -/
theorem Tidy.load_firstSon (ht : Tidy h) (hn : h[a]? = some n) :
    load h n.firstSon = (sons h a).head?.bind fun b => h[b]? := by
  have hchain := ht.chain a n hn
  cases hsons : sons h a with
  | nil =>
      rw [hsons] at hchain
      rw [Chain.nil_iff.1 hchain]
      rfl
  | cons b l =>
      rw [hsons] at hchain
      rw [(Chain.cons_iff.1 hchain).1]
      rfl

end Attach

/-! ### The entries -/

/-- The value of a node, and whether it is a file. -/
def label (h : List TreeNode) (b : ℕ) : Text × Bool :=
  ((h[b]?).map fun n => (n.value, n.isFile)).getD ([], false)

/-- The entry of a son of the root. -/
def entry (h : List TreeNode) (a : ℕ) : Entry :=
  { path := (label h a).1
    isFile := (label h a).2
    sons := (sons h a).map (label h) }

/-- **The tree without pointers.** -/
def entries (h : List TreeNode) : List Entry := (sons h 0).map (entry h)

/-- The tree has three levels, and only a path of one component has sons. -/
def Flat (h : List TreeNode) : Prop :=
  ∀ (b : ℕ) n a, h[b]? = some n → n.parent = some a → a ≠ 0 → a ∈ sons h 0 ∧ '/' ∈ n.value

theorem label_of_some {h : List TreeNode} {b : ℕ} {n : TreeNode} (hn : h[b]? = some n) :
    label h b = (n.value, n.isFile) := by
  rw [label, hn]
  rfl

theorem label_congr {h h' : List TreeNode} (heq : h'.map TreeNode.fixed = h.map TreeNode.fixed)
    (b : ℕ) : label h' b = label h b := by
  have hmap : ∀ o : Option TreeNode, (o.map fun n => (n.value, n.isFile)) =
      (o.map TreeNode.fixed).map fun f => (f.1, f.2.1) := by
    intro o
    cases o <;> rfl
  rw [label, label, hmap, hmap, fixed_of_map_eq heq]

theorem entries_congr {h h' : List TreeNode} (heq : h'.map TreeNode.fixed = h.map TreeNode.fixed) :
    entries h' = entries h := by
  have hlabel : label h' = label h := funext (label_congr heq)
  have hentry : entry h' = entry h := by
    funext a
    rw [entry, entry, hlabel, sons_congr heq]
  rw [entries, entries, hentry, sons_congr heq]

theorem label_append {h : List TreeNode} (new : TreeNode) {b : ℕ} (hb : b < h.length) :
    label (h ++ [new]) b = label h b := by
  rw [label, label, List.getElem?_append_left hb]

theorem lt_length_of_mem_sons {h : List TreeNode} {a b : ℕ} (hb : b ∈ sons h a) : b < h.length := by
  obtain ⟨n, hn, -⟩ := mem_sons.1 hb
  exact (List.getElem?_eq_some_iff.1 hn).1

theorem entry_append {h : List TreeNode} (new : TreeNode) {a : ℕ} (ha : a < h.length) :
    entry (h ++ [new]) a =
      { entry h a with
        sons := (entry h a).sons ++ if new.parent = some a then [(new.value, new.isFile)] else [] } := by
  have hsons : (sons h a).map (label (h ++ [new])) = (sons h a).map (label h) :=
    List.map_congr_left fun b hb => label_append new (lt_length_of_mem_sons hb)
  rw [entry, entry, label_append new ha, sons_append, List.map_append, hsons]
  refine congrArg (fun l => (⟨_, _, _ ++ l⟩ : Entry)) ?_
  split_ifs
  · rw [List.map_singleton, label_of_some (List.getElem?_concat_length ..)]
  · rfl

theorem entries_append {h : List TreeNode} (new : TreeNode) :
    (sons h 0).map (entry (h ++ [new])) = (sons h 0).map fun a =>
      { entry h a with
        sons := (entry h a).sons ++ if new.parent = some a then [(new.value, new.isFile)] else [] } :=
  List.map_congr_left fun _ ha => entry_append new (lt_length_of_mem_sons ha)

/-- A new son of the root. -/
theorem entries_new {h : List TreeNode} {new : TreeNode} (ht : Tidy h) (hparent : new.parent = some 0) :
    entries (h ++ [new]) = entries h ++ [⟨new.value, new.isFile, []⟩] := by
  obtain ⟨r, hr, hrparent, -⟩ := ht.root
  have hpos : 0 < h.length := (List.getElem?_eq_some_iff.1 hr).1
  have hold : (sons h 0).map (entry (h ++ [new])) = entries h := by
    rw [entries_append, entries]
    refine List.map_congr_left ?_
    intro a ha
    have hne : new.parent ≠ some a := by
      rw [hparent]
      intro heq
      obtain ⟨n, hn, hnparent⟩ := mem_sons.1 ha
      rw [← Option.some_inj.1 heq, hr] at hn
      rw [← Option.some_inj.1 hn, hrparent] at hnparent
      cases hnparent
    rw [if_neg hne, List.append_nil]
  have hlast : entry (h ++ [new]) h.length = ⟨new.value, new.isFile, []⟩ := by
    have hne : ¬ new.parent = some h.length := by
      rw [hparent]
      intro heq
      have := Option.some_inj.1 heq
      omega
    rw [entry, label_of_some (List.getElem?_concat_length ..), sons_append, ht.sons_length, if_neg hne]
    rfl
  rw [entries, sons_append, if_pos hparent, List.map_append, hold, List.map_singleton, hlast]

/-- A new son of the first entry of the name. -/
theorem map_eq_addSon {name : Text} {son : Text × Bool} {e : ℕ → Entry} {l : List ℕ} {a : ℕ}
    (hnodup : l.Nodup) (hfind : (l.find? fun b => decide ((e b).path = name)) = some a) :
    (l.map fun b => { e b with sons := (e b).sons ++ if a = b then [son] else [] }) =
      addSon name son (l.map e) := by
  induction l with
  | nil => rfl
  | cons b l ih =>
      obtain ⟨hb, hl⟩ := List.nodup_cons.1 hnodup
      rw [List.map_cons, List.map_cons, addSon]
      by_cases hname : (e b).path = name
      · rw [List.find?_cons_of_pos (by simpa using hname)] at hfind
        obtain rfl := Option.some_inj.1 hfind
        rw [if_pos hname, if_pos rfl]
        refine congrArg (List.cons _) (List.map_congr_left ?_)
        intro c hc
        rw [if_neg fun heq : b = c => hb (heq ▸ hc), List.append_nil]
      · rw [List.find?_cons_of_neg (by simpa using hname)] at hfind
        have hab : ¬ a = b := fun heq => hb (heq ▸ List.mem_of_find?_eq_some hfind)
        rw [if_neg hname, if_neg hab, List.append_nil, ih hl hfind]

/-! ### An insertion -/

/-- A tree that insertions have made. -/
structure Built (s : State) : Prop where
  root : s.root = some 0
  tidy : Tidy s.nodes
  flat : Flat s.nodes
  label_root : label s.nodes 0 = (['/'], false)

/-- The node that is attached to the node `a`. -/
def newNode (path : Text) (isFile : Bool) (a : ℕ) : TreeNode :=
  { value := path
    isFile := isFile
    parent := some a
    firstSon := none
    nextSibling := none }

section Insert

variable {s : State} {p : Path} (statFails : Text → Bool) (isFile : Bool)

/-- The new node is attached to `last_node`. -/
theorem insertNode_of_not_found {path : Text} {a : ℕ} {n : TreeNode} (ht : Tidy s.nodes)
    (hn : s.nodes[a]? = some n) (hfind : findNode s path = some (false, some a)) :
    ∃ s', insertNode statFails s path isFile = some (true, s') ∧ s'.root = s.root ∧ Tidy s'.nodes ∧
      s'.nodes.map TreeNode.fixed = (s.nodes ++ [newNode path isFile a]).map TreeNode.fixed := by
  obtain ⟨h', hattach, hfixed, ht'⟩ : ∃ h',
      attach (s.nodes ++ [newNode path isFile a]) (some a) (some s.nodes.length) = some h' ∧
        h'.map TreeNode.fixed = (s.nodes ++ [newNode path isFile a]).map TreeNode.fixed ∧ Tidy h' :=
    ht.attach hn rfl rfl rfl
  refine ⟨makeDir statFails { s with nodes := h' } path isFile, ?_, by simp, by simpa using ht',
    by simpa using hfixed⟩
  have hmodify : (s.nodes ++ [(⟨path, isFile, none, none, none⟩ : TreeNode)]).modify s.nodes.length
      (fun n => { n with parent := some a }) = s.nodes ++ [newNode path isFile a] :=
    modify_alloc _ _ _
  simp only [insertNode, hfind, Option.bind_eq_bind, Option.bind_some, Bool.false_eq_true, if_false,
    initTreenode, alloc]
  rw [store_some (by simp), Option.bind_some, hmodify, hattach]
  rfl

theorem insertNode_of_found {path : Text} {last : Ptr} (hfind : findNode s path = some (true, last)) :
    insertNode statFails s path isFile = some (false, s) := by
  simp only [insertNode, hfind, Option.bind_eq_bind, Option.bind_some]
  rfl

/-- A path with more than one component has a slash. -/
theorem slash_mem_text {name : Text} {dirs : List Text} (hp : p.comps.dropLast = name :: dirs) :
    '/' ∈ p.text := by
  rw [Path.text]
  rcases hcomps : p.comps with _ | ⟨c, _ | ⟨d, comps⟩⟩
  · rw [hcomps] at hp
    cases hp
  · rw [hcomps] at hp
    cases hp
  · rw [List.intercalate_cons_cons]
    simp

/-- A new node keeps the tree flat. -/
theorem Flat.attach {h h' : List TreeNode} {new : TreeNode} {a : ℕ} (hflat : Flat h)
    (hfixed : h'.map TreeNode.fixed = (h ++ [new]).map TreeNode.fixed) (hparent : new.parent = some a)
    (hnew : a ≠ 0 → a ∈ sons h 0 ∧ '/' ∈ new.value) : Flat h' := by
  intro b m' x hm' hx hx0
  have hb := fixed_of_map_eq hfixed b
  rw [hm'] at hb
  obtain ⟨m, hm, heq⟩ := Option.map_eq_some_iff.1 hb.symm
  have hparents : m.parent = some x := (congrArg (fun f => f.2.2) heq).trans hx
  have hvalue : m.value = m'.value := congrArg Prod.fst heq
  have hsons : ∀ y ∈ sons h 0, y ∈ sons h' 0 := by
    intro y hy
    rw [sons_congr hfixed, sons_append]
    exact List.mem_append_left _ hy
  rw [← hvalue]
  rcases Nat.lt_or_ge b h.length with hlt | hge
  · rw [List.getElem?_append_left hlt] at hm
    obtain ⟨hmem, hslash⟩ := hflat b m x hm hparents hx0
    exact ⟨hsons x hmem, hslash⟩
  · have hlast : b = h.length := by
      have hlt := (List.getElem?_eq_some_iff.1 hm).1
      rw [List.length_append, List.length_singleton] at hlt
      omega
    subst hlast
    rw [List.getElem?_concat_length] at hm
    obtain rfl := Option.some_inj.1 hm
    obtain rfl := Option.some_inj.1 (hparent.symm.trans hparents)
    exact ⟨hsons a (hnew hx0).1, (hnew hx0).2⟩

theorem Built.label_root_of_fixed (hs : Built s) {h' : List TreeNode} {new : TreeNode}
    (hfixed : h'.map TreeNode.fixed = (s.nodes ++ [new]).map TreeNode.fixed) :
    label h' 0 = (['/'], false) := by
  obtain ⟨r, hr, -⟩ := hs.tidy.root
  rw [label_congr hfixed, label_append new (List.getElem?_eq_some_iff.1 hr).1, hs.label_root]

/-- The root gets a new son. -/
theorem Built.insert_root (hs : Built s) (hfind : findNode s p.text = some (false, some 0)) :
    ∃ s', insertNode statFails s p.text isFile = some (true, s') ∧ Built s' ∧
      entries s'.nodes = entries s.nodes ++ [⟨p.text, isFile, []⟩] := by
  obtain ⟨r, hr, -⟩ := hs.tidy.root
  obtain ⟨s', hinsert, hroot, ht, hfixed⟩ := insertNode_of_not_found statFails
    isFile hs.tidy hr hfind
  refine ⟨s', hinsert,
    ⟨hroot.trans hs.root, ht, hs.flat.attach hfixed rfl ?_, hs.label_root_of_fixed hfixed⟩, ?_⟩
  · intro h0
    exact absurd rfl h0
  · rw [entries_congr hfixed]
    exact entries_new hs.tidy rfl

/-- An entry gets a new son. -/
theorem Built.insert_son (hs : Built s) {name : Text} {dirs : List Text} {a : ℕ}
    (hp : p.comps.dropLast = name :: dirs)
    (hname : ((sons s.nodes 0).find? fun b => decide ((entry s.nodes b).path = name)) = some a)
    (hfind : findNode s p.text = some (false, some a)) :
    ∃ s', insertNode statFails s p.text isFile = some (true, s') ∧ Built s' ∧
      entries s'.nodes = addSon name (p.text, isFile) (entries s.nodes) := by
  obtain ⟨r, hr, hrparent, -⟩ := hs.tidy.root
  have ha := List.mem_of_find?_eq_some hname
  obtain ⟨n, hn, hnparent⟩ := mem_sons.1 ha
  have ha0 : a ≠ 0 := by
    rintro rfl
    rw [hr] at hn
    rw [← Option.some_inj.1 hn, hrparent] at hnparent
    cases hnparent
  obtain ⟨s', hinsert, hroot, ht, hfixed⟩ := insertNode_of_not_found statFails
    isFile hs.tidy hn hfind
  refine ⟨s', hinsert,
    ⟨hroot.trans hs.root, ht, hs.flat.attach hfixed rfl ?_, hs.label_root_of_fixed hfixed⟩, ?_⟩
  · exact fun _ => ⟨ha, slash_mem_text hp⟩
  · rw [entries_congr hfixed, entries, sons_append, if_neg, List.append_nil, entries_append, entries,
      ← map_eq_addSon (hs.tidy.chain 0 r hr).nodup hname]
    · simp only [newNode, Option.some.injEq]
    · simpa [newNode] using ha0

/-- The entry of the node that `find_node` finds for the first component. -/
theorem find_entries (h : List TreeNode) (name : Text) :
    ((entries h).find? fun e => decide (e.path = name)) =
      ((sons h 0).find? fun b => decide ((entry h b).path = name)).map (entry h) := by
  rw [entries, List.find?_map]
  rfl

/-- The loop over the siblings compares the values. -/
theorem find_sons (h : List TreeNode) (a : ℕ) (name : Text) :
    ((sons h a).find? fun b => (h[b]?).any fun n => decide (n.value = name)) =
      (sons h a).find? fun b => decide ((entry h b).path = name) := by
  refine List.find?_congr ?_
  intro b hb
  obtain ⟨n, hn, -⟩ := mem_sons.1 hb
  rw [entry, label_of_some hn, hn]
  rfl

/-- The sons of a node that is not the root are not found: their values have a slash. -/
theorem Flat.find_sons_eq_none {h : List TreeNode} (hflat : Flat h) {a : ℕ} (ha : a ≠ 0) {name : Text}
    (hname : '/' ∉ name) :
    ((sons h a).find? fun b => decide ((entry h b).path = name)) = none := by
  refine List.find?_eq_none.2 ?_
  intro b hb heq
  obtain ⟨n, hn, hparent⟩ := mem_sons.1 hb
  have hslash := (hflat b n a hn hparent ha).2
  have hpath : (entry h b).path = n.value := by rw [entry, label_of_some hn]
  rw [← hpath, of_decide_eq_true heq] at hslash
  exact hname hslash

/-- What `insert_node` does with the answer of `find_node`. -/
theorem Built.insert_answer (hs : Built s) {found : Bool} {last : Ptr} {new : List Entry}
    (hfind : findNode s p.text = some (found, last))
    (hnew : findNode s p.text = some (false, last) →
      ∃ s', insertNode statFails s p.text isFile = some (true, s') ∧ Built s' ∧
        entries s'.nodes = new) :
    ∃ r s', insertNode statFails s p.text isFile = some (r, s') ∧ Built s' ∧
      (if found then (false, entries s.nodes) else (true, new)) = (r, entries s'.nodes) := by
  cases found with
  | true => exact ⟨false, s, insertNode_of_found statFails isFile hfind, hs, rfl⟩
  | false =>
      obtain ⟨s', hinsert, hs', rfl⟩ := hnew hfind
      exact ⟨true, s', hinsert, hs', rfl⟩

/-- **An insertion into the tree of pointers is one into the tree without.** -/
theorem Built.insertNode_eq (hs : Built s) :
    (insertNode statFails s p.text isFile = none ∧ insertEntry (entries s.nodes) p isFile = none) ∨
      ∃ r s', insertNode statFails s p.text isFile = some (r, s') ∧ Built s' ∧
        insertEntry (entries s.nodes) p isFile = some (r, entries s'.nodes) := by
  obtain ⟨root, hroot, hrootparent, -⟩ := hs.tidy.root
  have hfind : findNode s p.text =
      findLoop s.nodes p.comps.dropLast root.firstSon (some 0) := by
    rw [findNode, pathSplit_text, hs.root, load_some, hroot]
    rfl
  cases hp : p.comps.dropLast with
  | nil =>
      rw [hp, findLoop, hs.tidy.load_firstSon hroot] at hfind
      have hhead : (entries s.nodes).head? = (sons s.nodes 0).head?.map (entry s.nodes) := by
        rw [entries, List.head?_map]
      simp only [insertEntry, hp, hhead]
      cases hsons : sons s.nodes 0 with
      | nil =>
          rw [hsons] at hfind
          exact Or.inl ⟨by rw [insertNode, hfind]; rfl, rfl⟩
      | cons b l =>
          obtain ⟨n, hn, -⟩ := mem_sons.1 (show b ∈ sons s.nodes 0 by simp [hsons])
          rw [hsons, List.head?_cons, Option.bind_some, hn] at hfind
          have hfile : (entry s.nodes b).isFile = n.isFile := by rw [entry, label_of_some hn]
          obtain ⟨r, s', hinsert, hs', heq⟩ := hs.insert_answer statFails isFile hfind
            (hs.insert_root statFails isFile)
          refine Or.inr ⟨r, s', hinsert, hs', ?_⟩
          rw [List.head?_cons, Option.map_some, Option.map_some, hfile, ← heq]
  | cons name dirs =>
      rw [hp, findLoop, hs.tidy.walk_eq hroot, find_sons] at hfind
      simp only [insertEntry, hp, find_entries]
      cases hname : (sons s.nodes 0).find? fun b => decide ((entry s.nodes b).path = name) with
      | none =>
          rw [hname] at hfind
          obtain ⟨s', hinsert, hs', hentries⟩ := hs.insert_root statFails isFile hfind
          exact Or.inr ⟨_, s', hinsert, hs', by rw [hentries]; rfl⟩
      | some a =>
          obtain ⟨n, hn, hparent⟩ := mem_sons.1 (List.mem_of_find?_eq_some hname)
          have hloop : findNode s p.text = findLoop s.nodes dirs n.firstSon (some a) := by
            rw [hfind, hname]
            simp only [load_some, hn]
            rfl
          cases dirs with
          | nil =>
              rw [findLoop, hs.tidy.load_firstSon hn] at hloop
              simp only [Option.map_some, entry]
              cases hsons : sons s.nodes a with
              | nil =>
                  rw [hsons] at hloop
                  exact Or.inl ⟨by rw [insertNode, hloop]; rfl, rfl⟩
              | cons b l =>
                  obtain ⟨m, hm, -⟩ := mem_sons.1 (show b ∈ sons s.nodes a by simp [hsons])
                  rw [hsons, List.head?_cons, Option.bind_some, hm] at hloop
                  obtain ⟨r, s', hinsert, hs', heq⟩ := hs.insert_answer statFails isFile hloop
                    (hs.insert_son statFails isFile hp hname)
                  refine Or.inr ⟨r, s', hinsert, hs', ?_⟩
                  rw [List.map_cons, List.head?_cons, Option.map_some, label_of_some hm, ← heq]
          | cons d dirs =>
              have hd : '/' ∉ d := by
                refine p.no_slash d (List.dropLast_subset _ ?_)
                rw [hp]
                simp
              have ha : a ≠ 0 := by
                rintro rfl
                rw [hroot] at hn
                rw [← Option.some_inj.1 hn, hrootparent] at hparent
                cases hparent
              have hfalse : findNode s p.text = some (false, some a) := by
                rw [hloop, findLoop, hs.tidy.walk_eq hn, find_sons, hs.flat.find_sons_eq_none ha hd]
              obtain ⟨s', hinsert, hs', hentries⟩ :=
                hs.insert_son statFails isFile hp hname hfalse
              exact Or.inr ⟨_, s', hinsert, hs', by rw [hentries]; rfl⟩

end Insert

/-! ### A history -/

theorem built_initFiletree (absDir : Text) : Built (initFiletree absDir) := by
  have hroot : (initFiletree absDir).nodes = [⟨['/'], false, none, none, none⟩] := rfl
  have hsons : ∀ a, sons (initFiletree absDir).nodes a = [] := by
    intro a
    rw [hroot]
    rfl
  refine ⟨rfl, ⟨⟨_, rfl, rfl, rfl⟩, ?_, ?_⟩, ?_, rfl⟩
  · intro a n hn
    rw [hsons]
    obtain ⟨rfl, rfl⟩ : a = 0 ∧ n = ⟨['/'], false, none, none, none⟩ := by
      rw [hroot] at hn
      cases a with
      | zero => exact ⟨rfl, (Option.some_inj.1 hn).symm⟩
      | succ a => cases hn
    exact Chain.null
  · intro b n a hn hparent
    exact absurd (mem_sons.2 ⟨n, hn, hparent⟩) (by simp [hsons])
  · intro b n a hn hparent
    exact absurd (mem_sons.2 ⟨n, hn, hparent⟩) (by simp [hsons])

/-- **The tree of pointers refines the tree without**, also where a null pointer is followed. -/
theorem Built.inserts_eq {s : State} (hs : Built s) (statFails : Text → Bool)
    (es : List (Path × Bool)) :
    (inserts statFails es s = none ∧ insertEntries es (entries s.nodes) = none) ∨
      ∃ rs s', inserts statFails es s = some (rs, s') ∧ Built s' ∧
        insertEntries es (entries s.nodes) = some (rs, entries s'.nodes) := by
  induction es generalizing s with
  | nil => exact Or.inr ⟨[], s, rfl, hs, rfl⟩
  | cons e es ih =>
      obtain ⟨p, isFile⟩ := e
      rcases hs.insertNode_eq (p := p) statFails isFile with
        ⟨hinsert, hentry⟩ | ⟨r, s₁, hinsert, hs₁, hentry⟩
      · exact Or.inl ⟨by rw [inserts, hinsert]; rfl, by rw [insertEntries, hentry]; rfl⟩
      · rcases ih hs₁ with ⟨hrest, hentries⟩ | ⟨rs, s', hrest, hs', hentries⟩
        · refine Or.inl ⟨?_, ?_⟩
          · rw [inserts, hinsert]
            simp only [Option.bind_eq_bind, Option.bind_some, hrest, Option.bind_none]
          · rw [insertEntries, hentry]
            simp only [Option.bind_eq_bind, Option.bind_some, hentries, Option.bind_none]
        · refine Or.inr ⟨r :: rs, s', ?_, hs', ?_⟩
          · rw [inserts, hinsert]
            simp only [Option.bind_eq_bind, Option.bind_some, hrest]
            rfl
          · rw [insertEntries, hentry]
            simp only [Option.bind_eq_bind, Option.bind_some, hentries]
            rfl

/-! ### The listing -/

/-- The lines from one of the siblings on. -/
theorem listNode_chain {h : List TreeNode} {f : ℕ → List Text} {k : ℕ} {p : Ptr} {l : List ℕ}
    (hl : Chain TreeNode.nextSibling h p l)
    (hf : ∀ a ∈ l, ∀ n, h[a]? = some n → ∀ fuel, k ≤ fuel → listNode h fuel n.firstSon = some (f a))
    {fuel : ℕ} (hfuel : k + l.length < fuel) :
    listNode h fuel p = some (l.flatMap fun a => (label h a).1 :: f a) := by
  induction hl generalizing fuel with
  | null =>
      cases fuel with
      | zero => exact absurd hfuel (Nat.not_lt_zero _)
      | succ fuel => rfl
  | cell hc hl ih =>
      rename_i a c l
      cases fuel with
      | zero => exact absurd hfuel (Nat.not_lt_zero _)
      | succ fuel =>
          rw [List.length_cons] at hfuel
          have hrest : listNode h fuel c.nextSibling =
              some (l.flatMap fun a => (label h a).1 :: f a) :=
            ih (fun b hb => hf b (List.mem_cons_of_mem _ hb)) (by omega)
          have hsons := hf a (List.mem_cons_self ..) c hc fuel (by omega)
          rw [listNode]
          simp only [hc, Option.bind_eq_bind, Option.bind_some, hsons, hrest, List.flatMap_cons,
            label_of_some hc]
          rfl

/-- The sons of the entries have no sons. -/
theorem Built.sons_son {s : State} (hs : Built s) {a b : ℕ} (ha : a ∈ sons s.nodes 0)
    (hb : b ∈ sons s.nodes a) : sons s.nodes b = [] := by
  obtain ⟨n, hn, hnparent⟩ := mem_sons.1 ha
  obtain ⟨m, hm, hmparent⟩ := mem_sons.1 hb
  have hpos : 0 < a := hs.tidy.parent_lt a n 0 hn hnparent
  have hlt : a < b := hs.tidy.parent_lt b m a hm hmparent
  refine List.eq_nil_iff_forall_not_mem.2 ?_
  intro c hc
  obtain ⟨x, hx, hxparent⟩ := mem_sons.1 hc
  obtain ⟨m', hm', hmparent'⟩ := mem_sons.1 (hs.flat c x b hx hxparent (by omega)).1
  obtain rfl := Option.some_inj.1 (hm.symm.trans hm')
  have := Option.some_inj.1 (hmparent.symm.trans hmparent')
  omega

/-- **`list_node` ends**, and prints the tree without pointers. -/
theorem Built.fileTreeList_eq {s : State} (hs : Built s) {fuel : ℕ}
    (hfuel : 2 * s.nodes.length + 3 < fuel) :
    fileTreeList s fuel = some (printed (entries s.nodes)) := by
  obtain ⟨r, hr, -, hnext⟩ := hs.tidy.root
  have hlen : ∀ a n, s.nodes[a]? = some n → (sons s.nodes a).length ≤ s.nodes.length :=
    fun a n hn => (hs.tidy.chain a n hn).length_le
  -- the lines of the sons of an entry
  have hsons : ∀ a ∈ sons s.nodes 0, ∀ n, s.nodes[a]? = some n → ∀ fuel, s.nodes.length + 2 ≤ fuel →
      listNode s.nodes fuel n.firstSon = some ((sons s.nodes a).map fun b => (label s.nodes b).1) := by
    intro a ha n hn fuel hfuel
    have hle := hlen a n hn
    rw [listNode_chain (f := fun _ => []) (k := 1) (hs.tidy.chain a n hn) ?_ (by omega)]
    · rw [List.map_eq_flatMap]
    · intro b hb m hm fuel hfuel
      have hchain := hs.tidy.chain b m hm
      rw [hs.sons_son ha hb] at hchain
      rw [Chain.nil_iff.1 hchain]
      cases fuel with
      | zero => exact absurd hfuel (by omega)
      | succ fuel => rfl
  cases fuel with
  | zero => exact absurd hfuel (Nat.not_lt_zero _)
  | succ fuel =>
      have hle := hlen 0 r hr
      have hroot : listNode s.nodes fuel r.firstSon = some ((sons s.nodes 0).flatMap fun a =>
          (label s.nodes a).1 :: (sons s.nodes a).map fun b => (label s.nodes b).1) :=
        listNode_chain (hs.tidy.chain 0 r hr) hsons (by omega)
      have hvalue : r.value = ['/'] := by
        have hlabel := hs.label_root
        rw [label_of_some hr] at hlabel
        exact congrArg Prod.fst hlabel
      have hnull : listNode s.nodes fuel none = some [] := by
        cases fuel with
        | zero => exact absurd hfuel (by omega)
        | succ fuel => rfl
      rw [fileTreeList, hs.root, listNode]
      simp only [hr, Option.bind_eq_bind, Option.bind_some, hroot, hnext, hnull, hvalue,
        List.append_nil]
      simp [printed, entries, entry, List.flatMap_map, List.map_map, Function.comp_def]

/-- **What the server answers and prints** after any history of insertions is what the tree without
pointers says, and it follows a null pointer exactly when that tree has no answer. -/
theorem inserts_listing (statFails : Text → Bool) (absDir : Text) (es : List (Path × Bool)) :
    (inserts statFails es (initFiletree absDir)).map
        (fun q => (q.1, fileTreeList q.2 (2 * q.2.nodes.length + 4))) =
      (insertEntries es []).map fun q => (q.1, some (printed q.2)) := by
  have hempty : entries (initFiletree absDir).nodes = [] := rfl
  rcases (built_initFiletree absDir).inserts_eq statFails es with
    ⟨hinserts, hentries⟩ | ⟨rs, s, hinserts, hs, hentries⟩
  · rw [hempty] at hentries
    rw [hinserts, hentries]
    rfl
  · rw [hempty] at hentries
    rw [hinserts, hentries, Option.map_some, Option.map_some, hs.fileTreeList_eq (Nat.lt_succ_self _)]

/-! ### Every path once -/

/-- The paths of the entries and of their sons. -/
def paths (entries : List Entry) : List Text :=
  entries.flatMap fun e => e.path :: e.sons.map Prod.fst

theorem paths_append_singleton (entries : List Entry) (path : Text) (isFile : Bool) :
    (paths (entries ++ [⟨path, isFile, []⟩])).Perm (path :: paths entries) := by
  rw [paths, List.flatMap_append]
  exact List.perm_append_singleton path _

theorem paths_addSon {name : Text} {son : Text × Bool} {entries : List Entry} {e : Entry}
    (hfind : (entries.find? fun e => decide (e.path = name)) = some e) :
    (paths (addSon name son entries)).Perm (son.1 :: paths entries) := by
  induction entries with
  | nil => cases hfind
  | cons d entries ih =>
      rw [addSon]
      by_cases hname : d.path = name
      · rw [if_pos hname, paths, paths, List.flatMap_cons, List.flatMap_cons, List.map_append,
          ← List.cons_append, List.append_assoc]
        exact List.perm_middle
      · rw [List.find?_cons_of_neg (by simpa using hname)] at hfind
        rw [if_neg hname, paths, paths, List.flatMap_cons, List.flatMap_cons]
        exact ((ih hfind).append_left _).trans List.perm_middle

/-- An insertion adds its path, or nothing. -/
theorem paths_insertEntry {entries entries' : List Entry} {p : Path} {isFile r : Bool}
    (h : insertEntry entries p isFile = some (r, entries')) :
    (paths entries').Perm (if r then p.text :: paths entries else paths entries) := by
  have hanswer : ∀ {found : Bool} {new : List Entry}, (paths new).Perm (p.text :: paths entries) →
      (if found then (false, entries) else (true, new)) = (r, entries') →
      (paths entries').Perm (if r then p.text :: paths entries else paths entries) := by
    intro found new hnew heq
    cases found with
    | true =>
        cases heq
        exact List.Perm.refl _
    | false =>
        cases heq
        exact hnew
  unfold insertEntry at h
  split at h
  · obtain ⟨e, -, heq⟩ := Option.map_eq_some_iff.1 h
    exact hanswer (paths_append_singleton entries p.text isFile) heq
  · split at h
    · cases h
      exact paths_append_singleton entries p.text isFile
    · rename_i hfind
      split at h
      · obtain ⟨son, -, heq⟩ := Option.map_eq_some_iff.1 h
        exact hanswer (paths_addSon hfind) heq
      · cases h
        exact paths_addSon hfind

/-- The paths of the insertions that succeeded. -/
def succeeded : List (Path × Bool) → List Bool → List Text
  | (p, _) :: es, r :: rs => if r then p.text :: succeeded es rs else succeeded es rs
  | _, _ => []

theorem paths_insertEntries {es : List (Path × Bool)} {entries entries' : List Entry} {rs : List Bool}
    (h : insertEntries es entries = some (rs, entries')) :
    (paths entries').Perm (succeeded es rs ++ paths entries) := by
  induction es generalizing entries rs with
  | nil =>
      cases h
      exact List.Perm.refl _
  | cons e es ih =>
      obtain ⟨p, isFile⟩ := e
      simp only [insertEntries, Option.bind_eq_bind, Option.bind_eq_some_iff] at h
      obtain ⟨⟨r, entries₁⟩, hentry, ⟨rs', entries₂⟩, hrest, heq⟩ := h
      cases heq
      refine (ih hrest).trans (((paths_insertEntry hentry).append_left _).trans ?_)
      cases r with
      | true => exact List.perm_middle
      | false => exact List.Perm.refl _

/-- **Every path that was inserted is printed once**, and nothing else but the root: if no null pointer
was followed, `list_node` ends, whatever was inserted how often. -/
theorem listed_once {statFails : Text → Bool} {absDir : Text} {es : List (Path × Bool)}
    {rs : List Bool} {s : State} (h : inserts statFails es (initFiletree absDir) = some (rs, s))
    {fuel : ℕ} (hfuel : 2 * s.nodes.length + 3 < fuel) :
    ∃ lines, fileTreeList s fuel = some (['/'] :: lines) ∧ lines.Perm (succeeded es rs) := by
  rcases (built_initFiletree absDir).inserts_eq statFails es with
    ⟨hinserts, -⟩ | ⟨rs', s', hinserts, hs, hentries⟩
  · rw [h] at hinserts
    cases hinserts
  · rw [h] at hinserts
    cases hinserts
    refine ⟨_, hs.fileTreeList_eq hfuel, ?_⟩
    have hperm := paths_insertEntries hentries
    rwa [show paths (entries (initFiletree absDir).nodes) = [] from rfl, List.append_nil] at hperm

/-- The path `x/y/z`. -/
def xyz : Path := ⟨[['x'], ['y'], ['z']], by decide, by decide, by decide⟩

/-- The paths `a/b`, `x` and `x/y/z`, of which the last is a son of the second. -/
theorem listed_once_threePaths :
    ∃ rs s, inserts (fun _ => true) [(ab, false), (Path.single, true), (xyz, true)] (initFiletree []) =
        some (rs, s) ∧
      ∃ lines, fileTreeList s 12 = some (['/'] :: lines) ∧
        lines.Perm (succeeded [(ab, false), (Path.single, true), (xyz, true)] rs) := by
  have h := (Option.some_get (show (inserts (fun _ => true)
    [(ab, false), (Path.single, true), (xyz, true)] (initFiletree [])).isSome = true from rfl)).symm
  exact ⟨_, _, h, listed_once h (by decide)⟩

/-- The path `x/z` behind `x`: the server follows the null pointer to the first son of `x`. -/
example :
    insertEntries [(ab, false), (Path.single, true),
      (⟨[['x'], ['z']], by decide, by decide, by decide⟩, true)] [] = none := by
  decide

end NameTree
