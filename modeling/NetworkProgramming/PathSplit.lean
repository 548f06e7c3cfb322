/-
**BigFileSystem: `path_split` in memory.**

`path_split` copies the components of a path into an array of 256 rows.  A row is closed when a
delimiter comes; at the end of the path the pointer to the row that is still open is replaced by
`NULL`.

A write outside of the rows fails.  `pathSplit` of `NameTree` is the same function without the array;
here the sizes are those of the source.

Main definitions:

* `NameTree.Rows`, `NameTree.pathSplitRows` — the array `op`, and `path_split`;
* `NameTree.SplitsInto` — the entries of an array up to the first null pointer;
* `NameTree.Components` — a list of components that can be joined to a path.

Main results:

* `NameTree.run_splitStep` — where the loop is at the end of a path;
* `NameTree.pathSplitRows_pathSplit` — the array and the model of `NameTree` agree;
* `NameTree.not_splitsInto` — **the last component is always lost**.
-/

import NetworkProgramming.NameTree
import NetworkProgramming.Runs

set_option relaxedAutoImplicit false
set_option autoImplicit false

namespace NameTree

open CString Runs

/-! ### The array -/

/-- `sizeof(msg_tok)`. -/
def sizeofMsgTok : ℕ := 1024

/-- The number of rows that `path_split` allocates. -/
def rowCount : ℕ := 256

/-- The array `op`; `none` is a null pointer. -/
abbrev Rows := List (Option Text)

/-- A row that holds a component, with zeros behind it. -/
def row (c : Text) : Text := c ++ List.replicate (sizeofMsgTok - c.length) '\x00'

/-- The array after the loop of the `calloc`s. -/
def initRows : Rows :=
  List.replicate rowCount (some (row [])) ++ List.replicate (sizeofMsgTok - rowCount) none

/-- `op[j][k] = c`. -/
def setChar (op : Rows) (j k : ℕ) (c : Char) : Option Rows := do
  let entry ← op[j]?
  let cells ← entry
  let cells ← put cells k c
  return op.set j (some cells)

/-- The variables of the loop. -/
structure Splitting where
  op : Rows
  j : ℕ
  k : ℕ

/-- One pass of the loop. -/
def splitStep (delim : Char) (s : Splitting) (c : Char) : Option Splitting :=
  if c = delim then (setChar s.op s.j s.k '\x00').map fun op => ⟨op, s.j + 1, 0⟩
  else (setChar s.op s.j s.k c).map fun op => ⟨op, s.j, s.k + 1⟩

/-- **`path_split`.** -/
def pathSplitRows (delim : Char) (path : Text) : Option Rows := do
  let s ← run (splitStep delim) ⟨initRows, 0, 0⟩ (cstr path)
  if s.j < s.op.length then return s.op.set s.j none else none

/-- The array holds these strings and then a null pointer. -/
def SplitsInto (op : Rows) (comps : List Text) : Prop :=
  ∃ (cells : List Text) (rest : Rows), op = cells.map some ++ none :: rest ∧ cells.map cstr = comps

/-- A non-empty list of components that can be joined with the delimiter and fit into the array. -/
structure Components (delim : Char) where
  comps : List Text
  ne_nil : comps ≠ []
  no_delim : ∀ c ∈ comps, delim ∉ c
  no_nul : ∀ c ∈ comps, '\x00' ∉ c
  few : comps.length < rowCount
  short : ∀ c ∈ comps, c.length < sizeofMsgTok

/-- The components joined with the delimiter. -/
def Components.joined {delim : Char} (p : Components delim) : Text := [delim].intercalate p.comps

/-! ### The loop -/

/-- The loop when the rows of `closed` are closed and `cur` is being copied. -/
def filled (closed : List Text) (cur : Text) : Splitting where
  op := closed.map (fun c => some (row c)) ++ some (row cur) ::
    (List.replicate (rowCount - 1 - closed.length) (some (row [])) ++
      List.replicate (sizeofMsgTok - rowCount) none)
  j := closed.length
  k := cur.length

theorem filled_nil : filled [] [] = ⟨initRows, 0, 0⟩ := rfl

/-- A write behind the part of the current row that is filled already. -/
theorem setChar_filled (closed : List Text) {cur : Text} (hcur : cur.length < sizeofMsgTok)
    (c : Char) : setChar (filled closed cur).op closed.length cur.length c =
      some (closed.map (fun c => some (row c)) ++
        some (cur ++ c :: List.replicate (sizeofMsgTok - (cur.length + 1)) '\x00') ::
          (List.replicate (rowCount - 1 - closed.length) (some (row [])) ++
            List.replicate (sizeofMsgTok - rowCount) none)) := by
  obtain ⟨n, hn⟩ : ∃ n, sizeofMsgTok - cur.length = n + 1 :=
    ⟨sizeofMsgTok - cur.length - 1, by omega⟩
  have hrow : row cur = cur ++ '\x00' :: List.replicate n '\x00' := by
    rw [row, hn, List.replicate_succ]
  have hn' : sizeofMsgTok - (cur.length + 1) = n := by omega
  have hentry : (filled closed cur).op[closed.length]? = some (some (row cur)) := by
    simp [filled]
  rw [setChar, hentry, Option.bind_eq_bind, Option.bind_some, Option.bind_eq_bind, Option.bind_some,
    hrow, put_append, hn']
  simp [filled]

/-- A character that is not the delimiter. -/
theorem splitStep_char {delim c : Char} (hc : c ≠ delim) (closed : List Text) {cur : Text}
    (hcur : cur.length < sizeofMsgTok) :
    splitStep delim (filled closed cur) c = some (filled closed (cur ++ [c])) := by
  have hset := setChar_filled closed hcur c
  rw [splitStep, if_neg hc]
  simp only [filled] at hset ⊢
  rw [hset]
  simp [row]

/-- The delimiter closes the row. -/
theorem splitStep_delim (delim : Char) {closed : List Text} {cur : Text}
    (hclosed : closed.length + 1 < rowCount) (hcur : cur.length < sizeofMsgTok) :
    splitStep delim (filled closed cur) delim = some (filled (closed ++ [cur]) []) := by
  have hset := setChar_filled closed hcur '\x00'
  obtain ⟨n, hn⟩ : ∃ n, rowCount - 1 - closed.length = n + 1 :=
    ⟨rowCount - 1 - closed.length - 1, by omega⟩
  have hn' : rowCount - 1 - (closed.length + 1) = n := by omega
  have hrow :
      cur ++ '\x00' :: List.replicate (sizeofMsgTok - (cur.length + 1)) '\x00' = row cur := by
    rw [row, ← List.replicate_succ]
    congr 2
    omega
  rw [splitStep, if_pos rfl]
  simp only [filled, List.length_append, List.length_singleton, hn', hn] at hset ⊢
  rw [hset, hrow]
  simp [List.replicate_succ]

/-- A component is copied behind what the row holds already. -/
theorem run_component {delim : Char} {c : Text} (hc : delim ∉ c) (closed : List Text) (cur : Text)
    (hlen : (cur ++ c).length < sizeofMsgTok) :
    run (splitStep delim) (filled closed cur) c = some (filled closed (cur ++ c)) := by
  induction c generalizing cur with
  | nil => simp
  | cons x c ih =>
      have hx : x ≠ delim := fun hx => hc (by simp [hx])
      have hlen' : (cur ++ [x] ++ c).length < sizeofMsgTok := by simpa using hlen
      refine run_cons_eq_some.2 ⟨_, splitStep_char hx closed ?_, ?_⟩
      · simp only [List.length_append] at hlen
        omega
      · simpa using ih (fun hmem => hc (by simp [hmem])) (cur ++ [x]) hlen'

/-- **Where the loop is at the end of a path**: the last component is still open. -/
theorem run_splitStep {delim : Char} (closed : List Text) {c : Text} {comps : List Text}
    (hdelim : ∀ x ∈ c :: comps, delim ∉ x) (hshort : ∀ x ∈ c :: comps, x.length < sizeofMsgTok)
    (hfew : (closed ++ comps).length + 1 < rowCount) :
    ∃ cur, run (splitStep delim) (filled closed []) ([delim].intercalate (c :: comps)) =
      some (filled (closed ++ (c :: comps).dropLast) cur) := by
  induction comps generalizing closed c with
  | nil =>
      refine ⟨c, ?_⟩
      simpa using run_component (hdelim c (by simp)) closed [] (by simpa using hshort c)
  | cons d comps ih =>
      have hc := List.forall_mem_cons.1 hdelim
      have hlen := List.forall_mem_cons.1 hshort
      simp only [List.length_append, List.length_cons] at hfew
      have hcopy := run_component hc.1 closed [] (by simpa using hlen.1)
      have hclose : run (splitStep delim) (filled closed ([] ++ c)) [delim] =
          some (filled (closed ++ [c]) []) :=
        run_cons_eq_some.2 ⟨_, splitStep_delim delim (by omega) (by simpa using hlen.1), rfl⟩
      obtain ⟨cur, hrest⟩ := ih (closed ++ [c]) hc.2 hlen.2 (by simp; omega)
      refine ⟨cur, ?_⟩
      rw [List.intercalate_cons_cons]
      simpa using run_append (run_append hcopy hclose) hrest

/-! ### The entries of the array -/

/-- The entries of an array up to the first null pointer are determined. -/
theorem SplitsInto.unique {op : Rows} {comps comps' : List Text} (h : SplitsInto op comps)
    (h' : SplitsInto op comps') : comps = comps' := by
  obtain ⟨cells, rest, rfl, rfl⟩ := h
  obtain ⟨cells', rest', heq, rfl⟩ := h'
  refine congrArg (List.map cstr) ?_
  induction cells generalizing cells' with
  | nil =>
      cases cells' with
      | nil => rfl
      | cons c cells' => simp at heq
  | cons c cells ih =>
      cases cells' with
      | nil => simp at heq
      | cons c' cells' =>
          simp only [List.map_cons, List.cons_append, List.cons.injEq, Option.some_inj] at heq
          rw [heq.1, ih cells' heq.2]

theorem cstr_row {c : Text} (hnul : '\x00' ∉ c) : cstr (row c) = c := by
  rw [row, cstr_append hnul]
  cases sizeofMsgTok - c.length with
  | zero => exact List.append_nil c
  | succ n => exact List.append_nil c

/-- At the end of the path the row that is still open is lost. -/
theorem splitsInto_filled (closed : List Text) (hnul : ∀ c ∈ closed, '\x00' ∉ c) (cur : Text) :
    (filled closed cur).j < (filled closed cur).op.length ∧
      SplitsInto ((filled closed cur).op.set (filled closed cur).j none) closed := by
  refine ⟨by simp [filled], closed.map row, List.replicate (rowCount - 1 - closed.length)
    (some (row [])) ++ List.replicate (sizeofMsgTok - rowCount) none, by simp [filled], ?_⟩
  have hrows : ∀ c ∈ closed, (cstr ∘ row) c = c := fun c hc => cstr_row (hnul c hc)
  rw [List.map_map, List.map_congr_left hrows, List.map_id']

/-- The last component of a path is lost. -/
theorem splitsInto_dropLast {delim : Char} (p : Components delim) {path : Text}
    (hpath : cstr path = p.joined) :
    ∃ op, pathSplitRows delim path = some op ∧ SplitsInto op p.comps.dropLast := by
  obtain ⟨comps, hne, hdelim, hnul, hfew, hshort⟩ := p
  obtain ⟨c, comps, rfl⟩ := List.exists_cons_of_ne_nil hne
  obtain ⟨cur, hrun⟩ := run_splitStep [] hdelim hshort (by simpa using hfew)
  have hsplit := splitsInto_filled (c :: comps).dropLast
    (fun x hx => hnul x (List.dropLast_subset _ hx)) cur
  rw [List.nil_append, filled_nil] at hrun
  refine ⟨_, ?_, hsplit.2⟩
  rw [pathSplitRows, hpath, Components.joined, hrun, Option.bind_eq_bind, Option.bind_some,
    if_pos hsplit.1]
  rfl

theorem nul_notMem_intercalate {delim : Char} (hdelim : delim ≠ '\x00') {comps : List Text}
    (hnul : ∀ c ∈ comps, '\x00' ∉ c) : '\x00' ∉ [delim].intercalate comps := by
  induction comps with
  | nil => simp
  | cons c comps ih =>
      have hc := List.forall_mem_cons.1 hnul
      cases comps with
      | nil => simpa using hc.1
      | cons d comps =>
          rw [List.intercalate_cons_cons]
          simp [hc.1, hdelim.symm, ih hc.2]

/-- A path without a zero in it is read to its end. -/
theorem cstr_joined {delim : Char} (p : Components delim) (hdelim : delim ≠ '\x00') :
    cstr p.joined = p.joined :=
  cstr_eq_self (nul_notMem_intercalate hdelim p.no_nul)

/-- **The array and the model without it agree.** -/
theorem pathSplitRows_pathSplit (p : Components '/') :
    ∃ op, pathSplitRows '/' p.joined = some op ∧ SplitsInto op (pathSplit '/' [] p.joined) := by
  obtain ⟨c, comps, hcomps⟩ := List.exists_cons_of_ne_nil p.ne_nil
  have hdelim := p.no_delim
  rw [hcomps] at hdelim
  have hmodel : pathSplit '/' [] p.joined = p.comps.dropLast := by
    rw [Components.joined, hcomps]
    exact pathSplit_intercalate (hdelim c (by simp)) fun x hx => hdelim x (by simp [hx])
  rw [hmodel]
  exact splitsInto_dropLast p (cstr_joined p (by decide))

/-- The first component alone. -/
def Components.first {delim : Char} (p : Components delim) : Components delim where
  comps := [p.comps.head p.ne_nil]
  ne_nil := by simp
  no_delim := by simpa using p.no_delim _ (List.head_mem p.ne_nil)
  no_nul := by simpa using p.no_nul _ (List.head_mem p.ne_nil)
  few := by simp [rowCount]
  short := by simpa using p.short _ (List.head_mem p.ne_nil)

/-- If the delimiter is zero, the path ends behind its first component. -/
theorem cstr_joined_of_nul (p : Components '\x00') : cstr p.joined = p.first.joined := by
  obtain ⟨comps, hne, -, hnul, -, -⟩ := p
  obtain ⟨c, comps, rfl⟩ := List.exists_cons_of_ne_nil hne
  have hc : '\x00' ∉ c := hnul c (by simp)
  cases comps with
  | nil => simpa [Components.joined, Components.first] using cstr_eq_self hc
  | cons d comps =>
      simpa [Components.joined, Components.first, List.intercalate_cons_cons] using
        cstr_append_nul hc ([Char.ofNat 0].intercalate (d :: comps))

/-- **`path_split` loses the last component of every path.**  It returns the other components, never
all of them; with a zero for delimiter, which ends the string, it returns none. -/
theorem not_splitsInto (delim : Char) (p : Components delim) :
    ∃ op, pathSplitRows delim p.joined = some op ∧ ¬ SplitsInto op p.comps ∧
      SplitsInto op (if delim = '\x00' then [] else p.comps.dropLast) := by
  have hlost : ∀ op comps, SplitsInto op comps → comps.length < p.comps.length →
      ¬ SplitsInto op p.comps := by
    intro op comps hsplit hlt hall
    rw [hsplit.unique hall] at hlt
    exact lt_irrefl _ hlt
  have hpos := List.length_pos_iff.2 p.ne_nil
  by_cases hdelim : delim = '\x00'
  · subst hdelim
    obtain ⟨op, hop, hsplit⟩ := splitsInto_dropLast p.first (cstr_joined_of_nul p)
    exact ⟨op, hop, hlost op _ hsplit hpos, by rwa [if_pos rfl]⟩
  · obtain ⟨op, hop, hsplit⟩ := splitsInto_dropLast p (cstr_joined p hdelim)
    refine ⟨op, hop, hlost op _ hsplit ?_, by rwa [if_neg hdelim]⟩
    rw [List.length_dropLast]
    omega

/-- The two components of `x/y`. -/
def twoComponents : Components '/' where
  comps := [['x'], ['y']]
  ne_nil := by decide
  no_delim := by decide
  no_nul := by decide
  few := by decide
  short := by decide

/-- `x/y` is split into `x` alone. -/
theorem not_splitsInto_twoComponents :
    twoComponents.joined = ['x', '/', 'y'] ∧
      ¬ ∃ op, pathSplitRows '/' twoComponents.joined = some op ∧
        SplitsInto op twoComponents.comps := by
  refine ⟨by decide, ?_⟩
  rintro ⟨op, hop, hall⟩
  obtain ⟨op', hop', hsplit⟩ := splitsInto_dropLast twoComponents (cstr_joined _ (by decide))
  obtain rfl := Option.some_inj.1 (hop.symm.trans hop')
  exact absurd (hsplit.unique hall) (by decide)

end NameTree
