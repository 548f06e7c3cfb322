/-
**BigFileSystem: the tree of names.**

The file name server keeps the names of the files in a tree, in which a node points to its first son
and to its next sibling.  `find_node` goes down the tree component by component, and `insert_node`
attaches a node where `find_node` came to its end.

Two things differ from a set of paths.  `path_split` loses the last component of a path, and
`find_node` looks in the end at the first son of the node that it has found.

A history begins with `init_filetree`, although no `main` calls it.  The strings are unbounded, also
the value of a node, which `init_treenode` copies to a pointer that it has not set.  The file system
behind `stat` is a parameter.

Main definitions:

* `NameTree.pathSplit`, `NameTree.findNode`, `NameTree.insertNode` — the functions of the server;
* `NameTree.Path` — a path of non-empty components;
* `NameTree.AnswersRight`, `NameTree.BehavesAsSet` — what a set of paths would answer;
* `NameTree.WellFormed` — the sons of every node are a chain.

Main results:

* `NameTree.findNode_congr` — the last component of a path does not matter;
* `NameTree.wellFormed_inserts` — the loops over the siblings end;
* `NameTree.not_behavesAsSet` — **no history of insertions is answered as by a set of paths**.
-/

import NetworkProgramming.Cells
import NetworkProgramming.CString

set_option relaxedAutoImplicit false
set_option autoImplicit false

namespace NameTree

open Cells CString

/-! ### The tree -/

/-- A node of the tree. -/
structure TreeNode where
  value : Text
  isFile : Bool
  parent : Ptr
  firstSon : Ptr
  nextSibling : Ptr
  deriving DecidableEq, Repr

/-- The nodes, the root, the buffer `ABS_DIR` and the directories that were made. -/
structure State where
  nodes : List TreeNode
  root : Ptr
  absDir : Text
  made : List Text
  deriving DecidableEq, Repr

/-- `init_treenode`, with a value that has room. -/
def initTreenode (h : List TreeNode) (val : Text) (isFile : Bool) : List TreeNode × Ptr :=
  alloc h
    { value := val
      isFile := isFile
      parent := none
      firstSon := none
      nextSibling := none }

/-- `init_filetree`. -/
def initFiletree (absDir : Text) : State :=
  { nodes := (initTreenode [] ['/'] false).1
    root := (initTreenode [] ['/'] false).2
    absDir := absDir
    made := [] }

/-- The loop of `path_split`: `cur` is the component that is being copied.  At the end of the path
it is replaced by `NULL`. -/
def pathSplit (delim : Char) : Text → Text → List Text
  | _, [] => []
  | cur, c :: path =>
      if c = delim then cur :: pathSplit delim [] path else pathSplit delim (cur ++ [c]) path

/-- The loop of `find_node`: the answer and `last_node`, unless a null pointer is followed. -/
def findLoop (h : List TreeNode) : List Text → Ptr → Ptr → Option (Bool × Ptr)
  | [], node, last => do
      let n ← load h node
      return (n.isFile, last)
  | name :: dirs, node, last =>
      match walk TreeNode.nextSibling (fun n => decide (n.value = name)) h (h.length + 1) node with
      | none => some (false, last)
      | some a => do
          let n ← load h (some a)
          findLoop h dirs n.firstSon (some a)

/-- `find_node`. -/
def findNode (s : State) (path : Text) : Option (Bool × Ptr) := do
  let root ← load s.nodes s.root
  findLoop s.nodes (pathSplit '/' [] path) root.firstSon s.root

/-- The new node becomes the last son of its parent. -/
def attach (h : List TreeNode) (parent node : Ptr) : Option (List TreeNode) := do
  let p ← load h parent
  match p.firstSon with
  | none => store h parent fun n => { n with firstSon := node }
  | some _ =>
      store h
        (walk TreeNode.nextSibling (fun n => decide (n.nextSibling = none)) h (h.length + 1)
          p.firstSon)
        fun n => { n with nextSibling := node }

/-- The last lines of `insert_node`: every `strcat` makes `ABS_DIR` longer. -/
def makeDir (statFails : Text → Bool) (s : State) (path : Text) (isFile : Bool) : State :=
  if isFile then s
  else if statFails (s.absDir ++ path) then
    { s with
      absDir := s.absDir ++ path ++ path
      made := s.made ++ [s.absDir ++ path ++ path] }
  else { s with absDir := s.absDir ++ path }

/-- **`insert_node`.** -/
def insertNode (statFails : Text → Bool) (s : State) (path : Text) (isFile : Bool) :
    Option (Bool × State) := do
  let (isFound, parent) ← findNode s path
  if isFound then return (false, s)
  else
    let (h, newNode) := initTreenode s.nodes path isFile
    let h ← store h newNode fun n => { n with parent := parent }
    let h ← attach h parent newNode
    return (true, makeDir statFails { s with nodes := h } path isFile)

/-! ### Paths and histories -/

/-- A path of non-empty components. -/
structure Path where
  comps : List Text
  ne_nil : comps ≠ []
  ne_empty : ∀ c ∈ comps, c ≠ []
  no_slash : ∀ c ∈ comps, '/' ∉ c
  deriving DecidableEq

/-- The string of a path. -/
def Path.text (p : Path) : Text := ['/'].intercalate p.comps

/-- The answer of `find_node`, unless it follows a null pointer. -/
def answer (s : State) (p : Path) : Option Bool := (findNode s p.text).map Prod.fst

/-- A history of insertions: what they return, and the tree behind them. -/
def inserts (statFails : Text → Bool) : List (Path × Bool) → State → Option (List Bool × State)
  | [], s => some ([], s)
  | (p, isFile) :: es, s => do
      let (r, s) ← insertNode statFails s p.text isFile
      let (rs, s) ← inserts statFails es s
      return (r :: rs, s)

/-- The insertions into a set of paths, in which `before` were inserted already: an insertion
succeeds when its path is not there. -/
def specReturns : List Path → List (Path × Bool) → List Bool
  | _, [] => []
  | before, (p, _) :: es => decide (p ∉ before) :: specReturns (p :: before) es

/-- The path was inserted as a file. -/
def specFile (es : List (Path × Bool)) (p : Path) : Bool :=
  match es.find? fun e => decide (e.1 = p) with
  | none => false
  | some e => e.2

/-- The insertions return what a set of paths would return, and in the end `find_node` answers for
every path as the set would. -/
def AnswersRight (statFails : Text → Bool) (absDir : Text) (es : List (Path × Bool)) : Prop :=
  ∃ s, inserts statFails es (initFiletree absDir) = some (specReturns [] es, s) ∧
    ∀ p, answer s p = some (specFile es p)

/-- An insertion leaves the answers for all other paths. -/
def Frames (statFails : Text → Bool) (absDir : Text) (es : List (Path × Bool)) : Prop :=
  ∀ es₁ p isFile es₂, es = es₁ ++ (p, isFile) :: es₂ →
    ∀ rs s, inserts statFails es₁ (initFiletree absDir) = some (rs, s) →
      ∀ r s', insertNode statFails s p.text isFile = some (r, s') →
        ∀ q ≠ p, answer s' q = answer s q

/-- **The tree behaves as a set of paths** in a history of insertions. -/
def BehavesAsSet (statFails : Text → Bool) (absDir : Text) (es : List (Path × Bool)) : Prop :=
  AnswersRight statFails absDir es ∧ Frames statFails absDir es

/-! ### The last component -/

theorem pathSplit_append (cur : Text) {c : Text} (hc : '/' ∉ c) (rest : Text) :
    pathSplit '/' cur (c ++ rest) = pathSplit '/' (cur ++ c) rest := by
  induction c generalizing cur with
  | nil => simp
  | cons x c ih =>
      have hx : x ≠ '/' := fun hx => hc (by simp [hx])
      rw [List.cons_append, pathSplit, if_neg hx, ih _ fun h => hc (by simp [h])]
      simp

theorem pathSplit_intercalate {c : Text} {comps : List Text} (hc : '/' ∉ c)
    (hcomps : ∀ c ∈ comps, '/' ∉ c) :
    pathSplit '/' [] (['/'].intercalate (c :: comps)) = (c :: comps).dropLast := by
  induction comps generalizing c with
  | nil =>
      have hnil := pathSplit_append [] hc []
      simpa [pathSplit] using hnil
  | cons d comps ih =>
      rw [List.intercalate_cons_cons, List.append_assoc, pathSplit_append [] hc, List.nil_append,
        List.singleton_append, pathSplit, if_pos rfl, ih (hcomps d (by simp)) fun x hx => hcomps x (by simp [hx])]
      rfl

/-- **`path_split` loses the last component.** -/
theorem pathSplit_text (p : Path) : pathSplit '/' [] p.text = p.comps.dropLast := by
  obtain ⟨comps, hne, -, hslash⟩ := p
  cases comps with
  | nil => cases hne rfl
  | cons c comps =>
      exact pathSplit_intercalate (hslash c (by simp)) fun x hx => hslash x (by simp [hx])

/-- **The last component of a path does not matter** to `find_node`. -/
theorem findNode_congr (s : State) {p q : Path} (h : p.comps.dropLast = q.comps.dropLast) :
    findNode s p.text = findNode s q.text := by
  simp only [findNode, pathSplit_text, h]

/-- The path with another last component. -/
def Path.rename (p : Path) (n : ℕ) : Path where
  comps := p.comps.dropLast ++ [List.replicate (n + 1) 'x']
  ne_nil := by simp
  ne_empty := by
    intro c hc
    rcases List.mem_append.1 hc with hc | hc
    · exact p.ne_empty c (List.dropLast_subset _ hc)
    · rw [List.mem_singleton.1 hc]
      simp
  no_slash := by
    intro c hc
    rcases List.mem_append.1 hc with hc | hc
    · exact p.no_slash c (List.dropLast_subset _ hc)
    · rw [List.mem_singleton.1 hc]
      intro hmem
      exact absurd (List.eq_of_mem_replicate hmem) (by decide)

/-- Some path with another last component is not among finitely many. -/
theorem exists_rename (p : Path) (es : List (Path × Bool)) :
    ∃ n, ∀ m, n ≤ m → ∀ e ∈ es, e.1 ≠ p.rename m := by
  induction es with
  | nil => exact ⟨0, by simp⟩
  | cons e es ih =>
      obtain ⟨n, hn⟩ := ih
      refine ⟨max n e.1.comps.flatten.length, ?_⟩
      intro m hm x hx
      rcases List.mem_cons.1 hx with rfl | hx
      · intro heq
        rw [heq] at hm
        simp [Path.rename] at hm
        omega
      · exact hn m (by omega) x hx

/-- **A set of paths with a file in it is not answered for**: `find_node` cannot tell the file from
the other paths with the same directory. -/
theorem specFile_of_answersRight {statFails : Text → Bool} {absDir : Text}
    {es : List (Path × Bool)} (h : AnswersRight statFails absDir es) (p : Path) :
    specFile es p = false := by
  obtain ⟨s, -, hanswer⟩ := h
  obtain ⟨n, hn⟩ := exists_rename p es
  have hcongr : answer s p = answer s (p.rename n) := by
    rw [answer, answer, findNode_congr s (show p.comps.dropLast = (p.rename n).comps.dropLast by
      simp [Path.rename])]
  have hfresh : es.find? (fun e => decide (e.1 = p.rename n)) = none := by
    refine List.find?_eq_none.2 fun e he => ?_
    simpa using hn n (Nat.le_refl n) e he
  rw [hanswer, hanswer, Option.some_inj] at hcongr
  rw [hcongr, specFile, hfresh]

/-! ### The first insertion -/

@[simp] theorem makeDir_nodes (statFails : Text → Bool) (s : State) (path : Text) (isFile : Bool) :
    (makeDir statFails s path isFile).nodes = s.nodes := by
  unfold makeDir
  split_ifs <;> rfl

@[simp] theorem makeDir_root (statFails : Text → Bool) (s : State) (path : Text) (isFile : Bool) :
    (makeDir statFails s path isFile).root = s.root := by
  unfold makeDir
  split_ifs <;> rfl

/-- A path of one component. -/
def Path.single : Path where
  comps := [['x']]
  ne_nil := by decide
  ne_empty := by decide
  no_slash := by decide

/-- The answer for a path of one component is about the first son of the root. -/
theorem answer_of_single {s : State} {p : Path} {root : TreeNode} (hp : p.comps.dropLast = [])
    (hroot : load s.nodes s.root = some root) :
    answer s p = (load s.nodes root.firstSon).map TreeNode.isFile := by
  simp only [answer, findNode, pathSplit_text, hp, hroot, Option.bind_eq_bind, Option.bind_some,
    findLoop]
  cases load s.nodes root.firstSon with
  | none => rfl
  | some n => rfl

/-- In the empty tree `find_node` follows a null pointer when the path has one component. -/
theorem answer_init (absDir : Text) {p : Path} (hp : p.comps.dropLast = []) :
    answer (initFiletree absDir) p = none := by
  have hroot : load (initFiletree absDir).nodes (initFiletree absDir).root =
      some ⟨['/'], false, none, none, none⟩ := rfl
  rw [answer_of_single hp hroot]
  rfl

/-- The tree after the first insertion. -/
theorem nodes_first {statFails : Text → Bool} {absDir : Text} {p : Path} {isFile r : Bool}
    {s : State} (h : insertNode statFails (initFiletree absDir) p.text isFile = some (r, s)) :
    s.root = some 0 ∧
      s.nodes = [⟨['/'], false, none, some 1, none⟩, ⟨p.text, isFile, some 0, none, none⟩] := by
  simp only [insertNode, findNode, pathSplit_text] at h
  cases hdirs : p.comps.dropLast with
  | nil =>
      rw [hdirs] at h
      cases h
  | cons c dirs =>
      rw [hdirs] at h
      obtain ⟨rfl, rfl⟩ := Prod.ext_iff.1 (Option.some_inj.1 h)
      exact ⟨by rw [makeDir_root]; rfl, by rw [makeDir_nodes]; rfl⟩

/-- After the first insertion it does not. -/
theorem answer_first {statFails : Text → Bool} {absDir : Text} {p q : Path} {isFile r : Bool}
    {s : State} (h : insertNode statFails (initFiletree absDir) p.text isFile = some (r, s))
    (hq : q.comps.dropLast = []) : answer s q = some isFile := by
  obtain ⟨hroot, hnodes⟩ := nodes_first h
  rw [answer_of_single hq (show load s.nodes s.root = some ⟨['/'], false, none, some 1, none⟩ by
    rw [hroot, hnodes]
    rfl), hnodes]
  rfl

/-- **No history of insertions is answered as by a set of paths**: the first insertion changes the
answers for all paths of one component.  Even if these do not count, no history with a file in it is
answered for. -/
theorem not_behavesAsSet (statFails : Text → Bool) (absDir : Text) (es : List (Path × Bool)) :
    ¬ BehavesAsSet statFails absDir es ∧
      ∀ p, specFile es p = true → ¬ AnswersRight statFails absDir es := by
  constructor
  · rintro ⟨⟨s, hrun, hanswer⟩, hframe⟩
    cases es with
    | nil =>
        cases hrun
        have hnull := answer_init absDir (show Path.single.comps.dropLast = [] from rfl)
        rw [hanswer] at hnull
        cases hnull
    | cons e es =>
        obtain ⟨p, isFile⟩ := e
        obtain ⟨n, hn⟩ := exists_rename Path.single [(p, isFile)]
        have hne : Path.single.rename n ≠ p := (hn n (Nat.le_refl n) (p, isFile) (by simp)).symm
        have hq : (Path.single.rename n).comps.dropLast = [] := by simp [Path.rename, Path.single]
        simp only [inserts, Option.bind_eq_bind, Option.bind_eq_some_iff] at hrun
        obtain ⟨⟨r, s'⟩, hfirst, -⟩ := hrun
        have hsame := hframe [] p isFile es rfl [] _ rfl r s' hfirst _ hne
        rw [answer_init absDir hq, answer_first hfirst hq] at hsame
        cases hsame
  · intro p hfile hright
    rw [specFile_of_answersRight hright p] at hfile
    cases hfile

/-- The path `a/b`. -/
def ab : Path := ⟨[['a'], ['b']], by decide, by decide, by decide⟩

/-- A file is inserted and not found. -/
theorem not_behavesAsSet_ab :
    ¬ ∀ (statFails : Text → Bool) (absDir : Text) (es : List (Path × Bool)),
      BehavesAsSet statFails absDir es := by
  intro hall
  obtain ⟨⟨s, hrun, hanswer⟩, -⟩ := hall (fun _ => true) [] [(ab, true)]
  have hlost : (inserts (fun _ => true) [(ab, true)] (initFiletree [])).map
      (fun q => answer q.2 ab) = some (some false) := by decide
  rw [hrun, Option.map_some, hanswer] at hlost
  revert hlost
  decide

/-! ### The loops over the siblings -/

/-- **The sons of every node are a chain**, and each of them points back to the node. -/
def WellFormed (h : List TreeNode) : Prop :=
  ∀ (a : ℕ) n, h[a]? = some n → ∃ l, Chain TreeNode.nextSibling h n.firstSon l ∧
    ∀ b ∈ l, ∃ m, h[b]? = some m ∧ m.parent = some a

/-- The loops over the sons of a node end, at the first one that stops them. -/
theorem WellFormed.walk_eq {h : List TreeNode} (hwf : WellFormed h) {a : ℕ} {n : TreeNode}
    (ha : h[a]? = some n) (stop : TreeNode → Bool) :
    ∃ l, Chain TreeNode.nextSibling h n.firstSon l ∧
      walk TreeNode.nextSibling stop h (h.length + 1) n.firstSon =
        l.find? fun b => (h[b]?).any stop := by
  obtain ⟨l, hl, -⟩ := hwf a n ha
  exact ⟨l, hl, walk_eq_find stop hl (Nat.lt_succ_of_le hl.length_le)⟩

/-- `last_node` is a node. -/
theorem findLoop_last {h : List TreeNode} {dirs : List Text} {node : Ptr} {a : ℕ}
    (ha : a < h.length) {found : Bool} {last : Ptr}
    (hfind : findLoop h dirs node (some a) = some (found, last)) :
    ∃ b, last = some b ∧ b < h.length := by
  induction dirs generalizing node a with
  | nil =>
      simp only [findLoop, Option.bind_eq_bind, Option.bind_eq_some_iff] at hfind
      obtain ⟨n, -, heq⟩ := hfind
      cases heq
      exact ⟨a, rfl, ha⟩
  | cons name dirs ih =>
      rw [findLoop] at hfind
      split at hfind
      · cases hfind
        exact ⟨a, rfl, ha⟩
      · simp only [Option.bind_eq_bind, Option.bind_eq_some_iff] at hfind
        obtain ⟨n, hn, hfind⟩ := hfind
        exact ih (List.getElem?_eq_some_iff.1 hn).1 hfind

/-- A node is added to the sons of the node `a`; the siblings of other nodes stay what they were. -/
theorem WellFormed.of_sons {h h' : List TreeNode} {a : ℕ} {new : TreeNode} (hwf : WellFormed h)
    (hold : ∀ b m, h[b]? = some m → ∃ m', h'[b]? = some m' ∧ m'.parent = m.parent ∧
      (m.parent ≠ some a → m'.nextSibling = m.nextSibling) ∧ (b ≠ a → m'.firstSon = m.firstSon))
    (hlength : h'.length = h.length + 1) (hnew : h'[h.length]? = some new)
    (hson : new.firstSon = none)
    (hsons : ∀ m', h'[a]? = some m' → ∃ l, Chain TreeNode.nextSibling h' m'.firstSon l ∧
      ∀ b ∈ l, ∃ m, h'[b]? = some m ∧ m.parent = some a) : WellFormed h' := by
  intro x n' hx
  by_cases hxa : x = a
  · subst hxa
    exact hsons n' hx
  · rcases Nat.lt_or_ge x h.length with hlt | hge
    · obtain ⟨n, hn⟩ : ∃ n, h[x]? = some n := ⟨_, List.getElem?_eq_getElem hlt⟩
      obtain ⟨n'', hn'', -, -, hfirst⟩ := hold x n hn
      rw [hx] at hn''
      obtain rfl := Option.some_inj.1 hn''
      obtain ⟨l, hl, hparents⟩ := hwf x n hn
      rw [hfirst hxa]
      refine ⟨l, hl.congr ?_, ?_⟩
      · intro b hb m hm
        obtain ⟨m₀, hm₀, hp⟩ := hparents b hb
        obtain rfl := Option.some_inj.1 (hm.symm.trans hm₀)
        obtain ⟨m', hm', -, hnext, -⟩ := hold b m hm
        refine ⟨m', hm', hnext ?_⟩
        rw [hp]
        simpa using hxa
      · intro b hb
        obtain ⟨m, hm, hp⟩ := hparents b hb
        obtain ⟨m', hm', hp', -, -⟩ := hold b m hm
        exact ⟨m', hm', hp'.trans hp⟩
    · have hlast : x = h.length := by
        have := (List.getElem?_eq_some_iff.1 hx).1
        omega
      subst hlast
      obtain rfl := Option.some_inj.1 (hnew.symm.trans hx)
      rw [hson]
      exact ⟨[], Chain.null, by simp⟩

theorem getElem?_append_singleton_of_some {h : List TreeNode} (new : TreeNode) {b : ℕ}
    {m : TreeNode} (hb : h[b]? = some m) : (h ++ [new])[b]? = some m := by
  rw [List.getElem?_append_left (List.getElem?_eq_some_iff.1 hb).1, hb]

section Attach

variable {h : List TreeNode} {a : ℕ} {n new : TreeNode}

/-- The new node is the only son of `a`. -/
theorem wellFormed_onlySon (hwf : WellFormed h) (hn : h[a]? = some n)
    (hparent : new.parent = some a) (hson : new.firstSon = none) (hnext : new.nextSibling = none) :
    WellFormed ((h ++ [new]).modify a fun n => { n with firstSon := some h.length }) := by
  have ha : a < h.length := (List.getElem?_eq_some_iff.1 hn).1
  have hnew : ((h ++ [new]).modify a fun n => { n with firstSon := some h.length })[h.length]? =
      some new := by
    rw [List.getElem?_modify_ne _ _ (by omega)]
    simp
  refine hwf.of_sons (a := a) ?_ (by simp) hnew hson ?_
  · intro b m hm
    have hb := getElem?_append_singleton_of_some new hm
    by_cases hab : a = b
    · subst hab
      refine ⟨{ m with firstSon := some h.length }, ?_, rfl, fun _ => rfl, ?_⟩
      · rw [List.getElem?_modify_eq, hb]
        rfl
      · intro hne
        exact absurd rfl hne
    · refine ⟨m, ?_, rfl, fun _ => rfl, fun _ => rfl⟩
      rw [List.getElem?_modify_ne _ _ hab, hb]
  · intro m' hm'
    rw [List.getElem?_modify_eq, getElem?_append_singleton_of_some new hn] at hm'
    obtain rfl := Option.some_inj.1 hm'
    refine ⟨[h.length], Chain.cell hnew ?_, ?_⟩
    · rw [hnext]
      exact Chain.null
    · simp only [List.mem_singleton, forall_eq]
      exact ⟨new, hnew, hparent⟩

/-- The new node is the next sibling of the last son `z` of `a`. -/
theorem wellFormed_nextSibling (hwf : WellFormed h) (hn : h[a]? = some n) {l : List ℕ} {z : ℕ}
    (hl : Chain TreeNode.nextSibling h n.firstSon (l ++ [z]))
    (hparents : ∀ b ∈ l ++ [z], ∃ m, h[b]? = some m ∧ m.parent = some a)
    (hparent : new.parent = some a) (hson : new.firstSon = none) (hnext : new.nextSibling = none) :
    WellFormed ((h ++ [new]).modify z fun n => { n with nextSibling := some h.length }) := by
  obtain ⟨mz, hmz, hpz⟩ := hparents z (by simp)
  have hzlt : z < h.length := (List.getElem?_eq_some_iff.1 hmz).1
  have hnew : ((h ++ [new]).modify z fun n => { n with nextSibling := some h.length })[h.length]? =
      some new := by
    rw [List.getElem?_modify_ne _ _ (by omega)]
    simp
  have hself : ((h ++ [new]).modify z fun n => { n with nextSibling := some h.length })[z]? =
      some { mz with nextSibling := some h.length } := by
    rw [List.getElem?_modify_eq, getElem?_append_singleton_of_some new hmz]
    rfl
  have hother : ∀ b m, z ≠ b → h[b]? = some m →
      ((h ++ [new]).modify z fun n => { n with nextSibling := some h.length })[b]? = some m := by
    intro b m hzb hm
    rw [List.getElem?_modify_ne _ _ hzb, getElem?_append_singleton_of_some new hm]
  refine hwf.of_sons (a := a) ?_ (by simp) hnew hson ?_
  · intro b m hm
    by_cases hzb : z = b
    · subst hzb
      obtain rfl := Option.some_inj.1 (hm.symm.trans hmz)
      exact ⟨_, hself, rfl, fun hne => absurd hpz hne, fun _ => rfl⟩
    · exact ⟨m, hother b m hzb hm, rfl, fun _ => rfl, fun _ => rfl⟩
  · intro m' hm'
    have hson' : m'.firstSon = n.firstSon := by
      by_cases hza : z = a
      · subst hza
        obtain rfl := Option.some_inj.1 (hn.symm.trans hmz)
        rw [hself] at hm'
        rw [← Option.some_inj.1 hm']
      · rw [hother a n hza hn] at hm'
        rw [← Option.some_inj.1 hm']
    have hne : ∀ b ∈ l, z ≠ b := by
      rintro b hb rfl
      exact (List.nodup_append.1 hl.nodup).2.2 _ hb _ (by simp) rfl
    rw [hson']
    refine ⟨l ++ [z, h.length], hl.append ?_ ?_ hnew hnext, ?_⟩
    · intro b hb m hm
      exact ⟨m, hother b m (hne b hb) hm, rfl⟩
    · exact ⟨_, hself, rfl⟩
    · intro b hb
      simp only [List.mem_append, List.mem_cons, List.not_mem_nil, or_false] at hb
      rcases hb with hb | rfl | rfl
      · obtain ⟨m, hm, hp⟩ := hparents b (by simp [hb])
        exact ⟨m, hother b m (hne b hb) hm, hp⟩
      · exact ⟨_, hself, hpz⟩
      · exact ⟨new, hnew, hparent⟩

/-- A tree with one more node, whose parent is `a`. -/
theorem wellFormed_attach {h' : List TreeNode} (hwf : WellFormed h) (ha : a < h.length)
    (hparent : new.parent = some a) (hson : new.firstSon = none) (hnext : new.nextSibling = none)
    (hattach : attach (h ++ [new]) (some a) (some h.length) = some h') : WellFormed h' := by
  obtain ⟨n, hn⟩ : ∃ n, h[a]? = some n := ⟨_, List.getElem?_eq_getElem ha⟩
  have hload := getElem?_append_singleton_of_some new hn
  obtain ⟨l, hl, hparents⟩ := hwf a n hn
  simp only [attach, load_some, hload, Option.bind_eq_bind, Option.bind_some] at hattach
  cases hfirst : n.firstSon with
  | none =>
      simp only [hfirst] at hattach
      rw [store_some (by simp; omega)] at hattach
      obtain rfl := Option.some_inj.1 hattach
      exact wellFormed_onlySon hwf hn hparent hson hnext
  | some f =>
      obtain ⟨l', z, rfl⟩ : ∃ l' z, l = l' ++ [z] := by
        rcases List.eq_nil_or_concat l with rfl | ⟨l', z, rfl⟩
        · rw [Chain.nil_iff.1 hl] at hfirst
          cases hfirst
        · exact ⟨l', z, by simp⟩
      -- the loop of `attach` ends at the last son
      have hl₁ : Chain TreeNode.nextSibling (h ++ [new]) n.firstSon (l' ++ [z]) :=
        hl.congr fun b _ m hm => ⟨m, getElem?_append_singleton_of_some new hm, rfl⟩
      have hfuel : l'.length < (h ++ [new]).length + 1 := by
        have hle := hl.length_le
        simp at hle ⊢
        omega
      have hwalk := walk_last hl₁ hfuel
      have hzlt : z < h.length := hl.lt_length z (by simp)
      simp only [hfirst] at hattach hwalk
      rw [hwalk, store_some (by simp; omega)] at hattach
      obtain rfl := Option.some_inj.1 hattach
      exact wellFormed_nextSibling hwf hn hl hparents hparent hson hnext

end Attach

theorem wellFormed_initFiletree (absDir : Text) : WellFormed (initFiletree absDir).nodes := by
  intro a n hn
  have ha : a = 0 := by
    have := (List.getElem?_eq_some_iff.1 hn).1
    simpa [initFiletree, initTreenode, alloc] using this
  subst ha
  obtain rfl := Option.some_inj.1 hn
  exact ⟨[], Chain.null, by simp⟩

/-- An insertion keeps the tree well formed, and the root where it is. -/
theorem wellFormed_insertNode {statFails : Text → Bool} {s s' : State} {path : Text}
    {isFile r : Bool} (hwf : WellFormed s.nodes) (hroot : s.root = some 0)
    (h : insertNode statFails s path isFile = some (r, s')) :
    WellFormed s'.nodes ∧ s'.root = some 0 := by
  simp only [insertNode, Option.bind_eq_bind, Option.bind_eq_some_iff] at h
  obtain ⟨⟨found, last⟩, hfind, h⟩ := h
  split_ifs at h
  · cases h
    exact ⟨hwf, hroot⟩
  · simp only [Option.bind_eq_some_iff] at h
    obtain ⟨h₁, hstore, h₂, hattach, heq⟩ := h
    cases heq
    simp only [findNode, Option.bind_eq_bind, Option.bind_eq_some_iff, hroot, load_some] at hfind
    obtain ⟨root, hload, hloop⟩ := hfind
    obtain ⟨a, rfl, ha⟩ := findLoop_last (List.getElem?_eq_some_iff.1 hload).1 hloop
    simp only [initTreenode, alloc] at hstore hattach
    rw [store_some (by simp)] at hstore
    obtain rfl := Option.some_inj.1 hstore
    have hmodify : (s.nodes ++ [(⟨path, isFile, none, none, none⟩ : TreeNode)]).modify s.nodes.length
        (fun n => { n with parent := some a }) =
        s.nodes ++ [⟨path, isFile, some a, none, none⟩] := modify_alloc _ _ _
    rw [hmodify] at hattach
    refine ⟨?_, by simpa using hroot⟩
    rw [makeDir_nodes]
    exact wellFormed_attach hwf ha rfl rfl rfl hattach

/-- **The loops over the siblings end** in every tree that insertions have made. -/
theorem wellFormed_inserts {statFails : Text → Bool} {es : List (Path × Bool)} {s s' : State}
    {rs : List Bool} (hwf : WellFormed s.nodes) (hroot : s.root = some 0)
    (h : inserts statFails es s = some (rs, s')) : WellFormed s'.nodes := by
  induction es generalizing s rs with
  | nil =>
      cases h
      exact hwf
  | cons e es ih =>
      obtain ⟨p, isFile⟩ := e
      simp only [inserts, Option.bind_eq_bind, Option.bind_eq_some_iff] at h
      obtain ⟨⟨r, s₁⟩, hinsert, ⟨rs', s₂⟩, hrest, heq⟩ := h
      cases heq
      obtain ⟨hwf₁, hroot₁⟩ := wellFormed_insertNode hwf hroot hinsert
      exact ih hwf₁ hroot₁ hrest

end NameTree
