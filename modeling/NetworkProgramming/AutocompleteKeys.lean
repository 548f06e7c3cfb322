/-
**The autocompletion engine: the key loop.**

The loop of `main` in `MyShell/engine.c` reads one key after the other.  It keeps the current word in
`op[0..k)` and draws on a `curses` window; a first Tab lists the completions of the word below the
line, and further Tabs replace the word on the screen by one completion after the other.  The strings
`op` and `tabbed_op` are taken to be long enough, and a character takes one cell of the window.  A Tab
whose completions do not fit their blocks has no result.

Main definitions:

* `Autocomplete.Engine` — the variables of `main` and of the functions it calls;
* `Autocomplete.clearComplete`, `Autocomplete.selectWord`, `Autocomplete.findSpace`,
  `Autocomplete.replaceWord`, `Autocomplete.backspace` — the functions of the source;
* `Autocomplete.keyStep` — one key;
* `Autocomplete.Genuine`, `Autocomplete.Mirrored` — what the user may expect after every key.

Main results:

* `Autocomplete.pressed_of_keyStep` — what a key can do;
* `Autocomplete.genuine_iff` — **only real completions are inserted**, in a whole run, exactly when no
  Tab follows an empty list or a list for a text with a `{`;
* `Autocomplete.mirrored_iff` — **the buffer has what the screen shows**, in a whole run, exactly when
  no key makes the two part.
-/

import NetworkProgramming.Autocomplete
import NetworkProgramming.Runs
import NetworkProgramming.Window
import Mathlib.Tactic

set_option relaxedAutoImplicit false
set_option autoImplicit false

namespace Autocomplete

open CString Malloc Runs Window

/-! ### The engine -/

/-- The variables.  `pos` holds `ypos` and `xpos`, and `none` where `xpos` is `-1`; `y` and `x` are the
global ones.  `listedFor` and `inserted` are not in the source: the text that the last list was made
for, and the text that the last key inserted. -/
structure Engine where
  op : ℕ → Char
  k : ℕ
  completions : Completions
  tabCount : ℕ
  tabCheck : Bool
  pos : Option (ℕ × ℕ)
  y : ℕ
  x : ℕ
  win : Window
  ended : Bool
  listedFor : Text
  inserted : Option Text

/-- The start of `main`: `op` and the strings of `completion_arr` are not initialised, the window is
blank. -/
def Engine.init (maxy maxx : ℕ) (op : ℕ → Char) (arr : ℕ → Text) : Engine where
  op := op
  k := 0
  completions := ⟨arr, 0⟩
  tabCount := 0
  tabCheck := false
  pos := none
  y := 0
  x := 0
  win := ⟨maxy, maxx, fun _ _ => ' ', 0, 0⟩
  ended := false
  listedFor := []
  inserted := none

/-- `op[0..k)`. -/
def Engine.text (s : Engine) : Text := (List.range s.k).map s.op

/-- `getyx(win, y, x)`. -/
def getyx (s : Engine) : Engine := { s with y := s.win.cury, x := s.win.curx }

/-- The window after the rows below the line were cleared. -/
def clearRows (s : Engine) : Window :=
  ((List.range s.completions.count).foldl (fun w i => (w.move (s.y + 1 + i) 0).clrtoeol) s.win).move
    s.y s.x

/-- `clear_complete`. -/
def clearComplete (s : Engine) : Engine :=
  { s with
    win := if s.completions.count = 0 then s.win else clearRows s
    completions := { s.completions with count := 0 } }

/-- `select_word`. -/
def selectWord (s : Engine) : Option Text :=
  if s.completions.count < s.tabCount then none else some (s.completions.arr s.tabCount)

/-- `find_space` on a row, from a column to the left. -/
def findSpace (row : ℕ → Char) : ℕ → ℕ
  | 0 => 0
  | n + 1 => if row n = ' ' then n else findSpace row n

/-- The column `x0` of `replace_word`. -/
def wordStart (s : Engine) : ℕ :=
  let pos := findSpace (s.win.cells s.y) s.x
  if pos ≠ 0 then pos + 1 else pos

/-- `replace_word`, at the position that `find_space` found. -/
def replaceWord (s : Engine) (tabbedOp : Text) : Engine :=
  { s with
    x := wordStart s
    win := tabbedOp.foldl (fun w c => (w.addch c).1) (s.win.move s.y (wordStart s)).clrtoeol }

/-- `backspace`.  In the column `0` the cursor cannot move back. -/
def backspace (s : Engine) : Engine :=
  { getyx s with
    win := (if 0 < s.win.curx then s.win.move s.win.cury (s.win.curx - 1) else s.win).delch }

/-- The end of a line.  The next one begins with `k = 0`. -/
def endLine (s : Engine) : Engine :=
  { clearComplete (getyx s) with
    op := Function.update s.op s.k '\x00'
    win := ((clearComplete (getyx s)).win.addch '\n').1
    ended := cstr s.text = "exit".toList
    k := 0 }

/-- A Tab that inserts a word.  `op` keeps its characters. -/
def insertWord (s : Engine) (dupOp : Text) : Engine :=
  { replaceWord s dupOp with
    k := dupOp.length
    tabCount := if s.completions.count = 0 then s.tabCount
      else (s.tabCount + 1) % s.completions.count
    inserted := some dupOp }

/-- What `completeWord` prints. -/
def printList (w : Window) (found : Bool) (words : List Text) : Window :=
  if found then words.foldl (fun w v => w.print (v ++ ['\n'])) (w.print ['\n']) else w

/-- A Tab that lists the completions of `op`. -/
def listWords (m : Allocator) (root : Node) (s : Engine) : Option Engine :=
  let t := clearComplete (getyx s)
  (completeWord m root (cstr s.text) (cstr s.text) t.completions).map fun r =>
    { t with
      tabCheck := true
      op := Function.update s.op s.k '\x00'
      completions := r.2
      win := ((printList t.win r.1 r.2.listed).move t.y t.x).clrtoeol
      listedFor := cstr s.text }

/-- The part of the Tab branch behind the test of `xpos`. -/
def completeKey (m : Allocator) (root : Node) (s : Engine) : Option Engine :=
  if s.tabCheck then
    match selectWord s with
    | none => some (endLine s)
    | some dupOp => some (insertWord s dupOp)
  else listWords m root s

/-- The Tab branch. -/
def tabKey (m : Allocator) (root : Node) (s : Engine) : Option Engine :=
  match s.pos with
  | none => completeKey m root s
  | some (ypos, _) =>
      let t := { s with pos := none, win := s.win.move ypos 0 }
      if s.win.cells ypos 0 ≠ '\n' then completeKey m root t else some t

/-- The branch for `ALT_BACKSPACE`. -/
def backspaceKey (s : Engine) : Engine :=
  { backspace s with tabCheck := false, tabCount := 0, pos := none, k := s.k - 1 }

/-- What a space does first when a list was made. -/
def spaceKey (s : Engine) : Engine :=
  let t := clearComplete (getyx s)
  { t with tabCount := 0, pos := some (t.win.cury, t.win.curx) }

/-- The branch for the other characters. -/
def charKey (s : Engine) (ch : Char) : Engine :=
  { s with
    tabCheck := false
    tabCount := 0
    win := (s.win.addch ch).1
    pos := none
    op := if ch ≠ ' ' then Function.update s.op s.k ch else s.op
    k := if ch ≠ ' ' then s.k + 1 else 0 }

/-- The body of the loop. -/
def keyBody (m : Allocator) (root : Node) (s : Engine) (ch : Char) : Option Engine :=
  if ch = '\n' then some (endLine s)
  else
    let t := if ch = ' ' ∧ s.tabCheck then spaceKey s else s
    if ch = '\t' then tabKey m root t
    else if ch = '\x7f' then some (backspaceKey t)
    else some (charKey t ch)

/-- One key, as long as the program runs. -/
def keyStep (m : Allocator) (root : Node) (s : Engine) (ch : Char) : Option Engine :=
  if s.ended then none else keyBody m root { s with inserted := none } ch

/-! ### What a key can do -/

section Keys

variable {m : Allocator} {root : Node} {s t : Engine} {ch : Char}

/-- The cases of a key, while `xpos` is `-1`. -/
inductive Pressed (m : Allocator) (root : Node) (s : Engine) : Char → Engine → Prop
  | enter : Pressed m root s '\n' (endLine s)
  | leave (hcheck : s.tabCheck = true) (hselect : selectWord s = none) :
      Pressed m root s '\t' (endLine s)
  | insert (dupOp : Text) (hcheck : s.tabCheck = true) (hselect : selectWord s = some dupOp) :
      Pressed m root s '\t' (insertWord s dupOp)
  | list (t : Engine) (hcheck : s.tabCheck = false) (hlist : listWords m root s = some t) :
      Pressed m root s '\t' t
  | back : Pressed m root s '\x7f' (backspaceKey s)
  | char (ch : Char) (hne : ch ≠ '\n' ∧ ch ≠ '\t' ∧ ch ≠ '\x7f') :
      Pressed m root s ch (charKey (if ch = ' ' ∧ s.tabCheck then spaceKey s else s) ch)

theorem pressed_of_completeKey (h : completeKey m root s = some t) : Pressed m root s '\t' t := by
  rw [completeKey] at h
  cases hcheck : s.tabCheck with
  | false =>
      rw [hcheck, if_neg Bool.false_ne_true] at h
      exact Pressed.list t hcheck h
  | true =>
      rw [hcheck, if_pos rfl] at h
      cases hselect : selectWord s with
      | none =>
          rw [hselect] at h
          obtain rfl := Option.some_inj.1 h
          exact Pressed.leave hcheck hselect
      | some dupOp =>
          rw [hselect] at h
          obtain rfl := Option.some_inj.1 h
          exact Pressed.insert dupOp hcheck hselect

theorem keyBody_tab (hpos : s.pos = none) : keyBody m root s '\t' = completeKey m root s := by
  rw [keyBody, if_neg (by decide)]
  dsimp only
  rw [if_pos rfl, if_neg (fun h => absurd h.1 (by decide)), tabKey, hpos]

theorem pressed_of_keyBody (hpos : s.pos = none) (h : keyBody m root s ch = some t) :
    Pressed m root s ch t := by
  by_cases htab : ch = '\t'
  · obtain rfl := htab
    rw [keyBody_tab hpos] at h
    exact pressed_of_completeKey h
  rw [keyBody] at h
  by_cases hnewline : ch = '\n'
  · rw [if_pos hnewline] at h
    obtain rfl := Option.some_inj.1 h
    exact hnewline ▸ Pressed.enter
  rw [if_neg hnewline] at h
  dsimp only at h
  rw [if_neg htab] at h
  by_cases hback : ch = '\x7f'
  · obtain rfl := hback
    rw [if_pos rfl, if_neg (fun h => absurd h.1 (by decide))] at h
    obtain rfl := Option.some_inj.1 h
    exact Pressed.back
  · rw [if_neg hback] at h
    obtain rfl := Option.some_inj.1 h
    exact Pressed.char ch ⟨hnewline, htab, hback⟩

/-- **What a key can do.** -/
theorem pressed_of_keyStep (hpos : s.pos = none) (h : keyStep m root s ch = some t) :
    s.ended = false ∧ Pressed m root { s with inserted := none } ch t := by
  rw [keyStep] at h
  cases hended : s.ended with
  | true =>
      rw [hended, if_pos rfl] at h
      cases h
  | false =>
      rw [hended, if_neg Bool.false_ne_true] at h
      exact ⟨rfl, pressed_of_keyBody hpos h⟩

/-- A key without a result comes after the end, or is a Tab that makes a list. -/
theorem keyStep_eq_none (hpos : s.pos = none) (h : keyStep m root s ch = none) :
    s.ended = true ∨ (ch = '\t' ∧ s.tabCheck = false) := by
  cases hended : s.ended with
  | true => exact Or.inl rfl
  | false =>
      rw [keyStep, hended, if_neg Bool.false_ne_true] at h
      right
      by_cases htab : ch = '\t'
      · obtain rfl := htab
        refine ⟨rfl, ?_⟩
        by_contra hcheck
        rw [Bool.not_eq_false] at hcheck
        rw [keyBody_tab (s := { s with ended := false, inserted := none }) hpos, completeKey] at h
        rw [hcheck, if_pos rfl] at h
        split at h <;> cases h
      · rw [keyBody] at h
        dsimp only at h
        rw [if_neg htab] at h
        split_ifs at h

/-- What a list is made of. -/
theorem listWords_eq_some (h : listWords m root s = some t) :
    ∃ r, completeWord m root (cstr s.text) (cstr s.text) ⟨s.completions.arr, 0⟩ = some r ∧
      t = { clearComplete (getyx s) with
        tabCheck := true
        op := Function.update s.op s.k '\x00'
        completions := r.2
        win := ((printList (clearComplete (getyx s)).win r.1 r.2.listed).move
          s.win.cury s.win.curx).clrtoeol
        listedFor := cstr s.text } := by
  obtain ⟨r, hr, rfl⟩ := Option.map_eq_some_iff.1 h
  exact ⟨r, hr, rfl⟩

end Keys

/-! ### Only real completions -/

section Lists

variable {m : Allocator} {words : List Text} {p : Text}

/-- The node that is found lies behind a path. -/
theorem exists_descend_of_follow {temp node : Node} (h : follow temp p = some (some node)) :
    ∃ v, node = temp.descend v := by
  induction p generalizing temp with
  | nil => exact ⟨[], (Option.some_inj.1 (Option.some_inj.1 h)).symm⟩
  | cons c p ih =>
      rw [follow, Option.bind_eq_some_iff] at h
      obtain ⟨i, -, h⟩ := h
      split_ifs at h
      · cases Option.some_inj.1 h
      · obtain ⟨v, rfl⟩ := ih h
        exact ⟨i :: v, rfl⟩

/-- The texts whose nodes `completeWord` finds have letters without the space, and `{`, which is behind
`z` as the space is in the alphabet. -/
theorem le_brace_of_follow {temp node : Node} (h : follow temp p = some (some node)) :
    ∀ c ∈ p, 'a' ≤ c ∧ c ≤ '\x7b' := by
  induction p generalizing temp with
  | nil => exact fun c hc => absurd hc List.not_mem_nil
  | cons c p ih =>
      rw [follow, Option.bind_eq_some_iff] at h
      obtain ⟨i, hi, h⟩ := h
      rw [if_neg] at h
      swap
      · intro hnull
        rw [if_pos hnull] at h
        cases Option.some_inj.1 h
      have hindex : 0 ≤ searchPosition c ∧ searchPosition c < 27 := by
        rw [index] at hi
        split_ifs at hi with hrange
        exact hrange
      have hc : 97 ≤ c.toNat ∧ c.toNat ≤ 123 := by
        have ha : 'a'.toNat = 97 := rfl
        rw [searchPosition, ha] at hindex
        omega
      exact List.forall_mem_cons.2 ⟨hc, ih h⟩

theorem lower_of_follow {temp node : Node} (h : follow temp p = some (some node))
    (hbrace : '\x7b' ∉ p) : ∀ c ∈ p, 'a' ≤ c ∧ c ≤ 'z' := by
  intro c hc
  obtain ⟨hle, hge⟩ := le_brace_of_follow h c hc
  refine ⟨hle, ?_⟩
  have hne : c.toNat ≠ 123 := by
    intro heq
    have hc' : c = '\x7b' := Char.toNat_inj.1 heq
    exact hbrace (hc' ▸ hc)
  have hnat : c.toNat ≤ 123 := hge
  have hz : c.toNat ≤ 122 := by omega
  exact hz

/-- **A list has words of the dictionary that start with the text**, if that has no `{`. -/
theorem listed_of_completeWord (hwords : ∀ v ∈ words, ∀ c ∈ v, IsLetter c) {arr : ℕ → Text}
    {r : Bool × Completions}
    (h : completeWord m (Trie.insertAll (words.map encode)) p p ⟨arr, 0⟩ = some r) :
    ∀ v ∈ r.2.listed, p <+: v ∧ ('\x7b' ∉ p → v ∈ words) := by
  rw [completeWord, Option.bind_eq_some_iff] at h
  obtain ⟨node, hfollow, h⟩ := h
  cases node with
  | none =>
      obtain rfl := Option.some_inj.1 h
      exact fun v hv => absurd hv List.not_mem_nil
  | some temp =>
      obtain ⟨c, hc, rfl⟩ := Option.map_eq_some_iff.1 h
      obtain ⟨v, hv⟩ := exists_descend_of_follow hfollow
      have hgrown : temp.Grown := hv ▸ (Trie.grown_insertAll _).descend v
      rw [recursiveInsert_eq temp hgrown] at hc
      have hlisted : c.listed = (temp.words (List.finRange 27)).map fun w => p ++ w.map alphabets := by
        rw [(Completions.storeAll_eq_some hc).2, Completions.listed_filled]
        rfl
      intro v hv
      rw [hlisted] at hv
      constructor
      · obtain ⟨w, -, rfl⟩ := List.mem_map.1 hv
        exact List.prefix_append _ _
      · intro hbrace
        have hlower := lower_of_follow hfollow hbrace
        have hletters : ∀ c ∈ p, IsLetter c := fun c hc => Or.inr (hlower c hc)
        -- the node is the one behind the letters, so the list is `completions`
        have htemp : temp = (Trie.insertAll (words.map encode)).descend (encode p) := by
          have hpath := follow_append (isNull_insertAll (words.map encode)) hlower []
          rw [List.append_nil, hfollow] at hpath
          split_ifs at hpath with hnull
          · cases Option.some_inj.1 hpath
          · exact Option.some_inj.1 (Option.some_inj.1 hpath)
        rw [htemp] at hv
        exact ((mem_completions_iff hwords hletters v).1 hv).1

end Lists

section Genuine

variable {m : Allocator} {words : List Text} {root : Node} {s t : Engine} {ch : Char}

/-- What the last key inserted, if anything, is a word of the dictionary that starts with the text that
the list was made for, and the list is not empty. -/
def Genuine (words : List Text) (s : Engine) : Prop :=
  ∀ w, s.inserted = some w →
    0 < s.completions.count ∧ w ∈ words ∧ s.listedFor <+: w

/-- The key is no Tab that inserts from an empty list, or from a list for a text with a `{`. -/
def Offered (s : Engine) (ch : Char) : Prop :=
  s.ended = false → ch = '\t' → s.tabCheck = true →
    selectWord s = none ∨ (0 < s.completions.count ∧ '\x7b' ∉ s.listedFor)

instance (s : Engine) (ch : Char) : Decidable (Offered s ch) :=
  inferInstanceAs (Decidable (_ → _ → _ → _ ∨ _))

/-- The first `completion_count` strings belong to the last list, and `tab_count` is one of them. -/
structure Tracked (words : List Text) (s : Engine) : Prop where
  pos : s.pos = none
  check : s.tabCheck = false → s.tabCount = 0
  bound : 0 < s.completions.count → s.tabCount < s.completions.count
  listed : ∀ v ∈ s.completions.listed, s.listedFor <+: v ∧ ('\x7b' ∉ s.listedFor → v ∈ words)

theorem tracked_init (words : List Text) (maxy maxx : ℕ) (op : ℕ → Char) (arr : ℕ → Text) :
    Tracked words (Engine.init maxy maxx op arr) :=
  ⟨rfl, fun _ => rfl, fun h => absurd h (lt_irrefl 0), fun _ hv => absurd hv List.not_mem_nil⟩

/-- Without a list there is nothing to track but the flags. -/
theorem tracked_of_count (hpos : s.pos = none) (hcheck : s.tabCheck = false → s.tabCount = 0)
    (hcount : s.completions.count = 0) : Tracked words s := by
  refine ⟨hpos, hcheck, fun h => absurd hcount h.ne', ?_⟩
  rw [Completions.listed, hcount]
  exact fun _ hv => absurd hv List.not_mem_nil

/-- The first key after a list that is no Tab takes `tab_count` back. -/
theorem Tracked.reset (h : Tracked words s) (hcompletions : t.completions = s.completions)
    (hlistedFor : t.listedFor = s.listedFor) (hpos : t.pos = none) (hcount : t.tabCount = 0) :
    Tracked words t := by
  refine ⟨hpos, fun _ => hcount, ?_, ?_⟩
  · rw [hcount]
    exact id
  · rw [hcompletions, hlistedFor]
    exact h.listed

theorem tracked_pressed (hwords : ∀ v ∈ words, ∀ c ∈ v, IsLetter c) (h : Tracked words s)
    (hpress : Pressed m (Trie.insertAll (words.map encode)) s ch t) : Tracked words t := by
  cases hpress with
  | enter => exact tracked_of_count h.pos h.check rfl
  | leave hcheck hselect => exact tracked_of_count h.pos h.check rfl
  | insert dupOp hcheck hselect =>
      refine ⟨h.pos, fun hfalse => ?_, fun hpos => ?_, h.listed⟩
      · rw [show (insertWord s dupOp).tabCheck = s.tabCheck from rfl, hcheck] at hfalse
        cases hfalse
      · have hcount : s.completions.count ≠ 0 := Nat.pos_iff_ne_zero.1 hpos
        have htab : (insertWord s dupOp).tabCount = (s.tabCount + 1) % s.completions.count :=
          if_neg hcount
        rw [htab]
        exact Nat.mod_lt _ hpos
  | list _ hcheck hlist =>
      obtain ⟨r, hr, rfl⟩ := listWords_eq_some hlist
      have hzero : s.tabCount = 0 := h.check hcheck
      refine ⟨h.pos, fun _ => hzero, fun hpos => ?_, listed_of_completeWord hwords hr⟩
      exact hzero.symm ▸ hpos
  | back => exact h.reset rfl rfl rfl rfl
  | char ch hne =>
      split_ifs
      · exact tracked_of_count rfl (fun _ => rfl) rfl
      · exact h.reset rfl rfl rfl rfl

theorem selectWord_eq_some {w : Text} (h : selectWord s = some w) :
    ¬ s.completions.count < s.tabCount ∧ w = s.completions.arr s.tabCount := by
  rw [selectWord] at h
  split_ifs at h with hlt
  exact ⟨hlt, (Option.some_inj.1 h).symm⟩

theorem arr_mem_listed {c : Completions} {n : ℕ} (h : n < c.count) : c.arr n ∈ c.listed :=
  List.mem_map_of_mem (List.mem_range.2 h)

/-- **A Tab inserts a real completion** exactly if there is a list, for a text without a `{`. -/
theorem genuine_insertWord_iff (hwords : ∀ v ∈ words, ∀ c ∈ v, IsLetter c) (h : Tracked words s)
    {w : Text} (hselect : selectWord s = some w) :
    Genuine words (insertWord s w) ↔ 0 < s.completions.count ∧ '\x7b' ∉ s.listedFor := by
  have hgenuine : Genuine words (insertWord s w) ↔
      0 < s.completions.count ∧ w ∈ words ∧ s.listedFor <+: w := by
    constructor
    · intro hall
      exact hall w rfl
    · intro hw v hv
      obtain rfl := Option.some_inj.1 hv
      exact hw
  rw [hgenuine]
  constructor
  · rintro ⟨hpos, hmem, hle⟩
    refine ⟨hpos, ?_⟩
    intro hbrace
    exact absurd (hwords w hmem _ (hle.mem hbrace)) (by decide)
  · rintro ⟨hpos, hbrace⟩
    obtain ⟨-, rfl⟩ := selectWord_eq_some hselect
    obtain ⟨hle, hmem⟩ := h.listed _ (arr_mem_listed (h.bound hpos))
    exact ⟨hpos, hmem hbrace, hle⟩

/-- Keys that insert nothing. -/
theorem genuine_of_inserted (h : s.inserted = none) : Genuine words s := by
  intro w hw
  rw [h] at hw
  cases hw

theorem genuine_step (hwords : ∀ v ∈ words, ∀ c ∈ v, IsLetter c) (s : Engine) (ch : Char) (t : Engine)
    (h : Tracked words s) (hstep : keyStep m (Trie.insertAll (words.map encode)) s ch = some t) :
    (Genuine words t ↔ Offered s ch) ∧ (Offered s ch → Tracked words t) := by
  obtain ⟨hended, hpress⟩ := pressed_of_keyStep h.pos hstep
  have hclear : Tracked words { s with inserted := none } := ⟨h.pos, h.check, h.bound, h.listed⟩
  refine ⟨?_, fun _ => tracked_pressed hwords hclear hpress⟩
  cases hpress with
  | enter => exact iff_of_true (genuine_of_inserted rfl) fun _ htab => absurd htab (by decide)
  | leave hcheck hselect =>
      exact iff_of_true (genuine_of_inserted rfl) fun _ _ _ => Or.inl hselect
  | insert dupOp hcheck hselect =>
      rw [genuine_insertWord_iff hwords hclear hselect]
      constructor
      · intro hlist _ _ _
        exact Or.inr hlist
      · intro hoffered
        refine (hoffered hended rfl hcheck).resolve_left ?_
        intro hnone
        cases hnone.symm.trans hselect
  | list _ hcheck hlist =>
      obtain ⟨r, -, rfl⟩ := listWords_eq_some hlist
      refine iff_of_true (genuine_of_inserted rfl) fun _ _ htrue => ?_
      cases hcheck.symm.trans htrue
  | back => exact iff_of_true (genuine_of_inserted rfl) fun _ htab => absurd htab (by decide)
  | char ch hne =>
      refine iff_of_true (genuine_of_inserted ?_) fun _ htab => absurd htab hne.2.1
      split_ifs <;> rfl

end Genuine

/-- The start of the engine in a terminal of 24 rows and 80 columns. -/
def terminal : Engine := Engine.init 23 79 (fun _ => '\x00') fun _ => []

section Mirrored

variable {m : Allocator} {root : Node} {s t : Engine} {ch : Char}

/-- The buffer has the text that is shown between the last space of the row and the cursor. -/
def Mirrored (s : Engine) : Prop := s.text = s.win.shown

/-- The next row begins with an empty word: there is one, or the word is empty now. -/
def RoomBelow (s : Engine) : Prop := s.win.cury < s.win.maxy ∨ s.k = 0

instance (s : Engine) : Decidable (RoomBelow s) := inferInstanceAs (Decidable (_ ∨ _))

/-- The word can replace the one on the screen: it has no space, there is room for it, and `op` has it
already. -/
def Fitting (s : Engine) (w : Text) : Prop :=
  (' ' ∉ w ∧ '\n' ∉ w ∧ wordStart s + w.length ≤ s.win.maxx) ∧ (List.range w.length).map s.op = w

instance (s : Engine) (w : Text) : Decidable (Fitting s w) := inferInstanceAs (Decidable (_ ∧ _))

/-- The key changes the buffer as it changes the screen. -/
def Mirroring (s : Engine) (ch : Char) : Prop :=
  s.ended = false →
    if ch = '\n' then RoomBelow s
    else if ch = '\t' then
      s.tabCheck = true →
        match selectWord s with
        | none => RoomBelow s
        | some w => Fitting s w
    else if ch = '\x7f' then s.k = 0 → lastWord s.win.left.dropLast = []
    else s.win.curx < s.win.maxx ∨ (ch = ' ' ∧ RoomBelow s)

/-- The positions that the engine knows are in the window. -/
structure Placed (s : Engine) : Prop where
  inside : s.win.Inside
  row : s.y ≤ s.win.maxy
  column : s.x ≤ s.win.maxx

theorem length_text (s : Engine) : s.text.length = s.k := by
  rw [Engine.text, List.length_map, List.length_range]

/-- A character at the end of the text does not change the text. -/
theorem map_update_range (op : ℕ → Char) (k : ℕ) (c : Char) :
    (List.range k).map (Function.update op k c) = (List.range k).map op :=
  List.map_congr_left fun _ hi => Function.update_of_ne (List.mem_range.1 hi).ne _ _

theorem Mirrored.shown_eq_nil_iff (h : Mirrored s) : s.win.shown = [] ↔ s.k = 0 := by
  rw [← h, ← length_text, List.length_eq_zero_iff]

/-- **Clearing the list** leaves the line as it was. -/
theorem alike_clearComplete (hs : s.win.Inside) :
    Alike s.win (clearComplete (getyx s)).win := by
  have hrows : ∀ n, Beyond s.win.cury s.win.curx s.win
      ((List.range n).foldl (fun w i => (w.move (s.win.cury + 1 + i) 0).clrtoeol) s.win) := by
    intro n
    induction n with
    | zero => exact Beyond.refl s.win
    | succ n ih =>
        rw [List.range_succ, List.foldl_append, List.foldl_cons, List.foldl_nil]
        exact (ih.move (Or.inl (by omega))).clrtoeol
  dsimp only [clearComplete, getyx]
  split_ifs
  · exact Alike.refl s.win
  · exact (hrows _).alike_move hs

/-- **Printing the list** leaves the line as it was. -/
theorem beyond_printList (w : Window) (found : Bool) (words : List Text) :
    Beyond w.cury w.curx w (printList w found words) := by
  have hwords : ∀ v, Beyond w.cury w.curx w v →
      Beyond w.cury w.curx w (words.foldl (fun w v => w.print (v ++ ['\n'])) v) := by
    induction words with
    | nil => exact fun _ h => h
    | cons word words ih => exact fun v h => ih _ (h.print _)
  rw [printList]
  split_ifs
  · exact hwords _ ((Beyond.refl w).print _)
  · exact Beyond.refl w

/-- **A list** is drawn beside the line. -/
theorem alike_listWords (hs : s.win.Inside) (h : listWords m root s = some t) :
    Alike s.win t.win := by
  obtain ⟨r, -, rfl⟩ := listWords_eq_some h
  have hclear := alike_clearComplete hs
  have hmove := (beyond_printList (clearComplete (getyx s)).win r.1 r.2.listed).alike_move
    (hclear.inside hs)
  rw [hclear.cury, hclear.curx] at hmove
  exact (hclear.trans hmove).clrtoeol

/-! ### One key -/

theorem mirrored_endLine_iff (h : Mirrored s) (hs : s.win.Inside) :
    Mirrored (endLine s) ↔ RoomBelow s := by
  have hclear := alike_clearComplete hs
  have hshown : (endLine s).win.shown = if s.win.cury < s.win.maxy then [] else s.win.shown := by
    rw [endLine, shown_addch, if_neg (fun h => h.1 rfl), hclear.cury, hclear.maxy, hclear.shown]
  have htext : (endLine s).text = [] := rfl
  rw [Mirrored, htext, hshown, RoomBelow, ← h.shown_eq_nil_iff]
  split_ifs with hroom
  · simp [hroom]
  · rw [or_iff_right hroom, eq_comm]

theorem mirrored_listWords (h : Mirrored s) (hs : s.win.Inside) (hlist : listWords m root s = some t) :
    Mirrored t := by
  have halike := alike_listWords hs hlist
  obtain ⟨r, -, rfl⟩ := listWords_eq_some hlist
  rw [Mirrored, halike.shown]
  exact (map_update_range s.op s.k _).trans h

/-- Where `find_space` stops: at a space, or at the start of the row. -/
theorem findSpace_spec (row : ℕ → Char) (n : ℕ) :
    findSpace row n = 0 ∨ (findSpace row n < n ∧ row (findSpace row n) = ' ') := by
  induction n with
  | zero => exact Or.inl rfl
  | succ n ih =>
      rw [findSpace]
      split_ifs with hspace
      · exact Or.inr ⟨Nat.lt_succ_self n, hspace⟩
      · exact ih.imp_right fun h => ⟨h.1.trans (Nat.lt_succ_self n), h.2⟩

/-- **The word is replaced from its start**: there is no word before the column `x0`. -/
theorem wordStart_spec (s : Engine) :
    wordStart s ≤ s.x ∧ lastWord ((List.range (wordStart s)).map (s.win.cells s.y)) = [] := by
  by_cases hzero : findSpace (s.win.cells s.y) s.x = 0
  · have hstart : wordStart s = 0 := by
      rw [wordStart, hzero, if_neg (not_not.2 rfl)]
    rw [hstart]
    exact ⟨Nat.zero_le _, rfl⟩
  · obtain ⟨hlt, hspace⟩ := (findSpace_spec (s.win.cells s.y) s.x).resolve_left hzero
    have hstart : wordStart s = findSpace (s.win.cells s.y) s.x + 1 := if_pos hzero
    rw [hstart, List.range_succ, List.map_append, List.map_singleton, hspace,
      lastWord_append_singleton, typed_space]
    exact ⟨hlt, rfl⟩

theorem mirrored_insertWord_iff (hs : Placed s) (w : Text) :
    Mirrored (insertWord s w) ↔ Fitting s w := by
  obtain ⟨hle, hnone⟩ := wordStart_spec s
  have hcolumn : wordStart s ≤ s.win.maxx := hle.trans hs.column
  set v := (s.win.move s.y (wordStart s)).clrtoeol with hv
  have hcurx : v.curx = wordStart s := (move_of_le hs.row hcolumn).2
  have hmaxx : v.maxx = s.win.maxx := maxx_move _ _ _
  have hshown : v.shown = [] := by
    rw [hv, Window.shown, left_clrtoeol, left_move hs.row hcolumn, hnone]
  have hword := shown_foldl_addch v w (by rw [hcurx, hmaxx]; exact hcolumn)
  rw [hcurx, hmaxx, hshown, List.nil_append, List.length_nil, Nat.zero_add] at hword
  have htext : (insertWord s w).text = (List.range w.length).map s.op := rfl
  have hwin : (insertWord s w).win = w.foldl (fun w c => (w.addch c).1) v := rfl
  rw [Mirrored, Fitting, htext, hwin]
  split_ifs at hword with hfits
  · rw [hword, and_iff_right hfits]
  · -- the word on the screen is too short
    refine iff_of_false ?_ fun h => hfits h.1
    intro heq
    rw [← heq, List.length_map, List.length_range] at hword
    exact lt_irrefl _ hword

theorem mirrored_backspaceKey_iff (h : Mirrored s) (hs : s.win.Inside) :
    Mirrored (backspaceKey s) ↔ (s.k = 0 → lastWord s.win.left.dropLast = []) := by
  have hleft : (backspaceKey s).win.left = s.win.left.dropLast := by
    rw [show (backspaceKey s).win = (backspace s).win from rfl, backspace, left_delch]
    split_ifs with hpos
    · exact left_move_pred hs
    · rw [left_of_zero (by omega), List.dropLast_nil]
  have htext : (backspaceKey s).text = s.text.dropLast := by
    rw [Engine.text, Engine.text, ← List.map_dropLast, List.dropLast_eq_take, List.length_range,
      List.take_range, min_eq_left (Nat.sub_le _ _)]
    rfl
  rw [Mirrored, Window.shown, hleft, htext, h]
  by_cases hk : s.k = 0
  · rw [h.shown_eq_nil_iff.2 hk, List.dropLast_nil, eq_comm]
    exact (imp_iff_right hk).symm
  · have hne : s.win.shown ≠ [] := fun hnil => hk (h.shown_eq_nil_iff.1 hnil)
    exact iff_of_true (lastWord_dropLast hne).symm fun h => absurd h hk

theorem mirrored_charKey_iff (h : Mirrored s) (hch : ch ≠ '\n') :
    Mirrored (charKey s ch) ↔ s.win.curx < s.win.maxx ∨ (ch = ' ' ∧ RoomBelow s) := by
  have htext : (charKey s ch).text = typed s.text ch := by
    rw [Engine.text, charKey, typed]
    by_cases hspace : ch = ' '
    · simp [hspace]
    · simp only [ne_eq, hspace, not_false_eq_true, if_true, if_false]
      rw [List.range_succ, List.map_append, map_update_range, List.map_singleton,
        Function.update_self, Engine.text]
  rw [Mirrored, htext, charKey, shown_addch, h]
  by_cases hroom : s.win.curx < s.win.maxx
  · rw [if_pos ⟨hch, hroom⟩]
    exact iff_of_true rfl (Or.inl hroom)
  · rw [if_neg (fun h => hroom h.2), or_iff_right hroom, RoomBelow, ← h.shown_eq_nil_iff, typed]
    by_cases hspace : ch = ' '
    · rw [if_pos hspace, and_iff_right hspace]
      split_ifs with hbelow
      · simp [hbelow]
      · rw [or_iff_right hbelow, eq_comm]
    · rw [if_neg hspace]
      refine iff_of_false ?_ fun h => hspace h.1
      split_ifs <;> simp
/-! ### All keys -/

theorem pos_pressed (hpress : Pressed m root s ch t) (hpos : s.pos = none) : t.pos = none := by
  cases hpress with
  | enter => exact hpos
  | leave hcheck hselect => exact hpos
  | insert dupOp hcheck hselect => exact hpos
  | list _ hcheck hlist =>
      obtain ⟨r, -, rfl⟩ := listWords_eq_some hlist
      exact hpos
  | back => rfl
  | char ch hne => rfl

/-- The positions stay in the window when its size does. -/
theorem Placed.draw (h : Placed s) (hinside : t.win.Inside) (hmaxy : t.win.maxy = s.win.maxy)
    (hmaxx : t.win.maxx = s.win.maxx) (hy : t.y = s.y) (hx : t.x ≤ s.x) : Placed t := by
  refine ⟨hinside, ?_, ?_⟩
  · rw [hy, hmaxy]
    exact h.row
  · rw [hmaxx]
    exact hx.trans h.column

theorem placed_getyx (h : s.win.Inside) : Placed (getyx s) := ⟨h, h.row, h.column⟩

theorem placed_clearComplete (h : s.win.Inside) : Placed (clearComplete (getyx s)) := by
  have hclear := alike_clearComplete h
  exact (placed_getyx h).draw (hclear.inside h) hclear.maxy hclear.maxx rfl le_rfl

theorem placed_endLine (h : s.win.Inside) : Placed (endLine s) := by
  have hclear := placed_clearComplete h
  exact hclear.draw (hclear.inside.addch '\n') (maxy_addch _ _) (maxx_addch _ _) rfl le_rfl

theorem placed_insertWord (h : Placed s) (w : Text) : Placed (insertWord s w) := by
  have hmove := h.inside.move s.y (wordStart s)
  have hline : (s.win.move s.y (wordStart s)).clrtoeol.Inside := ⟨hmove.row, hmove.column⟩
  obtain ⟨hmaxy, hmaxx⟩ := size_foldl_addch (s.win.move s.y (wordStart s)).clrtoeol w
  exact h.draw (hline.foldl_addch w) (hmaxy.trans (maxy_move _ _ _)) (hmaxx.trans (maxx_move _ _ _))
    rfl (wordStart_spec s).1

theorem placed_listWords (h : s.win.Inside) (hlist : listWords m root s = some t) : Placed t := by
  have halike := alike_listWords h hlist
  obtain ⟨r, -, rfl⟩ := listWords_eq_some hlist
  exact (placed_getyx h).draw (halike.inside h) halike.maxy halike.maxx rfl le_rfl

theorem placed_backspaceKey (h : s.win.Inside) : Placed (backspaceKey s) := by
  by_cases hpos : 0 < s.win.curx
  · have hwin : (backspaceKey s).win = (s.win.move s.win.cury (s.win.curx - 1)).delch :=
      congrArg Window.delch (if_pos hpos)
    have hmove := h.move s.win.cury (s.win.curx - 1)
    refine (placed_getyx h).draw ?_ ?_ ?_ rfl le_rfl
    · rw [hwin]
      exact ⟨hmove.row, hmove.column⟩
    · rw [hwin]
      exact maxy_move _ _ _
    · rw [hwin]
      exact maxx_move _ _ _
  · have hwin : (backspaceKey s).win = s.win.delch := congrArg Window.delch (if_neg hpos)
    refine (placed_getyx h).draw ?_ ?_ ?_ rfl le_rfl <;> rw [hwin]
    · exact ⟨h.row, h.column⟩
    · rfl
    · rfl

theorem placed_charKey (h : Placed s) (ch : Char) : Placed (charKey s ch) :=
  h.draw (h.inside.addch ch) (maxy_addch _ _) (maxx_addch _ _) rfl le_rfl

theorem placed_spaceKey (h : s.win.Inside) : Placed (spaceKey s) := by
  have hclear := placed_clearComplete h
  exact hclear.draw hclear.inside rfl rfl rfl le_rfl

theorem placed_pressed (h : Placed s) (hpress : Pressed m root s ch t) : Placed t := by
  cases hpress with
  | enter => exact placed_endLine h.inside
  | leave hcheck hselect => exact placed_endLine h.inside
  | insert dupOp hcheck hselect => exact placed_insertWord h dupOp
  | list _ hcheck hlist => exact placed_listWords h.inside hlist
  | back => exact placed_backspaceKey h.inside
  | char ch hne =>
      split_ifs
      · exact placed_charKey (placed_spaceKey h.inside) ch
      · exact placed_charKey h ch

/-- A space after a list first clears the list. -/
theorem mirrored_spaceKey_iff (h : Mirrored s) (hs : s.win.Inside) (hch : ch ≠ '\n') :
    Mirrored (charKey (spaceKey s) ch) ↔
      s.win.curx < s.win.maxx ∨ (ch = ' ' ∧ RoomBelow s) := by
  have hclear := alike_clearComplete hs
  have hspace : Mirrored (spaceKey s) := h.trans hclear.shown.symm
  have hwin : (spaceKey s).win = (clearComplete (getyx s)).win := rfl
  have hk : (spaceKey s).k = s.k := rfl
  rw [mirrored_charKey_iff hspace hch, RoomBelow, RoomBelow, hwin, hk, hclear.curx, hclear.maxx,
    hclear.cury, hclear.maxy]

theorem mirrored_step (m : Allocator) (root : Node) (s : Engine) (ch : Char) (t : Engine)
    (hpos : s.pos = none) (hs : Placed s) (h : Mirrored s) (hstep : keyStep m root s ch = some t) :
    Mirrored t ↔ Mirroring s ch := by
  obtain ⟨hended, hpress⟩ := pressed_of_keyStep hpos hstep
  have hclear : Placed { s with inserted := none } := ⟨hs.inside, hs.row, hs.column⟩
  have hmirrored : Mirrored { s with inserted := none } := h
  rw [Mirroring, imp_iff_right hended]
  cases hpress with
  | enter =>
      rw [if_pos rfl]
      exact mirrored_endLine_iff hmirrored hs.inside
  | leave hcheck hselect =>
      rw [if_neg (by decide), if_pos rfl, imp_iff_right hcheck, show selectWord s = none from hselect]
      exact mirrored_endLine_iff hmirrored hs.inside
  | insert dupOp hcheck hselect =>
      rw [if_neg (by decide), if_pos rfl, imp_iff_right hcheck,
        show selectWord s = some dupOp from hselect]
      exact mirrored_insertWord_iff hclear dupOp
  | list _ hcheck hlist =>
      rw [if_neg (by decide), if_pos rfl]
      refine iff_of_true (mirrored_listWords hmirrored hs.inside hlist) fun htrue => ?_
      cases hcheck.symm.trans htrue
  | back =>
      rw [if_neg (by decide), if_neg (by decide), if_pos rfl]
      exact mirrored_backspaceKey_iff hmirrored hs.inside
  | char ch hne =>
      rw [if_neg hne.1, if_neg hne.2.1, if_neg hne.2.2]
      by_cases hspace : ch = ' ' ∧ s.tabCheck = true
      · rw [if_pos hspace]
        exact mirrored_spaceKey_iff hmirrored hs.inside hne.1
      · rw [if_neg hspace]
        exact mirrored_charKey_iff hmirrored hne.1

end Mirrored

/-- **The buffer has what the screen shows.**  For every dictionary, every size of the window and every
sequence of keys, after each key `op[0..k)` is the text between the last space before the cursor and
the cursor, exactly if every key meets the condition `Mirroring`. -/
theorem mirrored_iff (m : Allocator) (root : Node) (maxy maxx : ℕ) (op : ℕ → Char) (arr : ℕ → Text)
    (keys : List Char) :
    Throughout (keyStep m root) Mirrored (Engine.init maxy maxx op arr) keys ↔
      Along (keyStep m root) Mirroring (Engine.init maxy maxx op arr) keys := by
  refine throughout_iff_along_of_none (I := fun s => s.pos = none ∧ Placed s) ?_ ?_ keys
    ⟨rfl, ⟨Nat.zero_le _, Nat.zero_le _⟩, Nat.zero_le _, Nat.zero_le _⟩ rfl
  · rintro s ch t ⟨hpos, hs⟩ h hstep
    refine ⟨mirrored_step m root s ch t hpos hs h hstep, fun _ => ?_⟩
    obtain ⟨-, hpress⟩ := pressed_of_keyStep hpos hstep
    have hclear : Placed { s with inserted := none } := ⟨hs.inside, hs.row, hs.column⟩
    exact ⟨pos_pressed hpress hpos, placed_pressed hclear hpress⟩
  · rintro s ch ⟨hpos, -⟩ hnone hended
    rcases keyStep_eq_none hpos hnone with htrue | ⟨rfl, hfalse⟩
    · cases hended.symm.trans htrue
    · rw [if_neg (by decide), if_pos rfl]
      intro htrue
      cases hfalse.symm.trans htrue

/-- A backspace over a space shows the word before it again, but the buffer is empty; and a Tab shows
a word that the buffer does not have. -/
theorem not_mirrored :
    ∃ root, dictionary samples = some root ∧
      (∃ s, run (keyStep glibc root) terminal "a \x7f".toList = some s ∧
        s.text = [] ∧ s.win.shown = "a".toList ∧ ¬ Mirrored s) ∧
      (∃ s, run (keyStep glibc root) terminal "l\t\t".toList = some s ∧
        s.text = "l\x00\x00".toList ∧ s.win.shown = "lol".toList ∧ ¬ Mirrored s) := by
  have hrun : ∀ keys : List Char, ∀ text shown : Text, text ≠ shown →
      (run (keyStep glibc (Trie.insertAll (samples.map encode))) terminal keys).map
        (fun s => (s.text, s.win.shown)) = some (text, shown) →
      ∃ s, run (keyStep glibc (Trie.insertAll (samples.map encode))) terminal keys = some s ∧
        s.text = text ∧ s.win.shown = shown ∧ ¬ Mirrored s := by
    intro keys text shown hne hmap
    obtain ⟨s, hs, heq⟩ := Option.map_eq_some_iff.1 hmap
    obtain ⟨htext, hshown⟩ := Prod.mk.inj heq
    refine ⟨s, hs, htext, hshown, ?_⟩
    intro hmirrored
    exact hne (htext ▸ hshown ▸ hmirrored)
  refine ⟨_, dictionary_eq isLetter_samples, ?_, ?_⟩
  · exact hrun _ _ _ (by decide) (by decide +kernel)
  · exact hrun _ _ _ (by decide) (by decide +kernel)

end Autocomplete
