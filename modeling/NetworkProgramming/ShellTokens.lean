/-
**MyShell: the argument vector and its size.**

Before a line is cut into words, `getArgumentLength` counts them, and `main` allocates that many
slots and one more.  Then the newline is removed and `initArgs` fills the slots, character by
character.  The two functions go through the runs of spaces in different ways, and when the first
word is `daemonize` `initArgs` starts again with the first slot.  This module follows `initArgs` slot
by slot, where a write outside of the vector has no result, and compares it with `Shell.initArgs`,
which is about words, and with the words that a line should have.

`main` asks for one byte for each slot, and `initArgs` does not ask for more.  A slot is therefore a
block of the allocator, and a character behind its end has no result.

Main definitions:

* `Shell.tokens` — the words of a line: runs of spaces are collapsed, and the line is split at the
  spaces that are left;
* `Shell.getArgumentLength` — the function of the source;
* `Shell.ArgVector`, `Shell.argLoop`, `Shell.fillArgs` — the slots, and `initArgs` on them.

Main results:

* `Shell.initArgs_eq` — `initArgs` finds the words of the line, without a leading `daemonize`;
* `Shell.getArgumentLength_eq` — the estimate is the number of words;
* `Shell.argLoop_sim` — the loop on the slots does what the loop on words does;
* `Shell.fillArgs_exact_iff` — **the slots hold the words, and the estimate fits, exactly when** every
  word of the line fits the block of a slot.
-/

import NetworkProgramming.Malloc
import NetworkProgramming.ShellDispatch

set_option relaxedAutoImplicit false
set_option autoImplicit false

namespace Shell

open Malloc

/-! ### The words of a line -/

/-- Every run of spaces is collapsed to one space. -/
def collapse : List Char → List Char
  | [] => []
  | c :: cs => if c = ' ' ∧ cs.head? = some ' ' then collapse cs else c :: collapse cs

/-- **The words of a line.**  A run of spaces at the start or at the end gives an empty word. -/
def tokens (line : List Char) : List Word := (collapse line).splitOn ' '

section Tokens

variable {c : Char} {cs : List Char}

@[simp] theorem tokens_nil : tokens [] = [[]] := rfl

theorem tokens_cons_skip (h : c = ' ' ∧ cs.head? = some ' ') : tokens (c :: cs) = tokens cs := by
  rw [tokens, collapse, if_pos h, tokens]

theorem tokens_cons_space (h : ¬ (c = ' ' ∧ cs.head? = some ' ')) (hc : c = ' ') :
    tokens (c :: cs) = [] :: tokens cs := by
  rw [tokens, collapse, if_neg h, List.splitOn, List.splitOnP_cons_eq_if_modifyHead,
    if_pos (by simpa using hc)]
  rfl

theorem tokens_cons_char (h : ¬ (c = ' ' ∧ cs.head? = some ' ')) (hc : c ≠ ' ') :
    tokens (c :: cs) = (tokens cs).modifyHead (List.cons c) := by
  rw [tokens, collapse, if_neg h, List.splitOn, List.splitOnP_cons_eq_if_modifyHead,
    if_neg (by simpa using hc)]
  rfl

theorem tokens_ne_nil (line : List Char) : tokens line ≠ [] := List.splitOnP_ne_nil _ _

theorem length_tokens_pos (line : List Char) : 0 < (tokens line).length :=
  List.length_pos_iff.2 (tokens_ne_nil line)

end Tokens

/-- Something is put in front of the first word. -/
theorem modifyHead_append_cons (ws : List Word) (cur : Word) (c : Char) :
    (ws.modifyHead (List.cons c)).modifyHead (cur ++ ·) = ws.modifyHead (cur ++ [c] ++ ·) := by
  cases ws with
  | nil => rfl
  | cons w ws => simp

/-- Once the first word is known not to be `daemonize`, or to have been it, the loop of `initArgs`
adds the words that are left. -/
theorem initArgsLoop_eq (cs : List Char) (done : List Word) (cur : Word) (daemon : Bool)
    (h : done ≠ [] ∨ daemon = true) :
    initArgsLoop cs done cur daemon = (done ++ (tokens cs).modifyHead (cur ++ ·), daemon) := by
  induction cs generalizing done cur with
  | nil => simp [initArgsLoop]
  | cons c cs ih =>
      rw [initArgsLoop]
      split_ifs with hskip hspace hdaemon
      · rw [tokens_cons_skip hskip, ih done cur h]
      · rcases h with h | h
        · exact absurd hdaemon.1 h
        · simp [h] at hdaemon
      · rw [tokens_cons_space hskip hspace, ih _ _ (Or.inl (by simp))]
        obtain ⟨w, ws, hws⟩ := List.exists_cons_of_ne_nil (tokens_ne_nil cs)
        simp [hws]
      · rw [tokens_cons_char hskip hspace, modifyHead_append_cons, ih done (cur ++ [c]) h]

/-- The words that `initArgs` makes of a list of words. -/
def dropDaemonize (ws : List Word) : List Word × Bool :=
  if ws.length ≠ 1 ∧ ws.head? = some "daemonize".toList then (ws.tail, true) else (ws, false)

/-- The loop of `initArgs` in the first word. -/
theorem initArgsLoop_first (cs : List Char) (cur : Word) :
    initArgsLoop cs [] cur false = dropDaemonize ((tokens cs).modifyHead (cur ++ ·)) := by
  induction cs generalizing cur with
  | nil => simp [initArgsLoop, dropDaemonize]
  | cons c cs ih =>
      rw [initArgsLoop]
      split_ifs with hskip hspace hdaemon
      · rw [tokens_cons_skip hskip, ih cur]
      · -- the first word ends here, and it is `daemonize`
        rw [tokens_cons_space hskip hspace, initArgsLoop_eq _ _ _ _ (Or.inr rfl), dropDaemonize,
          if_pos]
        · obtain ⟨w, ws, hws⟩ := List.exists_cons_of_ne_nil (tokens_ne_nil cs)
          simp [hws]
        · simp [hdaemon.2.2]
          exact tokens_ne_nil cs
      · -- the first word ends here, and it is not
        have hcur : cur ≠ "daemonize".toList := fun heq => hdaemon ⟨rfl, rfl, heq⟩
        rw [tokens_cons_space hskip hspace, initArgsLoop_eq _ _ _ _ (Or.inl (by simp)),
          dropDaemonize, if_neg]
        · obtain ⟨w, ws, hws⟩ := List.exists_cons_of_ne_nil (tokens_ne_nil cs)
          simp [hws]
        · simpa using fun _ => hcur
      · rw [tokens_cons_char hskip hspace, modifyHead_append_cons, ih (cur ++ [c])]

/-- **`initArgs` finds the words of the line**, without a leading `daemonize`. -/
theorem initArgs_eq (line : List Char) : initArgs line false = dropDaemonize (tokens line) := by
  rw [initArgs, initArgsLoop_first]
  obtain ⟨w, ws, hws⟩ := List.exists_cons_of_ne_nil (tokens_ne_nil line)
  simp [hws]

/-! ### The estimate -/

/-- The loop of `getArgumentLength`, with `count` so far. -/
def argumentLoop : List Char → ℕ → ℕ
  | [], count => count
  | c :: cs, count =>
      argumentLoop cs (if c = ' ' ∧ cs.head? ≠ some ' ' ∧ cs.head? ≠ none then count + 1 else count)

/-- `getArgumentLength`. -/
def getArgumentLength (command : List Char) : ℕ := argumentLoop command 1

theorem argumentLoop_eq (line : List Char) (count : ℕ) :
    argumentLoop (line ++ ['\n']) (count + 1) = count + (tokens line).length := by
  induction line generalizing count with
  | nil => simp [argumentLoop]
  | cons c cs ih =>
      rw [List.cons_append, argumentLoop]
      have hhead : (cs ++ ['\n']).head? = some ' ' ↔ cs.head? = some ' ' := by
        cases cs <;> simp
      have hnone : (cs ++ ['\n']).head? ≠ none := by cases cs <;> simp
      by_cases hskip : c = ' ' ∧ cs.head? = some ' '
      · rw [if_neg (by simp [hskip.2]), ih, tokens_cons_skip hskip]
      · by_cases hspace : c = ' '
        · have hcount : c = ' ' ∧ (cs ++ ['\n']).head? ≠ some ' ' ∧ (cs ++ ['\n']).head? ≠ none :=
            ⟨hspace, fun h => hskip ⟨hspace, hhead.1 h⟩, hnone⟩
          rw [if_pos hcount, ih, tokens_cons_space hskip hspace, List.length_cons]
          omega
        · rw [if_neg (by simp [hspace]), ih, tokens_cons_char hskip hspace, List.length_modifyHead]

/-- **The estimate is the number of words**, although the newline is still there. -/
theorem getArgumentLength_eq (line : List Char) :
    getArgumentLength (line ++ ['\n']) = (tokens line).length := by
  rw [getArgumentLength, argumentLoop_eq, zero_add]

/-! ### The slots -/

/-- The vector: `size` slots, each a null pointer or a buffer. -/
structure ArgVector (β : Type) where
  size : ℕ
  slot : ℕ → Option β

/-- A write to the buffer of the slot `k`. -/
def ArgVector.modify {β : Type} (v : ArgVector β) (k : ℕ) (put : β → Option β) :
    Option (ArgVector β) :=
  if k < v.size then
    (v.slot k).bind fun buf =>
      (put buf).map fun buf => { v with slot := Function.update v.slot k (some buf) }
  else none

/-- `argVector[k] = 0`. -/
def ArgVector.setNull {β : Type} (v : ArgVector β) (k : ℕ) : Option (ArgVector β) :=
  if k < v.size then some { v with slot := Function.update v.slot k none } else none

/-- The vector that `main` allocates, with `malloc(sizeof(char))` for each slot; the blocks are not
initialised. -/
def ArgVector.alloc (m : Allocator) (argLength : ℕ) (junk : ℕ → ℕ → Char) : ArgVector (Block Char) :=
  ⟨argLength + 1, fun k => some ⟨m.usable 1, junk k⟩⟩

/-- `argVector[count][j] = c`. -/
def ArgVector.write (v : ArgVector (Block Char)) (count j : ℕ) (c : Char) :
    Option (ArgVector (Block Char)) :=
  v.modify count fun buf => buf.write j c

/-- The block holds this string. -/
def IsString (buf : Block Char) (w : Word) : Prop :=
  (∀ k < w.length, w[k]? = some (buf.cell k)) ∧ buf.cell w.length = '\x00'

instance (buf : Block Char) (w : Word) : Decidable (IsString buf w) :=
  inferInstanceAs (Decidable (_ ∧ _))

/-- `strcmp(argVector[k], w) == 0`. -/
def ArgVector.strcmp (v : ArgVector (Block Char)) (k : ℕ) (w : Word) : Bool :=
  match v.slot k with
  | none => false
  | some buf => IsString buf w

/-- The loop of `initArgs` on the slots.  For a leading `daemonize`, `count` is set to `-1` and
incremented. -/
def argLoop : List Char → ArgVector (Block Char) → ℕ → ℕ → Bool →
    Option (ArgVector (Block Char) × ℕ × ℕ × Bool)
  | [], v, count, j, daemon => some (v, count, j, daemon)
  | c :: cs, v, count, j, daemon =>
      if c = ' ' ∧ cs.head? = some ' ' then argLoop cs v count j daemon
      else if c = ' ' then
        (v.write count j '\x00').bind fun v =>
          if count = 0 ∧ daemon = false ∧ v.strcmp 0 "daemonize".toList then argLoop cs v 0 0 true
          else argLoop cs v (count + 1) 0 daemon
      else (v.write count j c).bind fun v => argLoop cs v count (j + 1) daemon

/-- `initArgs` on the slots: the vector, `count` and `is_daemon`. -/
def fillArgs (buffer : List Char) (v : ArgVector (Block Char)) (daemon : Bool) :
    Option (ArgVector (Block Char) × ℕ × Bool) :=
  (argLoop buffer v 0 0 daemon).bind fun (v, count, j, daemon) =>
    (v.write count j '\x00').bind fun v =>
      (v.setNull (count + 1)).map fun v => (v, count, daemon)

/-- The slots hold the words `done`, and the next one the start `cur` of a word.  All slots have
blocks of `n` bytes. -/
structure Filled (n : ℕ) (v : ArgVector (Block Char)) (done : List Word) (cur : Word) : Prop where
  live : ∀ k < v.size, ∃ buf, v.slot k = some buf ∧ buf.size = n
  words : ∀ k w, done[k]? = some w → ∃ buf, v.slot k = some buf ∧ IsString buf w
  start : ∀ buf, v.slot done.length = some buf → ∀ k < cur.length, cur[k]? = some (buf.cell k)

section Slots

variable {n : ℕ} {v v' : ArgVector (Block Char)} {done : List Word} {cur : Word}

/-- A write into a slot of the vector, inside of its block. -/
theorem Filled.write (h : Filled n v done cur) (hlt : done.length < v.size) {j : ℕ} (hj : j < n)
    (c : Char) :
    ∃ buf, v.slot done.length = some buf ∧ buf.size = n ∧
      v.write done.length j c =
        some { v with slot := Function.update v.slot done.length
                        (some ⟨n, Function.update buf.cell j c⟩) } := by
  obtain ⟨buf, hbuf, hsize⟩ := h.live _ hlt
  refine ⟨buf, hbuf, hsize, ?_⟩
  rw [ArgVector.write, ArgVector.modify, if_pos hlt, hbuf, Option.bind_some,
    Block.write_of_lt (hsize ▸ hj), hsize, Option.map_some]

/-- The slots that hold blocks still do after a write. -/
theorem Filled.live_update (h : Filled n v done cur) (count : ℕ) (cell : ℕ → Char) :
    ∀ k < v.size,
      ∃ buf', Function.update v.slot count (some ⟨n, cell⟩) k = some buf' ∧ buf'.size = n := by
  intro k hk
  rcases eq_or_ne k count with rfl | hne
  · exact ⟨⟨n, cell⟩, Function.update_self .., rfl⟩
  · rw [Function.update_of_ne hne]
    exact h.live k hk

/-- The words that are finished are not touched by a write into the next slot. -/
theorem Filled.words_update (h : Filled n v done cur) (buf : Block Char) :
    ∀ k w, done[k]? = some w →
      ∃ buf', Function.update v.slot done.length (some buf) k = some buf' ∧ IsString buf' w := by
  intro k w hk
  have hlt : k < done.length := (List.getElem?_eq_some_iff.1 hk).1
  rw [Function.update_of_ne hlt.ne]
  exact h.words k w hk

/-- A character is added to the word. -/
theorem Filled.push (h : Filled n v done cur) (hlt : done.length < v.size) (hcur : cur.length < n)
    (c : Char) :
    ∃ v', v.write done.length cur.length c = some v' ∧ v'.size = v.size ∧
      Filled n v' done (cur ++ [c]) := by
  obtain ⟨buf, hbuf, -, hwrite⟩ := h.write hlt hcur c
  refine ⟨_, hwrite, rfl, h.live_update _ _, h.words_update _, ?_⟩
  intro buf' hbuf' k hk
  obtain rfl : (⟨n, Function.update buf.cell cur.length c⟩ : Block Char) = buf' := by
    simpa using hbuf'
  dsimp only
  rcases Nat.lt_or_ge k cur.length with hk' | hk'
  · rw [List.getElem?_append_left hk', Function.update_of_ne hk'.ne]
    exact h.start buf hbuf k hk'
  · obtain rfl : k = cur.length := by
      rw [List.length_append, List.length_singleton] at hk
      omega
    rw [List.getElem?_concat_length, Function.update_self]

/-- The word is finished. -/
theorem Filled.finish (h : Filled n v done cur) (hlt : done.length < v.size) (hcur : cur.length < n) :
    ∃ v' buf, v.write done.length cur.length '\x00' = some v' ∧ v'.size = v.size ∧
      v'.slot done.length = some buf ∧ IsString buf cur ∧ Filled n v' (done ++ [cur]) [] := by
  obtain ⟨buf, hbuf, -, hwrite⟩ := h.write hlt hcur '\x00'
  have hstring : IsString ⟨n, Function.update buf.cell cur.length '\x00'⟩ cur := by
    refine ⟨?_, Function.update_self ..⟩
    intro k hk
    dsimp only
    rw [Function.update_of_ne hk.ne]
    exact h.start buf hbuf k hk
  refine ⟨_, ⟨n, Function.update buf.cell cur.length '\x00'⟩, hwrite, rfl, Function.update_self ..,
    hstring, h.live_update _ _, ?_, ?_⟩
  · intro k w hk
    rcases Nat.lt_or_ge k done.length with hk' | hk'
    · rw [List.getElem?_append_left hk'] at hk
      exact h.words_update _ k w hk
    · have hlen := (List.getElem?_eq_some_iff.1 hk).1
      rw [List.length_append, List.length_singleton] at hlen
      obtain rfl : k = done.length := by omega
      rw [List.getElem?_concat_length] at hk
      obtain rfl := Option.some_inj.1 hk
      exact ⟨_, Function.update_self .., hstring⟩
  · intro _ _ k hk
    exact absurd hk (Nat.not_lt_zero k)

/-- A block that holds a word without zeros compares equal to that word alone. -/
theorem isString_iff {buf : Block Char} {w w' : Word} (h : IsString buf w) (hw : '\x00' ∉ w)
    (hw' : '\x00' ∉ w') : IsString buf w' ↔ w = w' := by
  constructor
  · intro h'
    -- the shorter word ends where the longer one has a character that is not zero
    have hle : ∀ {u u' : Word}, IsString buf u → IsString buf u' → '\x00' ∉ u' →
        u'.length ≤ u.length := by
      intro u u' hu hu' hnul
      by_contra hlt
      have hmem := List.mem_of_getElem? (hu'.1 u.length (by omega))
      rw [hu.2] at hmem
      exact hnul hmem
    have hlen : w.length = w'.length := le_antisymm (hle h' h hw) (hle h h' hw')
    refine List.ext_getElem? ?_
    intro k
    rcases Nat.lt_or_ge k w.length with hk | hk
    · rw [h.1 k hk, h'.1 k (hlen ▸ hk)]
    · rw [List.getElem?_eq_none hk, List.getElem?_eq_none (hlen ▸ hk)]
  · rintro rfl
    exact h

/-- The first slot is compared with `daemonize` when it has just been finished. -/
theorem daemonize_iff (daemon : Bool) {buf : Block Char} (hslot : v.slot done.length = some buf)
    (hstring : IsString buf cur) (hcur : '\x00' ∉ cur) :
    (done.length = 0 ∧ daemon = false ∧ v.strcmp 0 "daemonize".toList = true) ↔
      done = [] ∧ daemon = false ∧ cur = "daemonize".toList := by
  rw [List.length_eq_zero_iff]
  refine and_congr_right ?_
  rintro rfl
  refine and_congr_right ?_
  intro _
  have hzero : v.slot 0 = some buf := hslot
  simp only [ArgVector.strcmp, hzero, decide_eq_true_eq]
  exact isString_iff hstring hcur (by decide)

/-- The words that the loop has still to write, the first of which begins with `cur`. -/
def pending (cs : List Char) (cur : Word) : List Word := (tokens cs).modifyHead (cur ++ ·)

theorem mem_pending_of_prefix (cs : List Char) (cur : Word) :
    ∃ w ∈ pending cs cur, cur.length ≤ w.length := by
  obtain ⟨w, ws, hws⟩ := List.exists_cons_of_ne_nil (tokens_ne_nil cs)
  refine ⟨cur ++ w, ?_, by simp⟩
  rw [pending, hws]
  exact List.mem_cons_self ..

theorem pending_nil_right (cs : List Char) : pending cs [] = tokens cs := by
  obtain ⟨w, ws, hws⟩ := List.exists_cons_of_ne_nil (tokens_ne_nil cs)
  rw [pending, hws]
  rfl

theorem pending_skip {c : Char} {cs : List Char} (h : c = ' ' ∧ cs.head? = some ' ') (cur : Word) :
    pending (c :: cs) cur = pending cs cur := by
  rw [pending, tokens_cons_skip h, pending]

theorem pending_space {c : Char} {cs : List Char} (h : ¬ (c = ' ' ∧ cs.head? = some ' '))
    (hc : c = ' ') (cur : Word) : pending (c :: cs) cur = cur :: pending cs [] := by
  rw [pending, tokens_cons_space h hc, pending_nil_right]
  simp

theorem pending_char {c : Char} {cs : List Char} (h : ¬ (c = ' ' ∧ cs.head? = some ' '))
    (hc : c ≠ ' ') (cur : Word) : pending (c :: cs) cur = pending cs (cur ++ [c]) := by
  rw [pending, tokens_cons_char h hc, modifyHead_append_cons, pending]

/-- **The loop on the slots does what the loop on words does**, as long as there is a slot for every
word and one more, and every word fits its slot. -/
theorem argLoop_sim (cs : List Char) (v : ArgVector (Block Char)) (done : List Word)
    (cur : Word) (daemon : Bool)
    (h : Filled n v done cur) (hsize : done.length + (tokens cs).length < v.size)
    (hfit : ∀ w ∈ pending cs cur, w.length < n) (hnul : '\x00' ∉ cs) (hcur : '\x00' ∉ cur) :
    ∃ v' done' cur', argLoop cs v done.length cur.length daemon =
        some (v', done'.length, cur'.length, (initArgsLoop cs done cur daemon).2) ∧
      (initArgsLoop cs done cur daemon).1 = done' ++ [cur'] ∧ Filled n v' done' cur' ∧
      v'.size = v.size ∧ done'.length + 1 < v.size ∧ cur'.length < n := by
  induction cs generalizing v done cur daemon with
  | nil =>
      obtain ⟨w, hw, hle⟩ := mem_pending_of_prefix [] cur
      exact ⟨v, done, cur, rfl, rfl, h, rfl, hsize, hle.trans_lt (hfit w hw)⟩
  | cons c cs ih =>
      have hpos := length_tokens_pos (c :: cs)
      have hlt : done.length < v.size := by omega
      obtain ⟨hc, hcs⟩ := not_or.1 (fun hmem => hnul (List.mem_cons.2 hmem))
      have hroom : cur.length < n := by
        obtain ⟨w, hw, hle⟩ := mem_pending_of_prefix (c :: cs) cur
        exact hle.trans_lt (hfit w hw)
      rw [argLoop, initArgsLoop]
      by_cases hskip : c = ' ' ∧ cs.head? = some ' '
      · rw [if_pos hskip, if_pos hskip]
        rw [tokens_cons_skip hskip] at hsize
        rw [pending_skip hskip] at hfit
        exact ih v done cur daemon h hsize hfit hcs hcur
      · rw [if_neg hskip, if_neg hskip]
        by_cases hspace : c = ' '
        · rw [if_pos hspace, if_pos hspace]
          rw [tokens_cons_space hskip hspace, List.length_cons] at hsize
          rw [pending_space hskip hspace, List.forall_mem_cons] at hfit
          obtain ⟨v', buf, hwrite, hsize', hslot, hstring, hfilled⟩ := h.finish hlt hroom
          rw [hwrite, Option.bind_some, ← hsize']
          have hguard := daemonize_iff daemon hslot hstring hcur
          by_cases hdaemon : done = [] ∧ daemon = false ∧ cur = "daemonize".toList
          · rw [if_pos (hguard.2 hdaemon), if_pos hdaemon]
            refine ih v' [] [] true ⟨hfilled.live, ?_, ?_⟩ ?_ hfit.2 hcs List.not_mem_nil
            · intro k w hk
              cases hk
            · intro _ _ k hk
              exact absurd hk (Nat.not_lt_zero k)
            · rw [List.length_nil, hsize']
              omega
          · rw [if_neg (fun hg => hdaemon (hguard.1 hg)), if_neg hdaemon]
            have hlen : (done ++ [cur]).length = done.length + 1 := by simp
            rw [← hlen]
            refine ih v' (done ++ [cur]) [] daemon hfilled ?_ hfit.2 hcs List.not_mem_nil
            rw [hlen, hsize']
            omega
        · rw [if_neg hspace, if_neg hspace]
          rw [tokens_cons_char hskip hspace, List.length_modifyHead] at hsize
          rw [pending_char hskip hspace] at hfit
          obtain ⟨v', hwrite, hsize', hfilled⟩ := h.push hlt hroom c
          rw [hwrite, Option.bind_some, ← hsize']
          have hlen : cur.length + 1 = (cur ++ [c]).length := by simp
          rw [hlen]
          refine ih v' done (cur ++ [c]) daemon hfilled (by rw [hsize']; exact hsize) hfit hcs ?_
          rintro hmem
          rcases List.mem_append.1 hmem with hmem | hmem
          · exact hcur hmem
          · exact hc (List.mem_singleton.1 hmem)

/-- All blocks have `n` bytes. -/
def Sized (n : ℕ) (v : ArgVector (Block Char)) : Prop := ∀ k buf, v.slot k = some buf → buf.size = n

/-- A write that has a result is inside of the block. -/
theorem Sized.of_write (h : Sized n v) {count j : ℕ} {c : Char}
    (hwrite : v.write count j c = some v') : j < n ∧ Sized n v' := by
  rw [ArgVector.write, ArgVector.modify] at hwrite
  split_ifs at hwrite with hlt
  obtain ⟨buf, hbuf, hwrite⟩ := Option.bind_eq_some_iff.1 hwrite
  obtain ⟨buf', hput, rfl⟩ := Option.map_eq_some_iff.1 hwrite
  have hsize := h count buf hbuf
  refine ⟨hsize ▸ (Block.write_eq_some_iff.1 hput).1, ?_⟩
  intro k b hk
  rcases eq_or_ne k count with rfl | hne
  · dsimp only at hk
    rw [Function.update_self] at hk
    rw [← Option.some_inj.1 hk, Block.size_of_write hput, hsize]
  · dsimp only at hk
    rw [Function.update_of_ne hne] at hk
    exact h k b hk

/-- When the loop has a result, the words that it finished fit, and the last one is left. -/
theorem argLoop_short (cs : List Char) (v : ArgVector (Block Char)) (count : ℕ) (cur : Word)
    (daemon : Bool) (h : Sized n v) {r : ArgVector (Block Char) × ℕ × ℕ × Bool}
    (hloop : argLoop cs v count cur.length daemon = some r) :
    Sized n r.1 ∧ ∀ w ∈ pending cs cur, w.length < n ∨ w.length = r.2.2.1 := by
  induction cs generalizing v count cur daemon with
  | nil =>
      obtain rfl := Option.some_inj.1 hloop
      refine ⟨h, fun w hw => Or.inr ?_⟩
      have hw' : w = cur := by simpa [pending] using hw
      rw [hw']
  | cons c cs ih =>
      rw [argLoop] at hloop
      by_cases hskip : c = ' ' ∧ cs.head? = some ' '
      · rw [if_pos hskip] at hloop
        rw [pending_skip hskip]
        exact ih v count cur daemon h hloop
      · rw [if_neg hskip] at hloop
        by_cases hspace : c = ' '
        · rw [if_pos hspace] at hloop
          obtain ⟨v', hwrite, hloop⟩ := Option.bind_eq_some_iff.1 hloop
          obtain ⟨hlt, hsized⟩ := h.of_write hwrite
          -- the rest is the same with and without `daemonize`
          have hrest : Sized n r.1 ∧ ∀ w ∈ pending cs [], w.length < n ∨ w.length = r.2.2.1 := by
            split_ifs at hloop
            · exact ih v' 0 [] true hsized hloop
            · exact ih v' (count + 1) [] daemon hsized hloop
          rw [pending_space hskip hspace, List.forall_mem_cons]
          exact ⟨hrest.1, Or.inl hlt, hrest.2⟩
        · rw [if_neg hspace] at hloop
          obtain ⟨v', hwrite, hloop⟩ := Option.bind_eq_some_iff.1 hloop
          have hlen : cur.length + 1 = (cur ++ [c]).length := by simp
          rw [hlen] at hloop
          rw [pending_char hskip hspace]
          exact ih v' count (cur ++ [c]) daemon (h.of_write hwrite).2 hloop

end Slots

/-! ### The vector after `initArgs` -/

/-- `argVector[0..count]` are these words, and `argVector[count + 1]` is null. -/
structure ArgVector.Holds (v : ArgVector (Block Char)) (count : ℕ) (ws : List Word) : Prop where
  length : ws.length = count + 1
  word : ∀ k w, ws[k]? = some w → ∃ buf, v.slot k = some buf ∧ IsString buf w
  null : v.slot (count + 1) = none

section Vector

variable {m : Allocator} {line : List Char}

/-- `initArgs` on the slots finds the words that `Shell.initArgs` finds, if they fit. -/
theorem fillArgs_eq (hnul : '\x00' ∉ line) {argLength : ℕ} (hlen : (tokens line).length ≤ argLength)
    (hfit : ∀ w ∈ tokens line, w.length < m.usable 1) (junk : ℕ → ℕ → Char) :
    ∃ v count, fillArgs line (ArgVector.alloc m argLength junk) false =
        some (v, count, (initArgs line false).2) ∧ v.Holds count (initArgs line false).1 := by
  have hfilled : Filled (m.usable 1) (ArgVector.alloc m argLength junk) [] [] := by
    refine ⟨fun k _ => ⟨_, rfl, rfl⟩, ?_, ?_⟩
    · intro k w hk
      cases hk
    · intro _ _ k hk
      exact absurd hk (Nat.not_lt_zero k)
  have hroom : ([] : List Word).length + (tokens line).length <
      (ArgVector.alloc m argLength junk).size := by
    rw [List.length_nil, zero_add]
    exact Nat.lt_succ_of_le hlen
  rw [← pending_nil_right] at hfit
  obtain ⟨v, done, cur, hloop, hwords, hfill, hsize, hlt, hcur⟩ :=
    argLoop_sim line _ [] [] false hfilled hroom hfit hnul List.not_mem_nil
  obtain ⟨v', -, hwrite, hsize', -, -, hfill'⟩ := hfill.finish (by omega) hcur
  have hnull : v'.setNull (done.length + 1) =
      some { v' with slot := Function.update v'.slot (done.length + 1) none } :=
    if_pos (by omega)
  refine ⟨{ v' with slot := Function.update v'.slot (done.length + 1) none }, done.length, ?_, ?_,
    ?_, Function.update_self ..⟩
  · have hstart : argLoop line (ArgVector.alloc m argLength junk) 0 0 false = _ := hloop
    simp only [fillArgs, hstart, Option.bind_some, hwrite, hnull, Option.map_some]
    rfl
  · rw [initArgs, hwords, List.length_append, List.length_singleton]
  · intro k w hk
    rw [initArgs, hwords] at hk
    have hk' := (List.getElem?_eq_some_iff.1 hk).1
    rw [List.length_append, List.length_singleton] at hk'
    have hne : k ≠ done.length + 1 := by omega
    dsimp only
    rw [Function.update_of_ne hne]
    exact hfill'.words k w hk

/-- `initArgs` has a result only if every word fits its slot, a leading `daemonize` included. -/
theorem short_of_fillArgs {argLength : ℕ} {junk : ℕ → ℕ → Char} {r : ArgVector (Block Char) × ℕ × Bool}
    (h : fillArgs line (ArgVector.alloc m argLength junk) false = some r) :
    ∀ w ∈ tokens line, w.length < m.usable 1 := by
  obtain ⟨⟨v, count, j, daemon⟩, hloop, h⟩ := Option.bind_eq_some_iff.1 h
  obtain ⟨v', hwrite, -⟩ := Option.bind_eq_some_iff.1 h
  have hsized : Sized (m.usable 1) (ArgVector.alloc m argLength junk) := by
    intro k buf hk
    rw [← Option.some_inj.1 hk]
  obtain ⟨hsized', hshort⟩ := argLoop_short line _ 0 [] false hsized hloop
  have hlast := (hsized'.of_write hwrite).1
  intro w hw
  rcases hshort w ((pending_nil_right line).symm ▸ hw) with hlt | heq
  · exact hlt
  · exact heq ▸ hlast

/-- The line as `lineget` returns it, with the newline removed. -/
theorem takeWhile_newline (h : '\n' ∉ line) :
    (line ++ ['\n']).takeWhile (fun c => c != '\n') = line := by
  rw [List.takeWhile_append_of_pos]
  · simp
  · intro c hc
    have hne : c ≠ '\n' := fun heq => h (heq ▸ hc)
    simpa using hne

end Vector

/-- **When the slots hold the words, and the estimate fits.**  For every allocator, exactly if every
word of the line fits the block of a slot, `initArgs` has a result with the following properties.
Unless the line has more than one word and the first is `daemonize`, its words are in the slots, and
there are as many as estimated; else the words behind the first are there, one less than estimated,
and `is_daemon` is set. -/
theorem fillArgs_exact_iff (m : Allocator) (line : List Char) (hnul : '\x00' ∉ line)
    (hline : '\n' ∉ line) (junk : ℕ → ℕ → Char) :
    (∃ v count daemon,
      fillArgs ((line ++ ['\n']).takeWhile fun c => c != '\n')
          (ArgVector.alloc m (getArgumentLength (line ++ ['\n'])) junk) false =
        some (v, count, daemon) ∧
      ((tokens line).length = 1 ∨ (tokens line).head? ≠ some "daemonize".toList →
        v.Holds count (tokens line) ∧ count + 1 = getArgumentLength (line ++ ['\n']) ∧
          daemon = false) ∧
      (¬ ((tokens line).length = 1 ∨ (tokens line).head? ≠ some "daemonize".toList) →
        v.Holds count (tokens line).tail ∧ count + 2 = getArgumentLength (line ++ ['\n']) ∧
          daemon = true)) ↔
      ∀ w ∈ tokens line, w.length < m.usable 1 := by
  rw [takeWhile_newline hline, getArgumentLength_eq]
  constructor
  · rintro ⟨v, count, daemon, hfill, -, -⟩
    exact short_of_fillArgs hfill
  intro hfit
  obtain ⟨v, count, hfill, hholds⟩ := fillArgs_eq hnul le_rfl hfit junk
  refine ⟨v, count, _, hfill, ?_, ?_⟩
  · intro hcase
    have hkeep : initArgs line false = (tokens line, false) := by
      rw [initArgs_eq, dropDaemonize, if_neg]
      rintro ⟨hlen, hhead⟩
      exact hcase.elim hlen (fun hne => hne hhead)
    rw [hkeep] at hholds ⊢
    exact ⟨hholds, hholds.length.symm, rfl⟩
  · intro hcase
    obtain ⟨hlen, hhead⟩ := not_or.1 hcase
    have hdrop : initArgs line false = ((tokens line).tail, true) := by
      rw [initArgs_eq, dropDaemonize, if_pos ⟨hlen, not_not.1 hhead⟩]
    rw [hdrop] at hholds ⊢
    have hcount := hholds.length
    rw [List.length_tail] at hcount
    have hpos := length_tokens_pos line
    exact ⟨hholds, by omega, rfl⟩

/-- A line with a leading `daemonize`, two spaces and a trailing one. -/
theorem fillArgs_exact_iff_daemonize :
    tokens "daemonize  ls ".toList = ["daemonize".toList, "ls".toList, []] ∧
      ∃ v count,
        fillArgs (("daemonize  ls ".toList ++ ['\n']).takeWhile fun c => c != '\n')
            (ArgVector.alloc glibc (getArgumentLength ("daemonize  ls ".toList ++ ['\n']))
              fun _ _ => '?') false = some (v, count, true) ∧
        v.Holds count ["ls".toList, []] := by
  have htokens : tokens "daemonize  ls ".toList = ["daemonize".toList, "ls".toList, []] := by
    decide
  obtain ⟨v, count, daemon, hfill, -, hdrop⟩ :=
    (fillArgs_exact_iff glibc "daemonize  ls ".toList (by decide) (by decide) fun _ _ => '?').2
      (by rw [htokens]; decide)
  rw [htokens] at hdrop
  obtain ⟨hholds, -, rfl⟩ := hdrop (by decide)
  exact ⟨htokens, v, count, hfill, hholds⟩

/-- A word of forty letters: the `25`th letter is written behind the block of its slot. -/
theorem not_fillArgs_exact :
    '\x00' ∉ "echo ".toList ++ List.replicate 40 'a' ++ " b".toList ∧
      '\n' ∉ "echo ".toList ++ List.replicate 40 'a' ++ " b".toList ∧
      fillArgs ("echo ".toList ++ List.replicate 40 'a' ++ " b".toList)
        (ArgVector.alloc glibc
          (getArgumentLength ("echo ".toList ++ List.replicate 40 'a' ++ " b".toList ++ ['\n']))
          fun _ _ => '?') false = none := by
  refine ⟨by decide, by decide, ?_⟩
  by_contra hsome
  obtain ⟨r, hr⟩ := Option.ne_none_iff_exists'.1 hsome
  have hshort := short_of_fillArgs hr (List.replicate 40 'a') (by decide)
  revert hshort
  decide

end Shell
