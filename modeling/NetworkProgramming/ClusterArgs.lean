/-
**ClusterShell: the argument vector of a received command.**

`REPL` in `ClusterShell/clustershell_client.c` estimates the number of words with `getArgumentLength`
on the string as it was received, allocates one slot more, cuts the string at its newline and lets
`initArgs` fill the slots.  The functions are those of the shell without `daemonize`.  There every line
ends in a newline; a message from the network need not.

This module is about the slots.  The bytes behind a slot, which `Shell.fillArgs` follows, are left out:
a buffer is as long as what is written to it.

Main definitions:

* `ClusterArgs.argLoop`, `ClusterArgs.initArgs` — `initArgs` on the slots;
* `ClusterArgs.replArgs` — the beginning of `REPL`.

Main results:

* `ClusterArgs.initArgs_isSome_iff` — all writes are inside exactly if there is a slot more than words;
* `ClusterArgs.getArgumentLength_eq_length_tokens`, `ClusterArgs.length_tokens_le` — the estimate, with
  and without a newline;
* `ClusterArgs.replArgs_isSome_iff` — **the vector is large enough exactly if** the string has a newline
  or does not end in a space.
-/

import NetworkProgramming.ShellTokens
import Mathlib.Data.List.TakeWhile
import Mathlib.Tactic

set_option relaxedAutoImplicit false
set_option autoImplicit false

namespace ClusterArgs

open Shell

/-- The vector, with buffers without an end. -/
abbrev Slots := ArgVector (ℕ → Char)

/-- The vector that `REPL` allocates; the buffers are not initialised. -/
def Slots.alloc (argLength : ℕ) (junk : ℕ → ℕ → Char) : Slots := ⟨argLength + 1, fun k => some (junk k)⟩

/-- `argVector[count][j] = c`. -/
def Slots.write (v : Slots) (count j : ℕ) (c : Char) : Option Slots :=
  v.modify count fun buf => some (Function.update buf j c)

/-- The loop of `initArgs`: the vector, `count` and `j`. -/
def argLoop : List Char → Slots → ℕ → ℕ → Option (Slots × ℕ × ℕ)
  | [], v, count, j => some (v, count, j)
  | c :: cs, v, count, j =>
      if c = ' ' ∧ cs.head? = some ' ' then argLoop cs v count j
      else if c = ' ' then (v.write count j '\x00').bind fun v => argLoop cs v (count + 1) 0
      else (v.write count j c).bind fun v => argLoop cs v count (j + 1)

/-- `initArgs`: the vector and `count`. -/
def initArgs (buffer : List Char) (v : Slots) : Option (Slots × ℕ) :=
  (argLoop buffer v 0 0).bind fun (v, count, j) =>
    (v.write count j '\x00').bind fun v => (ArgVector.setNull v (count + 1)).map fun v => (v, count)

/-- `REPL` up to `initArgs`, which is not called for `exit`. -/
def replArgs (junk : ℕ → ℕ → Char) (buffer : List Char) : Option (Option (Slots × ℕ)) :=
  let argVector := Slots.alloc (getArgumentLength buffer) junk
  let command := buffer.takeWhile (· ≠ '\n')
  if command = "exit".toList then some none else (initArgs command argVector).map some

/-! ### The slots -/

section Slots

variable {v v' : Slots} {count j : ℕ} {c : Char}

/-- The slots from `count` on that are in the vector have buffers. -/
def Live (v : Slots) (count : ℕ) : Prop := ∀ k, count ≤ k → k < v.size → (v.slot k).isSome

theorem write_eq_some (hlive : Live v count) (hlt : count < v.size) (j : ℕ) (c : Char) :
    ∃ v', v.write count j c = some v' ∧ v'.size = v.size ∧ Live v' count := by
  obtain ⟨buf, hbuf⟩ := Option.isSome_iff_exists.1 (hlive count le_rfl hlt)
  refine ⟨{ v with slot := Function.update v.slot count (some (Function.update buf j c)) },
    ?_, rfl, ?_⟩
  · rw [Slots.write, ArgVector.modify, if_pos hlt, hbuf, Option.bind_some, Option.map_some]
  · intro k hk hsize
    dsimp only
    by_cases hkc : k = count
    · rw [hkc, Function.update_self]
      rfl
    · rw [Function.update_of_ne hkc]
      exact hlive k hk hsize

/-- A write is inside of the vector. -/
theorem lt_size_of_write (h : v.write count j c = some v') :
    count < v.size ∧ v'.size = v.size := by
  rw [Slots.write, ArgVector.modify] at h
  split_ifs at h with hlt
  obtain ⟨buf, -, h⟩ := Option.bind_eq_some_iff.1 h
  obtain ⟨buf', -, rfl⟩ := Option.map_eq_some_iff.1 h
  exact ⟨hlt, rfl⟩

/-- **The loop ends in the slot of the last word**, if all the writes are inside. -/
theorem count_argLoop {cs : List Char} {count' j' : ℕ}
    (h : argLoop cs v count j = some (v', count', j')) :
    count' + 1 = count + (tokens cs).length ∧ v'.size = v.size := by
  induction cs generalizing v count j with
  | nil =>
      obtain ⟨rfl, hrest⟩ := Prod.mk.inj (Option.some_inj.1 h)
      obtain ⟨rfl, -⟩ := Prod.mk.inj hrest
      exact ⟨rfl, rfl⟩
  | cons c cs ih =>
      rw [argLoop] at h
      by_cases hskip : c = ' ' ∧ cs.head? = some ' '
      · rw [if_pos hskip] at h
        rw [tokens_cons_skip hskip]
        exact ih h
      · rw [if_neg hskip] at h
        by_cases hspace : c = ' '
        · rw [if_pos hspace, Option.bind_eq_some_iff] at h
          obtain ⟨v₁, hwrite, h⟩ := h
          obtain ⟨-, hsize⟩ := lt_size_of_write hwrite
          obtain ⟨hcount, hsize'⟩ := ih h
          rw [tokens_cons_space hskip hspace, List.length_cons]
          exact ⟨by omega, hsize'.trans hsize⟩
        · rw [if_neg hspace, Option.bind_eq_some_iff] at h
          obtain ⟨v₁, hwrite, h⟩ := h
          obtain ⟨-, hsize⟩ := lt_size_of_write hwrite
          obtain ⟨hcount, hsize'⟩ := ih h
          rw [tokens_cons_char hskip hspace, List.length_modifyHead]
          exact ⟨hcount, hsize'.trans hsize⟩

/-- The loop has a result when there is a slot for every word. -/
theorem argLoop_isSome (cs : List Char) (hlive : Live v count)
    (hsize : count + (tokens cs).length ≤ v.size) (j : ℕ) :
    ∃ v' count' j', argLoop cs v count j = some (v', count', j') ∧ Live v' count' := by
  induction cs generalizing v count j with
  | nil => exact ⟨v, count, j, rfl, hlive⟩
  | cons c cs ih =>
      have hpos := length_tokens_pos (c :: cs)
      rw [argLoop]
      by_cases hskip : c = ' ' ∧ cs.head? = some ' '
      · rw [if_pos hskip]
        rw [tokens_cons_skip hskip] at hsize
        exact ih hlive hsize j
      · rw [if_neg hskip]
        by_cases hspace : c = ' '
        · obtain ⟨v₁, hwrite, hsize₁, hlive₁⟩ := write_eq_some hlive (by omega) j '\x00'
          rw [tokens_cons_space hskip hspace, List.length_cons] at hsize
          rw [if_pos hspace, hwrite, Option.bind_some]
          exact ih (fun k hk => hlive₁ k (by omega)) (by omega) 0
        · obtain ⟨v₁, hwrite, hsize₁, hlive₁⟩ := write_eq_some hlive (by omega) j c
          rw [tokens_cons_char hskip hspace, List.length_modifyHead] at hsize
          rw [if_neg hspace, hwrite, Option.bind_some]
          exact ih hlive₁ (by omega) (j + 1)

/-- **All writes of `initArgs` are inside of the vector** exactly if it has a slot more than there are
words. -/
theorem initArgs_isSome_iff (cs : List Char) (hlive : Live v 0) :
    (initArgs cs v).isSome = true ↔ (tokens cs).length < v.size := by
  constructor
  · intro h
    obtain ⟨r, hr⟩ := Option.isSome_iff_exists.1 h
    rw [initArgs, Option.bind_eq_some_iff] at hr
    obtain ⟨⟨v₁, count, j⟩, hloop, hr⟩ := hr
    obtain ⟨v₂, hwrite, hr⟩ := Option.bind_eq_some_iff.1 hr
    obtain ⟨v₃, hnull, -⟩ := Option.map_eq_some_iff.1 hr
    obtain ⟨hcount, hsize⟩ := count_argLoop hloop
    obtain ⟨-, hsize'⟩ := lt_size_of_write hwrite
    rw [ArgVector.setNull] at hnull
    split_ifs at hnull with hlt
    omega
  · intro hlt
    obtain ⟨v₁, count, j, hloop, hlive₁⟩ := argLoop_isSome cs hlive (by omega) 0
    obtain ⟨hcount, hsize⟩ := count_argLoop hloop
    have hpos := length_tokens_pos cs
    obtain ⟨v₂, hwrite, hsize', -⟩ := write_eq_some hlive₁ (by omega) j '\x00'
    rw [initArgs, hloop, Option.bind_some]
    dsimp only
    rw [hwrite, Option.bind_some, ArgVector.setNull, if_pos (by omega)]
    rfl

end Slots

/-! ### The estimate -/

section Estimate

/-- The count so far is added at the end. -/
theorem argumentLoop_add (cs : List Char) (count : ℕ) :
    argumentLoop cs count = count + argumentLoop cs 0 := by
  induction cs generalizing count with
  | nil => rfl
  | cons c cs ih =>
      rw [argumentLoop, argumentLoop]
      split_ifs
      · rw [ih (count + 1), ih (0 + 1)]
        omega
      · exact ih count

/-- **Without a newline**, a space at the end begins a word that is not counted. -/
theorem getArgumentLength_eq_length_tokens (cs : List Char) :
    (tokens cs).length = getArgumentLength cs + if cs.getLast? = some ' ' then 1 else 0 := by
  rw [getArgumentLength, argumentLoop_add]
  induction cs with
  | nil => rfl
  | cons c cs ih =>
      rw [argumentLoop]
      cases cs with
      | nil =>
          by_cases hc : c = ' '
          · subst hc
            decide
          · rw [tokens_cons_char (by simp) hc]
            simp [argumentLoop, hc]
      | cons d cs =>
          rw [List.getLast?_cons_cons]
          by_cases hskip : c = ' ' ∧ (d :: cs).head? = some ' '
          · rw [if_neg (fun h => h.2.1 hskip.2), tokens_cons_skip hskip]
            exact ih
          · by_cases hspace : c = ' '
            · rw [if_pos ⟨hspace, fun h => hskip ⟨hspace, h⟩, by simp⟩,
                tokens_cons_space hskip hspace, List.length_cons, argumentLoop_add]
              omega
            · rw [if_neg (fun h => hspace h.1), tokens_cons_char hskip hspace,
                List.length_modifyHead]
              exact ih

/-- What stands behind the newline can only add to the count. -/
theorem argumentLoop_newline_le (cs rest : List Char) (count : ℕ) :
    argumentLoop (cs ++ ['\n']) count ≤ argumentLoop (cs ++ '\n' :: rest) count := by
  induction cs generalizing count with
  | nil =>
      have hnewline : argumentLoop ('\n' :: rest) count = argumentLoop rest count := by
        rw [argumentLoop, if_neg (fun h => absurd h.1 (by decide))]
      rw [List.nil_append, List.nil_append, hnewline, argumentLoop_add rest]
      exact Nat.le_add_right _ _
  | cons c cs ih =>
      have hhead : (cs ++ ['\n']).head? = (cs ++ '\n' :: rest).head? := by
        cases cs <;> rfl
      rw [List.cons_append, List.cons_append, argumentLoop, argumentLoop, hhead]
      exact ih _

/-- **With a newline** there are at most as many words before it as were counted. -/
theorem length_tokens_le (cs rest : List Char) :
    (tokens cs).length ≤ getArgumentLength (cs ++ '\n' :: rest) := by
  rw [← getArgumentLength_eq]
  exact argumentLoop_newline_le cs rest 1

end Estimate

/-- **When the vector is large enough.**  The slots that `initArgs` writes are all among those that
`REPL` has allocated exactly if the string has a newline or does not end in a space. -/
theorem replArgs_isSome_iff (junk : ℕ → ℕ → Char) (buffer : List Char) :
    (replArgs junk buffer).isSome = true ↔ '\n' ∈ buffer ∨ buffer.getLast? ≠ some ' ' := by
  have hlive : Live (Slots.alloc (getArgumentLength buffer) junk) 0 := fun k _ _ => rfl
  have hsize : (Slots.alloc (getArgumentLength buffer) junk).size =
      getArgumentLength buffer + 1 := rfl
  have hargs := initArgs_isSome_iff (buffer.takeWhile (· ≠ '\n')) hlive
  rw [hsize] at hargs
  by_cases hnewline : '\n' ∈ buffer
  · refine iff_of_true ?_ (Or.inl hnewline)
    obtain ⟨cs, rest, hsplit, hcs⟩ := List.eq_append_cons_of_mem hnewline
    have hcommand : buffer.takeWhile (· ≠ '\n') = cs := by
      rw [hsplit, List.takeWhile_append_of_pos]
      · simp
      · intro c hc
        have hne : c ≠ '\n' := fun heq => hcs (heq ▸ hc)
        simpa using hne
    have hfits : (initArgs cs (Slots.alloc (getArgumentLength buffer) junk)).isSome = true := by
      rw [hcommand] at hargs
      refine hargs.2 (Nat.lt_succ_of_le ?_)
      rw [hsplit]
      exact length_tokens_le cs rest
    rw [replArgs, hcommand]
    split_ifs
    · rfl
    · rw [Option.isSome_map]
      exact hfits
  · have hcommand : buffer.takeWhile (· ≠ '\n') = buffer := by
      refine List.takeWhile_eq_self_iff.2 ?_
      intro c hc
      have hne : c ≠ '\n' := fun heq => hnewline (heq ▸ hc)
      simpa using hne
    rw [hcommand, getArgumentLength_eq_length_tokens] at hargs
    rw [or_iff_right hnewline, replArgs, hcommand]
    split_ifs with hexit
    · refine iff_of_true rfl ?_
      rw [hexit]
      decide
    · rw [Option.isSome_map, hargs]
      split_ifs with hlast
      · exact iff_of_false (by omega) (not_not.2 hlast)
      · exact iff_of_true (by omega) hlast

/-- The command `ls ` without a newline: two slots are allocated, and the third one is written. -/
theorem replArgs_trailing_space :
    getArgumentLength "ls ".toList = 1 ∧ tokens "ls ".toList = ["ls".toList, []] ∧
      (replArgs (fun _ _ => 'x') "ls ".toList).isSome = false := by
  decide

end ClusterArgs
