/-
**Reading a line into a buffer that grows.**

`lineget` reads a line of any length into a buffer from the heap.  It counts the room that is left in
`len` and doubles the buffer when nothing is left.  `MyShell/shell.c` passes the buffer of the last
line again, which may be longer than the 300 bytes that every call assumes; `Voting System/vote.c` has
the same loop with a new buffer of 100 bytes for every line.  In the model a buffer is the list of its
bytes, and a byte that is stored outside of it has no result.

`fgetc` reports the end of the input also when a signal interrupts a read, and the next call reads on.
So every call has an input of its own: what `fgetc` delivers until it reports the end.

Main definitions:

* `Lineget.realloc`, `Lineget.loop`, `Lineget.lineget`, `Lineget.linegetVote` — the functions of the
  source;
* `Lineget.nextLine` — the bytes up to the next newline, and the rest of the input;
* `Lineget.Call`, `Lineget.callStep` — a call and what the program did to the buffer before it.

Main results:

* `Lineget.loop_eq` — the loop stores the line and keeps its count of the room;
* `Lineget.linegetFrom_eq` — what a call returns, for a buffer of at least the assumed size;
* `Lineget.lineget_chain` — **every call of a chain stores the next line of its input in its buffer**, in
  both programs.
-/

import NetworkProgramming.CString
import NetworkProgramming.Runs
import Mathlib.Tactic

set_option relaxedAutoImplicit false
set_option autoImplicit false

namespace Lineget

open CString Runs

/-! ### The functions -/

/-- `realloc`: the bytes that fit are kept, new ones are not initialised. -/
def realloc (junk : ℕ → Char) (buf : Text) (size : ℕ) : Text :=
  (List.range size).map fun i => buf[i]?.getD (junk i)

/-- The loop, with `n` bytes stored.  The result is the buffer, the number of bytes and the rest of
the input. -/
def loop (junk : ℕ → Char) : Text → Text → ℕ → ℕ → ℕ → Option (Text × ℕ × Text)
  | [], linep, n, _, _ => some (linep, n, [])
  | c :: input, linep, n, lenmax, len =>
      let full := len - 1 = 0
      let linen := if full then realloc junk linep (lenmax * 2) else linep
      (put linen n c).bind fun linep =>
        if c = '\n' then some (linep, n + 1, input)
        else loop junk input linep (n + 1) (if full then lenmax * 2 else lenmax)
          (if full then lenmax else len - 1)

/-- `lineget` with the size that it assumes; `none` is the null pointer. -/
def linegetFrom (size : ℕ) (junk : ℕ → Char) (buffer : Option Text) (input : Text) :
    Option (Text × Text) :=
  (loop junk input (buffer.getD (realloc junk [] size)) 0 size size).bind fun (linep, n, rest) =>
    (put linep n '\x00').map fun linep => (linep, rest)

/-- `lineget` of `shell.c`. -/
def lineget (junk : ℕ → Char) (buffer : Option Text) (input : Text) : Option (Text × Text) :=
  linegetFrom 300 junk buffer input

/-- `lineget` of `vote.c`. -/
def linegetVote (junk : ℕ → Char) (input : Text) : Option (Text × Text) :=
  linegetFrom 100 junk none input

/-! ### Lines -/

/-- The bytes up to and including the next newline, or up to the end, and the rest. -/
def nextLine : Text → Text × Text
  | [] => ([], [])
  | c :: input => if c = '\n' then ([c], input) else (c :: (nextLine input).1, (nextLine input).2)

/-- The rest of the input after some lines. -/
def restAfter : ℕ → Text → Text
  | 0, input => input
  | k + 1, input => restAfter k (nextLine input).2

/-- The buffer holds the line and a terminator. -/
def Holds (buf line : Text) : Prop := line ++ ['\x00'] <+: buf

/-- A call.  Before it the program may have written into its buffer, and what the allocator hands out
is not initialised; `input` is what `fgetc` delivers until it reports the end. -/
structure Call where
  input : Text
  junk : ℕ → Char
  edit : Text → Text
  length_edit : ∀ buf, (edit buf).length = buf.length

/-- `buffer = lineget(buffer)`, with what the call has left of its input. -/
def callStep (s : Option Text × Text) (call : Call) : Option (Option Text × Text) :=
  (lineget call.junk (s.1.map call.edit) call.input).map fun r => (some r.1, r.2)

/-- **The calls read one input**, each from where the one before has stopped. -/
def ReadOn (input : Text) (calls : List Call) : Prop :=
  ∀ k call, calls[k]? = some call → call.input = restAfter k input

section Loop

/-! ### One call -/

@[simp] theorem length_realloc (junk : ℕ → Char) (buf : Text) (size : ℕ) :
    (realloc junk buf size).length = size := by
  rw [realloc, List.length_map, List.length_range]

/-- The bytes that are stored already stay where they are. -/
theorem realloc_append (junk : ℕ → Char) (front tail : Text) {size : ℕ}
    (h : front.length ≤ size) :
    ∃ tail', realloc junk (front ++ tail) size = front ++ tail' := by
  refine ⟨(realloc junk (front ++ tail) size).drop front.length, ?_⟩
  have htake : (realloc junk (front ++ tail) size).take front.length = front := by
    refine List.ext_getElem? fun i => ?_
    rw [List.getElem?_take]
    split_ifs with hi
    · have hsize : i < size := by omega
      simp [realloc, hsize, List.getElem?_append_left hi, List.getElem?_eq_getElem hi]
    · exact (List.getElem?_eq_none (by omega)).symm
  nth_rewrite 2 [← htake]
  exact (List.take_append_drop _ _).symm

/-- A byte is stored behind the others where there is room for it. -/
theorem put_of_lt (front tail : Text) (c : Char) (h : 0 < tail.length) :
    ∃ tail', put (front ++ tail) front.length c = some (front ++ [c] ++ tail') ∧
      tail'.length + 1 = tail.length := by
  obtain ⟨old, tail, rfl⟩ := List.exists_cons_of_length_pos h
  refine ⟨tail, ?_, rfl⟩
  rw [put_append, List.append_assoc, List.singleton_append]

/-- **The loop.**  With `front` stored, the size that is assumed is `len` more, and the buffer has at
least that size. -/
theorem loop_eq (junk : ℕ → Char) (input front tail : Text) (lenmax len : ℕ) (hlen : 0 < len)
    (hroom : front.length + len = lenmax) (hsize : len ≤ tail.length) {least : ℕ}
    (hleast : least ≤ lenmax) :
    ∃ tail', loop junk input (front ++ tail) front.length lenmax len =
        some (front ++ (nextLine input).1 ++ tail', front.length + (nextLine input).1.length,
          (nextLine input).2) ∧
      0 < tail'.length ∧ least ≤ front.length + (nextLine input).1.length + tail'.length := by
  induction input generalizing front tail lenmax len with
  | nil =>
      refine ⟨tail, ?_, by omega, ?_⟩
      · simp [loop, nextLine]
      · simp only [nextLine, List.length_nil]
        omega
  | cons c input ih =>
      -- the buffer in which the byte is stored has room for it and for a terminator
      obtain ⟨tail₁, hlinen, hpos, hfit⟩ : ∃ tail₁,
          (if len - 1 = 0 then realloc junk (front ++ tail) (lenmax * 2) else front ++ tail) =
            front ++ tail₁ ∧
          1 < tail₁.length ∧ (if len - 1 = 0 then lenmax else len - 1) + 1 ≤ tail₁.length := by
        split_ifs with hfull
        · obtain ⟨tail₁, htail₁⟩ := realloc_append junk front tail
            (show front.length ≤ lenmax * 2 by omega)
          have hlength := congrArg List.length htail₁
          rw [length_realloc, List.length_append] at hlength
          exact ⟨tail₁, htail₁, by omega, by omega⟩
        · exact ⟨tail, rfl, by omega, by omega⟩
      obtain ⟨tail₂, hput, hlength⟩ := put_of_lt front tail₁ c (by omega)
      rw [loop, hlinen, hput, Option.bind_some, nextLine]
      by_cases hnewline : c = '\n'
      · rw [if_pos hnewline, if_pos hnewline]
        refine ⟨tail₂, rfl, by omega, ?_⟩
        rw [List.length_singleton]
        split_ifs at hfit <;> omega
      · rw [if_neg hnewline, if_neg hnewline]
        have hfront : (front ++ [c]).length = front.length + 1 := by simp
        obtain ⟨tail', hloop, hpos', hleast'⟩ := ih (front ++ [c]) tail₂
          (if len - 1 = 0 then lenmax * 2 else lenmax) (if len - 1 = 0 then lenmax else len - 1)
          (by split_ifs <;> omega) (by rw [hfront]; split_ifs <;> omega) (by omega)
          (by split_ifs <;> omega)
        rw [hfront] at hloop hleast'
        refine ⟨tail', ?_, hpos', ?_⟩
        · rw [hloop]
          simp only [List.append_assoc, List.singleton_append, List.length_cons]
          congr 3
          omega
        · rw [List.length_cons]
          omega

/-- **A call** with no buffer, or with one that has at least the size that is assumed. -/
theorem linegetFrom_eq {size : ℕ} (hsize : 0 < size) (junk : ℕ → Char) {buffer : Option Text}
    (hbuffer : ∀ buf, buffer = some buf → size ≤ buf.length) (input : Text) :
    ∃ buf, linegetFrom size junk buffer input = some (buf, (nextLine input).2) ∧
      Holds buf (nextLine input).1 ∧ size ≤ buf.length := by
  have hlen : size ≤ (buffer.getD (realloc junk [] size)).length := by
    cases buffer with
    | none => rw [Option.getD_none, length_realloc]
    | some buf => exact hbuffer buf rfl
  obtain ⟨tail, hloop, hpos, hleast⟩ := loop_eq junk input []
    (buffer.getD (realloc junk [] size)) size size hsize (Nat.zero_add size) hlen le_rfl
  rw [List.nil_append, List.nil_append, List.length_nil, Nat.zero_add] at hloop
  rw [List.length_nil, Nat.zero_add] at hleast
  obtain ⟨tail', hput, hlength⟩ := put_of_lt (nextLine input).1 tail '\x00' hpos
  refine ⟨(nextLine input).1 ++ ['\x00'] ++ tail', ?_, List.prefix_append _ _, ?_⟩
  · rw [linegetFrom, hloop, Option.bind_some]
    dsimp only
    rw [hput, Option.map_some]
  · simp only [List.length_append, List.length_singleton]
    omega

/-! ### Chains of calls -/

theorem restAfter_succ (k : ℕ) (input : Text) :
    restAfter (k + 1) input = (nextLine (restAfter k input)).2 := by
  induction k generalizing input with
  | zero => rfl
  | succ k ih => exact ih (nextLine input).2

/-- What is known of the buffer between two calls. -/
def Usable (s : Option Text × Text) : Prop := ∀ buf, s.1 = some buf → 300 ≤ buf.length

/-- **One call of a chain.** -/
theorem callStep_eq {s : Option Text × Text} (h : Usable s) (call : Call) :
    ∃ buf, callStep s call = some (some buf, (nextLine call.input).2) ∧
      Holds buf (nextLine call.input).1 ∧ 300 ≤ buf.length := by
  have hbuffer : ∀ buf, s.1.map call.edit = some buf → 300 ≤ buf.length := by
    intro buf hbuf
    obtain ⟨old, hold, rfl⟩ := Option.map_eq_some_iff.1 hbuf
    rw [call.length_edit]
    exact h old hold
  obtain ⟨buf, hcall, hholds, hlen⟩ := linegetFrom_eq (by omega) call.junk hbuffer call.input
  refine ⟨buf, ?_, hholds, hlen⟩
  rw [callStep, lineget, hcall, Option.map_some]

/-- The state after a chain of calls. -/
theorem run_callStep (calls : List Call) {s : Option Text × Text} (h : Usable s) :
    ∃ t, run callStep s calls = some t ∧ Usable t := by
  induction calls generalizing s with
  | nil => exact ⟨s, rfl, h⟩
  | cons call calls ih =>
      obtain ⟨buf, hcall, -, hlen⟩ := callStep_eq h call
      have hnext : Usable (some buf, (nextLine call.input).2) := by
        intro buf' hbuf'
        rw [← Option.some_inj.1 hbuf']
        exact hlen
      obtain ⟨t, ht, husable⟩ := ih hnext
      exact ⟨t, run_cons_eq_some.2 ⟨_, hcall, ht⟩, husable⟩

/-- The last call of a chain that starts with the null pointer. -/
theorem run_concat (input : Text) (calls : List Call) (call : Call) :
    ∃ buf, run callStep (none, input) (calls ++ [call]) = some (some buf, (nextLine call.input).2) ∧
      Holds buf (nextLine call.input).1 := by
  have hstart : Usable (none, input) := by
    intro buf hbuf
    cases hbuf
  obtain ⟨t, ht, husable⟩ := run_callStep calls hstart
  obtain ⟨buf, hcall, hholds, -⟩ := callStep_eq husable call
  exact ⟨buf, run_append ht (run_cons_eq_some.2 ⟨_, hcall, rfl⟩), hholds⟩

end Loop

/-- **Every call of a chain stores the next line of its input in its buffer.**  From the null pointer on,
each call has a result, so that every byte is stored inside the buffer it holds; the result is the bytes
up to and including the next newline, or up to where the end is reported, and a terminator.  When the
calls read one input, these are its lines one after the other.  All this is so for the calls of `vote.c`
too. -/
theorem lineget_chain (input : Text) :
    (∀ (calls : List Call) (call : Call), ∃ buf,
      run callStep (none, input) (calls ++ [call]) = some (some buf, (nextLine call.input).2) ∧
        Holds buf (nextLine call.input).1) ∧
      (∀ (calls : List Call) (call : Call), ReadOn input (calls ++ [call]) → ∃ buf,
        run callStep (none, input) (calls ++ [call]) =
            some (some buf, restAfter (calls.length + 1) input) ∧
          Holds buf (nextLine (restAfter calls.length input)).1) ∧
      ∀ junk, ∃ buf, linegetVote junk input = some (buf, (nextLine input).2) ∧
        Holds buf (nextLine input).1 := by
  refine ⟨run_concat input, ?_, ?_⟩
  · intro calls call hread
    rw [restAfter_succ, ← hread calls.length call List.getElem?_concat_length]
    exact run_concat input calls call
  · intro junk
    have hfresh : ∀ buf : Text, none = some buf → 100 ≤ buf.length := by
      intro buf hbuf
      cases hbuf
    obtain ⟨buf, hcall, hholds, -⟩ := linegetFrom_eq (by decide) junk hfresh input
    exact ⟨buf, hcall, hholds⟩

example : nextLine "ls -l\npwd\n".toList = ("ls -l\n".toList, "pwd\n".toList) := by decide

end Lineget
