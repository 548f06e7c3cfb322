/-
**What the interactive loops do at the end of their input.**

`MyShell/shell.c`, `Voting System/vote.c` and `UDPChatter/multicast_chat_client.c` read their commands
in a loop.  At the end of the input `lineget` returns an empty string and not the null pointer that
the shell looks for; the client tests the result of `getline`, but goes on with an empty message.  What
a loop does with a line is a parameter of the model: an arbitrary function on an arbitrary state.

The children of a loop share its standard input.  A child has a copy of the buffer, and when it ends by
`exit` the bytes that are unread in the copy are given back: where the input is a regular file, the
offset is moved, and the loop reads some bytes again.  What the children do, they do between two lines.
A signal that interrupts a read of the shell makes `fgetc` report the end, but only for this call.

Main definitions:

* `EndOfInput.Turn`, `EndOfInput.after`, `EndOfInput.Stops` — one turn of a loop, many of them, and that
  the loop is left;
* `EndOfInput.lines` — the lines of the input, with their newlines;
* `EndOfInput.Source`, `EndOfInput.Stdin`, `EndOfInput.Share` — the standard input, and what a child
  does to it;
* `EndOfInput.shellTurn`, `EndOfInput.voteTurn`, `EndOfInput.chatTurn` — the loops of the source;
* `EndOfInput.Steady` — no child changes what the loop reads.

Main results:

* `EndOfInput.stops_iff_of_reader` — a loop that reads line by line stops exactly if one of the lines
  makes it stop;
* `EndOfInput.text_read`, `EndOfInput.Buffered.read` — what is left after a line was read;
* `EndOfInput.stops_iff` — **each of the loops stops exactly if its input has an `exit` line**, as long
  as the children leave the input alone.
-/

import NetworkProgramming.Lineget
import Mathlib.Tactic

set_option relaxedAutoImplicit false
set_option autoImplicit false

namespace EndOfInput

open CString Lineget

/-! ### Loops -/

/-- One turn of a loop: it has no result, it leaves the loop, or the loop goes on. -/
inductive Turn (σ : Type) : Type
  | stuck : Turn σ
  | left : Turn σ
  | again (s : σ) : Turn σ
  deriving DecidableEq

/-- Where the loop is after some turns. -/
def after {σ : Type} (turn : σ → Turn σ) : ℕ → σ → Turn σ
  | 0, s => .again s
  | n + 1, s =>
      match turn s with
      | .stuck => .stuck
      | .left => .left
      | .again t => after turn n t

/-- **The loop is left** after finitely many turns. -/
def Stops {σ : Type} (turn : σ → Turn σ) (s : σ) : Prop := ∃ n, after turn n s = .left

/-- The lines of the input, with their newlines; the last one may have none. -/
def lines : Text → List Text
  | [] => []
  | c :: input =>
      if c = '\n' then [c] :: lines input
      else
        match lines input with
        | [] => [[c]]
        | l :: ls => (c :: l) :: ls

/-! ### The standard input -/

/-- What is behind the buffer of a process. -/
inductive Source
  /-- A pipe or a terminal, with what is still to be read. -/
  | stream (rest : Text)
  /-- A regular file, with the offset that the loop shares with its children. -/
  | file (contents : Text) (offset : ℕ)
  deriving DecidableEq

namespace Source

/-- What is still to be read. -/
def rest : Source → Text
  | stream rest => rest
  | file contents offset => contents.drop offset

/-- Some bytes are read. -/
def advance (n : ℕ) : Source → Source
  | stream rest => stream (rest.drop n)
  | file contents offset => file contents (offset + ((contents.drop offset).take n).length)

end Source

/-- What a child does to the standard input: it reads bytes, or it ends by `exit`, with some bytes unread
in its copy of the buffer. -/
inductive Share
  | reads (n : ℕ)
  | exits (unread : ℕ)

/-- `exit` moves the offset back, where there is one and it can be moved as far. -/
def Source.after : Source → Share → Source
  | src, .reads n => src.advance n
  | .stream rest, .exits _ => .stream rest
  | .file contents offset, .exits unread =>
      .file contents (if unread ≤ offset then offset - unread else offset)

/-- The standard input of a process: the bytes in its buffer, what is behind them, and the indicator that
the end was reported. -/
structure Stdin where
  unread : Text
  source : Source
  eof : Bool
  deriving DecidableEq

namespace Stdin

/-- Nothing is read yet. -/
def start (source : Source) : Stdin := ⟨[], source, false⟩

/-- What `fgetc` delivers until it reports the end. -/
def text (s : Stdin) : Text := if s.eof then [] else s.unread ++ s.source.rest

/-- The same for one call, where a signal may interrupt the read that follows after some bytes. -/
def offered (s : Stdin) : Option ℕ → Text
  | none => s.text
  | some n => if s.eof then [] else s.unread ++ s.source.rest.take n

/-- `n` bytes are taken.  The source is read in blocks. -/
def take (blksize n : ℕ) (s : Stdin) : Stdin :=
  if n ≤ s.unread.length then { s with unread := s.unread.drop n }
  else
    let more := n - s.unread.length
    let block := s.source.rest.take (blksize * ((more + blksize - 1) / blksize))
    { s with unread := block.drop more, source := s.source.advance block.length }

/-- A call of `lineget` has left some of what was offered to it. -/
def read (blksize : ℕ) (interrupt : Option ℕ) (s : Stdin) (left : Text) : Stdin :=
  let line := (s.offered interrupt).take ((s.offered interrupt).length - left.length)
  match interrupt with
  | none => { s.take blksize line.length with eof := s.eof || line.getLast? != some '\n' }
  | some n => if line.length < s.unread.length + n then s.take blksize line.length
      else { s with unread := [], source := s.source.advance n }

/-- What the children do before the next line is read. -/
def shared (s : Stdin) (shares : List Share) : Stdin :=
  { s with source := shares.foldl Source.after s.source }

end Stdin

/-! ### The three loops -/

/-- The newlines of a string are overwritten. -/
def cutNewlines (buffer : Text) : Text :=
  (cstr buffer).map (fun c => if c = '\n' then '\x00' else c) ++ buffer.drop (cstr buffer).length

/-- What is around the loop of the shell: what it does with a line, what its children do to the standard
input until the next line is read, and whether a signal interrupts this. -/
structure Env (σ : Type) where
  blksize : ℕ
  junk : ℕ → Char
  command : σ → Text → Stdin → σ
  share : σ → List Share
  interrupt : σ → Option ℕ

/-- The shell: its buffer, its input, and all the rest. -/
structure ShellState (σ : Type) where
  buffer : Option Text
  stdin : Stdin
  interrupt : Option ℕ
  rest : σ

/-- The loop goes on. -/
def Env.goOn {σ : Type} (env : Env σ) (rest : σ) (buffer line : Text) (stdin : Stdin) :
    Turn (ShellState σ) :=
  let rest := env.command rest line stdin
  .again ⟨some buffer, stdin.shared (env.share rest), env.interrupt rest, rest⟩

/-- A turn of the loop of `main` in `shell.c`.  Every line but `exit`, and every empty one, leads back
to the start of the loop. -/
def shellTurn {σ : Type} (env : Env σ) (s : ShellState σ) : Turn (ShellState σ) :=
  match lineget env.junk s.buffer (s.stdin.offered s.interrupt) with
  | none => .stuck
  | some (buffer, left) =>
      let stdin := s.stdin.read env.blksize s.interrupt left
      if cstr buffer = ['\n'] then env.goOn s.rest buffer ['\n'] stdin
      else if cstr (cutNewlines buffer) = "exit".toList then .left
      else env.goOn s.rest (cutNewlines buffer) (cstr (cutNewlines buffer)) stdin

/-- A turn of the loop of `main` in `vote.c`.  Its children do not read; they end by `exit`, and `exits`
says which of them do so before the next line is read, with how many bytes in their buffers. -/
def voteTurn {σ : Type} (blksize : ℕ) (junk : ℕ → Char) (command : σ → Text → Stdin → σ)
    (exits : σ → List ℕ) (s : Stdin × σ) : Turn (Stdin × σ) :=
  match linegetVote junk s.1.text with
  | none => .stuck
  | some (buffer, left) =>
      let stdin := s.1.read blksize none left
      if cstr (cutNewlines buffer) = "exit".toList then .left
      else
        let rest := command s.2 (cstr (cutNewlines buffer)) stdin
        .again (stdin.shared ((exits rest).map Share.exits), rest)

/-- A turn of the loop of `main` in `multicast_chat_client.c`, which has no children.  When `getline`
reports the end, the message that was begun is sent all the same. -/
def chatTurn {σ : Type} (command : σ → Text → σ) (send : σ → σ) (s : Text × σ) : Turn (Text × σ) :=
  if s.1 = [] then .again (s.1, send s.2)
  else if cstr (nextLine s.1).1 = "exit\n".toList then .left
  else .again ((nextLine s.1).2, command s.2 (nextLine s.1).1)

/-- **No child changes what the loop reads**: the input is a pipe or a terminal and the children do not
read from it, or they leave it alone altogether. -/
def Steady {σ : Type} (share : σ → List Share) (source : Source) : Prop :=
  (∃ rest, source = .stream rest) ∧ (∀ s, ∀ d ∈ share s, ∃ unread, d = .exits unread) ∨
    ∀ s, share s = []

/-! ### Loops that read lines -/

section Reader

theorem lines_eq {input : Text} (h : input ≠ []) :
    lines input = (nextLine input).1 :: lines (nextLine input).2 := by
  induction input with
  | nil => exact absurd rfl h
  | cons c input ih =>
      rw [lines, nextLine]
      split_ifs with hc
      · rfl
      · cases input with
        | nil => rfl
        | cons d input => rw [ih (List.cons_ne_nil d input)]

variable {σ : Type} {turn : σ → Turn σ} {H : σ → Text → Prop} {P Q R : Text → Prop}

/-- The turns of a loop that reads one line of the text `u` in every turn, as long as this has `Q`, and
that stops at the lines with `P`. -/
def ReadsLines (turn : σ → Turn σ) (H : σ → Text → Prop) (Q P : Text → Prop) : Prop :=
  ∀ s u, H s u → Q u → (P (nextLine u).1 ∧ turn s = .left) ∨
    (¬ P (nextLine u).1 ∧ ∃ t, turn s = .again t ∧ H t (nextLine u).2)

theorem exists_mem_lines_of_left (hturn : ReadsLines turn H (fun _ => True) P) (hnil : ¬ P []) {n : ℕ}
    {s : σ} {u : Text} (hs : H s u) (h : after turn n s = .left) : ∃ l ∈ lines u, P l := by
  induction n generalizing s u with
  | zero => cases h
  | succ n ih =>
      have hne : (∃ l ∈ lines (nextLine u).2, P l) ∨ P (nextLine u).1 → u ≠ [] := by
        rintro hor rfl
        rcases hor with ⟨l, hl, -⟩ | hP
        · cases hl
        · exact hnil hP
      rw [after] at h
      rcases hturn s u hs trivial with ⟨hP, -⟩ | ⟨-, t, hagain, ht⟩
      · rw [lines_eq (hne (Or.inr hP))]
        exact ⟨_, List.mem_cons_self, hP⟩
      · rw [hagain] at h
        obtain ⟨l, hl, hPl⟩ := ih ht h
        rw [lines_eq (hne (Or.inl ⟨l, hl, hPl⟩))]
        exact ⟨l, List.mem_cons_of_mem _ hl, hPl⟩

theorem stops_of_mem_lines (hturn : ReadsLines turn H Q P)
    (hQ : ∀ text l, l ∈ lines text → R l → Q text) {ls : List Text} {s : σ} {u : Text} (hs : H s u)
    (hls : lines u = ls) (h : ∃ l ∈ ls, R l ∧ P l) : Stops turn s := by
  induction ls generalizing s u with
  | nil =>
      obtain ⟨l, hl, -⟩ := h
      cases hl
  | cons first ls ih =>
      obtain ⟨l, hl, hRl, hPl⟩ := h
      have hQu : Q u := hQ u l (hls ▸ hl) hRl
      have hne : u ≠ [] := by
        rintro rfl
        cases hls
      rw [lines_eq hne] at hls
      obtain ⟨rfl, hrest⟩ := List.cons.inj hls
      rcases hturn s u hs hQu with ⟨-, hleft⟩ | ⟨hP, t, hagain, ht⟩
      · exact ⟨1, by rw [after, hleft]⟩
      · have hl' : l ∈ ls := by
          rcases List.mem_cons.1 hl with rfl | hl
          · exact absurd hPl hP
          · exact hl
        obtain ⟨n, hn⟩ := ih ht hrest ⟨l, hl', hRl, hPl⟩
        exact ⟨n + 1, by rw [after, hagain]; exact hn⟩

/-- **A loop that reads line by line stops exactly if one of the lines makes it stop**, when an empty
string, which it gets at the end of the input, does not. -/
theorem stops_iff_of_reader (hturn : ReadsLines turn H (fun _ => True) P) (hnil : ¬ P []) {s : σ}
    {u : Text} (hs : H s u) : Stops turn s ↔ ∃ l ∈ lines u, P l := by
  constructor
  · rintro ⟨n, hn⟩
    exact exists_mem_lines_of_left hturn hnil hs hn
  · rintro ⟨l, hl, hPl⟩
    exact stops_of_mem_lines (R := fun _ => True) hturn (fun _ _ _ _ => trivial) hs rfl
      ⟨l, hl, trivial, hPl⟩

theorem after_add (m n : ℕ) (s : σ) :
    after turn (m + n) s =
      match after turn m s with
      | .again t => after turn n t
      | r => r := by
  induction m generalizing s with
  | zero => rw [Nat.zero_add, after]
  | succ m ih =>
      rw [Nat.succ_add, after, after]
      cases turn s with
      | stuck => rfl
      | left => rfl
      | again t => exact ih t

/-- A loop that comes back to where it was does not stop. -/
theorem not_stops_of_cycle {n : ℕ} {s : σ} (h : after turn (n + 1) s = .again s) : ¬ Stops turn s := by
  rintro ⟨m, hm⟩
  induction m using Nat.strong_induction_on with
  | _ m ih =>
      rcases Nat.lt_or_ge n m with hlt | hge
      · refine ih (m - (n + 1)) (by omega) ?_
        rw [show m = n + 1 + (m - (n + 1)) by omega, after_add, h] at hm
        exact hm
      · rw [show n + 1 = m + (n + 1 - m) by omega, after_add, hm] at h
        cases h

/-- A loop that comes to where it does not stop from. -/
theorem not_stops_of_again {n : ℕ} {s t : σ} (h : after turn n s = .again t) (ht : ¬ Stops turn t) :
    ¬ Stops turn s := by
  rintro ⟨m, hm⟩
  rcases Nat.le_total n m with hle | hle
  · refine ht ⟨m - n, ?_⟩
    rw [show m = n + (m - n) by omega, after_add, h] at hm
    exact hm
  · rw [show n = m + (n - m) by omega, after_add, hm] at h
    cases h

end Reader

/-! ### Reading from the standard input -/

section Read

theorem nextLine_append (u : Text) : (nextLine u).1 ++ (nextLine u).2 = u := by
  induction u with
  | nil => rfl
  | cons c u ih =>
      rw [nextLine]
      split_ifs
      · rfl
      · exact congrArg (c :: ·) ih

/-- A line that is complete does not depend on what comes behind it. -/
theorem nextLine_append_of_mem {u : Text} (h : '\n' ∈ u) (v : Text) :
    nextLine (u ++ v) = ((nextLine u).1, (nextLine u).2 ++ v) ∧
      (nextLine u).1.getLast? = some '\n' := by
  induction u with
  | nil => cases h
  | cons c u ih =>
      rw [List.cons_append, nextLine, nextLine]
      by_cases hc : c = '\n'
      · rw [if_pos hc, if_pos hc, hc]
        exact ⟨rfl, rfl⟩
      · obtain ⟨hline, hlast⟩ := ih ((List.mem_cons.1 h).resolve_left (Ne.symm hc))
        rw [if_neg hc, if_neg hc, hline]
        exact ⟨rfl, by rw [List.getLast?_cons, hlast]; rfl⟩

/-- At the end of the input the line need not end in a newline. -/
theorem nextLine_snd_of_getLast {u : Text} (h : (nextLine u).1.getLast? ≠ some '\n') :
    (nextLine u).2 = [] := by
  by_cases hmem : '\n' ∈ u
  · exact absurd (nextLine_append_of_mem hmem []).2 h
  · induction u with
    | nil => rfl
    | cons c u ih =>
        obtain ⟨hc, hu⟩ := not_or.1 (mt List.mem_cons.2 hmem)
        rw [nextLine, if_neg (Ne.symm hc)] at h ⊢
        refine ih (fun hlast => h ?_) hu
        rw [List.getLast?_cons, hlast]
        rfl

/-- What was read of a text is the line. -/
theorem take_line (u : Text) : u.take (u.length - (nextLine u).2.length) = (nextLine u).1 := by
  have hu := nextLine_append u
  generalize (nextLine u).1 = line at hu
  generalize (nextLine u).2 = left at hu
  rw [← hu, List.length_append, Nat.add_sub_cancel, List.take_left]

theorem length_line_le (u : Text) : (nextLine u).1.length ≤ u.length := by
  conv_rhs => rw [← nextLine_append u]
  rw [List.length_append]
  exact Nat.le_add_right _ _

theorem drop_line (u : Text) : u.drop (nextLine u).1.length = (nextLine u).2 := by
  have hu := nextLine_append u
  generalize (nextLine u).1 = line at hu
  generalize (nextLine u).2 = left at hu
  rw [← hu, List.drop_left]

namespace Source

theorem rest_advance (source : Source) (n : ℕ) : (source.advance n).rest = source.rest.drop n := by
  cases source with
  | stream rest => rfl
  | file contents offset =>
      simp only [advance, rest, List.length_take, List.length_drop, List.drop_drop]
      rcases Nat.le_total n (contents.length - offset) with hle | hle
      · rw [Nat.min_eq_left hle]
      · rw [Nat.min_eq_right hle, List.drop_eq_nil_of_le (by omega), List.drop_eq_nil_of_le (by omega)]

end Source

/-- Whole blocks are enough for what is needed of them. -/
theorem le_blocks {blksize : ℕ} (hpos : 0 < blksize) (more : ℕ) :
    more ≤ blksize * ((more + blksize - 1) / blksize) := by
  have hdiv := Nat.div_add_mod (more + blksize - 1) blksize
  have hmod := Nat.mod_lt (more + blksize - 1) hpos
  omega

/-- One block is enough for what is not longer. -/
theorem blocks_eq {blksize more : ℕ} (hmore : 0 < more) (hle : more ≤ blksize) :
    blksize * ((more + blksize - 1) / blksize) = blksize := by
  rw [Nat.div_eq_of_lt_le (k := 1) (by omega) (by omega), Nat.mul_one]

variable {blksize : ℕ} {s : Stdin}

/-- The bytes that were taken are missing, and no others. -/
theorem take_append_rest (hpos : 0 < blksize) {n : ℕ}
    (hle : n ≤ (s.unread ++ s.source.rest).length) :
    (s.take blksize n).unread ++ (s.take blksize n).source.rest =
      (s.unread ++ s.source.rest).drop n := by
  unfold Stdin.take
  by_cases hn : n ≤ s.unread.length
  · rw [if_pos hn, List.drop_append_of_le_length hn]
  · rw [if_neg hn]
    dsimp only
    have hblocks := le_blocks hpos (n - s.unread.length)
    generalize blksize * ((n - s.unread.length + blksize - 1) / blksize) = k at hblocks
    rw [List.length_append] at hle
    have hdrop : s.source.rest.drop (s.source.rest.take k).length = s.source.rest.drop k := by
      rw [List.length_take]
      rcases Nat.le_total k s.source.rest.length with hk | hk
      · rw [Nat.min_eq_left hk]
      · rw [Nat.min_eq_right hk, List.drop_length, List.drop_eq_nil_of_le hk]
    -- the block ends behind the bytes that are needed
    have hblock : n - s.unread.length ≤ (s.source.rest.take k).length := by
      rw [List.length_take]
      omega
    rw [Source.rest_advance, hdrop, List.drop_append, List.drop_eq_nil_of_le (Nat.le_of_not_le hn),
      List.nil_append, ← List.drop_append_of_le_length hblock, List.take_append_drop]

/-- **What is left after a line was read** that no signal has cut. -/
theorem text_read (hpos : 0 < blksize) (s : Stdin) :
    (s.read blksize none (nextLine s.text).2).text = (nextLine s.text).2 := by
  unfold Stdin.read
  rw [Stdin.offered, take_line]
  dsimp only
  rw [Stdin.text]
  dsimp only
  by_cases heof : s.eof = true
  · rw [heof, Bool.true_or, if_pos rfl, Stdin.text, if_pos heof]
    rfl
  rw [Bool.eq_false_of_not_eq_true heof, Bool.false_or]
  by_cases hlast : (nextLine s.text).1.getLast? = some '\n'
  · have htext : s.text = s.unread ++ s.source.rest := if_neg heof
    rw [if_neg (by rw [hlast]; decide), take_append_rest hpos (htext ▸ length_line_le s.text), ← htext]
    exact drop_line s.text
  · rw [if_pos (bne_iff_ne.2 hlast)]
    exact (nextLine_snd_of_getLast hlast).symm

/-- What a call of `lineget` takes away is the beginning of the source. -/
theorem exists_source_read (blksize : ℕ) (interrupt : Option ℕ) (s : Stdin) (left : Text) :
    ∃ n, (s.read blksize interrupt left).source = s.source.advance n := by
  have hnone : s.source = s.source.advance 0 := by
    cases s.source with
    | stream rest => rfl
    | file contents offset => rw [Source.advance, List.take_zero, List.length_nil, Nat.add_zero]
  have htake : ∀ n, ∃ m, (s.take blksize n).source = s.source.advance m := by
    intro n
    unfold Stdin.take
    split_ifs
    · exact ⟨0, hnone⟩
    · exact ⟨_, rfl⟩
  unfold Stdin.read
  dsimp only
  split
  · exact htake _
  · split_ifs
    · exact htake _
    · exact ⟨_, rfl⟩

/-- **The text `u` is in the buffer**, or will be there when the first block is read. -/
structure Buffered (blksize : ℕ) (interrupt : Option ℕ) (s : Stdin) (u : Text) : Prop where
  eof : s.eof = false
  unread : s.unread = u ∨ s.unread = [] ∧ interrupt = none ∧ u = s.source.rest.take blksize

theorem Buffered.offered {interrupt : Option ℕ} {u : Text} (h : Buffered blksize interrupt s u) :
    ∃ v, s.offered interrupt = u ++ v := by
  rcases h.unread with hu | ⟨hnil, rfl, hu⟩
  · cases interrupt with
    | none => exact ⟨s.source.rest, by rw [Stdin.offered, Stdin.text, h.eof, ← hu]; rfl⟩
    | some n => exact ⟨s.source.rest.take n, by rw [Stdin.offered, h.eof, ← hu]; rfl⟩
  · refine ⟨s.source.rest.drop blksize, ?_⟩
    rw [Stdin.offered, Stdin.text, h.eof, hnil, hu, List.take_append_drop]
    rfl

/-- The bytes of a line that is in the buffer are taken from it. -/
theorem Buffered.take {interrupt : Option ℕ} {u : Text} (h : Buffered blksize interrupt s u)
    (hmem : '\n' ∈ u) : (s.take blksize (nextLine u).1.length).unread = (nextLine u).2 ∧
      (s.take blksize (nextLine u).1.length).eof = false := by
  have hpos : 0 < (nextLine u).1.length := by
    refine List.length_pos_iff.2 fun hnil => ?_
    have hlast := (nextLine_append_of_mem hmem []).2
    rw [hnil] at hlast
    cases hlast
  have hle := length_line_le u
  unfold Stdin.take
  rcases h.unread with hu | ⟨hnil, -, hu⟩
  · rw [if_pos (hu ▸ hle), hu]
    exact ⟨drop_line u, h.eof⟩
  · rw [if_neg (by rw [hnil, List.length_nil]; omega), hnil, List.length_nil, Nat.sub_zero]
    dsimp only
    have hblk : (nextLine u).1.length ≤ blksize := by
      refine hle.trans ?_
      rw [hu, List.length_take]
      exact Nat.min_le_left _ _
    rw [blocks_eq hpos hblk, ← hu]
    exact ⟨drop_line u, h.eof⟩

/-- **What is left after a line was read that is in the buffer**, whatever the source is now. -/
theorem Buffered.read {interrupt : Option ℕ} {u : Text} (h : Buffered blksize interrupt s u)
    (hmem : '\n' ∈ u) : (nextLine (s.offered interrupt)).1 = (nextLine u).1 ∧
      (s.read blksize interrupt (nextLine (s.offered interrupt)).2).unread = (nextLine u).2 ∧
      (s.read blksize interrupt (nextLine (s.offered interrupt)).2).eof = false := by
  obtain ⟨v, hv⟩ := h.offered
  obtain ⟨hline, hlast⟩ := nextLine_append_of_mem hmem v
  obtain ⟨htake, heof⟩ := h.take hmem
  rw [← hv] at hline
  unfold Stdin.read
  rw [take_line, hline]
  refine ⟨rfl, ?_⟩
  cases interrupt with
  | none =>
      dsimp only
      rw [hlast, h.eof]
      exact ⟨htake, rfl⟩
  | some n =>
      dsimp only
      have hu : s.unread = u := h.unread.resolve_right fun hother => by cases hother.2.1
      split_ifs with hlt
      · exact ⟨htake, heof⟩
      · -- the line is all that is in the buffer
        refine ⟨?_, h.eof⟩
        have hlen := congrArg List.length (nextLine_append u)
        rw [List.length_append] at hlen
        rw [hu] at hlt
        exact (List.eq_nil_of_length_eq_zero (by omega)).symm

end Read

/-! ### The children leave the input alone -/

section Steady

variable {σ : Type} {share : σ → List Share} {source : Source}

theorem Steady.advance (h : Steady share source) (n : ℕ) : Steady share (source.advance n) := by
  rcases h with ⟨⟨rest, rfl⟩, hexits⟩ | hnone
  · exact Or.inl ⟨⟨_, rfl⟩, hexits⟩
  · exact Or.inr hnone

theorem foldl_exits (rest : Text) {shares : List Share}
    (h : ∀ d ∈ shares, ∃ unread, d = .exits unread) :
    shares.foldl Source.after (.stream rest) = .stream rest := by
  induction shares with
  | nil => rfl
  | cons d shares ih =>
      obtain ⟨unread, rfl⟩ := h d List.mem_cons_self
      exact ih fun d hd => h d (List.mem_cons_of_mem _ hd)

theorem Steady.shared {s : Stdin} (h : Steady share s.source) (rest : σ) :
    s.shared (share rest) = s := by
  obtain ⟨unread, source, eof⟩ := s
  rcases h with ⟨⟨text, rfl⟩, hexits⟩ | hnone
  · rw [Stdin.shared, foldl_exits text (hexits rest)]
  · rw [Stdin.shared, hnone rest]
    rfl

end Steady

/-! ### The `exit` lines -/

/-- The line is `exit`, up to a newline or a zero. -/
def IsExit (l : Text) : Prop := (cstr l).takeWhile (· ≠ '\n') = "exit".toList

instance (l : Text) : Decidable (IsExit l) := inferInstanceAs (Decidable (_ = _))

section Loops

variable {σ : Type}

theorem cstr_of_holds {buf line : Text} (h : Holds buf line) : cstr buf = cstr line := by
  obtain ⟨rest, rfl⟩ := h
  rw [List.append_assoc, List.singleton_append, cstr_append_nul_eq_cstr]

/-- What is left of a string when its newlines are overwritten. -/
theorem cstr_cutNewlines {buf : Text} (h : '\x00' ∈ buf) :
    cstr (cutNewlines buf) = (cstr buf).takeWhile (· ≠ '\n') := by
  induction buf with
  | nil => cases h
  | cons c buf ih =>
      by_cases hc : c = '\x00'
      · simp [cutNewlines, cstr, hc]
      · have hmem : '\x00' ∈ buf := (List.mem_cons.1 h).resolve_left (Ne.symm hc)
        have hcons : cstr (c :: buf) = c :: cstr buf := by simp [cstr, hc]
        by_cases hnewline : c = '\n'
        · simp [cutNewlines, hnewline, cstr]
        · have hcut : cutNewlines (c :: buf) = c :: cutNewlines buf := by
            simp [cutNewlines, hcons, hnewline]
          have hcut' : cstr (c :: cutNewlines buf) = c :: cstr (cutNewlines buf) := by
            simp [cstr, hc]
          rw [hcut, hcut', ih hmem, hcons, List.takeWhile_cons_of_pos (by simpa using hnewline)]

theorem length_cutNewlines (buf : Text) : (cutNewlines buf).length = buf.length := by
  have hle : (cstr buf).length ≤ buf.length := (List.takeWhile_prefix _).length_le
  simp only [cutNewlines, List.length_append, List.length_map, List.length_drop]
  omega

theorem nul_mem_of_holds {buf line : Text} (h : Holds buf line) : '\x00' ∈ buf :=
  h.mem (List.mem_append_right _ List.mem_cons_self)

/-- **A turn of the shell**: it leaves the loop when the line is `exit`, and else goes on behind it. -/
theorem shellTurn_cases (env : Env σ) {s : ShellState σ} (hs : Usable (s.buffer, [])) :
    IsExit (nextLine (s.stdin.offered s.interrupt)).1 ∧ shellTurn env s = .left ∨
      ¬ IsExit (nextLine (s.stdin.offered s.interrupt)).1 ∧ ∃ buffer rest, 300 ≤ buffer.length ∧
        shellTurn env s = .again ⟨some buffer, (s.stdin.read env.blksize s.interrupt
          (nextLine (s.stdin.offered s.interrupt)).2).shared (env.share rest), env.interrupt rest,
            rest⟩ := by
  obtain ⟨buf, hcall, hholds, hlen⟩ :=
    linegetFrom_eq (by omega) env.junk hs (s.stdin.offered s.interrupt)
  have hstring := cstr_of_holds hholds
  have hcut := cstr_cutNewlines (nul_mem_of_holds hholds)
  rw [hstring] at hcut
  rw [shellTurn, lineget, hcall, IsExit, ← hcut]
  dsimp only
  rw [hstring]
  by_cases hempty : cstr (nextLine (s.stdin.offered s.interrupt)).1 = ['\n']
  · right
    rw [if_pos hempty, hcut, hempty]
    exact ⟨by decide, buf, _, hlen, rfl⟩
  · rw [if_neg hempty]
    by_cases hexit : cstr (cutNewlines buf) = "exit".toList
    · exact Or.inl ⟨hexit, if_pos hexit⟩
    · right
      rw [if_neg hexit]
      exact ⟨hexit, cutNewlines buf, _, (length_cutNewlines buf).symm ▸ hlen, rfl⟩

theorem usable_some {buffer : Text} (h : 300 ≤ buffer.length) : Usable (some buffer, []) := by
  intro buf hbuf
  exact Option.some_inj.1 hbuf ▸ h

/-- The shell's loop, when its children leave the input alone. -/
theorem readsLines_shellTurn (env : Env σ) (hpos : 0 < env.blksize)
    (hinterrupt : ∀ rest, env.interrupt rest = none) :
    ReadsLines (shellTurn env)
      (fun s u => (Usable (s.buffer, []) ∧ Steady env.share s.stdin.source) ∧ s.interrupt = none ∧
        s.stdin.text = u) (fun _ => True) IsExit := by
  rintro s u ⟨⟨hbuffer, hsteady⟩, hnone, rfl⟩ -
  have hturn := shellTurn_cases env hbuffer
  rw [hnone, Stdin.offered] at hturn
  refine hturn.imp_right ?_
  rintro ⟨hexit, buffer, rest, hlen, hagain⟩
  obtain ⟨n, hsource⟩ := exists_source_read env.blksize none s.stdin (nextLine s.stdin.text).2
  have hsteady' : Steady env.share (s.stdin.read env.blksize none (nextLine s.stdin.text).2).source :=
    hsource ▸ hsteady.advance n
  rw [hsteady'.shared] at hagain
  exact ⟨hexit, _, hagain, ⟨usable_some hlen, hsteady'⟩, hinterrupt rest, text_read hpos s.stdin⟩

/-- The shell's loop, for the lines that are in its buffer. -/
theorem readsLines_shellTurn_buffered (env : Env σ) :
    ReadsLines (shellTurn env)
      (fun s u => Usable (s.buffer, []) ∧ Buffered env.blksize s.interrupt s.stdin u)
      (fun u => '\n' ∈ u) IsExit := by
  rintro s u ⟨hbuffer, hbuffered⟩ hmem
  obtain ⟨hline, hunread, heof⟩ := hbuffered.read hmem
  have hturn := shellTurn_cases env hbuffer
  rw [hline] at hturn
  refine hturn.imp_right ?_
  rintro ⟨hexit, buffer, rest, hlen, hagain⟩
  exact ⟨hexit, _, hagain, usable_some hlen, heof, Or.inl hunread⟩

/-- **A turn of the vote.** -/
theorem voteTurn_cases (blksize : ℕ) (junk : ℕ → Char) (command : σ → Text → Stdin → σ)
    (exits : σ → List ℕ) (s : Stdin × σ) :
    IsExit (nextLine s.1.text).1 ∧ voteTurn blksize junk command exits s = .left ∨
      ¬ IsExit (nextLine s.1.text).1 ∧ ∃ rest, voteTurn blksize junk command exits s =
        .again ((s.1.read blksize none (nextLine s.1.text).2).shared
          ((exits rest).map Share.exits), rest) := by
  have hfresh : ∀ buf : Text, none = some buf → 100 ≤ buf.length := nofun
  obtain ⟨buf, hcall, hholds, -⟩ := linegetFrom_eq (by omega) junk hfresh s.1.text
  have hcut := cstr_cutNewlines (nul_mem_of_holds hholds)
  rw [cstr_of_holds hholds] at hcut
  rw [voteTurn, linegetVote, hcall, IsExit, ← hcut]
  dsimp only
  by_cases hexit : cstr (cutNewlines buf) = "exit".toList
  · exact Or.inl ⟨hexit, if_pos hexit⟩
  · right
    rw [if_neg hexit]
    exact ⟨hexit, _, rfl⟩

theorem readsLines_voteTurn {blksize : ℕ} (hpos : 0 < blksize) (junk : ℕ → Char)
    (command : σ → Text → Stdin → σ) (exits : σ → List ℕ) :
    ReadsLines (voteTurn blksize junk command exits)
      (fun s u => Steady (fun rest => (exits rest).map Share.exits) s.1.source ∧ s.1.text = u)
      (fun _ => True) IsExit := by
  rintro s u ⟨hsteady, rfl⟩ -
  refine (voteTurn_cases blksize junk command exits s).imp_right ?_
  rintro ⟨hexit, rest, hagain⟩
  obtain ⟨n, hsource⟩ := exists_source_read blksize none s.1 (nextLine s.1.text).2
  have hsteady' := hsteady.advance n
  rw [← hsource] at hsteady'
  rw [hsteady'.shared rest] at hagain
  exact ⟨hexit, _, hagain, hsteady', text_read hpos s.1⟩

theorem readsLines_voteTurn_buffered (blksize : ℕ) (junk : ℕ → Char)
    (command : σ → Text → Stdin → σ) (exits : σ → List ℕ) :
    ReadsLines (voteTurn blksize junk command exits) (fun s u => Buffered blksize none s.1 u)
      (fun u => '\n' ∈ u) IsExit := by
  intro s u hbuffered hmem
  obtain ⟨hline, hunread, heof⟩ := hbuffered.read hmem
  rw [Stdin.offered] at hline hunread heof
  have hturn := voteTurn_cases blksize junk command exits s
  rw [hline] at hturn
  refine hturn.imp_right ?_
  rintro ⟨hexit, rest, hagain⟩
  exact ⟨hexit, _, hagain, heof, Or.inl hunread⟩

theorem readsLines_chatTurn (command : σ → Text → σ) (send : σ → σ) :
    ReadsLines (chatTurn command send) (fun s u => s.1 = u) (fun _ => True)
      fun l => cstr l = "exit\n".toList := by
  rintro s _ rfl -
  rw [chatTurn]
  by_cases hempty : s.1 = []
  · right
    rw [if_pos hempty, hempty]
    exact ⟨by decide, _, rfl, rfl⟩
  · rw [if_neg hempty]
    by_cases hexit : cstr (nextLine s.1).1 = "exit\n".toList
    · exact Or.inl ⟨hexit, if_pos hexit⟩
    · right
      rw [if_neg hexit]
      exact ⟨hexit, _, rfl, rfl⟩

/-- The line that ends a loop is complete in the text that is looked at. -/
theorem mem_of_mem_lines {text l : Text} (hl : l ∈ lines text) (h : '\n' ∈ l) : '\n' ∈ text := by
  induction hls : lines text generalizing text with
  | nil => rw [hls] at hl; cases hl
  | cons first ls ih =>
      have hne : text ≠ [] := by
        rintro rfl
        cases hls
      rw [lines_eq hne] at hls hl
      obtain ⟨-, hrest⟩ := List.cons.inj hls
      rw [← nextLine_append text]
      rcases List.mem_cons.1 hl with rfl | hl
      · exact List.mem_append_left _ h
      · exact List.mem_append_right _ (ih hl hrest)

/-- The start of the shell. -/
def ShellState.start (source : Source) (rest : σ) : ShellState σ := ⟨none, .start source, none, rest⟩

theorem buffered_start (blksize : ℕ) (source : Source) :
    Buffered blksize none (.start source) (source.rest.take blksize) :=
  ⟨rfl, Or.inr ⟨rfl, rfl, rfl⟩⟩

theorem shell_stops_iff (env : Env σ) (hpos : 0 < env.blksize) {source : Source} (rest : σ)
    (hsteady : Steady env.share source) (hinterrupt : ∀ rest, env.interrupt rest = none) :
    Stops (shellTurn env) (.start source rest) ↔ ∃ l ∈ lines source.rest, IsExit l :=
  stops_iff_of_reader (readsLines_shellTurn env hpos hinterrupt) (by decide)
    ⟨⟨nofun, hsteady⟩, rfl, rfl⟩

theorem vote_stops_iff {blksize : ℕ} (hpos : 0 < blksize) (junk : ℕ → Char)
    (command : σ → Text → Stdin → σ) (exits : σ → List ℕ) {source : Source} (rest : σ)
    (hsteady : Steady (fun rest => (exits rest).map Share.exits) source) :
    Stops (voteTurn blksize junk command exits) (.start source, rest) ↔
      ∃ l ∈ lines source.rest, IsExit l :=
  stops_iff_of_reader (readsLines_voteTurn hpos junk command exits) (by decide) ⟨hsteady, rfl⟩

theorem chat_stops_iff (command : σ → Text → σ) (send : σ → σ) (input : Text) (rest : σ) :
    Stops (chatTurn command send) (input, rest) ↔
      ∃ l ∈ lines input, cstr l = "exit\n".toList :=
  stops_iff_of_reader (readsLines_chatTurn command send) (by decide) rfl

/-- The children of the vote only end. -/
theorem steady_exits (exits : σ → List ℕ) {source : Source}
    (h : (∃ rest, source = .stream rest) ∨ ∀ s, exits s = []) :
    Steady (fun rest => (exits rest).map Share.exits) source := by
  rcases h with hstream | hnone
  · refine Or.inl ⟨hstream, fun s d hd => ?_⟩
    obtain ⟨unread, -, rfl⟩ := List.mem_map.1 hd
    exact ⟨unread, rfl⟩
  · exact Or.inr fun s => congrArg (List.map Share.exits) (hnone s)

end Loops

/-- Commands that count the lines.  After each of them a child ends that has not read what is left. -/
def counting (blksize : ℕ) : Env ℕ :=
  ⟨blksize, fun _ => 'x', fun n _ _ => n + 1, fun _ => [.exits 5], fun _ => none⟩

/-- The vote with one child, which ends at once and has the same bytes unread as the loop. -/
def oneVoter (blksize : ℕ) : Stdin × List ℕ → Turn (Stdin × List ℕ) :=
  voteTurn blksize (fun _ => 'x')
    (fun _ line stdin => if line = "vote".toList then [stdin.unread.length] else []) id

/-- Seven votes, and then an `exit`. -/
def sevenVotes : Text := (List.replicate 7 "vote\n".toList).flatten ++ "exit\n".toList

/-- The standard input after the first of them: the child has moved the offset to the second line. -/
def movedBack : Stdin := ⟨(sevenVotes.drop 5).take 27, .file sevenVotes 5, false⟩

end EndOfInput
