/-
**ClusterShell: what a client executes of the lines it is given.**

Both threads of a client pass lines to `REPL`: the one of `main` what is typed, the one of `recvmg` what
it receives.  The function is that of the shell, without its operators but `|`; a line with a `|` is
cut up and then dropped.  It resets the flags of the shell at its start, except `badRedirectpipe`.  So one
line with two redirections `<` before a `|`, whoever has sent it, makes the client drop all that come
after it, but for the builtins.

The two threads share `argVector` and the flags without a lock, and `REPL` waits for its child.  A line
that comes to one thread while the other is in `REPL` overwrites what that call works on; it has no
result in the model, which is about the runs in which the calls in a client do not overlap.

A line ends at the first newline, also when more was received with it.  The words of a line are taken to
fit into their blocks and the stages into their rows; the flags that only steer the release of memory are
left out.

Main definitions:

* `ClusterRepl.pipeFilter`, `ClusterRepl.repl` — `pipe_filter` and `REPL`;
* `ClusterRepl.poisons`, `ClusterRepl.command` — what a line does in a client that drops nothing;
* `ClusterRepl.Calls`, `ClusterRepl.callStep` — the system with the calls of `REPL`, which may take long;
* `ClusterRepl.executed` — the commands for which a client has forked.

Main results:

* `ClusterRepl.pipeFilter_tripped`, `ClusterRepl.pipeFilter_pipeCount` — what `pipe_filter` finds;
* `ClusterRepl.forks_eq` — the commands of a list of lines;
* `ClusterRepl.repl_prefix_of_step` — no line is forgotten in a step of the system;
* `ClusterRepl.executed_of_run` — **what the clients execute in every run**.
-/

import NetworkProgramming.ClusterShell
import NetworkProgramming.ShellTokens
import NetworkProgramming.ShellHistory

set_option relaxedAutoImplicit false
set_option autoImplicit false

namespace ClusterRepl

open CString ClusterShell Runs
open Shell (Word tokens inputBefore)

/-! ### One line -/

/-- The flags that are left from line to line. -/
structure Globals where
  badRedirectpipe : Bool
  ignorePATH : Bool

def Globals.init : Globals := ⟨false, false⟩

/-- What the loop of `pipe_filter` has found. -/
structure Filtered where
  redirectionInPipe : Bool
  pipeCount : ℕ
  /-- The message about several `<` was printed. -/
  tripped : Bool

/-- The loop of `pipe_filter`, at word `i` with `rest` ahead of it. -/
def pipeFilterLoop (argv : List Word) : List Word → ℕ → Bool → ℕ → Filtered
  | [], _, redirectionInPipe, pipeCount => ⟨redirectionInPipe, pipeCount, false⟩
  | w :: rest, i, redirectionInPipe, pipeCount =>
      if w = "|".toList then
        if inputBefore argv i && redirectionInPipe then ⟨redirectionInPipe, pipeCount, true⟩
        else
          pipeFilterLoop argv rest (i + 1) (redirectionInPipe || inputBefore argv i) (pipeCount + 1)
      else pipeFilterLoop argv rest (i + 1) redirectionInPipe pipeCount

/-- `pipe_filter`, with the flags that `REPL` resets. -/
def pipeFilter (argv : List Word) : Filtered := pipeFilterLoop argv argv 0 false 0

/-- What a line is taken for. -/
inductive Outcome
  | exit
  /-- `./` alone: an error message. -/
  | badDotSlash
  | cd (dir : Word)
  /-- Nothing is done. -/
  | dropped
  /-- A process is forked for the command. -/
  | forks (argv : List Word) (ignorePATH : Bool)

/-- The line in the buffer. -/
def lineOf (buffer : Text) : Text := (cstr buffer).takeWhile fun c => c != '\n'

/-- A `&` at the end is cut off. -/
def dropAmpersand (argv : List Word) : List Word :=
  if argv.getLast? = some "&".toList then argv.dropLast else argv

/-- **`REPL`.**  Its `builtin` is that of the shell. -/
def repl (g : Globals) (buffer : Text) : Globals × Outcome :=
  let line := lineOf buffer
  if line = "exit".toList then (g, .exit)
  else
    match Shell.builtin (tokens line) with
    | .badDotSlash => (g, .badDotSlash)
    | .cd dir => (g, .cd dir)
    | .other argv ignore =>
        let g := { g with ignorePATH := g.ignorePATH || ignore }
        let argv := dropAmpersand argv
        let f := pipeFilter argv
        let g := { g with badRedirectpipe := g.badRedirectpipe || f.tripped }
        if g.badRedirectpipe then (g, .dropped)
        else if 0 < f.pipeCount then (g, .dropped)
        else ({ g with ignorePATH := false }, .forks argv g.ignorePATH)

/-- A command, and whether it is looked for in the current directory. -/
abbrev Command := List Word × Bool

def Outcome.command : Outcome → Option Command
  | .forks argv ignorePATH => some (argv, ignorePATH)
  | _ => none

/-- The commands for which a process is forked, line after line. -/
def forks : Globals → List Text → List Command
  | _, [] => []
  | g, line :: lines => (repl g line).2.command.toList ++ forks (repl g line).1 lines

/-! ### What a line means -/

/-- The words behind which nothing is a builtin, without a `&` at the end. -/
def words (buffer : Text) : Option Command :=
  if lineOf buffer = "exit".toList then none
  else
    match Shell.builtin (tokens (lineOf buffer)) with
    | .badDotSlash => none
    | .cd _ => none
    | .other argv ignore => some (dropAmpersand argv, ignore)

/-- A `|` with a `<` two words before it. -/
def feedsPipe (argv : List Word) (p : Word × ℕ) : Bool :=
  decide (p.1 = "|".toList) && inputBefore argv p.2

/-- **A line after which all others are dropped**: it has more than one `|` with a `<` before it. -/
def poisons (buffer : Text) : Bool :=
  (words buffer).any fun c => 2 ≤ c.1.zipIdx.countP (feedsPipe c.1)

/-- **The command of a line**: there is none in a line with a `|`. -/
def command (buffer : Text) : Option Command :=
  (words buffer).filter fun c => !c.1.contains "|".toList

section PipeFilter

variable (argv rest : List Word) (i : ℕ) (redirectionInPipe : Bool) (pipeCount : ℕ)

theorem pipeFilterLoop_tripped :
    (pipeFilterLoop argv rest i redirectionInPipe pipeCount).tripped =
      decide (2 ≤ redirectionInPipe.toNat + (rest.zipIdx i).countP (feedsPipe argv)) := by
  fun_induction pipeFilterLoop argv rest i redirectionInPipe pipeCount with
  | case1 i redirectionInPipe => cases redirectionInPipe <;> simp
  | case2 rest i redirectionInPipe pipeCount hin =>
      rw [Bool.and_eq_true] at hin
      have hfeed : feedsPipe argv ("|".toList, i) = true := by simp [feedsPipe, hin.1]
      rw [List.zipIdx_cons, List.countP_cons_of_pos hfeed, hin.2, eq_comm, decide_eq_true_iff,
        Bool.toNat_true]
      omega
  | case3 rest i redirectionInPipe pipeCount hin ih =>
      have hfeed : feedsPipe argv ("|".toList, i) = inputBefore argv i := by simp [feedsPipe]
      rw [ih, List.zipIdx_cons, List.countP_cons, hfeed]
      -- at most one of the two summands is there, so they add up as they are joined
      cases redirectionInPipe <;> cases hi : inputBefore argv i <;> simp_all [add_comm]
  | case4 w rest i redirectionInPipe pipeCount hop ih =>
      have hfeed : ¬ feedsPipe argv (w, i) = true := by
        rw [feedsPipe, decide_eq_false hop, Bool.false_and]
        exact Bool.false_ne_true
      rw [ih, List.zipIdx_cons, List.countP_cons_of_neg hfeed]

theorem pipeFilterLoop_pipeCount
    (h : (pipeFilterLoop argv rest i redirectionInPipe pipeCount).tripped = false) :
    (pipeFilterLoop argv rest i redirectionInPipe pipeCount).pipeCount =
      pipeCount + rest.count "|".toList := by
  fun_induction pipeFilterLoop argv rest i redirectionInPipe pipeCount with
  | case1 => rfl
  | case2 => cases h
  | case3 rest i redirectionInPipe pipeCount hin ih =>
      rw [ih h, List.count_cons_self]
      exact Nat.add_right_comm ..
  | case4 w rest i redirectionInPipe pipeCount hop ih =>
      rw [ih h, List.count_cons_of_ne hop]

end PipeFilter

section Filter

variable (argv : List Word)

/-- **`pipe_filter` trips over the second stage that reads from a file.** -/
theorem pipeFilter_tripped :
    (pipeFilter argv).tripped = decide (2 ≤ argv.zipIdx.countP (feedsPipe argv)) := by
  rw [pipeFilter, pipeFilterLoop_tripped, Bool.toNat_false, Nat.zero_add]

theorem pipeFilter_pipeCount (h : (pipeFilter argv).tripped = false) :
    0 < (pipeFilter argv).pipeCount ↔ "|".toList ∈ argv := by
  rw [pipeFilter, pipeFilterLoop_pipeCount _ _ _ _ _ h, Nat.zero_add, List.count_pos_iff]

end Filter

section Line

variable {g : Globals} {buffer : Text} {argv : List Word} {ignore : Bool}

/-- A builtin leaves the flags as they are. -/
theorem repl_of_words_eq_none (h : words buffer = none) :
    (repl g buffer).1 = g ∧ (repl g buffer).2.command = none := by
  unfold words at h
  split_ifs at h with hexit
  · rw [repl, if_pos hexit]
    exact ⟨rfl, rfl⟩
  · rw [repl, if_neg hexit]
    split at h
    · exact ⟨rfl, rfl⟩
    · exact ⟨rfl, rfl⟩
    · cases h

/-- A line that is not a builtin. -/
theorem repl_of_words (h : words buffer = some (argv, ignore)) :
    repl g buffer =
      if (g.badRedirectpipe || (pipeFilter argv).tripped) = true then
        (⟨g.badRedirectpipe || (pipeFilter argv).tripped, g.ignorePATH || ignore⟩, .dropped)
      else if 0 < (pipeFilter argv).pipeCount then
        (⟨g.badRedirectpipe || (pipeFilter argv).tripped, g.ignorePATH || ignore⟩, .dropped)
      else
        (⟨g.badRedirectpipe || (pipeFilter argv).tripped, false⟩,
          .forks argv (g.ignorePATH || ignore)) := by
  unfold words at h
  split_ifs at h with hexit
  split at h
  · cases h
  · cases h
  · next hbuiltin =>
      obtain ⟨rfl, rfl⟩ := Prod.ext_iff.1 (Option.some_inj.1 h)
      simp only [repl, if_neg hexit, hbuiltin]

/-- The word behind `./` is a command of its own. -/
theorem no_pipe_of_ignorePATH (h : words buffer = some (argv, true)) : "|".toList ∉ argv := by
  unfold words at h
  split_ifs at h
  split at h
  · cases h
  · cases h
  · next hbuiltin =>
      injection h with h
      injection h with hargv hignore
      rw [hignore] at hbuiltin
      obtain ⟨rest, hrest⟩ := Shell.builtin_ignorePATH hbuiltin
      rw [← hargv, hrest]
      simp [dropAmpersand]

theorem poisons_of_words (h : words buffer = some (argv, ignore)) :
    poisons buffer = (pipeFilter argv).tripped := by
  rw [poisons, h, pipeFilter_tripped]
  rfl

theorem poisons_of_words_eq_none (h : words buffer = none) : poisons buffer = false := by
  rw [poisons, h]
  rfl

theorem command_of_words (h : words buffer = some (argv, ignore)) :
    command buffer = if "|".toList ∈ argv then none else some (argv, ignore) := by
  rw [command, h]
  split_ifs with hpipe
  · exact Option.filter_some_neg (by rw [List.contains_iff_mem.2 hpipe, Bool.not_true])
  · exact Option.filter_some_pos (by rw [List.contains_eq_mem, decide_eq_false hpipe, Bool.not_false])

theorem command_of_words_eq_none (h : words buffer = none) : command buffer = none := by
  rw [command, h]
  rfl

/-- **Once the flag is raised, no line makes a process.** -/
theorem repl_of_bad (hbad : g.badRedirectpipe = true) (line : Text) :
    (repl g line).1.badRedirectpipe = true ∧ (repl g line).2.command = none := by
  cases hw : words line with
  | none =>
      obtain ⟨hg, hcommand⟩ := repl_of_words_eq_none (g := g) hw
      exact ⟨(congrArg _ hg).trans hbad, hcommand⟩
  | some c =>
      rw [repl_of_words hw, hbad, Bool.true_or, if_pos rfl]
      exact ⟨rfl, rfl⟩

/-- A line that raises the flag. -/
theorem repl_of_poisons (h : poisons buffer = true) :
    (repl g buffer).1.badRedirectpipe = true ∧ (repl g buffer).2.command = none := by
  cases hw : words buffer with
  | none => rw [poisons_of_words_eq_none hw] at h; cases h
  | some c =>
      rw [poisons_of_words hw] at h
      rw [repl_of_words hw, h, Bool.or_true, if_pos rfl]
      exact ⟨rfl, rfl⟩

/-- **Any other line does what it says**, and leaves no flag raised. -/
theorem repl_init (h : poisons buffer = false) :
    (repl .init buffer).1 = .init ∧ (repl .init buffer).2.command = command buffer := by
  cases hw : words buffer with
  | none =>
      obtain ⟨hg, hcommand⟩ := repl_of_words_eq_none (g := .init) hw
      exact ⟨hg, hcommand.trans (command_of_words_eq_none hw).symm⟩
  | some c =>
      obtain ⟨argv, ignore⟩ := c
      have htripped : (pipeFilter argv).tripped = false := poisons_of_words hw ▸ h
      have hcount := pipeFilter_pipeCount argv htripped
      rw [repl_of_words hw, command_of_words hw, htripped]
      by_cases hpipe : "|".toList ∈ argv
      · have hignore : ignore = false := by
          cases ignore with
          | false => rfl
          | true => exact absurd hpipe (no_pipe_of_ignorePATH hw)
        rw [if_neg (by simp [Globals.init]), if_pos (hcount.2 hpipe), if_pos hpipe, hignore]
        exact ⟨rfl, rfl⟩
      · rw [if_neg (by simp [Globals.init]), if_neg (mt hcount.1 hpipe), if_neg hpipe]
        cases ignore <;> exact ⟨rfl, rfl⟩

end Line

/-! ### Many lines -/

theorem forks_of_bad {g : Globals} (hbad : g.badRedirectpipe = true) (lines : List Text) :
    forks g lines = [] := by
  induction lines generalizing g with
  | nil => rfl
  | cons line lines ih =>
      obtain ⟨hbad', hcommand⟩ := repl_of_bad hbad line
      rw [forks, hcommand, ih hbad']
      rfl

/-- **The commands of a list of lines**: those of the lines before the first one that trips the
client. -/
theorem forks_eq (lines : List Text) :
    forks .init lines = (lines.takeWhile fun line => !poisons line).filterMap command := by
  induction lines with
  | nil => rfl
  | cons line lines ih =>
      cases hp : poisons line with
      | true =>
          obtain ⟨hbad, hcommand⟩ := repl_of_poisons (g := .init) hp
          rw [forks, hcommand, forks_of_bad hbad, List.takeWhile_cons_of_neg (by simp [hp])]
          rfl
      | false =>
          obtain ⟨hg, hcommand⟩ := repl_init hp
          rw [forks, hg, hcommand, ih, List.takeWhile_cons_of_pos (by simp [hp]),
            List.filterMap_cons]
          cases command line <;> rfl

/-! ### Runs -/

/-- The lines that were passed to the `REPL` of client `i`. -/
def lines (s : State) (i : ℕ) : List Text :=
  (s.repl.filter fun p => decide (p.1 = i)).map Prod.snd

/-- The system, and which of the clients are in `REPL`. -/
structure Calls where
  sys : State
  running : ℕ → Bool

/-- A step of the system, or a call of `REPL` returns. -/
inductive CallEvent
  | step (e : Event)
  | returns (i : ℕ)

/-- The lines that a step passes to `REPL`. -/
def passed (s s' : State) : List (ℕ × Text) := s'.repl.drop s.repl.length

/-- **A step with the calls of `REPL`**: none begins in a client before the one before it has
returned. -/
def callStep (cfg : Config) (c : Calls) : CallEvent → Option Calls
  | .step e =>
      (step cfg c.sys e).bind fun s =>
        if ∃ p ∈ passed c.sys s, c.running p.1 = true then none
        else some ⟨s, fun i => c.running i || (passed c.sys s).any fun p => decide (p.1 = i)⟩
  | .returns i => some { c with running := Function.update c.running i false }

/-- The commands for which client `i` has forked a process, when its calls do not overlap. -/
def executed (s : State) (i : ℕ) : List Command := forks .init (lines s i)

theorem lines_mono {s s' : State} (h : s.repl <+: s'.repl) (i : ℕ) :
    lines s i <+: lines s' i :=
  (h.filter _).map _

section Serve

variable (cfg : Config) (s : State) (i : ℕ) (buf m : Text)

theorem sendToAll_repl : (sendToAll cfg s m).repl = s.repl := by
  unfold sendToAll
  induction List.range cfg.names.length generalizing s with
  | nil => rfl
  | cons j js ih => exact (ih (s.send j m)).trans (send_repl j m)

theorem relayNode_repl : (relayNode cfg s i buf).repl = s.repl := by
  unfold relayNode
  dsimp only
  split
  · rfl
  · exact send_repl ..

theorem relayStar_repl : (relayStar cfg s i buf).repl = s.repl := by
  unfold relayStar
  split_ifs
  · exact sendToAll_repl ..
  · rfl

/-- The server executes nothing in the clients. -/
theorem serve_repl : (serve cfg s i buf).repl = s.repl := by
  unfold serve
  split
  · rfl
  · split
    · exact send_repl ..
    · split
      · split
        · exact send_repl ..
        · rfl
      · exact (relayStar_repl ..).trans (relayNode_repl ..)

end Serve

/-- **No line is forgotten in a step.** -/
theorem repl_prefix_of_step {cfg : Config} {s s' : State} {e : Event}
    (h : step cfg s e = some s') : s.repl <+: s'.repl := by
  cases e with
  | types i line =>
      simp only [step] at h
      split at h
      · cases h
      · split_ifs at h with hno hexit hremote
        · rw [← Option.some_inj.1 h]
        · rw [← Option.some_inj.1 h]
        · rw [← Option.some_inj.1 h]
          exact List.prefix_append ..
  | serve i len =>
      simp only [step] at h
      split_ifs at h
      rw [← Option.some_inj.1 h, serve_repl]
  | recv i len =>
      simp only [step] at h
      split_ifs at h
      rw [← Option.some_inj.1 h]
      exact List.prefix_append ..
  | output i text =>
      simp only [step] at h
      split_ifs at h
      rw [← Option.some_inj.1 h]

section Trip

variable {ls ls' : List Text}

/-- What was executed stays executed. -/
theorem forks_mono (h : ls <+: ls') : forks .init ls <+: forks .init ls' := by
  obtain ⟨more, rfl⟩ := h
  rw [forks_eq, forks_eq, List.takeWhile_append]
  refine List.IsPrefix.filterMap _ ?_
  split_ifs
  · exact (List.takeWhile_prefix _).trans (List.prefix_append ..)
  · exact List.prefix_rfl

/-- After a line that trips the client, more lines make no difference. -/
theorem forks_of_poisons (h : ls <+: ls') (hstop : ∃ line ∈ ls, poisons line = true) :
    forks .init ls' = forks .init ls := by
  obtain ⟨more, rfl⟩ := h
  obtain ⟨line, hline, hpoisons⟩ := hstop
  rw [forks_eq, forks_eq, List.takeWhile_append, if_neg]
  intro hall
  have hself := (List.takeWhile_prefix fun line => !poisons line).eq_of_length hall
  have hnot := List.mem_takeWhile_imp (hself.symm ▸ hline)
  simp [hpoisons] at hnot

end Trip

/-- No line is forgotten where the calls do not overlap. -/
theorem repl_prefix_of_callStep {cfg : Config} {c c' : Calls} {e : CallEvent}
    (h : callStep cfg c e = some c') : c.sys.repl <+: c'.sys.repl := by
  cases e with
  | step e =>
      obtain ⟨s, hstep, hs⟩ := Option.bind_eq_some_iff.1 h
      split_ifs at hs
      obtain rfl := Option.some_inj.1 hs
      exact repl_prefix_of_step hstep
  | returns i =>
      obtain rfl := Option.some_inj.1 h
      exact List.prefix_rfl

/-- **What the clients execute in every run** in which the calls of `REPL` do not overlap: the commands
of the lines before the first one that trips the client, whether it was typed there or received.  Once
such a line was passed to `REPL`, nothing is executed any more. -/
theorem executed_of_run {cfg : Config} {es : List CallEvent} {c c' : Calls}
    (hrun : run (callStep cfg) c es = some c') (i : ℕ) :
    executed c'.sys i =
        ((lines c'.sys i).takeWhile fun line => !poisons line).filterMap command ∧
      executed c.sys i <+: executed c'.sys i ∧
      ((∃ line ∈ lines c.sys i, poisons line = true) → executed c'.sys i = executed c.sys i) := by
  have hrepl : c.sys.repl <+: c'.sys.repl :=
    run_invariant (I := fun d => c.sys.repl <+: d.sys.repl)
      (fun _ _ _ ht he => ht.trans (repl_prefix_of_callStep he)) List.prefix_rfl hrun
  have hlines := lines_mono hrepl i
  exact ⟨forks_eq _, forks_mono hlines, forks_of_poisons hlines⟩

/-- A request to the first of two nodes that trips its client. -/
def tripRun : List CallEvent :=
  [.step (.types 1 "n1.a < b | c < d | e\n".toList), .step (.serve 1 23), .step (.recv 0 19),
    .returns 0]

/-- The state after these steps. -/
def tripEnd : Calls :=
  (run (callStep pair) ⟨State.init fun _ => [], fun _ => false⟩ tripRun).get (by decide)

/-- The state after a command was then typed at that client. -/
def listEnd : Calls :=
  (run (callStep pair) tripEnd [.step (.types 0 "ls\n".toList)]).get (by decide)

theorem executed_of_run_trip :
    lines listEnd.sys 0 = ["a < b | c < d | e\n".toList, "ls\n".toList] ∧
      executed listEnd.sys 0 = executed tripEnd.sys 0 ∧ executed tripEnd.sys 0 = [] :=
  ⟨by decide,
    (executed_of_run
      (show run (callStep pair) tripEnd [.step (.types 0 "ls\n".toList)] = some listEnd from
        (Option.some_get _).symm) 0).2.2 (by decide),
    by decide⟩

end ClusterRepl
