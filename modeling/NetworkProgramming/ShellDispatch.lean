/-
**MyShell: how the command loop dispatches a line.**

`main` of `MyShell/shell.c` reads a line, cuts it into words and decides what it is: a builtin, `fg`
or `bg`, a daemon, a pipeline, a redirection, a fan-out over a message queue or shared memory, or an
external command.  The decision is spread over `initArgs`, `builtin`, `pipe_filter`,
`output_redirection` and `redirection_with_pipes_and_ipc`, which talk to one another through about a
dozen global flags.  This module embeds that logic with the flags as an explicit record, so that it
can be asked what one line leaves behind for the next (`ShellHistory`) and which processes are
forked for it (`ShellFork`).

Allocation sizes are not modelled: every table and string buffer is taken to be large enough.  A
null pointer that the shell process itself follows is `Dispatch.crash`.

Main definitions:

* `Shell.Globals` — the parsing flags, with `Globals.init` as a fresh shell has them;
* `Shell.initArgs`, `Shell.builtin`, `Shell.pipeFilter`, `Shell.outputRedirection`,
  `Shell.redirectionWithPipesAndIpc` — the functions of the source;
* `Shell.Dispatch`, `Shell.handleLine` — what a line is taken for, and one pass of the loop.
-/

import Mathlib.Tactic

set_option relaxedAutoImplicit false
set_option autoImplicit false

namespace Shell

/-! ### Words and flags -/

/-- A C string. -/
abbrev Word := List Char

/-- `enum ptype`. -/
inductive Ptype
  | none
  | pipe
  | msg
  | shm
  deriving DecidableEq

/-- The global variables of the parser.  The ones that only steer the release of memory
(`bgcount`, `argLength`) are left out. -/
structure Globals where
  isBackground : Bool
  redirectionInPipe : Bool
  redirectionOutPipe : Bool
  badRedirectpipe : Bool
  pipeCount : ℕ
  redirect : Bool
  pipeargCount : ℕ
  lastPipe : ℕ
  ignorePATH : Bool
  noinitCmd : Bool
  isDaemon : Bool
  pipeType : Ptype
  deriving DecidableEq

/-- The flags of a freshly started shell. -/
def Globals.init : Globals :=
  { isBackground := false
    redirectionInPipe := false
    redirectionOutPipe := false
    badRedirectpipe := false
    pipeCount := 0
    redirect := false
    pipeargCount := 0
    lastPipe := 0
    ignorePATH := false
    noinitCmd := false
    isDaemon := false
    pipeType := .none }

/-! ### Cutting a line into words -/

/-- The loop of `initArgs`: the characters left, the words finished, the word being filled, and
`is_daemon`.  A leading `daemonize` is dropped, once, and recorded in `is_daemon`. -/
def initArgsLoop : List Char → List Word → Word → Bool → List Word × Bool
  | [], done, cur, daemon => (done ++ [cur], daemon)
  | c :: cs, done, cur, daemon =>
      if c = ' ' ∧ cs.head? = some ' ' then initArgsLoop cs done cur daemon
      else if c = ' ' then
        if done = [] ∧ daemon = false ∧ cur = "daemonize".toList then initArgsLoop cs [] [] true
        else initArgsLoop cs (done ++ [cur]) [] daemon
      else initArgsLoop cs done (cur ++ [c]) daemon

/-- `initArgs`: the words of a line, `argVector[0..count]`, and the new `is_daemon`. -/
def initArgs (buffer : List Char) (daemon : Bool) : List Word × Bool :=
  initArgsLoop buffer [] [] daemon

/-! ### Builtins -/

/-- What `builtin` makes of the words. -/
inductive Builtin
  /-- `./` alone: an error message. -/
  | badDotSlash
  /-- `cd` with a directory. -/
  | cd (dir : Word)
  /-- Not a builtin: the words to go on with, and whether `ignorePATH` is raised. -/
  | other (argv : List Word) (ignorePATH : Bool)

/-- `builtin`: `./name` alone loses its dot and raises `ignorePATH`. -/
def builtin (argv : List Word) : Builtin :=
  match argv with
  | ['.' :: '/' :: rest] => if rest = [] then .badDotSlash else .other ['/' :: rest] true
  | cmd :: dir :: _ => if cmd = "cd".toList then .cd dir else .other argv false
  | _ => .other argv false

/-! ### Pipelines -/

/-- The words that join the stages of a pipeline. -/
def isPipeOp (w : Word) : Bool := w = "|".toList || w = "#".toList || w = "S".toList

/-- The pipe type a word announces, if it is an operator. -/
def pipeTypeOf (w : Word) (old : Ptype) : Ptype :=
  if w = "|".toList then .pipe else if w = "#".toList then .msg
  else if w = "S".toList then .shm else old

/-- `count_pipes`: the last operator decides the pipe type; without one, `noinit_cmd` is raised. -/
def countPipes (argv : List Word) (g : Globals) : Globals :=
  { g with
    pipeType := argv.foldl (fun t w => pipeTypeOf w t) g.pipeType
    noinitCmd := g.noinitCmd || !argv.any isPipeOp }

/-- Word `i` is an operator two words after a `<`. -/
def inputBefore (argv : List Word) (i : ℕ) : Bool :=
  decide (2 < i) && argv[i - 2]? == some "<".toList

/-- What `pipe_filter` leaves behind: the flags, the stages cut off so far, and whether it printed
its message about several `<`. -/
structure Filtered where
  globals : Globals
  stages : List (List Word)
  tripped : Bool

/-- The loop of `pipe_filter`, at word `i` with `rest` ahead of it. -/
def pipeFilterLoop (argv : List Word) :
    List Word → ℕ → Globals → List (List Word) → Filtered
  | [], _, g, stages => ⟨g, stages, false⟩
  | w :: rest, i, g, stages =>
      let g := { g with pipeargCount := g.pipeargCount + 1 }
      if isPipeOp w then
        if inputBefore argv i && g.redirectionInPipe then
          ⟨{ g with badRedirectpipe := true }, stages, true⟩
        else
          let stage := if g.lastPipe = 0 then argv.take i
            else (argv.take i).drop (g.lastPipe + 1)
          pipeFilterLoop argv rest (i + 1)
            { g with
              redirectionInPipe := g.redirectionInPipe || inputBefore argv i
              lastPipe := i
              pipeCount := g.pipeCount + 1 }
            (stages ++ [stage])
      else pipeFilterLoop argv rest (i + 1) g stages

/-- `pipe_filter`. -/
def pipeFilter (argv : List Word) (g : Globals) : Filtered :=
  pipeFilterLoop argv argv 0 (countPipes argv g) []

/-- The part of `output_redirection` before the call of `executePipe`: the last stage is added, and
a `>` or `>>` before the last word is noted.  Without stages, the call is not reached. -/
def outputRedirection (argv : List Word) (g : Globals) (stages : List (List Word)) :
    Globals × Option (List (List Word)) :=
  let stages := stages ++ [(argv.drop (g.lastPipe + 1)).filter fun w => !isPipeOp w]
  if 2 ≤ g.pipeargCount ∧ (argv[g.pipeargCount - 2]? = some ">".toList ∨
      argv[g.pipeargCount - 2]? = some ">>".toList) then
    if g.redirectionOutPipe then ({ g with badRedirectpipe := true }, none)
    else ({ g with redirectionOutPipe := true }, some stages)
  else (g, some stages)

/-! ### Redirections and fan-outs -/

/-- The argument of `execRedirect`: `0`, `1` or `2`. -/
inductive Redirection
  | output
  | input
  | append
  deriving DecidableEq

/-- What `redirection_with_pipes_and_ipc` finds. -/
inductive Found
  /-- No operator. -/
  | nothing
  /-- A `>` or `>>` at or before the last pipe position. -/
  | beforePipe
  | redirect (kind : Redirection) (cmd target : List Word)
  /-- A sixth word beside a `>`, `>>` or `<`: it is copied to a null pointer. -/
  | sixthWord
  | msgQ (cmd : List Word) (sinks : List (List Word))
  | shm (cmd : List Word) (sinks : List (List Word))
  deriving DecidableEq

/-- The sinks of a fan-out: the words between the commas. -/
def sinks : List Word → List (List Word)
  | [] => [[]]
  | w :: rest =>
      if w = ",".toList then [] :: sinks rest
      else match sinks rest with
        | [] => [[w]]
        | s :: ss => (w :: s) :: ss

/-- The copies to `redirectcmd1` and `redirectcmd2`, which have buffers for five words. -/
def redirectTo (kind : Redirection) (cmd target : List Word) : Found :=
  if cmd.length ≤ 5 ∧ target.length ≤ 5 then .redirect kind cmd target else .sixthWord

/-- The loop of `redirection_with_pipes_and_ipc`, at word `i`: the first operator decides. -/
def redirectionLoop (argv : List Word) (lastPipe : ℕ) : List Word → ℕ → Found
  | [], _ => .nothing
  | w :: rest, i =>
      if w = ">".toList ∨ w = ">>".toList then
        if i ≤ lastPipe then .beforePipe
        else redirectTo (if w = ">".toList then .output else .append)
          (if 0 < lastPipe then (argv.take i).drop (lastPipe + 1) else argv.take i) rest
      else if w = "<".toList then redirectTo .input (argv.take i) rest
      else if w = "##".toList then .msgQ (argv.take i) (sinks rest)
      else if w = "SS".toList then .shm (argv.take i) (sinks rest)
      else redirectionLoop argv lastPipe rest (i + 1)

/-- `redirection_with_pipes_and_ipc`, up to the execution of what it finds. -/
def redirectionWithPipesAndIpc (argv : List Word) (g : Globals) : Found :=
  redirectionLoop argv g.lastPipe argv 0

/-! ### One pass of the command loop -/

/-- The messages with which a line is rejected. -/
inductive Rejection
  /-- `myShell: Executabe must be a valid string` -/
  | badDotSlash
  /-- `myShell: Multiple Indirection Operators with Pipes` -/
  | multipleIn
  /-- `myShell: Multiple Outdirection Operators with Pipes` -/
  | multipleOut
  /-- `myShell: Output Redirection before a pipe` -/
  | beforePipe
  /-- The loop goes on without a message. -/
  | silent
  deriving DecidableEq

/-- What a line is taken for. -/
inductive Dispatch
  | prompt
  | exit
  | printlist
  | rejected (why : Rejection)
  | builtin (dir : Word)
  | fg (arg : Word)
  | bg (arg : Word)
  | daemon (argv : List Word)
  | pipeline (type : Ptype) (stages : List (List Word)) (redirIn redirOut : Bool)
  | redirection (kind : Redirection) (cmd target : List Word)
  | msgQ (cmd : List Word) (sinks : List (List Word))
  | shm (cmd : List Word) (sinks : List (List Word))
  | external (argv : List Word) (background ignorePATH : Bool)
  /-- The shell follows a null pointer. -/
  | crash
  deriving DecidableEq

/-- The outcome of one pass: what the line is taken for, the flags at the next prompt (`none` when
the shell has ended), and the flags that a process forked by `main` itself carries when it comes
back to the loop. -/
structure Handled where
  dispatch : Dispatch
  next : Option Globals
  forked : Globals

/-- The flags a line that ended in `continue` after `pipe_filter` leaves behind. -/
def Globals.continued (g : Globals) : Globals := { g with noinitCmd := false, lastPipe := 0 }

/-- The pass from `redirection_with_pipes_and_ipc` on. -/
def handleFound (argv : List Word) (g : Globals) : Handled :=
  match redirectionWithPipesAndIpc argv g with
  | .nothing =>
      if g.redirect then ⟨.rejected .silent, some { g.continued with redirect := false }, g⟩
      else ⟨.external argv g.isBackground g.ignorePATH,
        -- with no word left, `insert_background_job` copies `argVector[0]`, which is null
        if argv = [] then none
        else some { g.continued with isBackground := false, ignorePATH := false }, g⟩
  | .beforePipe =>
      ⟨.rejected .beforePipe, some { g.continued with redirect := false }, g⟩
  | .redirect kind cmd target =>
      ⟨.redirection kind cmd target, some { g.continued with redirect := false }, g⟩
  | .sixthWord => ⟨.crash, none, g⟩
  | .msgQ cmd ss => ⟨.msgQ cmd ss, some { g.continued with redirect := false }, g⟩
  | .shm cmd ss => ⟨.shm cmd ss, some { g.continued with redirect := false }, g⟩

/-- The pass from `pipe_filter` on. -/
def handleArgs (argv : List Word) (g : Globals) : Handled :=
  let f := pipeFilter argv g
  if f.globals.badRedirectpipe then
    ⟨.rejected (if f.tripped then .multipleIn else .silent), some f.globals.continued, f.globals⟩
  else if 0 < f.globals.pipeCount then
    let o := outputRedirection argv f.globals f.stages
    match o.2 with
    | none => ⟨.rejected .multipleOut, some o.1.continued, o.1⟩
    | some stages =>
        ⟨.pipeline o.1.pipeType stages o.1.redirectionInPipe o.1.redirectionOutPipe,
          some o.1.continued, o.1⟩
  else handleFound argv f.globals

/-- The pass from the test for `&` on. -/
def handleWords (argv : List Word) (g : Globals) : Handled :=
  if argv.getLast? = some "&".toList then handleArgs argv.dropLast { g with isBackground := true }
  else if argv.head? = some "fg".toList then
    match argv[1]? with
    | none => ⟨.crash, none, g⟩
    | some arg => ⟨.fg arg, some { g with isBackground := false }, g⟩
  else if argv.head? = some "bg".toList then
    match argv[1]? with
    | none => ⟨.crash, none, g⟩
    | some arg => ⟨.bg arg, some { g with isBackground := false }, g⟩
  else if g.isDaemon then ⟨.daemon argv, some { g with isDaemon := false }, g⟩
  else handleArgs argv g

/-- The flags that every line but an empty one starts from. -/
def Globals.reset (g : Globals) : Globals :=
  { g with
    redirectionInPipe := false
    redirectionOutPipe := false
    pipeCount := 0
    pipeargCount := 0
    pipeType := .none }

/-- **One pass of the command loop** on the line `buffer`, as `lineget` returns it. -/
def handleLine (g : Globals) (buffer : List Char) : Handled :=
  if buffer = ['\n'] then ⟨.prompt, some { g with pipeType := .none }, g⟩
  else
    let g := g.reset
    let buffer := buffer.takeWhile fun c => c != '\n'
    if buffer = "exit".toList then ⟨.exit, none, g⟩
    else if buffer = "printlist".toList then ⟨.printlist, some g, g⟩
    else
      let a := initArgs buffer g.isDaemon
      let g := { g with isDaemon := a.2 }
      match builtin a.1 with
      | .badDotSlash => ⟨.rejected .badDotSlash, some g, g⟩
      | .cd dir => ⟨.builtin dir, some g, g⟩
      | .other argv ignore => handleWords argv { g with ignorePATH := g.ignorePATH || ignore }

/-- The prompt-to-prompt step of the shell. -/
def lineStep (g : Globals) (buffer : List Char) : Option Globals := (handleLine g buffer).next

end Shell
