/-
**MyShell: the processes that are forked for a line.**

Only one process should read command lines.  Every process that the shell forks for a line is meant
to run a program or to exit, but the fork sites differ in what follows a search through `PATH` that
finds nothing: the child of a pipeline or of a daemon exits, the child of a redirection falls out of
`execRedirect` and goes on as a second shell, and so does the child of an external command when the
configuration is empty.  The stages of a `#` pipeline are forked and then left to themselves.

This module gives the fate of every forked process for every dispatch of a line, and follows all
processes that execute the loop.

Main definitions:

* `Shell.Fate`, `Shell.ForkEnv` — what becomes of a forked process, and what that depends on;
* `Shell.executeChild`, `Shell.executePipe`, `Shell.execRedirect`, `Shell.shellMsgQ`,
  `Shell.shellShm`, `Shell.daemonizeProcess` — the processes forked by the functions of the source;
* `Shell.LoopState`, `Shell.loopStep` — the processes that execute the command loop;
* `Shell.Contained` — the lines whose processes all run a program or exit.

Main results:

* `Shell.ends_lineFates_iff` — for every dispatch, exactly when all its processes end;
* `Shell.readers_eq_shell` — **one reader**: the shell alone executes the loop.
-/

import NetworkProgramming.Runs
import NetworkProgramming.ShellDispatch

set_option relaxedAutoImplicit false
set_option autoImplicit false

namespace Shell

open Runs

/-! ### Fates -/

/-- What becomes of a forked process. -/
inductive Fate
  /-- It runs a program. -/
  | execs
  /-- It calls `exit`. -/
  | exits
  /-- It follows a null pointer. -/
  | crashes
  /-- It comes back to the command loop. -/
  | returns
  deriving DecidableEq

/-- The process runs a program or exits. -/
def Fate.Ends (f : Fate) : Prop := f = .execs ∨ f = .exits

instance (f : Fate) : Decidable f.Ends := inferInstanceAs (Decidable (_ ∨ _))

@[simp] theorem Fate.ends_exits : Fate.exits.Ends := Or.inr rfl

/-- What the fate of the processes of a line depends on. -/
structure ForkEnv where
  /-- Whether the program of the `n`-th process is found under the `k`-th entry of `PATH`. -/
  exec : ℕ → ℕ → Bool
  /-- Whether the program of a line `./name` is found. -/
  execLocal : Bool
  /-- Whether the file of an input redirection exists. -/
  accessible : Bool
  /-- Whether the message queue or the shared memory could be created. -/
  ipc : Bool
  /-- Whether the message of the producer was received. -/
  received : Bool

/-- The program of the `n`-th process is found somewhere in `PATH`. -/
def ForkEnv.found (env : ForkEnv) (pathLength n : ℕ) : Bool :=
  (List.range pathLength).any (env.exec n)

/-- The search through `PATH` that all fork sites share.  The name of the program is read for every
entry; it is null when there are no words. -/
def searchPath (pathLength : ℕ) (env : ForkEnv) (n : ℕ) (cmd : List Word) (otherwise : Fate) :
    Fate :=
  if pathLength = 0 then otherwise
  else if cmd = [] then .crashes
  else if env.found pathLength n then .execs
  else otherwise

section Sites

variable (pathLength : ℕ) (env : ForkEnv)

/-- `execute_child`: the `exit` is inside the loop. -/
def executeChild (argv : List Word) (ignorePATH : Bool) : Fate :=
  if ignorePATH then
    if argv = [] then .crashes else if env.execLocal then .execs else .exits
  else if pathLength = 0 then .returns
  else searchPath pathLength env 0 argv .exits

/-- The first stage of a pipeline is cut at its `<`, if the file exists. -/
def cutInput (stage : List Word) : Option (List Word) :=
  match stage.dropWhile fun w => w ≠ "<".toList with
  | [] => some stage
  | [_] => none
  | _ :: _ :: _ =>
      if env.accessible then some (stage.takeWhile fun w => w ≠ "<".toList) else none

/-- The last stage is cut at its `>` or `>>`. -/
def cutOutput (stage : List Word) : Option (List Word) :=
  match stage.dropWhile fun w => w ≠ ">".toList ∧ w ≠ ">>".toList with
  | [] => some stage
  | [_] => none
  | _ :: _ :: _ => some (stage.takeWhile fun w => w ≠ ">".toList ∧ w ≠ ">>".toList)

/-- The stages as `executePipe` runs them, if it does not return before. -/
def cutStages (stages : List (List Word)) (redirIn redirOut : Bool) :
    Option (List (List Word)) := do
  let stages ← if redirIn then
      match stages with
      | [] => some []
      | stage :: rest => (cutInput env stage).map fun stage => stage :: rest
    else some stages
  if redirOut then
    match stages.getLast? with
    | none => some stages
    | some stage => (cutOutput stage).map fun stage => stages.dropLast ++ [stage]
  else some stages

/-- The stages of a `#` pipeline: parent and child both go on with the next stage. -/
def msgStages : List (List Word) → List Fate
  | [] => []
  | _ :: rest => .returns :: (msgStages rest ++ msgStages rest)

/-- `executePipe`.  For `S` there is no code. -/
def executePipe (type : Ptype) (stages : List (List Word)) (redirIn redirOut : Bool) :
    List Fate :=
  match cutStages env stages redirIn redirOut with
  | none => []
  | some stages =>
      match type with
      | .pipe => stages.mapIdx fun n stage => searchPath pathLength env n stage .exits
      | .msg => msgStages stages
      | .shm => []
      | .none => []

/-- `execRedirect` returns before the fork. -/
def redirectRefused (kind : Redirection) (target : List Word) : Bool :=
  1 < target.length || (kind = .input && (target = [] || !env.accessible))

/-- `execRedirect`: nothing follows the search. -/
def execRedirect (kind : Redirection) (cmd target : List Word) : List Fate :=
  if redirectRefused env kind target then []
  else [searchPath pathLength env 0 cmd .returns]

/-- The consumers of a fan-out and the programs they write to, from the `n`-th process on.  A last
consumer without words is read from memory that was never filled, and is not null. -/
def consumers : ℕ → List (List Word) → List Fate
  | _, [] => []
  | n, [sink] => [.exits, searchPath pathLength env n (if sink = [] then [[]] else sink) .exits]
  | n, sink :: rest =>
      .exits :: searchPath pathLength env n sink .exits :: consumers (n + 1) rest

/-- `shellMsgQ`, with `popen_read` and `popen_write`: their callers exit when they return null. -/
def shellMsgQ (cmd : List Word) (sinks : List (List Word)) : List Fate :=
  if !env.ipc then []
  else .exits :: searchPath pathLength env 0 cmd .exits ::
    if env.received then consumers pathLength env 1 sinks else []

/-- `shellShm`: the result of `popen_read` is not checked. -/
def shellShm (cmd : List Word) (sinks : List (List Word)) : List Fate :=
  if !env.ipc then []
  else .exits :: searchPath pathLength env 0 cmd .crashes :: consumers pathLength env 1 sinks

/-- `daemonizeProcess`. -/
def daemonizeProcess (argv : List Word) : List Fate := [searchPath pathLength env 0 argv .exits]

/-- **The processes forked for a line.** -/
def lineFates : Dispatch → List Fate
  | .external argv _ ignorePATH => [executeChild pathLength env argv ignorePATH]
  | .pipeline type stages redirIn redirOut =>
      executePipe pathLength env type stages redirIn redirOut
  | .redirection kind cmd target => execRedirect pathLength env kind cmd target
  | .msgQ cmd sinks => shellMsgQ pathLength env cmd sinks
  | .shm cmd sinks => shellShm pathLength env cmd sinks
  | .daemon argv => daemonizeProcess pathLength env argv
  | _ => []

/-- The shell itself exits when it cannot create the message queue or the shared memory. -/
def shellExits : Dispatch → Bool
  | .msgQ _ _ => !env.ipc
  | .shm _ _ => !env.ipc
  | _ => false

end Sites

/-! ### The lines whose processes all end -/

/-- The consumers before the last all have a program. -/
def namedSinks (sinks : List (List Word)) : Prop := ∀ sink ∈ sinks.dropLast, sink ≠ []

/-- **The condition on a line**, by what it is dispatched to. -/
def Contained (pathLength : ℕ) (env : ForkEnv) : Dispatch → Prop
  | .external argv _ ignorePATH => argv ≠ [] ∧ (ignorePATH = true ∨ 0 < pathLength)
  | .pipeline type stages redirIn redirOut =>
      ∀ cut ∈ cutStages env stages redirIn redirOut,
        (type = .pipe → pathLength = 0 ∨ ∀ stage ∈ cut, stage ≠ []) ∧ (type = .msg → cut = [])
  | .redirection kind cmd target =>
      redirectRefused env kind target = true ∨ (cmd ≠ [] ∧ env.found pathLength 0 = true)
  | .msgQ cmd sinks =>
      env.ipc = true → pathLength = 0 ∨ (cmd ≠ [] ∧ (env.received = true → namedSinks sinks))
  | .shm cmd sinks =>
      env.ipc = true → cmd ≠ [] ∧ env.found pathLength 0 = true ∧ namedSinks sinks
  | .daemon argv => pathLength = 0 ∨ argv ≠ []
  | _ => True

section Ends

variable {pathLength : ℕ} {env : ForkEnv}

theorem ends_searchPath_exits (n : ℕ) (cmd : List Word) :
    (searchPath pathLength env n cmd .exits).Ends ↔ pathLength = 0 ∨ cmd ≠ [] := by
  unfold searchPath
  split_ifs with hpath hcmd <;> simp [Fate.Ends, *]

/-- When the process would not exit by itself, the program has to be found. -/
theorem ends_searchPath_of_not_ends (n : ℕ) (cmd : List Word) {otherwise : Fate}
    (hother : ¬ otherwise.Ends) :
    (searchPath pathLength env n cmd otherwise).Ends ↔
      cmd ≠ [] ∧ env.found pathLength n = true := by
  unfold searchPath
  split_ifs with hpath hcmd hfound
  · simp [hother, hpath, ForkEnv.found]
  · simp [Fate.Ends, hcmd]
  · simp [Fate.Ends, hcmd, hfound]
  · simp [hother, hfound]

theorem ends_executeChild_iff (argv : List Word) (ignorePATH : Bool) :
    (executeChild pathLength env argv ignorePATH).Ends ↔
      argv ≠ [] ∧ (ignorePATH = true ∨ 0 < pathLength) := by
  unfold executeChild
  split_ifs with hignore hargv hlocal hpath
  · simp [Fate.Ends, hargv]
  · simp [Fate.Ends, hargv, hignore]
  · simp [Fate.Ends, hargv, hignore]
  · simp [Fate.Ends, hignore, hpath]
  · rw [ends_searchPath_exits]
    have hpos : 0 < pathLength := Nat.pos_of_ne_zero hpath
    simp [hpath, hpos]

/-- All processes of a `#` pipeline come back. -/
theorem ends_msgStages_iff (stages : List (List Word)) :
    (∀ f ∈ msgStages stages, f.Ends) ↔ stages = [] := by
  cases stages with
  | nil => simp [msgStages]
  | cons stage rest => simp [msgStages, Fate.Ends]

theorem ends_executePipe_iff (type : Ptype) (stages : List (List Word)) (redirIn redirOut : Bool) :
    (∀ f ∈ executePipe pathLength env type stages redirIn redirOut, f.Ends) ↔
      Contained pathLength env (.pipeline type stages redirIn redirOut) := by
  unfold executePipe
  cases hcut : cutStages env stages redirIn redirOut with
  | none => simp [Contained, hcut]
  | some cut =>
      cases type with
      | pipe =>
          simp only [Contained, hcut, List.mem_mapIdx, Option.mem_some_iff, forall_eq', true_imp_iff,
            reduceCtorEq, false_imp_iff, and_true]
          constructor
          · intro hends
            refine or_iff_not_imp_left.2 ?_
            intro hpath stage hmem
            obtain ⟨n, hn, rfl⟩ := List.mem_iff_getElem.1 hmem
            exact ((ends_searchPath_exits n _).1 (hends _ ⟨n, hn, rfl⟩)).resolve_left hpath
          · rintro hnamed f ⟨n, hn, rfl⟩
            refine (ends_searchPath_exits n _).2 (hnamed.imp_right ?_)
            intro hall
            exact hall _ (List.getElem_mem hn)
      | msg => simp [Contained, hcut, ends_msgStages_iff]
      | shm => simp [Contained, hcut]
      | none => simp [Contained, hcut]

theorem ends_consumers_iff (n : ℕ) (sinks : List (List Word)) :
    (∀ f ∈ consumers pathLength env n sinks, f.Ends) ↔
      pathLength = 0 ∨ namedSinks sinks := by
  induction sinks generalizing n with
  | nil => simp [consumers, namedSinks]
  | cons sink rest ih =>
      cases rest with
      | nil =>
          -- the program of the last consumer is never null
          have hcmd : (if sink = [] then [[]] else sink) ≠ [] := by split_ifs <;> simp_all
          simp [consumers, namedSinks, ends_searchPath_exits, hcmd]
      | cons sink' rest =>
          have hsplit : namedSinks (sink :: sink' :: rest) ↔
              sink ≠ [] ∧ namedSinks (sink' :: rest) := by
            simp only [namedSinks, List.dropLast_cons_cons, List.forall_mem_cons]
          have hstep : consumers pathLength env n (sink :: sink' :: rest) =
              .exits :: searchPath pathLength env n sink .exits ::
                consumers pathLength env (n + 1) (sink' :: rest) := by
            rw [consumers]
            simp
          simp only [hstep, List.forall_mem_cons, ends_searchPath_exits, ih, hsplit,
            Fate.ends_exits, true_and, or_and_left]

/-- **The fates of the processes of a line**: all of them run a program or exit exactly under the
condition. -/
theorem ends_lineFates_iff (d : Dispatch) :
    (∀ f ∈ lineFates pathLength env d, f.Ends) ↔ Contained pathLength env d := by
  cases d with
  | external argv background ignorePATH => simp [lineFates, Contained, ends_executeChild_iff]
  | pipeline type stages redirIn redirOut => exact ends_executePipe_iff _ _ _ _
  | redirection kind cmd target =>
      have hsearch : (searchPath pathLength env 0 cmd .returns).Ends ↔
          cmd ≠ [] ∧ env.found pathLength 0 = true :=
        ends_searchPath_of_not_ends 0 cmd (by decide)
      simp only [lineFates, execRedirect, Contained]
      split_ifs with href
      · simp [href]
      · simp [href, hsearch]
  | msgQ cmd sinks =>
      simp only [lineFates, shellMsgQ, Contained]
      cases hipc : env.ipc with
      | false => simp
      | true =>
          cases hrec : env.received with
          | false => simp [ends_searchPath_exits]
          | true =>
              simp only [Bool.not_true, Bool.false_eq_true, if_false, if_true,
                List.forall_mem_cons, ends_searchPath_exits, ends_consumers_iff, ← or_and_left,
                true_imp_iff, Fate.ends_exits, true_and]
  | shm cmd sinks =>
      have hsearch : (searchPath pathLength env 0 cmd .crashes).Ends ↔
          cmd ≠ [] ∧ env.found pathLength 0 = true :=
        ends_searchPath_of_not_ends 0 cmd (by decide)
      simp only [lineFates, shellShm, Contained]
      cases hipc : env.ipc with
      | false => simp
      | true =>
          simp only [Bool.not_true, Bool.false_eq_true, if_false, List.forall_mem_cons, hsearch,
            ends_consumers_iff, true_imp_iff, Fate.ends_exits, true_and, and_assoc]
          refine and_congr_right fun _ => and_congr_right fun hfound => or_iff_right ?_
          rintro rfl
          simp [ForkEnv.found] at hfound
  | daemon argv => simp [lineFates, daemonizeProcess, Contained, ends_searchPath_exits]
  | _ => simp [lineFates, Contained]

end Ends

instance (pathLength : ℕ) (env : ForkEnv) (d : Dispatch) : Decidable (Contained pathLength env d) :=
  decidable_of_iff _ (ends_lineFates_iff d)

/-! ### The processes that execute the loop -/

/-- The shell, while it lives, the forked processes that came back to the loop, and the fates of all
processes that were forked. -/
structure LoopState where
  shell : Option Globals
  strays : List Globals
  fates : List Fate

/-- A shell that was just started. -/
def LoopState.init : LoopState := ⟨some Globals.init, [], []⟩

/-- The processes that execute the loop. -/
def LoopState.readers (s : LoopState) : List Globals := s.shell.toList ++ s.strays

/-- The process that reads the next line: the shell, or a process that came back. -/
def LoopState.reader (s : LoopState) : Option ℕ → Option Globals
  | none => s.shell
  | some i => s.strays[i]?

/-- A process reads a line. -/
structure LoopEvent where
  who : Option ℕ
  line : List Char
  env : ForkEnv

/-- The processes forked for a line that come back to the loop.  The child of an external command
comes back past the code that lowers the flags; the others go the way of their parent. -/
def returned (h : Handled) (fates : List Fate) : List Globals :=
  List.replicate (fates.count .returns) <|
    match h.dispatch with
    | .external _ _ _ => h.forked
    | _ => h.next.getD h.forked

/-- **A process handles a line.** -/
def loopStep (pathLength : ℕ) (s : LoopState) (e : LoopEvent) : Option LoopState :=
  (s.reader e.who).map fun g =>
    let h := handleLine g e.line
    let fates := lineFates pathLength e.env h.dispatch
    let next := if shellExits e.env h.dispatch then none else h.next
    match e.who with
    | none => ⟨next, s.strays ++ returned h fates, s.fates ++ fates⟩
    | some i =>
        let strays := match next with
          | none => s.strays.eraseIdx i
          | some g => s.strays.set i g
        ⟨s.shell, strays ++ returned h fates, s.fates ++ fates⟩

/-- The line that is read meets the condition. -/
def StepContained (pathLength : ℕ) (s : LoopState) (e : LoopEvent) : Prop :=
  ∀ g ∈ s.reader e.who, Contained pathLength e.env (handleLine g e.line).dispatch

instance (pathLength : ℕ) (s : LoopState) (e : LoopEvent) :
    Decidable (StepContained pathLength s e) :=
  inferInstanceAs (Decidable (∀ g ∈ s.reader e.who, _))

/-- No forked process came back. -/
structure LoopInv (s : LoopState) : Prop where
  strays : s.strays = []
  fates : ∀ f ∈ s.fates, f.Ends

theorem returned_of_ends {h : Handled} {fates : List Fate} (hends : ∀ f ∈ fates, f.Ends) :
    returned h fates = [] := by
  have hcount : fates.count .returns = 0 :=
    List.count_eq_zero.2 fun hmem => absurd (hends _ hmem) (by decide)
  rw [returned, hcount, List.replicate_zero]

theorem loopInv_loopStep {pathLength : ℕ} (s : LoopState) (e : LoopEvent) (s' : LoopState)
    (hs : LoopInv s) (hc : StepContained pathLength s e) (h : loopStep pathLength s e = some s') :
    LoopInv s' := by
  obtain ⟨g, hg, rfl⟩ := Option.map_eq_some_iff.1 h
  have hends : ∀ f ∈ lineFates pathLength e.env (handleLine g e.line).dispatch, f.Ends :=
    (ends_lineFates_iff _).2 (hc g hg)
  cases hwho : e.who with
  | none =>
      refine ⟨?_, List.forall_mem_append.2 ⟨hs.fates, hends⟩⟩
      dsimp only
      rw [hs.strays, returned_of_ends hends, List.append_nil]
  | some i =>
      -- there is no other process to read the line
      rw [hwho, LoopState.reader, hs.strays] at hg
      cases hg

/-- **One reader**: in every run whose lines meet the condition, every forked process runs a program
or exits, and the shell alone executes the command loop. -/
theorem readers_eq_shell {pathLength : ℕ} {es : List LoopEvent} {s : LoopState}
    (hrun : run (loopStep pathLength) LoopState.init es = some s)
    (hc : Along (loopStep pathLength) (StepContained pathLength) LoopState.init es) :
    s.readers = s.shell.toList ∧ ∀ f ∈ s.fates, f.Ends := by
  have hinit : LoopInv LoopState.init := ⟨rfl, fun f hf => by cases hf⟩
  have hinv : LoopInv s := run_invariant_along loopInv_loopStep hinit hc hrun
  exact ⟨by rw [LoopState.readers, hinv.strays, List.append_nil], hinv.fates⟩

/-- Every program is found under the second entry of `PATH`, or none is found at all. -/
def sampleForkEnv (found : Bool) : ForkEnv := ⟨fun _ k => found && k == 1, false, true, true, true⟩

/-- A pipeline into a file, a redirection, a fan-out, a daemon and an unknown command. -/
def sampleLines : List LoopEvent :=
  [⟨none, "ls -l | wc > out\n".toList, sampleForkEnv true⟩,
    ⟨none, "sort < out\n".toList, sampleForkEnv true⟩,
    ⟨none, "ls SS wc , sort\n".toList, sampleForkEnv true⟩,
    ⟨none, "daemonize top\n".toList, sampleForkEnv true⟩,
    ⟨none, "nosuch\n".toList, sampleForkEnv false⟩]

/-- The state after these lines. -/
def sampleLinesEnd : LoopState := (run (loopStep 2) LoopState.init sampleLines).get (by decide)

theorem readers_sampleLines :
    sampleLinesEnd.readers = sampleLinesEnd.shell.toList ∧ ∀ f ∈ sampleLinesEnd.fates, f.Ends :=
  readers_eq_shell
    (show run (loopStep 2) LoopState.init sampleLines = some sampleLinesEnd from
      (Option.some_get _).symm) (by decide)

/-- A redirection of a command that does not exist. -/
def strayLines : List LoopEvent := [⟨none, "nosuch > out\n".toList, sampleForkEnv false⟩]

/-- The state after this line. -/
def strayLinesEnd : LoopState := (run (loopStep 2) LoopState.init strayLines).get (by decide)

/-- **A redirection of a command that does not exist** leaves a second reader. -/
theorem not_one_reader_of_redirection :
    ¬ ∀ (pathLength : ℕ) (es : List LoopEvent) (s : LoopState),
      run (loopStep pathLength) LoopState.init es = some s →
        s.readers = s.shell.toList ∧ ∀ f ∈ s.fates, f.Ends := by
  intro hall
  have hone := (hall 2 strayLines strayLinesEnd (Option.some_get _).symm).1
  revert hone
  decide

end Shell
