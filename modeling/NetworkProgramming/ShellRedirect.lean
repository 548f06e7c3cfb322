/-
**MyShell: the file behind `>` and `>>`.**

`execRedirect` opens the file of a single command, and a loop of `executePipe` the file of the last
stage of a pipeline.  Both create it when it is not there.  For `>>` the file is opened with
`O_APPEND`; for `>` it is opened without `O_TRUNC`, so that the output overwrites the old contents
from the start, as far as it reaches.

The command is given by what it writes, one chunk after the other.  `open`, `fork` and the command
itself are taken to succeed.  The words on the way to them stand in blocks of the allocator, those of
`argVector` and of `redirectcmd1` and `redirectcmd2` in blocks for one byte: where one of them is too
long, or a table has no place for it, the line has no result.

Main definitions:

* `Shell.OFlag`, `Shell.OpenFile` — the flags of `open`, and a file that is open for writing;
* `Shell.execRedirectFile`, `Shell.executePipeFile` — the files after the command, on the two paths;
* `Shell.lineFiles` — the files after a line;
* `Shell.OutputLine` — the lines `CMD > f` and `CMD >> f`, alone or behind a pipe;
* `Shell.Roomy` — the lines whose words have the room they need.

Main results:

* `Shell.write_overwrite`, `Shell.write_append` — the contents after all chunks;
* `Shell.dispatch_command`, `Shell.dispatch_pipeline` — the path that a line takes;
* `Shell.outputFile_iff` — **the file is right exactly when** the words have room, and the operator is
  `>>` or the old contents are not longer than the output.
-/

import Mathlib.Data.UInt
import NetworkProgramming.ShellStageRun
import NetworkProgramming.SparseFile

set_option relaxedAutoImplicit false
set_option autoImplicit false

namespace Shell

open Malloc

/-! ### Open files -/

/-- The flags that the shell passes to `open` for writing, and `O_TRUNC`. -/
inductive OFlag
  | wronly
  | creat
  | append
  | trunc
  deriving DecidableEq

/-- A file that is open for writing. -/
structure OpenFile where
  append : Bool
  offset : ℕ
  contents : List UInt8

/-- `open` with `O_CREAT` on a file with these contents, if there is one. -/
def openFile (flags : List OFlag) (old : Option (List UInt8)) : OpenFile :=
  { append := .append ∈ flags
    offset := 0
    contents := if .trunc ∈ flags then [] else old.getD [] }

/-- `write`. -/
def OpenFile.write (o : OpenFile) (bs : List UInt8) : OpenFile :=
  let offset := if o.append then o.contents.length else o.offset
  { o with offset := offset + bs.length, contents := SparseFile.writeAt o.contents offset bs }

/-- The contents after the command has written its chunks. -/
def written (flags : List OFlag) (old : Option (List UInt8)) (chunks : List (List UInt8)) :
    List UInt8 :=
  (chunks.foldl OpenFile.write (openFile flags old)).contents

/-- The contents of the files. -/
abbrev Files := Word → Option (List UInt8)

/-! ### The two paths -/

/-- `execRedirect`: with more than one word behind the operator nothing is done, and without one
there is no file to open. -/
def execRedirectFile (kind : Redirection) (target : List Word) (chunks : List (List UInt8))
    (files : Files) : Files :=
  match target with
  | [f] =>
      match kind with
      | .output => Function.update files f (some (written [.wronly, .creat] (files f) chunks))
      | .append =>
          Function.update files f (some (written [.wronly, .append, .creat] (files f) chunks))
      | .input => files
  | _ => files

/-- The output file of `executePipe`, which returns before when the input file is refused.  The loop over
the last stage ends behind the first operator, where it has put null pointers. -/
def executePipeFile (env : ForkEnv) (stages : List (List Word)) (redirIn redirOut : Bool)
    (chunks : List (List UInt8)) (files : Files) : Files :=
  if redirIn ∧ cutInput env (stages.headD []) = none then files
  else if redirOut then
    match (stages.getLastD []).dropWhile fun w => w ≠ ">".toList ∧ w ≠ ">>".toList with
    | op :: f :: _ =>
        if op = ">".toList then
          Function.update files f (some (written [.wronly, .creat] (files f) chunks))
        else Function.update files f (some (written [.wronly, .append, .creat] (files f) chunks))
    | _ => files
  else files

/-- Words that are copied to blocks of `malloc(sizeof(char))`, one each. -/
def copied (m : Allocator) (words : List Word) : Option (List Word) := words.mapM (m.strcpy 1)

/-- **The files after a line**, when its last command has written these chunks.  Only the processes of a
`|` pipeline run commands. -/
def lineFiles (m : Allocator) (env : ForkEnv) (argv : List Word) (g : Globals)
    (chunks : List (List UInt8)) (files : Files) : Option Files := do
  let argv ← copied m argv
  match (handleArgs argv g).dispatch with
  | .crash => none
  | .redirection kind cmd target =>
      let _ ← copied m cmd
      let target ← copied m target
      some (execRedirectFile kind target chunks files)
  | .pipeline type stages redirIn redirOut =>
      let _ ← splitCommands m argv g
      some (executePipeFile env stages redirIn redirOut (if type = .pipe then chunks else []) files)
  | _ => some files

/-- The operator. -/
def arrow (append : Bool) : Word := if append then ">>".toList else ">".toList

/-- **The lines with an output file**: a command with its arguments, or a pipeline, and behind it `>` or
`>>` and the name of the file. -/
inductive OutputLine (append : Bool) (f : Word) : List Word → Prop
  | command {cmd : List Word} (hne : cmd ≠ [])
      (hcmd : ∀ w ∈ cmd, isPipeOp w = false ∧ isRedirectionOp w = false) :
      OutputLine append f (cmd ++ [arrow append, f])
  | pipeline {first : Word} {front cmd : List Word} (hfirst : isPipeOp first = false)
      (hcmd : ∀ w ∈ cmd, isPipeOp w = false ∧ isRedirectionOp w = false) :
      OutputLine append f (first :: front ++ "|".toList :: (cmd ++ [arrow append, f]))

/-- **The words have the room they need**: each of them fits its slot; a command alone has at most five
before the operator; and for a pipeline every stage fits its row, and all the words the row that is
released at the end. -/
structure Roomy (m : Allocator) (argv : List Word) : Prop where
  words : ∀ w ∈ argv, w.length < m.usable 1
  command : argv.any isPipeOp = false → argv.length ≤ 7
  stages : argv.any isPipeOp = true →
    Short m (argv.splitOnP isPipeOp) ∧ argv.length < rowCells m 20

instance (m : Allocator) (argv : List Word) : Decidable (Roomy m argv) :=
  decidable_of_iff (_ ∧ _ ∧ _) ⟨fun h => ⟨h.1, h.2.1, h.2.2⟩, fun h => ⟨h.1, h.2, h.3⟩⟩

/-! ### The contents after all chunks -/

section Written

variable {old : Option (List UInt8)}

/-- Chunks that are appended. -/
theorem write_append (chunks : List (List UInt8)) (o : OpenFile) (happend : o.append = true) :
    (chunks.foldl OpenFile.write o).contents = o.contents ++ chunks.flatten := by
  induction chunks generalizing o with
  | nil => simp
  | cons bs chunks ih =>
      rw [List.foldl_cons, ih (o.write bs) happend, List.flatten_cons, ← List.append_assoc]
      congr 1
      simp only [OpenFile.write, happend, if_true]
      exact SparseFile.writeAt_length_self _ _

/-- Chunks that go to the offset, which is not behind the end of the file. -/
theorem write_overwrite (chunks : List (List UInt8)) (o : OpenFile) (happend : o.append = false)
    (hoffset : o.offset ≤ o.contents.length) :
    (chunks.foldl OpenFile.write o).contents =
      o.contents.take o.offset ++ chunks.flatten ++
        o.contents.drop (o.offset + chunks.flatten.length) := by
  induction chunks generalizing o with
  | nil => simp
  | cons bs chunks ih =>
      have hwrite : o.write bs =
          { o with
            offset := o.offset + bs.length
            contents := o.contents.take o.offset ++ bs ++ o.contents.drop (o.offset + bs.length) }
          := by
        simp only [OpenFile.write, happend, Bool.false_eq_true, if_false]
        congr 1
        by_cases hbs : bs = []
        · simp [hbs]
        · rw [SparseFile.writeAt_of_ne_nil _ _ hbs, Nat.sub_eq_zero_of_le hoffset]
          simp
      have hlen : (o.contents.take o.offset ++ bs).length = o.offset + bs.length := by
        simp [hoffset]
      have hnext := ih (o.write bs) happend (by rw [hwrite]; simp [hoffset])
      rw [List.foldl_cons, hnext, hwrite, List.flatten_cons, List.length_append]
      dsimp only
      rw [← hlen, List.take_left, List.drop_length_add_append, List.drop_drop, hlen]
      simp [Nat.add_assoc]

theorem written_append (chunks : List (List UInt8)) :
    written [.wronly, .append, .creat] old chunks = old.getD [] ++ chunks.flatten :=
  write_append chunks _ rfl

theorem written_overwrite (chunks : List (List UInt8)) :
    written [.wronly, .creat] old chunks =
      chunks.flatten ++ (old.getD []).drop chunks.flatten.length := by
  rw [written, write_overwrite chunks _ rfl (Nat.zero_le _)]
  simp [openFile]

end Written

/-! ### The path that a line takes -/

section Dispatch

variable {argv : List Word} {g : Globals} {append : Bool} {f : Word}

theorem arrow_cases (append : Bool) : arrow append = ">".toList ∨ arrow append = ">>".toList := by
  cases append with
  | false => exact Or.inl rfl
  | true => exact Or.inr rfl

theorem isPipeOp_arrow (append : Bool) : isPipeOp (arrow append) = false := by
  cases append <;> decide

/-- The loop passes over words that are no operators. -/
theorem redirectionLoop_append (lastPipe : ℕ) (cmd rest : List Word)
    (hcmd : ∀ w ∈ cmd, isRedirectionOp w = false) (i : ℕ) :
    redirectionLoop argv lastPipe (cmd ++ rest) i =
      redirectionLoop argv lastPipe rest (i + cmd.length) := by
  induction cmd generalizing i with
  | nil => rfl
  | cons w cmd ih =>
      obtain ⟨hw, hcmd⟩ := List.forall_mem_cons.1 hcmd
      simp only [isRedirectionOp, Bool.or_eq_false_iff, decide_eq_false_iff_not] at hw
      obtain ⟨⟨⟨⟨hgt, happ⟩, hlt⟩, hmsg⟩, hshm⟩ := hw
      rw [List.cons_append, redirectionLoop, if_neg (not_or.2 ⟨hgt, happ⟩), if_neg hlt,
        if_neg hmsg, if_neg hshm, ih hcmd, List.length_cons, Nat.add_assoc, Nat.add_comm 1]

/-- `badRedirectpipe` was not raised before the line either. -/
theorem badRedirectpipe_of_accepted
    (haccept : (pipeFilter argv g.reset).globals.badRedirectpipe = false) :
    g.badRedirectpipe = false := by
  rw [pipeFilter, pipeFilterLoop_badRedirectpipe, Bool.or_eq_false_iff] at haccept
  exact haccept.1

/-- No word of a command with its file joins stages. -/
theorem isPipeOp_command (hf : isPipeOp f = false) {cmd : List Word}
    (hcmd : ∀ w ∈ cmd, isPipeOp w = false ∧ isRedirectionOp w = false) :
    ∀ w ∈ cmd ++ [arrow append, f], isPipeOp w = false := by
  intro w hw
  simp only [List.mem_append, List.mem_cons, List.not_mem_nil, or_false] at hw
  rcases hw with hw | rfl | rfl
  · exact (hcmd w hw).1
  · exact isPipeOp_arrow append
  · exact hf

/-- A single command goes to `execRedirect`, if it has at most five words. -/
theorem dispatch_command (hs : Settled g) (hbad : g.badRedirectpipe = false)
    (hf : isPipeOp f = false) {cmd : List Word} (hne : cmd ≠ [])
    (hcmd : ∀ w ∈ cmd, isPipeOp w = false ∧ isRedirectionOp w = false) :
    (handleArgs (cmd ++ [arrow append, f]) g.reset).dispatch =
      if cmd.length ≤ 5 then .redirection (if append then .append else .output) cmd [f]
      else .crash := by
  have hpos : ¬ 0 + cmd.length ≤ 0 := by
    have hlen := List.length_pos_iff.2 hne
    omega
  have hfound : redirectionLoop (cmd ++ [arrow append, f]) 0 (cmd ++ [arrow append, f]) 0 =
      if cmd.length ≤ 5 then .redirect (if append then .append else .output) cmd [f]
      else .sixthWord := by
    rw [redirectionLoop_append 0 cmd [arrow append, f] (fun w hw => (hcmd w hw).2) 0,
      redirectionLoop, if_pos (arrow_cases append), if_neg hpos, if_neg (lt_irrefl 0), Nat.zero_add,
      List.take_left, redirectTo]
    cases append <;> simp [arrow]
  rw [handleArgs, pipeFilter, pipeFilterLoop_of_none _ (isPipeOp_command hf hcmd)]
  dsimp only
  have hbad' : (countPipes (cmd ++ [arrow append, f]) g.reset).badRedirectpipe = false := hbad
  have hcount : (countPipes (cmd ++ [arrow append, f]) g.reset).pipeCount = 0 := rfl
  have hlast : (countPipes (cmd ++ [arrow append, f]) g.reset).lastPipe = 0 := hs.lastPipe
  rw [hbad', if_neg Bool.false_ne_true, hcount, if_neg (lt_irrefl 0), handleFound,
    redirectionWithPipesAndIpc]
  dsimp only
  rw [hlast, hfound]
  split_ifs <;> rfl

theorem writesFile_append (argv : List Word) (append : Bool) (f : Word) :
    writesFile (argv ++ [arrow append, f]) = true := by
  have hlen : (argv ++ [arrow append, f]).length = argv.length + 2 := by simp
  have hword : (argv ++ [arrow append, f])[argv.length + 2 - 2]? = some (arrow append) := by simp
  rw [writesFile, hlen, hword]
  rcases arrow_cases append with h | h <;> simp [h]

theorem any_isPipeOp_command (hf : isPipeOp f = false) {cmd : List Word}
    (hcmd : ∀ w ∈ cmd, isPipeOp w = false ∧ isRedirectionOp w = false) :
    (cmd ++ [arrow append, f]).any isPipeOp = false := by
  rw [List.any_eq_false]
  intro w hw
  simp [isPipeOp_command hf hcmd w hw]

/-- A pipeline that is accepted goes to `executePipe`, and the last stage has the operator. -/
theorem dispatch_pipeline (hs : Settled g) (hf : isPipeOp f = false) {first : Word}
    {front cmd : List Word} (hfirst : isPipeOp first = false)
    (hcmd : ∀ w ∈ cmd, isPipeOp w = false ∧ isRedirectionOp w = false)
    (hargv : argv = first :: front ++ "|".toList :: (cmd ++ [arrow append, f]))
    (haccept : (pipeFilter argv g.reset).globals.badRedirectpipe = false) :
    (handleArgs argv g.reset).dispatch =
        .pipeline .pipe (argv.splitOnP isPipeOp) (readsFile argv) true ∧
      stagesOf argv g.reset = argv.splitOnP isPipeOp ∧ argv.any isPipeOp = true ∧
      ∃ stages, argv.splitOnP isPipeOp = stages ++ [cmd ++ [arrow append, f]] := by
  have htail : ∀ w ∈ cmd ++ [arrow append, f], isPipeOp w = false := isPipeOp_command hf hcmd
  have hop : argv.any isPipeOp = true := by
    rw [hargv, List.any_append, List.any_cons]
    simp [isPipeOp]
  have hwrites : writesFile argv = true := by
    have hsplit : argv = (first :: front ++ "|".toList :: cmd) ++ [arrow append, f] := by
      simp [hargv]
    rw [hsplit, writesFile_append]
  have hstages : stagesOf argv g.reset = argv.splitOnP isPipeOp :=
    stagesOf_eq_splitOnP (by simpa [hargv] using hfirst) hop hs.lastPipe (tripped_of_accepted haccept)
  have htype : (countPipes argv g.reset).pipeType = .pipe := by
    have hfilter : ("|".toList :: (cmd ++ [arrow append, f])).filter isPipeOp = ["|".toList] := by
      have hpipe : isPipeOp "|".toList = true := by decide
      rw [List.filter_cons_of_pos hpipe, List.filter_eq_nil_iff.2]
      intro w hw
      simp [htail w hw]
    rw [pipeType_countPipes_iff rfl, hargv, List.filter_append, hfilter, List.getLast?_concat]
  refine ⟨?_, hstages, hop, (first :: front).splitOnP isPipeOp, ?_⟩
  · rw [dispatch_handleArgs hs hop haccept, htype, hstages, hwrites]
  · rw [hargv, List.splitOnP_append_cons _ _ (by decide), List.splitOnP_eq_singleton htail]

theorem copied_eq_some_iff {m : Allocator} {words words' : List Word} :
    copied m words = some words' ↔ (∀ w ∈ words, w.length < m.usable 1) ∧ words' = words := by
  rw [copied]
  induction words generalizing words' with
  | nil => simp [eq_comm]
  | cons w words ih =>
      rw [List.mapM_cons, List.forall_mem_cons]
      simp only [Option.bind_eq_bind, Option.bind_eq_some_iff, Allocator.strcpy_eq_some_iff, ih]
      constructor
      · rintro ⟨v, ⟨hw, rfl⟩, words', ⟨hwords, rfl⟩, h⟩
        exact ⟨⟨hw, hwords⟩, (Option.some_inj.1 h).symm⟩
      · rintro ⟨⟨hw, hwords⟩, rfl⟩
        exact ⟨w, ⟨hw, rfl⟩, words, ⟨hwords, rfl⟩, rfl⟩

/-- The flags of the operator. -/
def arrowFlags (append : Bool) : List OFlag :=
  if append then [.wronly, .append, .creat] else [.wronly, .creat]

theorem copied_of_subset {m : Allocator} (hwords : ∀ w ∈ argv, w.length < m.usable 1)
    {words : List Word} (hsub : ∀ w ∈ words, w ∈ argv) : copied m words = some words :=
  copied_eq_some_iff.2 ⟨fun w hw => hwords w (hsub w hw), rfl⟩

/-- A word that is too long for its slot. -/
theorem lineFiles_of_long {m : Allocator} {env : ForkEnv} {chunks : List (List UInt8)} {files : Files}
    (hlong : ¬ ∀ w ∈ argv, w.length < m.usable 1) : lineFiles m env argv g chunks files = none := by
  have hnone : copied m argv = none := by
    rw [Option.eq_none_iff_forall_ne_some]
    intro words hsome
    exact hlong (copied_eq_some_iff.1 hsome).1
  rw [lineFiles, hnone]
  rfl

/-- **The files after a single command**, when the words fit their slots. -/
theorem lineFiles_command {m : Allocator} {env : ForkEnv} (hs : Settled g)
    (hbad : g.badRedirectpipe = false) (hf : isPipeOp f = false) {cmd : List Word} (hne : cmd ≠ [])
    (hcmd : ∀ w ∈ cmd, isPipeOp w = false ∧ isRedirectionOp w = false)
    (hwords : ∀ w ∈ cmd ++ [arrow append, f], w.length < m.usable 1)
    (chunks : List (List UInt8)) (files : Files) :
    lineFiles m env (cmd ++ [arrow append, f]) g.reset chunks files =
      if cmd.length ≤ 5 then
        some (Function.update files f (some (written (arrowFlags append) (files f) chunks)))
      else none := by
  rw [lineFiles, copied_of_subset hwords fun w hw => hw, Option.bind_eq_bind, Option.bind_some,
    dispatch_command hs hbad hf hne hcmd]
  by_cases hle : cmd.length ≤ 5
  · rw [if_pos hle, if_pos hle]
    dsimp only
    rw [copied_of_subset hwords fun w hw => List.mem_append_left _ hw, Option.bind_some,
      copied_of_subset hwords fun w hw => List.mem_append_right _ (List.mem_cons_of_mem _ hw),
      Option.bind_some]
    cases append <;> rfl
  · rw [if_neg hle, if_neg hle]

/-- The last stage from its operator on. -/
theorem dropWhile_command {cmd : List Word}
    (hcmd : ∀ w ∈ cmd, isPipeOp w = false ∧ isRedirectionOp w = false) :
    (cmd ++ [arrow append, f]).dropWhile (fun w => w ≠ ">".toList ∧ w ≠ ">>".toList) =
      [arrow append, f] := by
  rw [List.dropWhile_append_of_pos]
  · rcases arrow_cases append with h | h <;> simp [h]
  · intro w hw
    have hop := (hcmd w hw).2
    simp only [isRedirectionOp, Bool.or_eq_false_iff, decide_eq_false_iff_not] at hop
    exact decide_eq_true hop.1.1.1

/-- An input file that is named and exists is not refused. -/
theorem not_refused {env : ForkEnv}
    (hinput : readsFile argv = true → ∀ stage ∈ (argv.splitOnP isPipeOp).head?, InputNamed env stage) :
    ¬ (readsFile argv = true ∧ cutInput env ((argv.splitOnP isPipeOp).headD []) = none) := by
  rintro ⟨hreads, hnone⟩
  obtain ⟨stage, rest, hcons⟩ := List.exists_cons_of_ne_nil (List.splitOnP_ne_nil isPipeOp argv)
  have hnamed := hinput hreads stage (by rw [hcons]; rfl)
  rw [hcons, List.headD_cons, cutInput_eq_some_iff.2 ⟨hnamed, rfl⟩] at hnone
  cases hnone

/-- **The files after a pipeline**, when the words fit their slots. -/
theorem lineFiles_pipeline {m : Allocator} {env : ForkEnv} (hs : Settled g) (hf : isPipeOp f = false)
    {first : Word} {front cmd : List Word} (hfirst : isPipeOp first = false)
    (hcmd : ∀ w ∈ cmd, isPipeOp w = false ∧ isRedirectionOp w = false)
    (hargv : argv = first :: front ++ "|".toList :: (cmd ++ [arrow append, f]))
    (haccept : (pipeFilter argv g.reset).globals.badRedirectpipe = false)
    (hinput : readsFile argv = true → ∀ stage ∈ (argv.splitOnP isPipeOp).head?, InputNamed env stage)
    (hwords : ∀ w ∈ argv, w.length < m.usable 1) (chunks : List (List UInt8)) (files : Files) :
    lineFiles m env argv g.reset chunks files =
      if Short m (argv.splitOnP isPipeOp) ∧ argv.length < rowCells m 20 then
        some (Function.update files f (some (written (arrowFlags append) (files f) chunks)))
      else none := by
  obtain ⟨hdispatch, hstages, hop, stages, hsplit⟩ :=
    dispatch_pipeline hs hf hfirst hcmd hargv haccept
  have hcells := @splitCommands_eq _ g.reset m hop rfl hs.lastPipe (tripped_of_accepted haccept)
  rw [lineFiles, copied_of_subset hwords fun w hw => hw, Option.bind_eq_bind, Option.bind_some,
    hdispatch]
  dsimp only
  rw [hcells, hstages]
  by_cases hroom : Short m (argv.splitOnP isPipeOp) ∧ argv.length < rowCells m 20
  · rw [if_pos hroom, if_pos hroom, Option.bind_eq_bind, Option.bind_some, executePipeFile,
      if_neg (not_refused hinput), if_pos rfl, if_pos rfl, hsplit, List.getLastD_concat,
      dropWhile_command hcmd]
    cases append <;> rfl
  · rw [if_neg hroom, if_neg hroom]
    rfl

/-- **What a line with an output file does to it**: it has a result exactly if its words have room. -/
theorem lineFiles_of_outputLine {m : Allocator} {env : ForkEnv} (hline : OutputLine append f argv)
    (hs : Settled g) (haccept : (pipeFilter argv g.reset).globals.badRedirectpipe = false)
    (hf : isPipeOp f = false)
    (hinput : readsFile argv = true → ∀ stage ∈ (argv.splitOnP isPipeOp).head?, InputNamed env stage)
    (chunks : List (List UInt8)) (files : Files) :
    lineFiles m env argv g.reset chunks files =
      if Roomy m argv then
        some (Function.update files f (some (written (arrowFlags append) (files f) chunks)))
      else none := by
  by_cases hwords : ∀ w ∈ argv, w.length < m.usable 1
  · cases hline with
    | @command cmd hne hcmd =>
        have hany : (cmd ++ [arrow append, f]).any isPipeOp = false := any_isPipeOp_command hf hcmd
        have hroomy : Roomy m (cmd ++ [arrow append, f]) ↔ cmd.length ≤ 5 := by
          have hlen : (cmd ++ [arrow append, f]).length = cmd.length + 2 := by simp
          constructor
          · intro h
            have hle := h.command hany
            omega
          · intro hle
            refine ⟨hwords, fun _ => by omega, fun h => ?_⟩
            cases hany.symm.trans h
        rw [lineFiles_command hs (badRedirectpipe_of_accepted haccept) hf hne hcmd hwords,
          if_congr hroomy rfl rfl]
    | @pipeline first front cmd hfirst hcmd =>
        have hop := (dispatch_pipeline hs hf hfirst hcmd rfl haccept).2.2.1
        rw [lineFiles_pipeline hs hf hfirst hcmd rfl haccept hinput hwords]
        refine if_congr ⟨fun h => ⟨hwords, fun hnone => ?_, fun _ => h⟩, fun h => h.stages hop⟩ rfl rfl
        cases hop.symm.trans hnone
  · rw [lineFiles_of_long hwords, if_neg fun h => hwords h.words]

end Dispatch

/-- **When the file is right.**  After `CMD > f` the file holds the output, and after `CMD >> f` the
old contents and the output, exactly when the words of the line have the room they need, and the
operator is `>>` or the old contents are not longer than the output.  This is so, for every allocator,
for a command alone and for the last stage of a pipeline, whether or not that reads from a file. -/
theorem outputFile_iff (m : Allocator) (env : ForkEnv) (append : Bool) (f : Word) (argv : List Word)
    (hline : OutputLine append f argv) (g : Globals) (hs : Settled g)
    (haccept : (pipeFilter argv g.reset).globals.badRedirectpipe = false) (hf : isPipeOp f = false)
    (hinput : readsFile argv = true → ∀ stage ∈ (argv.splitOnP isPipeOp).head?, InputNamed env stage)
    (chunks : List (List UInt8)) (files : Files) :
    (∃ files', lineFiles m env argv g.reset chunks files = some files' ∧
      files' f = some (if append then (files f).getD [] ++ chunks.flatten else chunks.flatten)) ↔
      Roomy m argv ∧ (append = true ∨ ((files f).getD []).length ≤ chunks.flatten.length) := by
  rw [lineFiles_of_outputLine hline hs haccept hf hinput]
  by_cases hroom : Roomy m argv
  · rw [if_pos hroom, and_iff_right hroom]
    simp only [Option.some_inj, exists_eq_left', Function.update_self]
    cases append with
    | true => simp [arrowFlags, written_append]
    | false =>
        rw [arrowFlags, if_neg Bool.false_ne_true, if_neg Bool.false_ne_true, written_overwrite,
          or_iff_right Bool.false_ne_true, List.append_right_eq_self, List.drop_eq_nil_iff]
  · rw [if_neg hroom]
    refine iff_of_false ?_ fun h => hroom h.1
    rintro ⟨_, hsome, -⟩
    cases hsome

/-- The words of `ls > f`. -/
def lsToFile : List Word := ["ls".toList] ++ [arrow false, "f".toList]

/-- The words of `cat < in | grep out > f`. -/
def grepToFile : List Word :=
  "cat".toList :: ["<".toList, "in".toList] ++ "|".toList ::
    (["grep".toList, "out".toList] ++ [arrow false, "f".toList])

theorem outputLine_grepToFile : OutputLine false "f".toList grepToFile :=
  .pipeline (by decide) (by decide)

theorem outputFile_iff_grepToFile :
    (∃ files', lineFiles glibc (sampleForkEnv true) grepToFile Globals.init.reset [[8, 9], [10]]
        (fun _ => some [1, 2, 3]) = some files' ∧
      files' "f".toList =
        some (if false then (some [1, 2, 3] : Option (List UInt8)).getD [] ++ [[8, 9], [10]].flatten
          else [[8, 9], [10]].flatten)) ↔
      Roomy glibc grepToFile ∧ (false = true ∨
        ((some [1, 2, 3] : Option (List UInt8)).getD []).length ≤
          ([[8, 9], [10]] : List (List UInt8)).flatten.length) :=
  outputFile_iff glibc (sampleForkEnv true) false "f".toList grepToFile outputLine_grepToFile
    Globals.init settled_init (by decide) (by decide) (by decide) [[8, 9], [10]]
    (fun _ => some [1, 2, 3])

/-- Three old bytes, and an output of one: the last two old bytes are still there, on both paths.  And
a command of six words has no result at all. -/
theorem outputFile_longer :
    OutputLine false "f".toList lsToFile ∧ OutputLine false "f".toList grepToFile ∧
      ((lineFiles glibc (sampleForkEnv true) lsToFile Globals.init.reset [[9]]
        fun _ => some [1, 2, 3]).map fun files => files "f".toList) = some (some [9, 2, 3]) ∧
      ((lineFiles glibc (sampleForkEnv true) grepToFile Globals.init.reset [[9]]
        fun _ => some [1, 2, 3]).map fun files => files "f".toList) = some (some [9, 2, 3]) ∧
      (some [9, 2, 3] : Option (List UInt8)) ≠ some [9] ∧
      (lineFiles glibc (sampleForkEnv true) (List.replicate 6 "a".toList ++ [">".toList, "f".toList])
        Globals.init.reset [[9]] fun _ => none).isNone :=
  ⟨.command (by decide) (by decide), outputLine_grepToFile, by decide +kernel, by decide +kernel,
    by decide, by decide +kernel⟩

end Shell
