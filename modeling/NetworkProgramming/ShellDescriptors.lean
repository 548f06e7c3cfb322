/-
**MyShell: the descriptors of the shell after a pipeline.**

`executePipe` duplicates the standard input and output of the shell, redirects the input, opens the
file of the last stage and creates a pipe for every stage.  What it closes of that again depends on
the way it takes; it never closes everything.

The module follows the descriptor table of the shell process.  The children have tables of their
own.  `dup`, `pipe` and `fork` succeed; whether the files of the redirections exist and can be opened
is a parameter.

Main definitions:

* `ShellDescriptors.redirectIn`, `ShellDescriptors.redirectOut` — the two loops over the words of a
  stage;
* `ShellDescriptors.prepare` — what is done before the loop over the stages;
* `ShellDescriptors.pipeLoop`, `ShellDescriptors.msgLoop` — the loops over the stages;
* `ShellDescriptors.executePipe` — the table after the function has returned;
* `ShellDescriptors.Unchanged` — the same descriptors are open, and the standard ones are what they
  were.

Main results:

* `ShellDescriptors.lt_openCount_executePipe` — more descriptors are open than before;
* `ShellDescriptors.openCount_pipelines` — every pipeline takes one more;
* `ShellDescriptors.not_unchanged_executePipe` — **no pipeline leaves the table as it was**.
-/

import NetworkProgramming.Descriptors
import NetworkProgramming.ShellDispatch

set_option relaxedAutoImplicit false
set_option autoImplicit false

namespace ShellDescriptors

open Descriptors
open Shell (Word Ptype)

/-! ### The function -/

/-- What a descriptor stands for; the pipes are numbered in the order of their creation. -/
inductive File
  /-- A file that the shell was started with. -/
  | inherited (n : ℕ)
  | path (name : Word)
  | pipeRead (k : ℕ)
  | pipeWrite (k : ℕ)
  deriving DecidableEq

/-- The descriptor table of the shell. -/
abbrev Table := List (Option File)

/-- The files of the redirections. -/
structure FileEnv where
  /-- `access` finds the file. -/
  accessible : Word → Bool
  /-- `open` for reading succeeds. -/
  readable : Word → Bool
  /-- `open` for writing succeeds. -/
  writable : Word → Bool

/-- The loop that redirects the input of the first stage: the table, and whether `executePipe` goes
on. -/
def redirectIn (env : FileEnv) (stage : List Word) (t : Table) : Table × Bool :=
  match stage.dropWhile fun w => w ≠ "<".toList with
  | [] => (t, true)
  | [_] => (t, false)
  | _ :: file :: _ =>
      if env.accessible file then
        if env.readable file then
          let fd := (alloc (File.path file) t).2
          (close (dup2 (alloc (File.path file) t).1 (some fd) 0) (some fd), true)
        else (t, true)
      else (t, false)

/-- The loop that opens the file of the last stage: the table, `file_fd_out`, and whether
`executePipe` goes on. -/
def redirectOut (env : FileEnv) (stage : List Word) (t : Table) : Table × Option ℕ × Bool :=
  match stage.dropWhile fun w => w ≠ ">".toList ∧ w ≠ ">>".toList with
  | [] => (t, none, true)
  | [_] => (t, none, false)
  | _ :: file :: _ =>
      if env.writable file then
        ((alloc (File.path file) t).1, some (alloc (File.path file) t).2, true)
      else (t, none, true)

/-- `pipe (p)` for the pipe number `k`: the table, `p[0]` and `p[1]`. -/
def pipe (k : ℕ) (t : Table) : Table × ℕ × ℕ :=
  ((alloc (File.pipeWrite k) (alloc (File.pipeRead k) t).1).1, (alloc (File.pipeRead k) t).2,
    (alloc (File.pipeWrite k) (alloc (File.pipeRead k) t).1).2)

/-- The loop over the stages of a `|` pipeline, from the pipe number `k` on: the read end of every pipe
stays open. -/
def pipeLoop : ℕ → List (List Word) → Table → Table
  | _, [], t => t
  | k, _ :: stages, t => pipeLoop (k + 1) stages (close (pipe k t).1 (some (pipe k t).2.2))

/-- The loop over the stages of a `#` pipeline, with the descriptor of `input_pipe`. -/
def msgLoop : ℕ → List (List Word) → ℕ → Table → Table
  | _, [], _, t => t
  | k, _ :: stages, input, t =>
      msgLoop (k + 1) stages (if stages = [] then input else (pipe k t).2.1)
        (close (pipe k t).1 (some input))

/-- The standard descriptor `fd` gets back its file, if it was redirected. -/
def restore (redirected : Bool) (save : Option ℕ) (fd : ℕ) (t : Table) : Table :=
  if redirected then close (dup2 t save fd) save else t

/-- The beginning of `executePipe`: the table, `file_fd_out`, and whether it comes to the loop over the
stages. -/
def prepare (env : FileEnv) (stages : List (List Word)) (redirIn redirOut : Bool) (t : Table) :
    Table × Option ℕ × Bool :=
  let saved := (dup (dup t 0).1 1).1
  let input := if redirIn then redirectIn env (stages.headD []) saved else (saved, true)
  if input.2 = false then (input.1, none, false)
  else if redirOut then redirectOut env (stages.getLastD []) input.1
  else (input.1, none, true)

/-- **The table after `executePipe`**, whose pipes are numbered from `k` on. -/
def executePipe (env : FileEnv) (k : ℕ) (type : Ptype) (stages : List (List Word))
    (redirIn redirOut : Bool) (t : Table) : Table :=
  let saveIn := dup t 0
  let saveOut := dup saveIn.1 1
  let start := prepare env stages redirIn redirOut t
  if start.2.2 = false then start.1
  else
    match type with
    | .pipe =>
        restore redirOut saveOut.2 1 (restore redirIn saveIn.2 0 (pipeLoop k stages start.1))
    | .msg =>
        restore redirOut saveOut.2 1 (restore redirIn saveIn.2 0 (msgLoop k stages 0 start.1))
    | .shm => start.1
    | .none => start.1

/-- **The table is what it was**: the same descriptors are open, and the standard input and output are
the same files. -/
def Unchanged (t t' : Table) : Prop :=
  (∀ fd, IsOpen t fd ↔ IsOpen t' fd) ∧ get t 0 = get t' 0 ∧ get t 1 = get t' 1

/-! ### The number of the open descriptors -/

section Count

variable (env : FileEnv) (k : ℕ) (stages : List (List Word))

theorem openCount_pipe (t : Table) : openCount (pipe k t).1 = openCount t + 2 := by
  simp [pipe]

/-- Every stage of a `|` pipeline leaves a descriptor open. -/
theorem le_openCount_pipeLoop (t : Table) :
    openCount t + stages.length ≤ openCount (pipeLoop k stages t) := by
  induction stages generalizing k t with
  | nil => exact Nat.le_refl _
  | cons stage stages ih =>
      have hclose := le_openCount_close (pipe k t).1 (some (pipe k t).2.2)
      rw [openCount_pipe] at hclose
      have hrest := ih (k + 1) (close (pipe k t).1 (some (pipe k t).2.2))
      rw [pipeLoop, List.length_cons]
      omega

/-- Every stage of a `#` pipeline leaves a descriptor open. -/
theorem le_openCount_msgLoop (input : ℕ) (t : Table) :
    openCount t + stages.length ≤ openCount (msgLoop k stages input t) := by
  induction stages generalizing k input t with
  | nil => exact Nat.le_refl _
  | cons stage stages ih =>
      have hclose := le_openCount_close (pipe k t).1 (some input)
      rw [openCount_pipe] at hclose
      have hrest := ih (k + 1) (if stages = [] then input else (pipe k t).2.1)
        (close (pipe k t).1 (some input))
      rw [msgLoop, List.length_cons]
      omega

theorem le_openCount_restore (redirected : Bool) (save : Option ℕ) (fd : ℕ) (t : Table) :
    openCount t ≤ openCount (restore redirected save fd t) + 1 := by
  unfold restore
  split_ifs
  · exact (le_openCount_dup2 t save fd).trans (le_openCount_close _ save)
  · exact Nat.le_succ _

theorem le_openCount_redirectIn (stage : List Word) (t : Table) :
    openCount t ≤ openCount (redirectIn env stage t).1 := by
  unfold redirectIn
  split
  · exact Nat.le_refl _
  · exact Nat.le_refl _
  · rename_i file _ _
    split_ifs
    · -- the new descriptor is closed again
      have hdup := le_openCount_dup2 (alloc (File.path file) t).1 (some (alloc (File.path file) t).2) 0
      have hclose := le_openCount_close
        (dup2 (alloc (File.path file) t).1 (some (alloc (File.path file) t).2) 0)
        (some (alloc (File.path file) t).2)
      rw [openCount_alloc] at hdup
      dsimp only
      omega
    · exact Nat.le_refl _
    · exact Nat.le_refl _

theorem le_openCount_redirectOut (stage : List Word) (t : Table) :
    openCount t ≤ openCount (redirectOut env stage t).1 := by
  unfold redirectOut
  split
  · exact Nat.le_refl _
  · exact Nat.le_refl _
  · split_ifs
    · rw [openCount_alloc]
      exact Nat.le_succ _
    · exact Nat.le_refl _

/-- The two descriptors that are saved are open when the loop begins. -/
theorem le_openCount_prepare (redirIn redirOut : Bool) {t : Table} (h0 : IsOpen t 0)
    (h1 : IsOpen t 1) :
    openCount t + 2 ≤ openCount (prepare env stages redirIn redirOut t).1 := by
  have hdups : openCount (dup (dup t 0).1 1).1 = openCount t + 2 := by
    rw [openCount_dup (h1.dup 0), openCount_dup h0]
  unfold prepare
  dsimp only
  generalize hinput : (if redirIn = true then redirectIn env (stages.headD []) (dup (dup t 0).1 1).1
    else ((dup (dup t 0).1 1).1, true)) = input
  have hin : openCount t + 2 ≤ openCount input.1 := by
    rw [← hinput, ← hdups]
    split_ifs
    · exact le_openCount_redirectIn env _ _
    · exact Nat.le_refl _
  split_ifs
  · exact hin
  · exact hin.trans (le_openCount_redirectOut env _ _)
  · exact hin

/-- **More descriptors are open than before**, on every way through the function. -/
theorem lt_openCount_executePipe {stages : List (List Word)} (hstages : stages ≠ []) (type : Ptype)
    (redirIn redirOut : Bool) {t : Table} (h0 : IsOpen t 0) (h1 : IsOpen t 1) :
    openCount t < openCount (executePipe env k type stages redirIn redirOut t) := by
  have hlen := List.length_pos_iff.2 hstages
  have hstart := le_openCount_prepare env stages redirIn redirOut h0 h1
  unfold executePipe
  dsimp only
  generalize prepare env stages redirIn redirOut t = start at hstart
  -- two descriptors may be given back, but every stage takes one
  have hrestore : ∀ t' : Table, openCount t' ≤
      openCount (restore redirOut (dup (dup t 0).1 1).2 1 (restore redirIn (dup t 0).2 0 t')) + 2 := by
    intro t'
    have hr1 := le_openCount_restore redirIn (dup t 0).2 0 t'
    have hr2 := le_openCount_restore redirOut (dup (dup t 0).1 1).2 1
      (restore redirIn (dup t 0).2 0 t')
    omega
  split_ifs
  · omega
  · cases type with
    | pipe =>
        have hloop := le_openCount_pipeLoop k stages start.1
        have hr := hrestore (pipeLoop k stages start.1)
        dsimp only
        omega
    | msg =>
        have hloop := le_openCount_msgLoop k stages 0 start.1
        have hr := hrestore (msgLoop k stages 0 start.1)
        dsimp only
        omega
    | shm =>
        dsimp only
        omega
    | none =>
        dsimp only
        omega

end Count

/-! ### Many pipelines -/

/-- The standard input and output are open. -/
def Standard (t : Table) : Prop := IsOpen t 0 ∧ IsOpen t 1

theorem Standard.alloc {t : Table} (h : Standard t) (f : File) : Standard (alloc f t).1 :=
  ⟨h.1.alloc f, h.2.alloc f⟩

theorem Standard.dup2 {t : Table} (h : Standard t) (old : Option ℕ) (new : ℕ) :
    Standard (dup2 t old new) :=
  ⟨h.1.dup2 old new, h.2.dup2 old new⟩

/-- A descriptor that was new to a table with the standard ones may be closed. -/
theorem Standard.close_alloc {t t' : Table} (h : Standard t) (h' : Standard t') (f : File) :
    Standard (close t' (some (Descriptors.alloc f t).2)) := by
  have hne : ∀ fd, IsOpen t fd → some (Descriptors.alloc f t).2 ≠ some fd := fun fd hfd heq =>
    not_isOpen_alloc f t (Option.some_inj.1 heq ▸ hfd)
  exact ⟨h'.1.close (hne 0 h.1), h'.2.close (hne 1 h.2)⟩

theorem Standard.restore {t t' : Table} (h : Standard t) (h' : Standard t') (redirected : Bool)
    (fd : ℕ) : Standard (restore redirected (dup t fd).2 fd t') := by
  unfold ShellDescriptors.restore
  split_ifs
  · have h'' := h'.dup2 (dup t fd).2 fd
    exact ⟨h''.1.close (dup_snd_ne h.1 fd), h''.2.close (dup_snd_ne h.2 fd)⟩
  · exact h'

theorem standard_pipeLoop (k : ℕ) (stages : List (List Word)) {t : Table} (h : Standard t) :
    Standard (pipeLoop k stages t) := by
  induction stages generalizing k t with
  | nil => exact h
  | cons stage stages ih =>
      have hread := h.alloc (.pipeRead k)
      exact ih (k + 1) (hread.close_alloc (hread.alloc (.pipeWrite k)) (.pipeWrite k))

theorem standard_redirectIn (env : FileEnv) (stage : List Word) {t : Table} (h : Standard t) :
    Standard (redirectIn env stage t).1 := by
  unfold redirectIn
  split
  · exact h
  · exact h
  · split_ifs
    · exact h.close_alloc ((h.alloc _).dup2 _ 0) _
    · exact h
    · exact h

theorem standard_redirectOut (env : FileEnv) (stage : List Word) {t : Table} (h : Standard t) :
    Standard (redirectOut env stage t).1 := by
  unfold redirectOut
  split
  · exact h
  · exact h
  · split_ifs
    · exact h.alloc _
    · exact h

theorem Standard.dup {t : Table} (h : Standard t) (fd : ℕ) : Standard (dup t fd).1 :=
  ⟨h.1.dup fd, h.2.dup fd⟩

theorem standard_prepare (env : FileEnv) (stages : List (List Word)) (redirIn redirOut : Bool)
    {t : Table} (h : Standard t) : Standard (prepare env stages redirIn redirOut t).1 := by
  have hout := (h.dup 0).dup 1
  unfold prepare
  dsimp only
  generalize hinput : (if redirIn = true then redirectIn env (stages.headD []) (dup (dup t 0).1 1).1
    else ((dup (dup t 0).1 1).1, true)) = input
  have h₁ : Standard input.1 := by
    rw [← hinput]
    split_ifs
    · exact standard_redirectIn env _ hout
    · exact hout
  split_ifs
  · exact h₁
  · exact standard_redirectOut env _ h₁
  · exact h₁

/-- After a `|` pipeline the standard input and output are open. -/
theorem standard_executePipe (env : FileEnv) (k : ℕ) (stages : List (List Word))
    (redirIn redirOut : Bool) {t : Table} (h : Standard t) :
    Standard (executePipe env k .pipe stages redirIn redirOut t) := by
  have hstart := standard_prepare env stages redirIn redirOut h
  unfold executePipe
  dsimp only
  split_ifs
  · exact hstart
  · exact (h.dup 0).restore (h.restore (standard_pipeLoop k stages hstart) redirIn 0) redirOut 1

/-- A `|` pipeline that is typed. -/
structure Pipeline where
  env : FileEnv
  stages : List (List Word)
  ne_nil : stages ≠ []
  redirIn : Bool
  redirOut : Bool

/-- The table after some pipelines, whose pipes are numbered from `k` on. -/
def runPipelines : ℕ → List Pipeline → Table → Table
  | _, [], t => t
  | k, p :: ps, t =>
      runPipelines (k + p.stages.length) ps (executePipe p.env k .pipe p.stages p.redirIn p.redirOut t)

/-- **Every pipeline takes a descriptor** that is not given back, so that the number of pipelines is
bounded by that of the descriptors. -/
theorem openCount_pipelines (k : ℕ) (ps : List Pipeline) {t : Table} (h : Standard t) :
    openCount t + ps.length ≤ openCount (runPipelines k ps t) := by
  induction ps generalizing k t with
  | nil => exact Nat.le_refl _
  | cons p ps ih =>
      have hlt := lt_openCount_executePipe p.env k p.ne_nil .pipe p.redirIn p.redirOut h.1 h.2
      have hrest := ih (k + p.stages.length)
        (standard_executePipe p.env k p.stages p.redirIn p.redirOut h)
      rw [runPipelines, List.length_cons]
      omega

/-! ### The table after a pipeline -/

/-- **No pipeline leaves the table as it was**, whatever is redirected and on whichever way the
function returns. -/
theorem not_unchanged_executePipe (env : FileEnv) (k : ℕ) {stages : List (List Word)}
    (hstages : stages ≠ []) (type : Ptype) (redirIn redirOut : Bool) {t : Table} (h0 : IsOpen t 0)
    (h1 : IsOpen t 1) : ¬ Unchanged t (executePipe env k type stages redirIn redirOut t) := by
  intro hsame
  have hlt := lt_openCount_executePipe env k hstages type redirIn redirOut h0 h1
  rw [openCount_congr hsame.1] at hlt
  omega

/-- The descriptors with which a shell is started. -/
def startTable : Table := [some (.inherited 0), some (.inherited 1), some (.inherited 2)]

/-- All files exist. -/
def allFiles : FileEnv := ⟨fun _ => true, fun _ => true, fun _ => true⟩

/-- The pipeline `ls | wc`. -/
def lsWc : List (List Word) := [["ls".toList], ["wc".toList]]

theorem not_unchanged_lsWc :
    (lsWc ≠ [] ∧ IsOpen startTable 0 ∧ IsOpen startTable 1) ∧
      ¬ Unchanged startTable (executePipe allFiles 0 .pipe lsWc false false startTable) :=
  ⟨by decide,
    not_unchanged_executePipe allFiles 0 (by decide) .pipe false false (by decide) (by decide)⟩

/-- After `ls | wc` four more descriptors are open. -/
theorem not_unchanged :
    ¬ ∀ (env : FileEnv) (stages : List (List Word)) (redirIn redirOut : Bool) (t : Table),
      stages ≠ [] → IsOpen t 0 → IsOpen t 1 →
        Unchanged t (executePipe env 0 .pipe stages redirIn redirOut t) := by
  intro hall
  have hopen := ((hall allFiles lsWc false false startTable (by decide) (by decide) (by decide)).1 6).2
    (by decide)
  revert hopen
  decide

end ShellDescriptors
