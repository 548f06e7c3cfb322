/-
**MyShell: whom `fg` and `bg` signal.**

A job command should send its signals to jobs of the shell only.  `shellbgCommand` looks the job up
before it sends anything.  `shellfgCommand` first sends `SIGTSTP` to the process that leads the group
of the process its argument names, whether or not there is such a job; for a process that does not
exist this is `kill(-1, SIGTSTP)`.  A fork that has failed leaves an entry with the pid `-1`, and the
commands aim at everyone when they are asked for it.  The theorem of this module says for every
reachable table exactly which arguments are harmless.

Main definitions:

* `Shell.TableEvent.FreesHead`, `Shell.TableEvent.Defined` — the operations after which the list is
  still there;
* `Shell.Targets` — a target of `kill` belongs to an entry of the table;
* `Shell.commandKills` — the targets of the signals that a command sends;
* `Shell.SignalsOwn` — the commands that are harmless.

Main results:

* `Shell.listed_run` — what can be on the list, with forks that fail;
* `Shell.targets_getpgid_iff` — when the first signal of `fg` is harmless;
* `Shell.targets_commandKills_iff` — **the commands that signal only jobs of the shell**.
-/

import NetworkProgramming.ShellReaping

set_option relaxedAutoImplicit false
set_option autoImplicit false

namespace Shell

open Runs

/-! ### Reachable lists -/

/-- `fg` resumes the job at the head of the list, or a job with a negative pid.  It frees the head and
does not look at the result of `removeJob`, so that there is no list any more. -/
def TableEvent.FreesHead (s : TableState) : TableEvent → Prop
  | .fg w arg => ∃ f ∈ execFg w s.table arg, ∃ pid ∈ f.resumed,
      pid < 0 ∨ ∃ head ∈ s.table.jobs.head?, head.pid = pid
  | _ => False

/-- The pid that a fork returned. -/
def TableEvent.forked : TableEvent → Option ℤ
  | .insertBackgroundJob pid _ => some pid
  | .jobWait pid _ _ => some pid
  | _ => none

/-- **Which operation may come next**: any that is possible, also a fork that fails, as long as the
list is not freed.  The pid `1` is no child's. -/
structure TableEvent.Defined (s : TableState) (e : TableEvent) : Prop where
  possible : e.Possible s
  not_init : e.forked ≠ some 1
  not_freesHead : ¬ e.FreesHead s

/-- What may be on the list: the shell in the foreground, a child, or a fork that has failed. -/
structure ListedJob (shell : ℤ) (j : Job) : Prop where
  foreground : j.status = .foreground → j.pid = shell
  entry : j.status ≠ .foreground → j.pid = -1 ∨ 1 < j.pid ∧ j.pid ≠ shell

/-- The list is not empty, and nothing else is on it. -/
structure TableState.Listed (shell : ℤ) (s : TableState) : Prop where
  self_eq : s.table.self = shell
  parentPID : s.table.parentPID = 0 ∨ s.table.parentPID = shell
  isSuspended : s.table.isSuspended = false
  jobs_ne_nil : s.table.jobs ≠ []
  jobs : ∀ j ∈ s.table.jobs, ListedJob shell j

section Listed

variable {shell : ℤ} {name : Word} {s t : TableState} {e : TableEvent}

theorem ListedJob.of_entry {j : Job} (hst : j.status ≠ .foreground)
    (hpid : j.pid = -1 ∨ 1 < j.pid ∧ j.pid ≠ shell) : ListedJob shell j :=
  ⟨fun h => absurd h hst, fun _ => hpid⟩

theorem listed_init : (TableState.init shell name).Listed shell where
  self_eq := rfl
  parentPID := Or.inl rfl
  isSuspended := rfl
  jobs_ne_nil := List.cons_ne_nil _ _
  jobs := List.forall_mem_singleton.2 ⟨fun _ => rfl, fun h => absurd rfl h⟩

/-- A list with the same globals beside it. -/
theorem TableState.Listed.of_jobs (h : s.Listed shell) {jobs curr : List Job} (hne : jobs ≠ [])
    (hjobs : ∀ j ∈ jobs, ListedJob shell j) :
    TableState.Listed shell ⟨{ s.table with jobs := jobs }, curr⟩ :=
  ⟨h.self_eq, h.parentPID, h.isSuspended, hne, hjobs⟩

theorem TableState.Listed.setParent (h : s.Listed shell) :
    TableState.Listed shell ⟨{ s.table with parentPID := s.table.self }, s.curr⟩ :=
  ⟨h.self_eq, Or.inr h.self_eq, h.isSuspended, h.jobs_ne_nil, h.jobs⟩

/-- What `removeJob` leaves was on the list before. -/
theorem TableState.Listed.removeJob (h : s.Listed shell) (pid : ℤ) :
    ∃ jobs, s.table.removeJob pid = some { s.table with jobs := jobs } ∧ jobs ⊆ s.table.jobs ∧
      (jobs = [] → pid < 0 ∨ ∃ head ∈ s.table.jobs.head?, head.pid = pid) := by
  cases hjobs : s.table.jobs with
  | nil => exact absurd hjobs h.jobs_ne_nil
  | cons head rest =>
      have hsusp : s.table.isSuspended = true ↔ False := by simp [h.isSuspended]
      by_cases hhead : pid < 0 ∨ head.pid = pid
      · refine ⟨rest, ?_, List.subset_cons_self _ _, ?_⟩
        · simp only [Table.removeJob, hsusp, if_false, hjobs, if_pos hhead]
        · intro _
          simpa using hhead
      · refine ⟨head :: rest.filter fun j => j.pid ≠ pid, ?_, ?_, ?_⟩
        · simp only [Table.removeJob, hsusp, if_false, hjobs, if_neg hhead]
        · exact List.cons_subset_cons _ (List.filter_subset_self _)
        · intro hnil
          cases hnil

/-- A node that was forked is inserted or not. -/
theorem TableState.Listed.insert (h : s.Listed shell) {node : Job} (hnode : ListedJob shell node)
    {jobs : List Job} (hins : Shell.insert s.table.jobs node = some jobs) {curr : List Job} :
    TableState.Listed shell ⟨{ s.table with jobs := jobs }, curr⟩ := by
  rw [Shell.insert] at hins
  split at hins
  · cases hins
  · rw [← Option.some_inj.1 hins]
    split_ifs
    · refine h.of_jobs (by simp) ?_
      intro j hj
      rcases List.mem_append.1 hj with hj | hj
      · exact h.jobs j hj
      · exact List.mem_singleton.1 hj ▸ hnode
    · exact h.of_jobs h.jobs_ne_nil h.jobs

/-- A pid that a fork returned, or the `-1` of one that has failed. -/
theorem TableEvent.Defined.forked_eq (he : e.Defined s) {pid : ℤ} (hpid : e.forked = some pid) :
    pid = -1 ∨ 1 < pid ∧ pid ≠ s.table.self := by
  have hone : pid ≠ 1 := fun heq => he.not_init (heq ▸ hpid)
  cases e with
  | insertBackgroundJob pid' jobName =>
      obtain rfl := Option.some_inj.1 hpid
      rcases he.possible with ⟨-, hpos, hself⟩ | ⟨-, hfailed⟩
      · exact Or.inr ⟨by omega, hself⟩
      · exact Or.inl hfailed
  | jobWait pid' jobName status =>
      obtain rfl := Option.some_inj.1 hpid
      rcases he.possible with ⟨-, hpos, hself⟩ | ⟨-, hfailed⟩
      · exact Or.inr ⟨by omega, hself⟩
      · exact Or.inl hfailed
  | line => cases hpid
  | visit returned => cases hpid
  | fg w arg => cases hpid
  | bg beyond w arg => cases hpid

/-- What `fg` leaves: the table as it was, or without the job that was resumed. -/
theorem shellfgCommand_resumed {w : World} {t : Table} {pid : ℤ} {f : Effect}
    (h : shellfgCommand w t pid = some f) :
    f.table = t ∨ f.resumed = some pid ∧ t.removeJob pid = some f.table := by
  unfold shellfgCommand at h
  split at h
  · exact Or.inl (congrArg Effect.table (Option.some_inj.1 h)).symm
  · split_ifs at h
    · exact Or.inl (congrArg Effect.table (Option.some_inj.1 h)).symm
    · obtain ⟨t', ht', rfl⟩ := Option.map_eq_some_iff.1 h
      exact Or.inr ⟨rfl, ht'⟩
    · obtain ⟨t', ht', rfl⟩ := Option.map_eq_some_iff.1 h
      exact Or.inr ⟨rfl, ht'⟩
    · exact Or.inl (congrArg Effect.table (Option.some_inj.1 h)).symm

theorem execFg_resumed {w : World} {t : Table} {arg : Word} {f : Effect}
    (h : execFg w t arg = some f) :
    f.table = t ∨ ∃ pid, f.resumed = some pid ∧ t.removeJob pid = some f.table := by
  unfold execFg at h
  split_ifs at h
  · exact Or.inl (congrArg Effect.table (Option.some_inj.1 h)).symm
  · split at h
    · exact Or.inl (congrArg Effect.table (Option.some_inj.1 h)).symm
    · exact (shellfgCommand_resumed h).imp_right fun hf => ⟨_, hf⟩

/-- What `bg` leaves: the table as it was, or with a suspended job in the background. -/
theorem execBg_resumed (beyond : Bool) (w : World) (t : Table) (arg : Word) :
    (execBg beyond w t arg).table = t ∨
      ∃ pid, ∃ j ∈ t.jobs, j.pid = pid ∧ j.status = .suspended ∧
        (execBg beyond w t arg).table =
          { t with jobs := changeStatus t.jobs pid .background } := by
  unfold execBg
  split_ifs
  · exact Or.inl rfl
  · split
    · exact Or.inl rfl
    · rename_i pid hpid
      unfold shellbgCommand
      cases hfind : findPID t.jobs pid with
      | none => exact Or.inl rfl
      | some j =>
          obtain ⟨hj, hjpid⟩ := findPID_eq_some hfind
          dsimp only
          split_ifs with hparent hsusp
          · exact Or.inl rfl
          · exact Or.inl rfl
          · exact Or.inr ⟨pid, j, hj, hjpid, not_not.1 hsusp, rfl⟩
          · exact Or.inr ⟨pid, j, hj, hjpid, not_not.1 hsusp, rfl⟩
          · exact Or.inl rfl

/-- **Nothing but the shell, its children and failed forks** comes to be on the list. -/
theorem listed_tableStep (s : TableState) (e : TableEvent) (t : TableState) (hs : s.Listed shell)
    (he : e.Defined s) (h : tableStep s e = some t) : t.Listed shell := by
  cases e with
  | line =>
      rw [← Option.some_inj.1 h]
      exact hs.of_jobs hs.jobs_ne_nil hs.jobs
  | visit returned =>
      simp only [tableStep] at h
      cases hcurr : s.curr with
      | nil => simp [hcurr, reapVisit] at h
      | cons c next =>
          obtain ⟨jobs, hremove, hsub, -⟩ := hs.removeJob c.pid
          simp only [hcurr, reapVisit, hremove] at h
          split_ifs at h with hbg
          · cases jobs with
            | nil => cases h
            | cons head rest =>
                rw [← Option.some_inj.1 h]
                exact hs.of_jobs (List.cons_ne_nil _ _) fun j hj => hs.jobs j (hsub hj)
          · rw [← Option.some_inj.1 h]
            exact hs.of_jobs hs.jobs_ne_nil hs.jobs
  | insertBackgroundJob pid jobName =>
      obtain ⟨t', ht', rfl⟩ := Option.map_eq_some_iff.1 h
      obtain ⟨jobs, hins, rfl⟩ := Option.map_eq_some_iff.1 ht'
      refine hs.setParent.insert ?_ hins
      exact .of_entry (by simp) (hs.self_eq ▸ he.forked_eq rfl)
  | jobWait pid jobName status =>
      obtain ⟨t', ht', rfl⟩ := Option.map_eq_some_iff.1 h
      unfold jobWait at ht'
      split_ifs at ht'
      · obtain ⟨jobs, hins, rfl⟩ := Option.map_eq_some_iff.1 ht'
        refine hs.setParent.insert ?_ hins
        exact .of_entry (by simp) (hs.self_eq ▸ he.forked_eq rfl)
      · rw [← Option.some_inj.1 ht']
        exact ⟨hs.self_eq, Or.inr hs.self_eq, hs.isSuspended, hs.jobs_ne_nil, hs.jobs⟩
  | fg w arg =>
      obtain ⟨f, hf, rfl⟩ := Option.map_eq_some_iff.1 h
      rcases execFg_resumed hf with heq | ⟨pid, hresumed, hremove⟩
      · rw [heq]
        exact hs.of_jobs hs.jobs_ne_nil hs.jobs
      · obtain ⟨jobs, hjobs, hsub, hnil⟩ := hs.removeJob pid
        rw [← Option.some_inj.1 (hjobs.symm.trans hremove)]
        refine hs.of_jobs ?_ fun j hj => hs.jobs j (hsub hj)
        intro hempty
        exact he.not_freesHead ⟨f, hf, pid, hresumed, hnil hempty⟩
  | bg beyond w arg =>
      rw [← Option.some_inj.1 h]
      rcases execBg_resumed beyond w s.table arg with heq | ⟨pid, job, hjob, hpid, hsusp, heq⟩
      · rw [heq]
        exact hs.of_jobs hs.jobs_ne_nil hs.jobs
      · rw [heq]
        refine hs.of_jobs ?_ ?_
        · intro hnil
          cases hjobs : s.table.jobs with
          | nil => exact hs.jobs_ne_nil hjobs
          | cons head rest =>
              rw [hjobs, changeStatus] at hnil
              split_ifs at hnil
        · intro j hj
          rcases mem_changeStatus hj with hj | ⟨k, -, hk, rfl⟩
          · exact hs.jobs j hj
          · have hentry := (hs.jobs job hjob).entry (by simp [hsusp])
            rw [hpid, ← hk] at hentry
            exact .of_entry (by simp) hentry

/-- **What can be on the list** in any run, also with forks that fail. -/
theorem listed_run {es : List TableEvent}
    (hes : Along tableStep (fun s e => e.Defined s) (TableState.init shell name) es)
    (h : run tableStep (TableState.init shell name) es = some s) : s.Listed shell :=
  run_invariant_along listed_tableStep listed_init hes h

end Listed

/-! ### Own targets -/

/-- The target of a `kill` is an entry of the table, or its process group.  A positive number is a
process, a number below `-1` a group, and `-1` is everyone. -/
def Targets (w : World) (t : Table) (target : ℤ) : Prop :=
  (0 < target ∧ ∃ j ∈ t.jobs, target = j.pid) ∨
    target < -1 ∧ ∃ j ∈ t.jobs, target = -j.pid ∨ ∃ g, w.group j.pid = some g ∧ target = -g

/-- The `kill` calls of a command, in their order. -/
def commandKills (beyond : Bool) (w : World) (t : Table) : Dispatch → Option (List (ℤ × Signal))
  | .fg arg => (execFg w t arg).map Effect.kills
  | .bg arg => some (execBg beyond w t arg).kills
  | _ => some []

/-- `pid`, or the shell for `0`, exists, and its process group is led by an entry. -/
def LedByJob (w : World) (t : Table) (pid : ℤ) : Prop :=
  ∃ g, w.group (if pid = 0 then t.self else pid) = some g ∧ ∃ j ∈ t.jobs, g = j.pid

/-- **The commands that signal only jobs of the shell**: all but `fg` with an argument that means a
process whose group is not led by a job, and `bg` with one that means a fork which has failed and is
listed as suspended.  The latter signals process `1` first, which is a job only if it is the shell. -/
def SignalsOwn (beyond : Bool) (w : World) (t : Table) : Dispatch → Prop
  | .fg arg => ∀ pid ∈ resolve t (fgByName arg) arg, LedByJob w t pid
  | .bg arg => ∀ pid ∈ resolve t (bgByName beyond arg) arg, pid = -1 →
      (∃ j ∈ findPID t.jobs pid, j.status = .suspended) → w.kill 1 = true ∧ ∃ j ∈ t.jobs, j.pid = 1
  | _ => True

section Targets

variable {shell : ℤ} {w : World} {s : TableState} {pid : ℤ}

/-- **The first signal of `fg`** goes to the leader of a group, or to everyone. -/
theorem targets_getpgid_iff {t : Table} :
    Targets w t (getpgid w t.self pid) ↔ LedByJob w t pid := by
  unfold Targets LedByJob getpgid
  cases hg : w.group (if pid = 0 then t.self else pid) with
  | none => simp
  | some g =>
      have hgpos : 0 < g := (w.group_pos _ g hg).2
      simp only [Option.getD_some, Option.some_inj, exists_eq_left']
      constructor
      · rintro (⟨-, hown⟩ | ⟨hneg, -⟩)
        · exact hown
        · omega
      · exact fun hown => Or.inl ⟨hgpos, hown⟩

/-- The other signals go to the job that was found, unless it is a fork that has failed. -/
theorem targets_of_found {t : Table} {j : Job} (hj : j ∈ t.jobs) (hpid : 1 < j.pid) :
    Targets w t (-j.pid) ∧ Targets w t j.pid :=
  ⟨Or.inr ⟨by omega, j, hj, Or.inl rfl⟩, Or.inl ⟨by omega, j, hj, rfl⟩⟩

/-- No process group has the number of a fork that has failed. -/
theorem one_lt_of_ledByJob {t : Table} {j : Job} (hentry : j.pid = -1 ∨ 1 < j.pid ∧ j.pid ≠ shell)
    (hled : LedByJob w t j.pid) : 1 < j.pid := by
  obtain ⟨g, hg, -⟩ := hled
  have hpos := (w.group_pos _ g hg).1
  split_ifs at hpos <;> omega

theorem targets_shellfgCommand (hs : s.Listed shell) :
    ∃ f, shellfgCommand w s.table pid = some f ∧
      ((∀ k ∈ f.kills, Targets w s.table k.1) ↔ LedByJob w s.table pid) := by
  rw [← targets_getpgid_iff]
  obtain ⟨jobs, hremove, -, -⟩ := hs.removeJob pid
  cases hfind : findPID s.table.jobs pid with
  | none => exact ⟨_, by rw [shellfgCommand, hfind], by simp⟩
  | some j =>
      obtain ⟨hj, rfl⟩ := findPID_eq_some hfind
      simp only [shellfgCommand, hfind, hremove, Option.map_some]
      by_cases hfg : j.status = .foreground
      · exact ⟨_, if_pos hfg, by simp⟩
      · -- whatever is signalled after the first, it is this job
        have hown : Targets w s.table (getpgid w s.table.self j.pid) →
            Targets w s.table (-j.pid) ∧ Targets w s.table j.pid := by
          intro hfirst
          have hled := targets_getpgid_iff.1 hfirst
          exact targets_of_found hj (one_lt_of_ledByJob ((hs.jobs j hj).entry hfg) hled)
        simp only [if_neg hfg]
        split_ifs
        · exact ⟨_, rfl, by simpa using fun h => (hown h).1⟩
        · exact ⟨_, rfl, by simpa using hown⟩
        · exact ⟨_, rfl, by simpa using hown⟩

/-- The first signal for a fork that has failed goes to process `1`, and the second to everyone. -/
theorem targets_failed {t : Table} :
    (Targets w t 1 ↔ ∃ j ∈ t.jobs, j.pid = 1) ∧ ¬ Targets w t (-1) := by
  constructor
  · constructor
    · rintro (⟨-, j, hj, hpid⟩ | ⟨hneg, -⟩)
      · exact ⟨j, hj, hpid.symm⟩
      · omega
    · rintro ⟨j, hj, hpid⟩
      exact Or.inl ⟨by omega, j, hj, hpid.symm⟩
  · rintro (⟨hpos, -⟩ | ⟨hneg, -⟩) <;> omega

theorem targets_shellbgCommand (hs : s.Listed shell) (hshell : 0 < shell) (w : World) (pid : ℤ) :
    (∀ k ∈ (shellbgCommand w s.table pid).kills, Targets w s.table k.1) ↔
      (pid = -1 → (∃ j ∈ findPID s.table.jobs pid, j.status = .suspended) →
        w.kill 1 = true ∧ ∃ j ∈ s.table.jobs, j.pid = 1) := by
  cases hfind : findPID s.table.jobs pid with
  | none => simp [shellbgCommand, hfind]
  | some j =>
      obtain ⟨hj, rfl⟩ := findPID_eq_some hfind
      by_cases hsusp : j.status = .suspended
      · have hentry := (hs.jobs j hj).entry (by simp [hsusp])
        have hparent : j.pid ≠ s.table.parentPID := by
          have := hs.parentPID
          omega
        simp only [shellbgCommand, hfind, if_neg hparent, hsusp, ne_eq, not_true_eq_false, if_false,
          Option.mem_def, Option.some_inj, exists_eq_left', forall_const]
        by_cases hfailed : j.pid = -1
        · obtain ⟨hinit, hall⟩ := targets_failed (w := w) (t := s.table)
          simp only [hfailed, neg_neg, forall_const, ← hinit]
          split_ifs with hkill
          · simp [hkill]
          · simp [hkill, hall]
          · simp [hkill, hall]
        · -- a child and its group are signalled
          obtain ⟨hgroup, hself⟩ := targets_of_found (w := w) hj (by omega)
          simp only [hfailed, false_imp_iff, iff_true]
          split_ifs
          · simpa using hgroup
          · simpa using And.intro hgroup hself
          · simpa using And.intro hgroup hself
      · have hkills : (shellbgCommand w s.table j.pid).kills = [] := by
          simp only [shellbgCommand, hfind]
          split_ifs <;> simp_all
        simp [hkills, hsusp]

end Targets

/-- **Whom the commands signal**: in every reachable state, the signals of a command all go to jobs
of the shell exactly when it is `bg` and does not find a failed fork that is listed as suspended, or
`fg` with an argument that means a process whose group is led by a job. -/
theorem targets_commandKills_iff {shell : ℤ} {name : Word} {es : List TableEvent} {s : TableState}
    (hes : Along tableStep (fun s e => e.Defined s) (TableState.init shell name) es)
    (hrun : run tableStep (TableState.init shell name) es = some s) (w : World)
    (hself : w.group shell ≠ none) (beyond : Bool) (d : Dispatch) :
    ∃ kills, commandKills beyond w s.table d = some kills ∧
      ((∀ k ∈ kills, Targets w s.table k.1) ↔ SignalsOwn beyond w s.table d) := by
  have hs : s.Listed shell := listed_run hes hrun
  cases d with
  | fg arg =>
      simp only [commandKills, SignalsOwn, execFg, if_neg hs.jobs_ne_nil]
      cases hpid : resolve s.table (fgByName arg) arg with
      | none => exact ⟨[], rfl, by simp⟩
      | some pid =>
          have hfg : ∃ f, shellfgCommand w s.table pid = some f ∧
              ((∀ k ∈ f.kills, Targets w s.table k.1) ↔ LedByJob w s.table pid) :=
            targets_shellfgCommand hs
          obtain ⟨f, hf, hiff⟩ := hfg
          exact ⟨f.kills, by simp [hf], by simpa using hiff⟩
  | bg arg =>
      refine ⟨_, rfl, ?_⟩
      obtain ⟨g, hg⟩ := Option.ne_none_iff_exists'.1 hself
      have hshell : 0 < shell := (w.group_pos _ g hg).1
      simp only [SignalsOwn, execBg, if_neg hs.jobs_ne_nil]
      cases hpid : resolve s.table (bgByName beyond arg) arg with
      | none => simp
      | some pid => simpa using targets_shellbgCommand hs hshell w pid
  | _ => exact ⟨[], rfl, by simp [SignalsOwn]⟩

/-- A shell with pid `100` and a process `101` in its group. -/
def pairWorld : World where
  group p := if p = 100 ∨ p = 101 then some 100 else none
  group_pos p g hg := by
    split_ifs at hg
    simp only [Option.some_inj] at hg
    omega
  kill t := t = 101

/-- An editor is suspended, and the next fork fails while a job in the background is stopped. -/
def editorRun : List TableEvent :=
  [.line, .visit false, .jobWait 101 "vi".toList 0x147f, .insertBackgroundJob 102 "cc".toList,
    .jobWait (-1) "ls".toList 0x147f]

/-- The state with the suspended editor and the failed fork. -/
def editorEnd : TableState :=
  (run tableStep (TableState.init 100 "shell".toList) editorRun).get (by decide)

theorem along_editorRun :
    Along tableStep (fun s e => e.Defined s) (TableState.init 100 "shell".toList) editorRun :=
  ⟨⟨by decide, by decide, id⟩, ⟨by decide, by decide, id⟩, ⟨by decide, by decide, id⟩,
    ⟨by decide, by decide, id⟩, ⟨by decide, by decide, id⟩, trivial⟩

theorem targets_commandKills_editor :
    ∃ kills, commandKills false pairWorld editorEnd.table (.fg "%vi".toList) = some kills ∧
      ∀ k ∈ kills, Targets pairWorld editorEnd.table k.1 := by
  obtain ⟨kills, hkills, hiff⟩ := targets_commandKills_iff along_editorRun
    (show run tableStep (TableState.init 100 "shell".toList) editorRun = some editorEnd from
      (Option.some_get _).symm) pairWorld (by decide) false (.fg "%vi".toList)
  refine ⟨kills, hkills, hiff.2 ?_⟩
  intro pid hpid
  have hvi : resolve editorEnd.table (fgByName "%vi".toList) "%vi".toList = some 101 := by decide
  obtain rfl : (101 : ℤ) = pid := Option.some_inj.1 (hvi.symm.trans hpid)
  exact ⟨100, rfl, ⟨100, "shell".toList, .foreground⟩, by decide, rfl⟩

/-- **`fg` with a number that is no process signals everyone**, and so does `bg -1` after a fork has
failed. -/
theorem not_targets_of_no_process :
    ¬ ∀ (shell : ℤ) (name : Word) (es : List TableEvent) (s : TableState),
      Along tableStep (fun s e => e.Defined s) (TableState.init shell name) es →
      run tableStep (TableState.init shell name) es = some s →
        ∀ (w : World), w.group shell ≠ none → ∀ (beyond : Bool) (d : Dispatch) kills,
          commandKills beyond w s.table d = some kills → ∀ k ∈ kills, Targets w s.table k.1 := by
  intro hall
  have hkills : commandKills false pairWorld editorEnd.table (.fg "99999".toList) =
      some [(-1, .tstp)] := by decide
  have hown := hall 100 "shell".toList editorRun editorEnd along_editorRun (Option.some_get _).symm
    pairWorld (by decide) false _ _ hkills (-1, .tstp) (by simp)
  rcases hown with ⟨hpos, -⟩ | ⟨hneg, -⟩
  · exact absurd hpos (by decide)
  · exact absurd hneg (by decide)

example : commandKills false pairWorld editorEnd.table (.bg "-1".toList) =
    some [(1, .cont), (-1, .cont)] := by decide

end Shell
