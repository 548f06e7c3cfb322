/-
**MyShell: the job list and the commands `fg` and `bg`.**

The shell keeps its jobs in a linked list whose head is the shell itself.  This module embeds the
operations on that list, the way `exec_fg` and `exec_bg` find the job an argument means, and the two
commands themselves, together with the `kill` calls they issue.  What the kernel answers (which
process is in which group, whether a signal could be sent) is a `Shell.World`.

The shell and its jobs are taken to be in order: `Shell.Table.Rooted` says that the head of the list
is the shell and that the entries behind it are children.  Every operation keeps this, whatever the
children do.

Main definitions:

* `Shell.Job`, `Shell.Table` — the list and the globals its operations look at;
* `Shell.insert`, `Shell.Table.removeJob`, `Shell.findPID`, `Shell.changeStatus`,
  `Shell.getPIDfromname` — the operations of the source;
* `Shell.atoi` — the library function that reads the argument;
* `Shell.shellfgCommand`, `Shell.shellbgCommand`, `Shell.execFg`, `Shell.execBg` — the commands.

Main results:

* `Shell.shellfgCommand_of_some`, `Shell.shellbgCommand_of_some` — what the commands do to a table
  in order;
* `Shell.rooted_execFg`, `Shell.rooted_execBg` — they leave it in order.
-/

import NetworkProgramming.ShellDispatch

set_option relaxedAutoImplicit false
set_option autoImplicit false

namespace Shell

/-! ### The job list -/

/-- `enum _Status`. -/
inductive Status
  | suspended
  | background
  | foreground
  deriving DecidableEq

/-- A node of the list.  The field `gid` is never read and is left out. -/
structure Job where
  pid : ℤ
  name : Word
  status : Status
  deriving DecidableEq

/-- `insert`: only the last node is compared with the new one.  A null list is a crash. -/
def insert (jobs : List Job) (node : Job) : Option (List Job) :=
  match jobs.getLast? with
  | none => none
  | some last => some (if last.pid ≠ node.pid then jobs ++ [node] else jobs)

/-- `findPID`. -/
def findPID (jobs : List Job) (pid : ℤ) : Option Job := jobs.find? fun j => j.pid = pid

/-- `changeStatus`: of the first node with that pid. -/
def changeStatus : List Job → ℤ → Status → List Job
  | [], _, _ => []
  | j :: jobs, pid, status =>
      if j.pid = pid then { j with status := status } :: jobs
      else j :: changeStatus jobs pid status

/-- `getPIDfromname`: `0` if there is none. -/
def getPIDfromname (jobs : List Job) (name : Word) : ℤ :=
  match jobs.find? fun j => j.name = name with
  | some j => j.pid
  | none => 0

/-- The state of the shell that the job commands look at. -/
structure Table where
  /-- What `getpid` returns. -/
  self : ℤ
  jobs : List Job
  isSuspended : Bool
  parentPID : ℤ

/-- `initStuff`: the list holds the shell. -/
def Table.init (self : ℤ) (name : Word) : Table :=
  { self := self
    jobs := [⟨self, name, .foreground⟩]
    isSuspended := false
    parentPID := 0 }

/-- `removeJob`: all nodes with that pid, or the head alone. -/
def Table.removeJob (t : Table) (pid : ℤ) : Option Table :=
  if t.isSuspended then some { t with isSuspended := false }
  else
    match t.jobs with
    | [] => none
    | head :: rest =>
        if pid < 0 ∨ head.pid = pid then some { t with jobs := rest }
        else some { t with jobs := head :: rest.filter fun j => j.pid ≠ pid }

/-! ### Reading the argument -/

/-- `isspace`. -/
def isSpace (c : Char) : Bool :=
  c = ' ' || c = '\t' || c = '\n' || c.toNat = 11 || c.toNat = 12 || c = '\r'

/-- The value of the leading digits. -/
def digitsValue (s : Word) : ℕ :=
  (s.takeWhile Char.isDigit).foldl (fun n c => 10 * n + (c.toNat - '0'.toNat)) 0

/-- `strtol` in base ten, which stops at the bounds of a `long`. -/
def strtol (s : Word) : ℤ :=
  match s.dropWhile isSpace with
  | '-' :: rest => max (-2 ^ 63) (-(digitsValue rest : ℤ))
  | '+' :: rest => min (2 ^ 63 - 1) (digitsValue rest)
  | rest => min (2 ^ 63 - 1) (digitsValue rest)

/-- `atoi`: the `long` cut to an `int`. -/
def atoi (s : Word) : ℤ := Int.bmod (strtol s) (2 ^ 32)

/-! ### The commands -/

/-- The signals that the commands send. -/
inductive Signal
  | tstp
  | cont
  deriving DecidableEq

/-- What the kernel answers while a command is executed. -/
structure World where
  /-- The process group of a process, if the process exists. -/
  group : ℤ → Option ℤ
  /-- Processes and groups have positive numbers. -/
  group_pos : ∀ p g, group p = some g → 0 < p ∧ 0 < g
  /-- Whether a signal to this target can be sent. -/
  kill : ℤ → Bool

/-- `getpgid`: `0` stands for the caller. -/
def getpgid (w : World) (self pid : ℤ) : ℤ :=
  (w.group (if pid = 0 then self else pid)).getD (-1)

/-- What a command does: the `kill` calls in their order, the new table, and the job that was
resumed. -/
structure Effect where
  kills : List (ℤ × Signal)
  table : Table
  resumed : Option ℤ

/-- `shellfgCommand`, up to its `waitpid` for the resumed job.  The result of `removeJob` is not
assigned to `jobSet`; this is right as long as the head is not removed. -/
def shellfgCommand (w : World) (t : Table) (pid : ℤ) : Option Effect :=
  -- the first signal is sent before the result of the lookup is checked
  let first := (getpgid w t.self pid, Signal.tstp)
  match findPID t.jobs pid with
  | none => some ⟨[first], t, none⟩
  | some job =>
      if job.status = .foreground then some ⟨[first], t, none⟩
      else if w.kill (-pid) then
        (t.removeJob pid).map fun t => ⟨[first, (-pid, .cont)], t, some pid⟩
      else if w.kill pid then
        (t.removeJob pid).map fun t => ⟨[first, (-pid, .cont), (pid, .cont)], t, some pid⟩
      else some ⟨[first, (-pid, .cont), (pid, .cont)], t, none⟩

/-- `shellbgCommand`. -/
def shellbgCommand (w : World) (t : Table) (pid : ℤ) : Effect :=
  let resumed := { t with jobs := changeStatus t.jobs pid .background }
  match findPID t.jobs pid with
  | none => ⟨[], t, none⟩
  | some job =>
      if job.pid = t.parentPID then ⟨[], t, none⟩
      else if job.status ≠ .suspended then ⟨[], t, none⟩
      else if w.kill (-pid) then ⟨[(-pid, .cont)], resumed, some pid⟩
      else if w.kill pid then ⟨[(-pid, .cont), (pid, .cont)], resumed, some pid⟩
      else ⟨[(-pid, .cont), (pid, .cont)], t, none⟩

/-- `exec_fg` searches by name when something follows the `%`. -/
def fgByName : Word → Bool
  | '%' :: _ :: _ => true
  | _ => false

/-- `exec_bg` looks at the byte after that.  For `%` alone this is a byte behind the end of the
string, `beyond` if it is not zero. -/
def bgByName (beyond : Bool) : Word → Bool
  | '%' :: _ :: _ :: _ => true
  | ['%'] => beyond
  | _ => false

/-- The pid that the argument of `fg` or `bg` means, if the message `no such job` is not printed
right away. -/
def resolve (t : Table) (byName : Bool) (arg : Word) : Option ℤ :=
  if byName then
    let pid := getPIDfromname t.jobs (arg.drop 1)
    if pid = 0 then none else some (if pid = -1 then atoi arg else pid)
  else some (atoi arg)

/-- `exec_fg`. -/
def execFg (w : World) (t : Table) (arg : Word) : Option Effect :=
  if t.jobs = [] then some ⟨[], t, none⟩
  else
    match resolve t (fgByName arg) arg with
    | none => some ⟨[], t, none⟩
    | some pid => shellfgCommand w t pid

/-- `exec_bg`. -/
def execBg (beyond : Bool) (w : World) (t : Table) (arg : Word) : Effect :=
  if t.jobs = [] then ⟨[], t, none⟩
  else
    match resolve t (bgByName beyond arg) arg with
    | none => ⟨[], t, none⟩
    | some pid => shellbgCommand w t pid

/-! ### Tables in order -/

namespace Table

variable {t : Table}

/-- The list without its head. -/
def entries (t : Table) : List Job := t.jobs.tail

/-- The table with other entries behind the same head. -/
def setEntries (t : Table) (es : List Job) : Table := { t with jobs := t.jobs.take 1 ++ es }

/-- What may stand behind the head: a job of a process that is neither the shell nor `init`. -/
structure Entry (t : Table) (j : Job) : Prop where
  one_lt : 1 < j.pid
  ne_self : j.pid ≠ t.self
  status : j.status ≠ .foreground

/-- **A table in order**: the head is the shell, and what follows it are jobs. -/
structure Rooted (t : Table) : Prop where
  head : ∃ name, t.jobs = ⟨t.self, name, .foreground⟩ :: t.entries
  isSuspended : t.isSuspended = false
  parentPID : t.parentPID = 0 ∨ t.parentPID = t.self
  entry : ∀ j ∈ t.entries, t.Entry j

theorem rooted_init (self : ℤ) (name : Word) : (Table.init self name).Rooted :=
  ⟨⟨name, rfl⟩, rfl, Or.inl rfl, fun _ h => by cases h⟩

namespace Rooted

theorem jobs_ne_nil (h : t.Rooted) : t.jobs ≠ [] := by
  obtain ⟨name, hjobs⟩ := h.head
  rw [hjobs]
  exact List.cons_ne_nil _ _

@[simp] theorem entries_setEntries (h : t.Rooted) (es : List Job) :
    (t.setEntries es).entries = es := by
  obtain ⟨name, hjobs⟩ := h.head
  rw [entries, setEntries, hjobs]
  rfl

theorem take_append_entries (h : t.Rooted) : t.jobs.take 1 ++ t.entries = t.jobs := by
  obtain ⟨name, hjobs⟩ := h.head
  rw [hjobs]
  simp [entries]

theorem setEntries_entries (h : t.Rooted) : t.setEntries t.entries = t := by
  rw [Table.setEntries, h.take_append_entries]

theorem setEntries_concat (h : t.Rooted) (node : Job) :
    t.setEntries (t.entries ++ [node]) = { t with jobs := t.jobs ++ [node] } := by
  rw [Table.setEntries, ← List.append_assoc, h.take_append_entries]

theorem setEntries_setEntries (h : t.Rooted) (es fs : List Job) :
    (t.setEntries es).setEntries fs = t.setEntries fs := by
  obtain ⟨name, hjobs⟩ := h.head
  simp only [Table.setEntries, hjobs]
  rfl

theorem setEntries (h : t.Rooted) {es : List Job} (hes : ∀ j ∈ es, t.Entry j) :
    (t.setEntries es).Rooted := by
  obtain ⟨name, hjobs⟩ := h.head
  refine ⟨⟨name, ?_⟩, h.isSuspended, h.parentPID, ?_⟩
  · rw [h.entries_setEntries, Table.setEntries, hjobs]
    rfl
  · intro j hj
    rw [h.entries_setEntries] at hj
    exact ⟨(hes j hj).one_lt, (hes j hj).ne_self, (hes j hj).status⟩

/-- The lookup finds the shell, which is in the foreground, or an entry. -/
theorem findPID_self (h : t.Rooted) :
    ∃ j, findPID t.jobs t.self = some j ∧ j.status = .foreground := by
  obtain ⟨name, hjobs⟩ := h.head
  exact ⟨⟨t.self, name, .foreground⟩, by rw [hjobs, findPID, List.find?_cons_of_pos (by simp)], rfl⟩

theorem findPID_of_ne (h : t.Rooted) {pid : ℤ} (hpid : pid ≠ t.self) :
    findPID t.jobs pid = findPID t.entries pid := by
  obtain ⟨name, hjobs⟩ := h.head
  rw [hjobs, findPID, findPID, List.find?_cons_of_neg (by simpa using hpid.symm)]

theorem removeJob (h : t.Rooted) {j : Job} (hj : j ∈ t.entries) :
    t.removeJob j.pid = some (t.setEntries (t.entries.filter fun k => k.pid ≠ j.pid)) := by
  obtain ⟨name, hjobs⟩ := h.head
  have hne : ¬ (j.pid < 0 ∨ t.self = j.pid) := by
    have hone := (h.entry j hj).one_lt
    exact not_or.2 ⟨by omega, (h.entry j hj).ne_self.symm⟩
  rw [Table.removeJob, if_neg (by simp [h.isSuspended]), Table.setEntries, hjobs]
  dsimp only
  rw [if_neg hne]
  rfl

theorem changeStatus (h : t.Rooted) {pid : ℤ} (hpid : pid ≠ t.self) (status : Status) :
    { t with jobs := Shell.changeStatus t.jobs pid status } =
      t.setEntries (Shell.changeStatus t.entries pid status) := by
  obtain ⟨name, hjobs⟩ := h.head
  rw [Table.setEntries, hjobs, Shell.changeStatus, if_neg hpid.symm]
  rfl

theorem setParent (h : t.Rooted) : { t with parentPID := t.self }.Rooted :=
  ⟨h.head, h.isSuspended, Or.inr rfl, fun j hj => ⟨(h.entry j hj).one_lt,
    (h.entry j hj).ne_self, (h.entry j hj).status⟩⟩

/-- A table stays in order when a child is inserted, whether or not its pid is there already. -/
theorem insert (h : t.Rooted) {node : Job} (hnode : t.Entry node) {jobs : List Job}
    (hins : Shell.insert t.jobs node = some jobs) : { t with jobs := jobs }.Rooted := by
  rw [Shell.insert] at hins
  cases hlast : t.jobs.getLast? with
  | none => exact absurd (List.getLast?_eq_none_iff.1 hlast) h.jobs_ne_nil
  | some last =>
      simp only [hlast, Option.some_inj] at hins
      rw [← hins]
      split_ifs
      · rw [← h.setEntries_concat]
        refine h.setEntries ?_
        intro j hj
        rcases List.mem_append.1 hj with hj | hj
        · exact h.entry j hj
        · exact List.mem_singleton.1 hj ▸ hnode
      · exact h

/-- A job with a new pid is added at the end. -/
theorem insert_of_new (h : t.Rooted) {node : Job} (hself : node.pid ≠ t.self)
    (hnew : ∀ j ∈ t.entries, j.pid ≠ node.pid) :
    Shell.insert t.jobs node = some (t.jobs ++ [node]) := by
  obtain ⟨name, hjobs⟩ := h.head
  have hall : ∀ j ∈ t.jobs, j.pid ≠ node.pid := by
    rw [hjobs]
    exact List.forall_mem_cons.2 ⟨hself.symm, hnew⟩
  rw [Shell.insert]
  cases hlast : t.jobs.getLast? with
  | none => exact absurd (List.getLast?_eq_none_iff.1 hlast) h.jobs_ne_nil
  | some last => exact congrArg some (if_pos (hall last (List.mem_of_getLast? hlast)))

end Rooted

end Table

theorem mem_changeStatus {jobs : List Job} {pid : ℤ} {status : Status} {j : Job}
    (h : j ∈ changeStatus jobs pid status) :
    j ∈ jobs ∨ ∃ k ∈ jobs, k.pid = pid ∧ j = { k with status := status } := by
  induction jobs with
  | nil => cases h
  | cons k jobs ih =>
      rw [changeStatus] at h
      split_ifs at h with hk
      · rcases List.mem_cons.1 h with rfl | h
        · exact Or.inr ⟨k, List.mem_cons_self, hk, rfl⟩
        · exact Or.inl (List.mem_cons_of_mem _ h)
      · rcases List.mem_cons.1 h with rfl | h
        · exact Or.inl List.mem_cons_self
        · rcases ih h with h | ⟨k', hk', heq⟩
          · exact Or.inl (List.mem_cons_of_mem _ h)
          · exact Or.inr ⟨k', List.mem_cons_of_mem _ hk', heq⟩

/-! ### What the commands do to a table in order -/

section Commands

variable {t : Table} {w : World} {pid : ℤ}

theorem findPID_eq_some {jobs : List Job} {j : Job} (h : findPID jobs pid = some j) :
    j ∈ jobs ∧ j.pid = pid :=
  ⟨List.mem_of_find?_eq_some h, by simpa using List.find?_some h⟩

theorem findPID_eq_none {jobs : List Job} (h : findPID jobs pid = none) :
    ∀ j ∈ jobs, j.pid ≠ pid := by
  intro j hj
  simpa using List.find?_eq_none.1 h j hj

/-- `fg` with a pid that is not an entry's sends its first signal and no other. -/
theorem shellfgCommand_of_none (ht : t.Rooted) (h : findPID t.entries pid = none) :
    shellfgCommand w t pid = some ⟨[(getpgid w t.self pid, .tstp)], t, none⟩ := by
  by_cases hself : pid = t.self
  · subst hself
    obtain ⟨j, hj, hfg⟩ := ht.findPID_self
    simp only [shellfgCommand, hj, if_pos hfg]
  · simp only [shellfgCommand, ht.findPID_of_ne hself, h]

/-- `fg` with the pid of an entry resumes the job and removes it, if a signal can be sent. -/
theorem shellfgCommand_of_some (ht : t.Rooted) {j : Job} (h : findPID t.entries pid = some j) :
    shellfgCommand w t pid =
      if w.kill (-pid) then
        some ⟨[(getpgid w t.self pid, .tstp), (-pid, .cont)],
          t.setEntries (t.entries.filter fun k => k.pid ≠ pid), some pid⟩
      else if w.kill pid then
        some ⟨[(getpgid w t.self pid, .tstp), (-pid, .cont), (pid, .cont)],
          t.setEntries (t.entries.filter fun k => k.pid ≠ pid), some pid⟩
      else some ⟨[(getpgid w t.self pid, .tstp), (-pid, .cont), (pid, .cont)], t, none⟩ := by
  obtain ⟨hj, rfl⟩ := findPID_eq_some h
  have hentry := ht.entry j hj
  simp only [shellfgCommand, ht.findPID_of_ne hentry.ne_self, h, if_neg hentry.status,
    ht.removeJob hj, Option.map_some]

/-- `bg` with a pid that is not an entry's does nothing. -/
theorem shellbgCommand_of_none (ht : t.Rooted) (h : findPID t.entries pid = none) :
    shellbgCommand w t pid = ⟨[], t, none⟩ := by
  by_cases hself : pid = t.self
  · subst hself
    obtain ⟨j, hj, hfg⟩ := ht.findPID_self
    have hne : j.status ≠ .suspended := by simp [hfg]
    simp only [shellbgCommand, hj, if_pos hne, ite_self]
  · simp only [shellbgCommand, ht.findPID_of_ne hself, h]

/-- `bg` with the pid of an entry resumes a suspended job, if a signal can be sent. -/
theorem shellbgCommand_of_some (ht : t.Rooted) {j : Job} (h : findPID t.entries pid = some j) :
    shellbgCommand w t pid =
      if j.status ≠ .suspended then ⟨[], t, none⟩
      else if w.kill (-pid) then
        ⟨[(-pid, .cont)], t.setEntries (changeStatus t.entries pid .background), some pid⟩
      else if w.kill pid then
        ⟨[(-pid, .cont), (pid, .cont)], t.setEntries (changeStatus t.entries pid .background),
          some pid⟩
      else ⟨[(-pid, .cont), (pid, .cont)], t, none⟩ := by
  obtain ⟨hj, rfl⟩ := findPID_eq_some h
  have hentry := ht.entry j hj
  have hparent : j.pid ≠ t.parentPID := by
    have hone := hentry.one_lt
    rcases ht.parentPID with hp | hp
    · rw [hp]
      omega
    · rw [hp]
      exact hentry.ne_self
  simp only [shellbgCommand, ht.findPID_of_ne hentry.ne_self, h, if_neg hparent,
    ht.changeStatus hentry.ne_self]

/-- `fg` leaves the table as it is, or without the job it resumed. -/
theorem shellfgCommand_table {f : Effect} (ht : t.Rooted) (h : shellfgCommand w t pid = some f) :
    f.table = t ∨ f.table = t.setEntries (t.entries.filter fun k => k.pid ≠ pid) := by
  cases hfind : findPID t.entries pid with
  | none =>
      rw [shellfgCommand_of_none ht hfind] at h
      exact Or.inl (congrArg Effect.table (Option.some_inj.1 h)).symm
  | some j =>
      rw [shellfgCommand_of_some ht hfind] at h
      split_ifs at h
      · exact Or.inr (congrArg Effect.table (Option.some_inj.1 h)).symm
      · exact Or.inr (congrArg Effect.table (Option.some_inj.1 h)).symm
      · exact Or.inl (congrArg Effect.table (Option.some_inj.1 h)).symm

/-- `bg` leaves the table as it is, or with the job it resumed in the background. -/
theorem shellbgCommand_table (ht : t.Rooted) :
    (shellbgCommand w t pid).table = t ∨
      (shellbgCommand w t pid).table =
        t.setEntries (changeStatus t.entries pid .background) := by
  cases hfind : findPID t.entries pid with
  | none => exact Or.inl (by rw [shellbgCommand_of_none ht hfind])
  | some j =>
      rw [shellbgCommand_of_some ht hfind]
      split_ifs
      · exact Or.inl rfl
      · exact Or.inr rfl
      · exact Or.inr rfl
      · exact Or.inl rfl

/-- `exec_fg` is the command on the pid that the argument means, if it means one. -/
theorem execFg_eq (ht : t.Rooted) (arg : Word) :
    execFg w t arg =
      match resolve t (fgByName arg) arg with
      | none => some ⟨[], t, none⟩
      | some pid => shellfgCommand w t pid := by
  rw [execFg, if_neg ht.jobs_ne_nil]

theorem execBg_eq (ht : t.Rooted) (beyond : Bool) (arg : Word) :
    execBg beyond w t arg =
      match resolve t (bgByName beyond arg) arg with
      | none => ⟨[], t, none⟩
      | some pid => shellbgCommand w t pid := by
  rw [execBg, if_neg ht.jobs_ne_nil]

theorem rooted_execFg {f : Effect} {arg : Word} (ht : t.Rooted) (h : execFg w t arg = some f) :
    f.table.Rooted := by
  rw [execFg_eq ht] at h
  cases hpid : resolve t (fgByName arg) arg with
  | none =>
      rw [hpid] at h
      rw [← Option.some_inj.1 h]
      exact ht
  | some pid =>
      rw [hpid] at h
      rcases shellfgCommand_table ht h with heq | heq
      · rw [heq]
        exact ht
      · rw [heq]
        exact ht.setEntries fun j hj => ht.entry j (List.mem_of_mem_filter hj)

theorem rooted_execBg (ht : t.Rooted) (beyond : Bool) (arg : Word) :
    (execBg beyond w t arg).table.Rooted := by
  rw [execBg_eq ht]
  cases resolve t (bgByName beyond arg) arg with
  | none => exact ht
  | some pid =>
      dsimp only
      rcases shellbgCommand_table ht with heq | heq
      · rw [heq]
        exact ht
      · rw [heq]
        refine ht.setEntries ?_
        intro j hj
        rcases mem_changeStatus hj with hj | ⟨k, hk, -, rfl⟩
        · exact ht.entry j hj
        · exact ⟨(ht.entry k hk).one_lt, (ht.entry k hk).ne_self, by simp⟩

end Commands

end Shell
