/-
**MyShell: the shell's own entry at the head of the job list.**

`removeJob` takes the head off the list when it is asked to remove the shell, or any negative pid,
and `shellfgCommand` does not look at its result.  That the shell keeps its entry therefore rests on
what its callers ask for: `findPID` finds nothing but entries, and the status of the head keeps it
out of `fg`, `bg` and the reaping loop.  This module lets the operations of `main` on the list come
in any order, with any answer of the kernel, and asks of a new child only that its pid is positive
and not the shell's; two children may have the same pid.

Main definitions:

* `Shell.TableState`, `Shell.TableEvent`, `Shell.tableStep` — the list and the operations of `main`,
  with the reaping loop node by node;
* `Shell.TableEvent.Enabled` — which operation may come next;
* `Shell.TableState.Headed` — the head is the shell, and what follows it are jobs.

Main results:

* `Shell.headed_tableStep` — no operation fails, and each of them leaves the head where it is;
* `Shell.exists_run_of_reapLoop` — the reaping loop of `Shell.jobStep` is a run of this system;
* `Shell.head_kept` — **the shell's entry is never lost**.
-/

import NetworkProgramming.ShellJobTable

set_option relaxedAutoImplicit false
set_option autoImplicit false

namespace Shell

open Runs

/-! ### The operations of `main` on the list -/

/-- The table, and where the reaping loop is: `curr` and what follows it, and nothing outside of the
loop. -/
structure TableState where
  table : Table
  curr : List Job

/-- After `initStuff`. -/
def TableState.init (shell : ℤ) (name : Word) : TableState := ⟨Table.init shell name, []⟩

/-- What `main` does to the list. -/
inductive TableEvent
  /-- A line was read, and the reaping loop starts. -/
  | line
  /-- One iteration of the loop, with the answer of `waitpid` if it is asked. -/
  | visit (returned : Bool)
  /-- A child was forked in the background. -/
  | insertBackgroundJob (pid : ℤ) (name : Word)
  /-- A child was forked in the foreground, and `waitpid` left this status. -/
  | jobWait (pid : ℤ) (name : Word) (status : ℕ)
  | fg (w : World) (arg : Word)
  | bg (beyond : Bool) (w : World) (arg : Word)

/-- One iteration of the reaping loop.  After a removal `curr` is the node behind the head. -/
def reapVisit (t : Table) (returned : Bool) : List Job → Option TableState
  | [] => none
  | curr :: next =>
      if curr.status = .background ∧ returned = true then
        match t.removeJob curr.pid with
        | none => none
        | some t =>
            match t.jobs with
            | [] => none
            | _ :: next => some ⟨t, next⟩
      else some ⟨t, next⟩

/-- **The step of the system**; `none` is a null pointer that is followed. -/
def tableStep (s : TableState) : TableEvent → Option TableState
  | .line => some ⟨s.table, s.table.jobs⟩
  | .visit returned => reapVisit s.table returned s.curr
  | .insertBackgroundJob pid name =>
      (insertBackgroundJob { s.table with parentPID := s.table.self } pid name).map fun t => ⟨t, []⟩
  | .jobWait pid name status =>
      (jobWait { s.table with parentPID := s.table.self } pid name status).map fun t => ⟨t, []⟩
  | .fg w arg => (execFg w s.table arg).map fun f => ⟨f.table, []⟩
  | .bg beyond w arg => some ⟨(execBg beyond w s.table arg).table, []⟩

/-- **Which operation may come next**: an iteration in the loop, any other operation outside of it.
A fork returns a positive pid that is not the shell's. -/
def TableEvent.Enabled (s : TableState) : TableEvent → Prop
  | .line => s.curr = []
  | .visit _ => s.curr ≠ []
  | .insertBackgroundJob pid _ => s.curr = [] ∧ 0 < pid ∧ pid ≠ s.table.self
  | .jobWait pid _ _ => s.curr = [] ∧ 0 < pid ∧ pid ≠ s.table.self
  | .fg _ _ => s.curr = []
  | .bg _ _ _ => s.curr = []

instance (s : TableState) (e : TableEvent) : Decidable (e.Enabled s) :=
  match e with
  | .line => inferInstanceAs (Decidable (s.curr = []))
  | .visit _ => inferInstanceAs (Decidable (s.curr ≠ []))
  | .insertBackgroundJob pid _ =>
      inferInstanceAs (Decidable (s.curr = [] ∧ 0 < pid ∧ pid ≠ s.table.self))
  | .jobWait pid _ _ => inferInstanceAs (Decidable (s.curr = [] ∧ 0 < pid ∧ pid ≠ s.table.self))
  | .fg _ _ => inferInstanceAs (Decidable (s.curr = []))
  | .bg _ _ _ => inferInstanceAs (Decidable (s.curr = []))

/-! ### The head -/

/-- What may stand behind the head. -/
structure ChildEntry (shell : ℤ) (j : Job) : Prop where
  pos : 0 < j.pid
  ne_self : j.pid ≠ shell
  status : j.status = .background ∨ j.status = .suspended

/-- The list starts with the shell in the foreground, and everything else on it is a child. -/
structure Table.Headed (shell : ℤ) (name : Word) (t : Table) : Prop where
  self_eq : t.self = shell
  isSuspended : t.isSuspended = false
  jobs : ∃ rest, t.jobs = ⟨shell, name, .foreground⟩ :: rest ∧ ∀ j ∈ rest, ChildEntry shell j

/-- The list is headed by the shell, and the reaping loop is at one of its nodes. -/
structure TableState.Headed (shell : ℤ) (name : Word) (s : TableState) : Prop where
  table : s.table.Headed shell name
  curr : s.curr ⊆ s.table.jobs

section Headed

variable {shell : ℤ} {name : Word} {t : Table}

theorem headed_init : (TableState.init shell name).Headed shell name :=
  ⟨⟨rfl, rfl, [], rfl, fun _ h => absurd h List.not_mem_nil⟩, List.nil_subset _⟩

namespace Table.Headed

/-- Outside of the loop there is no `curr`. -/
theorem outside (h : t.Headed shell name) : TableState.Headed shell name ⟨t, []⟩ :=
  ⟨h, List.nil_subset _⟩

theorem setParent (h : t.Headed shell name) : { t with parentPID := t.self }.Headed shell name :=
  ⟨h.self_eq, h.isSuspended, h.jobs⟩

/-- A node that is not in the foreground is a child. -/
theorem entry (h : t.Headed shell name) {j : Job} (hj : j ∈ t.jobs)
    (hst : j.status ≠ .foreground) : ChildEntry shell j := by
  obtain ⟨rest, hjobs, hrest⟩ := h.jobs
  rw [hjobs] at hj
  rcases List.mem_cons.1 hj with rfl | hj
  · exact absurd rfl hst
  · exact hrest j hj

/-- A child is removed from behind the head. -/
theorem removeJob (h : t.Headed shell name) {j : Job} (hj : ChildEntry shell j) :
    ∃ t', t.removeJob j.pid = some t' ∧ t'.Headed shell name := by
  obtain ⟨rest, hjobs, hrest⟩ := h.jobs
  have hguard : ¬ (j.pid < 0 ∨ shell = j.pid) :=
    not_or.2 ⟨not_lt.2 hj.pos.le, hj.ne_self.symm⟩
  refine ⟨{ t with jobs := ⟨shell, name, .foreground⟩ :: rest.filter fun k => k.pid ≠ j.pid }, ?_,
    h.self_eq, h.isSuspended, _, rfl, ?_⟩
  · simp only [Table.removeJob, h.isSuspended, Bool.false_eq_true, if_false, hjobs, if_neg hguard]
  · intro k hk
    exact hrest k (List.mem_of_mem_filter hk)

/-- A child is inserted behind the head. -/
theorem insert (h : t.Headed shell name) {node : Job} (hnode : ChildEntry shell node) :
    ∃ jobs, Shell.insert t.jobs node = some jobs ∧ { t with jobs := jobs }.Headed shell name := by
  obtain ⟨rest, hjobs, hrest⟩ := h.jobs
  cases hlast : t.jobs.getLast? with
  | none => simp [List.getLast?_eq_none_iff, hjobs] at hlast
  | some last =>
      refine ⟨if last.pid ≠ node.pid then t.jobs ++ [node] else t.jobs, ?_, h.self_eq,
        h.isSuspended, ?_⟩
      · simp only [Shell.insert, hlast]
      dsimp only
      split_ifs
      · refine ⟨rest ++ [node], by rw [hjobs, List.cons_append], ?_⟩
        intro j hj
        rcases List.mem_append.1 hj with hj | hj
        · exact hrest j hj
        · exact List.mem_singleton.1 hj ▸ hnode
      · exact ⟨rest, hjobs, hrest⟩

/-- A child that is resumed is in the background. -/
theorem changeStatus (h : t.Headed shell name) {pid : ℤ} (hpid : pid ≠ shell) :
    { t with jobs := Shell.changeStatus t.jobs pid .background }.Headed shell name := by
  obtain ⟨rest, hjobs, hrest⟩ := h.jobs
  refine ⟨h.self_eq, h.isSuspended, Shell.changeStatus rest pid .background, ?_, ?_⟩
  · simp only [hjobs, Shell.changeStatus, if_neg hpid.symm]
  · intro j hj
    rcases mem_changeStatus hj with hj | ⟨k, hk, -, rfl⟩
    · exact hrest j hj
    · exact ⟨(hrest k hk).pos, (hrest k hk).ne_self, Or.inl rfl⟩

/-- Whatever pid `fg` is given, the head stays. -/
theorem shellfgCommand (h : t.Headed shell name) (w : World) (pid : ℤ) :
    ∃ f, Shell.shellfgCommand w t pid = some f ∧ f.table.Headed shell name := by
  unfold Shell.shellfgCommand
  cases hfind : findPID t.jobs pid with
  | none => exact ⟨_, rfl, h⟩
  | some job =>
      obtain ⟨hmem, rfl⟩ := findPID_eq_some hfind
      dsimp only
      split_ifs with hfg
      · exact ⟨_, rfl, h⟩
      all_goals first
        | exact ⟨_, rfl, h⟩
        | obtain ⟨t', ht', hheaded⟩ := h.removeJob (h.entry hmem hfg)
          exact ⟨_, by rw [ht', Option.map_some], hheaded⟩

/-- Whatever pid `bg` is given, the head stays. -/
theorem shellbgCommand (h : t.Headed shell name) (w : World) (pid : ℤ) :
    (Shell.shellbgCommand w t pid).table.Headed shell name := by
  unfold Shell.shellbgCommand
  cases hfind : findPID t.jobs pid with
  | none => exact h
  | some job =>
      obtain ⟨hmem, rfl⟩ := findPID_eq_some hfind
      dsimp only
      split_ifs with _ hst
      · exact h
      · exact h
      all_goals first
        | exact h
        | have hsusp : job.status = .suspended := not_not.1 hst
          exact h.changeStatus (h.entry hmem (by simp [hsusp])).ne_self

/-- Whatever the argument of `fg`, the head stays. -/
theorem execFg (h : t.Headed shell name) (w : World) (arg : Word) :
    ∃ f, Shell.execFg w t arg = some f ∧ f.table.Headed shell name := by
  unfold Shell.execFg
  split_ifs
  · exact ⟨_, rfl, h⟩
  · cases resolve t (fgByName arg) arg with
    | none => exact ⟨_, rfl, h⟩
    | some pid => exact h.shellfgCommand w pid

/-- Whatever the argument of `bg`, the head stays. -/
theorem execBg (h : t.Headed shell name) (beyond : Bool) (w : World) (arg : Word) :
    (Shell.execBg beyond w t arg).table.Headed shell name := by
  unfold Shell.execBg
  split_ifs
  · exact h
  · cases resolve t (bgByName beyond arg) arg with
    | none => exact h
    | some pid => exact h.shellbgCommand w pid

end Table.Headed

/-- An iteration of the reaping loop removes a child at most. -/
theorem headed_reapVisit (h : t.Headed shell name) {curr : List Job} (hcurr : curr ⊆ t.jobs)
    (hne : curr ≠ []) (returned : Bool) :
    ∃ s, reapVisit t returned curr = some s ∧ s.Headed shell name := by
  cases curr with
  | nil => exact absurd rfl hne
  | cons c next =>
      obtain ⟨hc, hnext⟩ := List.cons_subset.1 hcurr
      rw [reapVisit]
      split_ifs with hbg
      · obtain ⟨t', ht', hheaded⟩ := h.removeJob (h.entry hc (by simp [hbg.1]))
        obtain ⟨rest, hjobs, -⟩ := hheaded.jobs
        refine ⟨⟨t', rest⟩, ?_, hheaded, ?_⟩
        · simp only [ht', hjobs]
        · rw [hjobs]
          exact List.subset_cons_self _ _
      · exact ⟨⟨t, next⟩, rfl, h, hnext⟩

/-- **No operation fails, and each of them leaves the head where it is.** -/
theorem headed_tableStep (s : TableState) (e : TableEvent) (h : s.Headed shell name)
    (he : e.Enabled s) : ∃ t, tableStep s e = some t ∧ t.Headed shell name := by
  obtain ⟨htable, hcurr⟩ := h
  have hself := htable.self_eq
  cases e with
  | line => exact ⟨_, rfl, htable, List.Subset.refl _⟩
  | visit returned => exact headed_reapVisit htable hcurr he returned
  | insertBackgroundJob pid jobName =>
      obtain ⟨-, hpos, hne⟩ := he
      have hnode : ChildEntry shell ⟨pid, jobName, .background⟩ :=
        ⟨hpos, hself ▸ hne, Or.inl rfl⟩
      obtain ⟨jobs, hjobs, hheaded⟩ := htable.setParent.insert hnode
      refine ⟨_, ?_, hheaded.outside⟩
      simp only [tableStep, insertBackgroundJob, hjobs, Option.map_some]
  | jobWait pid jobName status =>
      obtain ⟨-, hpos, hne⟩ := he
      simp only [tableStep, jobWait]
      split_ifs
      · have hnode : ChildEntry shell ⟨pid, jobName, .suspended⟩ :=
          ⟨hpos, hself ▸ hne, Or.inr rfl⟩
        obtain ⟨jobs, hjobs, hheaded⟩ := htable.setParent.insert hnode
        refine ⟨_, ?_, hheaded.outside⟩
        simp only [hjobs, Option.map_some]
      · exact ⟨_, rfl, htable.setParent.outside⟩
  | fg w arg =>
      obtain ⟨f, hf, hheaded⟩ := htable.execFg w arg
      exact ⟨⟨f.table, []⟩, by simp only [tableStep, hf, Option.map_some], hheaded.outside⟩
  | bg beyond w arg => exact ⟨_, rfl, (htable.execBg beyond w arg).outside⟩

end Headed

/-! ### The reaping loop as a run -/

/-- The reaping loop of the system with the processes is a run of iterations. -/
theorem exists_run_of_reapLoop {n : ℕ} {t t' : Table} {curr : List Job} {procs procs' : Procs}
    (h : reapLoop n t curr procs = some (t', procs')) :
    ∃ answers : List Bool,
      run tableStep ⟨t, curr⟩ (answers.map TableEvent.visit) = some ⟨t', []⟩ := by
  induction n generalizing t curr procs with
  | zero => cases h
  | succ n ih =>
      cases curr with
      | nil =>
          obtain ⟨rfl, -⟩ := Prod.mk_inj.1 (Option.some_inj.1 h)
          exact ⟨[], rfl⟩
      | cons c next =>
          -- one iteration with the answer of `waitpid`, and the iterations that follow it
          have hcons : ∀ u : TableState,
              reapVisit t (waitpidNohang procs c.pid).1 (c :: next) = some u →
              (∃ answers : List Bool,
                run tableStep u (answers.map TableEvent.visit) = some ⟨t', []⟩) →
              ∃ answers : List Bool, run tableStep ⟨t, c :: next⟩
                (answers.map TableEvent.visit) = some ⟨t', []⟩ := by
            rintro u hu ⟨answers, hrun⟩
            exact ⟨(waitpidNohang procs c.pid).1 :: answers, run_cons_eq_some.2 ⟨u, hu, hrun⟩⟩
          rw [reapLoop] at h
          split_ifs at h with hgone
          · split at h
            · cases h
            · rename_i u hu
              split at h
              · cases h
              · rename_i hd tl hjobs
                refine hcons ⟨u, tl⟩ ?_ (ih h)
                simp only [reapVisit, if_pos hgone, hu, hjobs]
          · exact hcons ⟨t, next⟩ (by rw [reapVisit, if_neg hgone]) (ih h)

/-! ### Whole runs -/

/-- **The shell's entry is never lost.**  No sequence of operations follows a null pointer, and
after each of them the head of the list is the shell in the foreground, with nothing behind it but
children that are suspended or in the background. -/
theorem head_kept (shell : ℤ) (name : Word) (es : List TableEvent)
    (hes : Along tableStep (fun s e => e.Enabled s) (TableState.init shell name) es) :
    ∃ s, run tableStep (TableState.init shell name) es = some s ∧
      ∃ rest, s.table.jobs = ⟨shell, name, .foreground⟩ :: rest ∧
        ∀ j ∈ rest, 0 < j.pid ∧ j.pid ≠ shell ∧
          (j.status = .background ∨ j.status = .suspended) := by
  obtain ⟨s, hs, hheaded⟩ := exists_run_along headed_tableStep headed_init hes
  obtain ⟨rest, hjobs, hrest⟩ := hheaded.table.jobs
  exact ⟨s, hs, rest, hjobs, fun j hj => ⟨(hrest j hj).pos, (hrest j hj).ne_self,
    (hrest j hj).status⟩⟩

/-- A kernel that lets every signal through. -/
def obliging : World where
  group := fun _ => none
  group_pos := fun _ _ h => absurd h (by simp)
  kill := fun _ => true

/-- A session with two children of the same pid, the arguments that aim at the head, and a loop that
removes both children. -/
def headSession : List TableEvent :=
  [.insertBackgroundJob 7 ['a'], .jobWait 9 ['b'] 0x147f, .insertBackgroundJob 7 ['c'],
    .fg obliging ['-', '1'], .fg obliging ['%', 's', 'h'], .bg false obliging ['4', '2'],
    .bg true obliging ['9'], .line, .visit true, .visit true, .visit false, .fg obliging ['9']]

theorem head_kept_session :
    Along tableStep (fun s e => e.Enabled s) (TableState.init 42 ['s', 'h']) headSession ∧
      ∃ s, run tableStep (TableState.init 42 ['s', 'h']) headSession = some s ∧
        ∃ rest, s.table.jobs = ⟨42, ['s', 'h'], .foreground⟩ :: rest ∧
          ∀ j ∈ rest, 0 < j.pid ∧ j.pid ≠ 42 ∧
            (j.status = .background ∨ j.status = .suspended) :=
  have hes : Along tableStep (fun s e => e.Enabled s) (TableState.init 42 ['s', 'h']) headSession := by
    decide +kernel
  ⟨hes, head_kept 42 ['s', 'h'] headSession hes⟩

end Shell
