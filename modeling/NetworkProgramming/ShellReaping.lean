/-
**MyShell: the reaping loop on an arbitrary list, and forks that fail.**

Before it looks at a line, `main` walks through the job list and removes the background jobs whose
`waitpid` does not answer zero.  `removeJob` unlinks every node with the pid, and the walk starts
again behind the head, so that neither the end of the loop nor its result is evident when a pid is
on the list more than once.  `Shell.ShellJobTable` treats the lists on which every pid is there
once; here the list is arbitrary, and all that is known of `waitpid` is that its answer depends on
the pid.

When `fork` fails, `main` goes on with the pid `-1`.  A background job with this pid is put on the
list, and `removeJob` takes a negative pid for the head.  In the foreground, `waitpid` waits for any
child, and the status of that child decides whether the pid is put on the list.

Main definitions:

* `Shell.reapAll` — the reaping loop, as iterations of `Shell.reapVisit`;
* `Shell.reported`, `Shell.kept` — the pids that are removed, and what is left of a list;
* `Shell.TableEvent.ForkFailed`, `Shell.TableEvent.Possible` — the operations of `main` with forks
  that may fail;
* `Shell.Intact` — a run in which a failed fork does no harm.

Main results:

* `Shell.kept_filter_of_reported` — a removal does not change what is left in the end;
* `Shell.reapAll_from` — the loop ends wherever it is;
* `Shell.reapAll_kept` — **the loop ends, and leaves the jobs that are not reported**;
* `Shell.intact_iff` — **a run is not harmed exactly when every fork that fails is in the foreground
  and finds a status without a stop signal**.
-/

import NetworkProgramming.ShellJobHead

set_option relaxedAutoImplicit false
set_option autoImplicit false

namespace Shell

open Runs

/-! ### The loop -/

/-- The reaping loop of `main`.  `finished pid` says that `waitpid` with `WNOHANG` does not answer
zero for this pid. -/
def reapAll (finished : ℤ → Bool) : ℕ → TableState → Option TableState
  | 0, _ => none
  | _ + 1, ⟨t, []⟩ => some ⟨t, []⟩
  | n + 1, ⟨t, curr :: next⟩ =>
      (reapVisit t (finished curr.pid) (curr :: next)).bind (reapAll finished n)

/-- The pid of a background job of the list that is finished. -/
def reported (finished : ℤ → Bool) (jobs : List Job) (pid : ℤ) : Bool :=
  finished pid && jobs.any fun k => k.status = .background && k.pid = pid

/-- The jobs whose pid is not reported. -/
def kept (finished : ℤ → Bool) (jobs : List Job) : List Job :=
  jobs.filter fun j => !reported finished jobs j.pid

section Loop

variable {finished : ℤ → Bool} {jobs : List Job}

theorem reported_iff {pid : ℤ} : reported finished jobs pid = true ↔
    finished pid = true ∧ ∃ k ∈ jobs, k.status = .background ∧ k.pid = pid := by
  simp [reported]

/-- More fuel does not change the result. -/
theorem reapAll_mono {n m : ℕ} {s r : TableState} (h : reapAll finished n s = some r)
    (hnm : n ≤ m) : reapAll finished m s = some r := by
  induction n generalizing m s with
  | zero => cases h
  | succ n ih =>
      obtain ⟨m, rfl⟩ : ∃ k, m = k + 1 := ⟨m - 1, by omega⟩
      obtain ⟨t, curr⟩ := s
      cases curr with
      | nil => exact h
      | cons c next =>
          obtain ⟨u, hu, hrest⟩ := Option.bind_eq_some_iff.1 h
          exact Option.bind_eq_some_iff.2 ⟨u, hu, ih hrest (by omega)⟩

/-- The removal of a reported pid does not change what is left in the end. -/
theorem kept_filter_of_reported {pid : ℤ} (h : reported finished jobs pid = true) :
    kept finished (jobs.filter fun j => j.pid ≠ pid) = kept finished jobs := by
  rw [kept, kept, List.filter_filter]
  refine List.filter_congr ?_
  intro j _
  by_cases hj : j.pid = pid
  · simp [hj, h]
  · -- the entries with the pid of `j` are all still there
    have hsame : reported finished (jobs.filter fun j => j.pid ≠ pid) j.pid =
        reported finished jobs j.pid := by
      rw [Bool.eq_iff_iff, reported_iff, reported_iff]
      refine and_congr_right fun _ => exists_congr ?_
      intro k
      rw [List.mem_filter]
      constructor
      · rintro ⟨⟨hk, -⟩, hbg, hpid⟩
        exact ⟨hk, hbg, hpid⟩
      · rintro ⟨hk, hbg, hpid⟩
        exact ⟨⟨hk, by simpa [hpid] using hj⟩, hbg, hpid⟩
    rw [hsame]
    simp [hj]

/-- Nothing is removed from a list without finished background jobs. -/
theorem kept_of_none (h : ∀ j ∈ jobs, ¬ (j.status = .background ∧ finished j.pid = true)) :
    kept finished jobs = jobs := by
  refine List.filter_eq_self.2 ?_
  intro j _
  rw [Bool.not_eq_true', ← Bool.not_eq_true, reported_iff]
  rintro ⟨hfin, k, hk, hbg, hpid⟩
  exact h k hk ⟨hbg, hpid ▸ hfin⟩

/-- What `removeJob` leaves of a list when a reported job behind the head is removed: the head is
still there, and the list is shorter or `isSuspended` is cleared. -/
theorem removeJob_of_reported {t : Table} {head : Job} {body : List Job} {pid : ℤ}
    (hjobs : t.jobs = head :: body) (hne : pid ≠ head.pid) (hpos : 0 < pid)
    (hmem : ∃ j ∈ body, j.pid = pid) (hreported : reported finished t.jobs pid = true) :
    ∃ u body', t.removeJob pid = some u ∧ u.jobs = head :: body' ∧ body' ⊆ body ∧
      u.isSuspended.toNat + u.jobs.length < t.isSuspended.toNat + t.jobs.length ∧
      kept finished u.jobs = kept finished t.jobs := by
  cases hsusp : t.isSuspended with
  | true =>
      refine ⟨{ t with isSuspended := false }, body, by rw [Table.removeJob, if_pos hsusp], hjobs,
        List.Subset.refl _, ?_, rfl⟩
      simp only [Bool.toNat_true, Bool.toNat_false]
      omega
  | false =>
      have hguard : ¬ (pid < 0 ∨ head.pid = pid) := not_or.2 ⟨by omega, hne.symm⟩
      have hfilter : t.jobs.filter (fun j => j.pid ≠ pid) =
          head :: body.filter fun j => j.pid ≠ pid := by
        rw [hjobs, List.filter_cons_of_pos (by simpa using hne.symm)]
      refine ⟨{ t with jobs := t.jobs.filter fun j => j.pid ≠ pid }, _, ?_, hfilter,
        fun j hj => List.mem_of_mem_filter hj, ?_, kept_filter_of_reported hreported⟩
      · rw [hfilter, Table.removeJob, if_neg (by simp [hsusp]), hjobs]
        dsimp only
        rw [if_neg hguard]
      · obtain ⟨j, hj, hpid⟩ := hmem
        have hlt : (t.jobs.filter fun j => j.pid ≠ pid).length < t.jobs.length :=
          List.length_filter_lt_length_iff_exists.2 ⟨j, by simp [hjobs, hj], by simp [hpid]⟩
        simpa [hsusp] using hlt

/-- **The loop ends wherever it is**, if the nodes `pre` that it has passed are not to be removed.
Each restart makes the list shorter or clears `isSuspended`; between restarts `curr` gets shorter. -/
theorem reapAll_from {head : Job} (hhead : head.status ≠ .background) (k : ℕ) :
    ∀ (t : Table) (pre curr : List Job), t.isSuspended.toNat + t.jobs.length ≤ k →
      t.jobs = head :: (pre ++ curr) →
      (∀ j ∈ pre ++ curr, j.pid ≠ head.pid ∧ 0 < j.pid) →
      (∀ j ∈ pre, ¬ (j.status = .background ∧ finished j.pid = true)) →
      ∃ n t', reapAll finished n ⟨t, curr⟩ = some ⟨t', []⟩ ∧ t'.jobs = kept finished t.jobs := by
  induction k with
  | zero =>
      intro t pre curr hk hjobs
      simp [hjobs] at hk
  | succ k ihk =>
      intro t pre curr hk hjobs hpid hpre
      induction curr generalizing pre with
      | nil =>
          refine ⟨1, t, rfl, (kept_of_none ?_).symm⟩
          rw [hjobs, List.append_nil]
          exact List.forall_mem_cons.2 ⟨fun h => hhead h.1, hpre⟩
      | cons c rest ih =>
          by_cases hc : c.status = .background ∧ finished c.pid = true
          · -- the walk starts again behind the head of what `removeJob` leaves
            have hmem : c ∈ pre ++ c :: rest := by simp
            have hreported : reported finished t.jobs c.pid = true :=
              reported_iff.2 ⟨hc.2, c, by simp [hjobs], hc.1, rfl⟩
            obtain ⟨u, body, hu, hbody, hsub, hsize, hkept⟩ :=
              removeJob_of_reported hjobs (hpid c hmem).1 (hpid c hmem).2 ⟨c, hmem, rfl⟩ hreported
            obtain ⟨n, t', hn, ht'⟩ := ihk u [] body (by omega) hbody
              (fun j hj => hpid j (hsub hj)) (fun j hj => absurd hj List.not_mem_nil)
            refine ⟨n + 1, t', ?_, by rw [ht', hkept]⟩
            simp only [reapAll, reapVisit, if_pos hc, hu, hbody]
            exact hn
          · have hpre' : ∀ j ∈ pre ++ [c], ¬ (j.status = .background ∧ finished j.pid = true) := by
              intro j hj
              rcases List.mem_append.1 hj with hj | hj
              · exact hpre j hj
              · rwa [List.mem_singleton.1 hj]
            obtain ⟨n, t', hn, ht'⟩ := ih (pre ++ [c]) (by simp [hjobs]) (by simpa using hpid) hpre'
            refine ⟨n + 1, t', ?_, ht'⟩
            simp only [reapAll, reapVisit, if_neg hc]
            exact hn

/-- A head that is not in the background, with a pid of its own, is kept. -/
theorem head_kept_of_unique {head : Job} {rest : List Job} (hjobs : jobs = head :: rest)
    (hhead : head.status ≠ .background) (hne : ∀ j ∈ rest, j.pid ≠ head.pid) :
    (kept finished jobs).head? = some head := by
  have hfree : reported finished jobs head.pid = false := by
    rw [← Bool.not_eq_true, reported_iff]
    rintro ⟨-, k, hk, hbg, hpid⟩
    rw [hjobs] at hk
    rcases List.mem_cons.1 hk with rfl | hk
    · exact hhead hbg
    · exact hne k hk hpid
  subst hjobs
  rw [kept, List.filter_cons_of_pos (by simp [hfree]), List.head?_cons]

end Loop

/-- **The reaping loop ends, and leaves exactly the jobs that are not reported**, in their order.
The head is one of them.  No null pointer is followed on the way. -/
theorem reapAll_kept (finished : ℤ → Bool) (t : Table) (head : Job) (rest : List Job)
    (hjobs : t.jobs = head :: rest) (hhead : head.status ≠ .background)
    (hne : ∀ j ∈ rest, j.pid ≠ head.pid) (hpos : ∀ j ∈ t.jobs, 0 < j.pid) :
    ∃ n t', (∀ m, n ≤ m → reapAll finished m ⟨t, t.jobs⟩ = some ⟨t', []⟩) ∧
      t'.jobs = kept finished t.jobs ∧ t'.jobs.head? = some head := by
  have hrest : ∀ j ∈ [] ++ rest, j.pid ≠ head.pid ∧ 0 < j.pid := by
    intro j hj
    exact ⟨hne j hj, hpos j (hjobs ▸ List.mem_cons_of_mem _ hj)⟩
  obtain ⟨n, t', hn, ht'⟩ := reapAll_from hhead _ t [] rest le_rfl
    hjobs hrest (fun j hj => absurd hj List.not_mem_nil)
  have hstart : reapAll finished (n + 1) ⟨t, t.jobs⟩ = some ⟨t', []⟩ := by
    rw [hjobs]
    simp only [reapAll, reapVisit, hhead, false_and, if_false]
    exact hn
  refine ⟨n + 1, t', fun m hm => reapAll_mono hstart hm, ht', ?_⟩
  rw [ht', head_kept_of_unique hjobs hhead hne]

/-- A table on which the pid of a finished job is there twice, once as a suspended job, and on which
`isSuspended` is set. -/
def twiceListed : Table :=
  { self := 42
    jobs := [⟨42, ['s'], .foreground⟩, ⟨7, ['a'], .suspended⟩, ⟨9, ['b'], .background⟩,
      ⟨7, ['c'], .background⟩, ⟨8, ['d'], .background⟩]
    isSuspended := true
    parentPID := 42 }

theorem reapAll_kept_twiceListed :
    ∃ n t', (∀ m, n ≤ m →
        reapAll (fun pid => pid = 7) m ⟨twiceListed, twiceListed.jobs⟩ = some ⟨t', []⟩) ∧
      t'.jobs = kept (fun pid => pid = 7) twiceListed.jobs ∧
      t'.jobs.head? = some ⟨42, ['s'], .foreground⟩ :=
  reapAll_kept (fun pid => pid = 7) twiceListed ⟨42, ['s'], .foreground⟩ _ rfl (by decide)
    (by decide) (by decide)

example : kept (fun pid => pid = 7) twiceListed.jobs =
    [⟨42, ['s'], .foreground⟩, ⟨9, ['b'], .background⟩, ⟨8, ['d'], .background⟩] := by decide

/-! ### Forks that fail -/

/-- `main` goes on with the pid `-1`. -/
def TableEvent.ForkFailed : TableEvent → Prop
  | .insertBackgroundJob pid _ => pid = -1
  | .jobWait pid _ _ => pid = -1
  | _ => False

/-- **Which operation may come next** when a fork may also fail.  The status of a foreground wait is
then that of any child, or what was in the variable before. -/
def TableEvent.Possible (s : TableState) (e : TableEvent) : Prop :=
  e.Enabled s ∨ (s.curr = [] ∧ e.ForkFailed)

/-- A fork that fails is in the foreground, and the status that `job_wait` looks at has no stop
signal. -/
def TableEvent.Harmless : TableEvent → Prop
  | .insertBackgroundJob pid _ => pid ≠ -1
  | .jobWait pid _ status => pid = -1 → wstopsig status = 0
  | _ => True

instance (e : TableEvent) : Decidable e.ForkFailed :=
  match e with
  | .insertBackgroundJob pid _ => inferInstanceAs (Decidable (pid = -1))
  | .jobWait pid _ _ => inferInstanceAs (Decidable (pid = -1))
  | .line => isFalse id
  | .visit _ => isFalse id
  | .fg _ _ => isFalse id
  | .bg _ _ _ => isFalse id

instance (s : TableState) (e : TableEvent) : Decidable (e.Possible s) :=
  inferInstanceAs (Decidable (e.Enabled s ∨ (s.curr = [] ∧ e.ForkFailed)))

/-- **A run that failed forks do not harm**: no null pointer is followed, the shell stays at the head
of the list, and a fork that fails leaves the list as it is. -/
structure Intact (shell : ℤ) (name : Word) (s : TableState) (es : List TableEvent) : Prop where
  runs : ∃ t, run tableStep s es = some t
  head : Throughout tableStep
    (fun t => t.table.jobs.head? = some ⟨shell, name, .foreground⟩) s es
  unchanged : Along tableStep
    (fun s e => e.ForkFailed → ∀ t, tableStep s e = some t → t.table.jobs = s.table.jobs) s es

section ForkFailed

variable {shell : ℤ} {name : Word} {s t : TableState} {e : TableEvent} {es : List TableEvent}

theorem TableState.Headed.head? (h : s.Headed shell name) :
    s.table.jobs.head? = some ⟨shell, name, .foreground⟩ := by
  obtain ⟨rest, hjobs, -⟩ := h.table.jobs
  rw [hjobs, List.head?_cons]

theorem Intact.cons_iff (hst : tableStep s e = some t)
    (hhead : s.table.jobs.head? = some ⟨shell, name, .foreground⟩) :
    Intact shell name s (e :: es) ↔
      (e.ForkFailed → t.table.jobs = s.table.jobs) ∧ Intact shell name t es := by
  constructor
  · rintro ⟨⟨u, hu⟩, hthrough, halong⟩
    obtain ⟨v, hv, hrun⟩ := run_cons_eq_some.1 hu
    obtain rfl := Option.some_inj.1 (hst.symm.trans hv)
    obtain ⟨hfailed, halong⟩ := (along_cons_of_step hst).1 halong
    exact ⟨fun h => hfailed h t hst, ⟨u, hrun⟩, ((throughout_cons_of_step hst).1 hthrough).2, halong⟩
  · rintro ⟨hfailed, ⟨u, hrun⟩, hthrough, halong⟩
    refine ⟨⟨u, run_cons_eq_some.2 ⟨t, hst, hrun⟩⟩,
      (throughout_cons_of_step hst).2 ⟨hhead, hthrough⟩,
      (along_cons_of_step hst).2 ⟨?_, halong⟩⟩
    intro h v hv
    obtain rfl := Option.some_inj.1 (hst.symm.trans hv)
    exact hfailed h

/-- No child on a headed list has the pid `-1`, so that a node with this pid is inserted. -/
theorem Table.Headed.insert_failed {t : Table} (h : t.Headed shell name) (hshell : 0 < shell)
    (node : Job) (hnode : node.pid = -1) : Shell.insert t.jobs node = some (t.jobs ++ [node]) := by
  obtain ⟨rest, hjobs, hrest⟩ := h.jobs
  have hall : ∀ j ∈ t.jobs, 0 < j.pid := by
    rw [hjobs]
    exact List.forall_mem_cons.2 ⟨hshell, fun j hj => (hrest j hj).pos⟩
  rw [Shell.insert]
  cases hlast : t.jobs.getLast? with
  | none => simp [List.getLast?_eq_none_iff, hjobs] at hlast
  | some last =>
      have hpos := hall last (List.mem_of_getLast? hlast)
      exact congrArg some (if_pos (by omega))

/-- **The step of a failed fork** on a headed list: the list is as it was if the fork is harmless,
and one node longer if not. -/
theorem tableStep_of_forkFailed (h : s.Headed shell name) (hshell : 0 < shell) (he : e.ForkFailed) :
    ∃ t, tableStep s e = some t ∧ (e.Harmless → t.Headed shell name) ∧
      (t.table.jobs = s.table.jobs ↔ e.Harmless) := by
  have hparent := h.table.setParent
  have hlonger : ∀ node : Job, s.table.jobs ++ [node] ≠ s.table.jobs := by
    intro node heq
    simpa using congrArg List.length heq
  cases e with
  | insertBackgroundJob pid jobName =>
      obtain rfl : pid = -1 := he
      have hins := hparent.insert_failed hshell ⟨-1, jobName, .background⟩ rfl
      refine ⟨⟨{ s.table with
          jobs := s.table.jobs ++ [⟨-1, jobName, .background⟩], parentPID := s.table.self }, []⟩,
        ?_, fun hharm => absurd rfl hharm, ?_⟩
      · simp only [tableStep, insertBackgroundJob, hins, Option.map_some]
      · exact iff_of_false (hlonger _) (fun hharm => hharm rfl)
  | jobWait pid jobName status =>
      obtain rfl : pid = -1 := he
      by_cases hstop : wstopsig status = 0
      · refine ⟨⟨{ s.table with parentPID := s.table.self }, []⟩, ?_, fun _ => hparent.outside, ?_⟩
        · simp only [tableStep, jobWait, hstop, ne_eq, not_true_eq_false, if_false, Option.map_some]
        · exact iff_of_true rfl (fun _ => hstop)
      · have hins := hparent.insert_failed hshell ⟨-1, jobName, .suspended⟩ rfl
        refine ⟨⟨{ s.table with
            jobs := s.table.jobs ++ [⟨-1, jobName, .suspended⟩], parentPID := s.table.self }, []⟩,
          ?_, fun hharm => absurd (hharm rfl) hstop, ?_⟩
        · simp only [tableStep, jobWait, ne_eq, hstop, not_false_eq_true, if_true, hins,
            Option.map_some]
        · exact iff_of_false (hlonger _) (fun hharm => hstop (hharm rfl))
  | line => exact he.elim
  | visit returned => exact he.elim
  | fg w arg => exact he.elim
  | bg beyond w arg => exact he.elim

/-- An operation that is enabled is harmless: its pid is positive. -/
theorem TableEvent.Enabled.harmless (h : e.Enabled s) : e.Harmless ∧ ¬ e.ForkFailed := by
  cases e with
  | insertBackgroundJob pid jobName =>
      have hpos : 0 < pid := h.2.1
      have hne : pid ≠ -1 := by omega
      exact ⟨hne, hne⟩
  | jobWait pid jobName status =>
      have hpos : 0 < pid := h.2.1
      have hne : pid ≠ -1 := by omega
      exact ⟨fun heq => absurd heq hne, hne⟩
  | line => exact ⟨trivial, id⟩
  | visit returned => exact ⟨trivial, id⟩
  | fg w arg => exact ⟨trivial, id⟩
  | bg beyond w arg => exact ⟨trivial, id⟩

/-- The runs from a list that is headed by the shell. -/
theorem intact_iff_of_headed (hshell : 0 < shell) (hs : s.Headed shell name)
    (hes : Along tableStep (fun s e => e.Possible s) s es) :
    Intact shell name s es ↔ Along tableStep (fun _ e => e.Harmless) s es := by
  induction es generalizing s with
  | nil =>
      refine iff_of_true ⟨⟨s, rfl⟩, throughout_nil.2 hs.head?, trivial⟩ trivial
  | cons e es ih =>
      rcases hes.1 with henabled | ⟨-, hfailed⟩
      · obtain ⟨t, ht, hheaded⟩ := headed_tableStep s e hs henabled
        obtain ⟨hharm, hnot⟩ := henabled.harmless
        rw [Intact.cons_iff ht hs.head?, along_cons_of_step ht, and_iff_right hharm,
          and_iff_right (fun h => absurd h hnot)]
        exact ih hheaded ((along_cons_of_step ht).1 hes).2
      · obtain ⟨t, ht, hheaded, hiff⟩ := tableStep_of_forkFailed hs hshell hfailed
        rw [Intact.cons_iff ht hs.head?, along_cons_of_step ht, imp_iff_right hfailed, hiff]
        refine and_congr_right ?_
        intro hharm
        exact ih (hheaded hharm) ((along_cons_of_step ht).1 hes).2

end ForkFailed

/-- **When failed forks do no harm.**  In a run of a shell whose pid is positive, the list is
unchanged by every fork that fails, the shell keeps its place and no null pointer is followed,
exactly when every fork that fails is in the foreground and finds a status without a stop signal. -/
theorem intact_iff (shell : ℤ) (name : Word) (es : List TableEvent) (hshell : 0 < shell)
    (hes : Along tableStep (fun s e => e.Possible s) (TableState.init shell name) es) :
    Intact shell name (TableState.init shell name) es ↔
      Along tableStep (fun _ e => e.Harmless) (TableState.init shell name) es :=
  intact_iff_of_headed hshell headed_init hes

/-- A job `a` in the background, a fork that fails in the foreground while `a` exits with status
`0`, and the next line. -/
def failedForeground : List TableEvent :=
  [.insertBackgroundJob 7 ['a'], .jobWait (-1) ['b'] 0, .line, .visit false, .visit true]

theorem intact_iff_failedForeground :
    Intact 42 ['s', 'h'] (TableState.init 42 ['s', 'h']) failedForeground ↔
      Along tableStep (fun _ e => e.Harmless) (TableState.init 42 ['s', 'h']) failedForeground :=
  intact_iff 42 ['s', 'h'] failedForeground (by decide) (by decide +kernel)

/-- A fork that fails in the background, and the next two lines.  The shell has no children, so that
`waitpid` answers `-1`. -/
def failedBackground : List TableEvent :=
  [.insertBackgroundJob (-1) ['a'], .line, .visit false, .visit true, .line]

/-- The failed fork puts a node on the list, the next line removes the shell from it, and the line
after that follows a null pointer. -/
theorem intact_failedBackground :
    Along tableStep (fun s e => e.Possible s) (TableState.init 42 ['s', 'h'])
        (failedBackground ++ [.visit true]) ∧
      (run tableStep (TableState.init 42 ['s', 'h']) failedBackground).map (·.table.jobs) =
        some [⟨-1, ['a'], .background⟩] ∧
      run tableStep (TableState.init 42 ['s', 'h']) (failedBackground ++ [.visit true]) = none ∧
      ¬ Intact 42 ['s', 'h'] (TableState.init 42 ['s', 'h'])
        (failedBackground ++ [.visit true]) := by
  have hnone : (run tableStep (TableState.init 42 ['s', 'h'])
      (failedBackground ++ [.visit true])).isNone = true := by decide +kernel
  refine ⟨by decide +kernel, by decide +kernel, Option.isNone_iff_eq_none.1 hnone, ?_⟩
  rintro ⟨⟨t, ht⟩, -, -⟩
  rw [ht] at hnone
  cases hnone

end Shell
