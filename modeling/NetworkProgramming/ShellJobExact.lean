/-
**MyShell: when the job list is exact.**

`Shell.Listed` relates the entries of the job list to the children of the shell at any moment of a
run: every child that runs or is stopped has one entry, a suspended entry belongs to a stopped child,
and a background entry to one that is not stopped (it may have terminated since).  Each operation on
the list and the change of state that goes with it keep this relation, and the reaping loop turns it
into `Shell.JobState.Exact`.

Main definitions:

* `Shell.KeepsTable` — the steps that leave the list right;
* `Shell.Listed`, `Shell.JobInv` — the invariant.

Main results:

* `Shell.jobInv_jobStep` — every step that meets the condition keeps the invariant;
* `Shell.exact_of_keepsTable` — **the list is exact** after the reaping loop of every line;
* `Shell.not_exact_of_exit_one` — it is not after a command that fails.
-/

import NetworkProgramming.ShellJobTable

set_option relaxedAutoImplicit false
set_option autoImplicit false

namespace Shell

open Runs

/-! ### The condition -/

/-- The report is about a child that has terminated. -/
def reportsEnd : Option WaitStatus → Bool
  | some (.exited _) => true
  | some (.signaled _ _) => true
  | _ => false

/-- The report is about a foreground child that exited with status `0`, was killed, or was
stopped. -/
def reportsClearly : Option WaitStatus → Bool
  | some (.exited code) => code = 0
  | some _ => true
  | none => false

/-- `fg` with the pid `pid` leaves the list right: the job it resumes terminates, and its first
signal stops no other background job. -/
def FgKeeps (s : JobState) (e : Env) (pid : ℤ) : Prop :=
  ((∃ j ∈ s.table.entries, j.pid = pid) → reportsEnd e.reported = true) ∧
    ∀ j ∈ s.table.entries, j.status = .background →
      (getpgid e.world s.table.self pid = -1 ∨ getpgid e.world s.table.self pid = j.pid) →
        e.stops j.pid = true → j.pid = pid

instance (s : JobState) (e : Env) (pid : ℤ) : Decidable (FgKeeps s e pid) :=
  inferInstanceAs (Decidable (_ ∧ _))

/-- **The steps that leave the list right.**  Only running children terminate of themselves, and
none is stopped or continued behind the back of the shell; a foreground child does not exit with a
status other than `0`, and no wait is interrupted; `fg` is as above. -/
def KeepsTable (s : JobState) : JobEvent → Prop
  | .exits pid => s.procs pid = some .running
  | .stops _ => False
  | .continues _ => False
  | .line (.external _ background _) e => background = true ∨ reportsClearly e.reported = true
  | .line (.fg arg) e => ∀ pid ∈ resolve s.table (fgByName arg) arg, FgKeeps s e pid
  | _ => True

instance KeepsTable.decidable (s : JobState) : ∀ e, Decidable (KeepsTable s e)
  | .exits _ => inferInstanceAs (Decidable (_ = _))
  | .stops _ => inferInstanceAs (Decidable False)
  | .continues _ => inferInstanceAs (Decidable False)
  | .reap => inferInstanceAs (Decidable True)
  | .line d e =>
      match d with
      | .external _ _ _ => inferInstanceAs (Decidable (_ ∨ _))
      | .fg arg =>
          inferInstanceAs (Decidable (∀ pid ∈ resolve s.table (fgByName arg) arg, FgKeeps s e pid))
      | .prompt | .exit | .printlist | .rejected _ | .builtin _ | .bg _ | .daemon _
      | .pipeline _ _ _ _ | .redirection _ _ _ | .msgQ _ _ | .shm _ _ | .crash =>
          inferInstanceAs (Decidable True)

/-! ### The invariant -/

theorem changeStatus_eq_map {jobs : List Job} (hnodup : (jobs.map Job.pid).Nodup) (pid : ℤ)
    (status : Status) :
    changeStatus jobs pid status =
      jobs.map fun j => if j.pid = pid then { j with status := status } else j := by
  induction jobs with
  | nil => rfl
  | cons j jobs ih =>
      rw [List.map_cons, List.nodup_cons] at hnodup
      rw [changeStatus, List.map_cons, ih hnodup.2]
      split_ifs with hj
      · -- the first node with the pid is the only one
        have hsame : jobs.map (fun k => if k.pid = pid then { k with status := status } else k) =
            jobs := by
          refine (List.map_congr_left fun k hk => if_neg fun hpid => ?_).trans (List.map_id jobs)
          exact hnodup.1 (List.mem_map.2 ⟨k, hk, hpid.trans hj.symm⟩)
        rw [hsame]
      · rfl

/-- The entries of the list against the children. -/
structure Listed (jobs : List Job) (procs : Procs) : Prop where
  nodup : (jobs.map Job.pid).Nodup
  suspended : ∀ j ∈ jobs, j.status = .suspended → procs j.pid = some .stopped
  background : ∀ j ∈ jobs, j.status = .background → procs j.pid ≠ some .stopped
  listed : ∀ p, procs p = some .running ∨ procs p = some .stopped → ∃ j ∈ jobs, j.pid = p

namespace Listed

variable {jobs : List Job} {procs : Procs}

/-- A running child terminates. -/
theorem exits (h : Listed jobs procs) {pid : ℤ} (hrun : procs pid = some .running) :
    Listed jobs (Function.update procs pid (some .zombie)) := by
  refine ⟨h.nodup, ?_, ?_, ?_⟩
  · intro j hj hs
    have hstop := h.suspended j hj hs
    have hne : j.pid ≠ pid := fun heq => by simp [heq, hrun] at hstop
    rw [Function.update_of_ne hne, hstop]
  · intro j hj hb
    by_cases hne : j.pid = pid
    · simp [hne]
    · rw [Function.update_of_ne hne]
      exact h.background j hj hb
  · intro p hp
    by_cases hne : p = pid
    · simp [hne] at hp
    · rw [Function.update_of_ne hne] at hp
      exact h.listed p hp

/-- A new job is listed as its child is. -/
theorem insert (h : Listed jobs procs) {node : Job} (hnew : ∀ j ∈ jobs, j.pid ≠ node.pid)
    {st : Option PState} (hsus : node.status = .suspended → st = some .stopped)
    (hbg : node.status = .background → st ≠ some .stopped) :
    Listed (jobs ++ [node]) (Function.update procs node.pid st) := by
  have hold : ∀ j ∈ jobs, Function.update procs node.pid st j.pid = procs j.pid := fun j hj =>
    Function.update_of_ne (hnew j hj) _ _
  refine ⟨?_, ?_, ?_, ?_⟩
  · rw [List.map_append, List.map_singleton, List.nodup_append]
    refine ⟨h.nodup, List.nodup_singleton _, ?_⟩
    intro a ha b hb
    obtain ⟨j, hj, rfl⟩ := List.mem_map.1 ha
    rw [List.mem_singleton.1 hb]
    exact hnew j hj
  · intro j hj hs
    rcases List.mem_append.1 hj with hj | hj
    · rw [hold j hj, h.suspended j hj hs]
    · obtain rfl := List.mem_singleton.1 hj
      rw [Function.update_self, hsus hs]
  · intro j hj hb
    rcases List.mem_append.1 hj with hj | hj
    · rw [hold j hj]
      exact h.background j hj hb
    · obtain rfl := List.mem_singleton.1 hj
      rw [Function.update_self]
      exact hbg hb
  · intro p hp
    by_cases hne : p = node.pid
    · exact ⟨node, by simp, hne.symm⟩
    · rw [Function.update_of_ne hne] at hp
      obtain ⟨j, hj, hpid⟩ := h.listed p hp
      exact ⟨j, List.mem_append_left _ hj, hpid⟩

/-- A job that has terminated in the foreground is not listed any more. -/
theorem remove (h : Listed jobs procs) (pid : ℤ) :
    Listed (jobs.filter fun j => j.pid ≠ pid) (Function.update procs pid none) := by
  have hmem : ∀ j, j ∈ (jobs.filter fun j => j.pid ≠ pid) ↔ j ∈ jobs ∧ j.pid ≠ pid := by simp
  have hold : ∀ j ∈ (jobs.filter fun j => j.pid ≠ pid),
      Function.update procs pid none j.pid = procs j.pid := fun j hj =>
    Function.update_of_ne ((hmem j).1 hj).2 _ _
  refine ⟨h.nodup.sublist (List.filter_sublist.map _), ?_, ?_,
    ?_⟩
  · intro j hj hs
    rw [hold j hj, h.suspended j ((hmem j).1 hj).1 hs]
  · intro j hj hb
    rw [hold j hj]
    exact h.background j ((hmem j).1 hj).1 hb
  · intro p hp
    by_cases hne : p = pid
    · simp [hne] at hp
    · rw [Function.update_of_ne hne] at hp
      obtain ⟨j, hj, hpid⟩ := h.listed p hp
      exact ⟨j, (hmem j).2 ⟨hj, hpid ▸ hne⟩, hpid⟩

/-- A suspended job runs in the background again. -/
theorem resume (h : Listed jobs procs) {pid : ℤ} (hmem : ∃ j ∈ jobs, j.pid = pid) :
    Listed (changeStatus jobs pid .background) (Function.update procs pid (some .running)) := by
  rw [changeStatus_eq_map h.nodup]
  refine ⟨?_, ?_, ?_, ?_⟩
  · rw [List.map_map]
    convert h.nodup using 2
    funext j
    simp only [Function.comp_apply]
    split_ifs <;> rfl
  · intro j hj hs
    obtain ⟨k, hk, rfl⟩ := List.mem_map.1 hj
    split_ifs at hs ⊢ with hpid
    rw [Function.update_of_ne hpid, h.suspended k hk hs]
  · intro j hj hb
    obtain ⟨k, hk, rfl⟩ := List.mem_map.1 hj
    split_ifs at hb ⊢ with hpid
    · simp [hpid]
    · rw [Function.update_of_ne hpid]
      exact h.background k hk hb
  · intro p hp
    have hsome : ∃ j ∈ jobs, j.pid = p := by
      by_cases hpid : p = pid
      · exact hpid ▸ hmem
      · rw [Function.update_of_ne hpid] at hp
        exact h.listed p hp
    obtain ⟨j, hj, hpid⟩ := hsome
    refine ⟨_, List.mem_map.2 ⟨j, hj, rfl⟩, ?_⟩
    split_ifs <;> exact hpid

/-- The jobs that the reaping loop keeps are those of children that it does not touch. -/
theorem reapedProcs_of_kept (h : Listed jobs procs) {j : Job} (hj : j ∈ jobs)
    (hstatus : j.status ≠ .foreground) (hkept : gone procs j = false) :
    reapedProcs jobs procs j.pid = procs j.pid ∧
      ((j.status = .suspended ∧ procs j.pid = some .stopped) ∨
        (j.status = .background ∧ procs j.pid = some .running)) := by
  have hcase : (j.status = .suspended ∧ procs j.pid = some .stopped) ∨
      (j.status = .background ∧ procs j.pid = some .running) := by
    cases hs : j.status with
    | suspended => exact Or.inl ⟨rfl, h.suspended j hj hs⟩
    | foreground => exact absurd hs hstatus
    | background =>
        have hwait : ¬ (waitpidNohang procs j.pid).1 = true := fun hw => by
          simp [gone_iff.2 ⟨hs, hw⟩] at hkept
        rw [waitpidNohang_fst] at hwait
        have hstop := h.background j hj hs
        refine Or.inr ⟨rfl, ?_⟩
        rcases hp : procs j.pid with _ | (_ | _ | _)
        · exact absurd (Or.inl hp) hwait
        · rfl
        · exact absurd hp hstop
        · exact absurd (Or.inr hp) hwait
  refine ⟨if_neg ?_, hcase⟩
  intro hz
  rcases hcase with ⟨-, hp⟩ | ⟨-, hp⟩ <;> simp [hp] at hz

/-- **What the reaping loop leaves is exact.** -/
theorem reap (h : Listed jobs procs) (hstatus : ∀ j ∈ jobs, j.status ≠ .foreground) :
    Listed (jobs.filter fun j => !gone procs j) (reapedProcs jobs procs) ∧
      ∀ j ∈ jobs.filter (fun j => !gone procs j),
        (j.status = .suspended ∧ reapedProcs jobs procs j.pid = some .stopped) ∨
          (j.status = .background ∧ reapedProcs jobs procs j.pid = some .running) := by
  have hkept : ∀ j ∈ jobs.filter (fun j => !gone procs j),
      (j.status = .suspended ∧ reapedProcs jobs procs j.pid = some .stopped) ∨
        (j.status = .background ∧ reapedProcs jobs procs j.pid = some .running) := by
    intro j hj
    rw [List.mem_filter] at hj
    obtain ⟨heq, hcase⟩ := h.reapedProcs_of_kept hj.1 (hstatus j hj.1) (by simpa using hj.2)
    rwa [heq]
  refine ⟨⟨h.nodup.sublist (List.filter_sublist.map _), ?_, ?_,
    ?_⟩, hkept⟩
  · intro j hj hs
    rcases hkept j hj with hc | hc
    · exact hc.2
    · simp [hs] at hc
  · intro j hj hb
    rcases hkept j hj with hc | hc
    · simp [hb] at hc
    · simp [hc.2]
  · intro p hp
    -- a child that runs or is stopped was not reaped, so its entry is kept
    have hold : procs p = some .running ∨ procs p = some .stopped := by
      unfold reapedProcs at hp
      split_ifs at hp
      · simp at hp
      · exact hp
    obtain ⟨j, hj, rfl⟩ := h.listed p hold
    refine ⟨j, List.mem_filter.2 ⟨hj, ?_⟩, rfl⟩
    rw [Bool.not_eq_true', ← Bool.not_eq_true, gone_iff, waitpidNohang_fst]
    rintro ⟨-, hnone | hz⟩
    · simp [hnone] at hold
    · simp [hz] at hold

end Listed

/-! ### The signals and waits of the commands -/

theorem suspend_ne_none {procs : Procs} {target p : ℤ} {stops : ℤ → Bool}
    (h : procs p ≠ none) : suspend procs target stops p ≠ none := by
  unfold suspend
  split_ifs
  · simp
  · exact h

/-- A job that terminates in the foreground is waited for. -/
theorem await_of_reportsEnd {procs procs' : Procs} {pid : ℤ} {reported : Option WaitStatus}
    (hend : reportsEnd reported = true) (hchild : procs pid ≠ none)
    (h : await procs (some pid) reported = some procs') :
    procs' = Function.update procs pid none := by
  cases hp : procs pid with
  | none => exact absurd hp hchild
  | some ps =>
      match reported, hend with
      | some (.exited code), _ =>
          cases ps <;> simp only [await, hp, Option.some_inj] at h <;> exact h.symm
      | some (.signaled sig core), _ =>
          cases ps <;> simp only [await, hp, Option.some_inj] at h <;> exact h.symm

/-! ### Steps -/

/-- **The invariant**: the table is in order and lists the children, and behind the reaping loop
every entry is one of a child. -/
structure JobInv (s : JobState) : Prop where
  rooted : s.table.Rooted
  listed : Listed s.table.entries s.procs
  child : s.phase = .reaped → ∀ j ∈ s.table.entries, s.procs j.pid ≠ none

theorem jobInv_init (self : ℤ) (name : Word) : JobInv (JobState.init self name) := by
  refine ⟨Table.rooted_init self name, ⟨List.nodup_nil, ?_, ?_, ?_⟩, fun h => by cases h⟩
  · intro j hj
    cases hj
  · intro j hj
    cases hj
  · intro p hp
    rcases hp with hp | hp <;> cases hp

namespace JobInv

variable {s s' : JobState} {e : Env}

theorem exits (h : JobInv s) {pid : ℤ} (hrun : s.procs pid = some .running) :
    JobInv { s with procs := Function.update s.procs pid (some .zombie) } := by
  refine ⟨h.rooted, h.listed.exits hrun, ?_⟩
  intro hp j hj
  by_cases hpid : j.pid = pid
  · simp [hpid]
  · exact (Function.update_of_ne hpid _ _).trans_ne (h.child hp j hj)

/-- The reaping loop returns, and what it leaves is exact. -/
theorem reap (h : JobInv s) (hp : s.phase = .prompt) :
    ∃ s', jobStep s .reap = some s' ∧ JobInv s' ∧ s'.Exact := by
  obtain ⟨hlisted, hkept⟩ := h.listed.reap fun j hj => (h.rooted.entry j hj).status
  have hentries : (s.table.setEntries (s.table.entries.filter fun j => !gone s.procs j)).entries =
      s.table.entries.filter fun j => !gone s.procs j := h.rooted.entries_setEntries _
  refine ⟨⟨s.table.setEntries (s.table.entries.filter fun j => !gone s.procs j),
    reapedProcs s.table.entries s.procs, .reaped⟩, ?_, ⟨?_, ?_, ?_⟩, ⟨?_, ?_⟩⟩
  · simp only [jobStep, if_pos hp, reap_eq h.rooted h.listed.nodup, Option.map_some]
  · exact h.rooted.setEntries fun j hj => h.rooted.entry j (List.mem_of_mem_filter hj)
  · rw [hentries]
    exact hlisted
  · intro _ j hj
    rw [hentries] at hj
    rcases hkept j hj with hc | hc <;> simp [hc.2]
  · rw [hentries]
    exact hlisted.nodup
  · intro pid status
    dsimp only
    rw [hentries]
    constructor
    · rintro ⟨j, hj, rfl, rfl⟩
      exact hkept j hj
    · intro hcase
      obtain ⟨j, hj, rfl⟩ := hlisted.listed pid (by
        rcases hcase with hc | hc
        · exact Or.inr hc.2
        · exact Or.inl hc.2)
      refine ⟨j, hj, rfl, ?_⟩
      rcases hkept j hj with hk | hk <;> rcases hcase with hc | hc <;> simp_all

/-- A new job is listed as its child is. -/
theorem insert (h : JobInv s) (hp : s.phase = .reaped) (node : Job) (st : Option PState)
    (hone : 1 < node.pid) (hself : node.pid ≠ s.table.self) (hfresh : s.procs node.pid = none)
    (hstatus : node.status ≠ .foreground)
    (hsus : node.status = .suspended → st = some .stopped)
    (hbg : node.status = .background → st ≠ some .stopped) :
    ∃ jobs, Shell.insert s.table.jobs node = some jobs ∧
      JobInv ⟨{ s.table with jobs := jobs, parentPID := s.table.self },
        Function.update s.procs node.pid st, .prompt⟩ := by
  have hnew : ∀ j ∈ s.table.entries, j.pid ≠ node.pid := fun j hj heq =>
    h.child hp j hj (heq ▸ hfresh)
  have hins := h.rooted.insert_of_new hself hnew
  have hroot := (h.rooted.insert ⟨hone, hself, hstatus⟩ hins).setParent
  refine ⟨_, hins, hroot, ?_, fun hp => by cases hp⟩
  have hentries : { s.table with
      jobs := s.table.jobs ++ [node]
      parentPID := s.table.self : Table }.entries = s.table.entries ++ [node] := by
    rw [← h.rooted.entries_setEntries (s.table.entries ++ [node]), h.rooted.setEntries_concat]
    rfl
  rw [hentries]
  exact h.listed.insert hnew hsus hbg

/-- A foreground child that has terminated is not listed, if `WSTOPSIG` is zero. -/
theorem ends (h : JobInv s) {pid : ℤ} (hfresh : s.procs pid = none) :
    JobInv ⟨{ s.table with parentPID := s.table.self }, Function.update s.procs pid none,
      .prompt⟩ := by
  rw [← hfresh, Function.update_eq_self]
  exact ⟨h.rooted.setParent, h.listed, fun hp => by cases hp⟩

theorem foreground (h : JobInv s) (hp : s.phase = .reaped) {name : Word} (hone : 1 < e.pid)
    (hself : e.pid ≠ s.table.self) (hfresh : s.procs e.pid = none)
    (hclear : reportsClearly e.reported = true) (hstep : s.foreground name e = some s') :
    JobInv s' := by
  unfold JobState.foreground at hstep
  cases hr : e.reported with
  | none => simp [hr, reportsClearly] at hclear
  | some st =>
      simp only [hr, jobWait, wstopsig_word] at hstep
      cases st with
      | exited code =>
          have hcode : code = 0 := by simpa [hr, reportsClearly] using hclear
          simp only [hcode, Fin.val_zero, ne_eq, not_true_eq_false, if_false, Option.map_some,
            Option.some_inj] at hstep
          exact hstep ▸ h.ends hfresh
      | signaled sig core =>
          simp only [ne_eq, not_true_eq_false, if_false, Option.map_some,
            Option.some_inj] at hstep
          exact hstep ▸ h.ends hfresh
      | stopped sig =>
          have hsig : sig.val ≠ 0 := by
            have := sig.2
            omega
          obtain ⟨jobs, hins, hinv⟩ := h.insert hp ⟨e.pid, name, .suspended⟩
            (WaitStatus.after (.stopped sig)) hone hself hfresh (by simp) (fun _ => rfl)
            (fun hb => by cases hb)
          simp only [if_pos hsig, hins, Option.map_some, Option.some_inj] at hstep
          exact hstep ▸ hinv

theorem background (h : JobInv s) (hp : s.phase = .reaped) {name : Word} (hone : 1 < e.pid)
    (hself : e.pid ≠ s.table.self) (hfresh : s.procs e.pid = none)
    (hstep : s.background name e = some s') : JobInv s' := by
  have hins := fun st (hst : st ≠ some PState.stopped) =>
    h.insert hp ⟨e.pid, name, .background⟩ st hone hself hfresh (by simp)
      (fun hs => by cases hs) (fun _ => hst)
  unfold JobState.background insertBackgroundJob at hstep
  dsimp only at hstep
  split at hstep
  · cases hstep
  · obtain ⟨jobs, heq, hinv⟩ := hins none (by simp)
    rw [heq] at hstep
    simp only [Option.map_some, Option.some_inj] at hstep
    exact hstep ▸ hinv
  · obtain ⟨jobs, heq, hinv⟩ := hins (some .running) (by simp)
    rw [heq] at hstep
    simp only [Option.map_some, Option.some_inj] at hstep
    exact hstep ▸ hinv

/-- A running child is listed as a background job. -/
theorem background_of_running (h : JobInv s) {p : ℤ} (hp : s.procs p = some .running) :
    ∃ j ∈ s.table.entries, j.pid = p ∧ j.status = .background := by
  obtain ⟨j, hj, rfl⟩ := h.listed.listed p (Or.inl hp)
  refine ⟨j, hj, rfl, ?_⟩
  cases hs : j.status with
  | suspended => simp [h.listed.suspended j hj hs] at hp
  | background => rfl
  | foreground => exact absurd hs (h.rooted.entry j hj).status

/-- The first signal of `fg` changes at most the job that is resumed. -/
theorem suspend_of_ne (h : JobInv s) {pid p : ℤ} (hkeeps : FgKeeps s e pid) (hp : p ≠ pid) :
    suspend s.procs (getpgid e.world s.table.self pid) e.stops p = s.procs p := by
  refine if_neg fun hc => hp ?_
  obtain ⟨j, hj, rfl, hb⟩ := h.background_of_running hc.1
  exact hkeeps.2 j hj hb hc.2.1 hc.2.2

theorem fg (h : JobInv s) (hp : s.phase = .reaped) {arg : Word}
    (hkill : ∀ j ∈ s.table.jobs, s.procs j.pid ≠ none → e.world.kill j.pid = true)
    (hkeeps : ∀ pid ∈ resolve s.table (fgByName arg) arg, FgKeeps s e pid)
    (hstep : s.fg arg e = some s') : JobInv s' := by
  obtain ⟨f, hf, hstep⟩ := Option.bind_eq_some_iff.1 hstep
  obtain ⟨procs, hawait, rfl⟩ := Option.map_eq_some_iff.1 hstep
  rw [execFg_eq h.rooted] at hf
  cases hpid : resolve s.table (fgByName arg) arg with
  | none =>
      simp only [hpid, Option.some_inj] at hf
      subst hf
      obtain rfl : s.procs = procs := Option.some_inj.1 hawait
      exact ⟨h.rooted, h.listed, fun hp => by cases hp⟩
  | some pid =>
      have hk : FgKeeps s e pid := hkeeps pid hpid
      simp only [hpid] at hf
      cases hfind : findPID s.table.entries pid with
      | none =>
          rw [shellfgCommand_of_none h.rooted hfind, Option.some_inj] at hf
          subst hf
          -- no job is resumed, and the signal stops none either
          have hsame : suspend s.procs (getpgid e.world s.table.self pid) e.stops = s.procs := by
            funext p
            by_cases hne : p = pid
            · refine if_neg ?_
              intro hc
              obtain ⟨j, hj, hjp, -⟩ := h.background_of_running hc.1
              exact findPID_eq_none hfind j hj (hjp.trans hne)
            · exact h.suspend_of_ne hk hne
          obtain rfl : suspend s.procs (getpgid e.world s.table.self pid) e.stops = procs :=
            Option.some_inj.1 hawait
          rw [hsame]
          exact ⟨h.rooted, h.listed, fun hp => by cases hp⟩
      | some j =>
          obtain ⟨hj, rfl⟩ := findPID_eq_some hfind
          have hchild := h.child hp j hj
          have hsent : e.world.kill j.pid = true := hkill j (List.mem_of_mem_tail hj) hchild
          obtain ⟨rest, hrest⟩ : ∃ rest, f = ⟨(getpgid e.world s.table.self j.pid, .tstp) :: rest,
              s.table.setEntries (s.table.entries.filter fun k => k.pid ≠ j.pid),
              some j.pid⟩ := by
            rw [shellfgCommand_of_some h.rooted hfind, if_pos hsent] at hf
            split_ifs at hf
            · exact ⟨_, (Option.some_inj.1 hf).symm⟩
            · exact ⟨_, (Option.some_inj.1 hf).symm⟩
          subst hrest
          have hprocs : procs = Function.update s.procs j.pid none := by
            rw [await_of_reportsEnd (hk.1 ⟨j, hj, rfl⟩) (suspend_ne_none hchild) hawait]
            refine Function.update_eq_iff.2 ⟨by simp, ?_⟩
            intro p hne
            rw [Function.update_of_ne hne]
            exact h.suspend_of_ne hk hne
          rw [hprocs]
          refine ⟨h.rooted.setEntries fun k hk => h.rooted.entry k (List.mem_of_mem_filter hk), ?_,
            fun hp => by cases hp⟩
          dsimp only
          rw [h.rooted.entries_setEntries]
          exact h.listed.remove j.pid

theorem bg (h : JobInv s) {arg : Word}
    (hkill : ∀ j ∈ s.table.jobs, s.procs j.pid ≠ none → e.world.kill j.pid = true) :
    JobInv (s.bg arg e) := by
  have hidle : JobInv ⟨s.table, s.procs, .prompt⟩ := ⟨h.rooted, h.listed, fun hp => by cases hp⟩
  rw [JobState.bg, execBg_eq h.rooted]
  cases hpid : resolve s.table (bgByName e.beyond arg) arg with
  | none => exact hidle
  | some pid =>
      dsimp only
      cases hfind : findPID s.table.entries pid with
      | none =>
          rw [shellbgCommand_of_none h.rooted hfind]
          exact hidle
      | some j =>
          obtain ⟨hj, rfl⟩ := findPID_eq_some hfind
          rw [shellbgCommand_of_some h.rooted hfind]
          by_cases hs : j.status = .suspended
          · have hstop := h.listed.suspended j hj hs
            have hsent : e.world.kill j.pid = true :=
              hkill j (List.mem_of_mem_tail hj) (by simp [hstop])
            have hresumed : JobInv
                ⟨s.table.setEntries (changeStatus s.table.entries j.pid .background),
                  Shell.resume s.procs (some j.pid), .prompt⟩ := by
              refine ⟨h.rooted.setEntries ?_, ?_, fun hp => by cases hp⟩
              · intro k hk
                rcases mem_changeStatus hk with hk | ⟨k', hk', -, rfl⟩
                · exact h.rooted.entry k hk
                · exact ⟨(h.rooted.entry k' hk').one_lt, (h.rooted.entry k' hk').ne_self, by simp⟩
              · dsimp only
                rw [h.rooted.entries_setEntries, Shell.resume, if_pos hstop]
                exact h.listed.resume ⟨j, hj, rfl⟩
            rw [if_neg (by simp [hs]), if_pos hsent]
            split_ifs
            · exact hresumed
            · exact hresumed
          · rw [if_pos hs]
            exact hidle

end JobInv

/-- **Every step that meets the condition keeps the invariant.** -/
theorem jobInv_jobStep (s : JobState) (e : JobEvent) (s' : JobState) (h : JobInv s)
    (hkeeps : KeepsTable s e) (hstep : jobStep s e = some s') : JobInv s' := by
  cases e with
  | exits pid =>
      simp only [jobStep] at hstep
      split_ifs at hstep
      exact Option.some_inj.1 hstep ▸ h.exits hkeeps
  | stops pid => exact hkeeps.elim
  | continues pid => exact hkeeps.elim
  | reap =>
      by_cases hp : s.phase = .prompt
      · obtain ⟨t, ht, hinv, -⟩ := h.reap hp
        exact Option.some_inj.1 (ht.symm.trans hstep) ▸ hinv
      · simp [jobStep, hp] at hstep
  | line d e =>
      simp only [jobStep] at hstep
      split_ifs at hstep with hp
      have hidle : JobInv { s with phase := .prompt } :=
        ⟨h.rooted, h.listed, fun hp => by cases hp⟩
      cases d with
      | external argv background ignore =>
          cases argv with
          | nil => cases hstep
          | cons name argv =>
              simp only [JobState.line] at hstep
              split_ifs at hstep with hfork hbg
              · exact h.background hp hfork.1 hfork.2.1 hfork.2.2 hstep
              · exact h.foreground hp hfork.1 hfork.2.1 hfork.2.2 (hkeeps.resolve_left hbg) hstep
      | fg arg =>
          simp only [JobState.line] at hstep
          split_ifs at hstep with hkill
          exact h.fg hp hkill hkeeps hstep
      | bg arg =>
          simp only [JobState.line] at hstep
          split_ifs at hstep with hkill
          exact Option.some_inj.1 hstep ▸ h.bg hkill
      | printlist | rejected | builtin => exact Option.some_inj.1 hstep ▸ hidle
      | _ => cases hstep

/-- **The job list is exact**: in every run whose steps meet the condition, the reaping loop of the
next line returns and leaves one entry for each child that is stopped or runs. -/
theorem exact_of_keepsTable {self : ℤ} {name : Word} {es : List JobEvent} {s : JobState}
    (hrun : run jobStep (JobState.init self name) es = some s)
    (hkeeps : Along jobStep KeepsTable (JobState.init self name) es) (hp : s.phase = .prompt) :
    ∃ s', jobStep s .reap = some s' ∧ s'.Exact := by
  have hinv : JobInv s := run_invariant_along jobInv_jobStep (jobInv_init self name) hkeeps hrun
  obtain ⟨s', hs', -, hexact⟩ := hinv.reap hp
  exact ⟨s', hs', hexact⟩

/-- A shell with pid `100`, a job `101` in its process group and a job `102` in its own. -/
def sampleWorld : World where
  group p := if p = 100 ∨ p = 101 then some 100 else if p = 102 then some 102 else none
  group_pos p g hg := by
    split_ifs at hg <;> simp only [Option.some_inj] at hg <;> omega
  kill t := t = 101 ∨ t = 102 ∨ t = -102

/-- What the kernel contributes to the sample run. -/
def sampleEnv (pid : ℤ) (reported : Option WaitStatus) : Env :=
  ⟨pid, reported, 0, sampleWorld, fun _ => true, false⟩

/-- An editor is suspended, a compilation is put into the background, the editor is resumed with
`bg`, the compilation ends, and the editor is brought back and left. -/
def sampleRun : List JobEvent :=
  [.reap, .line (.external ["vi".toList] false false) (sampleEnv 101 (some (.stopped sigtstp))),
    .reap, .line (.external ["make".toList] true false) (sampleEnv 102 none),
    .reap, .line (.bg "%vi".toList) (sampleEnv 0 none), .exits 102,
    .reap, .line (.fg "101".toList) (sampleEnv 0 (some (.exited 3)))]

/-- The state at the end of the sample run. -/
def sampleEnd : JobState :=
  (run jobStep (JobState.init 100 "shell".toList) sampleRun).get (by decide)

theorem exact_sampleRun : ∃ s', jobStep sampleEnd .reap = some s' ∧ s'.Exact :=
  exact_of_keepsTable
    (show run jobStep (JobState.init 100 "shell".toList) sampleRun = some sampleEnd from
      (Option.some_get _).symm) (by decide) rfl

/-- A command that exits with status `1`. -/
def failingRun : List JobEvent :=
  [.reap, .line (.external ["false".toList] false false) (sampleEnv 101 (some (.exited 1)))]

/-- The state after the command. -/
def failingEnd : JobState :=
  (run jobStep (JobState.init 100 "shell".toList) failingRun).get (by decide)

/-- **After a command that fails the list is wrong**: the command stands in it as a suspended job. -/
theorem not_exact_of_exit_one :
    ¬ ∀ (self : ℤ) (name : Word) (es : List JobEvent) (s : JobState),
      run jobStep (JobState.init self name) es = some s → s.phase = .prompt →
        ∃ s', jobStep s .reap = some s' ∧ s'.Exact := by
  intro hall
  obtain ⟨s', hs', hexact⟩ :=
    hall 100 "shell".toList failingRun failingEnd (Option.some_get _).symm rfl
  have hreap : jobStep failingEnd .reap =
      some ((jobStep failingEnd .reap).get (by decide)) := (Option.some_get _).symm
  obtain rfl := Option.some_inj.1 (hreap.symm.trans hs')
  have hlisted := (hexact.entry 101 .suspended).1
    ⟨⟨101, "false".toList, .suspended⟩, by decide, rfl, rfl⟩
  revert hlisted
  decide

end Shell
