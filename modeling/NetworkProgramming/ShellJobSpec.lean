/-
**MyShell: the job that an argument of `fg` or `bg` means.**

`exec_fg` and `exec_bg` search a job by name when their argument begins with `%`.  `exec_fg` then looks
at the second byte of the argument, and `exec_bg` at the third one.  In this module a byte behind the
terminator of the argument has no value, so that a test that looks at it has no result.

Main definitions:

* `Shell.charIn` — a byte of a string, up to its terminator;
* `Shell.nameTest` — the test of the two functions, with the index of the byte they look at;
* `Shell.Outcome`, `Shell.fgOutcome`, `Shell.bgOutcome` — what the functions do with an argument;
* `Shell.SameOutcome` — both have a result, and it is the same.

Main results:

* `Shell.execFg_eq_of_outcome`, `Shell.execBg_eq_of_outcome` — the commands do what the outcome says;
* `Shell.sameOutcome_iff` — **the two resolve an argument in the same way exactly if** it is neither `%`
  alone nor `%` and one more byte, the jobs with pid `-1` apart.
-/

import NetworkProgramming.ShellJobs
import Mathlib.Tactic.Common

set_option relaxedAutoImplicit false
set_option autoImplicit false

namespace Shell

/-! ### The two functions -/

/-- The byte `arg[i]`, if it is not behind the terminator. -/
def charIn (arg : Word) (i : ℕ) : Option Char :=
  if i ≤ arg.length then some (arg.getD i '\x00') else none

/-- The test for a name: `arg[0] == '%' && arg[i] != '\0'`. -/
def nameTest (i : ℕ) (arg : Word) : Option Bool :=
  (charIn arg 0).bind fun c =>
    if c = '%' then (charIn arg i).map fun d => d ≠ '\x00' else some false

/-- What becomes of an argument: there are no jobs, no job has that name, or the command is called. -/
inductive Outcome
  | noJobs
  | noSuchJob (name : Word)
  | command (pid : ℤ)
  deriving DecidableEq

/-- The body of the two functions, with the index of the byte they look at. -/
def jobOutcome (i : ℕ) (jobs : List Job) (arg : Word) : Option Outcome :=
  if jobs = [] then some .noJobs
  else
    (nameTest i arg).map fun byName =>
      if byName then
        let pid := getPIDfromname jobs (arg.drop 1)
        if pid = 0 then .noSuchJob (arg.drop 1)
        else .command (if pid = -1 then atoi arg else pid)
      else .command (atoi arg)

/-- `exec_fg`, up to the call of `shellfgCommand`. -/
def fgOutcome (jobs : List Job) (arg : Word) : Option Outcome := jobOutcome 1 jobs arg

/-- `exec_bg`, up to the call of `shellbgCommand`. -/
def bgOutcome (jobs : List Job) (arg : Word) : Option Outcome := jobOutcome 2 jobs arg

/-- **Both functions read inside the argument, and come to the same result.** -/
def SameOutcome (jobs : List Job) (arg : Word) : Prop :=
  ∃ o, fgOutcome jobs arg = some o ∧ bgOutcome jobs arg = some o

section Tests

variable {arg : Word}

/-! ### The tests -/

theorem nameTest_of_ne {c : Char} (hc : c ≠ '%') (rest : Word) (i : ℕ) :
    nameTest i (c :: rest) = some false := by
  rw [nameTest, charIn, if_pos (Nat.zero_le _), Option.bind_some]
  exact if_neg hc

theorem nameTest_percent (rest : Word) (i : ℕ) :
    nameTest i ('%' :: rest) = (charIn ('%' :: rest) i).map fun d => decide (d ≠ '\x00') := by
  rw [nameTest, charIn, if_pos (Nat.zero_le _), Option.bind_some]
  exact if_pos rfl

/-- The test of `exec_fg` always has a result. -/
theorem nameTest_one (hnul : '\x00' ∉ arg) : nameTest 1 arg = some (fgByName arg) := by
  cases arg with
  | nil => rfl
  | cons c rest =>
      by_cases hc : c = '%'
      · subst hc
        rw [nameTest_percent]
        cases rest with
        | nil => rfl
        | cons d rest =>
            have hd : d ≠ '\x00' := by
              rintro rfl
              exact hnul (List.mem_cons_of_mem _ List.mem_cons_self)
            simp [charIn, fgByName, hd]
      · rw [nameTest_of_ne hc]
        simp [fgByName, hc]

/-- The test of `exec_bg` has a result but for `%` alone. -/
theorem nameTest_two (hnul : '\x00' ∉ arg) (beyond : Bool) :
    nameTest 2 arg = if arg = ['%'] then none else some (bgByName beyond arg) := by
  cases arg with
  | nil => rfl
  | cons c rest =>
      by_cases hc : c = '%'
      · subst hc
        rw [nameTest_percent]
        match rest with
        | [] => rfl
        | [d] => simp [charIn, bgByName]
        | d :: e :: rest =>
            have he : e ≠ '\x00' := by
              rintro rfl
              exact hnul (by simp)
            simp [charIn, bgByName, he]
      · rw [nameTest_of_ne hc]
        simp [bgByName, hc]

/-- Behind the test both functions do the same. -/
theorem jobOutcome_of_test {t : Table} {i : ℕ} {byName : Bool} (hjobs : t.jobs ≠ [])
    (htest : nameTest i arg = some byName) :
    jobOutcome i t.jobs arg =
      some (match resolve t byName arg with
        | none => .noSuchJob (arg.drop 1)
        | some pid => .command pid) := by
  rw [jobOutcome, if_neg hjobs, htest, Option.map_some, resolve]
  cases byName with
  | false => rfl
  | true =>
      simp only [if_true]
      by_cases hpid : getPIDfromname t.jobs (arg.drop 1) = 0
      · rw [if_pos hpid, if_pos hpid]
      · rw [if_neg hpid, if_neg hpid]

/-- **`exec_fg` does what its outcome says.** -/
theorem execFg_eq_of_outcome (hnul : '\x00' ∉ arg) (w : World) (t : Table) :
    execFg w t arg =
      match fgOutcome t.jobs arg with
      | some (.command pid) => shellfgCommand w t pid
      | _ => some ⟨[], t, none⟩ := by
  rw [execFg, fgOutcome]
  by_cases hjobs : t.jobs = []
  · rw [if_pos hjobs, jobOutcome, if_pos hjobs]
  · rw [if_neg hjobs, jobOutcome_of_test hjobs (nameTest_one hnul)]
    cases resolve t (fgByName arg) arg <;> rfl

/-- **`exec_bg` does what its outcome says**, where it has one. -/
theorem execBg_eq_of_outcome (hnul : '\x00' ∉ arg) (beyond : Bool) (w : World) (t : Table)
    (hout : (bgOutcome t.jobs arg).isSome) :
    execBg beyond w t arg =
      match bgOutcome t.jobs arg with
      | some (.command pid) => shellbgCommand w t pid
      | _ => ⟨[], t, none⟩ := by
  rw [bgOutcome] at hout ⊢
  rw [execBg]
  by_cases hjobs : t.jobs = []
  · rw [if_pos hjobs, jobOutcome, if_pos hjobs]
  · have htest := nameTest_two hnul beyond
    by_cases harg : arg = ['%']
    · rw [if_pos harg] at htest
      rw [jobOutcome, if_neg hjobs, htest] at hout
      cases hout
    · rw [if_neg harg] at htest
      rw [if_neg hjobs, jobOutcome_of_test hjobs htest]
      cases resolve t (bgByName beyond arg) arg <;> rfl

/-- A number that begins with `%` is zero. -/
theorem atoi_percent (rest : Word) : atoi ('%' :: rest) = 0 := by
  have hspace : isSpace '%' = false := by decide
  have hdigit : Char.isDigit '%' = false := by decide
  have hdrop : ('%' :: rest).dropWhile isSpace = '%' :: rest := by
    rw [List.dropWhile_cons_of_neg (by simp [hspace])]
  rw [atoi, strtol, hdrop]
  simp [digitsValue, hdigit]

end Tests

/-! ### The same argument in both commands -/

section Same

variable {jobs : List Job}

/-- The two look the same job up unless the argument is `%` alone or `%` with one more byte. -/
theorem bgByName_eq_fgByName {arg : Word} (hone : arg ≠ ['%']) (htwo : ∀ c, arg ≠ ['%', c])
    (beyond : Bool) : bgByName beyond arg = fgByName arg := by
  match arg with
  | [] => rfl
  | c :: rest =>
      by_cases hc : c = '%'
      · subst hc
        match rest with
        | [] => exact absurd rfl hone
        | [d] => exact absurd rfl (htwo d)
        | _ :: _ :: _ => rfl
      · simp [bgByName, fgByName, hc]

theorem fgOutcome_of_jobs (hjobs : jobs ≠ []) {arg : Word} (hnul : '\x00' ∉ arg) :
    fgOutcome jobs arg =
      some (if fgByName arg then
        let pid := getPIDfromname jobs (arg.drop 1)
        if pid = 0 then .noSuchJob (arg.drop 1)
        else .command (if pid = -1 then atoi arg else pid)
      else .command (atoi arg)) := by
  rw [fgOutcome, jobOutcome, if_neg hjobs, nameTest_one hnul]
  rfl

/-- `%` and one more byte: `fg` looks the name up, and `bg` takes the argument as a number. -/
theorem sameOutcome_percent_iff (hjobs : jobs ≠ []) {c : Char} (hnul : '\x00' ∉ ['%', c]) :
    SameOutcome jobs ['%', c] ↔ getPIDfromname jobs [c] = -1 := by
  have hbg : bgOutcome jobs ['%', c] = some (.command 0) := by
    rw [bgOutcome, jobOutcome, if_neg hjobs, nameTest_two hnul false, ← atoi_percent [c]]
    rfl
  have hfg := fgOutcome_of_jobs hjobs hnul
  rw [fgByName, if_pos rfl] at hfg
  rw [SameOutcome, hbg, hfg]
  simp only [Option.some_inj, List.drop_succ_cons, List.drop_zero, atoi_percent]
  constructor
  · rintro ⟨o, ho, rfl⟩
    by_cases hpid : getPIDfromname jobs [c] = 0
    · rw [if_pos hpid] at ho
      cases ho
    · rw [if_neg hpid, Outcome.command.injEq] at ho
      by_contra hne
      rw [if_neg hne] at ho
      exact hpid ho
  · intro hpid
    refine ⟨.command 0, ?_, rfl⟩
    rw [hpid, if_neg (by omega), if_pos rfl]

/-- **When `fg` and `bg` resolve an argument in the same way.**  Both read only bytes of the argument,
pass the same pid to their command or report the same job as missing, exactly if there are no jobs, or
the argument is not `%` alone and, where it is `%` with one more byte, the first job with this name has
the pid `-1`. -/
theorem sameOutcome_iff (jobs : List Job) (arg : Word) (hnul : '\x00' ∉ arg) :
    SameOutcome jobs arg ↔
      jobs = [] ∨ (arg ≠ ['%'] ∧ ∀ c, arg = ['%', c] → getPIDfromname jobs [c] = -1) := by
  by_cases hjobs : jobs = []
  · refine iff_of_true ⟨.noJobs, ?_, ?_⟩ (Or.inl hjobs)
    · exact if_pos hjobs
    · exact if_pos hjobs
  rw [or_iff_right hjobs]
  by_cases hone : arg = ['%']
  · -- the third byte of the argument is behind its terminator
    refine iff_of_false ?_ fun h => h.1 hone
    rintro ⟨o, -, hbg⟩
    rw [bgOutcome, jobOutcome, if_neg hjobs, nameTest_two hnul false, if_pos hone] at hbg
    cases hbg
  by_cases htwo : ∃ c, arg = ['%', c]
  · obtain ⟨c, rfl⟩ := htwo
    rw [sameOutcome_percent_iff hjobs hnul]
    refine ⟨fun h => ⟨hone, ?_⟩, fun h => h.2 c rfl⟩
    intro d hd
    rw [← (List.cons.inj (List.cons.inj hd).2).1]
    exact h
  · have hne : ∀ c, arg ≠ ['%', c] := fun c hc => htwo ⟨c, hc⟩
    refine iff_of_true ⟨_, fgOutcome_of_jobs hjobs hnul, ?_⟩ ⟨hone, fun c hc => absurd hc (hne c)⟩
    rw [bgOutcome, jobOutcome, if_neg hjobs, nameTest_two hnul false, if_neg hone,
      bgByName_eq_fgByName hone hne]
    rfl

/-- The condition at work: both commands find the job `ls`. -/
theorem sameOutcome_ls :
    SameOutcome [⟨7, ['l', 's'], .suspended⟩] ['%', 'l', 's'] :=
  (sameOutcome_iff _ _ (by decide)).2 (Or.inr ⟨by decide, fun c hc => by simp at hc⟩)

/-- A job with a name of one letter is found by `fg` and not by `bg`. -/
theorem not_sameOutcome_one_letter :
    ¬ ∀ (jobs : List Job) (arg : Word), '\x00' ∉ arg → SameOutcome jobs arg := by
  intro h
  obtain ⟨o, hfg, hbg⟩ := h [⟨7, ['a'], .suspended⟩] ['%', 'a'] (by decide)
  have hfg' : fgOutcome [⟨7, ['a'], .suspended⟩] ['%', 'a'] = some (.command 7) := by decide
  have hbg' : bgOutcome [⟨7, ['a'], .suspended⟩] ['%', 'a'] = some (.command 0) := by decide
  rw [hfg'] at hfg
  rw [hbg', ← hfg] at hbg
  exact absurd hbg (by decide)

end Same

end Shell
