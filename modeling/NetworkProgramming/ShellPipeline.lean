/-
**MyShell: pipelines and the capacity of a pipe.**

`executePipe` starts the stages of a `|` pipeline one after the other.  The shell creates a pipe and
forks, then waits for the child, closes its write end of the pipe, and only then goes on to the next
stage, which reads from that pipe.  While a stage runs nobody reads what it writes.

The module follows the shell, the stages and the pipes between them.  A stage is any program that
reads and writes bytes and ends when its reads and writes are served.  The first stage cannot read:
`fd_in` is the standard input itself when its child closes it.  The last stage writes where the shell
would write.  The shell has no other children.

Main definitions:

* `ShellPipeline.Prog` — the program of a stage;
* `ShellPipeline.State`, `ShellPipeline.step` — the shell, the stages and the pipes;
* `ShellPipeline.Stuck` — nobody can go on, and the last stage has not ended;
* `ShellPipeline.Fits` — every stage but the last writes no more than a pipe holds.

Main results:

* `ShellPipeline.not_stuck_of_fits`, `ShellPipeline.exists_stuck` — the two directions;
* `ShellPipeline.never_stuck_iff` — **a pipeline cannot get stuck exactly when every stage but the
  last writes no more than a pipe holds**.
-/

import NetworkProgramming.Runs

set_option relaxedAutoImplicit false
set_option autoImplicit false

namespace ShellPipeline

open Runs

/-! ### Programs -/

/-- The program of a stage: it ends, reads a byte, or none when its input is at its end or closed, or
writes a byte. -/
inductive Prog
  | exit
  | read (next : Option Char → Prog)
  | write (c : Char) (next : Prog)

/-- All that a program writes when its input is `input`. -/
def Prog.output : Prog → List Char → List Char
  | .exit, _ => []
  | .read next, [] => (next none).output []
  | .read next, c :: input => (next (some c)).output input
  | .write c next, input => c :: next.output input

/-! ### The system -/

/-- A stage that was started, with the pipe that it writes to. -/
structure Stage where
  prog : Prog
  /-- The last stage does not write to its pipe. -/
  last : Bool
  exited : Bool
  /-- The shell has waited for it. -/
  reaped : Bool
  content : List Char
  /-- The shell holds the write end of the pipe. -/
  writeOpen : Bool

/-- The state of the shell, the stages and the pipes. -/
structure State where
  /-- The stages that the shell has still to start. -/
  rest : List Prog
  /-- The shell is in `wait`. -/
  waiting : Bool
  /-- The stages that were started, the latest first. -/
  stages : List Stage
  output : List Char

def State.init (stages : List Prog) : State := ⟨stages, false, [], []⟩

/-- Somebody goes on: the shell, or the stage that was started as the last, the last but one, … -/
inductive Event
  | shell
  | stage (i : ℕ)

/-- `wait`: some stage has ended. -/
def reap : List Stage → Option (List Stage)
  | [] => none
  | q :: prev =>
      if q.exited && !q.reaped then some ({ q with reaped := true } :: prev)
      else (reap prev).map fun prev => q :: prev

/-- The shell closes its write end of the latest pipe. -/
def closeWrite : List Stage → List Stage
  | [] => []
  | q :: prev => { q with writeOpen := false } :: prev

/-- **A stage goes on**, with pipes of capacity `C`.  It waits when its pipe is full, or when the
pipe that it reads is empty and somebody may still write to it.  No write fails, since the shell
keeps the read ends. -/
def stepStage (C : ℕ) : List Stage → ℕ → List Char → Option (List Stage × List Char)
  | [], _, _ => none
  | q :: prev, 0, output =>
      if q.exited then none
      else
        match q.prog with
        | .exit => some ({ q with exited := true } :: prev, output)
        | .write c next =>
            if q.last then some ({ q with prog := next } :: prev, output ++ [c])
            else if q.content.length < C then
              some ({ q with prog := next, content := q.content ++ [c] } :: prev, output)
            else none
        | .read next =>
            match prev with
            | [] => some ([{ q with prog := next none }], output)
            | r :: older =>
                match r.content with
                | [] =>
                    if r.exited && !r.writeOpen then
                      some ({ q with prog := next none } :: r :: older, output)
                    else none
                | c :: content =>
                    some ({ q with prog := next (some c) } :: { r with content := content } :: older,
                      output)
  | q :: prev, i + 1, output =>
      (stepStage C prev i output).map fun x => (q :: x.1, x.2)

/-- **The step of the system.** -/
def step (C : ℕ) (s : State) : Event → Option State
  | .shell =>
      if s.waiting then
        (reap s.stages).map fun stages => { s with waiting := false, stages := closeWrite stages }
      else
        match s.rest with
        | [] => none
        | p :: rest =>
            some
              { s with
                rest := rest
                waiting := true
                stages := ⟨p, rest.isEmpty, false, false, [], true⟩ :: s.stages }
  | .stage i =>
      (stepStage C s.stages i s.output).map fun x => { s with stages := x.1, output := x.2 }

/-- The last stage has ended. -/
def LastExited (s : State) : Prop := s.rest = [] ∧ ∀ q ∈ s.stages.head?, q.exited = true

/-- **Nobody can go on, and the last stage has not ended.** -/
def Stuck (C : ℕ) (s : State) : Prop := (∀ e, step C s e = none) ∧ ¬ LastExited s

/-- **Every stage but the last writes no more than a pipe holds**, given what it reads. -/
def Fits (C : ℕ) : List Char → List Prog → Prop
  | _, [] => True
  | input, p :: rest =>
      rest = [] ∨ (p.output input).length ≤ C ∧ Fits C (p.output input) rest

/-! ### The stages that have ended -/

/-- The shell is done with the stage. -/
def Past (q : Stage) : Prop := q.exited = true ∧ q.reaped = true ∧ q.writeOpen = false

/-- The stage runs, or the shell has not noticed yet that it has ended. -/
structure Running (q : Stage) (last : Bool) : Prop where
  last : q.last = last
  reaped : q.reaped = false
  prog : q.exited = true → q.prog = .exit

/-- What a stage can read that is started after the stages `past`. -/
def avail : List Stage → List Char
  | [] => []
  | r :: _ => r.content

/-- What a stage has written to its pipe and what it will write. -/
def total (q : Stage) (past : List Stage) : List Char :=
  q.content ++ q.prog.output (avail past)

section Step

variable {C : ℕ} {past : List Stage} {output : List Char}

theorem stepStage_past (hpast : ∀ q ∈ past, Past q) (i : ℕ) :
    stepStage C past i output = none := by
  induction past generalizing i with
  | nil => rfl
  | cons q past ih =>
      cases i with
      | zero => simp [stepStage, (hpast q (by simp)).1]
      | succ i => simp [stepStage, ih (fun r hr => hpast r (by simp [hr])) i]

theorem reap_past (hpast : ∀ q ∈ past, Past q) : reap past = none := by
  induction past with
  | nil => rfl
  | cons q past ih =>
      simp [reap, (hpast q (by simp)).2.1, ih fun r hr => hpast r (by simp [hr])]

theorem stepStage_exit {q : Stage} (hexited : q.exited = false) (hprog : q.prog = .exit) :
    stepStage C (q :: past) 0 output =
      some ({ q with exited := true } :: past, output) := by
  simp [stepStage, hexited, hprog]

theorem stepStage_write_last {q : Stage} {c : Char} {next : Prog} (hexited : q.exited = false)
    (hprog : q.prog = .write c next) (hlast : q.last = true) :
    stepStage C (q :: past) 0 output =
      some ({ q with prog := next } :: past, output ++ [c]) := by
  simp [stepStage, hexited, hprog, hlast]

theorem stepStage_write {q : Stage} {c : Char} {next : Prog} (hexited : q.exited = false)
    (hprog : q.prog = .write c next) (hlast : q.last = false) (hroom : q.content.length < C) :
    stepStage C (q :: past) 0 output =
      some ({ q with prog := next, content := q.content ++ [c] } :: past, output) := by
  simp [stepStage, hexited, hprog, hlast, hroom]

/-- A stage whose pipe is full waits. -/
theorem stepStage_full {q : Stage} {c : Char} {next : Prog} (hexited : q.exited = false)
    (hprog : q.prog = .write c next) (hlast : q.last = false) (hfull : C ≤ q.content.length) :
    stepStage C (q :: past) 0 output = none := by
  simp [stepStage, hexited, hprog, hlast, Nat.not_lt.2 hfull]

/-- A stage that reads gets the next byte, or the end of the input. -/
theorem stepStage_read {q : Stage} {next : Option Char → Prog} (hpast : ∀ q ∈ past, Past q)
    (hexited : q.exited = false) (hprog : q.prog = .read next) :
    ∃ past', (∀ q ∈ past', Past q) ∧ avail past' = (avail past).tail ∧
      stepStage C (q :: past) 0 output =
        some ({ q with prog := next (avail past).head? } :: past', output) := by
  cases past with
  | nil =>
      refine ⟨[], by simp, rfl, ?_⟩
      simp [stepStage, hexited, hprog, avail]
  | cons r older =>
      have hr := hpast r (by simp)
      cases hcontent : r.content with
      | nil =>
          refine ⟨r :: older, hpast, by simp [avail, hcontent], ?_⟩
          simp [stepStage, hexited, hprog, avail, hcontent, hr.1, hr.2.2]
      | cons c content =>
          refine ⟨{ r with content := content } :: older, ?_, by simp [avail, hcontent], ?_⟩
          · intro x hx
            rcases List.mem_cons.1 hx with rfl | hx
            · exact hr
            · exact hpast x (by simp [hx])
          · simp [stepStage, hexited, hprog, avail, hcontent]

theorem output_read (next : Option Char → Prog) (input : List Char) :
    (Prog.read next).output input = (next input.head?).output input.tail := by
  cases input with
  | nil => rfl
  | cons c input => rfl

/-- **What a step of the running stage does**: what it writes in all stays the same. -/
theorem stepStage_running {q : Stage} {last : Bool} (hpast : ∀ q ∈ past, Past q)
    (hq : Running q last) {x : List Stage × List Char}
    (h : stepStage C (q :: past) 0 output = some x) :
    ∃ q' past', x.1 = q' :: past' ∧ (∀ q ∈ past', Past q) ∧ Running q' last ∧
      (last = false → total q' past' = total q past) := by
  cases hexited : q.exited with
  | true => simp [stepStage, hexited] at h
  | false =>
      have hrun : ∀ p content, Running { q with prog := p, content := content } last :=
        fun p content => ⟨hq.last, hq.reaped, fun he => by simp [hexited] at he⟩
      cases hprog : q.prog with
      | exit =>
          rw [stepStage_exit hexited hprog] at h
          obtain rfl := Option.some_inj.1 h
          exact ⟨_, past, rfl, hpast, ⟨hq.last, hq.reaped, fun _ => hprog⟩, fun _ => rfl⟩
      | write c next =>
          cases hlast : q.last with
          | true =>
              rw [stepStage_write_last hexited hprog hlast] at h
              obtain rfl := Option.some_inj.1 h
              refine ⟨_, past, rfl, hpast, hrun next q.content, ?_⟩
              intro hfalse
              rw [← hq.last, hlast] at hfalse
              cases hfalse
          | false =>
              rcases Nat.lt_or_ge q.content.length C with hroom | hfull
              · rw [stepStage_write hexited hprog hlast hroom] at h
                obtain rfl := Option.some_inj.1 h
                refine ⟨_, past, rfl, hpast, hrun next _, ?_⟩
                intro _
                simp [total, hprog, Prog.output]
              · rw [stepStage_full hexited hprog hlast hfull] at h
                cases h
      | read next =>
          obtain ⟨past', hpast', havail, hstep⟩ :=
            @stepStage_read C past output q next hpast hexited hprog
          rw [hstep] at h
          obtain rfl := Option.some_inj.1 h
          refine ⟨_, past', rfl, hpast', hrun _ q.content, ?_⟩
          intro _
          simp only [total, hprog, output_read, havail]

end Step

/-! ### Pipelines that fit -/

/-- **The invariant**: one stage runs at a time, and it and those that follow write no more than a
pipe holds. -/
inductive Inv (C : ℕ) : State → Prop
  | idle {rest : List Prog} {past : List Stage} {output : List Char}
      (hpast : ∀ q ∈ past, Past q) (hfits : Fits C (avail past) rest) :
      Inv C ⟨rest, false, past, output⟩
  | running {rest : List Prog} {q : Stage} {past : List Stage} {output : List Char}
      (hpast : ∀ q ∈ past, Past q) (hq : Running q rest.isEmpty)
      (hfits : rest = [] ∨
        (total q past).length ≤ C ∧ Fits C (total q past) rest) :
      Inv C ⟨rest, true, q :: past, output⟩

theorem inv_init {C : ℕ} {stages : List Prog} (h : Fits C [] stages) :
    Inv C (State.init stages) :=
  Inv.idle (by simp) h

theorem inv_step {C : ℕ} (s : State) (e : Event) (s' : State) (hs : Inv C s)
    (h : step C s e = some s') : Inv C s' := by
  cases hs with
  | @idle rest past output hpast hfits =>
      cases e with
      | shell =>
          cases rest with
          | nil => simp [step] at h
          | cons p rest =>
              obtain rfl := Option.some_inj.1 h
              refine Inv.running hpast ⟨rfl, rfl, fun he => by cases he⟩ ?_
              simpa [total, Fits] using hfits
      | stage i => simp [step, stepStage_past hpast i] at h
  | @running rest q past output hpast hq hfits =>
      cases e with
      | shell =>
          cases hexited : q.exited with
          | false => simp [step, reap, hexited, reap_past hpast] at h
          | true =>
              have hprog := hq.prog hexited
              simp only [step, reap, hexited, hq.reaped] at h
              obtain rfl := Option.some_inj.1 h
              refine Inv.idle ?_ ?_
              · intro x hx
                rcases List.mem_cons.1 hx with rfl | hx
                · exact ⟨rfl, rfl, rfl⟩
                · exact hpast x hx
              · rcases hfits with rfl | hfits
                · trivial
                · have htotal : total q past = q.content := by
                    simp [total, hprog, Prog.output]
                  exact htotal ▸ hfits.2
      | stage i =>
          cases i with
          | succ i => simp [step, stepStage, stepStage_past hpast i] at h
          | zero =>
              obtain ⟨x, hx, rfl⟩ := Option.map_eq_some_iff.1 h
              obtain ⟨q', past', hstages, hpast', hq', htotal⟩ := stepStage_running hpast hq hx
              dsimp only
              rw [hstages]
              refine Inv.running hpast' hq' ?_
              cases rest with
              | nil => exact Or.inl rfl
              | cons p rest =>
                  rw [htotal rfl]
                  exact hfits

/-- Somebody can go on. -/
theorem not_stuck_of_inv {C : ℕ} {s : State} (hs : Inv C s) : ¬ Stuck C s := by
  rintro ⟨hnone, hlast⟩
  cases hs with
  | @idle rest past output hpast hfits =>
      cases rest with
      | nil =>
          refine hlast ⟨rfl, ?_⟩
          intro q hq
          exact (hpast q (List.mem_of_mem_head? hq)).1
      | cons p rest => simpa [step] using hnone .shell
  | @running rest q past output hpast hq hfits =>
      cases hexited : q.exited with
      | true =>
          have hshell := hnone .shell
          simp [step, reap, hexited, hq.reaped] at hshell
      | false =>
          have hstage := hnone (.stage 0)
          simp only [step, Option.map_eq_none_iff] at hstage
          cases hprog : q.prog with
          | exit =>
              rw [stepStage_exit hexited hprog] at hstage
              cases hstage
          | write c next =>
              cases hq' : q.last with
              | true =>
                  rw [stepStage_write_last hexited hprog hq'] at hstage
                  cases hstage
              | false =>
                  -- there is room for the byte, since all of them fit
                  have hroom : q.content.length < C := by
                    rcases hfits with rfl | ⟨hle, -⟩
                    · rw [hq.last] at hq'
                      cases hq'
                    · rw [total, hprog, Prog.output, List.length_append, List.length_cons] at hle
                      omega
                  rw [stepStage_write hexited hprog hq' hroom] at hstage
                  cases hstage
          | read next =>
              obtain ⟨past', -, -, hstep⟩ :=
                @stepStage_read C past output q next hpast hexited hprog
              rw [hstep] at hstage
              cases hstage

/-- A pipeline that fits is never stuck. -/
theorem not_stuck_of_fits {C : ℕ} {stages : List Prog}
    (h : Fits C [] stages) {es : List Event} {s : State}
    (hrun : run (step C) (State.init stages) es = some s) : ¬ Stuck C s :=
  not_stuck_of_inv (run_invariant inv_step (inv_init h) hrun)

/-! ### Pipelines that do not fit -/

/-- A stage with a full pipe and a byte to write is stuck: the shell waits for it. -/
theorem stuck_of_full {C : ℕ} {rest : List Prog} {q : Stage} {past : List Stage}
    {output : List Char} {c : Char} {next : Prog} (hpast : ∀ q ∈ past, Past q)
    (hexited : q.exited = false) (hprog : q.prog = .write c next) (hlast : q.last = false)
    (hfull : C ≤ q.content.length) : Stuck C ⟨rest, true, q :: past, output⟩ := by
  constructor
  · intro e
    cases e with
    | shell => simp [step, reap, hexited, reap_past hpast]
    | stage i =>
        cases i with
        | zero => simp [step, stepStage_full hexited hprog hlast hfull]
        | succ i => simp [step, stepStage, stepStage_past hpast i]
  · rintro ⟨-, hhead⟩
    have hend := hhead q (by simp)
    rw [hexited] at hend
    cases hend

/-- A stage that writes more than its pipe holds gets stuck. -/
theorem exists_stuck_stage {C : ℕ} (p : Prog) {rest : List Prog} {q : Stage} {past : List Stage}
    {output : List Char} (hpast : ∀ q ∈ past, Past q) (hexited : q.exited = false)
    (hlast : q.last = false) (hprog : q.prog = p) (hle : q.content.length ≤ C)
    (hlong : C < (total q past).length) :
    ∃ es s, run (step C) ⟨rest, true, q :: past, output⟩ es = some s ∧ Stuck C s := by
  induction p generalizing q past output with
  | exit =>
      rw [total, hprog, Prog.output, List.append_nil] at hlong
      omega
  | write c next ih =>
      rcases Nat.lt_or_ge q.content.length C with hroom | hfull
      · have hstep := @stepStage_write C past output q c next hexited hprog hlast hroom
        obtain ⟨es, s, hrun, hstuck⟩ := @ih { q with prog := next, content := q.content ++ [c] } past
          output hpast hexited hlast rfl (by simpa using hroom)
          (by simpa [total, hprog, Prog.output] using hlong)
        exact ⟨.stage 0 :: es, s, run_cons_eq_some.2 ⟨_, by simp only [step, hstep]; rfl, hrun⟩, hstuck⟩
      · exact ⟨[], _, rfl, stuck_of_full hpast hexited hprog hlast hfull⟩
  | read next ih =>
      obtain ⟨past', hpast', havail, hstep⟩ :=
        @stepStage_read C past output q next hpast hexited hprog
      obtain ⟨es, s, hrun, hstuck⟩ := @ih (avail past).head?
        { q with prog := next (avail past).head? } past' output hpast' hexited hlast rfl
        hle (by simpa only [total, hprog, output_read, havail] using hlong)
      exact ⟨.stage 0 :: es, s, run_cons_eq_some.2 ⟨_, by simp only [step, hstep]; rfl, hrun⟩, hstuck⟩

/-- A stage that writes no more than its pipe holds ends, and the shell goes on. -/
theorem exists_run_stage {C : ℕ} (p : Prog) {rest : List Prog} {q : Stage} {past : List Stage}
    {output : List Char} (hpast : ∀ q ∈ past, Past q) (hexited : q.exited = false)
    (hreaped : q.reaped = false) (hlast : q.last = false) (hprog : q.prog = p)
    (hle : (total q past).length ≤ C) :
    ∃ es past', run (step C) ⟨rest, true, q :: past, output⟩ es =
        some ⟨rest, false, past', output⟩ ∧ (∀ q ∈ past', Past q) ∧
      avail past' = total q past := by
  induction p generalizing q past output with
  | exit =>
      have hstep := @stepStage_exit C past output q hexited hprog
      refine ⟨[.stage 0, .shell], { q with exited := true, reaped := true, writeOpen := false } :: past,
        ?_, ?_, ?_⟩
      · refine run_cons_eq_some.2 ⟨_, by simp only [step, hstep]; rfl, ?_⟩
        simp [run, step, reap, hreaped, closeWrite]
      · intro x hx
        rcases List.mem_cons.1 hx with rfl | hx
        · exact ⟨rfl, rfl, rfl⟩
        · exact hpast x hx
      · simp [avail, total, hprog, Prog.output]
  | write c next ih =>
      have hroom : q.content.length < C := by
        rw [total, hprog, Prog.output, List.length_append, List.length_cons] at hle
        omega
      have hstep := @stepStage_write C past output q c next hexited hprog hlast hroom
      obtain ⟨es, past', hrun, hpast', havail⟩ :=
        @ih { q with prog := next, content := q.content ++ [c] } past output hpast hexited
          hreaped hlast rfl (by simpa [total, hprog, Prog.output] using hle)
      refine ⟨.stage 0 :: es, past', ?_, hpast', ?_⟩
      · exact run_cons_eq_some.2 ⟨_, by simp only [step, hstep]; rfl, hrun⟩
      · rw [havail]
        simp [total, hprog, Prog.output]
  | read next ih =>
      obtain ⟨past₁, hpast₁, havail₁, hstep⟩ :=
        @stepStage_read C past output q next hpast hexited hprog
      have htotal : total { q with prog := next (avail past).head? } past₁ =
          total q past := by
        simp only [total, hprog, output_read, havail₁]
      obtain ⟨es, past', hrun, hpast', havail⟩ := @ih (avail past).head?
        { q with prog := next (avail past).head? } past₁ output hpast₁ hexited hreaped
        hlast rfl (htotal ▸ hle)
      refine ⟨.stage 0 :: es, past', ?_, hpast', havail.trans htotal⟩
      exact run_cons_eq_some.2 ⟨_, by simp only [step, hstep]; rfl, hrun⟩

/-- A pipeline that does not fit gets stuck. -/
theorem exists_stuck {C : ℕ} {rest : List Prog} {past : List Stage} {output : List Char}
    (hpast : ∀ q ∈ past, Past q) (hfits : ¬ Fits C (avail past) rest) :
    ∃ es s, run (step C) ⟨rest, false, past, output⟩ es = some s ∧ Stuck C s := by
  induction rest generalizing past with
  | nil => exact absurd trivial hfits
  | cons p rest ih =>
      rw [Fits, not_or] at hfits
      obtain ⟨hrest, hfits⟩ := hfits
      have hlast : rest.isEmpty = false := by simpa using hrest
      -- the shell starts the stage
      have hstart : step C ⟨p :: rest, false, past, output⟩ .shell =
          some ⟨rest, true, ⟨p, rest.isEmpty, false, false, [], true⟩ :: past, output⟩ := rfl
      have htotal : total ⟨p, rest.isEmpty, false, false, [], true⟩ past =
          p.output (avail past) := rfl
      rcases Nat.lt_or_ge C (p.output (avail past)).length with hlong | hle
      · obtain ⟨es, s, hrun, hstuck⟩ := @exists_stuck_stage C p rest
          ⟨p, rest.isEmpty, false, false, [], true⟩ past output hpast rfl hlast rfl
          (Nat.zero_le C) (htotal ▸ hlong)
        exact ⟨.shell :: es, s, run_cons_eq_some.2 ⟨_, hstart, hrun⟩, hstuck⟩
      · obtain ⟨es, past', hrun, hpast', havail⟩ := @exists_run_stage C p rest
          ⟨p, rest.isEmpty, false, false, [], true⟩ past output hpast rfl rfl hlast rfl
          (htotal ▸ hle)
        obtain ⟨es', s, hrun', hstuck⟩ := @ih past' hpast' (by
          rw [havail, htotal]
          exact fun h => hfits ⟨hle, h⟩)
        exact ⟨.shell :: (es ++ es'), s,
          run_cons_eq_some.2 ⟨_, hstart, run_append hrun hrun'⟩, hstuck⟩

/-- **A pipeline cannot get stuck exactly when every stage but the last writes no more than a pipe
holds.** -/
theorem never_stuck_iff (C : ℕ) (stages : List Prog) :
    (∀ es s, run (step C) (State.init stages) es = some s → ¬ Stuck C s) ↔
      Fits C [] stages := by
  constructor
  · intro h
    by_contra hfits
    obtain ⟨es, s, hrun, hstuck⟩ := @exists_stuck C stages [] [] (by simp) hfits
    exact h es s hrun hstuck
  · intro hfits es s hrun
    exact not_stuck_of_fits hfits hrun

/-- A program that writes two bytes. -/
def writesTwo : Prog := .write 'a' (.write 'b' .exit)

/-- Two bytes and a pipe for one. -/
theorem stuck_writesTwo :
    ¬ ∀ (C : ℕ) (stages : List Prog) (es : List Event) (s : State),
      2 ≤ stages.length → run (step C) (State.init stages) es = some s → ¬ Stuck C s := by
  intro hall
  refine hall 1 [writesTwo, .exit] [.shell, .stage 0] _ (by decide) rfl ?_
  exact stuck_of_full (List.forall_mem_nil _) rfl rfl rfl (by decide)

end ShellPipeline
