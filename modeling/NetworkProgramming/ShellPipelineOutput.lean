/-
**MyShell: what a pipeline computes, and that it comes to its end.**

The shell starts a stage only when the one before it has ended, so that there is never more than one
process that can go on.  A pipeline is therefore the composition of its stages: each stage gets what
the one before it has written in all, and the first one gets nothing.  No event is lost or repeated,
whatever the order in which the processes are scheduled, and every run has the same number of steps.

Main definitions:

* `ShellPipeline.composed` — the stages one after the other;
* `ShellPipeline.cost` — the number of steps that the shell and the stages make;
* `ShellPipeline.Computes` — **what a state has still to write, and in how many steps**.

Main results:

* `ShellPipeline.Computes.step` — every step brings the pipeline closer to its end;
* `ShellPipeline.output_of_run` — **the output is that of the composition**, in every run;
* `ShellPipeline.finishes_of_fits` — **a pipeline that fits comes to its end**.
-/

import NetworkProgramming.Progress
import NetworkProgramming.ShellPipeline

set_option relaxedAutoImplicit false
set_option autoImplicit false

namespace ShellPipeline

open Runs

/-! ### The composition of the stages -/

/-- What the stages write when the first of them reads `input`. -/
def composed : List Prog → List Char → List Char
  | [], input => input
  | p :: rest, input => composed rest (p.output input)

/-- The steps that a program makes, its exit included. -/
def Prog.steps : Prog → List Char → ℕ
  | .exit, _ => 1
  | .read next, [] => (next none).steps [] + 1
  | .read next, c :: input => (next (some c)).steps input + 1
  | .write _ next, input => next.steps input + 1

/-- The steps of the shell and the stages: each stage is started and waited for. -/
def cost : List Prog → List Char → ℕ
  | [], _ => 0
  | p :: rest, input => p.steps input + 2 + cost rest (p.output input)

theorem steps_read (next : Option Char → Prog) (input : List Char) :
    (Prog.read next).steps input = (next input.head?).steps input.tail + 1 := by
  cases input with
  | nil => rfl
  | cons c input => rfl

/-- The steps that the running stage has still to make. -/
def stepsLeft (q : Stage) (past : List Stage) : ℕ :=
  if q.exited then 0 else q.prog.steps (avail past)

/-- What the last stage writes goes to the output, what another one writes to its pipe. -/
def written (q : Stage) (past : List Stage) (output : List Char) : List Char :=
  if q.last then output ++ q.prog.output (avail past) else total q past

/-! ### One step of a stage -/

section Step

variable {C : ℕ} {past : List Stage} {output : List Char}

/-- **A step of the running stage** leaves what it writes in all as it is, and is one of those that it
has to make. -/
theorem stepStage_computes {q : Stage} {last : Bool} (hpast : ∀ q ∈ past, Past q)
    (hq : Running q last) {x : List Stage × List Char}
    (h : stepStage C (q :: past) 0 output = some x) :
    ∃ q' past', x.1 = q' :: past' ∧ (∀ q ∈ past', Past q) ∧ Running q' last ∧
      written q' past' x.2 = written q past output ∧ (last = false → x.2 = output) ∧
      stepsLeft q' past' + 1 = stepsLeft q past := by
  cases hexited : q.exited with
  | true => simp [stepStage, hexited] at h
  | false =>
      have hrun : ∀ p content, Running { q with prog := p, content := content } last :=
        fun p content => ⟨hq.last, hq.reaped, fun he => by simp [hexited] at he⟩
      cases hprog : q.prog with
      | exit =>
          rw [stepStage_exit hexited hprog] at h
          obtain rfl := Option.some_inj.1 h
          exact ⟨_, past, rfl, hpast, ⟨hq.last, hq.reaped, fun _ => hprog⟩, rfl, fun _ => rfl,
            by simp [stepsLeft, hexited, hprog, Prog.steps]⟩
      | write c next =>
          cases hlast : q.last with
          | true =>
              rw [stepStage_write_last hexited hprog hlast] at h
              obtain rfl := Option.some_inj.1 h
              refine ⟨_, past, rfl, hpast, hrun next q.content, ?_, ?_, ?_⟩
              · simp [written, hlast, hprog, Prog.output]
              · intro hfalse
                rw [← hq.last, hlast] at hfalse
                cases hfalse
              · simp [stepsLeft, hexited, hprog, Prog.steps]
          | false =>
              rcases Nat.lt_or_ge q.content.length C with hroom | hfull
              · rw [stepStage_write hexited hprog hlast hroom] at h
                obtain rfl := Option.some_inj.1 h
                refine ⟨_, past, rfl, hpast, hrun next _, ?_, fun _ => rfl, ?_⟩
                · simp [written, hlast, total, hprog, Prog.output]
                · simp [stepsLeft, hexited, hprog, Prog.steps]
              · rw [stepStage_full hexited hprog hlast hfull] at h
                cases h
      | read next =>
          obtain ⟨past', hpast', havail, hstep⟩ :=
            @stepStage_read C past output q next hpast hexited hprog
          rw [hstep] at h
          obtain rfl := Option.some_inj.1 h
          refine ⟨_, past', rfl, hpast', hrun _ q.content, ?_, fun _ => rfl, ?_⟩
          · simp only [written, total, hprog, output_read, havail]
          · simp only [stepsLeft, hexited, hprog, steps_read, havail, Bool.false_eq_true, if_false]

end Step

/-! ### What is still to be done -/

/-- **A state that ends with the output `whole` after `n` more steps**: between two stages, or while
one of them runs.  The output is empty until the last stage runs. -/
inductive Computes (whole : List Char) : State → ℕ → Prop
  | idle {p : Prog} {rest : List Prog} {past : List Stage} (hpast : ∀ q ∈ past, Past q)
      (hwhole : composed (p :: rest) (avail past) = whole) :
      Computes whole ⟨p :: rest, false, past, []⟩ (cost (p :: rest) (avail past))
  | ended {past : List Stage} (hpast : ∀ q ∈ past, Past q) :
      Computes whole ⟨[], false, past, whole⟩ 0
  | running {rest : List Prog} {q : Stage} {past : List Stage} {output : List Char}
      (hpast : ∀ q ∈ past, Past q) (hq : Running q rest.isEmpty)
      (houtput : rest ≠ [] → output = [])
      (hwhole : composed rest (written q past output) = whole) :
      Computes whole ⟨rest, true, q :: past, output⟩
        (stepsLeft q past + 1 + cost rest (written q past output))

namespace Computes

variable {C : ℕ} {whole : List Char} {s t : State} {n : ℕ}

theorem init {stages : List Prog} (hne : stages ≠ []) :
    Computes (composed stages []) (State.init stages) (cost stages []) := by
  obtain ⟨p, rest, rfl⟩ := List.exists_cons_of_ne_nil hne
  exact Computes.idle (List.forall_mem_nil _) rfl

/-- The shell starts the next stage. -/
theorem start {p : Prog} {rest : List Prog} {past : List Stage} (hpast : ∀ q ∈ past, Past q)
    (hwhole : composed (p :: rest) (avail past) = whole) :
    ∃ m, cost (p :: rest) (avail past) = m + 1 ∧
      Computes whole ⟨rest, true, ⟨p, rest.isEmpty, false, false, [], true⟩ :: past, []⟩ m := by
  have hwritten : written ⟨p, rest.isEmpty, false, false, [], true⟩ past [] =
      p.output (avail past) := by
    cases hrest : rest.isEmpty <;> simp [written, total]
  refine ⟨_, ?_, Computes.running hpast ⟨rfl, rfl, fun he => absurd he Bool.false_ne_true⟩ (fun _ => rfl) ?_⟩
  · rw [hwritten]
    simp only [stepsLeft, cost, Bool.false_eq_true, if_false]
    omega
  · rw [hwritten]
    exact hwhole

/-- The shell has waited for the stage: its output is there for the next one. -/
theorem reaped {rest : List Prog} {q : Stage} {past : List Stage} {output : List Char}
    (hpast : ∀ q ∈ past, Past q) (hq : Running q rest.isEmpty) (houtput : rest ≠ [] → output = [])
    (hwhole : composed rest (written q past output) = whole) (hexited : q.exited = true) :
    Computes whole ⟨rest, false, { q with reaped := true, writeOpen := false } :: past, output⟩
      (cost rest (written q past output)) := by
  have hprog := hq.prog hexited
  have hpast' : ∀ x ∈ { q with reaped := true, writeOpen := false } :: past, Past x := by
    intro x hx
    rcases List.mem_cons.1 hx with rfl | hx
    · exact ⟨hexited, rfl, rfl⟩
    · exact hpast x hx
  cases rest with
  | nil =>
      have hlast : q.last = true := hq.last
      have hwritten : written q past output = output := by simp [written, hlast, hprog, Prog.output]
      rw [hwritten] at hwhole
      obtain rfl : output = whole := hwhole
      exact Computes.ended hpast'
  | cons p rest =>
      have hlast : q.last = false := hq.last
      have hwritten : written q past output = q.content := by
        simp [written, hlast, total, hprog, Prog.output]
      rw [hwritten] at hwhole ⊢
      rw [houtput (List.cons_ne_nil p rest)]
      exact Computes.idle hpast' hwhole

theorem step_reap {rest : List Prog} {q : Stage} {past : List Stage} {output : List Char}
    (hexited : q.exited = true) (hreaped : q.reaped = false) :
    ShellPipeline.step C ⟨rest, true, q :: past, output⟩ .shell =
      some ⟨rest, false, { q with reaped := true, writeOpen := false } :: past, output⟩ := by
  simp [ShellPipeline.step, reap, hexited, hreaped, closeWrite]

/-- **The step lemma**: every step is one of those that are left, and the rest of them end with the
same output. -/
theorem step {e : Event} (h : Computes whole s n) (ht : ShellPipeline.step C s e = some t) :
    ∃ m, n = m + 1 ∧ Computes whole t m := by
  cases h with
  | @idle p rest past hpast hwhole =>
      cases e with
      | shell =>
          obtain rfl := Option.some_inj.1 ht
          exact start hpast hwhole
      | stage i => simp [ShellPipeline.step, stepStage_past hpast i] at ht
  | ended hpast =>
      cases e with
      | shell => simp [ShellPipeline.step] at ht
      | stage i => simp [ShellPipeline.step, stepStage_past hpast i] at ht
  | @running rest q past output hpast hq houtput hwhole =>
      cases e with
      | shell =>
          cases hexited : q.exited with
          | false => simp [ShellPipeline.step, reap, hexited, reap_past hpast] at ht
          | true =>
              rw [step_reap hexited hq.reaped] at ht
              obtain rfl := Option.some_inj.1 ht
              refine ⟨_, ?_, reaped hpast hq houtput hwhole hexited⟩
              simp only [stepsLeft, hexited, if_true]
              omega
      | stage i =>
          cases i with
          | succ i => simp [ShellPipeline.step, stepStage, stepStage_past hpast i] at ht
          | zero =>
              obtain ⟨x, hx, rfl⟩ := Option.map_eq_some_iff.1 ht
              obtain ⟨q', past', hstages, hpast', hq', hwritten, hsame, hleft⟩ :=
                stepStage_computes hpast hq hx
              dsimp only
              rw [hstages]
              rw [← hwritten] at hwhole ⊢
              refine ⟨_, ?_, Computes.running hpast' hq' ?_ hwhole⟩
              · omega
              · intro hne
                rw [hsame (by simpa using hne)]
                exact houtput hne

/-- A run of the steps that are left. -/
theorem run_length {es : List Event} (h : Computes whole s n)
    (hrun : run (ShellPipeline.step C) s es = some t) :
    ∃ m, n = es.length + m ∧ Computes whole t m := by
  induction es generalizing s n with
  | nil =>
      obtain rfl := Option.some_inj.1 hrun
      exact ⟨n, by simp, h⟩
  | cons e es ih =>
      obtain ⟨u, hu, hrun⟩ := run_cons_eq_some.1 hrun
      obtain ⟨m, rfl, hm⟩ := h.step hu
      obtain ⟨k, rfl, hk⟩ := ih hm hrun
      exact ⟨k, by simp only [List.length_cons]; omega, hk⟩

/-- What is in the output is the beginning of what will be. -/
theorem output_prefix (h : Computes whole s n) : s.output <+: whole := by
  cases h with
  | idle hpast hwhole => exact List.nil_prefix
  | ended hpast => exact List.prefix_refl _
  | @running rest q past output hpast hq houtput hwhole =>
      cases rest with
      | nil =>
          have hlast : q.last = true := hq.last
          rw [composed, written, if_pos hlast] at hwhole
          exact ⟨_, hwhole⟩
      | cons p rest =>
          obtain rfl := houtput (List.cons_ne_nil p rest)
          exact List.nil_prefix

/-- When the last stage has ended the output is there. -/
theorem output_eq (h : Computes whole s n) (hlast : LastExited s) : s.output = whole := by
  obtain ⟨hrest, hhead⟩ := hlast
  cases h with
  | idle hpast hwhole => cases hrest
  | ended hpast => rfl
  | @running rest q past output hpast hq houtput hwhole =>
      obtain rfl : rest = [] := hrest
      have hprog := hq.prog (hhead q rfl)
      have hend : q.last = true := hq.last
      rw [composed, written, if_pos hend, hprog, Prog.output, List.append_nil] at hwhole
      exact hwhole

/-- When no step is left the shell has waited for the last stage. -/
theorem ended_of_zero (h : Computes whole s 0) :
    s.waiting = false ∧ LastExited s ∧ s.output = whole := by
  generalize hn : 0 = n at h
  cases h with
  | idle hpast hwhole =>
      rw [cost] at hn
      omega
  | ended hpast =>
      exact ⟨rfl, ⟨rfl, fun q hq => (hpast q (List.mem_of_mem_head? hq)).1⟩, rfl⟩
  | running hpast hq houtput hwhole => omega

/-- As long as a step is left somebody can make it, if the pipeline fits. -/
theorem exists_step (h : Computes whole s (n + 1)) (hinv : Inv C s) :
    ∃ e t, ShellPipeline.step C s e = some t := by
  by_contra hnone
  have hall : ∀ e, ShellPipeline.step C s e = none :=
    fun e => Option.eq_none_iff_forall_ne_some.2 fun t ht => hnone ⟨e, t, ht⟩
  have hlast : LastExited s := by
    by_contra hlast
    exact not_stuck_of_inv hinv ⟨hall, hlast⟩
  generalize hm : n + 1 = m at h
  cases h with
  | idle hpast hwhole => cases hlast.1
  | ended hpast => cases hm
  | running hpast hq houtput hwhole =>
      have hshell := hall .shell
      rw [step_reap (hlast.2 _ rfl) hq.reaped] at hshell
      cases hshell

end Computes

/-! ### Every run -/

/-- **The output of a pipeline**, whatever the capacity of the pipes and the order of the steps: at
any time it is the beginning of what the composition of the stages writes, and it is all of it when
the last stage has ended.  No run has more steps than the stages and the shell have to make. -/
theorem output_of_run (C : ℕ) (stages : List Prog) (hne : stages ≠ []) (es : List Event) (s : State)
    (hrun : run (step C) (State.init stages) es = some s) :
    s.output <+: composed stages [] ∧ (LastExited s → s.output = composed stages []) ∧
      es.length ≤ cost stages [] := by
  obtain ⟨m, hm, hs⟩ := (Computes.init hne).run_length hrun
  exact ⟨hs.output_prefix, hs.output_eq, hm ▸ Nat.le_add_right _ _⟩

/-- **A pipeline that fits comes to its end.**  When every stage but the last writes no more than a
pipe holds, every run can be continued until the shell has waited for all the stages; all such runs
have the same number of steps, and the output is that of the composition. -/
theorem finishes_of_fits (C : ℕ) (stages : List Prog) (hne : stages ≠ []) (hfits : Fits C [] stages)
    (es : List Event) (s : State) (hrun : run (step C) (State.init stages) es = some s) :
    ∃ es' t, run (step C) s es' = some t ∧ es.length + es'.length = cost stages [] ∧
      t.waiting = false ∧ LastExited t ∧ t.output = composed stages [] := by
  obtain ⟨m, hm, hs⟩ := (Computes.init hne).run_length hrun
  have hinv : Inv C s := run_invariant inv_step (inv_init hfits) hrun
  have hgo : ∀ (m : ℕ) (s : State), Inv C s → Computes (composed stages []) s m →
      ∃ es' t, run (step C) s es' = some t ∧ es'.length = m ∧
        t.waiting = false ∧ LastExited t ∧ t.output = composed stages [] := by
    intro m
    induction m with
    | zero => exact fun s _ hs => ⟨[], s, rfl, rfl, hs.ended_of_zero⟩
    | succ m ih =>
        intro s hinv hs
        obtain ⟨e, t, ht⟩ := hs.exists_step hinv
        obtain ⟨k, hk, ht'⟩ := hs.step ht
        obtain rfl : m = k := by omega
        obtain ⟨es', u, hrun', hlen, hend⟩ := ih t (inv_step s e t hinv ht) ht'
        exact ⟨e :: es', u, run_cons_eq_some.2 ⟨t, ht, hrun'⟩, by simp [hlen], hend⟩
  obtain ⟨es', t, hrun', hlen, hend⟩ := hgo m s hinv hs
  exact ⟨es', t, hrun', by omega, hend⟩

/-- A program that copies its input. -/
def copiesOne : Prog := .read fun c =>
  match c with
  | none => .exit
  | some c => .write c .exit

/-- The first stage writes two bytes to a pipe for two, the second one copies the first of them. -/
def twoStages : List Event := [.shell, .stage 0, .stage 0, .stage 0, .shell, .shell, .stage 0, .stage 0]

/-- The state before the exit of the second stage. -/
def twoStagesState : State := (run (step 2) (State.init [writesTwo, copiesOne]) twoStages).get rfl

theorem output_of_run_twoStages :
    twoStagesState.output <+: ['a'] ∧ twoStages.length ≤ cost [writesTwo, copiesOne] [] :=
  have h := output_of_run 2 [writesTwo, copiesOne] (List.cons_ne_nil _ _) twoStages twoStagesState
    (Option.some_get _).symm
  ⟨h.1, h.2.2⟩

theorem finishes_of_fits_twoStages :
    ∃ es' t, run (step 2) twoStagesState es' = some t ∧
      twoStages.length + es'.length = cost [writesTwo, copiesOne] [] ∧ t.waiting = false ∧
      LastExited t ∧ t.output = ['a'] :=
  finishes_of_fits 2 [writesTwo, copiesOne] (List.cons_ne_nil _ _)
    (Or.inr ⟨le_rfl, Or.inl rfl⟩) twoStages twoStagesState (Option.some_get _).symm

end ShellPipeline
