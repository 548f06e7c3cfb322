/-
**MyShell: the processes behind `##` and `SS` come to their end.**

The shell, its children, the source and the sinks of a fan-out make no more than a number of steps that
can be computed when the line is typed.  Where none of them can go on, they have all ended, with one
exception: a text that is too long for a message is not sent, and the shell waits for it for ever.

Main definitions:

* `ShellFanOut.potential` — how many steps are left at most;
* `ShellFanOut.Ended` — the processes have ended.

Main results:

* `ShellFanOut.potential_step` — every step is one of those that are left;
* `ShellFanOut.ended_of_stuck`, `ShellFanOut.stuck_of_ended` — where nobody can go on;
* `ShellFanOut.ends_of_run` — **every run comes to an end**, and what the end is;
* `ShellFanOut.hangs_iff` — the outputs for which the shell waits for ever.
-/

import NetworkProgramming.Progress
import NetworkProgramming.ShellFanOut
import NetworkProgramming.ShellPipelineOutput

set_option relaxedAutoImplicit false
set_option autoImplicit false

namespace ShellFanOut

open Runs CString ShellTransport
open ShellPipeline (Prog)

/-! ### The steps that are left -/

/-- The steps that are left for a sink and the child that writes to it. -/
def sinkSteps (q : Sink) : ℕ :=
  (if q.closed then 0 else q.unsent.length + 1) +
    if q.exited then 0 else q.prog.steps (q.content ++ q.unsent)

/-- The steps for a sink that is not started yet, with the two of the shell. -/
def newSteps (cfg : Config) (text : Text) (cmd : List Text) : ℕ :=
  text.length + 1 + (cfg.programs cmd).steps text + 2

/-- The steps that are left for the shell, the loop over the sinks apart. -/
def Pc.steps : Pc → ℕ
  | .start => 4
  | .waitSource => 3
  | .receive => 2
  | .loop => 1
  | .waitSink => 2
  | .returned => 0

/-- The steps that are left for the source and the first child.  A byte is written and read, and an
`fread` may return after it. -/
def readSteps (s : State) : ℕ :=
  3 * s.unwritten.length + 2 * s.content.length + (if s.piece = [] then 0 else 1) +
    (if s.sourceExited then 0 else 1) + if s.readerEnded then 0 else 1

/-- **No more steps than these are left**, when the sinks are given `text`. -/
def potential (cfg : Config) (text : Text) (s : State) : ℕ :=
  s.pc.steps + (s.rest.map (newSteps cfg text)).sum + (s.sinks.map sinkSteps).sum + readSteps s

/-- **All processes have ended**, or the shell waits for a message that is never sent. -/
structure Ended (cfg : Config) (text : Text) (s : State) : Prop where
  source : s.sourceExited = true
  reader : s.readerEnded = true
  sinks : ∀ q ∈ s.sinks, q.exited = true ∧ q.closed = true
  shell : s.pc = .returned ∧ ¬ Hangs cfg text ∨ s.pc = .receive ∧ Hangs cfg text

section Lowers

variable {cfg : Config} {buffer out : Text} {outputs : List (List Text)} {s t : State}

theorem sinkSteps_writer {q r : Sink} (h : stepWriter cfg q = some r) :
    sinkSteps r + 1 ≤ sinkSteps q := by
  obtain ⟨hopen, ⟨-, rfl⟩ | ⟨c, unsent, hcons, rfl⟩⟩ := stepWriter_cases h
  · simp only [sinkSteps, hopen, Bool.false_eq_true, if_true, if_false]
    omega
  · simp only [sinkSteps, hopen, hcons, List.length_cons, List.append_assoc, List.singleton_append,
      Bool.false_eq_true, if_false]
    omega

theorem sinkSteps_sink {text : Text} {q r : Sink} (hq : Fed cfg text q) (h : stepSink q = some r) :
    sinkSteps r + 1 = sinkSteps q := by
  obtain ⟨hrunning, hcases⟩ := stepSink_cases h
  obtain ⟨hprog, rfl⟩ | ⟨c, next, hprog, rfl⟩ | ⟨next, c, content, hprog, hcons, rfl⟩ |
    ⟨next, hprog, hnil, hend, rfl⟩ := hcases
  · simp only [sinkSteps, hprog, hrunning, Prog.steps, Bool.false_eq_true, if_true, if_false]
  · simp only [sinkSteps, hprog, hrunning, Prog.steps, Bool.false_eq_true, if_false]
    rfl
  · simp only [sinkSteps, hprog, hcons, hrunning, List.cons_append, Prog.steps, Bool.false_eq_true,
      if_false]
    rfl
  · have hunsent : q.unsent = [] := (hq.closed hend).resolve_right (Bool.eq_false_iff.1 hrunning)
    simp only [sinkSteps, hprog, hnil, hunsent, hrunning, List.append_nil, Prog.steps,
      Bool.false_eq_true, if_false]
    rfl

theorem readSteps_source (h : stepSource cfg s = some t) : readSteps t + 1 ≤ readSteps s := by
  obtain ⟨hrunning, ⟨-, rfl⟩ | ⟨c, rest, hcons, rfl⟩⟩ := stepSource_cases h
  · simp only [readSteps, hrunning, Bool.false_eq_true, if_true, if_false]
    omega
  · simp only [readSteps, hcons, hrunning, List.length_cons, List.length_append, List.length_nil,
      Bool.false_eq_true, if_false]
    omega

theorem readSteps_reader (h : stepReader cfg s = some t) : readSteps t + 1 ≤ readSteps s := by
  obtain ⟨hrunning, ⟨c, content, hcons, ⟨-, rfl⟩ | ⟨-, rfl⟩⟩ |
    ⟨-, -, ⟨hpiece, rfl⟩ | ⟨hpiece, rfl⟩⟩⟩ := stepReader_cases h
  · simp only [readSteps, State.endPiece, hcons, hrunning, List.length_cons, Bool.false_eq_true,
      if_true, if_false]
    omega
  · have hpiece : (if s.piece ++ [c] = [] then 0 else 1) = 1 := if_neg (by simp)
    simp only [readSteps, hcons, hrunning, hpiece, List.length_cons, Bool.false_eq_true, if_false]
    omega
  · simp only [readSteps, hpiece, hrunning, Bool.false_eq_true, if_true, if_false]
    omega
  · simp only [readSteps, State.endPiece, hpiece, hrunning, Bool.false_eq_true, if_true, if_false]
    omega

theorem potential_goto {text : Text} {pc : Pc} (h : pc.steps < s.pc.steps) :
    potential cfg text { s with pc := pc } + 1 ≤ potential cfg text s := by
  have hread : readSteps { s with pc := pc } = readSteps s := rfl
  simp only [potential, hread]
  omega

/-- A sink is started. -/
theorem potential_newSink (hs : Inv cfg buffer out outputs s) (hpc : s.pc = .loop) {cmd : List Text}
    {rest : List (List Text)} (hrest : s.rest = cmd :: rest) :
    potential cfg (given cfg buffer out)
        { s with pc := .waitSink, rest := rest, sinks := s.sinks ++ [newSink cfg s.stored cmd] } + 1 =
      potential cfg (given cfg buffer out) s := by
  have hended : s.readerEnded = true := by
    have hphase := hs.phase
    rw [hpc] at hphase
    generalize s.readerEnded = ended at hphase ⊢
    cases hphase
    rfl
  have hnew : newSteps cfg (given cfg buffer out) cmd = sinkSteps (newSink cfg s.stored cmd) + 2 := by
    rw [← (hs.reading.given_eq hended).2]
    rfl
  have hread : readSteps { s with
      pc := .waitSink, rest := rest, sinks := s.sinks ++ [newSink cfg s.stored cmd] } = readSteps s := rfl
  simp only [potential, hread, hpc, hrest, Pc.steps, List.map_append, List.map_cons, List.map_nil,
    List.sum_append, List.sum_cons, List.sum_nil, hnew]
  omega

theorem potential_shell (hs : Inv cfg buffer out outputs s) (h : stepShell cfg s = some t) :
    potential cfg (given cfg buffer out) t + 1 ≤ potential cfg (given cfg buffer out) s := by
  cases hpc : s.pc with
  | start =>
      rw [stepShell, hpc] at h
      obtain rfl := Option.some_inj.1 h
      exact potential_goto (by rw [hpc]; decide)
  | waitSource =>
      rw [stepShell, hpc] at h
      dsimp only at h
      split_ifs at h
      obtain rfl := Option.some_inj.1 h
      exact potential_goto (by rw [hpc]; decide)
  | receive =>
      rw [stepShell, hpc] at h
      dsimp only at h
      split at h
      · obtain ⟨msg, -, ht⟩ := Option.map_eq_some_iff.1 h
        split_ifs at ht
        · exact ht ▸ potential_goto (by rw [hpc]; decide)
        · exact ht ▸ potential_goto (by rw [hpc]; decide)
      · obtain rfl := Option.some_inj.1 h
        exact potential_goto (by rw [hpc]; decide)
  | loop =>
      rw [stepShell, hpc] at h
      dsimp only at h
      split at h
      · obtain rfl := Option.some_inj.1 h
        exact potential_goto (by rw [hpc]; decide)
      · next cmd rest hrest =>
          obtain rfl := Option.some_inj.1 h
          exact (potential_newSink hs hpc hrest).le
  | waitSink =>
      rw [stepShell, hpc] at h
      dsimp only at h
      split_ifs at h
      obtain rfl := Option.some_inj.1 h
      exact potential_goto (by rw [hpc]; decide)
  | returned =>
      rw [stepShell, hpc] at h
      cases h

theorem potential_onSink {f : Sink → Option Sink} {i : ℕ} (h : s.onSink i f = some t)
    (hf : ∀ q ∈ s.sinks, ∀ r, f q = some r → sinkSteps r + 1 ≤ sinkSteps q) :
    potential cfg (given cfg buffer out) t + 1 ≤ potential cfg (given cfg buffer out) s := by
  obtain ⟨r, hr, rfl⟩ := Option.map_eq_some_iff.1 h
  obtain ⟨q, hget, hfq⟩ := Option.bind_eq_some_iff.1 hr
  have hlow := hf q (List.mem_of_getElem? hget) r hfq
  have hsum := sum_map_set sinkSteps hget r
  have hread : readSteps { s with sinks := s.sinks.set i r } = readSteps s := rfl
  simp only [potential, hread]
  omega

theorem potential_same (hst : Same s t) (hread : readSteps t + 1 ≤ readSteps s) :
    potential cfg (given cfg buffer out) t + 1 ≤ potential cfg (given cfg buffer out) s := by
  simp only [potential, hst.pc, hst.rest, hst.sinks]
  omega

/-- **Every step is one of those that are left.** -/
theorem potential_step {e : Event} (hs : Inv cfg buffer out outputs s) (h : step cfg s e = some t) :
    potential cfg (given cfg buffer out) t + 1 ≤ potential cfg (given cfg buffer out) s := by
  cases e with
  | shell => exact potential_shell hs h
  | source => exact potential_same (same_of_stepSource h) (readSteps_source h)
  | reader => exact potential_same (same_of_stepReader h) (readSteps_reader h)
  | writer i => exact potential_onSink h fun q _ r hr => sinkSteps_writer hr
  | sink i => exact potential_onSink h fun q hq r hr => (sinkSteps_sink (hs.fed q hq) hr).le

end Lowers

/-! ### Where nobody can go on -/

section Stuck

variable {cfg : Config} {buffer out : Text} {outputs : List (List Text)} {s : State}

/-- The source and the first child come to their end. -/
theorem ended_of_stuck_reading (hcap : 0 < cfg.capacity) (hpc : s.pc ≠ .start)
    (hs : Reading cfg buffer out s) (hsource : stepSource cfg s = none)
    (hreader : stepReader cfg s = none) : s.sourceExited = true ∧ s.readerEnded = true := by
  by_contra hnot
  have hended : ¬ s.readerEnded = true := fun he => hnot ⟨(hs.ended he).1, he⟩
  rw [stepReader, if_neg (not_or.2 ⟨hpc, hended⟩)] at hreader
  split at hreader
  · dsimp only at hreader
    split_ifs at hreader
  · next hnil =>
      split_ifs at hreader with hwait
      -- the source has room in the pipe
      rw [stepSource, if_neg (not_or.2 ⟨hpc, by rw [hwait]; exact Bool.false_ne_true⟩)] at hsource
      split at hsource
      · cases hsource
      · rw [if_pos (by rw [hnil]; exact hcap)] at hsource
        cases hsource

/-- A sink that cannot go on has ended, or waits for its child. -/
theorem exited_of_stuck {q : Sink} (h : stepSink q = none) :
    q.exited = true ∨ q.content = [] ∧ q.closed = false := by
  rw [stepSink] at h
  split at h
  · next hexited => exact Or.inl hexited
  · split at h
    · cases h
    · cases h
    · split at h
      · cases h
      · next hnil =>
          split_ifs at h with hopen
          exact Or.inr ⟨hnil, Bool.eq_false_of_not_eq_true hopen⟩

/-- The child of a sink comes to its end. -/
theorem closed_of_stuck (hcap : 0 < cfg.capacity) {q : Sink} (hwriter : stepWriter cfg q = none)
    (hsink : stepSink q = none) : q.closed = true := by
  rw [stepWriter] at hwriter
  split at hwriter
  · next hclosed => exact hclosed
  · split at hwriter
    · cases hwriter
    · split_ifs at hwriter with hexited hroom
      -- the pipe is full, so that the sink can read from it
      obtain ⟨hnil, -⟩ := (exited_of_stuck hsink).resolve_left hexited
      rw [hnil] at hroom
      exact absurd hcap hroom

/-- **When nobody can go on, all have ended.** -/
theorem ended_of_stuck (hcap : 0 < cfg.capacity) (hs : Inv cfg buffer out outputs s)
    (hnone : ∀ e, step cfg s e = none) : Ended cfg (text buffer out) s := by
  have hshell : stepShell cfg s = none := hnone .shell
  have hstart : s.pc ≠ .start := by
    intro hpc
    rw [stepShell, hpc] at hshell
    cases hshell
  obtain ⟨hsource, hreader⟩ := ended_of_stuck_reading hcap hstart hs.reading (hnone .source)
    (hnone .reader)
  have hsinks : ∀ q ∈ s.sinks, q.exited = true ∧ q.closed = true := by
    intro q hq
    obtain ⟨i, hget⟩ := List.mem_iff_getElem?.1 hq
    have hon : ∀ f, s.onSink i f = none → f q = none := fun f hf => by
      rwa [State.onSink, hget, Option.bind_some, Option.map_eq_none_iff] at hf
    have hsink := hon _ (hnone (.sink i))
    have hclosed := closed_of_stuck hcap (hon _ (hnone (.writer i))) hsink
    refine ⟨(exited_of_stuck hsink).resolve_right fun hwait => ?_, hclosed⟩
    rw [hclosed] at hwait
    cases hwait.2
  refine ⟨hsource, hreader, hsinks, ?_⟩
  cases hpc : s.pc with
  | start => exact absurd hpc hstart
  | waitSource =>
      rw [stepShell, hpc] at hshell
      dsimp only at hshell
      rw [if_pos hreader] at hshell
      cases hshell
  | receive =>
      rw [stepShell, hpc] at hshell
      dsimp only at hshell
      split at hshell
      · next hop =>
          have hstored := (hs.reading.given_eq hreader).1
          rw [Option.map_eq_none_iff.1 hshell, deliver_msgQ hop] at hstored
          split_ifs at hstored with hmax
          exact Or.inr ⟨rfl, hop, Nat.lt_of_not_le hmax⟩
      · cases hshell
  | loop =>
      rw [stepShell, hpc] at hshell
      dsimp only at hshell
      split at hshell
      · cases hshell
      · cases hshell
  | waitSink =>
      rw [stepShell, hpc] at hshell
      dsimp only at hshell
      rw [if_pos fun q hq => (hsinks q (List.mem_of_mem_getLast? hq)).2] at hshell
      cases hshell
  | returned =>
      refine Or.inl ⟨rfl, ?_⟩
      rintro ⟨hop, hlong⟩
      have hphase := hs.phase
      rw [hpc] at hphase
      generalize s.rest = rest at hphase
      generalize s.sinks = sinks at hphase
      generalize s.readerEnded = ended at hphase
      cases hphase with
      | returned htaken hclosed => exact absurd (htaken hop).1 (Nat.not_le.2 hlong)
      | refused hrefused => exact absurd hrefused.2.1 (Nat.not_le.2 hlong)

/-- **When all have ended, nobody can go on.** -/
theorem stuck_of_ended (hs : Inv cfg buffer out outputs s) (h : Ended cfg (text buffer out) s)
    (e : Event) : step cfg s e = none := by
  have hsink : ∀ i f, (∀ q ∈ s.sinks, f q = none) → s.onSink i f = none := by
    intro i f hf
    rw [State.onSink, Option.map_eq_none_iff, Option.bind_eq_none_iff]
    exact fun q hq => hf q (List.mem_of_getElem? hq)
  cases e with
  | shell =>
      rcases h.shell with ⟨hpc, -⟩ | ⟨hpc, hop, hlong⟩
      · rw [step, stepShell, hpc]
      · have hstored := (hs.reading.given_eq h.reader).1
        rw [deliver_msgQ hop, if_neg (Nat.not_le.2 hlong)] at hstored
        rw [step, stepShell, hpc]
        dsimp only
        rw [hop, hstored]
        rfl
  | source => exact if_pos (Or.inr h.source)
  | reader => exact if_pos (Or.inr h.reader)
  | writer i => exact hsink i _ fun q hq => if_pos (h.sinks q hq).2
  | sink i => exact hsink i _ fun q hq => if_pos (h.sinks q hq).1

/-- As long as somebody has not ended, a step is left that somebody can make. -/
theorem exists_closer (hcap : 0 < cfg.capacity) (hs : Inv cfg buffer out outputs s)
    (hnot : ¬ Ended cfg (text buffer out) s) :
    ∃ t, Reaches (step cfg) (fun _ _ => True) s t ∧ Inv cfg buffer out outputs t ∧
      (Ended cfg (text buffer out) t ∨
        potential cfg (given cfg buffer out) t < potential cfg (given cfg buffer out) s) := by
  by_cases hnone : ∀ e, step cfg s e = none
  · exact absurd (ended_of_stuck hcap hs hnone) hnot
  · obtain ⟨e, he⟩ := not_forall.1 hnone
    obtain ⟨t, ht⟩ := Option.ne_none_iff_exists'.1 he
    exact ⟨t, Reaches.single trivial ht, inv_step s e t hs ht, Or.inr (potential_step hs ht)⟩

end Stuck

/-! ### Every run -/

/-- **Every run comes to an end**: no run has more steps than are left at its start, it can go on as long
as somebody has not ended, and it can be continued until all have.  They have not ended when the message
is too long for the queue: then the shell waits for ever. -/
theorem ends_of_run {cfg : Config} {buffer out : Text} {outputs : List (List Text)}
    (hcap : 0 < cfg.capacity) {es : List Event} {s : State}
    (hrun : run (step cfg) (.init buffer out outputs) es = some s) :
    es.length ≤ potential cfg (given cfg buffer out) (.init buffer out outputs) ∧
      ((∀ e, step cfg s e = none) ↔ Ended cfg (text buffer out) s) ∧
      ∃ es' t, run (step cfg) s es' = some t ∧ Ended cfg (text buffer out) t := by
  have hs := inv_of_run hrun
  refine ⟨?_, ⟨ended_of_stuck hcap hs, stuck_of_ended hs⟩, ?_⟩
  · have hlength := length_add_le_of_potential (c := fun _ => 0)
      (fun s e t hs h => ⟨inv_step s e t hs h, (potential_step hs h).trans (Nat.le_add_right _ _)⟩)
      (inv_init cfg buffer out outputs) hrun
    simp only [List.map_const', List.sum_replicate, smul_zero, Nat.add_zero] at hlength
    exact le_of_add_le_left hlength
  · obtain ⟨t, ⟨es', -, hes'⟩, -, ht⟩ : ∃ t, Reaches (step cfg) (fun _ _ => True) s t ∧
        Inv cfg buffer out outputs t ∧ Ended cfg (text buffer out) t :=
      reaches_of_rank (potential cfg (given cfg buffer out)) (fun _ => exists_closer hcap) hs
    exact ⟨es', t, hes', ht⟩

/-- When the first sink was started there are steps left, and then there are none. -/
theorem ends_of_run_head :
    ∃ s, run (step headConfig) headInit (headRun.take 11) = some s ∧
      ∃ es' t, run (step headConfig) s es' = some t ∧ Ended headConfig (text [] "ab".toList) t := by
  obtain ⟨s, hs⟩ := Option.isSome_iff_exists.1
    (show (run (step headConfig) headInit (headRun.take 11)).isSome = true from by decide)
  exact ⟨s, hs, (ends_of_run (by decide) hs).2.2⟩

/-- **The outputs for which the shell hangs**: with the usual `msgmax` of 8192, those of 8184 bytes and
more that are read in one piece. -/
theorem hangs_iff {cfg : Config} {buffer out : Text} (hne : out ≠ []) (hnul : '\x00' ∉ out)
    (hle : out.length ≤ 8191) :
    Hangs cfg (text buffer out) ↔ cfg.op = .msgQ ∧ cfg.msgmax < out.length + 9 := by
  rw [Hangs, text_of_short hne hnul hle, msgsz]
  refine and_congr_right fun _ => ?_
  omega

end ShellFanOut
