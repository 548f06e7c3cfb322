/-
**MyShell: the processes behind `##` and `SS`.**

A fan-out is run by many processes.  A child of the shell reads what the source writes to a pipe, and
puts what is left of it in a message queue or in shared memory.  The shell waits for that child.  Then,
for one sink after the other, another child writes the text to a pipe that the sink reads, and the shell
waits for this child, but not for the sink.  So the sinks run at the same time as those after them, and
after the shell has returned.

A write to a pipe that nobody reads any more ends the child.  A message that is longer than the system
allows is not sent, and the shell waits for it; one that is longer than the buffer of the shell is not
received.  A string that is longer than the shared memory is read on in the memory behind it.  The shell
has no other children, so that `wait` returns for the one that it has just started; `pclose` is `fclose`,
since `popen` has made none of the streams.

Main definitions:

* `ShellFanOut.State`, `ShellFanOut.step` — the shell, its children, the source and the sinks;
* `ShellFanOut.text`, `ShellFanOut.given` — the text that the first child reads, and what the sinks get;
* `ShellFanOut.Inv` — **what the processes have done, and what they have still to do**.

Main results:

* `ShellFanOut.inv_step` — a step keeps the invariant;
* `ShellFanOut.fanOut_of_run` — **what the sinks print**, in every run.
-/

import NetworkProgramming.Runs
import NetworkProgramming.ShellPipelineOutput
import NetworkProgramming.ShellTransport

set_option relaxedAutoImplicit false
set_option autoImplicit false

namespace ShellFanOut

open Runs CString ShellTransport
open ShellPipeline (Prog)

/-! ### The system -/

/-- The operators `##` and `SS`. -/
inductive Operator
  | msgQ
  | shm

/-- What does not change. -/
structure Config where
  op : Operator
  /-- The size of the longest message. -/
  msgmax : ℕ
  /-- What the shell has behind the shared memory. -/
  behind : Option Text
  /-- The capacity of a pipe. -/
  capacity : ℕ
  /-- What a sink does.  When there is no such program, it prints a message. -/
  programs : List Text → Prog

/-- A sink that was started, with the child of the shell that writes to it. -/
structure Sink where
  cmd : List Text
  prog : Prog
  exited : Bool
  printed : Text
  /-- What is in the pipe between the two. -/
  content : Text
  /-- What the child has still to write. -/
  unsent : Text
  /-- The child has ended. -/
  closed : Bool

/-- Where the shell is in `shellMsgQ` or `shellShm`. -/
inductive Pc
  | start
  /-- In `wait` for the child that reads what the source writes. -/
  | waitSource
  /-- In `msgrcv`, or at the second `shmat`. -/
  | receive
  /-- At the head of the loop over the sinks. -/
  | loop
  /-- In `wait` for the child that writes to the latest sink. -/
  | waitSink
  | returned
  deriving DecidableEq

/-- The state of the processes. -/
structure State where
  pc : Pc
  /-- The sinks that the shell has still to start. -/
  rest : List (List Text)
  sinks : List Sink
  /-- What the source has still to write. -/
  unwritten : Text
  sourceExited : Bool
  /-- What is in the pipe between the source and the child that reads from it. -/
  content : Text
  /-- The buffer of this child, and the bytes that the running `fread` has read. -/
  buffer : Text
  piece : Text
  readerEnded : Bool
  /-- What is in the queue, or the string that starts in the shared memory. -/
  stored : Option Text

/-- The buffer is not initialised. -/
def State.init (buffer out : Text) (outputs : List (List Text)) : State :=
  ⟨.start, outputs, [], out, false, [], buffer, [], false, none⟩

/-- Somebody goes on. -/
inductive Event
  | shell
  | source
  /-- The child that reads what the source writes. -/
  | reader
  /-- The child that writes to a sink. -/
  | writer (i : ℕ)
  | sink (i : ℕ)

/-- The size of the message for a text. -/
def msgsz (text : Text) : ℕ := 8 + text.length + 1

/-- What the first child leaves behind: `msgsnd` fails when the text is too long. -/
def deliver (cfg : Config) (text : Text) : Option Text :=
  match cfg.op with
  | .msgQ => if msgsz text ≤ cfg.msgmax then some text else none
  | .shm => some (shmText cfg.behind text)

/-- `fread` returns: there is a zero behind the bytes that were read. -/
def State.endPiece (s : State) (piece : Text) : State :=
  { s with piece := [], buffer := piece ++ '\x00' :: s.buffer.drop (piece.length + 1) }

def stepSource (cfg : Config) (s : State) : Option State :=
  if s.pc = .start ∨ s.sourceExited = true then none
  else
    match s.unwritten with
    | [] => some { s with sourceExited := true }
    | c :: rest =>
        if s.content.length < cfg.capacity then
          some { s with unwritten := rest, content := s.content ++ [c] }
        else none

/-- `fread` goes on, and returns when it has read 8191 bytes or nothing more will come. -/
def stepReader (cfg : Config) (s : State) : Option State :=
  if s.pc = .start ∨ s.readerEnded = true then none
  else
    match s.content with
    | c :: content =>
        let s := { s with content := content }
        if (s.piece ++ [c]).length = 8191 then some (s.endPiece (s.piece ++ [c]))
        else some { s with piece := s.piece ++ [c] }
    | [] =>
        if s.sourceExited = false then none
        else if s.piece = [] then
          some { s with readerEnded := true, stored := deliver cfg (cstr s.buffer) }
        else some (s.endPiece s.piece)

/-- The sink is started, and its child has the text to write. -/
def newSink (cfg : Config) (stored : Option Text) (cmd : List Text) : Sink :=
  ⟨cmd, cfg.programs cmd, false, [], [], stored.getD [], false⟩

/-- **`shellMsgQ` and `shellShm`** in the shell. -/
def stepShell (cfg : Config) (s : State) : Option State :=
  match s.pc with
  | .start => some { s with pc := .waitSource }
  | .waitSource => if s.readerEnded then some { s with pc := .receive } else none
  | .receive =>
      match cfg.op with
      | .msgQ => s.stored.map fun text =>
          if msgsz text ≤ 8192 then { s with pc := .loop } else { s with pc := .returned }
      | .shm => some { s with pc := .loop }
  | .loop =>
      match s.rest with
      | [] => some { s with pc := .returned }
      | cmd :: rest =>
          some
            { s with
              pc := .waitSink
              rest := rest
              sinks := s.sinks ++ [newSink cfg s.stored cmd] }
  | .waitSink => if ∀ q ∈ s.sinks.getLast?, q.closed = true then some { s with pc := .loop } else none
  | .returned => none

/-- The child writes the text, a byte at a time, and ends. -/
def stepWriter (cfg : Config) (q : Sink) : Option Sink :=
  if q.closed then none
  else
    match q.unsent with
    | [] => some { q with closed := true }
    | c :: unsent =>
        -- a signal ends it when the sink has ended
        if q.exited then some { q with closed := true }
        else if q.content.length < cfg.capacity then
          some { q with unsent := unsent, content := q.content ++ [c] }
        else none

def stepSink (q : Sink) : Option Sink :=
  if q.exited then none
  else
    match q.prog with
    | .exit => some { q with exited := true }
    | .write c next => some { q with prog := next, printed := q.printed ++ [c] }
    | .read next =>
        match q.content with
        | c :: content => some { q with prog := next (some c), content := content }
        | [] => if q.closed then some { q with prog := next none } else none

/-- One of the sinks, or its child, goes on. -/
def State.onSink (s : State) (i : ℕ) (f : Sink → Option Sink) : Option State :=
  (s.sinks[i]?.bind f).map fun q => { s with sinks := s.sinks.set i q }

/-- **The step of the system.** -/
def step (cfg : Config) (s : State) : Event → Option State
  | .shell => stepShell cfg s
  | .source => stepSource cfg s
  | .reader => stepReader cfg s
  | .writer i => s.onSink i (stepWriter cfg)
  | .sink i => s.onSink i stepSink

/-! ### What a step does -/

section Cases

variable {cfg : Config} {s t : State} {q r : Sink}

/-- The source ends, or writes a byte. -/
theorem stepSource_cases (h : stepSource cfg s = some t) :
    s.sourceExited = false ∧
      (s.unwritten = [] ∧ t = { s with sourceExited := true } ∨
        ∃ c rest, s.unwritten = c :: rest ∧
          t = { s with unwritten := rest, content := s.content ++ [c] }) := by
  rw [stepSource] at h
  by_cases hno : s.pc = .start ∨ s.sourceExited = true
  · rw [if_pos hno] at h
    cases h
  rw [if_neg hno] at h
  refine ⟨Bool.eq_false_of_not_eq_true (not_or.1 hno).2, ?_⟩
  split at h
  · next hnil => exact Or.inl ⟨hnil, (Option.some_inj.1 h).symm⟩
  · next c rest hcons =>
      split_ifs at h
      exact Or.inr ⟨c, rest, hcons, (Option.some_inj.1 h).symm⟩

/-- The first child reads a byte, with which `fread` may return, or finds that nothing more comes. -/
theorem stepReader_cases (h : stepReader cfg s = some t) :
    s.readerEnded = false ∧
      ((∃ c content, s.content = c :: content ∧
          ((s.piece ++ [c]).length = 8191 ∧
              t = { s with content := content }.endPiece (s.piece ++ [c]) ∨
            (s.piece ++ [c]).length ≠ 8191 ∧
              t = { s with content := content, piece := s.piece ++ [c] })) ∨
        s.content = [] ∧ s.sourceExited = true ∧
          (s.piece = [] ∧ t = { s with readerEnded := true, stored := deliver cfg (cstr s.buffer) } ∨
            s.piece ≠ [] ∧ t = s.endPiece s.piece)) := by
  rw [stepReader] at h
  by_cases hno : s.pc = .start ∨ s.readerEnded = true
  · rw [if_pos hno] at h
    cases h
  rw [if_neg hno] at h
  refine ⟨Bool.eq_false_of_not_eq_true (not_or.1 hno).2, ?_⟩
  split at h
  · next c content hcons =>
      refine Or.inl ⟨c, content, hcons, ?_⟩
      dsimp only at h
      split_ifs at h with hfull
      · exact Or.inl ⟨hfull, (Option.some_inj.1 h).symm⟩
      · exact Or.inr ⟨hfull, (Option.some_inj.1 h).symm⟩
  · next hnil =>
      split_ifs at h with hwait hpiece
      all_goals refine Or.inr ⟨hnil, Bool.eq_true_of_not_eq_false hwait, ?_⟩
      · exact Or.inl ⟨hpiece, (Option.some_inj.1 h).symm⟩
      · exact Or.inr ⟨hpiece, (Option.some_inj.1 h).symm⟩

/-- The child of a sink ends, because it has written all or since the sink has ended, or writes a byte. -/
theorem stepWriter_cases (h : stepWriter cfg q = some r) :
    q.closed = false ∧
      ((q.unsent = [] ∨ q.exited = true) ∧ r = { q with closed := true } ∨
        ∃ c unsent, q.unsent = c :: unsent ∧
          r = { q with unsent := unsent, content := q.content ++ [c] }) := by
  rw [stepWriter] at h
  by_cases hopen : q.closed = true
  · rw [if_pos hopen] at h
    cases h
  rw [if_neg hopen] at h
  refine ⟨Bool.eq_false_of_not_eq_true hopen, ?_⟩
  split at h
  · next hnil => exact Or.inl ⟨Or.inl hnil, (Option.some_inj.1 h).symm⟩
  · next c unsent hcons =>
      split_ifs at h with hexited
      · exact Or.inl ⟨Or.inr hexited, (Option.some_inj.1 h).symm⟩
      · exact Or.inr ⟨c, unsent, hcons, (Option.some_inj.1 h).symm⟩

/-- A sink ends, prints a byte, reads one, or reads that there are no more. -/
theorem stepSink_cases (h : stepSink q = some r) :
    q.exited = false ∧
      (q.prog = .exit ∧ r = { q with exited := true } ∨
        (∃ c next, q.prog = .write c next ∧
          r = { q with prog := next, printed := q.printed ++ [c] }) ∨
        (∃ next c content, q.prog = .read next ∧ q.content = c :: content ∧
          r = { q with prog := next (some c), content := content }) ∨
        ∃ next, q.prog = .read next ∧ q.content = [] ∧ q.closed = true ∧
          r = { q with prog := next none }) := by
  rw [stepSink] at h
  by_cases hrunning : q.exited = true
  · rw [if_pos hrunning] at h
    cases h
  rw [if_neg hrunning] at h
  refine ⟨Bool.eq_false_of_not_eq_true hrunning, ?_⟩
  split at h
  · next hprog => exact Or.inl ⟨hprog, (Option.some_inj.1 h).symm⟩
  · next c next hprog => exact Or.inr (Or.inl ⟨c, next, hprog, (Option.some_inj.1 h).symm⟩)
  · next next hprog =>
      split at h
      · next c content hcons =>
          exact Or.inr (Or.inr (Or.inl ⟨next, c, content, hprog, hcons, (Option.some_inj.1 h).symm⟩))
      · next hnil =>
          split_ifs at h with hend
          exact Or.inr (Or.inr (Or.inr ⟨next, hprog, hnil, hend, (Option.some_inj.1 h).symm⟩))

end Cases

/-! ### What is read and what is given -/

/-- The text that the first child has in its buffer in the end. -/
def text (buffer out : Text) : Text := cstr (freadLoop buffer out)

/-- What the sinks are given to read. -/
def given (cfg : Config) (buffer out : Text) : Text := (deliver cfg (text buffer out)).getD []

/-- The shell goes on to the sinks. -/
def Taken (cfg : Config) (text : Text) : Prop :=
  cfg.op = .msgQ → msgsz text ≤ cfg.msgmax ∧ msgsz text ≤ 8192

/-- The message does not fit into the buffer of the shell. -/
def Refused (cfg : Config) (text : Text) : Prop :=
  cfg.op = .msgQ ∧ msgsz text ≤ cfg.msgmax ∧ 8192 < msgsz text

/-- **The shell waits for a message that is never sent.** -/
def Hangs (cfg : Config) (text : Text) : Prop := cfg.op = .msgQ ∧ cfg.msgmax < msgsz text

/-! ### The child that reads -/

/-- **What the source and the first child have done**, and what is left of the loop that reads. -/
structure Reading (cfg : Config) (buffer out : Text) (s : State) : Prop where
  loop : freadLoop s.buffer (s.piece ++ s.content ++ s.unwritten) = freadLoop buffer out
  piece : s.piece.length < 8191
  source : s.sourceExited = true → s.unwritten = []
  ended : s.readerEnded = true → s.sourceExited = true ∧ s.content = [] ∧ s.piece = []
  stored : s.stored = if s.readerEnded then deliver cfg (text buffer out) else none

/-- A piece that is as long as the buffer allows. -/
theorem freadLoop_full (buffer rest : Text) {piece : Text} (h : piece.length = 8191) :
    freadLoop buffer (piece ++ rest) =
      freadLoop (piece ++ '\x00' :: buffer.drop (piece.length + 1)) rest := by
  have hne : piece ++ rest ≠ [] := by
    rintro hnil
    rw [(List.append_eq_nil_iff.1 hnil).1] at h
    cases h
  rw [freadLoop_of_ne_nil _ hne, List.take_left' h, List.drop_left' h]

section Reading

variable {cfg : Config} {buffer out : Text} {s t : State}

theorem reading_init (outputs : List (List Text)) :
    Reading cfg buffer out (.init buffer out outputs) where
  loop := rfl
  piece := Nat.zero_lt_succ _
  source h := by cases h
  ended h := by cases h
  stored := rfl

theorem Reading.source_step (hs : Reading cfg buffer out s) (h : stepSource cfg s = some t) :
    Reading cfg buffer out t := by
  obtain ⟨hrunning, ⟨hnil, rfl⟩ | ⟨c, rest, hcons, rfl⟩⟩ := stepSource_cases h
  · exact ⟨hs.loop, hs.piece, fun _ => hnil, fun he => ⟨rfl, (hs.ended he).2⟩, hs.stored⟩
  · have hnot : ¬ s.sourceExited = true := Bool.eq_false_iff.1 hrunning
    refine ⟨?_, hs.piece, fun he => absurd he hnot, fun he => absurd (hs.ended he).1 hnot, hs.stored⟩
    rw [← hs.loop, hcons]
    simp only [List.append_assoc, List.singleton_append]

theorem Reading.reader_step (hs : Reading cfg buffer out s) (h : stepReader cfg s = some t) :
    Reading cfg buffer out t := by
  obtain ⟨hrunning, hcases⟩ := stepReader_cases h
  have hnot : ¬ s.readerEnded = true := Bool.eq_false_iff.1 hrunning
  obtain ⟨c, content, hcons, hread⟩ | ⟨hnil, hexited, hend⟩ := hcases
  · have hloop : freadLoop s.buffer (s.piece ++ [c] ++ (content ++ s.unwritten)) =
        freadLoop buffer out := by
      rw [← hs.loop, hcons]
      simp only [List.append_assoc, List.cons_append, List.nil_append]
    obtain ⟨hfull, rfl⟩ | ⟨hfull, rfl⟩ := hread
    · refine ⟨?_, Nat.zero_lt_succ _, hs.source, fun he => absurd he hnot, hs.stored⟩
      rw [← hloop, freadLoop_full _ _ hfull]
      rfl
    · refine ⟨?_, ?_, hs.source, fun he => absurd he hnot, hs.stored⟩
      · rw [← hloop]
        simp only [List.append_assoc]
      · have hlt := hs.piece
        simp only [List.length_append, List.length_singleton] at hfull ⊢
        omega
  · have hrest : s.unwritten = [] := hs.source hexited
    obtain ⟨hpiece, rfl⟩ | ⟨hpiece, rfl⟩ := hend
    · -- nothing more comes: the buffer is what the loop leaves
      have hbuffer : s.buffer = freadLoop buffer out := by
        rw [← hs.loop, hpiece, hnil, hrest]
        exact (freadLoop_nil _).symm
      refine ⟨hs.loop, hs.piece, hs.source, fun _ => ⟨hexited, hnil, hpiece⟩, ?_⟩
      dsimp only
      rw [hbuffer]
      rfl
    · refine ⟨?_, Nat.zero_lt_succ _, hs.source, fun he => absurd he hnot, hs.stored⟩
      rw [← hs.loop]
      simp only [State.endPiece, hnil, hrest, List.append_nil, freadLoop_nil]
      exact (freadLoop_of_le _ hpiece hs.piece.le).symm

/-- The text is there when the child has ended. -/
theorem Reading.given_eq (hs : Reading cfg buffer out s) (h : s.readerEnded = true) :
    s.stored = deliver cfg (text buffer out) ∧ s.stored.getD [] = given cfg buffer out := by
  have hstored := hs.stored
  rw [if_pos h] at hstored
  exact ⟨hstored, congrArg (fun o => Option.getD o []) hstored⟩

end Reading

/-! ### A sink and the child that writes to it -/

/-- **What a sink has printed**, and what it has still to print when it reads the rest of the text. -/
structure Fed (cfg : Config) (text : Text) (q : Sink) : Prop where
  printed : q.printed ++ q.prog.output (q.content ++ q.unsent) = (cfg.programs q.cmd).output text
  exited : q.exited = true → q.prog = .exit
  closed : q.closed = true → q.unsent = [] ∨ q.exited = true

section Sink

variable {cfg : Config} {text : Text} {q r : Sink}

theorem fed_newSink {stored : Option Text} (h : stored.getD [] = text) (cmd : List Text) :
    Fed cfg text (newSink cfg stored cmd) where
  printed := by rw [← h]; rfl
  exited he := by cases he
  closed he := by cases he

theorem Fed.writer (hq : Fed cfg text q) (h : stepWriter cfg q = some r) :
    Fed cfg text r ∧ r.cmd = q.cmd := by
  obtain ⟨hopen, ⟨hend, rfl⟩ | ⟨c, unsent, hcons, rfl⟩⟩ := stepWriter_cases h
  · exact ⟨⟨hq.printed, hq.exited, fun _ => hend⟩, rfl⟩
  · refine ⟨⟨?_, hq.exited, fun he => absurd he (Bool.eq_false_iff.1 hopen)⟩, rfl⟩
    rw [← hq.printed, hcons]
    simp only [List.append_assoc, List.singleton_append]

theorem Fed.sink (hq : Fed cfg text q) (h : stepSink q = some r) :
    Fed cfg text r ∧ r.cmd = q.cmd ∧ r.closed = q.closed := by
  obtain ⟨hrunning, hcases⟩ := stepSink_cases h
  have hnot : ¬ q.exited = true := Bool.eq_false_iff.1 hrunning
  have hprinted := hq.printed
  obtain ⟨hprog, rfl⟩ | ⟨c, next, hprog, rfl⟩ | ⟨next, c, content, hprog, hcons, rfl⟩ |
    ⟨next, hprog, hnil, hend, rfl⟩ := hcases
  · refine ⟨⟨hprinted, fun _ => hprog, fun he => ?_⟩, rfl, rfl⟩
    exact Or.inl ((hq.closed he).resolve_right hnot)
  · refine ⟨⟨?_, fun he => absurd he hnot, hq.closed⟩, rfl, rfl⟩
    rw [← hprinted, hprog, Prog.output]
    exact (List.append_assoc ..).trans rfl
  · rw [hprog, hcons, List.cons_append, Prog.output] at hprinted
    exact ⟨⟨hprinted, fun he => absurd he hnot, hq.closed⟩, rfl, rfl⟩
  · have hunsent : q.unsent = [] := (hq.closed hend).resolve_right hnot
    rw [hprog, hnil, hunsent] at hprinted
    refine ⟨⟨?_, fun he => absurd he hnot, hq.closed⟩, rfl, rfl⟩
    rw [← hprinted]
    simp only [hnil, hunsent, List.append_nil, Prog.output]

/-- What a sink has printed is a beginning of what it prints. -/
theorem Fed.prefix_output (hq : Fed cfg text q) :
    q.printed <+: (cfg.programs q.cmd).output text ∧
      (q.exited = true → q.printed = (cfg.programs q.cmd).output text) := by
  refine ⟨⟨_, hq.printed⟩, fun he => ?_⟩
  rw [← hq.printed, hq.exited he, Prog.output, List.append_nil]

end Sink

/-! ### All of them -/

/-- **Where the shell is**: it has waited for the first child before it starts a sink, and for the child
of a sink before it starts the next one. -/
inductive Phase (cfg : Config) (text : Text) : Pc → Bool → List (List Text) → List Sink → Prop
  | start {ended : Bool} {rest : List (List Text)} : Phase cfg text .start ended rest []
  | waitSource {ended : Bool} {rest : List (List Text)} : Phase cfg text .waitSource ended rest []
  | receive {rest : List (List Text)} : Phase cfg text .receive true rest []
  | loop {rest : List (List Text)} {sinks : List Sink} (htaken : Taken cfg text)
      (hclosed : ∀ q ∈ sinks, q.closed = true) : Phase cfg text .loop true rest sinks
  | waitSink {rest : List (List Text)} {sinks : List Sink} {q : Sink} (htaken : Taken cfg text)
      (hclosed : ∀ q ∈ sinks, q.closed = true) : Phase cfg text .waitSink true rest (sinks ++ [q])
  | returned {sinks : List Sink} (htaken : Taken cfg text) (hclosed : ∀ q ∈ sinks, q.closed = true) :
      Phase cfg text .returned true [] sinks
  | refused {rest : List (List Text)} (hrefused : Refused cfg text) :
      Phase cfg text .returned true rest []

/-- **The invariant.** -/
structure Inv (cfg : Config) (buffer out : Text) (outputs : List (List Text)) (s : State) : Prop where
  reading : Reading cfg buffer out s
  fed : ∀ q ∈ s.sinks, Fed cfg (given cfg buffer out) q
  cmds : s.sinks.map Sink.cmd ++ s.rest = outputs
  phase : Phase cfg (text buffer out) s.pc s.readerEnded s.rest s.sinks

theorem inv_init (cfg : Config) (buffer out : Text) (outputs : List (List Text)) :
    Inv cfg buffer out outputs (.init buffer out outputs) where
  reading := reading_init outputs
  fed q hq := by cases hq
  cmds := rfl
  phase := Phase.start

/-- A step of the source or of the first child changes nothing for the shell. -/
structure Same (s t : State) : Prop where
  pc : t.pc = s.pc
  rest : t.rest = s.rest
  sinks : t.sinks = s.sinks
  ended : s.readerEnded = true → t.readerEnded = true

section Steps

variable {cfg : Config} {buffer out : Text} {outputs : List (List Text)} {s t : State}

theorem same_of_stepSource (h : stepSource cfg s = some t) : Same s t := by
  obtain ⟨-, ⟨-, rfl⟩ | ⟨c, rest, -, rfl⟩⟩ := stepSource_cases h
  · exact ⟨rfl, rfl, rfl, id⟩
  · exact ⟨rfl, rfl, rfl, id⟩

theorem same_of_stepReader (h : stepReader cfg s = some t) : Same s t := by
  obtain ⟨-, ⟨c, content, -, ⟨-, rfl⟩ | ⟨-, rfl⟩⟩ | ⟨-, -, ⟨-, rfl⟩ | ⟨-, rfl⟩⟩⟩ :=
    stepReader_cases h
  · exact ⟨rfl, rfl, rfl, id⟩
  · exact ⟨rfl, rfl, rfl, id⟩
  · exact ⟨rfl, rfl, rfl, fun _ => rfl⟩
  · exact ⟨rfl, rfl, rfl, id⟩

theorem Phase.ended_mono {text : Text} {pc : Pc} {ended ended' : Bool} {rest : List (List Text)}
    {sinks : List Sink} (h : Phase cfg text pc ended rest sinks)
    (hmono : ended = true → ended' = true) :
    Phase cfg text pc ended' rest sinks := by
  cases h with
  | start => exact .start
  | waitSource => exact .waitSource
  | receive => rw [hmono rfl]; exact .receive
  | loop htaken hclosed => rw [hmono rfl]; exact .loop htaken hclosed
  | waitSink htaken hclosed => rw [hmono rfl]; exact .waitSink htaken hclosed
  | returned htaken hclosed => rw [hmono rfl]; exact .returned htaken hclosed
  | refused hrefused => rw [hmono rfl]; exact .refused hrefused

theorem Inv.same (hs : Inv cfg buffer out outputs s) (hst : Same s t)
    (ht : Reading cfg buffer out t) : Inv cfg buffer out outputs t where
  reading := ht
  fed := hst.sinks ▸ hs.fed
  cmds := by
    rw [hst.sinks, hst.rest]
    exact hs.cmds
  phase := by
    rw [hst.pc, hst.rest, hst.sinks]
    exact hs.phase.ended_mono hst.ended

theorem forall_mem_set {sinks : List Sink} {r : Sink} (h : ∀ q ∈ sinks, q.closed = true)
    (hr : r.closed = true) (i : ℕ) : ∀ q ∈ sinks.set i r, q.closed = true := by
  intro q hq
  rcases List.mem_or_eq_of_mem_set hq with hq | rfl
  · exact h q hq
  · exact hr

/-- A sink goes on, and its child stays ended if it has. -/
theorem Phase.set {text : Text} {pc : Pc} {ended : Bool} {rest : List (List Text)} {sinks : List Sink}
    (h : Phase cfg text pc ended rest sinks) {i : ℕ} {q r : Sink} (hq : sinks[i]? = some q)
    (hr : q.closed = true → r.closed = true) : Phase cfg text pc ended rest (sinks.set i r) := by
  have hmem : q ∈ sinks := List.mem_of_getElem? hq
  cases h with
  | start => exact .start
  | waitSource => exact .waitSource
  | receive => exact .receive
  | loop htaken hclosed => exact .loop htaken (forall_mem_set hclosed (hr (hclosed q hmem)) i)
  | @waitSink rest sinks last htaken hclosed =>
      rw [List.set_append]
      split_ifs with hlt
      · rw [List.getElem?_append_left hlt] at hq
        exact .waitSink htaken
          (forall_mem_set hclosed (hr (hclosed q (List.mem_of_getElem? hq))) i)
      · obtain ⟨hlast, -⟩ := List.getElem?_eq_some_iff.1 hq
        rw [List.length_append, List.length_singleton] at hlast
        rw [show i - sinks.length = 0 by omega]
        exact .waitSink htaken hclosed
  | returned htaken hclosed => exact .returned htaken (forall_mem_set hclosed (hr (hclosed q hmem)) i)
  | refused hrefused => exact .refused hrefused

/-- The shell and the sinks do not touch what the first child has read. -/
theorem Reading.shell (h : Reading cfg buffer out s) (pc : Pc) (rest : List (List Text))
    (sinks : List Sink) : Reading cfg buffer out { s with pc := pc, rest := rest, sinks := sinks } :=
  ⟨h.loop, h.piece, h.source, h.ended, h.stored⟩

/-- A step of a sink or of the child that writes to it. -/
theorem Inv.onSink {f : Sink → Option Sink} (hs : Inv cfg buffer out outputs s)
    (hf : ∀ q r, Fed cfg (given cfg buffer out) q → f q = some r →
      Fed cfg (given cfg buffer out) r ∧ r.cmd = q.cmd ∧ (q.closed = true → r.closed = true))
    {i : ℕ} (h : s.onSink i f = some t) : Inv cfg buffer out outputs t := by
  obtain ⟨r, hr, rfl⟩ := Option.map_eq_some_iff.1 h
  obtain ⟨q, hget, hfq⟩ := Option.bind_eq_some_iff.1 hr
  obtain ⟨hfed, hcmd, hclosed⟩ := hf q r (hs.fed q (List.mem_of_getElem? hget)) hfq
  obtain ⟨hlt, hat⟩ := List.getElem?_eq_some_iff.1 hget
  refine ⟨hs.reading.shell _ _ _, ?_, ?_, hs.phase.set hget hclosed⟩
  · intro x hx
    rcases List.mem_or_eq_of_mem_set hx with hx | rfl
    · exact hs.fed x hx
    · exact hfed
  · have hsame : (s.sinks.map Sink.cmd).set i r.cmd = s.sinks.map Sink.cmd := by
      rw [hcmd, ← hat, ← List.getElem_map Sink.cmd (h := by simpa using hlt)]
      exact List.set_getElem_self _
    dsimp only
    rw [List.map_set, hsame]
    exact hs.cmds

theorem deliver_msgQ (hop : cfg.op = .msgQ) (text : Text) :
    deliver cfg text = if msgsz text ≤ cfg.msgmax then some text else none := by
  rw [deliver, hop]

theorem deliver_shm (hop : cfg.op = .shm) (text : Text) :
    deliver cfg text = some (shmText cfg.behind text) := by
  rw [deliver, hop]

/-- **A step of the shell.** -/
theorem Inv.shell (hs : Inv cfg buffer out outputs s) (h : stepShell cfg s = some t) :
    Inv cfg buffer out outputs t := by
  obtain ⟨pc, rest, sinks, unwritten, sourceExited, content, buf, piece, ended, stored⟩ := s
  obtain ⟨hreading, hfed, hcmds, hphase⟩ := hs
  dsimp only at hfed hcmds hphase
  cases hphase with
  | start =>
      obtain rfl := Option.some_inj.1 h
      exact ⟨hreading.shell _ _ _, hfed, hcmds, .waitSource⟩
  | waitSource =>
      dsimp only [stepShell] at h
      split_ifs at h with hended
      obtain rfl := Option.some_inj.1 h
      refine ⟨hreading.shell _ _ _, hfed, hcmds, ?_⟩
      rw [show ended = true from hended]
      exact .receive
  | receive =>
      have hstored : stored = deliver cfg (text buffer out) := (hreading.given_eq rfl).1
      dsimp only [stepShell] at h
      split at h
      · next hop =>
          obtain ⟨msg, hmsg, ht⟩ := Option.map_eq_some_iff.1 h
          rw [hmsg, deliver_msgQ hop] at hstored
          split_ifs at hstored with hmax
          obtain rfl := Option.some_inj.1 hstored
          split_ifs at ht with hfits
          · obtain rfl := ht
            exact ⟨hreading.shell _ _ _, hfed, hcmds,
              .loop (fun _ => ⟨hmax, hfits⟩) (List.forall_mem_nil _)⟩
          · obtain rfl := ht
            exact ⟨hreading.shell _ _ _, hfed, hcmds,
              .refused ⟨hop, hmax, Nat.lt_of_not_le hfits⟩⟩
      · next hop =>
          obtain rfl := Option.some_inj.1 h
          refine ⟨hreading.shell _ _ _, hfed, hcmds, .loop (fun hmsgQ => ?_) (List.forall_mem_nil _)⟩
          rw [hop] at hmsgQ
          cases hmsgQ
  | loop htaken hclosed =>
      cases rest with
      | nil =>
          obtain rfl := Option.some_inj.1 h
          exact ⟨hreading.shell _ _ _, hfed, hcmds, .returned htaken hclosed⟩
      | cons cmd rest =>
          obtain rfl := Option.some_inj.1 h
          refine ⟨hreading.shell _ _ _, ?_, ?_, .waitSink htaken hclosed⟩
          · intro q hq
            rcases List.mem_append.1 hq with hq | hq
            · exact hfed q hq
            · rw [List.mem_singleton.1 hq]
              exact fed_newSink (hreading.given_eq rfl).2 cmd
          · dsimp only
            rw [List.map_append, ← hcmds, List.append_assoc]
            rfl
  | @waitSink rest sinks q htaken hclosed =>
      dsimp only [stepShell] at h
      split_ifs at h with hlast
      obtain rfl := Option.some_inj.1 h
      refine ⟨hreading.shell _ _ _, hfed, hcmds, .loop htaken ?_⟩
      intro x hx
      rcases List.mem_append.1 hx with hx | hx
      · exact hclosed x hx
      · rw [List.mem_singleton.1 hx]
        exact hlast q (by rw [List.getLast?_concat]; rfl)
  | returned => cases h
  | refused => cases h

/-- **The step lemma.** -/
theorem inv_step (s : State) (e : Event) (t : State) (hs : Inv cfg buffer out outputs s)
    (h : step cfg s e = some t) : Inv cfg buffer out outputs t := by
  cases e with
  | shell => exact hs.shell h
  | source => exact hs.same (same_of_stepSource h) (hs.reading.source_step h)
  | reader => exact hs.same (same_of_stepReader h) (hs.reading.reader_step h)
  | writer i =>
      refine hs.onSink (fun q r hq hr => ?_) h
      obtain ⟨hfed, hcmd⟩ := hq.writer hr
      exact ⟨hfed, hcmd, fun hclosed => absurd hclosed (Bool.eq_false_iff.1 (stepWriter_cases hr).1)⟩
  | sink i =>
      refine hs.onSink (fun q r hq hr => ?_) h
      obtain ⟨hfed, hcmd, hclosed⟩ := hq.sink hr
      exact ⟨hfed, hcmd, fun h => hclosed.trans h⟩

theorem inv_of_run {es : List Event}
    (hrun : run (step cfg) (.init buffer out outputs) es = some s) : Inv cfg buffer out outputs s :=
  run_invariant inv_step (inv_init cfg buffer out outputs) hrun

end Steps

/-! ### What the sinks print -/

/-- What the sinks read when nothing runs at the same time. -/
def handed (cfg : Config) (buffer segment out : Text) (outputs : List (List Text)) :
    List (List Text × Text) :=
  match cfg.op with
  | .msgQ => shellMsgQ .ended buffer out outputs
  | .shm => shellShm .ended buffer segment cfg.behind out outputs

section Handed

variable {cfg : Config} {buffer out : Text}

theorem length_text_le_iff : (text buffer out).length ≤ 8183 ↔ msgsz (text buffer out) ≤ 8192 := by
  rw [msgsz]
  omega

/-- The sinks are all handed the text that was delivered. -/
theorem handed_of_taken {segment : Text} (hsegment : segment.length = 4096)
    (outputs : List (List Text)) (htaken : Taken cfg (text buffer out)) :
    handed cfg buffer segment out outputs = outputs.map fun cmd => (cmd, given cfg buffer out) := by
  unfold handed given
  cases hop : cfg.op with
  | msgQ =>
      obtain ⟨hmax, hfits⟩ := htaken hop
      rw [deliver_msgQ hop, if_pos hmax, shellMsgQ_ended]
      exact if_pos (length_text_le_iff.2 hfits)
  | shm =>
      rw [deliver_shm hop]
      exact shellShm_ended buffer hsegment cfg.behind out outputs

/-- No sink is started for a message that the shell cannot receive. -/
theorem handed_of_refused (segment : Text) (outputs : List (List Text))
    (hrefused : Refused cfg (text buffer out)) : handed cfg buffer segment out outputs = [] := by
  obtain ⟨hop, -, hlong⟩ := hrefused
  rw [handed, hop]
  dsimp only
  rw [shellMsgQ_ended]
  exact if_neg fun hle => absurd (length_text_le_iff.1 hle) (Nat.not_le.2 hlong)

end Handed

/-- **What the sinks print**, in every run: each of them has printed a beginning of what its program
prints when it reads the text, and all of it when it has ended.  When the shell has returned, the sinks
are those of the line, and what they read is what they read when nothing runs at the same time. -/
theorem fanOut_of_run {cfg : Config} {buffer out : Text} {outputs : List (List Text)} {es : List Event}
    {s : State} (hrun : run (step cfg) (.init buffer out outputs) es = some s) :
    s.sinks.map Sink.cmd <+: outputs ∧
      (∀ q ∈ s.sinks, q.printed <+: (cfg.programs q.cmd).output (given cfg buffer out) ∧
        (q.exited = true → q.printed = (cfg.programs q.cmd).output (given cfg buffer out))) ∧
      (s.pc = .returned → ∀ segment, segment.length = 4096 →
        s.sinks.map (fun q => (q.cmd, given cfg buffer out)) =
          handed cfg buffer segment out outputs) := by
  have hs := inv_of_run hrun
  refine ⟨⟨s.rest, hs.cmds⟩, fun q hq => (hs.fed q hq).prefix_output, ?_⟩
  intro hpc segment hsegment
  have hphase := hs.phase
  have hcmds := hs.cmds
  rw [hpc] at hphase
  generalize hrest : s.rest = rest at hphase hcmds
  generalize hsinks : s.sinks = sinks at hphase hcmds
  generalize s.readerEnded = ended at hphase
  cases hphase with
  | returned htaken hclosed =>
      rw [handed_of_taken hsegment outputs htaken, ← hcmds, List.append_nil, List.map_map]
      rfl
  | refused hrefused => exact (handed_of_refused segment outputs hrefused).symm

/-! ### A fan-out of two sinks -/

/-- A text that the first child reads in one piece. -/
theorem text_of_short {buffer out : Text} (hne : out ≠ []) (hnul : '\x00' ∉ out)
    (hle : out.length ≤ 8191) : text buffer out = out :=
  (cstr_freadLoop_eq_iff hne).2 ⟨hnul, hle⟩

/-- A short text is given to the sinks as it is. -/
theorem given_of_short {cfg : Config} {buffer out : Text} (hne : out ≠ []) (hnul : '\x00' ∉ out)
    (hle : out.length ≤ 4095) (hmax : msgsz out ≤ cfg.msgmax) : given cfg buffer out = out := by
  rw [given, text_of_short hne hnul (by omega)]
  cases hop : cfg.op with
  | msgQ => rw [deliver_msgQ hop, if_pos hmax]; rfl
  | shm => rw [deliver_shm hop, shmText_of_le hle]; rfl

/-- Every sink prints the first byte that it reads. -/
def headConfig : Config := ⟨.msgQ, 8192, none, 1, fun _ => ShellPipeline.copiesOne⟩

/-- Two sinks read the output `ab`.  The first of them ends before it has read all. -/
def headRun : List Event :=
  [.shell, .source, .reader, .source, .reader, .source, .reader, .reader, .shell, .shell, .shell,
    .writer 0, .sink 0, .sink 0, .sink 0, .writer 0, .shell, .shell, .writer 1, .sink 1, .writer 1,
    .writer 1, .shell, .shell, .sink 1, .sink 1]

def headInit : State := .init [] "ab".toList [["head".toList], ["sort".toList]]

/-- The state after these steps. -/
def headState : State := (run (step headConfig) headInit headRun).get (by decide)

theorem fanOut_of_run_head :
    headState.pc = .returned ∧ headState.sinks.length = 2 ∧
      ∀ q ∈ headState.sinks, q.printed = ['a'] := by
  obtain ⟨-, hprinted, -⟩ := fanOut_of_run
    (show run (step headConfig) headInit headRun = some headState from (Option.some_get _).symm)
  have hexited : ∀ q ∈ headState.sinks, q.exited = true := by decide
  rw [given_of_short (by decide) (by decide) (by decide) (by decide)] at hprinted
  exact ⟨rfl, rfl, fun q hq => (hprinted q hq).2 (hexited q hq)⟩

end ShellFanOut
