/-
**Sniffer: the two threads.**

The loop of `main` and the loop of `ThreadEntry` run at the same time.  Each has a buffer of its own; the
counters and the log are shared, and changed only under the mutex.  So, in whatever order the two get the
mutex and however their steps mix, the log is made of whole entries in the order of the locks, and the
counters agree with each other in every line that is shown.

The log is opened by `main` after the thread was created, and not under the mutex.  A thread that gets
there first writes to no file.

Main definitions:

* `Sniffer.actions` — what a thread does while it holds the mutex;
* `Sniffer.State`, `Sniffer.step` — both threads, and a step of one of them;
* `Sniffer.Turn` — a thread, and the buffer that it processes;
* `Sniffer.locks` — the threads in the order in which they get the mutex;
* `Sniffer.Logged` — the shared data after some turns.

Main results:

* `Sniffer.perform_actions` — what a thread does under the mutex is a turn of its loop;
* `Sniffer.logged_step` — a step keeps the shared data;
* `Sniffer.log_of_run` — **the log and the counters in every run**.
-/

import NetworkProgramming.Mutex
import NetworkProgramming.Runs
import NetworkProgramming.SnifferFrames

set_option relaxedAutoImplicit false
set_option autoImplicit false

namespace Sniffer

open Runs Mutex

/-! ### The threads -/

/-- The two threads. -/
inductive Who
  | main
  | thread
  deriving DecidableEq

/-- A change of the shared data. -/
inductive Action
  /-- `++total` -/
  | total
  /-- `++tcp` and so on. -/
  | proto (p : Proto)
  /-- Calls of `fprintf` to the log. -/
  | log (text : Text)
  /-- The line with the counters. -/
  | status

/-- The shared data: the counters, the log, and the counters that were shown. -/
structure Shared where
  counters : Counters
  log : Text
  lines : List Counters

/-- One more packet of the protocol. -/
def Counters.bump (c : Counters) : Proto → Counters
  | .icmp => { c with icmp := c.icmp + 1 }
  | .igmp => { c with igmp := c.igmp + 1 }
  | .tcp => { c with tcp := c.tcp + 1 }
  | .udp => { c with udp := c.udp + 1 }
  | .others => { c with others := c.others + 1 }

/-- An action, when the log is open. -/
def act (s : Shared) : Action → Shared
  | .total => { s with counters := { s.counters with total := s.counters.total + 1 } }
  | .proto p => { s with counters := s.counters.bump p }
  | .log text => { s with log := s.log ++ text }
  | .status => { s with lines := s.lines ++ [s.counters] }

/-- The `switch` of `process_packet`. -/
def switchActions (buffer : Bytes) : List Action :=
  match protoOf (buffer 9) with
  | .icmp => [.proto .icmp, .log (printIcmpPacket buffer)]
  | .igmp => [.log (printIpHeader buffer), .proto .igmp]
  | .tcp => [.proto .tcp, .log (printTcpPacket buffer)]
  | .udp => [.proto .udp, .log (printUdpPacket buffer)]
  | .others => [.log (printIpHeader buffer), .proto .others]

/-- What a thread does before it shows the counters. -/
def counting (w : Who) (buffer : Bytes) : List Action :=
  match w with
  | .main => .total :: switchActions buffer
  | .thread => .log (printEthernetHeader buffer) :: .total :: switchActions buffer

/-- **What a thread does while it holds the mutex.** -/
def actions (w : Who) (buffer : Bytes) : List Action := counting w buffer ++ [.status]

/-- Where a thread is. -/
inductive Pc
  /-- `main` has not opened the log. -/
  | opening
  /-- The socket is not made yet. -/
  | starting
  | receiving
  /-- A packet is in the buffer. -/
  | received
  | locked
  deriving DecidableEq

/-- How the program has ended. -/
inductive End
  | exited
  /-- A write to the log when it is not open. -/
  | crashed
  deriving DecidableEq

/-- The two threads. -/
structure State where
  pc : Who → Pc
  buffer : Who → Bytes
  /-- `logfile` is not `NULL`. -/
  opened : Bool
  mutex : Mutex.State Who Shared Action
  ended : Option End

def init (buffer : Who → Bytes) : State where
  pc w := match w with
    | .main => .opening
    | .thread => .starting
  buffer := buffer
  opened := false
  mutex := ⟨⟨⟨0, 0, 0, 0, 0, 0⟩, [], []⟩, none⟩
  ended := none

/-- A step of a thread. -/
inductive Event
  /-- `fopen` -/
  | fopen (ok : Bool)
  /-- `socket` -/
  | socket (w : Who) (ok : Bool)
  /-- `recvfrom`; `none` is an error. -/
  | receive (w : Who) (packet : Option (List UInt8))
  | lock (w : Who)
  | act (w : Who)
  | unlock (w : Who)

/-- The thread comes to another place. -/
def State.goto (s : State) (w : Who) (pc : Pc) : State := { s with pc := Function.update s.pc w pc }

@[simp] theorem goto_pc_self (s : State) (w : Who) (pc : Pc) : (s.goto w pc).pc w = pc :=
  Function.update_self (β := fun _ => Pc) w pc s.pc

theorem goto_pc_of_ne (s : State) {v w : Who} (hv : v ≠ w) (pc : Pc) :
    (s.goto w pc).pc v = s.pc v :=
  Function.update_of_ne (β := fun _ => Pc) hv pc s.pc

/-- A step under the mutex. -/
def State.withMutex (s : State) (e : Mutex.Event Who Action) : Option State :=
  (Mutex.step act s.mutex e).map fun m => { s with mutex := m }

/-- The next action of the thread that holds the mutex is one on the log. -/
def writesLog (m : Mutex.State Who Shared Action) : Bool :=
  match m.holder with
  | some (_, .log _ :: _) => true
  | _ => false

/-- **A step.** -/
def step (s : State) (e : Event) : Option State :=
  if s.ended ≠ none then none
  else match e with
  | .fopen ok =>
      if s.pc .main = .opening then some { s.goto .main .starting with opened := ok } else none
  | .socket w ok =>
      if s.pc w = .starting then
        if ok then some (s.goto w .receiving) else some { s with ended := some .exited }
      else none
  | .receive w packet =>
      if s.pc w = .receiving then
        match packet with
        | none => if w = .main then some { s with ended := some .exited } else some s
        | some p =>
            some { s.goto w .received with
              buffer := Function.update s.buffer w (recvfrom p (s.buffer w)) }
      else none
  | .lock w =>
      if s.pc w = .received then (s.goto w .locked).withMutex (.lock w (actions w (s.buffer w)))
      else none
  | .act w =>
      if writesLog s.mutex = true ∧ s.opened = false ∧ s.mutex.holder.map Prod.fst = some w then
        some { s with ended := some .crashed }
      else s.withMutex (.act w)
  | .unlock w => (s.goto w .receiving).withMutex (.unlock w)

/-! ### Turns -/

/-- A turn of a thread, and the buffer that it processes. -/
structure Turn where
  who : Who
  buffer : Bytes

def Turn.actions (t : Turn) : List Action := Sniffer.actions t.who t.buffer

/-- What is written to the log in a turn. -/
def Turn.text (t : Turn) : Text :=
  (match t.who with
    | .main => []
    | .thread => printEthernetHeader t.buffer) ++ logText t.buffer

def Turn.proto (t : Turn) : Proto := protoOf (t.buffer 9)

theorem mainTurn_eq (c : Counters) (old : Bytes) (packet : List UInt8) :
    mainTurn c old packet =
      (c.count (Turn.proto ⟨.main, recvfrom packet old⟩), Turn.text ⟨.main, recvfrom packet old⟩) := rfl

theorem threadTurn_eq (c : Counters) (old : Bytes) (frame : List UInt8) :
    threadTurn c old frame =
      (c.count (Turn.proto ⟨.thread, recvfrom frame old⟩), Turn.text ⟨.thread, recvfrom frame old⟩) :=
  rfl

/-- The counters agree with each other. -/
def Counters.Balanced (c : Counters) : Prop := c.total = c.tcp + c.udp + c.icmp + c.igmp + c.others

theorem Counters.Balanced.count {c : Counters} (h : c.Balanced) (p : Proto) : (c.count p).Balanced := by
  cases p <;> simp only [Counters.Balanced, Counters.count] at h ⊢ <;> omega

@[simp] theorem Counters.count_total (c : Counters) (p : Proto) : (c.count p).total = c.total + 1 := by
  cases p <;> rfl

theorem perform_append {s : Shared} (l m : List Action) :
    perform act s (l ++ m) = perform act (perform act s l) m := List.foldl_append

/-- The packet is counted and logged. -/
theorem perform_counting (s : Shared) (t : Turn) :
    perform act s (counting t.who t.buffer) =
      { s with counters := s.counters.count t.proto, log := s.log ++ t.text } := by
  obtain ⟨who, buffer⟩ := t
  have hswitch : ∀ s : Shared, perform act s (.total :: switchActions buffer) =
      { s with
        counters := s.counters.count (protoOf (buffer 9))
        log := s.log ++ logText buffer } := by
    intro s
    unfold switchActions logText
    cases protoOf (buffer 9) <;> rfl
  cases who with
  | main => exact hswitch s
  | thread =>
      refine (hswitch (act s (.log (printEthernetHeader buffer)))).trans ?_
      simp only [act, Turn.text, Turn.proto, List.append_assoc]

/-- **What a thread does under the mutex is a turn of its loop.** -/
theorem perform_actions (s : Shared) (t : Turn) :
    perform act s t.actions =
      { counters := s.counters.count t.proto
        log := s.log ++ t.text
        lines := s.lines ++ [s.counters.count t.proto] } := by
  rw [Turn.actions, actions, perform_append, perform_counting]
  rfl

/-- Before that the counters are not shown. -/
theorem lines_of_counting (s : Shared) (t : Turn) {done : List Action}
    (h : done <+: counting t.who t.buffer) : (perform act s done).lines = s.lines := by
  have hcounting : ∀ a ∈ counting t.who t.buffer, ∀ s : Shared, (act s a).lines = s.lines := by
    unfold counting switchActions
    cases t.who <;> cases protoOf (t.buffer 9) <;> simp [act]
  have hdone : ∀ a ∈ done, ∀ s : Shared, (act s a).lines = s.lines :=
    fun a ha => hcounting a (h.subset ha)
  clear h hcounting
  induction done generalizing s with
  | nil => rfl
  | cons a done ih =>
      refine (ih (act s a) fun b hb => hdone b (List.mem_cons_of_mem _ hb)).trans ?_
      exact hdone a (List.mem_cons_self ..) s

/-- The shared data after some turns. -/
theorem foldl_turns (turns : List Turn) (s : Shared) :
    (turns.map Turn.actions).foldl (perform act) s =
      { counters := turns.foldl (fun c t => c.count t.proto) s.counters
        log := s.log ++ turns.flatMap Turn.text
        lines := ((turns.map Turn.actions).foldl (perform act) s).lines } := by
  induction turns generalizing s with
  | nil => simp
  | cons t turns ih =>
      rw [List.map_cons, List.foldl_cons, List.foldl_cons, List.flatMap_cons, ih, perform_actions]
      simp only [List.append_assoc]

/-- The counters in all lines agree with each other. -/
theorem balanced_turns (turns : List Turn) {s : Shared} (h : s.counters.Balanced)
    (hlines : ∀ c ∈ s.lines, c.Balanced) :
    ((turns.map Turn.actions).foldl (perform act) s).counters.Balanced ∧
      ∀ c ∈ ((turns.map Turn.actions).foldl (perform act) s).lines, c.Balanced := by
  induction turns generalizing s with
  | nil => exact ⟨h, hlines⟩
  | cons t turns ih =>
      rw [List.map_cons, List.foldl_cons, perform_actions]
      refine ih (h.count t.proto) ?_
      intro c hc
      rcases List.mem_append.1 hc with hc | hc
      · exact hlines c hc
      · rw [List.mem_singleton.1 hc]
        exact h.count t.proto

theorem total_turns (turns : List Turn) (c : Counters) :
    (turns.foldl (fun c t => c.count t.proto) c).total = c.total + turns.length := by
  induction turns generalizing c with
  | nil => rfl
  | cons t turns ih =>
      rw [List.foldl_cons, ih, Counters.count_total, List.length_cons]
      omega

/-! ### Runs -/

/-- The packets that a thread has received and not begun to process. -/
def State.pending (s : State) (w : Who) : List Bytes := if s.pc w = .received then [s.buffer w] else []

/-- The contents of the buffer of a thread after each packet that it receives. -/
def receives (w : Who) : Bytes → List Event → List Bytes
  | _, [] => []
  | old, .receive v (some p) :: es =>
      if v = w then recvfrom p old :: receives w (recvfrom p old) es else receives w old es
  | old, _ :: es => receives w old es

/-- The threads that get the mutex, in this order. -/
def locks (es : List Event) : List Who :=
  es.filterMap fun
    | .lock w => some w
    | _ => none

/-- The turn that begins with a step. -/
def turnOf (s : State) : Event → List Turn
  | .lock w => [⟨w, s.buffer w⟩]
  | _ => []

/-- **The shared data after some turns**; the last one may not be over yet. -/
structure Logged (turns : List Turn) (s : State) : Prop where
  serial : Serial act ⟨⟨0, 0, 0, 0, 0, 0⟩, [], []⟩ (turns.map Turn.actions) s.mutex
  locked : ∀ w todo, s.mutex.holder = some (w, todo) → s.pc w = .locked
  crashed : s.ended = some .crashed → s.opened = false

theorem logged_init (buffer : Who → Bytes) : Logged [] (init buffer) := by
  refine ⟨serial_init _ _, ?_, ?_⟩
  · intro w todo h
    cases h
  · intro h
    cases h

section Step

variable {turns : List Turn} {s t : State}

/-- A step that does not touch the mutex. -/
theorem Logged.of_same (h : Logged turns s) (hmutex : t.mutex = s.mutex)
    (hpc : ∀ w, s.pc w = .locked → t.pc w = .locked) (hended : t.ended ≠ some .crashed) :
    Logged turns t := by
  refine ⟨?_, ?_, fun hcrashed => absurd hcrashed hended⟩
  · rw [hmutex]
    exact h.serial
  · intro w todo hholder
    exact hpc w (h.locked w todo (hmutex ▸ hholder))

theorem goto_of_locked {w : Who} {pc : Pc} (hw : s.pc w ≠ .locked) (v : Who)
    (hv : s.pc v = .locked) : (s.goto w pc).pc v = .locked := by
  have hne : v ≠ w := by
    rintro rfl
    exact hw hv
  rw [goto_pc_of_ne s hne, hv]

/-- A thread takes the mutex. -/
theorem Logged.lock (h : Logged turns s) (hended : s.ended = none) {w : Who}
    (hstep : (s.goto w .locked).withMutex (.lock w (actions w (s.buffer w))) = some t) :
    Logged (turns ++ [⟨w, s.buffer w⟩]) t := by
  obtain ⟨m, hm, rfl⟩ := Option.map_eq_some_iff.1 hstep
  refine ⟨?_, ?_, ?_⟩
  · rw [List.map_append]
    exact serial_step h.serial hm
  · intro v todo hholder
    have hw : v = w := by
      simp only [Mutex.step, State.goto] at hm
      split at hm
      · cases hm
        exact (congrArg Prod.fst (Option.some_inj.1 hholder)).symm
      · cases hm
    subst hw
    exact goto_pc_self s v .locked
  · intro hcrashed
    exact absurd (hended.symm.trans hcrashed) (by simp)

/-- The thread with the mutex does its next action. -/
theorem Logged.act (h : Logged turns s) (hended : s.ended = none) {w : Who}
    (hstep : s.withMutex (.act w) = some t) : Logged turns t := by
  obtain ⟨m, hm, rfl⟩ := Option.map_eq_some_iff.1 hstep
  refine ⟨?_, ?_, ?_⟩
  · have hserial := serial_step h.serial hm
    rwa [show (Mutex.Event.act w : Mutex.Event Who Action).begins = [] from rfl,
      List.append_nil] at hserial
  · intro v todo hholder
    simp only [Mutex.step] at hm
    split at hm
    · rename_i j a todo' hold
      split_ifs at hm
      cases hm
      obtain ⟨rfl, -⟩ := Prod.ext_iff.1 (Option.some_inj.1 hholder)
      exact h.locked j _ hold
    · cases hm
  · intro hcrashed
    exact absurd (hended.symm.trans hcrashed) (by simp)

/-- The thread with the mutex gives it back. -/
theorem Logged.unlock (h : Logged turns s) (hended : s.ended = none) {w : Who}
    (hstep : (s.goto w .receiving).withMutex (.unlock w) = some t) :
    s.pc w = .locked ∧ Logged turns t := by
  obtain ⟨m, hm, rfl⟩ := Option.map_eq_some_iff.1 hstep
  have hserial := serial_step (s := (s.goto w .receiving).mutex) h.serial hm
  rw [show (Mutex.Event.unlock w : Mutex.Event Who Action).begins = [] from rfl,
    List.append_nil] at hserial
  simp only [Mutex.step, State.goto] at hm
  split at hm
  · rename_i j hold
    split_ifs at hm with hw
    subst hw
    cases hm
    refine ⟨h.locked w [] hold, hserial, ?_, ?_⟩
    · intro v todo hholder
      cases hholder
    · intro hcrashed
      exact absurd (hended.symm.trans hcrashed) (by simp)
  · cases hm

theorem ended_of_step {e : Event} (hstep : step s e = some t) : s.ended = none := by
  unfold step at hstep
  by_contra hended
  rw [if_pos hended] at hstep
  cases hstep

/-- **A step keeps the shared data.** -/
theorem logged_step {e : Event} (h : Logged turns s) (hstep : step s e = some t) :
    Logged (turns ++ turnOf s e) t := by
  have hended := ended_of_step hstep
  unfold step at hstep
  rw [if_neg (not_not.2 hended)] at hstep
  cases e with
  | fopen ok =>
      rw [show turns ++ turnOf s (.fopen ok) = turns from List.append_nil turns]
      dsimp only at hstep
      split_ifs at hstep with hpc
      cases hstep
      exact h.of_same rfl (goto_of_locked (by simp [hpc])) (by simp [State.goto, hended])
  | socket w ok =>
      rw [show turns ++ turnOf s (.socket w ok) = turns from List.append_nil turns]
      dsimp only at hstep
      split_ifs at hstep with hpc hok
      · cases hstep
        exact h.of_same rfl (goto_of_locked (by simp [hpc])) (by simp [State.goto, hended])
      · cases hstep
        exact h.of_same rfl (fun _ hv => hv) (by simp)
  | receive w packet =>
      rw [show turns ++ turnOf s (.receive w packet) = turns from List.append_nil turns]
      rcases packet with _ | p
      · dsimp only at hstep
        split_ifs at hstep with hpc hmain
        · cases hstep
          exact h.of_same rfl (fun _ hv => hv) (by simp)
        · cases hstep
          exact h
      · dsimp only at hstep
        split_ifs at hstep with hpc
        cases hstep
        exact h.of_same rfl (goto_of_locked (by simp [hpc])) (by simp [State.goto, hended])
  | lock w =>
      dsimp only at hstep
      split_ifs at hstep with hpc
      exact h.lock hended hstep
  | act w =>
      rw [show turns ++ turnOf s (.act w) = turns from List.append_nil turns]
      dsimp only at hstep
      split_ifs at hstep with hwrites
      · cases hstep
        exact ⟨h.serial, h.locked, fun _ => hwrites.2.1⟩
      · exact h.act hended hstep
  | unlock w =>
      rw [show turns ++ turnOf s (.unlock w) = turns from List.append_nil turns]
      exact (h.unlock hended hstep).2

/-! ### The packets -/

theorem pending_goto (s : State) {v w : Who} {pc : Pc} (hw : s.pc w ≠ .received) (hpc : pc ≠ .received) :
    (s.goto w pc).pending v = s.pending v := by
  by_cases hv : v = w
  · subst hv
    rw [State.pending, State.pending, goto_pc_self, if_neg hpc, if_neg hw]
  · rw [State.pending, State.pending, goto_pc_of_ne s hv]
    rfl

/-- The thread `w` receives a packet. -/
theorem received_receive {w v : Who} {p : List UInt8} (hpc : s.pc w = .receiving)
    (ht : t.pc = (s.goto w .received).pc)
    (hbuffer : t.buffer = Function.update s.buffer w (recvfrom p (s.buffer w))) (es : List Event) :
    s.pending v ++ receives v (s.buffer v) (.receive w (some p) :: es) =
      t.pending v ++ receives v (t.buffer v) es := by
  rw [State.pending, State.pending, ht, hbuffer, receives]
  by_cases hv : w = v
  · subst hv
    rw [if_pos rfl, goto_pc_self, hpc, Function.update_self, if_neg (by simp), if_pos rfl]
    rfl
  · rw [if_neg hv, goto_pc_of_ne s (Ne.symm hv), Function.update_of_ne (Ne.symm hv)]

/-- The thread `w` begins a turn. -/
theorem received_lock {w v : Who} (hpc : s.pc w = .received) (ht : t.pc = (s.goto w .locked).pc)
    (hbuffer : t.buffer = s.buffer) :
    s.pending v =
      ((turnOf s (.lock w)).filter fun u => decide (u.who = v)).map Turn.buffer ++ t.pending v := by
  rw [State.pending, State.pending, ht, hbuffer, turnOf, List.filter_singleton]
  by_cases hv : w = v
  · subst hv
    rw [goto_pc_self, if_pos hpc, if_neg (by simp), decide_eq_true rfl]
    rfl
  · rw [goto_pc_of_ne s (Ne.symm hv), decide_eq_false hv]
    rfl

/-- **A step keeps the packets of a thread**: they are pending, or have a turn. -/
theorem received_step {e : Event} (h : Logged turns s) (hstep : step s e = some t) (v : Who)
    (es : List Event) :
    s.pending v ++ receives v (s.buffer v) (e :: es) =
      ((turnOf s e).filter fun u => decide (u.who = v)).map Turn.buffer ++
        (t.pending v ++ receives v (t.buffer v) es) := by
  have hended := ended_of_step hstep
  unfold step at hstep
  rw [if_neg (not_not.2 hended)] at hstep
  cases e with
  | fopen ok =>
      dsimp only at hstep
      split_ifs at hstep with hpc
      cases hstep
      exact congrArg (· ++ receives v (s.buffer v) es)
        (pending_goto s (by simp [hpc]) (by simp)).symm
  | socket w ok =>
      dsimp only at hstep
      split_ifs at hstep with hpc hok
      · cases hstep
        exact congrArg (· ++ receives v (s.buffer v) es)
          (pending_goto s (by simp [hpc]) (by simp)).symm
      · cases hstep
        rfl
  | receive w packet =>
      rcases packet with _ | p
      · dsimp only at hstep
        split_ifs at hstep with hpc hmain
        · cases hstep
          rfl
        · cases hstep
          rfl
      · dsimp only at hstep
        split_ifs at hstep with hpc
        cases hstep
        refine received_receive (p := p) hpc ?_ ?_ es
        · rfl
        · rfl
  | lock w =>
      dsimp only at hstep
      split_ifs at hstep with hpc
      obtain ⟨m, -, rfl⟩ := Option.map_eq_some_iff.1 hstep
      refine (congrArg (· ++ receives v (s.buffer v) es) (received_lock hpc ?_ ?_)).trans
        (List.append_assoc _ _ _)
      · rfl
      · rfl
  | act w =>
      dsimp only at hstep
      split_ifs at hstep with hwrites
      · cases hstep
        rfl
      · obtain ⟨m, -, rfl⟩ := Option.map_eq_some_iff.1 hstep
        rfl
  | unlock w =>
      have hpc := (h.unlock hended hstep).1
      obtain ⟨m, -, rfl⟩ := Option.map_eq_some_iff.1 hstep
      exact congrArg (· ++ receives v (s.buffer v) es)
        (pending_goto s (by simp [hpc]) (by simp)).symm

theorem map_who_turnOf (s : State) (e : Event) (es : List Event) :
    (turnOf s e).map Turn.who ++ locks es = locks (e :: es) := by
  cases e <;> rfl

/-- A run adds turns, in the order in which the threads get the mutex, in which the packets are processed
in the order in which each thread receives them. -/
theorem logged_run {es : List Event} (h : Logged turns s) (hrun : run step s es = some t) :
    ∃ more, Logged (turns ++ more) t ∧ more.map Turn.who = locks es ∧ ∀ v,
      s.pending v ++ receives v (s.buffer v) es =
        (more.filter fun u => decide (u.who = v)).map Turn.buffer ++ t.pending v := by
  induction es generalizing s turns with
  | nil =>
      cases hrun
      refine ⟨[], by rwa [List.append_nil], rfl, fun v => ?_⟩
      rw [receives, List.append_nil]
      rfl
  | cons e es ih =>
      obtain ⟨u, hstep, hrest⟩ := run_cons_eq_some.1 hrun
      obtain ⟨more, hlogged, hlocks, hmore⟩ := ih (logged_step h hstep) hrest
      refine ⟨turnOf s e ++ more, by rwa [← List.append_assoc], ?_, fun v => ?_⟩
      · rw [List.map_append, hlocks, map_who_turnOf]
      rw [received_step h hstep v es, hmore v, List.filter_append, List.map_append, List.append_assoc]

/-- While nobody is about to show the counters, those that were shown agree with each other. -/
theorem Logged.balanced (h : Logged turns s) : ∀ c ∈ s.mutex.shared.lines, c.Balanced := by
  have hserial := h.serial
  have hzero : (⟨0, 0, 0, 0, 0, 0⟩ : Counters).Balanced := rfl
  unfold Serial at hserial
  split at hserial
  · rw [hserial]
    exact (balanced_turns turns hzero (List.forall_mem_nil _)).2
  · rename_i w todo hholder
    obtain ⟨past, done, hturns, hshared⟩ := hserial
    obtain ⟨turns', u, rfl⟩ : ∃ turns' u, turns = turns' ++ [u] := by
      rcases List.eq_nil_or_concat turns with rfl | ⟨turns', u, rfl⟩
      · simp at hturns
      · exact ⟨turns', u, by simp⟩
    rw [List.map_append, List.map_singleton] at hturns
    obtain ⟨rfl, hu⟩ := List.append_inj' hturns rfl
    have hbefore := balanced_turns turns' (s := ⟨⟨0, 0, 0, 0, 0, 0⟩, [], []⟩) hzero
      (List.forall_mem_nil _)
    have hprefix : done <+: counting u.who u.buffer ++ [.status] := ⟨todo, (List.singleton_inj.1 hu).symm⟩
    rw [hshared]
    rcases List.prefix_concat_iff.1 hprefix with rfl | hcounting
    · exact (balanced_turns [u] hbefore.1 hbefore.2).2
    · rw [lines_of_counting _ u hcounting]
      exact hbefore.2

end Step

/-- **The log and the counters in every run.**  Both threads process the packets that they receive, each
in its order, and the turns are in the order in which the threads have got the mutex; while the mutex is
free the log is made of the entries of these turns, and every turn is counted.  The counters agree with
each other in every line that is shown.  The program crashes only while the log is not open. -/
theorem log_of_run (buffer : Who → Bytes) (es : List Event) (s : State)
    (hrun : run step (init buffer) es = some s) :
    ∃ turns : List Turn,
      turns.map Turn.who = locks es ∧
      (∀ v, receives v (buffer v) es =
        (turns.filter fun u => decide (u.who = v)).map Turn.buffer ++ s.pending v) ∧
      (s.mutex.holder = none →
        s.mutex.shared.log = turns.flatMap Turn.text ∧
        s.mutex.shared.counters = turns.foldl (fun c u => c.count u.proto) ⟨0, 0, 0, 0, 0, 0⟩ ∧
        s.mutex.shared.counters.total = turns.length) ∧
      (∀ c ∈ s.mutex.shared.lines, c.Balanced) ∧
      (s.ended = some .crashed → s.opened = false) := by
  obtain ⟨turns, hlogged, hlocks, hturns⟩ := logged_run (logged_init buffer) hrun
  rw [List.nil_append] at hlogged
  refine ⟨turns, hlocks, ?_, ?_, hlogged.balanced, hlogged.crashed⟩
  · intro v
    have hpending : (init buffer).pending v = [] := by
      cases v <;> rfl
    rw [← hturns v, hpending]
    rfl
  · intro hfree
    have hshared := hlogged.serial.shared_eq hfree
    rw [foldl_turns] at hshared
    rw [hshared]
    exact ⟨List.nil_append _, rfl, (total_turns turns _).trans (Nat.zero_add _)⟩

/-- Both threads get a packet, and the thread gets the mutex first. -/
def twoPackets : List Event :=
  [.socket .thread true, .fopen true, .socket .main true, .receive .main (some [1, 2, 3]),
    .receive .thread (some [1, 2])] ++
  .lock .thread :: List.replicate 5 (.act .thread) ++ [.unlock .thread] ++
  .lock .main :: List.replicate 4 (.act .main) ++ [.unlock .main]

/-- Two entries, the one of the thread first. -/
theorem log_of_run_twoPackets :
    ∃ s, run step (init fun _ _ => 0) twoPackets = some s ∧
      s.mutex.shared.log = Turn.text ⟨.thread, recvfrom [1, 2] fun _ => 0⟩ ++
        Turn.text ⟨.main, recvfrom [1, 2, 3] fun _ => 0⟩ ∧
      s.mutex.shared.counters.total = 2 ∧ s.ended ≠ some .crashed := by
  obtain ⟨s, hrun, hfree, hopened, hpending⟩ : ∃ s,
      run step (init fun _ _ => 0) twoPackets = some s ∧ s.mutex.holder = none ∧ s.opened = true ∧
        ∀ v, s.pending v = [] :=
    ⟨_, rfl, rfl, rfl, fun v => by cases v <;> rfl⟩
  obtain ⟨turns, hlocks, hbuffers, hlog, -, hcrashed⟩ := log_of_run _ _ s hrun
  obtain ⟨hlog, -, htotal⟩ := hlog hfree
  -- the order of the locks and the two packets leave only one possibility for the turns
  obtain ⟨t, u, rfl⟩ : ∃ t u, turns = [t, u] :=
    List.length_eq_two.1 (by rw [← List.length_map Turn.who, hlocks]; rfl)
  obtain ⟨ht, hu⟩ := List.cons_eq_cons.1 hlocks
  have hfirst := hbuffers .thread
  have hsecond := hbuffers .main
  rw [hpending, List.append_nil] at hfirst hsecond
  obtain ⟨tw, tb⟩ := t
  obtain ⟨uw, ub⟩ := u
  obtain rfl : tw = .thread := ht
  obtain rfl : uw = .main := (List.cons_eq_cons.1 hu).1
  obtain rfl : recvfrom [1, 2] (fun _ => 0) = tb := (List.cons_eq_cons.1 hfirst).1
  obtain rfl : recvfrom [1, 2, 3] (fun _ => 0) = ub := (List.cons_eq_cons.1 hsecond).1
  refine ⟨s, hrun, ?_, htotal, fun h => ?_⟩
  · rw [hlog, List.flatMap_cons, List.flatMap_singleton]
  · rw [hcrashed h] at hopened
    cases hopened

end Sniffer
