/-
**Fork Per Client: the permits of the semaphore and the children of the server.**

The server is to take at most `MAX_CLIENTS` clients at a time.  The limit is a semaphore, and it is
the clients that observe it: a client connects, takes a permit, exchanges messages until the server
has echoed an `exit`, and gives the permit back.  The server forks a child for every connection that
it accepts, permit or not; and a client that leaves through an error path keeps its permit for good.

The module follows any number of clients, each with its connection, and the children of the server.
A connection is two streams of bytes; a `read` returns any number of them up to the size of the
buffer.

Main definitions:

* `ForkPerClient.Phase`, `ForkPerClient.Serving`, `ForkPerClient.Client` — a client and the child that
  serves it;
* `ForkPerClient.State`, `ForkPerClient.Event`, `ForkPerClient.step` — all of them and the semaphore;
* `ForkPerClient.Limited` — the permits are all there or taken, and there are not too many children;
* `ForkPerClient.InTurn` — the condition on a step.

Main results:

* `ForkPerClient.step_effect` — what a step does to the permits and the children;
* `ForkPerClient.permits_run` — **no permit is lost but to a client that failed**;
* `ForkPerClient.limited_iff` — **the limit is kept exactly as long as no client fails and the server
  accepts in turn**.
-/

import NetworkProgramming.CString
import NetworkProgramming.Runs

set_option relaxedAutoImplicit false
set_option autoImplicit false

namespace ForkPerClient

open Runs

/-! ### Clients and children -/

/-- The size of the buffers. -/
def bufferSize : ℕ := 8192

/-- Where a client is. -/
inductive Phase
  /-- Connected, and in front of `semop(-1)`. -/
  | connected
  /-- At the prompt, with a permit. -/
  | prompt
  /-- In `read`, with a permit. -/
  | reading
  /-- The server has echoed an `exit`, and the permit is given back next. -/
  | exiting
  /-- The permit is given back. -/
  | released
  /-- The client has closed its connection. -/
  | closed
  /-- `semop(-1)` has failed. -/
  | refused
  /-- `write` or `read` has failed, and the client has exited. -/
  | failed
  deriving DecidableEq

/-- The client is past `semop(-1)` and has not given the permit back. -/
def Phase.holds : Phase → Bool
  | .prompt => true
  | .reading => true
  | .exiting => true
  | _ => false

/-- The connection at the server. -/
inductive Serving
  /-- In the backlog. -/
  | pending
  /-- Accepted, and served by a child. -/
  | child
  /-- The child has exited. -/
  | done
  deriving DecidableEq

/-- A client and its connection. -/
structure Client where
  phase : Phase
  serving : Serving
  /-- What the client has written and the child has not read. -/
  up : List Char
  /-- What the child has written and the client has not read. -/
  down : List Char

/-- `strncmp(buffer, "exit", 4) == 0`. -/
def isExit (buffer : List Char) : Bool := "exit".toList.isPrefixOf buffer

/-! ### The system -/

/-- The semaphore, and the clients in the order in which they connected. -/
structure State where
  value : ℕ
  clients : List Client

/-- After the initialisation of the server. -/
def State.init (maxClients : ℕ) : State := ⟨maxClients, []⟩

/-- The events; `k` is the number of a client. -/
inductive Event
  | connect
  /-- The server accepts the connection and forks. -/
  | accept (k : ℕ)
  /-- `semop(-1)`, which waits for a permit. -/
  | take (k : ℕ)
  | takeFails (k : ℕ)
  /-- A line is entered and written. -/
  | write (k : ℕ) (line : List Char)
  | writeFails (k : ℕ)
  /-- The client reads `len` bytes; none if the child has closed the connection. -/
  | read (k len : ℕ)
  | readFails (k : ℕ)
  /-- `semop(1)`. -/
  | release (k : ℕ)
  | close (k : ℕ)
  /-- The child reads `len` bytes and echoes the C string in them; none if the client has closed the
  connection. -/
  | echo (k len : ℕ)
  /-- A `read` or `write` of the child fails. -/
  | childFails (k : ℕ)

/-- A `read` of `len` bytes may return, with `closed` for the end of the stream. -/
def Reads (stream : List Char) (closed : Bool) (len : ℕ) : Prop :=
  len ≤ bufferSize ∧ len ≤ stream.length ∧ (len = 0 → stream = [] ∧ closed = true)

instance (stream : List Char) (closed : Bool) (len : ℕ) : Decidable (Reads stream closed len) :=
  inferInstanceAs (Decidable (_ ∧ _ ∧ _))

/-- The client has left, so that its connection is closed at its end. -/
def Phase.left : Phase → Bool
  | .closed => true
  | .refused => true
  | .failed => true
  | _ => false

/-- What client `k` and its child do in an event, with the value of the semaphore. -/
def Client.step (value : ℕ) (c : Client) : Event → Option (ℕ × Client)
  | .connect => none
  | .accept _ => if c.serving = .pending then some (value, { c with serving := .child }) else none
  | .take _ =>
      if c.phase = .connected ∧ 0 < value then some (value - 1, { c with phase := .prompt }) else none
  | .takeFails _ =>
      if c.phase = .connected then some (value, { c with phase := .refused }) else none
  | .write _ line =>
      if c.phase = .prompt then some (value, { c with phase := .reading, up := c.up ++ line })
      else none
  | .writeFails _ => if c.phase = .prompt then some (value, { c with phase := .failed }) else none
  | .read _ len =>
      if c.phase = .reading ∧ Reads c.down (decide (c.serving = .done)) len then
        some (value, { c with
          phase := if isExit (c.down.take len) then .exiting else .prompt
          down := c.down.drop len })
      else none
  | .readFails _ => if c.phase = .reading then some (value, { c with phase := .failed }) else none
  | .release _ =>
      if c.phase = .exiting then some (value + 1, { c with phase := .released }) else none
  | .close _ => if c.phase = .released then some (value, { c with phase := .closed }) else none
  | .echo _ len =>
      if c.serving = .child ∧ Reads c.up c.phase.left len then
        some (value, { c with
          serving := if isExit (c.up.take len) then .done else .child
          up := c.up.drop len
          down := c.down ++ CString.cstr (c.up.take len) })
      else none
  | .childFails _ => if c.serving = .child then some (value, { c with serving := .done }) else none

/-- The client that an event is about. -/
def Event.client : Event → ℕ
  | .connect => 0
  | .accept k => k
  | .take k => k
  | .takeFails k => k
  | .write k _ => k
  | .writeFails k => k
  | .read k _ => k
  | .readFails k => k
  | .release k => k
  | .close k => k
  | .echo k _ => k
  | .childFails k => k

/-- **The step of the system.** -/
def step (s : State) (e : Event) : Option State :=
  match e with
  | .connect => some { s with clients := s.clients ++ [⟨.connected, .pending, [], []⟩] }
  | e =>
      match s.clients[e.client]? with
      | none => none
      | some c => (c.step s.value e).map fun r => ⟨r.1, s.clients.set e.client r.2⟩

/-- The permits that clients hold. -/
def State.holding (s : State) : ℕ := s.clients.countP fun c => c.phase.holds

/-- The clients that have left through an error path, with their permits. -/
def State.failed (s : State) : ℕ := s.clients.countP fun c => c.phase = .failed

/-- The children that serve a connection. -/
def State.children (s : State) : ℕ := s.clients.countP fun c => c.serving = .child

/-- **The limit is kept**: every permit is there or held by a client, and there are no more children
than `MAX_CLIENTS`. -/
structure Limited (maxClients : ℕ) (s : State) : Prop where
  permits : s.value + s.holding = maxClients
  children : s.children ≤ maxClients

/-- **The condition on a step**: no client with a permit leaves through an error path, and the server
accepts a connection only while it has a child to spare. -/
def InTurn (maxClients : ℕ) (s : State) : Event → Prop
  | .writeFails _ => False
  | .readFails _ => False
  | .accept _ => s.children < maxClients
  | _ => True

/-! ### What a step does to permits and children -/

/-- The permits that an event loses. -/
def Event.losses : Event → ℕ
  | .writeFails _ => 1
  | .readFails _ => 1
  | _ => 0

/-- The children that an event starts. -/
def Event.forks : Event → ℕ
  | .accept _ => 1
  | _ => 0

/-- Where one element of a list is replaced, a count changes by the difference of the two. -/
theorem countP_set_add {α : Type*} (p : α → Bool) {l : List α} {k : ℕ} {a : α}
    (h : l[k]? = some a) (b : α) :
    (l.set k b).countP p + (p a).toNat = l.countP p + (p b).toNat := by
  obtain ⟨hk, rfl⟩ := List.getElem?_eq_some_iff.1 h
  rw [List.countP_set hk]
  cases hp : p l[k] with
  | false => cases p b <;> simp
  | true =>
      have hpos : 0 < l.countP p := List.countP_pos_iff.2 ⟨l[k], List.getElem_mem hk, hp⟩
      cases p b with
      | false =>
          simp
          omega
      | true =>
          simp
          omega

/-- What one client does to the permits and the children. -/
theorem client_effect {v v' : ℕ} {c c' : Client} {e : Event} (h : c.step v e = some (v', c')) :
    v' + c'.phase.holds.toNat + (decide (c'.phase = .failed)).toNat =
        v + c.phase.holds.toNat + (decide (c.phase = .failed)).toNat ∧
      (decide (c'.phase = .failed)).toNat = (decide (c.phase = .failed)).toNat + e.losses ∧
      (decide (c'.serving = .child)).toNat ≤ (decide (c.serving = .child)).toNat + e.forks ∧
      (0 < e.forks →
        (decide (c'.serving = .child)).toNat = (decide (c.serving = .child)).toNat + e.forks) := by
  cases e with
  | connect => cases h
  | accept k =>
      simp only [Client.step] at h
      split_ifs at h with hpending
      obtain ⟨rfl, rfl⟩ := Prod.mk_inj.1 (Option.some_inj.1 h)
      simp [Event.losses, Event.forks, hpending]
  | take k =>
      simp only [Client.step] at h
      split_ifs at h with hphase
      obtain ⟨rfl, rfl⟩ := Prod.mk_inj.1 (Option.some_inj.1 h)
      have hpos := hphase.2
      simp [Event.losses, Event.forks, hphase.1, Phase.holds]
      omega
  | takeFails k =>
      simp only [Client.step] at h
      split_ifs at h with hphase
      obtain ⟨rfl, rfl⟩ := Prod.mk_inj.1 (Option.some_inj.1 h)
      simp [Event.losses, Event.forks, hphase, Phase.holds]
  | write k line =>
      simp only [Client.step] at h
      split_ifs at h with hphase
      obtain ⟨rfl, rfl⟩ := Prod.mk_inj.1 (Option.some_inj.1 h)
      simp [Event.losses, Event.forks, hphase, Phase.holds]
  | writeFails k =>
      simp only [Client.step] at h
      split_ifs at h with hphase
      obtain ⟨rfl, rfl⟩ := Prod.mk_inj.1 (Option.some_inj.1 h)
      simp [Event.losses, Event.forks, hphase, Phase.holds]
  | read k len =>
      simp only [Client.step] at h
      split_ifs at h with hphase hexit
      all_goals
        obtain ⟨rfl, rfl⟩ := Prod.mk_inj.1 (Option.some_inj.1 h)
        simp [Event.losses, Event.forks, hphase.1, Phase.holds]
  | readFails k =>
      simp only [Client.step] at h
      split_ifs at h with hphase
      obtain ⟨rfl, rfl⟩ := Prod.mk_inj.1 (Option.some_inj.1 h)
      simp [Event.losses, Event.forks, hphase, Phase.holds]
  | release k =>
      simp only [Client.step] at h
      split_ifs at h with hphase
      obtain ⟨rfl, rfl⟩ := Prod.mk_inj.1 (Option.some_inj.1 h)
      simp [Event.losses, Event.forks, hphase, Phase.holds]
  | close k =>
      simp only [Client.step] at h
      split_ifs at h with hphase
      obtain ⟨rfl, rfl⟩ := Prod.mk_inj.1 (Option.some_inj.1 h)
      simp [Event.losses, Event.forks, hphase, Phase.holds]
  | echo k len =>
      simp only [Client.step] at h
      split_ifs at h with hserving hexit
      all_goals
        obtain ⟨rfl, rfl⟩ := Prod.mk_inj.1 (Option.some_inj.1 h)
        simp [Event.losses, Event.forks, hserving.1]
  | childFails k =>
      simp only [Client.step] at h
      split_ifs at h with hserving
      obtain ⟨rfl, rfl⟩ := Prod.mk_inj.1 (Option.some_inj.1 h)
      simp [Event.losses, Event.forks]

/-- **What a step does to the permits and the children.** -/
theorem step_effect {s t : State} {e : Event} (h : step s e = some t) :
    t.value + t.holding + t.failed = s.value + s.holding + s.failed ∧
      t.failed = s.failed + e.losses ∧ t.children ≤ s.children + e.forks ∧
      (0 < e.forks → t.children = s.children + e.forks) := by
  by_cases hconnect : e = .connect
  · subst hconnect
    obtain rfl := Option.some_inj.1 h
    simp [State.holding, State.failed, State.children, Phase.holds, Event.losses, Event.forks]
  · have hclient : ∃ c r, s.clients[e.client]? = some c ∧ c.step s.value e = some r ∧
        t = ⟨r.1, s.clients.set e.client r.2⟩ := by
      cases e with
      | connect => exact absurd rfl hconnect
      | _ =>
          simp only [step] at h
          split at h
          · cases h
          · rename_i c hc
            obtain ⟨r, hr, rfl⟩ := Option.map_eq_some_iff.1 h
            exact ⟨c, r, hc, hr, rfl⟩
    obtain ⟨c, ⟨v', c'⟩, hc, hstep, rfl⟩ := hclient
    obtain ⟨hsum, hfailed, hle, heq⟩ := client_effect hstep
    have hholds := countP_set_add (fun c : Client => c.phase.holds) hc c'
    have hfails := countP_set_add (fun c : Client => decide (c.phase = .failed)) hc c'
    have hchild := countP_set_add (fun c : Client => decide (c.serving = .child)) hc c'
    simp only [State.holding, State.failed, State.children]
    refine ⟨by omega, by omega, by omega, ?_⟩
    intro hpos
    have := heq hpos
    omega

/-! ### Whole runs -/

/-- **No permit is lost but to a client that failed**, in every run. -/
theorem permits_run {maxClients : ℕ} {es : List Event} {s : State}
    (h : run step (State.init maxClients) es = some s) :
    s.value + s.holding + s.failed = maxClients := by
  refine run_invariant (I := fun s => s.value + s.holding + s.failed = maxClients) ?_ rfl h
  intro s e t hs hstep
  exact (step_effect hstep).1.trans hs

/-- A step that leads from a state within the limit to another one is in turn. -/
theorem limited_step {maxClients : ℕ} (s : State) (e : Event) (t : State)
    (hs : Limited maxClients s) (hstep : step s e = some t) :
    Limited maxClients t ↔ InTurn maxClients s e := by
  obtain ⟨hsum, hfailed, hle, heq⟩ := step_effect hstep
  have hpermits := hs.permits
  have hchildren := hs.children
  -- the permits are kept if none is lost, and the children if one is to spare
  have hiff : Limited maxClients t ↔ e.losses = 0 ∧ (0 < e.forks → s.children < maxClients) := by
    constructor
    · intro ht
      have hpermits' := ht.permits
      have hchildren' := ht.children
      refine ⟨by omega, ?_⟩
      intro hpos
      have := heq hpos
      omega
    · rintro ⟨hlosses, hforks⟩
      refine ⟨by omega, ?_⟩
      by_cases hpos : 0 < e.forks
      · have hone : e.forks ≤ 1 := by cases e <;> simp [Event.forks]
        have := hforks hpos
        omega
      · omega
  rw [hiff]
  cases e <;> simp [InTurn, Event.losses, Event.forks]

/-- **The limit is kept**, in every state of a run, exactly if no client with a permit leaves through
an error path and the server accepts no connection while it has `MAX_CLIENTS` children. -/
theorem limited_iff (maxClients : ℕ) (es : List Event) (s : State)
    (h : run step (State.init maxClients) es = some s) :
    Throughout step (Limited maxClients) (State.init maxClients) es ↔
      Along step (InTurn maxClients) (State.init maxClients) es := by
  refine throughout_iff_along (I := fun _ => True) ?_ trivial ⟨rfl, Nat.zero_le _⟩ h
  intro s e t _ hs hstep
  exact ⟨limited_step s e t hs hstep, fun _ => trivial⟩

/-- A client comes, says something, and leaves; another one waits for the permit. -/
def oneByOne : List Event :=
  [.connect, .accept 0, .take 0, .connect, .write 0 "hello\n".toList, .echo 0 6, .read 0 6,
    .write 0 "exit\n".toList, .echo 0 5, .read 0 5, .release 0, .accept 1, .take 1, .close 0]

theorem limited_iff_oneByOne :
    (∃ s, run step (State.init 1) oneByOne = some s ∧ s.value = 0 ∧ s.holding = 1) ∧
      (Throughout step (Limited 1) (State.init 1) oneByOne ↔
        Along step (InTurn 1) (State.init 1) oneByOne) := by
  have hrun : (run step (State.init 1) oneByOne).map (fun s => (s.value, s.holding)) =
      some (0, 1) := by
    decide
  obtain ⟨s, hs, heq⟩ := Option.map_eq_some_iff.1 hrun
  exact ⟨⟨s, hs, Prod.mk_inj.1 heq⟩, limited_iff 1 oneByOne s hs⟩

/-- With one permit, a failed `write` loses it; and two clients that connect are served at once. -/
theorem not_limited :
    (∃ s, run step (State.init 1) [.connect, .accept 0, .take 0, .writeFails 0] = some s ∧
      s.value + s.holding = 0 ∧ ¬ Limited 1 s) ∧
    (∃ s, run step (State.init 1) [.connect, .connect, .accept 0, .accept 1] = some s ∧
      s.children = 2 ∧ ¬ Limited 1 s) := by
  refine ⟨⟨_, rfl, rfl, ?_⟩, ⟨_, rfl, rfl, ?_⟩⟩
  · intro hlimited
    have hpermits := hlimited.permits
    revert hpermits
    decide
  · intro hlimited
    have hchildren := hlimited.children
    revert hchildren
    decide

end ForkPerClient
