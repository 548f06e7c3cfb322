/-
**BigFileSystem: the tables of clients in the two servers.**

`filenameserver.c` and `dataserver.c` have the same main loop: wait in `select` for the console, for
a connection or for a client; then take a command, and after that either accept the connection or go
through the table `client_fds` and read from every client that has something to say.  A `0` in the
table is a free place.  It is also the descriptor of the console, so that where there is a free place
the loop reads from the console, if a command was typed.

The servers differ when a client has left.  `filenameserver.c` frees the place and leaves `connectcnt`
as it is.  `dataserver.c` decreases `connectcnt` as well, in the middle of the loop that it bounds,
and loses sight of the client at the last place.

A client is connected until the server has read its end of file.

Main definitions:

* `SelectServer.Server`, `SelectServer.Wake`, `SelectServer.step` — an iteration of the main loop, with
  what `select` and the reads bring;
* `SelectServer.clientLoop` — the loop over the table;
* `SelectServer.Serving` — the next `select` waits for every client, the server has read from clients
  only, and `server_fds` was long enough;
* `SelectServer.Careful` — the condition on an iteration, for each of the servers.

Main results:

* `SelectServer.misread_clientLoop`, `SelectServer.dropped_clientLoop` — what goes wrong in the loop;
* `SelectServer.serving_iff` — **the servers serve all clients and only clients exactly as long as
  the iterations meet the condition**.
-/

import NetworkProgramming.Runs

set_option relaxedAutoImplicit false
set_option autoImplicit false

namespace SelectServer

open Runs

/-! ### The servers -/

/-- `filenameserver.c` and `dataserver.c`. -/
inductive Kind
  | filename
  | data
  deriving DecidableEq

def NUM_SERVERS : ℕ := 2

/-- What a server holds.  From `connected` on, the fields record what happens. -/
structure Server where
  clientFds : ℕ → ℕ
  connectcnt : ℕ
  /-- The next place in `server_fds`, which only `dataserver.c` has. -/
  currServer : ℕ
  /-- `notdone`, and the server has not ended with an error. -/
  running : Bool
  /-- The descriptors of the connected clients. -/
  connected : List ℕ
  /-- The loop has read from a descriptor that was not a connected client's. -/
  misread : Bool

def Server.init : Server :=
  { clientFds := fun _ => 0
    connectcnt := 0
    currServer := 0
    running := true
    connected := []
    misread := false }

/-- What is typed at the console. -/
inductive Command
  | count
  | exit
  | unknown
  deriving DecidableEq

/-- What a `read` from a client brings. -/
inductive Read
  | message
  | eof
  deriving DecidableEq

/-- What `select` reports, and what is then read. -/
structure Wake where
  console : Option Command
  /-- A connection, and the descriptor that `accept` returns for it. -/
  connection : Option ℕ
  readable : ℕ → Option Read

/-- The descriptor is that of a client that `select` waits for. -/
def Server.Selected (s : Server) (fd : ℕ) : Prop := fd ≠ 0 ∧ ∃ i < s.connectcnt, s.clientFds i = fd

instance (s : Server) (fd : ℕ) : Decidable (s.Selected fd) :=
  inferInstanceAs (Decidable (_ ∧ _))

/-- `FD_ISSET` after `select`, for an entry of the table; `0` is the console. -/
def Server.isset (s : Server) (w : Wake) (fd : ℕ) : Bool :=
  if fd = 0 then w.console.isSome else decide (s.Selected fd) && (w.readable fd).isSome

/-- The first free place of the first `n`. -/
def firstFree (clientFds : ℕ → ℕ) (n : ℕ) : Option ℕ :=
  (List.range n).find? fun i => clientFds i = 0

/-- A connection is accepted. -/
def Server.accept (kind : Kind) (s : Server) (childfd : ℕ) : Server :=
  { s with
    connectcnt := s.connectcnt + 1
    currServer := match kind with
      | .filename => s.currServer
      | .data => s.currServer + 1
    clientFds := match firstFree s.clientFds (s.connectcnt + 1) with
      | some i => Function.update s.clientFds i childfd
      | none => s.clientFds
    connected := childfd :: s.connected }

/-- The client at place `i` has left. -/
def Server.close (kind : Kind) (s : Server) (i : ℕ) : Server :=
  { s with
    connectcnt := match kind with
      | .filename => s.connectcnt
      | .data => s.connectcnt - 1
    clientFds := Function.update s.clientFds i 0
    connected := s.connected.erase (s.clientFds i) }

/-- **The loop over the table** from place `i` on, with `set` as the result of `select`.  What is read
from the console is sent to descriptor `0`, which is no socket, and the server ends with an error; at
the end of the console's input descriptor `0` is closed, and the next `select` fails. -/
def clientLoop (kind : Kind) (set : ℕ → Bool) (readable : ℕ → Option Read) :
    ℕ → ℕ → Server → Server
  | 0, _, s => s
  | n + 1, i, s =>
      if i < s.connectcnt then
        if set (s.clientFds i) then
          let s := { s with misread := s.misread || decide (s.clientFds i ∉ s.connected) }
          if s.clientFds i = 0 then { s with running := false }
          else if readable (s.clientFds i) = some .eof then
            clientLoop kind set readable n (i + 1) (s.close kind i)
          else clientLoop kind set readable n (i + 1) s
        else clientLoop kind set readable n (i + 1) s
      else s

/-- The server after the command that was typed. -/
def Server.command (s : Server) (console : Option Command) : Server :=
  if console = some .exit then { s with running := false } else s

/-- **An iteration of the main loop.**  `accept` returns a descriptor that is not in use. -/
def step (kind : Kind) (s : Server) (w : Wake) : Option Server :=
  if s.running = false then none
  else
    match w.connection with
    | some childfd =>
        if childfd ≠ 0 ∧ childfd ∉ s.connected then
          some ((s.command w.console).accept kind childfd)
        else none
    | none =>
        some (clientLoop kind (s.isset w) w.readable s.connectcnt 0 (s.command w.console))

/-- **The server serves all clients and only clients**: the next `select` waits for every connected
client, the loop has read from connected clients only, and `server_fds` was not overrun. -/
structure Serving (s : Server) : Prop where
  selected : s.running = true → ∀ fd ∈ s.connected, s.Selected fd
  reads : s.misread = false
  slots : s.currServer ≤ NUM_SERVERS + 1

/-- **The condition on an iteration.**  In `filenameserver.c`, there is no free place in the table when
a command is typed, unless a connection comes with it.  In `dataserver.c`, there is a place left in
`server_fds` for a new connection; and without one, only the client at the last place may have left,
unless the server is told to exit. -/
def Careful : Kind → Server → Wake → Prop
  | .filename, s, w =>
      w.connection = none → w.console ≠ none → ∀ i < s.connectcnt, s.clientFds i ≠ 0
  | .data, s, w =>
      (w.connection ≠ none → s.currServer < NUM_SERVERS + 1) ∧
        (w.connection = none → w.console ≠ some .exit →
          ∀ i, i + 1 < s.connectcnt → w.readable (s.clientFds i) ≠ some .eof)

/-! ### The table -/

/-- **The table is in order**: its entries up to `connectcnt` are the connected clients, each once, and
free places. -/
structure Table (s : Server) : Prop where
  zero : 0 ∉ s.connected
  nodup : s.connected.Nodup
  beyond : ∀ i, s.connectcnt ≤ i → s.clientFds i = 0
  mem : ∀ fd ∈ s.connected, ∃ i, s.clientFds i = fd
  entry : ∀ i, s.clientFds i ≠ 0 → s.clientFds i ∈ s.connected
  inj : ∀ i j, s.clientFds i ≠ 0 → s.clientFds i = s.clientFds j → i = j

/-- There is no free place in the table. -/
def Dense (s : Server) : Prop := ∀ i < s.connectcnt, s.clientFds i ≠ 0

section Tables

variable {s : Server}

theorem table_init : Table Server.init := by
  refine ⟨List.not_mem_nil, List.nodup_nil, fun _ _ => rfl, ?_, ?_, ?_⟩
  · intro fd hfd
    cases hfd
  · intro i hi
    exact absurd rfl hi
  · intro i j hi
    exact absurd rfl hi

namespace Table

/-- `select` waits for every client of a table in order. -/
theorem selected (h : Table s) : ∀ fd ∈ s.connected, s.Selected fd := by
  intro fd hfd
  have hne : fd ≠ 0 := ne_of_mem_of_not_mem hfd h.zero
  obtain ⟨i, rfl⟩ := h.mem fd hfd
  refine ⟨hne, i, ?_, rfl⟩
  by_contra hi
  exact hne (h.beyond i (not_lt.1 hi))

theorem command (h : Table s) (console : Option Command) : Table (s.command console) := by
  unfold Server.command
  split_ifs
  · exact ⟨h.zero, h.nodup, h.beyond, h.mem, h.entry, h.inj⟩
  · exact h

/-- A new client gets the first free place. -/
theorem exists_firstFree (h : Table s) : ∃ i, firstFree s.clientFds (s.connectcnt + 1) = some i ∧
    i ≤ s.connectcnt ∧ s.clientFds i = 0 ∧ ∀ j < i, s.clientFds j ≠ 0 := by
  cases hfree : firstFree s.clientFds (s.connectcnt + 1) with
  | none =>
      have hnone := List.find?_eq_none.1 hfree s.connectcnt (List.mem_range.2 (Nat.lt_succ_self _))
      exact absurd (h.beyond _ le_rfl) (by simpa using hnone)
  | some i =>
      rw [firstFree, List.find?_range_eq_some] at hfree
      obtain ⟨hi, hmem, hbefore⟩ := hfree
      refine ⟨i, rfl, Nat.lt_succ_iff.1 (List.mem_range.1 hmem), by simpa using hi, ?_⟩
      intro j hj
      simpa using hbefore j hj

/-- A client is entered into a table in order. -/
theorem accept (h : Table s) (kind : Kind) {childfd : ℕ} (hne : childfd ≠ 0)
    (hnew : childfd ∉ s.connected) : Table (s.accept kind childfd) := by
  obtain ⟨i, hfree, hi, hzero, -⟩ := h.exists_firstFree
  have hfds : (s.accept kind childfd).clientFds = Function.update s.clientFds i childfd := by
    simp only [Server.accept, hfree]
  have hold : ∀ j, j ≠ i → (s.accept kind childfd).clientFds j = s.clientFds j := by
    intro j hj
    rw [hfds, Function.update_of_ne hj]
  have hself : (s.accept kind childfd).clientFds i = childfd := by
    rw [hfds, Function.update_self]
  have hother : ∀ j, s.clientFds j ≠ 0 → s.clientFds j ≠ childfd := by
    intro j hj heq
    exact hnew (heq ▸ h.entry j hj)
  refine ⟨?_, List.nodup_cons.2 ⟨hnew, h.nodup⟩, ?_, ?_, ?_, ?_⟩
  · exact List.not_mem_cons_of_ne_of_not_mem hne.symm h.zero
  · intro j hj
    have hj : s.connectcnt + 1 ≤ j := hj
    rw [hold j (by omega)]
    exact h.beyond j (by omega)
  · intro fd hfd
    rcases List.mem_cons.1 hfd with rfl | hfd
    · exact ⟨i, hself⟩
    · obtain ⟨j, rfl⟩ := h.mem fd hfd
      refine ⟨j, hold j ?_⟩
      rintro rfl
      exact h.zero (hzero ▸ hfd)
  · intro j hj
    rcases eq_or_ne j i with rfl | hne'
    · rw [hself]
      exact List.mem_cons_self
    · rw [hold j hne'] at hj ⊢
      exact List.mem_cons_of_mem _ (h.entry j hj)
  · intro j k hj hjk
    rcases eq_or_ne j i with rfl | hji
    · rcases eq_or_ne k j with rfl | hkj
      · rfl
      · rw [hself, hold k hkj] at hjk
        exact absurd hjk.symm (hother k (hjk ▸ hne))
    · rw [hold j hji] at hj hjk
      rcases eq_or_ne k i with rfl | hki
      · rw [hself] at hjk
        exact absurd hjk (hother j hj)
      · rw [hold k hki] at hjk
        exact h.inj j k hj hjk

/-- In a table without free places the new client comes last. -/
theorem dense_accept (h : Table s) (hd : Dense s) (kind : Kind) {childfd : ℕ} (hne : childfd ≠ 0) :
    Dense (s.accept kind childfd) := by
  obtain ⟨i, hfree, hi, hzero, -⟩ := h.exists_firstFree
  obtain rfl : i = s.connectcnt := by
    refine le_antisymm hi (not_lt.1 ?_)
    intro hlt
    exact hd i hlt hzero
  intro j hj
  have hfds : (s.accept kind childfd).clientFds =
      Function.update s.clientFds s.connectcnt childfd := by
    simp only [Server.accept, hfree]
  rw [hfds]
  rcases eq_or_ne j s.connectcnt with rfl | hne'
  · rwa [Function.update_self]
  · rw [Function.update_of_ne hne']
    exact hd j (lt_of_le_of_ne (Nat.lt_succ_iff.1 hj) hne')

/-- A client that has left is taken out of the table, if the place is one that `connectcnt` gives
up. -/
theorem close (h : Table s) {kind : Kind} {i : ℕ} (hi : s.clientFds i ≠ 0)
    (hlast : kind = .data → i + 1 = s.connectcnt) : Table (s.close kind i) := by
  have hold : ∀ j, j ≠ i → (s.close kind i).clientFds j = s.clientFds j := by
    intro j hj
    exact Function.update_of_ne hj _ _
  have hself : (s.close kind i).clientFds i = 0 := Function.update_self ..
  have hmem : ∀ fd, fd ∈ (s.close kind i).connected ↔ fd ≠ s.clientFds i ∧ fd ∈ s.connected :=
    fun fd => h.nodup.mem_erase_iff
  refine ⟨?_, h.nodup.erase _, ?_, ?_, ?_, ?_⟩
  · rw [hmem]
    exact fun hz => h.zero hz.2
  · intro j hj
    rcases eq_or_ne j i with rfl | hji
    · exact hself
    · rw [hold j hji]
      refine h.beyond j ?_
      cases kind with
      | filename => exact hj
      | data =>
          have hlast := hlast rfl
          have hj : s.connectcnt - 1 ≤ j := hj
          omega
  · intro fd hfd
    obtain ⟨hne, hfd⟩ := (hmem fd).1 hfd
    obtain ⟨j, rfl⟩ := h.mem fd hfd
    refine ⟨j, hold j ?_⟩
    rintro rfl
    exact hne rfl
  · intro j hj
    rcases eq_or_ne j i with rfl | hji
    · exact absurd hself hj
    · rw [hold j hji] at hj ⊢
      refine (hmem _).2 ⟨?_, h.entry j hj⟩
      intro heq
      exact hji (h.inj j i hj heq)
  · intro j k hj hjk
    rcases eq_or_ne j i with rfl | hji
    · exact absurd hself hj
    · rw [hold j hji] at hj hjk
      rcases eq_or_ne k i with rfl | hki
      · exact absurd (hjk.trans hself) hj
      · rw [hold k hki] at hjk
        exact h.inj j k hj hjk

end Table

end Tables

/-! ### The loop over the table -/

section Loop

variable {kind : Kind} {set : ℕ → Bool} {readable : ℕ → Option Read} {s : Server} {n i : ℕ}

theorem clientLoop_of_le (h : s.connectcnt ≤ i) : clientLoop kind set readable n i s = s := by
  cases n with
  | zero => rfl
  | succ n => rw [clientLoop, if_neg (not_lt.2 h)]

/-- The loop at the place of a connected client. -/
theorem clientLoop_succ_of_mem (hi : i < s.connectcnt) (hne : s.clientFds i ≠ 0)
    (hmem : s.clientFds i ∈ s.connected) :
    clientLoop kind set readable (n + 1) i s =
      if set (s.clientFds i) = true ∧ readable (s.clientFds i) = some .eof then
        clientLoop kind set readable n (i + 1) (s.close kind i)
      else clientLoop kind set readable n (i + 1) s := by
  rw [clientLoop, if_pos hi]
  by_cases hset : set (s.clientFds i) = true
  · simp only [hset, if_true, hmem, not_true_eq_false, decide_false, Bool.or_false, if_neg hne,
      true_and]
  · simp [hset]

/-- The loop at a free place: if a command was typed, it reads from the console. -/
theorem clientLoop_succ_of_zero (hi : i < s.connectcnt) (hzero : s.clientFds i = 0) :
    clientLoop kind set readable (n + 1) i s =
      if set 0 = true then
        { s with misread := s.misread || decide (0 ∉ s.connected), running := false }
      else clientLoop kind set readable n (i + 1) s := by
  simp only [clientLoop, if_pos hi, hzero, if_true]

/-- From place `i` on, the entries are different connected clients, and free places. -/
structure Ahead (s : Server) (i : ℕ) : Prop where
  entry : ∀ j, i ≤ j → s.clientFds j ≠ 0 → s.clientFds j ∈ s.connected
  inj : ∀ j k, i ≤ j → i ≤ k → s.clientFds j ≠ 0 → s.clientFds j = s.clientFds k → j = k

theorem Table.ahead (h : Table s) (i : ℕ) : Ahead s i :=
  ⟨fun j _ => h.entry j, fun j k _ _ => h.inj j k⟩

theorem Ahead.succ (h : Ahead s i) : Ahead s (i + 1) :=
  ⟨fun j hj => h.entry j (by omega), fun j k hj hk => h.inj j k (by omega) (by omega)⟩

theorem Ahead.close (h : Ahead s i) : Ahead (s.close kind i) (i + 1) := by
  have hold : ∀ j, i + 1 ≤ j → (s.close kind i).clientFds j = s.clientFds j := by
    intro j hj
    exact Function.update_of_ne (by omega) _ _
  refine ⟨?_, ?_⟩
  · intro j hj hne
    rw [hold j hj] at hne ⊢
    refine (List.mem_erase_of_ne ?_).2 (h.entry j (by omega) hne)
    intro heq
    have := h.inj j i (by omega) le_rfl hne heq
    omega
  · intro j k hj hk hne heq
    rw [hold j hj] at hne heq
    rw [hold k hk] at heq
    exact h.inj j k (by omega) (by omega) hne heq

theorem close_connectcnt_le (s : Server) : (s.close kind i).connectcnt ≤ s.connectcnt := by
  cases kind with
  | filename => exact le_rfl
  | data => exact Nat.sub_le _ _

/-- **Without free places ahead, or without a command, the loop reads from clients only.** -/
theorem misread_clientLoop (h : Ahead s i)
    (hfree : set 0 = true → ∀ j, i ≤ j → j < s.connectcnt → s.clientFds j ≠ 0) :
    (clientLoop kind set readable n i s).misread = s.misread ∧
      (clientLoop kind set readable n i s).running = s.running ∧
      (clientLoop kind set readable n i s).currServer = s.currServer := by
  induction n generalizing i s with
  | zero => exact ⟨rfl, rfl, rfl⟩
  | succ n ih =>
      by_cases hi : i < s.connectcnt
      · have hnext := ih h.succ fun hset j hj => hfree hset j (by omega)
        by_cases hzero : s.clientFds i = 0
        · have hset : ¬ set 0 = true := fun hset => hfree hset i le_rfl hi hzero
          rw [clientLoop_succ_of_zero hi hzero, if_neg hset]
          exact hnext
        · rw [clientLoop_succ_of_mem hi hzero (h.entry i le_rfl hzero)]
          split_ifs
          · refine ih (s := s.close kind i) h.close ?_
            intro hset j hj hlt
            have hkeep : (s.close kind i).clientFds j = s.clientFds j :=
              Function.update_of_ne (by omega) _ _
            rw [hkeep]
            exact hfree hset j (by omega) (hlt.trans_le (close_connectcnt_le s))
          · exact hnext
      · rw [clientLoop_of_le (not_lt.1 hi)]
        exact ⟨rfl, rfl, rfl⟩

/-- A free place ahead and a command: in `filenameserver.c`, where the places stay as they are, the
loop reads from the console. -/
theorem misread_of_free (h : Ahead s i) (hconsole : 0 ∉ s.connected) (hset : set 0 = true) {j : ℕ}
    (hij : i ≤ j) (hj : j < s.connectcnt) (hzero : s.clientFds j = 0) (hn : s.connectcnt ≤ i + n) :
    (clientLoop .filename set readable n i s).misread = true := by
  induction n generalizing i s with
  | zero => omega
  | succ n ih =>
      have hi : i < s.connectcnt := by omega
      by_cases hi0 : s.clientFds i = 0
      · rw [clientLoop_succ_of_zero hi hi0, if_pos hset]
        simp [hconsole]
      · have hlt : i + 1 ≤ j := by
          refine Nat.succ_le_of_lt (lt_of_le_of_ne hij ?_)
          rintro rfl
          exact hi0 hzero
        rw [clientLoop_succ_of_mem hi hi0 (h.entry i le_rfl hi0)]
        split_ifs
        · refine ih (s := s.close .filename i) h.close ?_ hlt hj ?_ ?_
          · exact fun hmem => hconsole (List.mem_of_mem_erase hmem)
          · exact (Function.update_of_ne (by omega) _ _).trans hzero
          · have : (s.close .filename i).connectcnt = s.connectcnt := rfl
            omega
        · exact ih h.succ hconsole hlt hj hzero (by omega)

/-- In `filenameserver.c` the table stays in order. -/
theorem table_clientLoop (h : Table s)
    (hfree : set 0 = true → ∀ j, i ≤ j → j < s.connectcnt → s.clientFds j ≠ 0) :
    Table (clientLoop .filename set readable n i s) := by
  induction n generalizing i s with
  | zero => exact h
  | succ n ih =>
      by_cases hi : i < s.connectcnt
      · have hnext := ih h fun hset j (hj : i + 1 ≤ j) => hfree hset j (by omega)
        by_cases hzero : s.clientFds i = 0
        · have hset : ¬ set 0 = true := fun hset => hfree hset i le_rfl hi hzero
          rw [clientLoop_succ_of_zero hi hzero, if_neg hset]
          exact hnext
        · rw [clientLoop_succ_of_mem hi hzero (h.entry i hzero)]
          split_ifs
          · refine ih (s := s.close .filename i) (h.close hzero (by simp)) ?_
            intro hset j hj hlt
            have hkeep : (s.close .filename i).clientFds j = s.clientFds j :=
              Function.update_of_ne (by omega) _ _
            rw [hkeep]
            exact hfree hset j (by omega) hlt
          · exact hnext
      · rwa [clientLoop_of_le (not_lt.1 hi)]

/-- In `dataserver.c` the table stays in order, and without free places, if only the last client may
have left. -/
theorem dense_clientLoop (h : Table s) (hd : Dense s)
    (hlast : ∀ j, j + 1 < s.connectcnt → readable (s.clientFds j) ≠ some .eof) :
    Table (clientLoop .data set readable n i s) ∧ Dense (clientLoop .data set readable n i s) := by
  induction n generalizing i with
  | zero => exact ⟨h, hd⟩
  | succ n ih =>
      by_cases hi : i < s.connectcnt
      · rw [clientLoop_succ_of_mem hi (hd i hi) (h.entry i (hd i hi))]
        split_ifs with heof
        · have hi' : i + 1 = s.connectcnt := by
            by_contra hne
            exact hlast i (by omega) heof.2
          have hcnt : (s.close .data i).connectcnt = i := by
            have : (s.close .data i).connectcnt = s.connectcnt - 1 := rfl
            omega
          rw [clientLoop_of_le (by omega)]
          refine ⟨h.close (hd i hi) (fun _ => hi'), ?_⟩
          intro j hj
          rw [hcnt] at hj
          have hkeep : (s.close .data i).clientFds j = s.clientFds j :=
            Function.update_of_ne (by omega) _ _
          rw [hkeep]
          exact hd j (by omega)
        · exact ih
      · rw [clientLoop_of_le (not_lt.1 hi)]
        exact ⟨h, hd⟩

/-- The client at place `m` is connected, but `connectcnt` does not reach it. -/
structure Dropped (m fd : ℕ) (s : Server) : Prop where
  connectcnt : s.connectcnt ≤ m
  place : s.clientFds m = fd
  connected : fd ∈ s.connected
  only : ∀ j < m, s.clientFds j ≠ fd

theorem Dropped.not_selected {m fd : ℕ} (h : Dropped m fd s) : ¬ s.Selected fd := by
  rintro ⟨-, j, hj, heq⟩
  exact h.only j (hj.trans_le h.connectcnt) heq

/-- A client that was lost sight of stays out of sight. -/
theorem dropped_of_dropped {m fd : ℕ} (hfd : fd ≠ 0) (h : Dropped m fd s) :
    Dropped m fd (clientLoop .data set readable n i s) := by
  induction n generalizing i s with
  | zero => exact h
  | succ n ih =>
      have hmark : ∀ b : Bool, Dropped m fd { s with misread := b } :=
        fun b => ⟨h.connectcnt, h.place, h.connected, h.only⟩
      rw [clientLoop]
      dsimp only
      split_ifs with hi
      · exact ⟨h.connectcnt, h.place, h.connected, h.only⟩
      · refine ih ?_
        have hne : i ≠ m := (hi.trans_le h.connectcnt).ne
        refine ⟨(close_connectcnt_le _).trans h.connectcnt, ?_, ?_, ?_⟩
        · exact (Function.update_of_ne hne.symm _ _).trans h.place
        · refine (List.mem_erase_of_ne ?_).2 h.connected
          exact (h.only i (hi.trans_le h.connectcnt)).symm
        · intro j hj
          rcases eq_or_ne j i with rfl | hji
          · exact (Function.update_self ..).trans_ne hfd.symm
          · exact (Function.update_of_ne hji _ _).trans_ne (h.only j hj)
      · exact ih (hmark _)
      · exact ih h
      · exact h

/-- **When a client leaves that is not the last one, `dataserver.c` loses sight of the last one.** -/
theorem dropped_clientLoop {m j : ℕ} (h : Table s) (hd : Dense s) (hm : s.connectcnt = m + 1)
    (hij : i ≤ j) (hj : j < m) (hset : set (s.clientFds j) = true)
    (heof : readable (s.clientFds j) = some .eof) (hn : m ≤ i + n) :
    Dropped m (s.clientFds m) (clientLoop .data set readable n i s) := by
  induction n generalizing i with
  | zero => omega
  | succ n ih =>
      have hi : i < s.connectcnt := by omega
      have hlast : s.clientFds m ≠ 0 := hd m (by omega)
      rw [clientLoop_succ_of_mem hi (hd i hi) (h.entry i (hd i hi))]
      split_ifs with hleft
      · refine dropped_of_dropped hlast ?_
        have hne : ∀ k < m, s.clientFds k ≠ s.clientFds m := by
          intro k hk heq
          have := h.inj k m (hd k (by omega)) heq
          omega
        refine ⟨?_, Function.update_of_ne (by omega) _ _, ?_, ?_⟩
        · have : (s.close .data i).connectcnt = s.connectcnt - 1 := rfl
          omega
        · exact (List.mem_erase_of_ne (hne i (by omega)).symm).2 (h.entry m hlast)
        · intro k hk
          rcases eq_or_ne k i with rfl | hki
          · exact (Function.update_self ..).trans_ne hlast.symm
          · exact (Function.update_of_ne hki _ _).trans_ne (hne k hk)
      · refine ih ?_ (by omega)
        refine Nat.succ_le_of_lt (lt_of_le_of_ne hij ?_)
        rintro rfl
        exact hleft ⟨hset, heof⟩

end Loop

/-! ### Whole runs -/

/-- **The invariant** of a server that is still running. -/
def Inv (kind : Kind) (s : Server) : Prop :=
  s.running = true → Table s ∧ (kind = .data → Dense s)

section Runs

variable {kind : Kind} {s t : Server} {w : Wake}

theorem step_cases (h : step kind s w = some t) :
    s.running = true ∧
      ((∃ childfd, w.connection = some childfd ∧ childfd ≠ 0 ∧ childfd ∉ s.connected ∧
        t = (s.command w.console).accept kind childfd) ∨
      (w.connection = none ∧
        t = clientLoop kind (s.isset w) w.readable s.connectcnt 0 (s.command w.console))) := by
  unfold step at h
  split_ifs at h with hrun
  refine ⟨by simpa using hrun, ?_⟩
  cases hconn : w.connection with
  | none =>
      rw [hconn] at h
      exact Or.inr ⟨rfl, (Option.some_inj.1 h).symm⟩
  | some childfd =>
      simp only [hconn] at h
      split_ifs at h with hnew
      exact Or.inl ⟨childfd, rfl, hnew.1, hnew.2, (Option.some_inj.1 h).symm⟩

@[simp] theorem command_clientFds (s : Server) (console : Option Command) :
    (s.command console).clientFds = s.clientFds := by
  unfold Server.command
  split_ifs <;> rfl

@[simp] theorem command_connectcnt (s : Server) (console : Option Command) :
    (s.command console).connectcnt = s.connectcnt := by
  unfold Server.command
  split_ifs <;> rfl

@[simp] theorem command_connected (s : Server) (console : Option Command) :
    (s.command console).connected = s.connected := by
  unfold Server.command
  split_ifs <;> rfl

@[simp] theorem command_currServer (s : Server) (console : Option Command) :
    (s.command console).currServer = s.currServer := by
  unfold Server.command
  split_ifs <;> rfl

@[simp] theorem command_misread (s : Server) (console : Option Command) :
    (s.command console).misread = s.misread := by
  unfold Server.command
  split_ifs <;> rfl

/-- A command typed at the console sets descriptor `0`. -/
theorem isset_zero : s.isset w 0 = true ↔ w.console ≠ none := by
  simp [Server.isset, Option.isSome_iff_ne_none]

/-- The descriptor of a client that has left is set. -/
theorem isset_of_eof {i : ℕ} (hi : i < s.connectcnt) (hne : s.clientFds i ≠ 0)
    (heof : w.readable (s.clientFds i) = some .eof) : s.isset w (s.clientFds i) = true := by
  have hsel : s.Selected (s.clientFds i) := ⟨hne, i, hi, rfl⟩
  simp [Server.isset, hne, hsel, heof]

/-- A new connection keeps the property if `server_fds` has a place for it. -/
theorem serving_accept (hs : Serving s) (hI : Table s ∧ (kind = .data → Dense s)) {childfd : ℕ}
    (hconn : w.connection = some childfd) (hne : childfd ≠ 0) (hnew : childfd ∉ s.connected) :
    (Serving ((s.command w.console).accept kind childfd) ↔ Careful kind s w) ∧
      Inv kind ((s.command w.console).accept kind childfd) := by
  have htable := (hI.1.command w.console).accept kind hne (by simpa using hnew)
  have hslots := hs.slots
  refine ⟨?_, ?_⟩
  · cases kind with
    | filename =>
        refine iff_of_true ⟨fun _ => htable.selected, ?_, ?_⟩ ?_
        · simpa [Server.accept] using hs.reads
        · simpa [Server.accept] using hslots
        · intro hnone
          simp [hconn] at hnone
    | data =>
        constructor
        · intro ht
          have hlt := ht.slots
          simp only [Server.accept, command_currServer] at hlt
          refine ⟨fun _ => by omega, ?_⟩
          intro hnone
          simp [hconn] at hnone
        · intro hcareful
          have hlt := hcareful.1 (by simp [hconn])
          refine ⟨fun _ => htable.selected, ?_, ?_⟩
          · simpa [Server.accept] using hs.reads
          · simpa [Server.accept] using hlt
  · intro _
    refine ⟨htable, ?_⟩
    intro hkind
    refine (hI.1.command w.console).dense_accept ?_ kind hne
    intro i hi
    simpa using hI.2 hkind i (by simpa using hi)

/-- The loop in `filenameserver.c`. -/
theorem serving_filename (hs : Serving s) (hI : Table s) (hconn : w.connection = none) :
    let t := clientLoop .filename (s.isset w) w.readable s.connectcnt 0 (s.command w.console)
    (Serving t ↔ Careful .filename s w) ∧ (Careful .filename s w → Table t) := by
  intro t
  have hu := hI.command w.console
  have hzero : 0 ∉ (s.command w.console).connected := by simpa using hI.zero
  by_cases hcareful : Careful .filename s w
  · have hfree : s.isset w 0 = true → ∀ j, 0 ≤ j → j < (s.command w.console).connectcnt →
        (s.command w.console).clientFds j ≠ 0 := by
      intro hset j _ hj
      simpa using hcareful hconn (isset_zero.1 hset) j (by simpa using hj)
    have htable : Table t := table_clientLoop hu hfree
    obtain ⟨hmis, -, hcurr⟩ := @misread_clientLoop .filename (s.isset w) w.readable
      (s.command w.console) s.connectcnt 0 (hu.ahead 0) hfree
    refine ⟨iff_of_true ⟨fun _ => htable.selected, ?_, ?_⟩ hcareful, fun _ => htable⟩
    · exact hmis.trans (by simpa using hs.reads)
    · exact hcurr.trans_le (by simpa using hs.slots)
  · refine ⟨iff_of_false ?_ hcareful, fun h => absurd h hcareful⟩
    intro ht
    refine hcareful ?_
    intro _ hconsole i hi hi0
    have hmis : t.misread = true :=
      misread_of_free (hu.ahead 0) hzero (isset_zero.2 hconsole) (Nat.zero_le i)
        (by simpa using hi) (by simpa using hi0) (by simp)
    rw [ht.reads] at hmis
    cases hmis

/-- The loop in `dataserver.c`. -/
theorem serving_data (hs : Serving s) (hI : Table s) (hd : Dense s) (hrun : s.running = true)
    (hconn : w.connection = none) :
    let t := clientLoop .data (s.isset w) w.readable s.connectcnt 0 (s.command w.console)
    (Serving t ↔ Careful .data s w) ∧ (Careful .data s w → Inv .data t) := by
  intro t
  have hu := hI.command w.console
  have hfree : s.isset w 0 = true → ∀ j, 0 ≤ j → j < (s.command w.console).connectcnt →
      (s.command w.console).clientFds j ≠ 0 := by
    intro _ j _ hj
    simpa using hd j (by simpa using hj)
  obtain ⟨hmis, hrunning, hcurr⟩ := @misread_clientLoop .data (s.isset w) w.readable
    (s.command w.console) s.connectcnt 0 (hu.ahead 0) hfree
  have hreads : t.misread = false := hmis.trans (by simpa using hs.reads)
  have hslots : t.currServer ≤ NUM_SERVERS + 1 := hcurr.trans_le (by simpa using hs.slots)
  by_cases hexit : w.console = some .exit
  · -- the server does not come back to `select`
    have hstop : t.running = false := by
      rw [hrunning, Server.command, if_pos hexit]
    refine ⟨iff_of_true ⟨?_, hreads, hslots⟩ ⟨?_, ?_⟩, ?_⟩
    · intro h
      simp [hstop] at h
    · intro h
      exact absurd hconn h
    · intro _ h
      exact absurd hexit h
    · intro _ h
      simp [hstop] at h
  · have hcommand : s.command w.console = s := if_neg hexit
    have hgo : t.running = true := by rw [hrunning, hcommand, hrun]
    have ht : t = clientLoop .data (s.isset w) w.readable s.connectcnt 0 s :=
      congrArg (clientLoop .data (s.isset w) w.readable s.connectcnt 0) hcommand
    by_cases hlast : ∀ i, i + 1 < s.connectcnt → w.readable (s.clientFds i) ≠ some .eof
    · have hkeep : Table t ∧ Dense t := ht ▸ dense_clientLoop hI hd hlast
      refine ⟨iff_of_true ⟨fun _ => hkeep.1.selected, hreads, hslots⟩ ⟨?_, fun _ _ => hlast⟩, ?_⟩
      · intro h
        exact absurd hconn h
      · intro _ _
        exact ⟨hkeep.1, fun _ => hkeep.2⟩
    · push Not at hlast
      obtain ⟨i, hi, heof⟩ := hlast
      have hfalse : ¬ Careful .data s w := fun h => h.2 hconn hexit i hi heof
      refine ⟨iff_of_false ?_ hfalse, fun h => absurd h hfalse⟩
      intro hserving
      obtain ⟨m, hm⟩ : ∃ m, s.connectcnt = m + 1 := ⟨s.connectcnt - 1, by omega⟩
      have hdropped : Dropped m (s.clientFds m) t := ht ▸
        dropped_clientLoop hI hd hm (Nat.zero_le i) (by omega)
          (isset_of_eof (by omega) (hd i (by omega)) heof) heof (by omega)
      exact hdropped.not_selected (hserving.selected hgo _ hdropped.connected)

/-- **An iteration keeps the property exactly if it meets the condition.** -/
theorem serving_step (kind : Kind) (s : Server) (w : Wake) (t : Server) (hI : Inv kind s)
    (hs : Serving s) (h : step kind s w = some t) :
    (Serving t ↔ Careful kind s w) ∧ (Careful kind s w → Inv kind t) := by
  obtain ⟨hrun, ⟨childfd, hconn, hne, hnew, rfl⟩ | ⟨hconn, rfl⟩⟩ := step_cases h
  · obtain ⟨hiff, hinv⟩ := serving_accept hs (hI hrun) hconn hne hnew
    exact ⟨hiff, fun _ => hinv⟩
  · cases kind with
    | filename =>
        obtain ⟨hiff, hkeep⟩ := serving_filename hs (hI hrun).1 hconn
        refine ⟨hiff, ?_⟩
        intro hcareful _
        refine ⟨hkeep hcareful, ?_⟩
        intro hkind
        cases hkind
    | data => exact serving_data hs (hI hrun).1 ((hI hrun).2 rfl) hrun hconn

theorem serving_init : Serving Server.init :=
  ⟨fun _ => table_init.selected, rfl, Nat.zero_le _⟩

theorem inv_init (kind : Kind) : Inv kind Server.init := by
  intro _
  refine ⟨table_init, ?_⟩
  intro _ i hi
  exact absurd hi (Nat.not_lt_zero i)

/-- **All clients and only clients are served**, in every state of a run, exactly if every iteration
meets the condition. -/
theorem serving_iff (kind : Kind) (ws : List Wake) (s : Server)
    (h : run (step kind) Server.init ws = some s) :
    Throughout (step kind) Serving Server.init ws ↔
      Along (step kind) (Careful kind) Server.init ws :=
  throughout_iff_along (serving_step kind) (inv_init kind) serving_init h

end Runs

/-- Nothing but a connection. -/
def connects (childfd : ℕ) : Wake := ⟨none, some childfd, fun _ => none⟩

/-- Nothing but a client that has left. -/
def leaves (fd : ℕ) : Wake := ⟨none, none, Function.update (fun _ => none) fd (some .eof)⟩

/-- Nothing but a command. -/
def types (command : Command) : Wake := ⟨some command, none, fun _ => none⟩

/-- Two clients connect, the second one leaves, and the connections are counted. -/
theorem serving_iff_lastLeaves :
    (∃ s, run (step .data) Server.init [connects 4, connects 5, leaves 5, types .count] = some s ∧
      s.connected = [4]) ∧
    (Throughout (step .data) Serving Server.init [connects 4, connects 5, leaves 5, types .count] ↔
      Along (step .data) (Careful .data) Server.init
        [connects 4, connects 5, leaves 5, types .count]) := by
  have hrun : (run (step .data) Server.init [connects 4, connects 5, leaves 5, types .count]).map
      Server.connected = some [4] := by
    decide
  obtain ⟨s, hs, hconn⟩ := Option.map_eq_some_iff.1 hrun
  exact ⟨⟨s, hs, hconn⟩, serving_iff .data _ s hs⟩

/-- In `dataserver.c` the first of two clients leaves, and `select` does not wait for the other one;
the fourth connection overruns `server_fds`.  In `filenameserver.c` the only client leaves, and with
the next command the loop reads from the console. -/
theorem not_serving :
    (∃ s, run (step .data) Server.init [connects 4, connects 5, leaves 4] = some s ∧
      s.running = true ∧ s.connected = [5] ∧ ¬ s.Selected 5) ∧
    (∃ s, run (step .data) Server.init [connects 4, connects 5, connects 6, connects 7] = some s ∧
      s.currServer = 4 ∧ ¬ Serving s) ∧
    (∃ s, run (step .filename) Server.init [connects 4, leaves 4, types .count] = some s ∧
      s.misread = true ∧ ¬ Serving s) := by
  refine ⟨?_, ?_, ?_⟩
  · have hrun : (run (step .data) Server.init [connects 4, connects 5, leaves 4]).map
        (fun s => (s.running, s.connected, decide (s.Selected 5))) = some (true, [5], false) := by
      decide
    obtain ⟨s, hs, heq⟩ := Option.map_eq_some_iff.1 hrun
    simp only [Prod.mk.injEq, decide_eq_false_iff_not] at heq
    exact ⟨s, hs, heq⟩
  · have hrun : (run (step .data) Server.init
        [connects 4, connects 5, connects 6, connects 7]).map Server.currServer = some 4 := by
      decide
    obtain ⟨s, hs, hcurr⟩ := Option.map_eq_some_iff.1 hrun
    refine ⟨s, hs, hcurr, ?_⟩
    intro hserving
    have hslots := hserving.slots
    rw [hcurr] at hslots
    revert hslots
    decide
  · have hrun : (run (step .filename) Server.init [connects 4, leaves 4, types .count]).map
        Server.misread = some true := by
      decide
    obtain ⟨s, hs, hmis⟩ := Option.map_eq_some_iff.1 hrun
    refine ⟨s, hs, hmis, ?_⟩
    intro hserving
    rw [hserving.reads] at hmis
    cases hmis

end SelectServer
