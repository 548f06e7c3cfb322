/-
**ClusterShell: the server's registry of clients.**

The server keeps its clients twice: in the list `client_list`, from which a thread removes the entry
of its client when the client has left, and in the array `client_fds` with its counter `n`.  The list
is filled with the descriptor of the listening socket instead of that of the client, so that no entry
is ever found again, and nothing is ever taken out of the array.

A new thread reads the descriptor of its client from a variable of `main`, some time after it was
created.  The server closes no descriptor.

Main definitions:

* `ClusterShell.Registry`, `ClusterShell.RegistryEvent`, `ClusterShell.registryStep` — the two
  structures, the threads and the clients;
* `ClusterShell.removeClient` — the function of the source;
* `ClusterShell.Registry.Exact` — the registry is that of the connected clients.

Main results:

* `ClusterShell.registry_run` — what the registry holds in every run: the listening socket as often
  as `accept` has returned, and all that it has returned;
* `ClusterShell.registry_exact_iff` — **the registry is exact only before the first client connects**.
-/

import NetworkProgramming.Runs

set_option relaxedAutoImplicit false
set_option autoImplicit false

namespace ClusterShell

open Runs

/-! ### The two structures -/

/-- The size of `client_fds`. -/
def MAX_NODES : ℕ := 200

/-- The registry, the threads and the clients.  Of an entry of `client_list` only the descriptor is
compared. -/
structure Registry where
  clientList : List ℤ
  clientFds : ℕ → ℤ
  n : ℕ
  /-- The variable of `main` from which the threads read. -/
  clientSock : ℤ
  /-- The descriptor of each thread, once it has read it. -/
  threads : List (Option ℤ)
  /-- The descriptors of the clients that are connected. -/
  connected : List ℤ

def Registry.init : Registry :=
  { clientList := []
    clientFds := fun _ => 0
    n := 0
    clientSock := 0
    threads := []
    connected := [] }

/-- `addClient`: in front. -/
def addClient (head : List ℤ) (fd : ℤ) : List ℤ := fd :: head

/-- `removeClient`: the first entry with that descriptor. -/
def removeClient : List ℤ → ℤ → List ℤ
  | [], _ => []
  | fd :: rest, removefd => if fd = removefd then rest else fd :: removeClient rest removefd

/-- The loop of `main`, after `accept` has returned; it adds the listening socket `sock` to the
list. -/
def Registry.accepted (sock : ℤ) (r : Registry) (clientSock : ℤ) : Registry :=
  { r with
    clientSock := clientSock
    clientList := addClient r.clientList sock
    clientFds := Function.update r.clientFds r.n clientSock
    n := r.n + 1
    threads := r.threads ++ [none] }

/-- The events. -/
inductive RegistryEvent
  /-- A client connects, and `accept` returns this descriptor. -/
  | connect (fd : ℤ)
  /-- `accept` returns `-1`; the loop goes on as if it had not. -/
  | acceptFails
  /-- A thread reads the descriptor of its client. -/
  | start (k : ℕ)
  /-- A client leaves. -/
  | leave (fd : ℤ)
  /-- A thread receives no more, and removes its client. -/
  | finish (k : ℕ)
  deriving DecidableEq

/-- **The step of the system**, with `sock` as the listening socket.  `accept` returns a descriptor
that is not in use. -/
def registryStep (sock : ℤ) (r : Registry) : RegistryEvent → Option Registry
  | .connect fd =>
      if 0 ≤ fd ∧ fd ≠ sock ∧ ∀ j < r.n, r.clientFds j ≠ fd then
        some { r.accepted sock fd with connected := fd :: r.connected }
      else none
  | .acceptFails => some (r.accepted sock (-1))
  | .start k =>
      match r.threads[k]? with
      | some none => some { r with threads := r.threads.set k (some r.clientSock) }
      | _ => none
  | .leave fd =>
      if fd ∈ r.connected then some { r with connected := r.connected.erase fd } else none
  | .finish k =>
      match r.threads[k]? with
      | some (some fd) =>
          if fd ∈ r.connected then none
          else
            some { r with
              threads := r.threads.eraseIdx k
              clientList := removeClient r.clientList fd }
      | _ => none

/-- **The registry is exact**: the list has one entry for every connected client, the array holds
their descriptors and no others, and the counter stays in bounds. -/
structure Registry.Exact (r : Registry) : Prop where
  list : r.clientList.Perm r.connected
  array : ∀ fd, (∃ j < r.n, r.clientFds j = fd) ↔ fd ∈ r.connected
  bound : r.n ≤ MAX_NODES

/-! ### What the registry holds -/

/-- What `accept` returns in a step. -/
def RegistryEvent.result : RegistryEvent → List ℤ
  | .connect fd => [fd]
  | .acceptFails => [-1]
  | .start _ => []
  | .leave _ => []
  | .finish _ => []

/-- The registry after `accept` has returned `fds`. -/
structure Registry.Holds (sock : ℤ) (fds : List ℤ) (r : Registry) : Prop where
  list : r.clientList = List.replicate r.n sock
  array : (List.range r.n).map r.clientFds = fds
  /-- No thread works for the listening socket. -/
  threads : ∀ fd, some fd ∈ r.threads → fd ≠ sock
  clientSock : r.threads ≠ [] → r.clientSock ≠ sock
  connected : ∀ fd ∈ r.connected, fd ∈ fds ∧ fd ≠ sock

section Holds

variable {sock : ℤ} {fds : List ℤ} {r t : Registry}

theorem holds_init (sock : ℤ) : Registry.init.Holds sock [] := by
  refine ⟨rfl, rfl, ?_, ?_, ?_⟩
  · intro fd hfd
    cases hfd
  · intro hne
    exact absurd rfl hne
  · intro fd hfd
    cases hfd

/-- A descriptor that is not in the list is not removed. -/
theorem removeClient_replicate {n : ℕ} {fd : ℤ} (h : fd ≠ sock) :
    removeClient (List.replicate n sock) fd = List.replicate n sock := by
  induction n with
  | zero => rfl
  | succ n ih => rw [List.replicate_succ, removeClient, if_neg h.symm, ih]

namespace Registry.Holds

theorem accepted (h : r.Holds sock fds) {fd : ℤ} (hfd : fd ≠ sock) :
    (r.accepted sock fd).Holds sock (fds ++ [fd]) := by
  refine ⟨?_, ?_, ?_, fun _ => hfd, ?_⟩
  · simp only [Registry.accepted, addClient, h.list, List.replicate_succ]
  · simp only [Registry.accepted, List.range_succ, List.map_append, List.map_singleton,
      Function.update_self]
    rw [← h.array]
    congr 1
    refine List.map_congr_left ?_
    intro j hj
    exact Function.update_of_ne (List.mem_range.1 hj).ne _ _
  · intro fd' hfd'
    refine h.threads fd' ?_
    simpa [Registry.accepted] using hfd'
  · intro fd' hfd'
    exact ⟨List.mem_append_left _ (h.connected fd' hfd').1, (h.connected fd' hfd').2⟩

/-- **What a step adds to the registry.** -/
theorem step (h : r.Holds sock fds) (hsock : 0 ≤ sock) {e : RegistryEvent}
    (hstep : registryStep sock r e = some t) : t.Holds sock (fds ++ e.result) := by
  cases e with
  | connect fd =>
      simp only [registryStep] at hstep
      split_ifs at hstep with hnew
      obtain rfl := Option.some_inj.1 hstep
      have hacc := h.accepted hnew.2.1
      refine ⟨hacc.list, hacc.array, hacc.threads, hacc.clientSock, ?_⟩
      intro fd' hfd'
      rcases List.mem_cons.1 hfd' with rfl | hfd'
      · exact ⟨List.mem_append_right _ (List.mem_singleton_self _), hnew.2.1⟩
      · exact hacc.connected fd' hfd'
  | acceptFails =>
      obtain rfl := Option.some_inj.1 hstep
      exact h.accepted (by omega)
  | start k =>
      simp only [registryStep] at hstep
      split at hstep
      · rename_i hk
        obtain rfl := Option.some_inj.1 hstep
        have hne : r.threads ≠ [] := List.ne_nil_of_mem (List.mem_of_getElem? hk)
        rw [RegistryEvent.result, List.append_nil]
        refine ⟨h.list, h.array, ?_, fun _ => h.clientSock hne, h.connected⟩
        intro fd hfd
        rcases List.mem_or_eq_of_mem_set hfd with hfd | hfd
        · exact h.threads fd hfd
        · exact Option.some_inj.1 hfd ▸ h.clientSock hne
      · cases hstep
  | leave fd =>
      simp only [registryStep] at hstep
      split_ifs at hstep
      obtain rfl := Option.some_inj.1 hstep
      rw [RegistryEvent.result, List.append_nil]
      exact ⟨h.list, h.array, h.threads, h.clientSock,
        fun fd' hfd' => h.connected fd' (List.mem_of_mem_erase hfd')⟩
  | finish k =>
      simp only [registryStep] at hstep
      split at hstep
      · rename_i fd hk
        split_ifs at hstep
        obtain rfl := Option.some_inj.1 hstep
        have hmem : some fd ∈ r.threads := List.mem_of_getElem? hk
        rw [RegistryEvent.result, List.append_nil]
        refine ⟨?_, h.array, ?_, ?_, h.connected⟩
        · exact h.list ▸ removeClient_replicate (h.threads fd hmem)
        · intro fd' hfd'
          exact h.threads fd' (List.mem_of_mem_eraseIdx hfd')
        · intro _
          exact h.clientSock (List.ne_nil_of_mem hmem)
      · cases hstep

theorem length_eq (h : r.Holds sock fds) : r.n = fds.length := by
  rw [← h.array, List.length_map, List.length_range]

/-- The registry is not exact once `accept` has returned. -/
theorem not_exact (h : r.Holds sock fds) (hne : fds ≠ []) : ¬ r.Exact := by
  intro hexact
  have hpos : 0 < r.n := by
    rw [h.length_eq]
    exact List.length_pos_iff.2 hne
  -- the array is not empty, so a client is connected, and the list has an entry for it
  have hconn : r.clientFds 0 ∈ r.connected := (hexact.array _).1 ⟨0, hpos, rfl⟩
  have hentry : r.clientFds 0 ∈ List.replicate r.n sock := h.list ▸ hexact.list.mem_iff.2 hconn
  exact (h.connected _ hconn).2 (List.eq_of_mem_replicate hentry)

end Registry.Holds

end Holds

/-! ### Runs -/

/-- **What the registry holds in every run**: the list has the listening socket as often as `accept`
has returned, and the array has all that it has returned. -/
theorem registry_run {sock : ℤ} (hsock : 0 ≤ sock) {es : List RegistryEvent} {r t : Registry}
    {fds : List ℤ} (hr : r.Holds sock fds) (h : run (registryStep sock) r es = some t) :
    t.Holds sock (fds ++ es.flatMap RegistryEvent.result) := by
  induction es generalizing r fds with
  | nil =>
      obtain rfl := Option.some_inj.1 h
      simpa using hr
  | cons e es ih =>
      obtain ⟨u, hu, hrun⟩ := run_cons_eq_some.1 h
      rw [List.flatMap_cons, ← List.append_assoc]
      exact ih (hr.step hsock hu) hrun

/-- Nothing happens before `accept` has returned. -/
theorem result_ne_nil {sock : ℤ} {e : RegistryEvent} {t : Registry}
    (h : registryStep sock Registry.init e = some t) : e.result ≠ [] := by
  cases e with
  | connect fd => exact List.cons_ne_nil _ _
  | acceptFails => exact List.cons_ne_nil _ _
  | start k => simp [registryStep, Registry.init] at h
  | leave fd => simp [registryStep, Registry.init] at h
  | finish k => simp [registryStep, Registry.init] at h

/-- **The registry is exact only before the first client connects.** -/
theorem registry_exact_iff (sock : ℤ) (hsock : 0 ≤ sock) (es : List RegistryEvent) (r : Registry)
    (h : run (registryStep sock) Registry.init es = some r) : r.Exact ↔ es = [] := by
  constructor
  · intro hexact
    cases es with
    | nil => rfl
    | cons e es =>
        obtain ⟨u, hu, -⟩ := run_cons_eq_some.1 h
        refine absurd hexact ((registry_run hsock (holds_init sock) h).not_exact ?_)
        simp [result_ne_nil hu]
  · rintro rfl
    obtain rfl := Option.some_inj.1 h
    refine ⟨List.Perm.nil, ?_, Nat.zero_le _⟩
    intro fd
    simp [Registry.init]

/-- Two clients connect and one of them leaves. -/
def twoClients : List RegistryEvent :=
  [.connect 4, .start 0, .connect 5, .start 1, .leave 4, .finish 0]

theorem registry_exact_iff_twoClients :
    ∃ r, run (registryStep 3) Registry.init twoClients = some r ∧ r.clientList = [3, 3] ∧
      r.connected = [5] ∧ (r.Exact ↔ twoClients = []) := by
  have hrun : (run (registryStep 3) Registry.init twoClients).map
      (fun r => (r.clientList, r.connected)) = some ([3, 3], [5]) := by
    decide
  obtain ⟨r, hr, heq⟩ := Option.map_eq_some_iff.1 hrun
  obtain ⟨hlist, hconn⟩ := Prod.mk_inj.1 heq
  exact ⟨r, hr, hlist, hconn, registry_exact_iff 3 (by decide) twoClients r hr⟩

/-- A client connects: the list has the listening socket. -/
theorem not_exact_connect :
    ∃ r, run (registryStep 3) Registry.init [.connect 4] = some r ∧ r.clientList = [3] ∧
      r.connected = [4] ∧ ¬ r.Exact := by
  refine ⟨_, rfl, rfl, rfl, ?_⟩
  intro hexact
  have hmem : (3 : ℤ) ∈ [(4 : ℤ)] := hexact.list.mem_iff.1 List.mem_cons_self
  simp at hmem

end ClusterShell
