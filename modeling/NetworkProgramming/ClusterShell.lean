/-
**ClusterShell: what the clients execute.**

The clients of `ClusterShell` send every line that is typed at them to the server, with their name
in front.  The server relays the command part of a line `NODE.CMD` to the client of that node, and
that of `n*.CMD` to all clients; what comes next from anyone it takes for the answer and relays to
the client that asked.  A client passes whatever it receives to `REPL`, with its standard output
connected to the server.  Requests and answers look alike, so that the answer to a remote command is
executed by the client that asked for it.

The module follows any number of clients and the server.  A socket is a stream of bytes; a `recv`
returns any number of them.  The threads handle one message at a time.

Main definitions:

* `ClusterShell.State`, `ClusterShell.Event`, `ClusterShell.step` — the clients, the server and what
  is on its way between them;
* `ClusterShell.serve` — the loop body of the server's `recvmg`;
* `ClusterShell.Legit` — a string that a client may execute;
* `ClusterShell.Addressed` — the steps in which the server relays only requests.

Main results:

* `ClusterShell.legit_serve` — what the server relays under the condition;
* `ClusterShell.legit_of_addressed` — **the clients execute only what was addressed to them**;
* `ClusterShell.not_legit_of_answer` — without the condition they execute the answers.
-/

import NetworkProgramming.CString
import NetworkProgramming.Runs

set_option relaxedAutoImplicit false
set_option autoImplicit false

namespace ClusterShell

open CString Runs

/-! ### Streams -/

/-- What is left of the messages on a socket after `n` bytes were received. -/
def dropBytes : ℕ → List Text → List Text
  | _, [] => []
  | n, m :: ms => if n < m.length then m.drop n :: ms else dropBytes (n - m.length) ms

theorem mem_of_mem_dropBytes_zero {x : Text} {ms : List Text} (h : x ∈ dropBytes 0 ms) :
    x ∈ ms := by
  induction ms with
  | nil => cases h
  | cons m ms ih =>
      rw [dropBytes] at h
      split_ifs at h
      · exact h
      · exact List.mem_cons_of_mem _ (ih (by simpa using h))

/-- After a whole message was received, the others are left. -/
theorem mem_of_mem_dropBytes {x m : Text} {ms : List Text}
    (h : x ∈ dropBytes m.length (m :: ms)) : x ∈ ms := by
  rw [dropBytes, if_neg (lt_irrefl _), Nat.sub_self] at h
  exact mem_of_mem_dropBytes_zero h

/-! ### The system -/

/-- The nodes of `ipmap.cfg` and the names of the clients, in the order in which they connected. -/
structure Config where
  nodes : List Text
  names : List Text

/-- The clients, the server and the sockets.  The fields from `typed` on record what happened. -/
structure State where
  /-- The client that gets the next answer. -/
  sendToFd : Option ℕ
  sendToFdStar : Option ℕ
  /-- The answers that a thread of the server still expects. -/
  counter : ℕ → ℕ
  /-- The message buffer of a thread of the server. -/
  buffer : ℕ → Text
  toServer : ℕ → List Text
  toClient : ℕ → List Text
  /-- The client has left. -/
  exited : ℕ → Bool
  /-- The client has executed a message, so that a command may write to the server. -/
  remote : ℕ → Bool
  typed : List (ℕ × Text)
  repl : List (ℕ × Text)

/-- The buffers of the threads are not initialised. -/
def State.init (buffer : ℕ → Text) : State :=
  { sendToFd := none
    sendToFdStar := none
    counter := fun _ => 0
    buffer := buffer
    toServer := fun _ => []
    toClient := fun _ => []
    exited := fun _ => false
    remote := fun _ => false
    typed := []
    repl := [] }

/-- The server sends a message to the client `j`. -/
def State.send (s : State) (j : ℕ) (m : Text) : State :=
  if m = [] then s else { s with toClient := Function.update s.toClient j (s.toClient j ++ [m]) }

/-- The first node whose name starts the request and whose client is connected. -/
def matchNode (cfg : Config) (request : Text) : Option (Text × ℕ) :=
  cfg.nodes.zipIdx.find? fun p => p.1.isPrefixOf request && decide (p.2 < cfg.names.length)

/-- A request to one node: one byte behind the name is skipped, and the byte behind the string is
sent with it. -/
def relayNode (cfg : Config) (s : State) (i : ℕ) (buf : Text) : State :=
  let request := cstr (buf.drop 2)
  match matchNode cfg request with
  | none => s
  | some (node, k) =>
      { s.send k ((buf.drop (3 + node.length)).take (request.length - node.length)) with
        sendToFd := some i }

/-- The request is one to all nodes. -/
def isStar (request : Text) : Bool := "n*.".toList.isPrefixOf request && decide (3 < request.length)

/-- `sendtoall`. -/
def sendToAll (cfg : Config) (s : State) (m : Text) : State :=
  (List.range cfg.names.length).foldl (fun s j => s.send j m) s

/-- A request to all nodes. -/
def relayStar (cfg : Config) (s : State) (i : ℕ) (buf : Text) : State :=
  if isStar (cstr (buf.drop 2)) then
    { sendToAll cfg s (cstr (buf.drop 5)) with
      sendToFdStar := some i
      counter := Function.update s.counter i cfg.names.length }
  else s

/-- The request is `nodes`. -/
def isNodes (request : Text) : Bool := "nodes".toList.isPrefixOf request

/-- **The loop body of `recvmg` in the server**, in the thread of client `i`, with the message in
`buf`.  The name of the client is taken to be one byte long. -/
def serve (cfg : Config) (s : State) (i : ℕ) (buf : Text) : State :=
  if isNodes (cstr (buf.drop 2)) then s
  else
    match s.sendToFd with
    | some r => { s.send r (cstr buf) with sendToFd := none }
    | none =>
        match s.sendToFdStar with
        | some r =>
            if 0 < s.counter i then
              { s.send r (cstr buf) with
                counter := Function.update s.counter i (s.counter i - 1) }
            else { s with sendToFdStar := none }
        | none => relayStar cfg (relayNode cfg s i buf) i buf

/-- The line is not executed by the client at which it is typed. -/
def isRemote : Text → Bool
  | 'n' :: _ :: '.' :: _ => true
  | line => "nodes".toList.isPrefixOf line

/-- The message buffer after a `recv`. -/
def receiveInto (buf data : Text) : Text := data ++ '\x00' :: buf.drop (data.length + 1)

/-- The events. -/
inductive Event
  /-- A line is typed at client `i`. -/
  | types (i : ℕ) (line : Text)
  /-- The thread of client `i` in the server receives `len` bytes. -/
  | serve (i len : ℕ)
  /-- Client `i` receives `len` bytes. -/
  | recv (i len : ℕ)
  /-- A command that client `i` executes for the server writes something. -/
  | output (i : ℕ) (text : Text)

/-- **The step of the system.** -/
def step (cfg : Config) (s : State) : Event → Option State
  | .types i line =>
      match cfg.names[i]? with
      | none => none
      | some name =>
          if s.exited i = true ∨ line = [] ∨ '\x00' ∈ line then none
          else if "exit".toList.isPrefixOf line then
            some { s with exited := Function.update s.exited i true }
          else
            some
              { s with
                toServer :=
                  Function.update s.toServer i (s.toServer i ++ [name ++ ':' :: line])
                typed := s.typed ++ [(i, line)]
                repl := if isRemote line then s.repl else s.repl ++ [(i, line)] }
  | .serve i len =>
      let data := (s.toServer i).flatten.take len
      if 1 ≤ len ∧ len ≤ 5000 ∧ data.length = len then
        let buf := receiveInto (s.buffer i) data
        some (serve cfg
          { s with
            buffer := Function.update s.buffer i buf
            toServer := Function.update s.toServer i (dropBytes len (s.toServer i)) } i buf)
      else none
  | .recv i len =>
      let data := (s.toClient i).flatten.take len
      if s.exited i = false ∧ 1 ≤ len ∧ len ≤ 5000 ∧ data.length = len then
        some
          { s with
            toClient := Function.update s.toClient i (dropBytes len (s.toClient i))
            remote := Function.update s.remote i true
            repl := s.repl ++ [(i, cstr data)] }
      else none
  | .output i text =>
      if s.remote i = true ∧ text ≠ [] then
        some { s with toServer := Function.update s.toServer i (s.toServer i ++ [text]) }
      else none

/-! ### What a client may execute -/

/-- **A string that client `i` may execute**: a line typed there, or the command part of a line
typed anywhere that names its node or all nodes. -/
def Legit (cfg : Config) (s : State) (i : ℕ) (x : Text) : Prop :=
  (i, x) ∈ s.typed ∨
    ∃ p ∈ s.typed, (∃ node ∈ cfg.nodes[i]?, p.2 = node ++ '.' :: x) ∨ p.2 = "n*.".toList ++ x

instance (cfg : Config) (s : State) (i : ℕ) (x : Text) : Decidable (Legit cfg s i x) :=
  inferInstanceAs (Decidable (_ ∨ _))

/-- The message is a line typed at client `i`, whose name is one byte long. -/
def isTyped (cfg : Config) (s : State) (i : ℕ) (data : Text) : Bool :=
  match cfg.names[i]? with
  | some [c] => s.typed.any fun p => decide (p.1 = i) && decide (data = c :: ':' :: p.2)
  | _ => false

/-- The server, with `buf` as the old contents of the buffer, relays the message as a request, or
not at all.  If it relays it to a node, a dot follows the name of the node. -/
def RelaysRequest (cfg : Config) (s : State) (i : ℕ) (buf data : Text) : Prop :=
  let request := cstr ((receiveInto buf data).drop 2)
  isNodes request = true ∨
    (s.sendToFd = none ∧ (s.sendToFdStar ≠ none → s.counter i = 0) ∧
      (s.sendToFdStar = none →
        (∀ p ∈ matchNode cfg request,
          isTyped cfg s i data = true ∧ (request.drop p.1.length).head? = some '.') ∧
        (isStar request = true → isTyped cfg s i data = true)))

instance (cfg : Config) (s : State) (i : ℕ) (buf data : Text) :
    Decidable (RelaysRequest cfg s i buf data) :=
  inferInstanceAs (Decidable (_ ∨ _))

/-- **The condition on a step**: a `recv` returns one message, and the server takes no message for
an answer, and none but a typed line for a request. -/
def Addressed (cfg : Config) (s : State) : Event → Prop
  | .serve i len =>
      ∃ m ∈ (s.toServer i).head?, m.length = len ∧ RelaysRequest cfg s i (s.buffer i) m
  | .recv i len => ∃ m ∈ (s.toClient i).head?, m.length = len
  | _ => True

instance (cfg : Config) (s : State) : ∀ e, Decidable (Addressed cfg s e)
  | .serve i len =>
      inferInstanceAs
        (Decidable
          (∃ m ∈ (s.toServer i).head?, m.length = len ∧ RelaysRequest cfg s i (s.buffer i) m))
  | .recv i len => inferInstanceAs (Decidable (∃ m ∈ (s.toClient i).head?, m.length = len))
  | .types _ _ => inferInstanceAs (Decidable True)
  | .output _ _ => inferInstanceAs (Decidable True)

/-! ### What the server relays -/

section Relay

variable {cfg : Config} {s s' : State}

theorem Legit.mono {i : ℕ} {x : Text} (h : Legit cfg s i x) (hsub : s.typed ⊆ s'.typed) :
    Legit cfg s' i x := by
  rcases h with h | ⟨p, hp, h⟩
  · exact Or.inl (hsub h)
  · exact Or.inr ⟨p, hsub hp, h⟩

/-- Everything on its way to a client is something that it may execute. -/
def Clean (cfg : Config) (s : State) : Prop := ∀ j, ∀ m ∈ s.toClient j, Legit cfg s j (cstr m)

@[simp] theorem send_typed (j : ℕ) (m : Text) : (s.send j m).typed = s.typed := by
  unfold State.send
  split_ifs <;> rfl

@[simp] theorem send_repl (j : ℕ) (m : Text) : (s.send j m).repl = s.repl := by
  unfold State.send
  split_ifs <;> rfl

theorem clean_send (h : Clean cfg s) {j : ℕ} {m : Text} (hm : Legit cfg s j (cstr m)) :
    Clean cfg (s.send j m) := by
  intro k x hx
  refine Legit.mono (s := s) ?_ (by simp)
  unfold State.send at hx
  split_ifs at hx
  · exact h k x hx
  · dsimp only at hx
    by_cases hk : k = j
    · subst hk
      rw [Function.update_self] at hx
      rcases List.mem_append.1 hx with hx | hx
      · exact h k x hx
      · rw [List.mem_singleton.1 hx]
        exact hm
    · rw [Function.update_of_ne hk] at hx
      exact h k x hx

theorem sendToAll_spec (h : Clean cfg s) {m : Text} (hm : ∀ j, Legit cfg s j (cstr m)) :
    Clean cfg (sendToAll cfg s m) ∧ (sendToAll cfg s m).typed = s.typed ∧
      (sendToAll cfg s m).repl = s.repl := by
  unfold sendToAll
  induction List.range cfg.names.length generalizing s with
  | nil => exact ⟨h, rfl, rfl⟩
  | cons j js ih =>
      obtain ⟨hclean, htyped, hrepl⟩ := ih (clean_send h (hm j)) fun k =>
        (hm k).mono (by simp)
      exact ⟨hclean, htyped.trans (send_typed j m), hrepl.trans (send_repl j m)⟩

/-- The message in the buffer is a line typed at client `i`. -/
theorem isTyped_iff {i : ℕ} {data : Text} (h : isTyped cfg s i data = true) :
    ∃ c line, (i, line) ∈ s.typed ∧ data = c :: ':' :: line := by
  unfold isTyped at h
  split at h
  · obtain ⟨p, hp, heq⟩ := List.any_eq_true.1 h
    simp only [Bool.and_eq_true, decide_eq_true_eq] at heq
    exact ⟨_, p.2, heq.1 ▸ hp, heq.2⟩
  · cases h

theorem drop_two_receiveInto (buf : Text) (c : Char) (line : Text) :
    ∃ rest, (receiveInto buf (c :: ':' :: line)).drop 2 = line ++ '\x00' :: rest :=
  ⟨_, rfl⟩

/-- The bytes from behind the dot to the end of the string, which are sent with a request. -/
theorem request_bytes (buf : Text) (c : Char) (node cmd : Text) :
    ((receiveInto buf (c :: ':' :: (node ++ '.' :: cmd))).drop (3 + node.length)).take
      ((node ++ '.' :: cmd).length - node.length) = cmd ++ ['\x00'] := by
  obtain ⟨rest, hrest⟩ := drop_two_receiveInto buf c (node ++ '.' :: cmd)
  have hdrop : (receiveInto buf (c :: ':' :: (node ++ '.' :: cmd))).drop (3 + node.length) =
      cmd ++ '\x00' :: rest := by
    rw [show 3 + node.length = 2 + (node.length + 1) by omega, ← List.drop_drop, hrest]
    simp
  have hlen : (node ++ '.' :: cmd).length - node.length = cmd.length + 1 := by simp
  rw [hdrop, hlen, List.take_append]
  simp

theorem matchNode_eq_some {request : Text} {node : Text} {k : ℕ}
    (h : matchNode cfg request = some (node, k)) :
    cfg.nodes[k]? = some node ∧ node <+: request := by
  have hmem := List.mem_of_find?_eq_some h
  have hpre := List.find?_some h
  simp only [Bool.and_eq_true, List.isPrefixOf_iff_prefix] at hpre
  exact ⟨by simpa using List.mem_zipIdx_iff_getElem?.1 hmem, hpre.1⟩

/-- A request to a node is relayed to the client of that node, without the name. -/
theorem relayNode_spec (h : Clean cfg s) (htyped : ∀ p ∈ s.typed, '\x00' ∉ p.2) {i : ℕ}
    {buf data : Text}
    (hmatch : ∀ p ∈ matchNode cfg (cstr ((receiveInto buf data).drop 2)),
      isTyped cfg s i data = true ∧
        ((cstr ((receiveInto buf data).drop 2)).drop p.1.length).head? = some '.') :
    Clean cfg (relayNode cfg s i (receiveInto buf data)) ∧
      (relayNode cfg s i (receiveInto buf data)).typed = s.typed ∧
      (relayNode cfg s i (receiveInto buf data)).repl = s.repl := by
  unfold relayNode
  cases hm : matchNode cfg (cstr ((receiveInto buf data).drop 2)) with
  | none => simpa [hm] using h
  | some p =>
      obtain ⟨node, k⟩ := p
      obtain ⟨hdata, hdot⟩ := hmatch _ hm
      obtain ⟨c, line, hline, rfl⟩ := isTyped_iff hdata
      obtain ⟨rest, hrest⟩ := drop_two_receiveInto buf c line
      have hrequest : cstr ((receiveInto buf (c :: ':' :: line)).drop 2) = line := by
        rw [hrest, cstr_append_nul (htyped _ hline)]
      rw [hrequest] at hm hdot
      obtain ⟨hnode, cmd', rfl⟩ := matchNode_eq_some hm
      rw [List.drop_left] at hdot
      obtain ⟨cmd, rfl⟩ : ∃ cmd, cmd' = '.' :: cmd := by
        cases cmd' with
        | nil => cases hdot
        | cons d cmd => exact ⟨cmd, by rw [Option.some_inj.1 hdot]⟩
      have hnul : '\x00' ∉ cmd := fun hc => htyped _ hline (by simp [hc])
      have hsent := request_bytes buf c node cmd
      have hlegit : Legit cfg s k (cstr (cmd ++ '\x00' :: [])) := by
        rw [cstr_append_nul hnul]
        exact Or.inr ⟨_, hline, Or.inl ⟨node, hnode, rfl⟩⟩
      simp only [hrequest, hm, hsent]
      refine ⟨?_, by simp, by simp⟩
      intro j m hj
      exact (clean_send h hlegit j m hj).mono (fun _ hp => hp)

/-- A request to all nodes is relayed to every client. -/
theorem relayStar_spec (h : Clean cfg s) (htyped : ∀ p ∈ s.typed, '\x00' ∉ p.2) {i : ℕ}
    {buf data : Text}
    (hstar : isStar (cstr ((receiveInto buf data).drop 2)) = true → isTyped cfg s i data = true) :
    Clean cfg (relayStar cfg s i (receiveInto buf data)) ∧
      (relayStar cfg s i (receiveInto buf data)).typed = s.typed ∧
      (relayStar cfg s i (receiveInto buf data)).repl = s.repl := by
  unfold relayStar
  split_ifs with his
  · obtain ⟨c, line, hline, rfl⟩ := isTyped_iff (hstar his)
    obtain ⟨rest, hrest⟩ := drop_two_receiveInto buf c line
    rw [hrest, cstr_append_nul (htyped _ hline)] at his
    obtain ⟨cmd, rfl⟩ : "n*.".toList <+: line := by
      rw [isStar, Bool.and_eq_true, List.isPrefixOf_iff_prefix] at his
      exact his.1
    have hnul : '\x00' ∉ cmd := fun hc => htyped _ hline (by simp [hc])
    have hsent : cstr ((receiveInto buf (c :: ':' :: ("n*.".toList ++ cmd))).drop 5) = cmd := by
      have hdrop : (receiveInto buf (c :: ':' :: ("n*.".toList ++ cmd))).drop 5 =
          cmd ++ '\x00' :: rest := by
        rw [show 5 = 2 + 3 by omega, ← List.drop_drop, hrest]
        rfl
      rw [hdrop, cstr_append_nul hnul]
    have hlegit : ∀ j, Legit cfg s j (cstr cmd) := fun j => by
      rw [cstr_eq_self hnul]
      exact Or.inr ⟨_, hline, Or.inr rfl⟩
    rw [hsent]
    obtain ⟨hclean, htyped', hrepl⟩ := sendToAll_spec h hlegit
    exact ⟨hclean, htyped', hrepl⟩
  · exact ⟨h, rfl, rfl⟩

theorem isTyped_congr (h : s.typed = s'.typed) (i : ℕ) (data : Text) :
    isTyped cfg s i data = isTyped cfg s' i data := by
  simp only [isTyped, h]

/-- **What the server relays under the condition** is what its receiver may execute. -/
theorem legit_serve (h : Clean cfg s) (htyped : ∀ p ∈ s.typed, '\x00' ∉ p.2) {i : ℕ}
    {buf data : Text} (hc : RelaysRequest cfg s i buf data) :
    Clean cfg (serve cfg s i (receiveInto buf data)) ∧
      (serve cfg s i (receiveInto buf data)).typed = s.typed ∧
      (serve cfg s i (receiveInto buf data)).repl = s.repl := by
  by_cases hnodes : isNodes (cstr ((receiveInto buf data).drop 2)) = true
  · rw [serve, if_pos hnodes]
    exact ⟨h, rfl, rfl⟩
  · obtain ⟨hfd, hcount, hidle⟩ := hc.resolve_left hnodes
    cases hstar : s.sendToFdStar with
    | some r =>
        -- an answer is dropped when the thread does not wait for one
        have hzero : ¬ 0 < s.counter i := by
          rw [hcount (by simp [hstar])]
          exact lt_irrefl 0
        have hdrop : serve cfg s i (receiveInto buf data) = { s with sendToFdStar := none } := by
          simp only [serve, if_neg hnodes, hfd, hstar, if_neg hzero]
        rw [hdrop]
        exact ⟨h, rfl, rfl⟩
    | none =>
        obtain ⟨hmatch, hall⟩ := hidle hstar
        obtain ⟨hclean, htyped', hrepl⟩ := relayNode_spec (i := i) h htyped hmatch
        obtain ⟨hclean', htyped'', hrepl'⟩ := relayStar_spec (i := i) hclean
          (fun p hp => htyped p (htyped' ▸ hp))
          (fun his => (isTyped_congr htyped' i data).trans (hall his))
        simp only [serve, if_neg hnodes, hfd, hstar]
        exact ⟨hclean', htyped''.trans htyped', hrepl'.trans hrepl⟩

end Relay

/-! ### Runs -/

/-- **The invariant**: what was executed, and what is on its way to be executed, is legitimate. -/
structure Inv (cfg : Config) (s : State) : Prop where
  repl : ∀ p ∈ s.repl, Legit cfg s p.1 p.2
  clean : Clean cfg s
  typed : ∀ p ∈ s.typed, '\x00' ∉ p.2

theorem inv_init (cfg : Config) (buffer : ℕ → Text) : Inv cfg (State.init buffer) := by
  refine ⟨?_, ?_, ?_⟩
  · intro p hp
    cases hp
  · intro j m hm
    cases hm
  · intro p hp
    cases hp

theorem inv_types {cfg : Config} {s s' : State} (hs : Inv cfg s) {i : ℕ} {line : Text}
    (h : step cfg s (.types i line) = some s') : Inv cfg s' := by
  simp only [step] at h
  split at h
  · cases h
  · split_ifs at h with hno hexit hremote
    · rw [← Option.some_inj.1 h]
      exact ⟨hs.repl, hs.clean, hs.typed⟩
    all_goals
      rw [← Option.some_inj.1 h]
      have hsub : s.typed ⊆ s.typed ++ [(i, line)] := List.subset_append_left _ _
      have htyped : ∀ p ∈ s.typed ++ [(i, line)], '\x00' ∉ p.2 := by
        intro p hp
        rcases List.mem_append.1 hp with hp | hp
        · exact hs.typed p hp
        · rw [List.mem_singleton.1 hp]
          exact fun hc => hno (Or.inr (Or.inr hc))
      refine ⟨?_, fun j m hm => (hs.clean j m hm).mono hsub, htyped⟩
      intro p hp
    · exact (hs.repl p hp).mono hsub
    · rcases List.mem_append.1 hp with hp | hp
      · exact (hs.repl p hp).mono hsub
      · rw [List.mem_singleton.1 hp]
        exact Or.inl (by simp)

theorem inv_step {cfg : Config} (s : State) (e : Event) (s' : State) (hs : Inv cfg s)
    (hc : Addressed cfg s e) (h : step cfg s e = some s') : Inv cfg s' := by
  cases e with
  | types i line => exact inv_types hs h
  | serve i len =>
      obtain ⟨m, hm, rfl, hrelay⟩ := hc
      obtain ⟨ms, hq⟩ : ∃ ms, s.toServer i = m :: ms := List.head?_eq_some_iff.1 hm
      have hdata : (s.toServer i).flatten.take m.length = m := by rw [hq]; simp
      simp only [step, hdata] at h
      split_ifs at h
      obtain ⟨hclean, htyped, hrepl⟩ := legit_serve
        (s := { s with
          buffer := Function.update s.buffer i (receiveInto (s.buffer i) m)
          toServer := Function.update s.toServer i (dropBytes m.length (s.toServer i)) })
        hs.clean hs.typed hrelay
      rw [← Option.some_inj.1 h]
      refine ⟨?_, hclean, fun p hp => hs.typed p (htyped ▸ hp)⟩
      intro p hp
      exact (hs.repl p (hrepl ▸ hp)).mono fun q hq => htyped.symm ▸ hq
  | recv i len =>
      obtain ⟨m, hm, rfl⟩ := hc
      obtain ⟨ms, hq⟩ : ∃ ms, s.toClient i = m :: ms := List.head?_eq_some_iff.1 hm
      have hdata : (s.toClient i).flatten.take m.length = m := by rw [hq]; simp
      simp only [step, hdata] at h
      split_ifs at h
      rw [← Option.some_inj.1 h]
      have hhead : Legit cfg s i (cstr m) := hs.clean i m (by simp [hq])
      refine ⟨?_, ?_, hs.typed⟩
      · intro p hp
        rcases List.mem_append.1 hp with hp | hp
        · exact hs.repl p hp
        · rw [List.mem_singleton.1 hp]
          exact hhead
      · intro j x hx
        dsimp only at hx
        by_cases hj : j = i
        · subst hj
          rw [Function.update_self, hq] at hx
          exact hs.clean j x (hq ▸ List.mem_cons_of_mem _ (mem_of_mem_dropBytes hx))
        · rw [Function.update_of_ne hj] at hx
          exact hs.clean j x hx
  | output i text =>
      simp only [step] at h
      split_ifs at h
      rw [← Option.some_inj.1 h]
      exact ⟨hs.repl, hs.clean, hs.typed⟩

/-- **The clients execute only what was addressed to them**: in every run whose steps meet the
condition, every string that a client has passed to `REPL` is a line typed there or the command part
of a line that names it. -/
theorem legit_of_addressed {cfg : Config} {buffer : ℕ → Text} {es : List Event} {s : State}
    (hrun : run (step cfg) (State.init buffer) es = some s)
    (hc : Along (step cfg) (Addressed cfg) (State.init buffer) es) :
    ∀ p ∈ s.repl, Legit cfg s p.1 p.2 :=
  (run_invariant_along inv_step (inv_init cfg buffer) hc hrun).repl

/-- Two nodes and their clients. -/
def pair : Config := ⟨["n1".toList, "n2".toList], ["1".toList, "2".toList]⟩

/-- A local command and a request to the other node. -/
def requestRun : List Event :=
  [.types 1 "ls\n".toList, .serve 1 5, .types 1 "n1.pwd\n".toList, .serve 1 9, .recv 0 5]

/-- The state after these steps. -/
def requestEnd : State := (run (step pair) (State.init fun _ => []) requestRun).get (by decide)

theorem legit_requestRun :
    requestEnd.repl = [(1, "ls\n".toList), (0, "pwd\n".toList)] ∧
      ∀ p ∈ requestEnd.repl, Legit pair requestEnd p.1 p.2 :=
  ⟨by decide, legit_of_addressed
    (show run (step pair) (State.init fun _ => []) requestRun = some requestEnd from
      (Option.some_get _).symm) (by decide)⟩

/-- A request and its answer. -/
def answerRun : List Event :=
  [.types 1 "n1.echo date\n".toList, .serve 1 15, .recv 0 11, .output 0 "date\n".toList, .serve 0 5,
    .recv 1 5]

/-- The state after these steps. -/
def answerEnd : State := (run (step pair) (State.init fun _ => []) answerRun).get (by decide)

/-- **The answer to a remote command is executed** by the client that asked. -/
theorem not_legit_of_answer :
    ¬ ∀ (cfg : Config) (buffer : ℕ → Text) (es : List Event) (s : State),
      run (step cfg) (State.init buffer) es = some s → ∀ p ∈ s.repl, Legit cfg s p.1 p.2 := by
  intro hall
  have hlegit := hall pair (fun _ => []) answerRun answerEnd (Option.some_get _).symm
    (1, "date\n".toList) (by decide)
  revert hlegit
  decide

end ClusterShell
