/-
**ClusterShell: requests and answers at the server.**

The server keeps the client that waits for an answer in one variable for all its threads.  Whatever
message comes next, from whichever client, is taken for the answer.  For a request to all nodes it
keeps the client in a second variable, and the number of the answers in a variable of the thread of
that client, although the answers arrive in the threads of the others.

The module follows the messages that the server receives, one loop body of `recvmg` each.

Main definitions:

* `ClusterShell.sends` — the calls of `send` in the loop body;
* `ClusterShell.Server`, `ClusterShell.receive` — the server, and to whom the open request went;
* `ClusterShell.Request`, `ClusterShell.asked` — what a line asks one client or all clients for;
* `ClusterShell.Correlated` — an answer comes from the client that was asked, and a request is
  relayed;
* `ClusterShell.Conversation` — the messages in which nothing comes between a request and its answer;
* `ClusterShell.Collects` — all answers to a request to all nodes are relayed.

Main results:

* `ClusterShell.serve_toClient` — the loop body sends what `sends` says;
* `ClusterShell.asked_sends_iff` — when a request is relayed;
* `ClusterShell.correlated_iff` — **answers and requests are told apart exactly when the messages are
  a conversation**;
* `ClusterShell.not_collects` — **the answers to a request to all nodes are never all relayed**.
-/

import NetworkProgramming.ClusterShell

set_option relaxedAutoImplicit false
set_option autoImplicit false

namespace ClusterShell

open CString Runs

/-! ### What the server sends -/

/-- The `send` of a request to one node. -/
def nodeSends (cfg : Config) (buf : Text) : List (ℕ × Text) :=
  let request := cstr (buf.drop 2)
  match matchNode cfg request with
  | none => []
  | some (node, k) => [(k, (buf.drop (3 + node.length)).take (request.length - node.length))]

/-- The `send`s of a request to all nodes. -/
def starSends (cfg : Config) (buf : Text) : List (ℕ × Text) :=
  if isStar (cstr (buf.drop 2)) then
    (List.range cfg.names.length).map fun j => (j, cstr (buf.drop 5))
  else []

/-- **The calls of `send` in the loop body of `recvmg`**: the receiver and the bytes. -/
def sends (cfg : Config) (s : State) (i : ℕ) (buf : Text) : List (ℕ × Text) :=
  if isNodes (cstr (buf.drop 2)) then []
  else
    match s.sendToFd with
    | some r => [(r, cstr buf)]
    | none =>
        match s.sendToFdStar with
        | some r => if 0 < s.counter i then [(r, cstr buf)] else []
        | none => nodeSends cfg buf ++ starSends cfg buf

theorem send_congr {s t : State} (h : s.toClient = t.toClient) (j : ℕ) (m : Text) :
    (s.send j m).toClient = (t.send j m).toClient := by
  unfold State.send
  split_ifs
  · exact h
  · rw [h]

theorem foldl_send_congr {s t : State} (h : s.toClient = t.toClient) (ps : List (ℕ × Text)) :
    (ps.foldl (fun s p => s.send p.1 p.2) s).toClient =
      (ps.foldl (fun s p => s.send p.1 p.2) t).toClient := by
  induction ps generalizing s t with
  | nil => exact h
  | cons p ps ih => exact ih (send_congr h p.1 p.2)

theorem relayNode_toClient (cfg : Config) (s : State) (i : ℕ) (buf : Text) :
    (relayNode cfg s i buf).toClient =
      ((nodeSends cfg buf).foldl (fun s p => s.send p.1 p.2) s).toClient := by
  cases hm : matchNode cfg (cstr (buf.drop 2)) with
  | none => simp only [relayNode, nodeSends, hm, List.foldl_nil]
  | some p => simp only [relayNode, nodeSends, hm, List.foldl_cons, List.foldl_nil]

theorem relayStar_toClient (cfg : Config) (s : State) (i : ℕ) (buf : Text) :
    (relayStar cfg s i buf).toClient =
      ((starSends cfg buf).foldl (fun s p => s.send p.1 p.2) s).toClient := by
  unfold relayStar starSends
  split_ifs
  · rw [List.foldl_map]
    rfl
  · rfl

/-- **The loop body sends what `sends` says.** -/
theorem serve_toClient (cfg : Config) (s : State) (i : ℕ) (buf : Text) :
    (serve cfg s i buf).toClient =
      ((sends cfg s i buf).foldl (fun s p => s.send p.1 p.2) s).toClient := by
  by_cases hnodes : isNodes (cstr (buf.drop 2)) = true
  · simp only [serve, sends, if_pos hnodes, List.foldl_nil]
  · simp only [serve, sends, if_neg hnodes]
    cases s.sendToFd with
    | some r => rfl
    | none =>
        cases s.sendToFdStar with
        | some r =>
            by_cases hcount : 0 < s.counter i
            · simp only [if_pos hcount, List.foldl_cons, List.foldl_nil]
            · simp only [if_neg hcount, List.foldl_nil]
        | none =>
            dsimp only
            rw [relayStar_toClient, List.foldl_append]
            exact foldl_send_congr (relayNode_toClient cfg s i buf) _

/-! ### The server -/

/-- What a client sends: a line that was typed, or what a command writes. -/
inductive Message
  | line (text : Text)
  | output (text : Text)
  deriving DecidableEq

/-- The bytes of a message of the client with the given name. -/
def Message.data (name : Text) : Message → Text
  | .line text => name ++ ':' :: text
  | .output text => text

/-- A client can send the message, and one `recv` returns it. -/
def Message.Sendable (name : Text) : Message → Prop
  | .line text => text ≠ [] ∧ '\x00' ∉ name ++ ':' :: text ∧ (name ++ ':' :: text).length ≤ 5000
  | .output text => text ≠ [] ∧ text.length ≤ 5000

instance (name : Text) : ∀ m : Message, Decidable (m.Sendable name)
  | .line text => inferInstanceAs (Decidable (text ≠ [] ∧ _ ∧ _))
  | .output text => inferInstanceAs (Decidable (text ≠ [] ∧ _))

/-- The server, and the client to which the request went that waits for its answer. -/
structure Server where
  state : State
  target : Option ℕ

def Server.init (buffer : ℕ → Text) : Server := ⟨State.init buffer, none⟩

/-- The buffer of the thread of client `i` after a message. -/
def Server.receives (cfg : Config) (v : Server) (i : ℕ) (m : Message) : Text :=
  receiveInto (v.state.buffer i) (m.data (cfg.names.getD i []))

/-- The client to which the open request went, after a message. -/
def Server.nextTarget (cfg : Config) (v : Server) (buf : Text) : Option ℕ :=
  if isNodes (cstr (buf.drop 2)) then v.target
  else
    match v.state.sendToFd, v.state.sendToFdStar with
    | none, none => (matchNode cfg (cstr (buf.drop 2))).map Prod.snd
    | _, _ => none

/-- **The server receives a message** of a client. -/
def receive (cfg : Config) (v : Server) (e : ℕ × Message) : Option Server :=
  if e.1 < cfg.names.length ∧ e.2.Sendable (cfg.names.getD e.1 []) then
    let buf := v.receives cfg e.1 e.2
    some
      { state := serve cfg
          { v.state with buffer := Function.update v.state.buffer e.1 buf } e.1 buf
        target := v.nextTarget cfg buf }
  else none

@[simp] theorem send_sendToFd (s : State) (j : ℕ) (m : Text) :
    (s.send j m).sendToFd = s.sendToFd := by
  unfold State.send
  split_ifs <;> rfl

@[simp] theorem send_sendToFdStar (s : State) (j : ℕ) (m : Text) :
    (s.send j m).sendToFdStar = s.sendToFdStar := by
  unfold State.send
  split_ifs <;> rfl

@[simp] theorem sendToAll_sendToFd (cfg : Config) (s : State) (m : Text) :
    (sendToAll cfg s m).sendToFd = s.sendToFd := by
  unfold sendToAll
  induction List.range cfg.names.length generalizing s with
  | nil => rfl
  | cons j js ih => exact (ih (s.send j m)).trans (send_sendToFd s j m)

@[simp] theorem relayStar_sendToFd (cfg : Config) (s : State) (i : ℕ) (buf : Text) :
    (relayStar cfg s i buf).sendToFd = s.sendToFd := by
  unfold relayStar
  split_ifs
  · exact sendToAll_sendToFd cfg s _
  · rfl

theorem relayNode_sendToFd (cfg : Config) (s : State) (i : ℕ) (buf : Text) :
    (relayNode cfg s i buf).sendToFd =
      ((matchNode cfg (cstr (buf.drop 2))).map fun _ => i).or s.sendToFd := by
  cases hm : matchNode cfg (cstr (buf.drop 2)) with
  | none => simp only [relayNode, hm, Option.map_none, Option.none_or]
  | some p => simp only [relayNode, hm, Option.map_some, Option.some_or]

/-- **A request waits for its answer exactly when it is known where it went.** -/
theorem target_isSome {cfg : Config} {v v' : Server} {e : ℕ × Message}
    (hv : v.state.sendToFd.isSome = v.target.isSome) (h : receive cfg v e = some v') :
    v'.state.sendToFd.isSome = v'.target.isSome := by
  unfold receive at h
  split_ifs at h
  obtain rfl := Option.some_inj.1 h
  simp only [Server.nextTarget, serve]
  by_cases hnodes : isNodes (cstr ((v.receives cfg e.1 e.2).drop 2)) = true
  · simpa only [if_pos hnodes] using hv
  · simp only [if_neg hnodes]
    cases hfd : v.state.sendToFd with
    | some r => rfl
    | none =>
        cases hstar : v.state.sendToFdStar with
        | some r =>
            dsimp only
            split_ifs <;> simp
        | none =>
            simp only [relayStar_sendToFd, relayNode_sendToFd, Option.or_none, Option.isSome_map]

/-! ### One request at a time -/

/-- What a line asks for: a command at one client, or at all of them. -/
inductive Request
  | node (k : ℕ) (cmd : Text)
  | all (cmd : Text)
  deriving DecidableEq

/-- What is to be sent.  A request to one node takes the byte behind its string with it. -/
def Request.sends (cfg : Config) : Request → List (ℕ × Text)
  | .node k cmd => [(k, cmd ++ ['\x00'])]
  | .all cmd => (List.range cfg.names.length).map fun k => (k, cmd)

/-- The requests that a line can be meant as. -/
def asked (cfg : Config) : Message → List Request
  | .line text =>
      (cfg.nodes.zipIdx.filterMap fun p =>
        if (p.1 ++ ['.']).isPrefixOf text && decide (p.2 < cfg.names.length) then
          some (.node p.2 (text.drop (p.1.length + 1)))
        else none) ++ if isStar text then [.all (text.drop 3)] else []
  | .output _ => []

theorem node_mem_asked {cfg : Config} {m : Message} {k : ℕ} {cmd : Text}
    (h : Request.node k cmd ∈ asked cfg m) :
    ∃ node, cfg.nodes[k]? = some node ∧ m = .line (node ++ '.' :: cmd) := by
  cases m with
  | output text => cases h
  | line text =>
      rcases List.mem_append.1 h with h | h
      · obtain ⟨⟨node, j⟩, hmem, hsome⟩ := List.mem_filterMap.1 h
        split_ifs at hsome with hpre
        cases hsome
        simp only [Bool.and_eq_true, List.isPrefixOf_iff_prefix] at hpre
        obtain ⟨rest, rfl⟩ := hpre.1
        refine ⟨node, by simpa using List.mem_zipIdx_iff_getElem?.1 hmem, ?_⟩
        simp
      · split_ifs at h
        · simp at h
        · cases h

theorem all_mem_asked {cfg : Config} {m : Message} {cmd : Text} (h : Request.all cmd ∈ asked cfg m) :
    cmd ≠ [] ∧ m = .line ("n*.".toList ++ cmd) := by
  cases m with
  | output text => cases h
  | line text =>
      rcases List.mem_append.1 h with h | h
      · obtain ⟨p, -, hsome⟩ := List.mem_filterMap.1 h
        split_ifs at hsome
        cases hsome
      · split_ifs at h with hstar
        · cases List.mem_singleton.1 h
          simp only [isStar, Bool.and_eq_true, List.isPrefixOf_iff_prefix, decide_eq_true_eq] at hstar
          obtain ⟨⟨rest, rfl⟩, hlen⟩ := hstar
          refine ⟨?_, by simp⟩
          rintro hnil
          simp at hnil hlen
          simp [hnil] at hlen
        · cases h

/-- The line of client `i` is read as the request when no other one is open.  The name of the client
has one byte, and the first node with which the line starts is the one that is asked. -/
def readAs (cfg : Config) (i : ℕ) (m : Message) : Request → Bool
  | .node k _ =>
      match cfg.names[i]?, m with
      | some [_], .line text => !isNodes text && (matchNode cfg text).map Prod.snd = some k
      | _, _ => false
  | .all _ =>
      match cfg.names[i]? with
      | some [_] => true
      | _ => false

/-- **Answers and requests are told apart**: a message that is relayed as an answer was sent by the
client to which the request had been relayed, and a line that asks clients for a command is relayed
to them. -/
def Correlated (cfg : Config) (v : Server) (e : ℕ × Message) : Prop :=
  let buf := v.receives cfg e.1 e.2
  (∀ r ∈ v.state.sendToFd, isNodes (cstr (buf.drop 2)) = false → v.target = some e.1) ∧
    ∀ q ∈ asked cfg e.2, ∀ p ∈ q.sends cfg, p ∈ sends cfg v.state e.1 buf

instance (cfg : Config) (v : Server) (e : ℕ × Message) : Decidable (Correlated cfg v e) :=
  inferInstanceAs (Decidable ((∀ r ∈ v.state.sendToFd, _ → _) ∧ _))

/-- The client whose answer is awaited after a message; what is read in it as a request counts if none
is awaited yet. -/
def nextWaits (cfg : Config) (v : Server) (waits : Option ℕ) (request : Text) : Option ℕ :=
  if isNodes request then waits
  else if waits = none ∧ v.state.sendToFdStar = none then (matchNode cfg request).map Prod.snd
  else none

/-- **A conversation**: the messages after a request to a node are those of the client that was asked,
up to the first which is not about the nodes; it is the answer.  Requests come when neither an answer
nor the end of a request to all nodes is awaited, and are read as what they are. -/
def Conversation (cfg : Config) : Option ℕ → Server → List (ℕ × Message) → Prop
  | _, _, [] => True
  | waits, v, e :: es =>
      let request := cstr ((v.receives cfg e.1 e.2).drop 2)
      (∀ k ∈ waits, isNodes request = false → e.1 = k) ∧
        (∀ q ∈ asked cfg e.2,
          waits = none ∧ v.state.sendToFdStar = none ∧ readAs cfg e.1 e.2 q = true) ∧
        match receive cfg v e with
        | none => True
        | some v' => Conversation cfg (nextWaits cfg v waits request) v' es

instance Conversation.decidable (cfg : Config) :
    ∀ (waits : Option ℕ) (v : Server) (es : List (ℕ × Message)),
      Decidable (Conversation cfg waits v es)
  | _, _, [] => isTrue trivial
  | waits, v, e :: es =>
      let request := cstr ((v.receives cfg e.1 e.2).drop 2)
      have : Decidable (match receive cfg v e with
          | none => True
          | some v' => Conversation cfg (nextWaits cfg v waits request) v' es) :=
        match receive cfg v e with
        | none => isTrue trivial
        | some v' => Conversation.decidable cfg _ v' es
      inferInstanceAs (Decidable ((∀ k ∈ waits, isNodes request = false → e.1 = k) ∧
        (∀ q ∈ asked cfg e.2,
          waits = none ∧ v.state.sendToFdStar = none ∧ readAs cfg e.1 e.2 q = true) ∧ _))

/-- A message is relayed as it is, or as a request when none is open. -/
theorem mem_sends {cfg : Config} {s : State} {i : ℕ} {buf : Text} {p : ℕ × Text}
    (h : p ∈ sends cfg s i buf) :
    p.2 = cstr buf ∨ isNodes (cstr (buf.drop 2)) = false ∧ s.sendToFd = none ∧
      s.sendToFdStar = none ∧ (p ∈ nodeSends cfg buf ∨ p ∈ starSends cfg buf) := by
  unfold sends at h
  by_cases hnodes : isNodes (cstr (buf.drop 2)) = true
  · rw [if_pos hnodes] at h
    cases h
  · rw [if_neg hnodes] at h
    cases hfd : s.sendToFd with
    | some r =>
        simp only [hfd, List.mem_singleton] at h
        exact Or.inl (congrArg Prod.snd h)
    | none =>
        cases hstar : s.sendToFdStar with
        | some r =>
            simp only [hfd, hstar] at h
            split_ifs at h
            · exact Or.inl (congrArg Prod.snd (List.mem_singleton.1 h))
            · cases h
        | none =>
            simp only [hfd, hstar, List.mem_append] at h
            exact Or.inr ⟨by simpa using hnodes, rfl, rfl, h⟩

/-- Only a request to one node is sent with the byte behind its string. -/
theorem mem_sends_nul {cfg : Config} {s : State} {i k : ℕ} {buf cmd : Text}
    (h : (k, cmd ++ ['\x00']) ∈ sends cfg s i buf) :
    isNodes (cstr (buf.drop 2)) = false ∧ s.sendToFd = none ∧ s.sendToFdStar = none ∧
      (k, cmd ++ ['\x00']) ∈ nodeSends cfg buf := by
  have hstr : ∀ t : Text, cmd ++ ['\x00'] ≠ cstr t := fun t heq =>
    nul_notMem_cstr t (heq ▸ by simp)
  obtain ⟨hnodes, hfd, hstar, hmem⟩ := (mem_sends h).resolve_left (hstr buf)
  refine ⟨hnodes, hfd, hstar, hmem.resolve_right ?_⟩
  intro hmem
  unfold starSends at hmem
  split_ifs at hmem
  · simp [(hstr _).symm] at hmem
  · cases hmem

theorem mem_nodeSends {cfg : Config} {k : ℕ} {buf bytes : Text} :
    (k, bytes) ∈ nodeSends cfg buf ↔
      ∃ node, matchNode cfg (cstr (buf.drop 2)) = some (node, k) ∧
        (buf.drop (3 + node.length)).take ((cstr (buf.drop 2)).length - node.length) = bytes := by
  cases hm : matchNode cfg (cstr (buf.drop 2)) with
  | none => simp [nodeSends, hm]
  | some p =>
      obtain ⟨node, j⟩ := p
      simp only [nodeSends, hm, List.mem_singleton, Prod.mk.injEq, Option.some_inj]
      constructor
      · rintro ⟨rfl, rfl⟩
        exact ⟨node, ⟨rfl, rfl⟩, rfl⟩
      · rintro ⟨node', ⟨rfl, rfl⟩, rfl⟩
        exact ⟨rfl, rfl⟩

/-- The server finds the command at its place only when the name of the client has one byte. -/
theorem name_eq_singleton {name node cmd old : Text}
    (hnul : '\x00' ∉ name ++ ':' :: (node ++ '.' :: cmd))
    (hbytes : ((receiveInto old (name ++ ':' :: (node ++ '.' :: cmd))).drop (3 + node.length)).take
      ((cstr ((receiveInto old (name ++ ':' :: (node ++ '.' :: cmd))).drop 2)).length -
        node.length) = cmd ++ ['\x00']) : ∃ c, name = [c] := by
  rcases name with _ | ⟨c, _ | ⟨d, name⟩⟩
  · -- one byte too few is sent
    have hlen := congrArg List.length hbytes
    have hrequest : cstr ((receiveInto old (':' :: (node ++ '.' :: cmd))).drop 2) =
        (node ++ '.' :: cmd).drop 1 := by
      rw [receiveInto, List.cons_append, List.drop_succ_cons,
        List.drop_append_of_le_length (by simp; omega)]
      refine cstr_append_nul (fun hmem => hnul ?_) _
      exact List.mem_cons_of_mem _ (List.mem_of_mem_drop hmem)
    rw [List.nil_append, hrequest] at hlen
    simp at hlen
    omega
  · exact ⟨c, rfl⟩
  · -- the string does not end where the last byte is sent
    exfalso
    have hlast := congrArg (fun t : Text => t[cmd.length]?) hbytes
    simp only [List.getElem?_take, List.getElem?_drop, List.getElem?_append_right (le_refl _),
      Nat.sub_self, List.getElem?_cons_zero] at hlast
    split_ifs at hlast
    rw [receiveInto, List.getElem?_append_left (by simp; omega)] at hlast
    exact hnul (List.mem_of_getElem? hlast)

section Reading

variable {cfg : Config} {v : Server} {i : ℕ} {m : Message}

/-- The buffer with a line in it. -/
theorem receives_line {name text : Text} (hname : cfg.names[i]? = some name) :
    v.receives cfg i (.line text) = receiveInto (v.state.buffer i) (name ++ ':' :: text) := by
  rw [Server.receives, List.getD_eq_getElem?_getD, hname]
  rfl

/-- With a name of one byte, the server reads the line. -/
theorem request_line {c : Char} {text old : Text} (hnul : '\x00' ∉ text) :
    cstr ((receiveInto old ([c] ++ ':' :: text)).drop 2) = text := by
  obtain ⟨rest, hrest⟩ := drop_two_receiveInto old c text
  rw [List.singleton_append, hrest]
  exact cstr_append_nul hnul rest

/-- A line that asks a client is relayed to it exactly when it is read as that. -/
theorem node_sends_iff {k : ℕ} {cmd : Text} (hi : i < cfg.names.length)
    (hm : m.Sendable (cfg.names.getD i [])) (hasked : Request.node k cmd ∈ asked cfg m) :
    (∀ p ∈ (Request.node k cmd).sends cfg, p ∈ sends cfg v.state i (v.receives cfg i m)) ↔
      v.state.sendToFd = none ∧ v.state.sendToFdStar = none ∧
        readAs cfg i m (.node k cmd) = true := by
  obtain ⟨node, hnode, rfl⟩ := node_mem_asked hasked
  obtain ⟨name, hname⟩ : ∃ name, cfg.names[i]? = some name := ⟨_, List.getElem?_eq_getElem hi⟩
  have hget : cfg.names.getD i [] = name := by rw [List.getD_eq_getElem?_getD, hname]; rfl
  obtain ⟨-, hnul, -⟩ := hget ▸ hm
  have htext : '\x00' ∉ node ++ '.' :: cmd := fun hmem => hnul (by simp [hmem])
  rw [receives_line hname, Request.sends, List.forall_mem_singleton]
  constructor
  · intro h
    obtain ⟨hnodes, hfd, hstar, h⟩ := mem_sends_nul h
    obtain ⟨node', hmatch, hbytes⟩ := mem_nodeSends.1 h
    obtain rfl : node' = node := Option.some_inj.1 ((matchNode_eq_some hmatch).1.symm.trans hnode)
    obtain ⟨c, rfl⟩ := name_eq_singleton hnul hbytes
    rw [request_line htext] at hnodes hmatch
    refine ⟨hfd, hstar, ?_⟩
    simp [readAs, hname, hnodes, hmatch]
  · rintro ⟨hfd, hstar, hread⟩
    simp only [readAs, hname] at hread
    split at hread
    · rename_i c text heq hline
      cases heq
      cases hline
      simp only [Bool.and_eq_true, Bool.not_eq_true', decide_eq_true_eq] at hread
      obtain ⟨hnodes, hread⟩ := hread
      obtain ⟨⟨node', j⟩, hmatch, rfl⟩ := Option.map_eq_some_iff.1 hread
      obtain rfl : node' = node :=
        Option.some_inj.1 ((matchNode_eq_some hmatch).1.symm.trans hnode)
      simp only [sends, request_line htext, hnodes, Bool.false_eq_true, if_false, hfd, hstar]
      refine List.mem_append_left _ (mem_nodeSends.2 ⟨node', ?_, ?_⟩)
      · rw [request_line htext]
        exact hmatch
      · rw [request_line htext]
        exact request_bytes _ c node' cmd
    · cases hread

theorem drop_receiveInto (old : Text) {data : Text} {n : ℕ} (hn : n ≤ data.length) :
    (receiveInto old data).drop n = data.drop n ++ '\x00' :: old.drop (data.length + 1) := by
  rw [receiveInto, List.drop_append_of_le_length hn]

/-- Behind the bytes that a message skips stands the rest of it. -/
theorem cstr_drop_receiveInto (old : Text) {data : Text} {n : ℕ} (hn : n ≤ data.length)
    (hnul : '\x00' ∉ data) : cstr ((receiveInto old data).drop n) = data.drop n := by
  rw [drop_receiveInto old hn]
  exact cstr_append_nul (fun hmem => hnul (List.mem_of_mem_drop hmem)) _

/-- What is sent to one node has the byte behind its string in it. -/
theorem nul_mem_nodeSends {k : ℕ} {data old bytes : Text} (hdata : 2 ≤ data.length)
    (hnul : '\x00' ∉ data) (hne : bytes ≠ [])
    (h : (k, bytes) ∈ nodeSends cfg (receiveInto old data)) : '\x00' ∈ bytes := by
  obtain ⟨node, hmatch, hbytes⟩ := mem_nodeSends.1 h
  have hprefix := (matchNode_eq_some hmatch).2.length_le
  rw [cstr_drop_receiveInto _ hdata hnul, List.length_drop] at hprefix hbytes
  have hlt : node.length < data.length - 2 := by
    refine lt_of_le_of_ne hprefix ?_
    intro heq
    rw [heq, Nat.sub_self, List.take_zero] at hbytes
    exact hne hbytes.symm
  refine List.mem_of_getElem? (i := data.length - 3 - node.length) ?_
  rw [← hbytes, List.getElem?_take_of_lt (by omega), List.getElem?_drop,
    show 3 + node.length + (data.length - 3 - node.length) = data.length by omega, receiveInto,
    List.getElem?_append_right le_rfl, Nat.sub_self, List.getElem?_cons_zero]

/-- A line that asks all clients is relayed to them exactly when the name of its client has one
byte. -/
theorem all_sends_iff {cmd : Text} (hi : i < cfg.names.length)
    (hm : m.Sendable (cfg.names.getD i [])) (hasked : Request.all cmd ∈ asked cfg m) :
    (∀ p ∈ (Request.all cmd).sends cfg, p ∈ sends cfg v.state i (v.receives cfg i m)) ↔
      v.state.sendToFd = none ∧ v.state.sendToFdStar = none ∧
        readAs cfg i m (.all cmd) = true := by
  obtain ⟨hcmd, rfl⟩ := all_mem_asked hasked
  obtain ⟨name, hname⟩ : ∃ name, cfg.names[i]? = some name := ⟨_, List.getElem?_eq_getElem hi⟩
  have hget : cfg.names.getD i [] = name := by rw [List.getD_eq_getElem?_getD, hname]; rfl
  obtain ⟨-, hnul, -⟩ := hget ▸ hm
  have hcmdNul : '\x00' ∉ cmd := fun hmem => hnul (by simp [hmem])
  have hpos : 0 < cmd.length := List.length_pos_iff.2 hcmd
  have hlen : (name ++ ':' :: ("n*.".toList ++ cmd)).length = name.length + 4 + cmd.length := by
    simp
    omega
  have hwhole : cmd ≠ cstr (receiveInto (v.state.buffer i) (name ++ ':' :: ("n*.".toList ++ cmd))) := by
    intro heq
    have hcstr := cstr_drop_receiveInto (v.state.buffer i) (Nat.zero_le _) hnul
    rw [List.drop_zero, List.drop_zero] at hcstr
    have := congrArg List.length (heq.trans hcstr)
    omega
  rw [receives_line hname]
  constructor
  · intro h
    have hmem := h (i, cmd) (List.mem_map.2 ⟨i, List.mem_range.2 hi, rfl⟩)
    obtain ⟨-, hfd, hstar, hmem⟩ := (mem_sends hmem).resolve_left hwhole
    refine ⟨hfd, hstar, ?_⟩
    rcases hmem with hmem | hmem
    · exact absurd (nul_mem_nodeSends (by omega) hnul hcmd hmem) hcmdNul
    · unfold starSends at hmem
      split_ifs at hmem
      · obtain ⟨j, -, hpair⟩ := List.mem_map.1 hmem
        have hbytes := congrArg (fun p : ℕ × Text => p.2.length) hpair
        simp only [cstr_drop_receiveInto _ (by omega : 5 ≤ _) hnul, List.length_drop, hlen] at hbytes
        obtain ⟨c, rfl⟩ := List.length_eq_one_iff.1 (show name.length = 1 by omega)
        simp [readAs, hname]
      · cases hmem
  · rintro ⟨hfd, hstar, hread⟩
    simp only [readAs, hname] at hread
    split at hread
    · rename_i c heq
      cases heq
      intro p hp
      obtain ⟨k, hk, rfl⟩ := List.mem_map.1 hp
      have htext : '\x00' ∉ "n*.".toList ++ cmd := fun hmem =>
        hnul (List.mem_append_right _ (List.mem_cons_of_mem _ hmem))
      have hsent := cstr_drop_receiveInto (v.state.buffer i) (by omega : 5 ≤ _) hnul
      have hrequest : isStar ("n*.".toList ++ cmd) = true := by
        simp only [isStar, Bool.and_eq_true, List.isPrefixOf_iff_prefix, decide_eq_true_eq]
        exact ⟨List.prefix_append _ _, by simp; omega⟩
      have hnodes : isNodes ("n*.".toList ++ cmd) = false := by simp [isNodes, List.isPrefixOf]
      simp only [sends, request_line htext, hnodes, Bool.false_eq_true, if_false, hfd, hstar]
      refine List.mem_append_right _ ?_
      simp only [starSends, request_line htext, hrequest, if_true, hsent]
      exact List.mem_map.2 ⟨k, hk, rfl⟩
    · cases hread

end Reading

/-- A request is relayed exactly when no other one is open and it is read as what it is. -/
theorem asked_sends_iff {cfg : Config} {v : Server} {i : ℕ} {m : Message} {q : Request}
    (hi : i < cfg.names.length) (hm : m.Sendable (cfg.names.getD i [])) (hasked : q ∈ asked cfg m) :
    (∀ p ∈ q.sends cfg, p ∈ sends cfg v.state i (v.receives cfg i m)) ↔
      v.state.sendToFd = none ∧ v.state.sendToFdStar = none ∧ readAs cfg i m q = true := by
  cases q with
  | node k cmd => exact node_sends_iff hi hm hasked
  | all cmd => exact all_sends_iff hi hm hasked

/-- The answer that is awaited is that of the client to which the request went. -/
theorem nextWaits_eq {cfg : Config} {v : Server} {buf : Text}
    (hv : v.state.sendToFd.isSome = v.target.isSome) :
    nextWaits cfg v v.target (cstr (buf.drop 2)) = v.nextTarget cfg buf := by
  unfold nextWaits Server.nextTarget
  cases htarget : v.target with
  | none =>
      rw [htarget, Option.isSome_none, Option.isSome_eq_false_iff, Option.isNone_iff_eq_none] at hv
      cases hstar : v.state.sendToFdStar <;> simp [hv]
  | some k =>
      rw [htarget, Option.isSome_some] at hv
      obtain ⟨r, hr⟩ := Option.isSome_iff_exists.1 hv
      simp [hr]

/-- The messages from any state of the server, with the client whose answer it awaits. -/
theorem correlated_iff_from {cfg : Config} {es : List (ℕ × Message)} {v v' : Server}
    (hv : v.state.sendToFd.isSome = v.target.isSome) (hrun : run (receive cfg) v es = some v') :
    Along (receive cfg) (Correlated cfg) v es ↔ Conversation cfg v.target v es := by
  induction es generalizing v with
  | nil => exact Iff.rfl
  | cons e es ih =>
      obtain ⟨u, hu, hrest⟩ := run_cons_eq_some.1 hrun
      have henabled : e.1 < cfg.names.length ∧ e.2.Sendable (cfg.names.getD e.1 []) := by
        unfold receive at hu
        split_ifs at hu with henabled
        exact henabled
      have htarget : u.target = v.nextTarget cfg (v.receives cfg e.1 e.2) := by
        unfold receive at hu
        rw [if_pos henabled] at hu
        exact congrArg Server.target (Option.some_inj.1 hu).symm
      have hfree : v.state.sendToFd = none ↔ v.target = none := by
        rw [← Option.not_isSome_iff_eq_none, ← Option.not_isSome_iff_eq_none, hv]
      rw [along_cons_of_step hu, ih (target_isSome hv hu) hrest, Conversation, hu]
      simp only [nextWaits_eq hv, ← htarget]
      rw [← and_assoc]
      refine and_congr_left fun _ => and_congr ?_ ?_
      · -- an answer is relayed only while one is awaited
        constructor
        · intro h k hk hnodes
          obtain ⟨r, hr⟩ := Option.isSome_iff_exists.1 (hv.trans (by rw [hk, Option.isSome_some]))
          exact Option.some_inj.1 ((h r hr hnodes).symm.trans hk)
        · intro h r hr hnodes
          obtain ⟨k, hk⟩ := Option.isSome_iff_exists.1 (hv.symm.trans (by rw [hr, Option.isSome_some]))
          rw [hk, h k hk hnodes]
      · refine forall₂_congr fun q hq => ?_
        rw [asked_sends_iff henabled.1 henabled.2 hq, hfree]

/-- **Answers and requests are told apart exactly when the messages are a conversation**, in every
run of the server. -/
theorem correlated_iff {cfg : Config} {buffer : ℕ → Text} {es : List (ℕ × Message)} {v : Server}
    (hrun : run (receive cfg) (Server.init buffer) es = some v) :
    Along (receive cfg) (Correlated cfg) (Server.init buffer) es ↔
      Conversation cfg none (Server.init buffer) es :=
  correlated_iff_from rfl hrun

/-- A request and its answer. -/
def requestThenAnswer : List (ℕ × Message) :=
  [(1, .line "n1.pwd\n".toList), (0, .output "/\n".toList)]

/-- The server after these messages. -/
def requestThenAnswerEnd : Server :=
  (run (receive pair) (Server.init fun _ => []) requestThenAnswer).get (by decide)

theorem correlated_requestThenAnswer :
    run (receive pair) (Server.init fun _ => []) requestThenAnswer = some requestThenAnswerEnd ∧
      (Along (receive pair) (Correlated pair) (Server.init fun _ => []) requestThenAnswer ↔
        Conversation pair none (Server.init fun _ => []) requestThenAnswer) ∧
      Conversation pair none (Server.init fun _ => []) requestThenAnswer :=
  ⟨(Option.some_get _).symm,
    correlated_iff (show run (receive pair) (Server.init fun _ => []) requestThenAnswer =
      some requestThenAnswerEnd from (Option.some_get _).symm), by decide⟩

/-- Two clients ask each other: the second request is taken for the answer to the first. -/
theorem not_correlated :
    ¬ ∀ (cfg : Config) (buffer : ℕ → Text) (es : List (ℕ × Message)) (v : Server),
      run (receive cfg) (Server.init buffer) es = some v →
        Along (receive cfg) (Correlated cfg) (Server.init buffer) es := by
  intro hall
  have hcorr := hall pair (fun _ => [])
    [(1, .line "n1.pwd\n".toList), (0, .line "n2.pwd\n".toList)] _ (Option.some_get (by decide)).symm
  revert hcorr
  decide

/-! ### Requests to all nodes -/

/-- The answer is relayed to the client `r`. -/
def RelaysTo (cfg : Config) (r : ℕ) (v : Server) (e : ℕ × Message) : Prop :=
  (r, cstr (v.receives cfg e.1 e.2)) ∈ sends cfg v.state e.1 (v.receives cfg e.1 e.2)

instance (cfg : Config) (r : ℕ) (v : Server) (e : ℕ × Message) : Decidable (RelaysTo cfg r v e) :=
  inferInstanceAs (Decidable (_ ∈ _))

/-- **All answers are relayed to the client `r`**, and then the server waits for no more. -/
def Collects (cfg : Config) (r : ℕ) (v : Server) (answers : List (ℕ × Message)) : Prop :=
  Along (receive cfg) (RelaysTo cfg r) v answers ∧
    ∃ v', run (receive cfg) v answers = some v' ∧ v'.state.sendToFdStar = none

/-- A message that is relayed as an answer does not end the wait. -/
theorem sendToFdStar_of_relaysTo {cfg : Config} {r q : ℕ} {v v' : Server} {e : ℕ × Message}
    (hstar : v.state.sendToFdStar = some q) (hrelay : RelaysTo cfg r v e)
    (h : receive cfg v e = some v') : v'.state.sendToFdStar = some q := by
  unfold receive at h
  split_ifs at h
  obtain rfl := Option.some_inj.1 h
  unfold RelaysTo sends at hrelay
  simp only [serve]
  by_cases hnodes : isNodes (cstr ((v.receives cfg e.1 e.2).drop 2)) = true
  · rw [if_pos hnodes]
    exact hstar
  · simp only [if_neg hnodes, hstar] at hrelay ⊢
    cases hfd : v.state.sendToFd with
    | some p => simp
    | none =>
        simp only [hfd] at hrelay
        split_ifs at hrelay with hcount
        · simp [if_pos hcount]
        · cases hrelay

/-- The server waits for the answers to a request to all nodes. -/
theorem sendToFdStar_of_request {cfg : Config} {v v' : Server} {i : ℕ} {m : Message}
    (hfd : v.state.sendToFd = none) (hstar : v.state.sendToFdStar = none)
    (hrequest : isStar (cstr ((v.receives cfg i m).drop 2)) = true)
    (h : receive cfg v (i, m) = some v') : v'.state.sendToFdStar = some i := by
  unfold receive at h
  split_ifs at h
  obtain rfl := Option.some_inj.1 h
  have hnodes : ¬ isNodes (cstr ((v.receives cfg i m).drop 2)) = true := by
    intro hnodes
    rw [isStar, Bool.and_eq_true, List.isPrefixOf_iff_prefix] at hrequest
    obtain ⟨rest, hrest⟩ := hrequest.1
    rw [isNodes, ← hrest] at hnodes
    revert hnodes
    simp [List.isPrefixOf]
  simp only [serve, if_neg hnodes, hfd, hstar, relayStar, if_pos hrequest]

/-- **The answers to a request to all nodes are never all relayed**: whatever the answers are, of
whom and in which order, the server relays them all only if it goes on waiting. -/
theorem not_collects {cfg : Config} {v v' : Server} {i : ℕ} {m : Message}
    (hfd : v.state.sendToFd = none) (hstar : v.state.sendToFdStar = none)
    (hrequest : isStar (cstr ((v.receives cfg i m).drop 2)) = true)
    (h : receive cfg v (i, m) = some v') (answers : List (ℕ × Message)) :
    ¬ Collects cfg i v' answers := by
  rintro ⟨hrelay, v'', hrun, hnone⟩
  have hwait := run_invariant_along
    (fun s e t hs he hstep => sendToFdStar_of_relaysTo (q := i) hs he hstep)
    (sendToFdStar_of_request hfd hstar hrequest h) hrelay hrun
  rw [hnone] at hwait
  cases hwait

/-- A request to all nodes. -/
def broadcast : Message := .line "n*.pwd\n".toList

/-- The server after a request of the second client to all nodes. -/
def broadcastEnd : Server :=
  (receive pair (Server.init fun _ => []) (1, broadcast)).get (by decide)

theorem not_collects_broadcast :
    isStar (cstr (((Server.init fun _ => []).receives pair 1 broadcast).drop 2)) = true ∧
      receive pair (Server.init fun _ => []) (1, broadcast) = some broadcastEnd ∧
      ¬ Collects pair 1 broadcastEnd [(1, .output "/\n".toList), (0, .output "/\n".toList)] :=
  ⟨by decide, (Option.some_get _).symm, not_collects rfl rfl (by decide)
    (show receive pair (Server.init fun _ => []) (1, broadcast) = some broadcastEnd from
      (Option.some_get _).symm) _⟩

/-- Two clients: the answer of the first one ends the wait, and is lost. -/
theorem not_collects_pair :
    ¬ ∀ (cfg : Config) (v v' : Server) (i : ℕ) (m : Message) (answers : List (ℕ × Message)),
      v.state.sendToFd = none → v.state.sendToFdStar = none →
        isStar (cstr ((v.receives cfg i m).drop 2)) = true → receive cfg v (i, m) = some v' →
          (answers.map Prod.fst).Perm (List.range cfg.names.length) → Collects cfg i v' answers := by
  intro hall
  have hcollects := hall pair (Server.init fun _ => []) broadcastEnd 1 broadcast
    [(0, .output "/\n".toList), (1, .output "/\n".toList)] rfl rfl (by decide)
    (Option.some_get _).symm (by decide)
  have hrelay := hcollects.1
  revert hrelay
  decide

end ClusterShell
