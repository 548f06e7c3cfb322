/-
**ClusterShell: how a request is written and read.**

A client writes its name, a colon and the line that was typed.  The server reads the line from the
third byte on, whatever the name, and compares its start with the names of the nodes in the order of
`ipmap.cfg`; it does not look for the dot, but skips one byte.  So it reads the request `NODE.CMD`
back if the name of the client is one byte long, which is what the client assumes, and if the line
does not start like something else: with the name of an earlier node, with `nodes`, or with `n*.`.

Main definitions:

* `ClusterShell.Forwards` — the server forwards a command to one client, and nothing else;
* `ClusterShell.ReadBack` — the request is read as what it is.

Main results:

* `ClusterShell.matchNode_eq_some_iff` — which node the server finds;
* `ClusterShell.sends_idle` — what the server sends while no reply is pending;
* `ClusterShell.forwards_iff` — **a request is forwarded exactly when it is read back**.
-/

import NetworkProgramming.ClusterRelay

set_option relaxedAutoImplicit false
set_option autoImplicit false

namespace ClusterShell

open CString

/-! ### Which node is found -/

theorem matchNode_eq_some_iff {cfg : Config} {request node : Text} {k : ℕ} :
    matchNode cfg request = some (node, k) ↔
      cfg.nodes[k]? = some node ∧ node <+: request ∧ k < cfg.names.length ∧
        ∀ j < k, ∀ nd, cfg.nodes[j]? = some nd → ¬ nd <+: request := by
  rw [matchNode, List.find?_eq_some_iff_getElem]
  simp only [Bool.and_eq_true, List.isPrefixOf_iff_prefix, decide_eq_true_eq, List.getElem_zipIdx,
    List.length_zipIdx, zero_add, Prod.mk.injEq, Bool.not_eq_true']
  constructor
  · rintro ⟨⟨hpre, hk⟩, i, hi, ⟨hnode, rfl⟩, hbefore⟩
    refine ⟨by rw [← hnode, List.getElem?_eq_getElem hi], hpre, hk, ?_⟩
    intro j hj nd hnd hpre'
    obtain ⟨hlt, rfl⟩ := List.getElem?_eq_some_iff.1 hnd
    have hfalse := hbefore j hj
    rw [List.isPrefixOf_iff_prefix.2 hpre', Bool.true_and, decide_eq_false_iff_not] at hfalse
    exact hfalse (hj.trans hk)
  · rintro ⟨hnode, hpre, hk, hbefore⟩
    obtain ⟨hi, hget⟩ := List.getElem?_eq_some_iff.1 hnode
    refine ⟨⟨hpre, hk⟩, k, hi, ⟨hget, rfl⟩, ?_⟩
    intro j hj
    have hnot := hbefore j hj _ (List.getElem?_eq_getElem (hj.trans hi))
    simp [hnot]

theorem matchNode_eq_none_iff {cfg : Config} {request : Text} :
    matchNode cfg request = none ↔
      ∀ k nd, cfg.nodes[k]? = some nd → k < cfg.names.length → ¬ nd <+: request := by
  rw [matchNode, List.find?_eq_none]
  simp only [Bool.and_eq_true, List.isPrefixOf_iff_prefix, decide_eq_true_eq, not_and]
  constructor
  · intro h k nd hnd hk hpre
    exact h (nd, k) (List.mem_zipIdx_iff_getElem?.2 hnd) hpre hk
  · rintro h ⟨nd, k⟩ hmem hpre hk
    exact h k nd (List.mem_zipIdx_iff_getElem?.1 hmem) hk hpre

/-! ### What an idle server sends -/

section Sends

variable {cfg : Config} {s : State} {i : ℕ} {old data : Text}

/-- The bytes that are sent to a node: what follows the byte behind its name, with the terminator. -/
theorem take_drop_receiveInto {k : ℕ} (hk : k + 3 ≤ data.length) :
    ((receiveInto old data).drop (3 + k)).take ((data.drop 2).length - k) =
      data.drop (3 + k) ++ ['\x00'] := by
  rw [drop_receiveInto _ (by omega), List.take_append]
  have hlen : (data.drop 2).length - k = (data.drop (3 + k)).length + 1 := by
    simp only [List.length_drop]
    omega
  rw [hlen, List.take_of_length_le (Nat.le_succ _)]
  simp

/-- What is sent for `data` while no reply is pending: nothing for `nodes`, else to the node that is
found, and to all clients for `n*.`. -/
def idleSends (cfg : Config) (old data : Text) : List (ℕ × Text) :=
  if isNodes (data.drop 2) then []
  else nodeSends cfg (receiveInto old data) ++
    if isStar (data.drop 2) then (List.range cfg.names.length).map fun j => (j, data.drop 5)
    else []

/-- **What the server sends while no reply is pending.** -/
theorem sends_idle (hnul : '\x00' ∉ data) (hlen : 2 ≤ data.length) (hfd : s.sendToFd = none)
    (hstar : s.sendToFdStar = none) :
    sends cfg s i (receiveInto old data) = idleSends cfg old data := by
  simp only [sends, idleSends, starSends, cstr_drop_receiveInto old hlen hnul, hfd, hstar]
  by_cases his : isStar (data.drop 2) = true
  · have hfive : 5 ≤ data.length := by
      rw [isStar, Bool.and_eq_true, decide_eq_true_eq, List.length_drop] at his
      omega
    simp only [cstr_drop_receiveInto old hfive hnul]
  · simp only [if_neg his]

end Sends

/-! ### Requests -/

/-- **The server forwards the command `cmd` to client `k`**, to no other client, and nothing else but
perhaps a terminator. -/
def Forwards (cfg : Config) (s : State) (i : ℕ) (buf : Text) (k : ℕ) (cmd : Text) : Prop :=
  sends cfg s i buf = [(k, cmd)] ∨ sends cfg s i buf = [(k, cmd ++ ['\x00'])]

/-- **The request `node.cmd` is read as what it is.**  The client has a name of one byte, and the
line does not start with `nodes`, with `n*.` or with the name of an earlier node.  An only client
without a name may ask a node whose name ends in `n*`: the server then takes the request for one to
all nodes, which is the same. -/
def ReadBack (cfg : Config) (name : Text) (k : ℕ) (node cmd : Text) : Prop :=
  (name.length = 1 ∧ isNodes (node ++ '.' :: cmd) = false ∧ isStar (node ++ '.' :: cmd) = false ∧
    ∀ j < k, ∀ nd, cfg.nodes[j]? = some nd → ¬ nd <+: node ++ '.' :: cmd) ∨
    (name = [] ∧ cfg.names.length = 1 ∧ ∃ c, node = [c, 'n', '*'])

section Requests

variable {cfg : Config} {s : State} {i k : ℕ} {old name node cmd : Text}

/-- What a client writes for a line. -/
def encode (name line : Text) : Text := name ++ ':' :: line

theorem length_encode (name node cmd : Text) :
    (encode name (node ++ '.' :: cmd)).length = name.length + node.length + cmd.length + 2 := by
  simp only [encode, List.length_append, List.length_cons]
  omega

/-- The `send` to a node, if there is one. -/
theorem mem_nodeSends_encode (hnul : '\x00' ∉ encode name (node ++ '.' :: cmd))
    (hnode : cfg.nodes[k]? = some node) {bytes : Text}
    (h : (k, bytes) ∈ nodeSends cfg (receiveInto old (encode name (node ++ '.' :: cmd)))) :
    matchNode cfg ((encode name (node ++ '.' :: cmd)).drop 2) = some (node, k) ∧
      bytes.length = name.length + cmd.length ∧
      (0 < name.length + cmd.length → '\x00' ∈ bytes) := by
  have hlen := length_encode name node cmd
  obtain ⟨node', hmatch, hbytes⟩ := mem_nodeSends.1 h
  rw [cstr_drop_receiveInto old (by omega) hnul] at hmatch hbytes
  obtain rfl : node' = node := Option.some_inj.1 ((matchNode_eq_some hmatch).1.symm.trans hnode)
  refine ⟨hmatch, ?_, ?_⟩
  · simp only [← hbytes, receiveInto, List.length_take, List.length_drop, List.length_append,
      List.length_cons, hlen]
    omega
  · intro hpos
    rw [← hbytes, take_drop_receiveInto (by omega)]
    exact List.mem_append_right _ (List.mem_singleton_self _)

/-- A request to a node is forwarded only if the name of the client is one byte long. -/
theorem name_length_of_nodeSends (hcmd : cmd ≠ [])
    (hnul : '\x00' ∉ encode name (node ++ '.' :: cmd)) (hnode : cfg.nodes[k]? = some node)
    {bytes : Text} (hbytes : bytes = cmd ∨ bytes = cmd ++ ['\x00'])
    (h : (k, bytes) ∈ nodeSends cfg (receiveInto old (encode name (node ++ '.' :: cmd)))) :
    name.length = 1 := by
  obtain ⟨-, hlen, hmem⟩ := mem_nodeSends_encode hnul hnode h
  have hpos : 0 < cmd.length := List.length_pos_iff.2 hcmd
  rcases hbytes with rfl | rfl
  · refine absurd (hmem (by omega)) ?_
    intro hc
    exact hnul (by simp [encode, hc])
  · rw [List.length_append, List.length_singleton] at hlen
    omega

/-- With a name of one byte the server reads the line. -/
theorem drop_encode (c : Char) (line : Text) : (encode [c] line).drop 2 = line := rfl

/-- A request to all nodes reaches one client alone only if that is the only client, and then the
name is empty. -/
theorem readBack_of_star (hk : k < cfg.names.length) (hnode : cfg.nodes[k]? = some node)
    (hstar : isStar ((encode name (node ++ '.' :: cmd)).drop 2) = true)
    (hnone : matchNode cfg ((encode name (node ++ '.' :: cmd)).drop 2) = none)
    (hone : cfg.names.length = 1)
    (hcmd : (encode name (node ++ '.' :: cmd)).drop 5 = cmd) :
    ReadBack cfg name k node cmd := by
  have hlen := congrArg List.length hcmd
  rw [List.length_drop, length_encode] at hlen
  rw [isStar, Bool.and_eq_true, List.isPrefixOf_iff_prefix] at hstar
  obtain ⟨hpre, hlong⟩ := hstar
  have hsum : name.length + node.length = 3 := by
    rw [decide_eq_true_eq, List.length_drop, length_encode] at hlong
    omega
  have hcases : name.length = 0 ∧ node.length = 3 ∨ name.length = 1 ∧ node.length = 2 ∨
      name.length = 2 ∧ node.length = 1 ∨ name.length = 3 ∧ node.length = 0 := by
    omega
  rcases hcases with ⟨hname, hnode'⟩ | ⟨hname, hnode'⟩ | ⟨hname, hnode'⟩ | ⟨hname, hnode'⟩
  · obtain rfl := List.length_eq_zero_iff.1 hname
    obtain ⟨c, d, e, rfl⟩ := List.length_eq_three.1 hnode'
    have hde : 'n' = d ∧ '*' = e := by simpa [encode] using hpre
    exact Or.inr ⟨rfl, hone, c, by rw [hde.1, hde.2]⟩
  · -- the node is found as well
    obtain ⟨c, rfl⟩ := List.length_eq_one_iff.1 hname
    exact absurd (List.prefix_append _ _) (matchNode_eq_none_iff.1 hnone k node hnode hk)
  -- a longer name puts the colon where `n*.` should be
  · obtain ⟨c, c', rfl⟩ := List.length_eq_two.1 hname
    simp [encode] at hpre
  · obtain ⟨c, c', c'', rfl⟩ := List.length_eq_three.1 hname
    simp [encode] at hpre

/-- The text in which the server looks for a node. -/
theorem cstr_request (hnul : '\x00' ∉ encode name (node ++ '.' :: cmd)) :
    cstr ((receiveInto old (encode name (node ++ '.' :: cmd))).drop 2) =
      (encode name (node ++ '.' :: cmd)).drop 2 := by
  have hlen := length_encode name node cmd
  exact cstr_drop_receiveInto old (by omega) hnul

/-- A single message with the command is sent only for a request that is read back. -/
theorem readBack_of_idleSends (hnode : cfg.nodes[k]? = some node) (hk : k < cfg.names.length)
    (hcmd : cmd ≠ []) (hnul : '\x00' ∉ encode name (node ++ '.' :: cmd)) {bytes : Text}
    (hbytes : bytes = cmd ∨ bytes = cmd ++ ['\x00'])
    (h : idleSends cfg old (encode name (node ++ '.' :: cmd)) = [(k, bytes)]) :
    ReadBack cfg name k node cmd := by
  unfold idleSends at h
  split_ifs at h with hnodes his
  · -- every client gets the request, so there is only one
    rcases List.append_eq_singleton_iff.1 h with ⟨hnil, hall⟩ | ⟨-, hall⟩
    · have hone : cfg.names.length = 1 := by simpa using congrArg List.length hall
      rw [hone] at hall
      obtain ⟨rfl, rfl⟩ : 0 = k ∧ (encode name (node ++ '.' :: cmd)).drop 5 = bytes := by
        simpa using hall
      have hnone : matchNode cfg ((encode name (node ++ '.' :: cmd)).drop 2) = none := by
        cases hm : matchNode cfg ((encode name (node ++ '.' :: cmd)).drop 2) with
        | none => rfl
        | some p => simp [nodeSends, cstr_request hnul, hm] at hnil
      refine readBack_of_star hk hnode his hnone hone (hbytes.resolve_right ?_)
      intro heq
      refine hnul (List.mem_of_mem_drop (i := 5) ?_)
      rw [heq]
      exact List.mem_append_right _ (List.mem_singleton_self _)
    · have hzero : cfg.names.length = 0 := by simpa using hall
      omega
  · rw [List.append_nil] at h
    have hmem : (k, bytes) ∈ nodeSends cfg
        (receiveInto old (encode name (node ++ '.' :: cmd))) := by
      rw [h]
      exact List.mem_singleton_self _
    have hone := name_length_of_nodeSends hcmd hnul hnode hbytes hmem
    obtain ⟨hmatch, -⟩ := mem_nodeSends_encode hnul hnode hmem
    obtain ⟨c, rfl⟩ := List.length_eq_one_iff.1 hone
    rw [drop_encode] at hnodes his hmatch
    exact Or.inl ⟨rfl, by simpa using hnodes, by simpa using his,
      (matchNode_eq_some_iff.1 hmatch).2.2.2⟩

/-- The request of a client with a name of one byte. -/
theorem idleSends_of_oneByte (c : Char) (hnode : cfg.nodes[k]? = some node)
    (hk : k < cfg.names.length) (hnul : '\x00' ∉ encode [c] (node ++ '.' :: cmd))
    (hnodes : isNodes (node ++ '.' :: cmd) = false) (his : isStar (node ++ '.' :: cmd) = false)
    (hbefore : ∀ j < k, ∀ nd, cfg.nodes[j]? = some nd → ¬ nd <+: node ++ '.' :: cmd) :
    idleSends cfg old (encode [c] (node ++ '.' :: cmd)) = [(k, cmd ++ ['\x00'])] := by
  have hmatch : matchNode cfg (node ++ '.' :: cmd) = some (node, k) :=
    matchNode_eq_some_iff.2 ⟨hnode, List.prefix_append _ _, hk, hbefore⟩
  rw [idleSends, drop_encode, hnodes, his, nodeSends, cstr_request hnul, drop_encode, hmatch]
  simp only [Bool.false_eq_true, if_false, List.append_nil]
  rw [encode, List.singleton_append, request_bytes]

/-- The request of the only client, without a name, to a node whose name ends in `n*`. -/
theorem idleSends_of_star (c : Char) (hnode : cfg.nodes[k]? = some [c, 'n', '*'])
    (hk : k < cfg.names.length) (hcmd : cmd ≠ [])
    (hnul : '\x00' ∉ encode [] ([c, 'n', '*'] ++ '.' :: cmd)) (hone : cfg.names.length = 1) :
    idleSends cfg old (encode [] ([c, 'n', '*'] ++ '.' :: cmd)) = [(k, cmd)] := by
  obtain rfl : k = 0 := by omega
  have hnone : matchNode cfg ('n' :: '*' :: '.' :: cmd) = none := by
    refine matchNode_eq_none_iff.2 ?_
    intro j nd hnd hj
    obtain rfl : j = 0 := by omega
    obtain rfl := Option.some_inj.1 (hnode.symm.trans hnd)
    simp
  have hdrop : (encode [] ([c, 'n', '*'] ++ '.' :: cmd)).drop 2 = 'n' :: '*' :: '.' :: cmd := rfl
  have hdrop' : (encode [] ([c, 'n', '*'] ++ '.' :: cmd)).drop 5 = cmd := rfl
  have his : isStar ('n' :: '*' :: '.' :: cmd) = true := by
    simpa [isStar] using List.length_pos_iff.2 hcmd
  have hnodes : isNodes ('n' :: '*' :: '.' :: cmd) = false := rfl
  rw [idleSends, nodeSends, cstr_request hnul, hdrop, hdrop', hnodes, his, hnone, hone]
  rfl

/-- **A request is forwarded exactly when it is read back.**  Whatever the name of the client, the
table of nodes and the command, while no reply is pending the server forwards the command of the line
`node.cmd` to the client of that node, and nothing to anyone else, if and only if the line is read as
what it is. -/
theorem forwards_iff {v : Server} (hname : cfg.names[i]? = some name)
    (hnode : cfg.nodes[k]? = some node) (hk : k < cfg.names.length) (hcmd : cmd ≠ [])
    (hnul : '\x00' ∉ encode name (node ++ '.' :: cmd)) (hfd : v.state.sendToFd = none)
    (hstar : v.state.sendToFdStar = none) :
    Forwards cfg v.state i (v.receives cfg i (.line (node ++ '.' :: cmd))) k cmd ↔
      ReadBack cfg name k node cmd := by
  have hbuf : v.receives cfg i (.line (node ++ '.' :: cmd)) =
      receiveInto (v.state.buffer i) (encode name (node ++ '.' :: cmd)) := by
    rw [Server.receives, List.getD_eq_getElem?_getD, hname]
    rfl
  have hlen := length_encode name node cmd
  rw [Forwards, hbuf, sends_idle hnul (by omega) hfd hstar]
  constructor
  · rintro (h | h)
    · exact readBack_of_idleSends hnode hk hcmd hnul (Or.inl rfl) h
    · exact readBack_of_idleSends hnode hk hcmd hnul (Or.inr rfl) h
  · rintro (⟨hone, hnodes, his, hbefore⟩ | ⟨rfl, hone, c, rfl⟩)
    · obtain ⟨c, rfl⟩ := List.length_eq_one_iff.1 hone
      exact Or.inr (idleSends_of_oneByte c hnode hk hnul hnodes his hbefore)
    · exact Or.inl (idleSends_of_star c hnode hk hcmd hnul hone)

end Requests

instance (cfg : Config) (s : State) (i : ℕ) (buf : Text) (k : ℕ) (cmd : Text) :
    Decidable (Forwards cfg s i buf k cmd) :=
  inferInstanceAs (Decidable (_ ∨ _))

/-- The second of two clients asks the first node. -/
theorem forwards_pair :
    let v : Server := Server.init fun _ => []
    Forwards pair v.state 1 (v.receives pair 1 (.line "n1.pwd\n".toList)) 0 "pwd\n".toList ∧
      ReadBack pair "2".toList 0 "n1".toList "pwd\n".toList := by
  intro v
  have hiff : Forwards pair v.state 1 (v.receives pair 1 (.line "n1.pwd\n".toList)) 0
      "pwd\n".toList ↔ ReadBack pair "2".toList 0 "n1".toList "pwd\n".toList :=
    @forwards_iff pair 1 0 "2".toList "n1".toList "pwd\n".toList v rfl rfl (by decide) (by decide)
      (by decide) rfl rfl
  have hforwards : Forwards pair v.state 1 (v.receives pair 1 (.line "n1.pwd\n".toList)) 0
      "pwd\n".toList := by
    decide
  exact ⟨hforwards, hiff.1 hforwards⟩

/-- A client whose name has two bytes, and one with a name of one byte. -/
def twoDigits : Config := ⟨["n1".toList, "n2".toList], ["10".toList, "2".toList]⟩

/-- The server does not read the request of a client whose name has two bytes. -/
theorem not_forwards_twoDigits :
    ¬ ∀ (cfg : Config) (v : Server) (i k : ℕ) (name node cmd : Text),
      cfg.nodes.Nodup → cfg.names[i]? = some name → cfg.nodes[k]? = some node →
        k < cfg.names.length → cmd ≠ [] → '\x00' ∉ encode name (node ++ '.' :: cmd) →
          v.state.sendToFd = none → v.state.sendToFdStar = none →
            Forwards cfg v.state i (v.receives cfg i (.line (node ++ '.' :: cmd))) k cmd := by
  intro hall
  have hforwards := hall twoDigits (Server.init fun _ => []) 0 1 "10".toList "n2".toList
    "pwd\n".toList (by decide) rfl rfl (by decide) (by decide) (by decide) rfl rfl
  revert hforwards
  decide

end ClusterShell
