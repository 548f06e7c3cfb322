/-
**Load Balancer: the queue of the children.**

`load_balancer.c` forks a number of children, puts their process ids into a queue and then forever
signals the child at the front of the queue and shifts the queue round.  Every node of the queue has
its own `front` and `rear`; only those of the head are kept up to date, and `shift_queue` makes
another node the head.

Main definitions:

* `LoadBalancer.createQueue`, `LoadBalancer.push`, `LoadBalancer.shiftQueue` — the queue;
* `LoadBalancer.buildQueue`, `LoadBalancer.iterate` — the two loops of `main`;
* `LoadBalancer.RoundRobin` — the first rounds of the second loop signal the children in turn.

Main results:

* `LoadBalancer.buildQueue_eq` — the nodes after the first loop;
* `LoadBalancer.shiftQueue_built` — the first shift;
* `LoadBalancer.roundRobin_iff` — **only the first round is right**, and only with two children or
  more.
-/

import Mathlib.Data.Int.Notation
import Mathlib.Data.List.Induction
import NetworkProgramming.Cells

set_option relaxedAutoImplicit false
set_option autoImplicit false

namespace LoadBalancer

open Cells

/-! ### The queue -/

/-- A node of the queue. -/
structure Node where
  pid : ℤ
  rear : Ptr
  front : Ptr
  prev : Ptr
  next : Ptr
  deriving DecidableEq, Repr

/-- The nodes that were allocated. -/
abbrev Heap := List Node

/-- `create_queue`. -/
def createQueue (h : Heap) (data : ℤ) : Heap × Ptr :=
  alloc h
    { pid := data
      rear := some h.length
      front := some h.length
      prev := none
      next := none }

/-- `push`. -/
def push (h : Heap) (head : Ptr) (data : ℤ) : Option (Heap × Ptr) :=
  match head with
  | none => some (createQueue h data)
  | some _ => do
      let hd ← load h head
      let (h, node) := alloc h
        { pid := data
          rear := some h.length
          front := hd.front
          prev := none
          next := head }
      let h ← store h head fun n => { n with prev := node }
      return (h, node)

/-- `shift_queue`. -/
def shiftQueue (h : Heap) (head : Ptr) : Option (Heap × Ptr) := do
  let hd ← load h head
  let temp := hd.front
  let temp2 := hd.rear
  let t ← load h temp
  let prev := t.prev
  let h ← store h prev fun n => { n with next := none }
  let h ← store h head fun n => { n with front := prev }
  let h ← store h temp fun n => { n with next := temp2 }
  let h ← store h temp2 fun n => { n with prev := temp }
  let h ← store h head fun n => { n with rear := temp }
  return (h, temp)

/-! ### The loops of `main` -/

/-- The first loop: the children go into the queue in the order of their creation. -/
def buildQueue : List ℤ → Option (Heap × Ptr)
  | [] => some ([], none)
  | pid :: rest =>
      rest.foldl (fun q data => q.bind fun (h, head) => push h head data)
        (some (createQueue [] pid))

/-- One round of the second loop: the process id that is signalled, and the queue behind it. -/
def iterate (h : Heap) (head : Ptr) : Option (ℤ × Heap × Ptr) := do
  let hd ← load h head
  let f ← load h hd.front
  let (h, head) ← shiftQueue h head
  return (f.pid, h, head)

/-- The process ids that are signalled in the first rounds, and the queue behind them. -/
def rounds : ℕ → Heap × Ptr → Option (List ℤ × Heap × Ptr)
  | 0, (h, head) => some ([], h, head)
  | k + 1, (h, head) => do
      let (signals, h, head) ← rounds k (h, head)
      let (pid, h, head) ← iterate h head
      return (signals ++ [pid], h, head)

/-- The nodes that are reached from the head are those of the children, each once. -/
def HoldsAll (pids : List ℤ) (h : Heap) (head : Ptr) : Prop :=
  ∃ l, Chain Node.next h head l ∧ (l.map fun a => (h[a]?).map Node.pid).Perm (pids.map some)

/-- **The first `k` rounds are round robin**: no null pointer is followed, the round number `j`
signals the child number `j` modulo the number of the children, and the queue holds all children
all the time. -/
def RoundRobin (pids : List ℤ) (k : ℕ) : Prop :=
  ∃ q, buildQueue pids = some q ∧
    ∀ j ≤ k, ∃ signals h head, rounds j q = some (signals, h, head) ∧
      signals.map some = (List.range j).map (fun i => pids[i % pids.length]?) ∧
      HoldsAll pids h head

/-! ### The nodes after the first loop -/

/-- The node number `i` of `n`. -/
def builtNode (n i : ℕ) (pid : ℤ) : Node :=
  { pid := pid
    rear := some i
    front := some 0
    prev := if i + 1 < n then some (i + 1) else none
    next := if i = 0 then none else some (i - 1) }

/-- The nodes of a queue that was not shifted. -/
def built (pids : List ℤ) : Heap := pids.mapIdx (builtNode pids.length)

@[simp] theorem built_length (pids : List ℤ) : (built pids).length = pids.length := by
  simp [built]

@[simp] theorem built_getElem? (pids : List ℤ) (i : ℕ) :
    (built pids)[i]? = pids[i]?.map (builtNode pids.length i) := by
  simp [built]

theorem push_built {pids : List ℤ} {m : ℕ} (hm : pids.length = m + 1) (data : ℤ) :
    push (built pids) (some m) data = some (built (pids ++ [data]), some (m + 1)) := by
  obtain ⟨pid, hpid⟩ : ∃ pid, pids[m]? = some pid :=
    ⟨_, List.getElem?_eq_getElem (by omega)⟩
  have hload : load (built pids) (some m) = some (builtNode pids.length m pid) := by
    simp [hpid]
  simp only [push, hload, alloc, Option.bind_eq_bind, Option.bind_some, built_length]
  rw [store_some (by simp; omega)]
  simp only [Option.bind_some, hm]
  refine congrArg some (Prod.ext ?_ rfl)
  refine List.ext_getElem? ?_
  intro i
  rw [List.getElem?_modify, built_getElem?]
  rcases Nat.lt_trichotomy i (m + 1) with hi | rfl | hi
  · -- an old node: only the old head gets a predecessor
    have hi' : i < pids.length := by omega
    rw [List.getElem?_append_left (by simpa using hi'), List.getElem?_append_left hi',
      built_getElem?, List.getElem?_eq_getElem hi']
    by_cases him : m = i
    · subst him
      simp [builtNode, hm]
    · have h1 : i + 1 < m + 1 := by omega
      have h2 : i + 1 < m + 1 + 1 := by omega
      simp [builtNode, hm, him, h1, h2]
  · simp [builtNode, hm]
  · rw [List.getElem?_eq_none (by simp; omega), List.getElem?_eq_none (by simp; omega)]
    simp

/-- **The nodes after the first loop**: the children in reverse order, the first one at the front. -/
theorem buildQueue_eq (pid : ℤ) (rest : List ℤ) :
    buildQueue (pid :: rest) = some (built (pid :: rest), some rest.length) := by
  induction rest using List.reverseRecOn with
  | nil => rfl
  | append_singleton rest data ih =>
      simp only [buildQueue] at ih
      simp only [buildQueue, List.foldl_append, List.foldl_cons, List.foldl_nil, ih,
        Option.bind_some]
      rw [push_built (by simp)]
      simp

/-- The nodes are reached from the head in the order of their numbers downwards. -/
theorem chain_built (pids : List ℤ) {i : ℕ} (hi : i < pids.length) :
    Chain Node.next (built pids) (some i) (List.range (i + 1)).reverse := by
  induction i with
  | zero =>
      refine Chain.cell (c := builtNode pids.length 0 pids[0]) ?_ Chain.null
      simp [List.getElem?_eq_getElem hi]
  | succ i ih =>
      rw [List.range_succ, List.reverse_concat]
      refine Chain.cell (c := builtNode pids.length (i + 1) pids[i + 1]) ?_ (ih (by omega))
      simp [List.getElem?_eq_getElem hi]

/-- The nodes of a chain through all numbers are those of all children. -/
theorem holdsAll_of_chain {pids : List ℤ} {h : Heap} {head : Ptr} {l : List ℕ}
    (hl : Chain Node.next h head l) (hperm : l.Perm (List.range pids.length))
    (hpid : ∀ i : ℕ, (h[i]?).map Node.pid = pids[i]?) : HoldsAll pids h head := by
  refine ⟨l, hl, (hperm.map _).trans (List.Perm.of_eq ?_)⟩
  refine List.ext_getElem (by simp) ?_
  intro i h₁ h₂
  have hi : i < pids.length := by simpa using h₂
  simp [hpid, List.getElem?_eq_getElem hi]

theorem holdsAll_built (pid : ℤ) (rest : List ℤ) :
    HoldsAll (pid :: rest) (built (pid :: rest)) (some rest.length) := by
  refine holdsAll_of_chain (chain_built _ (by simp)) (List.reverse_perm _) ?_
  intro i
  rw [built_getElem?, Option.map_map]
  exact Option.map_id_fun ▸ rfl

/-! ### The first shift -/

/-- The node number `i` of `n` after the first shift. -/
def shiftedNode (n i : ℕ) (pid : ℤ) : Node :=
  { pid := pid
    rear := if i + 1 = n then some 0 else some i
    front := if i + 1 = n then some 1 else some 0
    prev := if i + 1 = n then some 0 else some (i + 1)
    next := if i = 0 then some (n - 1) else if i = 1 then none else some (i - 1) }

/-- The nodes after the first shift. -/
def shifted (pids : List ℤ) : Heap := pids.mapIdx (shiftedNode pids.length)

@[simp] theorem shifted_getElem? (pids : List ℤ) (i : ℕ) :
    (shifted pids)[i]? = pids[i]?.map (shiftedNode pids.length i) := by
  simp [shifted]

/-- **The first shift** makes the front the head.  Its own `front` still points to itself. -/
theorem shiftQueue_built {pids : List ℤ} {m : ℕ} (hm : pids.length = m + 2) :
    shiftQueue (built pids) (some (m + 1)) = some (shifted pids, some 0) := by
  obtain ⟨last, hlast⟩ : ∃ pid, pids[m + 1]? = some pid :=
    ⟨_, List.getElem?_eq_getElem (by omega)⟩
  obtain ⟨first, hfirst⟩ : ∃ pid, pids[0]? = some pid := ⟨_, List.getElem?_eq_getElem (by omega)⟩
  have hhead : load (built pids) (some (m + 1)) = some (builtNode (m + 2) (m + 1) last) := by
    rw [load_some, built_getElem?, hlast, hm]
    rfl
  have hfront : load (built pids) (some 0) = some (builtNode (m + 2) 0 first) := by
    rw [load_some, built_getElem?, hfirst, hm]
    rfl
  simp only [shiftQueue, hhead, Option.bind_eq_bind, Option.bind_some]
  rw [show (builtNode (m + 2) (m + 1) last).front = some 0 from rfl,
    show (builtNode (m + 2) (m + 1) last).rear = some (m + 1) from rfl, hfront, Option.bind_some,
    show (builtNode (m + 2) 0 first).prev = some 1 by simp [builtNode]]
  rw [store_some (by simp; omega), Option.bind_some, store_some (by simp; omega), Option.bind_some,
    store_some (by simp; omega), Option.bind_some, store_some (by simp; omega), Option.bind_some,
    store_some (by simp; omega), Option.bind_some]
  refine congrArg some (Prod.ext ?_ rfl)
  refine List.ext_getElem? ?_
  intro i
  simp only [List.getElem?_modify, built_getElem?, shifted_getElem?, hm]
  cases hi : pids[i]? with
  | none => rfl
  | some pid =>
      have hlt : i < m + 2 := hm ▸ (List.getElem?_eq_some_iff.1 hi).1
      -- the nodes `0`, `1` and `m + 1` are written; the last two may be one node
      cases i with
      | zero => simp [builtNode, shiftedNode]
      | succ i =>
          by_cases h1 : i = 0
          · subst h1
            by_cases hm0 : m = 0
            · subst hm0
              simp [builtNode, shiftedNode]
            · simp [builtNode, shiftedNode, hm0]
          · by_cases him : i = m
            · subst him
              simp [builtNode, shiftedNode, h1]
            · simp [builtNode, shiftedNode, h1, him, Ne.symm him]
              omega

theorem chain_shifted_succ {pids : List ℤ} {i : ℕ} (hi : i + 1 < pids.length) :
    Chain Node.next (shifted pids) (some (i + 1)) ((List.range (i + 1)).map (· + 1)).reverse := by
  induction i with
  | zero =>
      refine Chain.cell (c := shiftedNode pids.length 1 pids[1]) ?_ Chain.null
      simp [List.getElem?_eq_getElem hi]
  | succ i ih =>
      rw [List.range_succ, List.map_append, List.map_singleton, List.reverse_concat]
      refine Chain.cell (c := shiftedNode pids.length (i + 1 + 1) pids[i + 1 + 1]) ?_
        (ih (by omega))
      simp [List.getElem?_eq_getElem hi]

/-- After the first shift the queue still holds all children. -/
theorem holdsAll_shifted {pids : List ℤ} {m : ℕ} (hm : pids.length = m + 2) :
    HoldsAll pids (shifted pids) (some 0) := by
  have hchain : Chain Node.next (shifted pids) (some 0)
      (0 :: ((List.range (m + 1)).map (· + 1)).reverse) := by
    refine Chain.cell (c := shiftedNode pids.length 0 pids[0]) ?_ ?_
    · simp [List.getElem?_eq_getElem (show 0 < pids.length by omega)]
    · rw [show (shiftedNode pids.length 0 pids[0]).next = some (m + 1) by simp [shiftedNode, hm]]
      exact chain_shifted_succ (by omega)
  refine holdsAll_of_chain hchain ?_ ?_
  · rw [hm, List.range_succ_eq_map (n := m + 1)]
    exact (List.reverse_perm _).cons 0
  · intro i
    rw [shifted_getElem?, Option.map_map]
    exact Option.map_id_fun ▸ rfl

/-! ### The rounds -/

/-- A round signals the front and shifts the queue. -/
theorem iterate_eq {h : Heap} {head : Ptr} {hd f : Node} (hhd : load h head = some hd)
    (hf : load h hd.front = some f) :
    iterate h head = (shiftQueue h head).map fun q => (f.pid, q) := by
  simp only [iterate, hhd, Option.bind_eq_bind, Option.bind_some, hf]
  cases shiftQueue h head with
  | none => rfl
  | some q => rfl

theorem rounds_succ_eq_some {k : ℕ} {q : Heap × Ptr} {signals : List ℤ} {h : Heap} {head : Ptr}
    (hk : rounds (k + 1) q = some (signals, h, head)) :
    ∃ signals' h' head' pid, rounds k q = some (signals', h', head') ∧
      iterate h' head' = some (pid, h, head) ∧ signals = signals' ++ [pid] := by
  obtain ⟨h₀, head₀⟩ := q
  simp only [rounds, Option.bind_eq_bind, Option.bind_eq_some_iff] at hk
  obtain ⟨⟨signals', h', head'⟩, hk', ⟨pid, h₁, head₁⟩, hit, heq⟩ := hk
  cases heq
  exact ⟨signals', h', head', pid, hk', hit, rfl⟩

/-- With one child the shift follows a null pointer. -/
theorem rounds_singleton (pid : ℤ) : rounds 1 (built [pid], some 0) = none := rfl

/-- The first round signals the child number `0`. -/
theorem rounds_one {first : ℤ} {rest : List ℤ} {m : ℕ} (hm : rest.length = m + 1) :
    rounds 1 (built (first :: rest), some rest.length) =
      some ([first], shifted (first :: rest), some 0) := by
  obtain ⟨last, hlast⟩ : ∃ pid, (first :: rest)[m + 1]? = some pid :=
    ⟨_, List.getElem?_eq_getElem (by simp [hm])⟩
  have hhead : load (built (first :: rest)) (some (m + 1)) =
      some (builtNode (m + 2) (m + 1) last) := by
    rw [load_some, built_getElem?, hlast, List.length_cons, hm]
    rfl
  have hfront : load (built (first :: rest)) (builtNode (m + 2) (m + 1) last).front =
      some (builtNode (rest.length + 1) 0 first) := by
    rw [show (builtNode (m + 2) (m + 1) last).front = some 0 from rfl, load_some, built_getElem?]
    rfl
  rw [rounds, rounds, hm]
  simp only [Option.bind_eq_bind, Option.bind_some]
  rw [iterate_eq hhead hfront, shiftQueue_built (by simp [hm])]
  rfl

/-- **The second round signals the child number `0` again.** -/
theorem iterate_shifted {first : ℤ} {rest : List ℤ} {pid : ℤ} {q : Heap × Ptr}
    (hrest : rest ≠ []) (h : iterate (shifted (first :: rest)) (some 0) = some (pid, q)) :
    pid = first := by
  have hhead : load (shifted (first :: rest)) (some 0) =
      some (shiftedNode (rest.length + 1) 0 first) := by
    rw [load_some, shifted_getElem?]
    rfl
  -- the new head was never a head before, so that it points to itself
  have hfront : (shiftedNode (rest.length + 1) 0 first).front = some 0 := by
    simp [shiftedNode, hrest]
  rw [iterate_eq hhead (hfront ▸ hhead)] at h
  obtain ⟨q', -, heq⟩ := Option.map_eq_some_iff.1 h
  exact (congrArg Prod.fst heq).symm

theorem roundRobin_zero (first : ℤ) (rest : List ℤ) : RoundRobin (first :: rest) 0 := by
  refine ⟨_, buildQueue_eq first rest, ?_⟩
  intro j hj
  obtain rfl : j = 0 := by omega
  exact ⟨[], _, _, rfl, rfl, holdsAll_built first rest⟩

theorem roundRobin_one {first : ℤ} {rest : List ℤ} (hrest : rest ≠ []) :
    RoundRobin (first :: rest) 1 := by
  obtain ⟨m, hm⟩ := Nat.exists_eq_succ_of_ne_zero (mt List.length_eq_zero_iff.1 hrest)
  refine ⟨_, buildQueue_eq first rest, ?_⟩
  intro j hj
  cases j with
  | zero => exact ⟨[], _, _, rfl, rfl, holdsAll_built first rest⟩
  | succ j =>
      obtain rfl : j = 0 := by omega
      exact ⟨[first], _, _, rounds_one hm, by simp, holdsAll_shifted (m := m) (by simp [hm])⟩

/-- **Only the first round is right**, and only with two children or more: with one child it follows
a null pointer, and the second round signals the first child again. -/
theorem roundRobin_iff {pids : List ℤ} (hne : pids ≠ []) (hnodup : pids.Nodup) (k : ℕ) :
    RoundRobin pids k ↔ k = 0 ∨ k = 1 ∧ 2 ≤ pids.length := by
  obtain ⟨first, rest, rfl⟩ := List.exists_cons_of_ne_nil hne
  constructor
  · rintro ⟨q, hq, hall⟩
    obtain rfl := Option.some_inj.1 ((buildQueue_eq first rest).symm.trans hq)
    rcases Nat.eq_zero_or_pos k with rfl | hk
    · exact Or.inl rfl
    · have hrest : rest ≠ [] := by
        rintro rfl
        obtain ⟨signals, h, head, hone, -⟩ := hall 1 hk
        rw [List.length_nil, rounds_singleton] at hone
        cases hone
      obtain ⟨second, rest', rfl⟩ := List.exists_cons_of_ne_nil hrest
      refine Or.inr ⟨?_, by simp⟩
      by_contra hk1
      obtain ⟨signals, h, head, htwo, hsignals, -⟩ := hall 2 (by omega)
      obtain ⟨signals', h', head', pid, hone, hit, rfl⟩ := rounds_succ_eq_some htwo
      rw [rounds_one (m := rest'.length) (by simp)] at hone
      cases hone
      obtain rfl := iterate_shifted (by simp) hit
      -- the two signals are equal, the two children are not
      have heq : pid = second := by simpa [List.range_succ] using hsignals
      simp [heq] at hnodup
  · rintro (rfl | ⟨rfl, hlen⟩)
    · exact roundRobin_zero first rest
    · refine roundRobin_one ?_
      rintro rfl
      simp at hlen

theorem roundRobin_three :
    [101, 102, 103] ≠ ([] : List ℤ) ∧ [101, 102, 103].Nodup ∧
      (RoundRobin [101, 102, 103] 1 ↔ 1 = 0 ∨ 1 = 1 ∧ 2 ≤ [101, 102, 103].length) :=
  ⟨by decide, by decide, roundRobin_iff (by decide) (by decide) 1⟩

/-- Three children: the second round is not the turn of the second child. -/
theorem not_roundRobin :
    ¬ ∀ pids : List ℤ, pids ≠ [] → pids.Nodup → ∀ k, RoundRobin pids k := by
  intro hall
  obtain ⟨q, hq, hj⟩ := hall [101, 102, 103] (by decide) (by decide) 2
  obtain ⟨signals, h, head, htwo, hsignals, -⟩ := hj 2 (Nat.le_refl 2)
  have hrun : (buildQueue [101, 102, 103]).bind (fun q => (rounds 2 q).map Prod.fst) =
      some [101, 101] := by decide
  rw [hq, Option.bind_some, htwo] at hrun
  cases hrun
  revert hsignals
  decide

end LoadBalancer
