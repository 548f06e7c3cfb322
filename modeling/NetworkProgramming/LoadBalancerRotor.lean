/-
**Load Balancer: what the second loop does for ever.**

`LoadBalancer` shows that the children are not signalled in turn.  But they are signalled fairly.  The
`front` of every node works as a rotor of its own: the loop signals the child to which the `front` of
the head points, makes that child the head and moves the old `front` one child further.  The loop is
thus a rotor walk, and in `n * n` rounds it signals each of the `n` children `n` times; then it begins
anew.

The pointers show this only when every child has been the head once.  Before that the `rear` of a node
points to the node itself, and a shift then leaves a wrong `prev` there, which the next shift repairs.

Main definitions:

* `LoadBalancer.Follows` — **the nodes of the queue, as the rotor walk has them**;
* `LoadBalancer.Phase` — the walk until every child has been the head.

Main results:

* `LoadBalancer.Follows.iterate` — a round is a move of the walk;
* `LoadBalancer.rounds_follow` — the rounds are a rotor walk;
* `LoadBalancer.signals_periodic` — **every child is signalled as often as every other one**.
-/

import Mathlib.Data.Finset.Erase
import Mathlib.Data.Finset.Filter
import Mathlib.Data.Finset.Range
import NetworkProgramming.LoadBalancer
import NetworkProgramming.RotorWalk

set_option relaxedAutoImplicit false
set_option autoImplicit false

namespace LoadBalancer

open Cells hiding walk
open Rotor

/-! ### Neighbours -/

/-- The child before the child `i` of `n`. -/
def before (n i : ℕ) : ℕ := if i = 0 then n - 1 else i - 1

theorem before_succ {n i : ℕ} (hi : i < n) : before n ((i + 1) % n) = i := by
  unfold before
  rcases Nat.lt_or_eq_of_le (Nat.succ_le_of_lt hi) with hlt | heq
  · rw [Nat.mod_eq_of_lt hlt]
    simp
  · rw [show i + 1 = n from heq, Nat.mod_self, if_pos rfl]
    omega

theorem succ_before {n i : ℕ} (hi : i < n) : (before n i + 1) % n = i := by
  unfold before
  split_ifs with h0
  · rw [Nat.sub_add_cancel (by omega), Nat.mod_self, h0]
  · rw [Nat.sub_add_cancel (by omega), Nat.mod_eq_of_lt hi]

theorem before_lt {n i : ℕ} (hi : i < n) : before n i < n := by
  unfold before
  split_ifs <;> omega

theorem succ_ne {n i : ℕ} (hn : 2 ≤ n) (hi : i < n) : (i + 1) % n ≠ i := by
  rcases Nat.lt_or_eq_of_le (Nat.succ_le_of_lt hi) with hlt | heq
  · rw [Nat.mod_eq_of_lt hlt]
    omega
  · rw [show i + 1 = n from heq, Nat.mod_self]
    omega

/-! ### A shift -/

/-- **What a shift writes**: the head gets a new `front` and `rear`, its old `rear` a new `prev`. -/
theorem shiftQueue_eq {h : Heap} {head t r p : ℕ} {hd tn : Node} (hhd : h[head]? = some hd)
    (hfront : hd.front = some t) (hrear : hd.rear = some r) (htn : h[t]? = some tn)
    (hprev : tn.prev = some p) (hr : r < h.length) (hp : p < h.length) :
    ∃ h', shiftQueue h (some head) = some (h', some t) ∧ h'.length = h.length ∧
      ∀ (i : ℕ) (c : Node), h[i]? = some c → ∃ nx, h'[i]? = some
        ({ pid := c.pid
           rear := if head = i then some t else c.rear
           front := if head = i then some p else c.front
           prev := if r = i then some t else c.prev
           next := nx } : Node) := by
  have hlt : head < h.length := (List.getElem?_eq_some_iff.1 hhd).1
  have htl : t < h.length := (List.getElem?_eq_some_iff.1 htn).1
  have hshift : shiftQueue h (some head) = some
      (((((h.modify p fun n => { n with next := none }).modify head fun n =>
        { n with front := some p }).modify t fun n => { n with next := some r }).modify r fun n =>
        { n with prev := some t }).modify head fun n => { n with rear := some t }, some t) := by
    simp only [shiftQueue, load_some, hhd, Option.bind_eq_bind, Option.bind_some, hfront, hrear, htn,
      hprev]
    rw [store_some hp, Option.bind_some, store_some (by simpa using hlt), Option.bind_some,
      store_some (by simpa using htl), Option.bind_some, store_some (by simpa using hr),
      Option.bind_some, store_some (by simpa using hlt), Option.bind_some]
    rfl
  refine ⟨_, hshift, by simp, ?_⟩
  intro i c hc
  refine ⟨if t = i then some r else if p = i then none else c.next, ?_⟩
  simp only [List.getElem?_modify, hc]
  by_cases hhi : head = i <;> by_cases hpi : p = i <;> by_cases hti : t = i <;>
    by_cases hri : r = i <;> simp [hhi, hpi, hti, hri]

/-! ### The nodes of the walk -/

/-- **The nodes of the queue, as the rotor walk has them.**  The children in `fresh` have not been the
head yet; the `prev` of the child `dirty`, if there is one, is wrong. -/
structure Follows (pids : List ℤ) (h : Heap) (s : Walker) (fresh : Finset ℕ) (dirty : Option ℕ) :
    Prop where
  length_eq : h.length = pids.length
  head_lt : s.head < pids.length
  rotor_lt : ∀ i < pids.length, s.rotor i < pids.length
  fresh_rotor : ∀ i ∈ fresh, s.rotor i = 0
  /-- The next shift repairs the wrong pointer. -/
  dirty_spec : ∀ d, dirty = some d →
    s.head = 0 ∧ 0 ∉ fresh ∧ d < pids.length ∧ s.rotor 0 = (d + 1) % pids.length
  node : ∀ (i : ℕ) (pid : ℤ), pids[i]? = some pid → ∃ nx, h[i]? = some
    ({ pid := pid
       rear := some (if i ∈ fresh then i else before pids.length (s.rotor i))
       front := some (s.rotor i)
       prev := some (if dirty = some i then 0 else (i + 1) % pids.length)
       next := nx } : Node)

/-- A child that is the head for the first time was signalled by the first child. -/
def FromFirst (n : ℕ) (s : Walker) (fresh : Finset ℕ) : Prop :=
  s.head ∈ fresh → s.head ≠ 0 → 0 ∉ fresh ∧ s.rotor 0 = (s.head + 1) % n

section Round

variable {pids : List ℤ} {h : Heap} {s : Walker} {fresh : Finset ℕ} {dirty : Option ℕ}

theorem Follows.target_lt (hf : Follows pids h s fresh dirty) : s.target < pids.length :=
  hf.rotor_lt _ hf.head_lt

/-- The `prev` of the child that is signalled is right. -/
theorem Follows.target_clean (hn : 2 ≤ pids.length) (hf : Follows pids h s fresh dirty) :
    dirty ≠ some s.target := by
  intro hd
  obtain ⟨h0, -, hlt, hrot⟩ := hf.dirty_spec _ hd
  have htarget : s.target = s.rotor 0 := by rw [Walker.target, h0]
  exact succ_ne hn hf.target_lt (hrot.symm.trans htarget.symm)

/-- Whom the old head follows in the queue behind the shift. -/
theorem Follows.prev_eq (hf : Follows pids h s fresh dirty) {i : ℕ} (hi : i < pids.length) :
    (if (if s.head ∈ fresh then s.head else before pids.length s.target) = i then some s.target
      else some (if dirty = some i then 0 else (i + 1) % pids.length)) =
    some (if (if s.head ∈ fresh then some s.head else none) = some i then 0
      else (i + 1) % pids.length) := by
  by_cases hfresh : s.head ∈ fresh
  · -- the head was no head before, so that there is nothing to repair
    have hdirty : dirty ≠ some i := by
      intro hd
      obtain ⟨h0, h0f, -⟩ := hf.dirty_spec _ hd
      exact h0f (h0 ▸ hfresh)
    have htarget : s.target = 0 := hf.fresh_rotor _ hfresh
    simp only [hfresh, if_true, hdirty, if_false, htarget, Option.some.injEq]
    split_ifs <;> rfl
  · have hdirty : dirty = some i → before pids.length s.target = i := by
      intro hd
      obtain ⟨h0, -, hlt, hrot⟩ := hf.dirty_spec _ hd
      rw [Walker.target, h0, hrot, before_succ hi]
    simp only [hfresh, if_false, reduceCtorEq]
    split_ifs with hb hd
    · rw [← hb, succ_before hf.target_lt]
    · exact absurd (hdirty hd) hb
    · rfl

/-- **A round is a move of the walk.** -/
theorem Follows.iterate (hn : 2 ≤ pids.length) (hf : Follows pids h s fresh dirty)
    (hside : FromFirst pids.length s fresh) :
    ∃ pid h', pids[s.target]? = some pid ∧
      iterate h (some s.head) = some (pid, h', some (next pids.length s).head) ∧
      Follows pids h' (next pids.length s) (fresh.erase s.head)
        (if s.head ∈ fresh then some s.head else none) := by
  obtain ⟨nx, hhd⟩ := hf.node s.head _ (List.getElem?_eq_getElem hf.head_lt)
  obtain ⟨ny, htn⟩ := hf.node s.target _ (List.getElem?_eq_getElem hf.target_lt)
  rw [if_neg (hf.target_clean hn)] at htn
  have hrlt : (if s.head ∈ fresh then s.head else before pids.length s.target) < h.length := by
    rw [hf.length_eq]
    split_ifs
    · exact hf.head_lt
    · exact before_lt hf.target_lt
  have hplt : (s.target + 1) % pids.length < h.length := by
    rw [hf.length_eq]
    exact Nat.mod_lt _ (by omega)
  obtain ⟨h', hshift, hlen, hnodes⟩ := shiftQueue_eq hhd rfl rfl htn rfl hrlt hplt
  refine ⟨_, h', List.getElem?_eq_getElem hf.target_lt, ?_, ?_⟩
  · have hload : load h (some s.head) = _ := hhd
    rw [iterate_eq hload htn, hshift]
    rfl
  · refine
      { length_eq := hlen.trans hf.length_eq
        head_lt := hf.target_lt
        rotor_lt := ?_
        fresh_rotor := ?_
        dirty_spec := ?_
        node := ?_ }
    · intro i hi
      rw [next_rotor]
      split_ifs
      · exact Nat.mod_lt _ (by omega)
      · exact hf.rotor_lt i hi
    · intro i hi
      obtain ⟨hne, hi⟩ := Finset.mem_erase.1 hi
      rw [next_rotor, if_neg hne]
      exact hf.fresh_rotor i hi
    · intro d hd
      split_ifs at hd with hfresh
      obtain rfl := Option.some.inj hd
      have htarget : s.target = 0 := hf.fresh_rotor _ hfresh
      refine ⟨htarget, ?_, hf.head_lt, ?_⟩
      · intro h0
        obtain ⟨hne, h0⟩ := Finset.mem_erase.1 h0
        exact (hside hfresh (Ne.symm hne)).1 h0
      · rw [next_rotor]
        split_ifs with h0
        · rw [htarget, h0]
        · exact (hside hfresh (Ne.symm h0)).2
    · intro i pid hpid
      obtain ⟨nz, hi⟩ := hf.node i pid hpid
      have hlt : i < pids.length := (List.getElem?_eq_some_iff.1 hpid).1
      obtain ⟨nw, hi'⟩ := hnodes i _ hi
      refine ⟨nw, hi'.trans (congrArg some ?_)⟩
      rw [Node.mk.injEq]
      refine ⟨rfl, ?_, ?_, hf.prev_eq hlt, rfl⟩
      · by_cases hhi : s.head = i
        · subst hhi
          have hback := before_succ hf.target_lt
          rw [Walker.target] at hback
          simp [next_rotor, hback, Walker.target]
        · simp [next_rotor, hhi, Ne.symm hhi]
      · by_cases hhi : s.head = i
        · simp [next_rotor, hhi]
        · simp [next_rotor, hhi, Ne.symm hhi]

end Round

/-! ### The first lap -/

/-- **The walk until every child has been the head**, and the children that have not. -/
inductive Phase (n : ℕ) : Walker → Finset ℕ → Prop
  | first : Phase n (next n (start n 0)) (Finset.range (n - 1))
  | mid (j : ℕ) : 0 < j → j < n → Phase n (mid n 0 j) {i ∈ Finset.range (n - 1) | j ≤ i}
  | out (j : ℕ) : 0 < j → j + 1 < n →
      Phase n (next n (mid n 0 j)) {i ∈ Finset.range (n - 1) | j ≤ i}
  | later (s : Walker) : Phase n s ∅

theorem Phase.fromFirst {n : ℕ} {s : Walker} {fresh : Finset ℕ} (hn : 2 ≤ n)
    (hp : Phase n s fresh) : FromFirst n s fresh := by
  intro hfresh hne
  cases hp with
  | first =>
      rw [next_start (by omega)] at hne
      exact absurd rfl hne
  | mid j hj hjn => exact absurd rfl hne
  | out j hj hjn =>
      rw [next_mid hj hjn, Nat.mod_eq_of_lt hjn]
      refine ⟨?_, by simp⟩
      intro h0
      have := (Finset.mem_filter.1 h0).2
      omega
  | later s => exact absurd hfresh (Finset.notMem_empty _)

theorem Phase.next {n : ℕ} {s : Walker} {fresh : Finset ℕ} (hn : 2 ≤ n) (hp : Phase n s fresh) :
    Phase n (Rotor.next n s) (fresh.erase s.head) := by
  cases hp with
  | first =>
      rw [next_next_start (by omega), next_start (by omega)]
      convert Phase.mid (n := n) 1 Nat.one_pos (by omega) using 1
      ext i
      simp only [Finset.mem_erase, Finset.mem_range, Finset.mem_filter]
      omega
  | mid j hj hjn =>
      have herase : ({i ∈ Finset.range (n - 1) | j ≤ i} : Finset ℕ).erase (Rotor.mid n 0 j).head =
          {i ∈ Finset.range (n - 1) | j ≤ i} := by
        refine Finset.erase_eq_of_notMem ?_
        intro h0
        have := (Finset.mem_filter.1 h0).2
        exact absurd this (Nat.not_le_of_lt hj)
      rw [herase]
      rcases Nat.lt_or_eq_of_le (Nat.succ_le_of_lt hjn) with hlt | heq
      · exact Phase.out j hj hlt
      · have hempty : ({i ∈ Finset.range (n - 1) | j ≤ i} : Finset ℕ) = ∅ := by
          refine Finset.filter_eq_empty_iff.2 ?_
          intro i hi
          have := Finset.mem_range.1 hi
          omega
        rw [hempty]
        exact Phase.later _
  | out j hj hjn =>
      rw [next_next_mid hj hjn, next_mid hj hjn]
      convert Phase.mid (n := n) (j + 1) (Nat.succ_pos j) hjn using 1
      ext i
      simp only [Finset.mem_erase, Finset.mem_range, Finset.mem_filter]
      omega
  | later s => exact Phase.later _

/-! ### All rounds -/

/-- The nodes after the first round. -/
theorem follows_shifted {pids : List ℤ} (hn : 2 ≤ pids.length) :
    Follows pids (shifted pids) (next pids.length (start pids.length 0))
      (Finset.range (pids.length - 1)) none := by
  have hrotor : ∀ i, (next pids.length (start pids.length 0)).rotor i =
      if i = pids.length - 1 then 1 else 0 := by
    intro i
    rw [next_rotor, target_start (by omega), Nat.mod_eq_of_lt (by omega)]
    simp [start]
  refine
    { length_eq := by simp [shifted]
      head_lt := by
        rw [next_start (by omega)]
        exact Nat.lt_of_lt_of_le Nat.two_pos hn
      rotor_lt := ?_
      fresh_rotor := ?_
      dirty_spec := ?_
      node := ?_ }
  · intro i hi
    rw [hrotor]
    split_ifs <;> omega
  · intro i hi
    have hlt := Finset.mem_range.1 hi
    rw [hrotor, if_neg (by omega)]
  · intro d hd
    cases hd
  · intro i pid hpid
    have hlt : i < pids.length := (List.getElem?_eq_some_iff.1 hpid).1
    refine ⟨(shiftedNode pids.length i pid).next, ?_⟩
    rw [shifted_getElem?, hpid, Option.map_some, hrotor]
    refine congrArg some ?_
    by_cases hi : i + 1 = pids.length
    · have hi' : i = pids.length - 1 := by omega
      simp [shiftedNode, hi', before, Nat.sub_add_cancel (show 1 ≤ pids.length by omega)]
    · have hi' : i < pids.length - 1 := by omega
      simp [shiftedNode, hi, hi', Nat.ne_of_lt hi', Nat.mod_eq_of_lt (show i + 1 < pids.length by omega)]

/-- **The rounds are a rotor walk.** -/
theorem rounds_follow {first : ℤ} {rest : List ℤ} (hrest : rest ≠ []) (k : ℕ) :
    ∃ signals h fresh dirty,
      rounds (k + 1) (built (first :: rest), some rest.length) = some (signals, h,
        some (walk (rest.length + 1) (k + 1) (start (rest.length + 1) 0)).2.head) ∧
      signals.map some = (walk (rest.length + 1) (k + 1) (start (rest.length + 1) 0)).1.map
        ((first :: rest)[·]?) ∧
      Follows (first :: rest) h (walk (rest.length + 1) (k + 1) (start (rest.length + 1) 0)).2
        fresh dirty ∧
      Phase (rest.length + 1) (walk (rest.length + 1) (k + 1) (start (rest.length + 1) 0)).2
        fresh := by
  have hpos : 0 < rest.length := List.length_pos_iff.2 hrest
  induction k with
  | zero =>
      refine ⟨[first], shifted (first :: rest), _, none, ?_, ?_, follows_shifted ?_, Phase.first⟩
      · rw [rounds_one (m := rest.length - 1) (by omega)]
        simp only [walk]
        rw [next_start (by omega)]
      · simp only [walk]
        rw [target_start (by omega)]
        rfl
      · rw [List.length_cons]
        omega
  | succ k ih =>
      obtain ⟨signals, h, fresh, dirty, hrounds, hsignals, hfollows, hphase⟩ := ih
      have hn : 2 ≤ (first :: rest).length := by
        rw [List.length_cons]
        omega
      obtain ⟨pid, h', hpid, hiter, hfollows'⟩ := hfollows.iterate hn (hphase.fromFirst hn)
      rw [walk_succ]
      refine ⟨signals ++ [pid], h', _, _, ?_, ?_, hfollows', hphase.next hn⟩
      · rw [rounds, hrounds]
        simp only [Option.bind_eq_bind, Option.bind_some, hiter]
        rfl
      · rw [List.map_append, List.map_append, hsignals, List.map_singleton, List.map_singleton, hpid]

/-- The children of a walk, where `rounds` has no null pointer to follow. -/
theorem rounds_walk (first : ℤ) {rest : List ℤ} (hrest : rest ≠ []) (k : ℕ) :
    ∃ signals h head,
      rounds k (built (first :: rest), some rest.length) = some (signals, h, head) ∧
      signals.map some = (walk (rest.length + 1) k (start (rest.length + 1) 0)).1.map
        ((first :: rest)[·]?) := by
  cases k with
  | zero => exact ⟨[], _, _, rfl, rfl⟩
  | succ k =>
      obtain ⟨signals, h, _, _, hrounds, hsignals, -⟩ := rounds_follow hrest k
      exact ⟨signals, h, _, hrounds, hsignals⟩

theorem map_range_getElem? (l : List ℤ) :
    (List.range l.length).map (l[·]?) = l.map some := by
  refine List.ext_getElem (by simp) ?_
  intro i _ hi
  have hlt : i < l.length := by simpa using hi
  simp [List.getElem?_eq_getElem hlt]

/-- **The signals of the second loop.**  With two children or more no null pointer is followed in any
round.  The signals repeat a tour of `n * n` rounds, and after any number of tours every child has been
signalled equally often. -/
theorem signals_periodic (first : ℤ) {rest : List ℤ} (hrest : rest ≠ []) :
    ∃ q, buildQueue (first :: rest) = some q ∧
      (∀ k, ∃ signals h head, rounds k q = some (signals, h, head) ∧
        signals.map some = (List.range k).map fun j =>
          ((tour (rest.length + 1))[j % ((rest.length + 1) * (rest.length + 1))]?).bind
            ((first :: rest)[·]?)) ∧
      ∀ m, ∃ signals h head,
        rounds (m * ((rest.length + 1) * (rest.length + 1))) q = some (signals, h, head) ∧
        signals.Perm (List.replicate (m * (rest.length + 1)) (first :: rest)).flatten := by
  refine ⟨_, buildQueue_eq first rest, ?_, ?_⟩
  · intro k
    obtain ⟨signals, h, head, hrounds, hsignals⟩ := rounds_walk first hrest k
    refine ⟨signals, h, head, hrounds, ?_⟩
    have htour := congrArg (List.map fun o : Option ℕ => o.bind ((first :: rest)[·]?))
      (walk_eq_tour (n := rest.length + 1) (Nat.succ_pos _) k)
    rw [List.map_map, List.map_map] at htour
    exact hsignals.trans htour
  · intro m
    obtain ⟨signals, h, head, hrounds, hsignals⟩ := rounds_walk first hrest
      (m * ((rest.length + 1) * (rest.length + 1)))
    refine ⟨signals, h, head, hrounds, ?_⟩
    have htours := walk_tours (rest.length + 1) m
    rw [Walks, length_tours] at htours
    rw [htours] at hsignals
    have hperm := (tours_perm (rest.length + 1) m).map ((first :: rest)[·]?)
    rw [← hsignals, List.map_flatten, List.map_replicate,
      show (List.range (rest.length + 1)).map ((first :: rest)[·]?) = (first :: rest).map some from
        map_range_getElem? (first :: rest), ← List.map_replicate, ← List.map_flatten] at hperm
    simpa using hperm.filterMap id

/-- Three children: the tour has nine rounds, and each child is signalled three times in it. -/
theorem signals_periodic_three :
    ∃ q, buildQueue [101, 102, 103] = some q ∧
      ∀ m, ∃ signals h head, rounds (m * 9) q = some (signals, h, head) ∧
        signals.Perm (List.replicate (m * 3) [101, 102, 103]).flatten := by
  obtain ⟨q, hq, -, hperm⟩ := signals_periodic 101 (List.cons_ne_nil 102 [103])
  exact ⟨q, hq, hperm⟩

end LoadBalancer
