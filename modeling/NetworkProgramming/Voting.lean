/-
**Voting System: a round of votes over one message queue.**

For a line `vote` the parent forks one child after the other and receives one message after each
fork.  A message names neither the child nor the round, and the parent receives with type `0`, so
that whichever message is first in the queue is taken for the vote of the last child.  This is right
because there is never more than one message, or one child that has yet to send, at a time.

The children run at their own pace: a child tosses its coin and sends at any time after its fork.
`fork`, `msgsnd` and `msgrcv` succeed.

The votes stand in a block that was allocated for a single `int`, whatever the number of children: a
vote behind its end has no result, and neither has a line that `message.mtext` does not hold.

Main definitions:

* `Voting.State`, `Voting.Event`, `Voting.step` — the parent, its children and the queue;
* `Voting.count`, `Voting.decision` — the counting loop and what is printed;
* `Voting.Inv` — at most one vote is on its way, and it is that of the last child;
* `Voting.rank` — the steps that are left in a round.

Main results:

* `Voting.inv_run` — the invariant holds in every run, from one round to the next;
* `Voting.exists_step`, `Voting.rank_lt` — a round is never stuck, and each step brings it nearer to
  its end;
* `Voting.votes_collected_iff` — **each vote is the toss of its child**, and the decision is right, in
  every run, exactly if the block has room for the votes.
-/

import NetworkProgramming.Malloc
import NetworkProgramming.Runs
import NetworkProgramming.ShellJobs

set_option relaxedAutoImplicit false
set_option autoImplicit false

namespace Voting

open Malloc Runs
open Shell (Word atoi)

/-! ### The parent and its children -/

/-- Where the parent is. -/
inductive Parent
  /-- In `lineget`. -/
  | lineget
  /-- At the head of the loop over the children. -/
  | loop (i : ℕ)
  /-- In `msgrcv`, after the fork of child `i`. -/
  | msgrcv (i : ℕ)
  | exited
  deriving DecidableEq

/-- A child that has not sent its message yet; what it does afterwards is `exit(0)`. -/
structure Child where
  round : ℕ
  index : ℕ
  /-- `message.mtext`, once the coin is tossed. -/
  mtext : Option Word
  deriving DecidableEq

/-- The line that is printed at the end of a round. -/
inductive Decision
  | one
  | zero
  | equal
  deriving DecidableEq

/-- The system.  `round` and `tosses` only record what happens: the rounds that were begun, and the
coins that came up in them. -/
structure State where
  parent : Parent
  votes : Block ℤ
  queue : List Word
  children : List Child
  printed : List Decision
  round : ℕ
  tosses : ℕ → ℕ → Option Bool

/-- Before the first line is read: `votes` is `malloc(sizeof(int))` and not initialised. -/
def State.init (m : Allocator) (votes : ℕ → ℤ) : State :=
  { parent := .lineget
    votes := ⟨m.usable 4 / 4, votes⟩
    queue := []
    children := []
    printed := []
    round := 0
    tosses := fun _ _ => none }

/-- The text that a child sends for its `result`. -/
def mtext : Bool → Word
  | false => ['0']
  | true => ['1']

/-- The counting loop, after `i` iterations: `one_count` and `zero_count`. -/
def count (votes : Block ℤ) : ℕ → ℕ × ℕ
  | 0 => (0, 0)
  | i + 1 =>
      let (oneCount, zeroCount) := count votes i
      if votes.cell i = 1 then (oneCount + 1, zeroCount) else (oneCount, zeroCount + 1)

/-- What is printed for these counters. -/
def decision (oneCount zeroCount : ℕ) : Decision :=
  if zeroCount < oneCount then .one else if oneCount < zeroCount then .zero else .equal

/-- The events. -/
inductive Event
  /-- The parent reads a line, without its newline, and copies it to `message.mtext`. -/
  | line (buffer : Word)
  | fork
  /-- A child of those that have not sent yet performs its vote. -/
  | performVote (k : ℕ) (result : Bool)
  | msgsnd (k : ℕ)
  | msgrcv
  /-- The parent counts the votes and prints the decision. -/
  | print
  deriving DecidableEq

/-- **The step of the system** with `n` as `num_children`. -/
def step (n : ℕ) (s : State) : Event → Option State
  | .line buffer =>
      if s.parent = .lineget ∧ buffer.length < 8192 then
        if buffer = ['e', 'x', 'i', 't'] then some { s with parent := .exited }
        else if buffer = ['v', 'o', 't', 'e'] then
          some { s with parent := .loop 0, round := s.round + 1 }
        else some s
      else none
  | .fork =>
      match s.parent with
      | .loop i =>
          if i < n then
            some { s with parent := .msgrcv i, children := s.children ++ [⟨s.round, i, none⟩] }
          else none
      | _ => none
  | .performVote k result =>
      match s.children[k]? with
      | some ⟨round, i, none⟩ =>
          some { s with
            children := s.children.set k ⟨round, i, some (mtext result)⟩
            tosses := Function.update s.tosses round
              (Function.update (s.tosses round) i (some result)) }
      | _ => none
  | .msgsnd k =>
      match s.children[k]? with
      | some ⟨_, _, some text⟩ =>
          some { s with queue := s.queue ++ [text], children := s.children.eraseIdx k }
      | _ => none
  | .msgrcv =>
      match s.parent, s.queue with
      | .msgrcv i, text :: queue =>
          (s.votes.write i (atoi text)).map fun votes =>
            { s with parent := .loop (i + 1), queue := queue, votes := votes }
      | _, _ => none
  | .print =>
      match s.parent with
      | .loop i =>
          if i < n then none
          else
            let (oneCount, zeroCount) := count s.votes n
            some { s with
              parent := .lineget
              printed := s.printed ++ [decision oneCount zeroCount] }
      | _ => none

/-! ### What a step can do -/

section Step

variable {n : ℕ} {s t : State}

/-- The text of a vote reads back as the vote. -/
@[simp] theorem atoi_mtext (result : Bool) : atoi (mtext result) = if result then 1 else 0 := by
  cases result <;> rfl

theorem step_fork {i : ℕ} (hp : s.parent = .loop i) (hi : i < n) : step n s .fork =
    some { s with parent := .msgrcv i, children := s.children ++ [⟨s.round, i, none⟩] } := by
  simp only [step, hp, if_pos hi]

theorem step_performVote {k round i : ℕ} (hk : s.children[k]? = some ⟨round, i, none⟩)
    (result : Bool) : step n s (.performVote k result) =
      some { s with
        children := s.children.set k ⟨round, i, some (mtext result)⟩
        tosses := Function.update s.tosses round
          (Function.update (s.tosses round) i (some result)) } := by
  simp only [step, hk]

theorem step_msgsnd {k round i : ℕ} {text : Word}
    (hk : s.children[k]? = some ⟨round, i, some text⟩) : step n s (.msgsnd k) =
      some { s with queue := s.queue ++ [text], children := s.children.eraseIdx k } := by
  simp only [step, hk]

theorem step_msgrcv {i : ℕ} {text : Word} {queue : List Word} (hp : s.parent = .msgrcv i)
    (hq : s.queue = text :: queue) (hi : i < s.votes.size) : step n s .msgrcv =
      some { s with
        parent := .loop (i + 1)
        queue := queue
        votes := ⟨s.votes.size, Function.update s.votes.cell i (atoi text)⟩ } := by
  simp only [step, hp, hq, Block.write_of_lt hi, Option.map_some]

theorem step_print (hp : s.parent = .loop n) : step n s .print =
    some { s with
      parent := .lineget
      printed := s.printed ++ [decision (count s.votes n).1 (count s.votes n).2] } := by
  simp only [step, hp, if_neg (lt_irrefl n)]

/-- Everything that a step can do. -/
theorem step_cases {e : Event} (h : step n s e = some t) :
    (s.parent = .lineget ∧ (t = { s with parent := .exited } ∨
      t = { s with parent := .loop 0, round := s.round + 1 } ∨ t = s)) ∨
    (∃ i < n, s.parent = .loop i ∧
      t = { s with parent := .msgrcv i, children := s.children ++ [⟨s.round, i, none⟩] }) ∨
    (∃ k round i result, s.children[k]? = some ⟨round, i, none⟩ ∧
      t = { s with
        children := s.children.set k ⟨round, i, some (mtext result)⟩
        tosses := Function.update s.tosses round
          (Function.update (s.tosses round) i (some result)) }) ∨
    (∃ k round i text, s.children[k]? = some ⟨round, i, some text⟩ ∧
      t = { s with queue := s.queue ++ [text], children := s.children.eraseIdx k }) ∨
    (∃ i text queue, s.parent = .msgrcv i ∧ s.queue = text :: queue ∧ i < s.votes.size ∧
      t = { s with
        parent := .loop (i + 1)
        queue := queue
        votes := ⟨s.votes.size, Function.update s.votes.cell i (atoi text)⟩ }) ∨
    (∃ i, n ≤ i ∧ s.parent = .loop i ∧
      t = { s with
        parent := .lineget
        printed := s.printed ++ [decision (count s.votes n).1 (count s.votes n).2] }) := by
  cases e with
  | line buffer =>
      simp only [step] at h
      split_ifs at h with hp
      · exact Or.inl ⟨hp.1, Or.inl (Option.some_inj.1 h).symm⟩
      · exact Or.inl ⟨hp.1, Or.inr (Or.inl (Option.some_inj.1 h).symm)⟩
      · exact Or.inl ⟨hp.1, Or.inr (Or.inr (Option.some_inj.1 h).symm)⟩
  | fork =>
      simp only [step] at h
      split at h
      · rename_i i hp
        split_ifs at h with hi
        exact Or.inr (Or.inl ⟨i, hi, hp, (Option.some_inj.1 h).symm⟩)
      · cases h
  | performVote k result =>
      simp only [step] at h
      split at h
      · rename_i round i hk
        exact Or.inr (Or.inr (Or.inl ⟨k, round, i, result, hk, (Option.some_inj.1 h).symm⟩))
      · cases h
  | msgsnd k =>
      simp only [step] at h
      split at h
      · rename_i round i text hk
        exact Or.inr (Or.inr (Or.inr (Or.inl ⟨k, round, i, text, hk, (Option.some_inj.1 h).symm⟩)))
      · cases h
  | msgrcv =>
      simp only [step] at h
      split at h
      · rename_i i text queue hp hq
        obtain ⟨votes, hwrite, rfl⟩ := Option.map_eq_some_iff.1 h
        obtain ⟨hi, rfl⟩ := Block.write_eq_some_iff.1 hwrite
        exact Or.inr (Or.inr (Or.inr (Or.inr (Or.inl ⟨i, text, queue, hp, hq, hi, rfl⟩))))
      · cases h
  | print =>
      simp only [step] at h
      split at h
      · rename_i i hp
        split_ifs at h with hi
        exact Or.inr (Or.inr (Or.inr (Or.inr (Or.inr
          ⟨i, not_lt.1 hi, hp, (Option.some_inj.1 h).symm⟩))))
      · cases h

end Step

/-! ### At most one vote is on its way -/

/-- No vote is on its way. -/
structure Quiet (s : State) : Prop where
  children : s.children = []
  queue : s.queue = []

/-- The vote of child `i` of this round is on its way, and nothing else is: the child was forked, it
has tossed its coin, or its message is in the queue. -/
inductive OnItsWay (s : State) (i : ℕ) : Prop
  | forked (hchildren : s.children = [⟨s.round, i, none⟩]) (hqueue : s.queue = [])
  | tossed (result : Bool) (hchildren : s.children = [⟨s.round, i, some (mtext result)⟩])
      (hqueue : s.queue = []) (htoss : s.tosses s.round i = some result)
  | sent (result : Bool) (hchildren : s.children = []) (hqueue : s.queue = [mtext result])
      (htoss : s.tosses s.round i = some result)

/-- The votes of the first `i` children of this round are their tosses. -/
def Collected (s : State) (i : ℕ) : Prop :=
  ∀ j < i, ∃ result : Bool,
    s.tosses s.round j = some result ∧ s.votes.cell j = if result then 1 else 0

/-- **The invariant.** -/
def Inv (n : ℕ) (s : State) : Prop :=
  match s.parent with
  | .lineget => Quiet s
  | .loop i => i ≤ n ∧ Quiet s ∧ Collected s i
  | .msgrcv i => i < n ∧ OnItsWay s i ∧ Collected s i
  | .exited => Quiet s

section Inv

variable {n : ℕ} {s t : State}

theorem inv_init (n : ℕ) (m : Allocator) (votes : ℕ → ℤ) : Inv n (State.init m votes) := ⟨rfl, rfl⟩

theorem Inv.loop (h : Inv n s) {i : ℕ} (hp : s.parent = .loop i) :
    i ≤ n ∧ Quiet s ∧ Collected s i := by
  simpa only [Inv, hp] using h

theorem Inv.msgrcv (h : Inv n s) {i : ℕ} (hp : s.parent = .msgrcv i) :
    i < n ∧ OnItsWay s i ∧ Collected s i := by
  simpa only [Inv, hp] using h

theorem Inv.lineget (h : Inv n s) (hp : s.parent = .lineget) : Quiet s := by
  simpa only [Inv, hp] using h

/-- A child that has not sent yet is the last one, and the parent waits for it. -/
theorem Inv.child (h : Inv n s) {k : ℕ} {c : Child} (hk : s.children[k]? = some c) :
    k = 0 ∧ s.children = [c] ∧ s.queue = [] ∧ ∃ i, s.parent = .msgrcv i ∧ i < n ∧
      Collected s i ∧ c.round = s.round ∧ c.index = i ∧
        ∀ text, c.mtext = some text →
          ∃ result, text = mtext result ∧ s.tosses s.round i = some result := by
  have hsingle : ∀ d : Child, s.children = [d] → k = 0 ∧ d = c := by
    intro d hd
    rw [hd] at hk
    cases k with
    | zero => exact ⟨rfl, Option.some_inj.1 hk⟩
    | succ k => simp at hk
  have hnil : s.children ≠ [] := by
    rintro hnil
    simp [hnil] at hk
  cases hp : s.parent with
  | lineget => exact absurd (h.lineget hp).children hnil
  | loop i => exact absurd (h.loop hp).2.1.children hnil
  | exited =>
      simp only [Inv, hp] at h
      exact absurd h.children hnil
  | msgrcv i =>
      obtain ⟨hi, hway, hcollected⟩ := h.msgrcv hp
      cases hway with
      | forked hchildren hqueue =>
          obtain ⟨rfl, rfl⟩ := hsingle _ hchildren
          exact ⟨rfl, hchildren, hqueue, i, rfl, hi, hcollected, rfl, rfl, by simp⟩
      | tossed result hchildren hqueue htoss =>
          obtain ⟨rfl, rfl⟩ := hsingle _ hchildren
          refine ⟨rfl, hchildren, hqueue, i, rfl, hi, hcollected, rfl, rfl, ?_⟩
          rintro text htext
          exact ⟨result, (Option.some_inj.1 htext).symm, htoss⟩
      | sent result hchildren => exact absurd hchildren hnil

/-- **The invariant is kept by every step.** -/
theorem inv_step (s : State) (e : Event) (t : State) (h : Inv n s) (hstep : step n s e = some t) :
    Inv n t := by
  rcases step_cases hstep with ⟨hp, rfl | rfl | rfl⟩ | ⟨i, hi, hp, rfl⟩ |
    ⟨k, round, i, result, hk, rfl⟩ | ⟨k, round, i, text, hk, rfl⟩ |
    ⟨i, text, queue, hp, hq, -, rfl⟩ | ⟨i, hi, hp, rfl⟩
  -- a line is read: `exit`, `vote` or something else
  · exact ⟨(h.lineget hp).children, (h.lineget hp).queue⟩
  · refine ⟨Nat.zero_le n, ⟨(h.lineget hp).children, (h.lineget hp).queue⟩, ?_⟩
    intro j hj
    exact absurd hj (Nat.not_lt_zero j)
  · exact h
  · obtain ⟨-, hquiet, hcollected⟩ := h.loop hp
    refine ⟨hi, .forked ?_ hquiet.queue, hcollected⟩
    rw [hquiet.children, List.nil_append]
  · obtain ⟨rfl, hchildren, hqueue, j, hp, hj, hcollected, hround, hindex, -⟩ := h.child hk
    dsimp only at hround hindex
    subst hround hindex
    simp only [Inv, hp]
    refine ⟨hj, .tossed result ?_ hqueue ?_, ?_⟩
    · simp [hchildren]
    · simp
    · intro j' hj'
      obtain ⟨r, htoss, hvote⟩ := hcollected j' hj'
      refine ⟨r, ?_, hvote⟩
      simpa [Function.update_of_ne hj'.ne] using htoss
  · obtain ⟨rfl, hchildren, hqueue, j, hp, hj, hcollected, -, -, htext⟩ := h.child hk
    obtain ⟨result, rfl, htoss⟩ := htext _ rfl
    simp only [Inv, hp]
    refine ⟨hj, .sent result ?_ ?_ htoss, hcollected⟩
    · simp [hchildren]
    · simp [hqueue]
  · obtain ⟨hi, hway, hcollected⟩ := h.msgrcv hp
    cases hway with
    | forked _ hqueue => simp [hqueue] at hq
    | tossed _ _ hqueue => simp [hqueue] at hq
    | sent result hchildren hqueue htoss =>
        obtain ⟨rfl, rfl⟩ := List.cons.inj (hqueue.symm.trans hq)
        refine ⟨hi, ⟨hchildren, rfl⟩, ?_⟩
        intro j hj
        rcases Nat.lt_succ_iff_lt_or_eq.1 hj with hj | rfl
        · obtain ⟨r, htoss', hvote⟩ := hcollected j hj
          exact ⟨r, htoss', by simpa [Function.update_of_ne hj.ne] using hvote⟩
        · exact ⟨result, htoss, by simp⟩
  · obtain ⟨-, hquiet, -⟩ := h.loop hp
    exact ⟨hquiet.children, hquiet.queue⟩

/-- **At most one vote is on its way**, in every run and from one round to the next. -/
theorem inv_run {m : Allocator} {votes : ℕ → ℤ} {es : List Event}
    (h : run (step n) (State.init m votes) es = some s) : Inv n s :=
  run_invariant inv_step (inv_init n m votes) h

/-- The block of the votes keeps its size, and the votes that were received are in it. -/
def Inside (size : ℕ) (s : State) : Prop :=
  s.votes.size = size ∧ ∀ i, s.parent = .loop i → i ≤ size

theorem inside_step {size : ℕ} (s : State) (e : Event) (t : State) (h : Inside size s)
    (hstep : step n s e = some t) : Inside size t := by
  obtain ⟨hsize, hloop⟩ := h
  rcases step_cases hstep with ⟨-, rfl | rfl | rfl⟩ | ⟨i, -, -, rfl⟩ | ⟨k, round, i, result, -, rfl⟩ |
    ⟨k, round, i, text, -, rfl⟩ | ⟨i, text, queue, -, -, hi, rfl⟩ | ⟨i, -, -, rfl⟩
  · exact ⟨hsize, nofun⟩
  · refine ⟨hsize, ?_⟩
    rintro i hi
    obtain rfl : 0 = i := by simpa using hi
    exact Nat.zero_le _
  · exact ⟨hsize, hloop⟩
  · exact ⟨hsize, nofun⟩
  · exact ⟨hsize, hloop⟩
  · exact ⟨hsize, hloop⟩
  · refine ⟨hsize, ?_⟩
    rintro j hj
    obtain rfl : i + 1 = j := by simpa using hj
    exact hsize ▸ hi
  · exact ⟨hsize, nofun⟩

theorem inside_run {m : Allocator} {votes : ℕ → ℤ} {es : List Event}
    (h : run (step n) (State.init m votes) es = some s) : Inside (m.usable 4 / 4) s :=
  run_invariant inside_step ⟨rfl, fun _ hp => Parent.noConfusion hp⟩ h

end Inv

/-! ### A round comes to its end -/

/-- The parent is in the loop over the children. -/
def InRound (s : State) : Prop := ∃ i, s.parent = .loop i ∨ s.parent = .msgrcv i

/-- What a child has still to do. -/
def Child.rank (c : Child) : ℕ := if c.mtext = none then 2 else 1

/-- The steps that are left in a round, at most. -/
def rank (n : ℕ) (s : State) : ℕ :=
  match s.parent with
  | .loop i => 4 * (n - i) + 1
  | .msgrcv i => 4 * (n - (i + 1)) + 2 + (s.children.map Child.rank).sum
  | _ => 0

section Progress

variable {n : ℕ} {s t : State}

/-- **Each step in a round brings it nearer to its end.** -/
theorem rank_lt {e : Event} (h : Inv n s) (hround : InRound s) (hstep : step n s e = some t) :
    rank n t < rank n s := by
  rcases step_cases hstep with ⟨hp, -⟩ | ⟨i, hi, hp, rfl⟩ |
    ⟨k, round, i, result, hk, rfl⟩ | ⟨k, round, i, text, hk, rfl⟩ |
    ⟨i, text, queue, hp, hq, -, rfl⟩ | ⟨i, hi, hp, rfl⟩
  · obtain ⟨i, hi | hi⟩ := hround
    · cases hp.symm.trans hi
    · cases hp.symm.trans hi
  · have hchildren := (h.loop hp).2.1.children
    simp only [rank, hp, hchildren, List.nil_append, List.map_singleton, List.sum_singleton,
      Child.rank, if_true]
    omega
  · obtain ⟨rfl, hchildren, -, j, hp, -⟩ := h.child hk
    simp [rank, hp, hchildren, Child.rank]
  · obtain ⟨rfl, hchildren, -, j, hp, -⟩ := h.child hk
    simp [rank, hp, hchildren, Child.rank]
  · simp only [rank, hp]
    omega
  · simp only [rank, hp]
    omega

/-- **A round is never stuck**, if there is room for the votes: the parent forks, the last child tosses
or sends, or the parent receives. -/
theorem exists_step (h : Inv n s) (hroom : n ≤ s.votes.size) (hround : InRound s)
    (hend : s.parent ≠ .loop n) :
    ∃ e t, step n s e = some t ∧ InRound t ∧ t.round = s.round := by
  obtain ⟨i, hp | hp⟩ := hround
  · have hi : i < n := by
      refine lt_of_le_of_ne (h.loop hp).1 ?_
      rintro rfl
      exact hend hp
    exact ⟨.fork, _, step_fork hp hi, ⟨i, Or.inr rfl⟩, rfl⟩
  · obtain ⟨hi, hway, -⟩ := h.msgrcv hp
    cases hway with
    | forked hchildren _ =>
        exact ⟨.performVote 0 true, _, step_performVote (by rw [hchildren]; rfl) true,
          ⟨i, Or.inr hp⟩, rfl⟩
    | tossed result hchildren _ _ =>
        exact ⟨.msgsnd 0, _, step_msgsnd (by rw [hchildren]; rfl), ⟨i, Or.inr hp⟩, rfl⟩
    | sent result _ hqueue _ =>
        exact ⟨.msgrcv, _, step_msgrcv hp hqueue (by omega), ⟨i + 1, Or.inl rfl⟩, rfl⟩

/-- A round can be brought to its end from wherever it is. -/
theorem exists_run_end (h : Inv n s) (hroom : Inside s.votes.size s) (hn : n ≤ s.votes.size)
    (hround : InRound s) :
    ∃ es t, run (step n) s es = some t ∧ t.parent = .loop n ∧ t.round = s.round := by
  -- induction on the steps that are left
  induction hr : rank n s using Nat.strong_induction_on generalizing s with
  | _ r ih =>
      by_cases hend : s.parent = .loop n
      · exact ⟨[], s, rfl, hend, rfl⟩
      · obtain ⟨e, u, hu, huround, heq⟩ := exists_step h hn hround hend
        have hlt : rank n u < r := hr ▸ rank_lt h hround hu
        have hinside := inside_step s e u hroom hu
        obtain ⟨es, t, ht, hp, hteq⟩ := ih _ hlt (inv_step s e u h hu) (hinside.1 ▸ hinside)
          (hinside.1 ▸ hn) huround rfl
        exact ⟨e :: es, t, run_cons_eq_some.2 ⟨u, hu, ht⟩, hp, hteq.trans heq⟩

end Progress

/-! ### The decision -/

/-- How many of the first `i` tosses came up with this result. -/
def tally (tosses : ℕ → Option Bool) (result : Bool) (i : ℕ) : ℕ :=
  ((Finset.range i).filter fun j => tosses j = some result).card

theorem tally_succ (tosses : ℕ → Option Bool) (result : Bool) (i : ℕ) :
    tally tosses result (i + 1) =
      if tosses i = some result then tally tosses result i + 1 else tally tosses result i := by
  rw [tally, Finset.range_add_one, Finset.filter_insert]
  split_ifs
  · exact Finset.card_insert_of_notMem (by simp)
  · rfl

/-- The counting loop counts the tosses. -/
theorem count_eq {s : State} {i : ℕ} (h : Collected s i) :
    count s.votes i = (tally (s.tosses s.round) true i, tally (s.tosses s.round) false i) := by
  induction i with
  | zero => rfl
  | succ i ih =>
      have hprev : Collected s i := fun j hj => h j (Nat.lt_succ_of_lt hj)
      obtain ⟨result, htoss, hvote⟩ := h i (Nat.lt_succ_self i)
      rw [count, ih hprev, tally_succ, tally_succ, hvote, htoss]
      cases result <;> simp

/-- At the end of a round `votes[i]` is the toss of child `i` of that round, the queue is empty and
the decision follows the majority. -/
def RightlyEnded (n : ℕ) (s : State) : Prop :=
  (∀ i < n, ∃ result : Bool, s.tosses s.round i = some result ∧
    s.votes.cell i = if result then 1 else 0) ∧
  s.queue = [] ∧
  ∃ t d, step n s .print = some t ∧ t.printed = s.printed ++ [d] ∧ t.votes = s.votes ∧
    t.queue = [] ∧
    (d = .one ↔ tally (s.tosses s.round) false n < tally (s.tosses s.round) true n) ∧
    (d = .zero ↔ tally (s.tosses s.round) true n < tally (s.tosses s.round) false n) ∧
    (d = .equal ↔ tally (s.tosses s.round) true n = tally (s.tosses s.round) false n)

/-- A round that has come to its end has done so rightly. -/
theorem rightlyEnded {n : ℕ} {s : State} (hinv : Inv n s) (hp : s.parent = .loop n) :
    RightlyEnded n s := by
  obtain ⟨-, hquiet, hcollected⟩ := hinv.loop hp
  refine ⟨hcollected, hquiet.queue, _, _, step_print hp, rfl, rfl, hquiet.queue, ?_⟩
  rw [count_eq hcollected]
  dsimp only
  generalize tally (s.tosses s.round) true n = ones
  generalize tally (s.tosses s.round) false n = zeros
  unfold decision
  split_ifs with hone hzero
  · simp [hone, hone.not_gt, hone.ne']
  · simp [hone, hzero, hzero.ne]
  · have heq : ones = zeros := le_antisymm (not_lt.1 hone) (not_lt.1 hzero)
    simp [heq]

/-- **When each child's own vote is collected.**  For every allocator and every number of children:
whatever the lines, the tosses and the interleaving, every round ends rightly and can be brought to its
end from every state, exactly if the block for one `int` has room for the votes. -/
theorem votes_collected_iff (n : ℕ) (m : Allocator) (votes : ℕ → ℤ) :
    (∀ es s, run (step n) (State.init m votes) es = some s →
      (s.parent = .loop n → RightlyEnded n s) ∧
      (InRound s →
        ∃ es' t, run (step n) s es' = some t ∧ t.parent = .loop n ∧ t.round = s.round)) ↔
      4 * n ≤ m.usable 4 := by
  constructor
  · intro hall
    -- the first round begins, and its end is behind the end of the block unless there is room
    have hvote : run (step n) (State.init m votes) [.line ['v', 'o', 't', 'e']] =
        some { State.init m votes with parent := .loop 0, round := 1 } := rfl
    obtain ⟨es, t, ht, hp, -⟩ := (hall _ _ hvote).2 ⟨0, Or.inl rfl⟩
    have hle := (inside_run (run_append hvote ht)).2 n hp
    omega
  · intro hroom es s hs
    have hinv : Inv n s := inv_run hs
    have hinside := inside_run hs
    have hn : n ≤ m.usable 4 / 4 := by omega
    exact ⟨rightlyEnded hinv, exists_run_end hinv (hinside.1 ▸ hinside) (hinside.1 ▸ hn)⟩

/-- The first round up to the message of the seventh child, which is not received yet. -/
def sevenMessages : List Event :=
  .line ['v', 'o', 't', 'e'] ::
    ((List.replicate 6 [.fork, .performVote 0 true, .msgsnd 0, .msgrcv]).flatten ++
      [.fork, .performVote 0 true, .msgsnd 0])

/-- **The seventh vote is behind the block** of a 64-bit GNU system: when its message is there nothing
can be done, and the round of 305 children does not come to its end. -/
theorem not_votes_collected :
    ∃ s, run (step 305) (State.init glibc fun _ => 0) sevenMessages = some s ∧ InRound s ∧
      s.queue = [['1']] ∧
      ¬ ∃ es' t, run (step 305) s es' = some t ∧ t.parent = .loop 305 ∧ t.round = s.round := by
  have hrun : (run (step 305) (State.init glibc fun _ => 0) sevenMessages).map (fun s =>
      (s.parent, s.queue, s.children, s.votes.size)) = some (.msgrcv 6, [['1']], [], 6) := by
    decide +kernel
  obtain ⟨s, hs, heq⟩ := Option.map_eq_some_iff.1 hrun
  simp only [Prod.mk.injEq] at heq
  obtain ⟨hp, hqueue, hchildren, hsize⟩ := heq
  have hstuck : ∀ e, step 305 s e = none := by
    intro e
    cases e with
    | line buffer => simp [step, hp]
    | fork => simp [step, hp]
    | performVote k result => simp [step, hchildren]
    | msgsnd k => simp [step, hchildren]
    | msgrcv => simp [step, hp, hqueue, Block.write_of_le (le_of_eq hsize)]
    | print => simp [step, hp]
  refine ⟨s, hs, ⟨6, Or.inr hp⟩, hqueue, ?_⟩
  rintro ⟨es, t, ht, hend, -⟩
  cases es with
  | nil =>
      obtain rfl := Option.some_inj.1 ht
      cases hp.symm.trans hend
  | cons e es =>
      obtain ⟨u, hu, -⟩ := run_cons_eq_some.1 ht
      cases (hstuck e).symm.trans hu

end Voting
