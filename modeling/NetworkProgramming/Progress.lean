/-
**Progress of a partial step function: states that can be reached, and the length of runs.**

The rules in `Runs` say what holds at the end of a run.  The ones here say that a run has an end, or
that it can be brought to one.  Both are arguments by a number: a rank that some run lowers leads to
the goal, and a potential that every step lowers bounds the number of steps.

Main definitions:

* `Runs.Reaches` — a state can be reached by a run whose steps meet a condition.

Main results:

* `Runs.Reaches.trans` — runs one after the other;
* `Runs.reaches_of_rank` — **a rank that can be lowered wherever the goal is not reached** leads to it;
* `Runs.length_add_le_of_potential` — **a potential that every step lowers**, up to what the event is
  allowed to add, bounds the length of every run.
-/

import NetworkProgramming.Runs

set_option relaxedAutoImplicit false
set_option autoImplicit false

namespace Runs

variable {σ ε : Type*} {step : σ → ε → Option σ} {C : σ → ε → Prop} {I G : σ → Prop}

/-! ### States that can be reached -/

/-- The state `t` is reached from `s` by a run whose steps meet `C`. -/
def Reaches (step : σ → ε → Option σ) (C : σ → ε → Prop) (s t : σ) : Prop :=
  ∃ es, Along step C s es ∧ run step s es = some t

theorem Reaches.refl (s : σ) : Reaches step C s s := ⟨[], trivial, rfl⟩

/-- One step. -/
theorem Reaches.single {s t : σ} {e : ε} (hC : C s e) (h : step s e = some t) :
    Reaches step C s t :=
  ⟨[e], (along_cons_of_step h).2 ⟨hC, trivial⟩, run_cons_eq_some.2 ⟨t, h, rfl⟩⟩

theorem Reaches.trans {s t u : σ} (h : Reaches step C s t) (h' : Reaches step C t u) :
    Reaches step C s u := by
  obtain ⟨es, hC, hrun⟩ := h
  obtain ⟨es', hC', hrun'⟩ := h'
  refine ⟨es ++ es', along_append.2 ⟨hC, ?_⟩, run_append hrun hrun'⟩
  intro v hv
  obtain rfl := Option.some_inj.1 (hrun.symm.trans hv)
  exact hC'

/-- **The rank rule.**  If from every state of the invariant, as long as the goal is not reached, some
run leads to the goal or lowers the rank, then some run leads to the goal. -/
theorem reaches_of_rank (rank : σ → ℕ)
    (hstep : ∀ s, I s → ¬ G s → ∃ t, Reaches step C s t ∧ I t ∧ (G t ∨ rank t < rank s))
    {s : σ} (hs : I s) : ∃ t, Reaches step C s t ∧ I t ∧ G t := by
  induction hn : rank s using Nat.strong_induction_on generalizing s with
  | _ n ih =>
      by_cases hG : G s
      · exact ⟨s, Reaches.refl s, hs, hG⟩
      · obtain ⟨t, hst, ht, hgoal | hlt⟩ := hstep s hs hG
        · exact ⟨t, hst, ht, hgoal⟩
        · obtain ⟨u, htu, hu⟩ := ih (rank t) (hn ▸ hlt) ht rfl
          exact ⟨u, hst.trans htu, hu⟩

/-! ### The length of runs -/

/-- **The potential rule.**  Where every step lowers the potential by one, up to the credit `c` of its
event, a run is no longer than the potential at its start and the credits of its events. -/
theorem length_add_le_of_potential {f : σ → ℕ} {c : ε → ℕ}
    (hstep : ∀ s e t, I s → step s e = some t → I t ∧ f t + 1 ≤ f s + c e)
    {s t : σ} {es : List ε} (hs : I s) (h : run step s es = some t) :
    es.length + f t ≤ f s + (es.map c).sum := by
  induction es generalizing s with
  | nil =>
      obtain rfl := Option.some_inj.1 h
      simp
  | cons e es ih =>
      obtain ⟨u, hu, hrun⟩ := run_cons_eq_some.1 h
      obtain ⟨hIu, hlow⟩ := hstep s e u hs hu
      have htail := ih hIu hrun
      rw [List.length_cons, List.map_cons, List.sum_cons]
      omega

/-- Where only some events bring credit, and each the same, they are counted. -/
theorem sum_map_ite [DecidableEq ε] (e : ε) (k : ℕ) (es : List ε) :
    (es.map fun e' => if e' = e then k else 0).sum = k * es.count e := by
  induction es with
  | nil => simp
  | cons e' es ih =>
      rw [List.map_cons, List.sum_cons, ih, List.count_cons]
      by_cases he : e' = e
      · simp only [he, if_true, beq_self_eq_true]
        ring
      · simp [he]

/-! ### Sums over the parts of a state -/

/-- What one part of a state adds to a sum over `n` parts when it is replaced. -/
theorem sum_update {β : Type*} (m : β → ℕ) (q : ℕ → β) {n i : ℕ} (hi : i < n) (b : β) :
    ∑ j ∈ Finset.range n, m (Function.update q i b j) + m (q i) =
      ∑ j ∈ Finset.range n, m (q j) + m b := by
  have hmem : i ∈ Finset.range n := Finset.mem_range.2 hi
  have hrest : ∑ j ∈ (Finset.range n).erase i, m (Function.update q i b j) =
      ∑ j ∈ (Finset.range n).erase i, m (q j) :=
    Finset.sum_congr rfl fun j hj => by rw [Function.update_of_ne (Finset.ne_of_mem_erase hj)]
  rw [← Finset.add_sum_erase _ _ hmem, ← Finset.add_sum_erase _ (fun j => m (q j)) hmem, hrest,
    Function.update_self]
  ring

/-- The same for a list of parts. -/
theorem sum_map_set {β : Type*} (m : β → ℕ) {l : List β} {i : ℕ} {a : β} (h : l[i]? = some a) (b : β) :
    ((l.set i b).map m).sum + m a = (l.map m).sum + m b := by
  induction l generalizing i with
  | nil => cases h
  | cons x l ih =>
      cases i with
      | zero =>
          obtain rfl := Option.some_inj.1 h
          rw [List.set_cons_zero, List.map_cons, List.sum_cons, List.map_cons, List.sum_cons]
          omega
      | succ i =>
          have hrest := ih h
          rw [List.set_cons_succ, List.map_cons, List.sum_cons, List.map_cons, List.sum_cons]
          omega

end Runs
