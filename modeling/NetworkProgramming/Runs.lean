/-
**Runs of a partial step function, and the invariant rules for them.**

A program that takes one event after another is modelled everywhere in this development in the
same way: a state type, an event type and a step function `σ → ε → Option σ` that answers `none`
when the event is not enabled.  This module holds what is common to all of them and names no
particular program.

Main definitions:

* `Runs.run` — the state after a list of events, if each of them is enabled in turn;
* `Runs.Along` — every step of a run meets a condition on the state before it and on the event;
* `Runs.Throughout` — every state of a run, from the first to the last, has a property;
* `Runs.readWhile` — a loop that reads one input after another.

Main results:

* `Runs.run_cons_eq_some`, `Runs.along_cons_of_step` — the first step of a run;
* `Runs.run_invariant` — what holds initially and is kept by every step holds after every run;
* `Runs.run_invariant_along` — the same when only the steps that meet a condition keep it;
* `Runs.exists_run_along` — a run whose steps are enabled by a condition reaches its end;
* `Runs.along_of_invariant` — a condition that follows from an invariant holds along every run;
* `Runs.run_iff_along` — a property that no step repairs, and the exact condition for it;
* `Runs.throughout_iff_along`, `Runs.throughout_iff_along_of_none` — a property of all states of a
  run, and the exact condition for it;
* `Runs.count_of_run` — a quantity that counts the steps;
* `Runs.readWhile_of_forall`, `Runs.readWhile_of_first` — a loop that no input ends, and one that
  some do.
-/

import Mathlib.Tactic

set_option relaxedAutoImplicit false
set_option autoImplicit false

namespace Runs

variable {σ ε : Type*} {step : σ → ε → Option σ}

/-! ### Runs -/

/-- The state reached from `s` by the events `es`, if every one of them is enabled in turn. -/
def run (step : σ → ε → Option σ) : σ → List ε → Option σ
  | s, [] => some s
  | s, e :: es => (step s e).bind fun t => run step t es

@[simp] theorem run_nil (s : σ) : run step s [] = some s := rfl

theorem run_cons (s : σ) (e : ε) (es : List ε) :
    run step s (e :: es) = (step s e).bind fun t => run step t es := rfl

theorem run_cons_eq_some {s t : σ} {e : ε} {es : List ε} :
    run step s (e :: es) = some t ↔ ∃ u, step s e = some u ∧ run step u es = some t := by
  rw [run_cons, Option.bind_eq_some_iff]

/-- A run goes on where another one has ended. -/
theorem run_append {s t u : σ} {es es' : List ε} (h : run step s es = some t)
    (h' : run step t es' = some u) : run step s (es ++ es') = some u := by
  induction es generalizing s with
  | nil =>
      obtain rfl := Option.some_inj.1 h
      exact h'
  | cons e es ih =>
      obtain ⟨v, hv, hrun⟩ := run_cons_eq_some.1 h
      exact run_cons_eq_some.2 ⟨v, hv, ih hrun⟩

/-! ### Conditions along a run -/

/-- Every step of the run of `es` from `s` meets `C`, a condition on the state before the step and
on its event. -/
def Along (step : σ → ε → Option σ) (C : σ → ε → Prop) : σ → List ε → Prop
  | _, [] => True
  | s, e :: es => C s e ∧ match step s e with
    | none => True
    | some t => Along step C t es

variable {C : σ → ε → Prop}

instance Along.decidable [∀ s e, Decidable (C s e)] :
    ∀ (s : σ) (es : List ε), Decidable (Along step C s es)
  | _, [] => isTrue trivial
  | s, e :: es =>
      match h : step s e with
      | none => decidable_of_iff (C s e) (by simp [Along, h])
      | some t =>
          have := Along.decidable t es
          decidable_of_iff (C s e ∧ Along step C t es) (by simp [Along, h])

@[simp] theorem along_nil (s : σ) : Along step C s [] := trivial

theorem along_cons_of_step {s t : σ} {e : ε} {es : List ε} (h : step s e = some t) :
    Along step C s (e :: es) ↔ C s e ∧ Along step C t es := by
  simp only [Along, h]

/-- A condition along two runs, one after the other. -/
theorem along_append {s : σ} {es es' : List ε} :
    Along step C s (es ++ es') ↔
      Along step C s es ∧ ∀ t, run step s es = some t → Along step C t es' := by
  induction es generalizing s with
  | nil => simp
  | cons e es ih =>
      cases hstep : step s e with
      | none => simp [Along, run, hstep]
      | some u => simp [Along, run, hstep, ih, and_assoc]

/-! ### Invariants -/

/-- **The invariant rule** for runs whose steps meet `C`: what holds initially and is kept by every
step that meets `C` holds at the end. -/
theorem run_invariant_along {I : σ → Prop}
    (hstep : ∀ s e t, I s → C s e → step s e = some t → I t)
    {s t : σ} {es : List ε} (hs : I s) (hC : Along step C s es) (h : run step s es = some t) :
    I t := by
  induction es generalizing s with
  | nil => exact Option.some_inj.1 h ▸ hs
  | cons e es ih =>
      obtain ⟨u, hu, hrun⟩ := run_cons_eq_some.1 h
      obtain ⟨he, hes⟩ := (along_cons_of_step hu).1 hC
      exact ih (hstep s e u hs he hu) hes hrun

/-- **The invariant rule** for all runs. -/
theorem run_invariant {I : σ → Prop} (hstep : ∀ s e t, I s → step s e = some t → I t)
    {s t : σ} {es : List ε} (hs : I s) (h : run step s es = some t) : I t := by
  induction es generalizing s with
  | nil => exact Option.some_inj.1 h ▸ hs
  | cons e es ih =>
      obtain ⟨u, hu, hrun⟩ := run_cons_eq_some.1 h
      exact ih (hstep s e u hs hu) hrun

/-- Where every event that meets `C` is enabled and keeps the invariant, a list of such events is
a run. -/
theorem exists_run_along {I : σ → Prop}
    (hstep : ∀ s e, I s → C s e → ∃ t, step s e = some t ∧ I t)
    {s : σ} {es : List ε} (hs : I s) (hC : Along step C s es) :
    ∃ t, run step s es = some t ∧ I t := by
  induction es generalizing s with
  | nil => exact ⟨s, rfl, hs⟩
  | cons e es ih =>
      obtain ⟨u, hu, hIu⟩ := hstep s e hs hC.1
      obtain ⟨he, hes⟩ := (along_cons_of_step hu).1 hC
      obtain ⟨t, ht, hIt⟩ := ih hIu hes
      exact ⟨t, run_cons_eq_some.2 ⟨u, hu, ht⟩, hIt⟩

/-- A condition that an invariant of the run implies holds along the run.  The invariant may in
turn rely on a condition `D` that is known to hold along it. -/
theorem along_of_invariant {D : σ → ε → Prop} {I : σ → Prop}
    (hstep : ∀ s e t, I s → D s e → step s e = some t → I t)
    (hC : ∀ s e t, I s → D s e → step s e = some t → C s e)
    {s t : σ} {es : List ε} (hs : I s) (hD : Along step D s es) (h : run step s es = some t) :
    Along step C s es := by
  induction es generalizing s with
  | nil => trivial
  | cons e es ih =>
      obtain ⟨u, hu, hrun⟩ := run_cons_eq_some.1 h
      obtain ⟨he, hes⟩ := (along_cons_of_step hu).1 hD
      exact (along_cons_of_step hu).2 ⟨hC s e u hs he hu, ih (hstep s e u hs he hu) hes hrun⟩

/-- **A property that a step keeps exactly when it meets `C`**, in the states of an invariant `I`,
holds at the end of a run exactly when the whole run meets `C`. -/
theorem run_iff_along {I Q : σ → Prop} (hI : ∀ s e t, I s → step s e = some t → I t)
    (hQ : ∀ s e t, I s → step s e = some t → (Q t ↔ Q s ∧ C s e))
    {s t : σ} {es : List ε} (hIs : I s) (h : run step s es = some t) :
    Q t ↔ Q s ∧ Along step C s es := by
  induction es generalizing s with
  | nil =>
      obtain rfl := Option.some_inj.1 h
      exact (and_iff_left trivial).symm
  | cons e es ih =>
      obtain ⟨u, hu, hrun⟩ := run_cons_eq_some.1 h
      rw [ih (hI s e u hIs hu) hrun, hQ s e u hIs hu, along_cons_of_step hu, and_assoc]

/-! ### All states of a run -/

/-- Every state that the run of `es` from `s` goes through has the property `Q`. -/
def Throughout (step : σ → ε → Option σ) (Q : σ → Prop) (s : σ) (es : List ε) : Prop :=
  ∀ es', es' <+: es → ∀ t, run step s es' = some t → Q t

theorem throughout_nil {Q : σ → Prop} {s : σ} : Throughout step Q s [] ↔ Q s := by
  constructor
  · intro h
    exact h [] (List.prefix_refl _) s rfl
  · intro h es' hes' t ht
    obtain rfl := List.prefix_nil.1 hes'
    exact Option.some_inj.1 ht ▸ h

theorem throughout_cons_of_step {Q : σ → Prop} {s t : σ} {e : ε} {es : List ε}
    (h : step s e = some t) : Throughout step Q s (e :: es) ↔ Q s ∧ Throughout step Q t es := by
  constructor
  · intro hall
    refine ⟨hall [] List.nil_prefix s rfl, ?_⟩
    intro es' hes' u hu
    exact hall (e :: es') (List.cons_prefix_cons.2 ⟨rfl, hes'⟩) u (run_cons_eq_some.2 ⟨t, h, hu⟩)
  · rintro ⟨hs, hall⟩ es' hes' u hu
    cases es' with
    | nil => exact Option.some_inj.1 hu ▸ hs
    | cons e' es' =>
        obtain ⟨rfl, htail⟩ := List.cons_prefix_cons.1 hes'
        obtain ⟨v, hv, hrun⟩ := run_cons_eq_some.1 hu
        obtain rfl := Option.some_inj.1 (h.symm.trans hv)
        exact hall es' htail u hrun

theorem throughout_cons_of_none {Q : σ → Prop} {s : σ} {e : ε} {es : List ε}
    (h : step s e = none) : Throughout step Q s (e :: es) ↔ Q s := by
  constructor
  · intro hall
    exact hall [] List.nil_prefix s rfl
  · intro hs es' hes' u hu
    cases es' with
    | nil => exact Option.some_inj.1 hu ▸ hs
    | cons e' es' =>
        obtain ⟨rfl, -⟩ := List.cons_prefix_cons.1 hes'
        rw [run_cons, h] at hu
        cases hu

/-- **A property that a step leads to exactly when it meets `C`** holds throughout a run exactly when
the whole run meets `C`.  The invariant `I` is needed, and kept, only by the steps that meet `C`; what
the run does after the property was lost does not matter. -/
theorem throughout_iff_along {I Q : σ → Prop}
    (hQ : ∀ s e t, I s → Q s → step s e = some t → (Q t ↔ C s e) ∧ (C s e → I t))
    {s t : σ} {es : List ε} (hI : I s) (hs : Q s) (h : run step s es = some t) :
    Throughout step Q s es ↔ Along step C s es := by
  induction es generalizing s with
  | nil => exact iff_of_true (throughout_nil.2 hs) trivial
  | cons e es ih =>
      obtain ⟨u, hu, hrun⟩ := run_cons_eq_some.1 h
      obtain ⟨hiff, hkeep⟩ := hQ s e u hI hs hu
      rw [throughout_cons_of_step hu, along_cons_of_step hu, and_iff_right hs, ← hiff]
      constructor
      · intro hall
        have hQu : Q u := hall [] List.nil_prefix u rfl
        exact ⟨hQu, (ih (hkeep (hiff.1 hQu)) hQu hrun).1 hall⟩
      · rintro ⟨hQu, halong⟩
        exact (ih (hkeep (hiff.1 hQu)) hQu hrun).2 halong

/-- The same for all lists of events, also those that are no run to their end, if an event that is not
enabled meets `C`. -/
theorem throughout_iff_along_of_none {I Q : σ → Prop}
    (hQ : ∀ s e t, I s → Q s → step s e = some t → (Q t ↔ C s e) ∧ (C s e → I t))
    (hnone : ∀ s e, I s → step s e = none → C s e)
    {s : σ} (es : List ε) (hI : I s) (hs : Q s) :
    Throughout step Q s es ↔ Along step C s es := by
  induction es generalizing s with
  | nil => exact iff_of_true (throughout_nil.2 hs) trivial
  | cons e es ih =>
      cases hstep : step s e with
      | none =>
          refine iff_of_true ((throughout_cons_of_none hstep).2 hs) ⟨hnone s e hI hstep, ?_⟩
          rw [hstep]
          trivial
      | some u =>
          obtain ⟨hiff, hkeep⟩ := hQ s e u hI hs hstep
          rw [throughout_cons_of_step hstep, along_cons_of_step hstep, and_iff_right hs, ← hiff]
          constructor
          · intro hall
            have hQu : Q u := hall [] List.nil_prefix u rfl
            exact ⟨hQu, (ih (hkeep (hiff.1 hQu)) hQu).1 hall⟩
          · rintro ⟨hQu, halong⟩
            exact (ih (hkeep (hiff.1 hQu)) hQu).2 halong

/-! ### Counting steps -/

/-- Where every step adds one to a quantity, the quantity counts the steps. -/
theorem count_of_run {I : σ → Prop} {f : σ → ℕ}
    (hstep : ∀ s e t, I s → step s e = some t → I t ∧ f t = f s + 1)
    {s t : σ} {es : List ε} (hs : I s) (h : run step s es = some t) : f t = f s + es.length := by
  induction es generalizing s with
  | nil =>
      obtain rfl := Option.some_inj.1 h
      rfl
  | cons e es ih =>
      obtain ⟨u, hu, hrun⟩ := run_cons_eq_some.1 h
      obtain ⟨hIu, hcount⟩ := hstep s e u hs hu
      rw [ih hIu hrun, hcount, List.length_cons]
      omega

/-! ### Loops that read -/

section ReadWhile

variable {α : Type*} {go : σ → Bool} {body : σ → α → σ}

/-- A loop that reads one input after another as long as `go` holds: the state in which it ends or
waits for more, and the inputs that it has not read. -/
def readWhile (go : σ → Bool) (body : σ → α → σ) : σ → List α → σ × List α
  | s, [] => (s, [])
  | s, a :: as => if go s then readWhile go body (body s a) as else (s, a :: as)

/-- A loop that no input ends reads all of them, and goes on. -/
theorem readWhile_of_forall (hbody : ∀ s a, go s = true → go (body s a) = true) {s : σ}
    (hs : go s = true) (as : List α) :
    readWhile go body s as = (as.foldl body s, []) ∧ go (as.foldl body s) = true := by
  induction as generalizing s with
  | nil => exact ⟨rfl, hs⟩
  | cons a as ih =>
      rw [readWhile, if_pos hs]
      exact ih (hbody s a hs)

/-- **A loop that the inputs with the property `q` end** reads up to the first of them. -/
theorem readWhile_of_first {q : α → Prop}
    (hbody : ∀ s a, go s = true → (go (body s a) = true ↔ ¬ q a))
    {s : σ} (hs : go s = true) {front : List α} (hfront : ∀ a ∈ front, ¬ q a) {a : α} (ha : q a)
    (rest : List α) :
    readWhile go body s (front ++ a :: rest) = ((front ++ [a]).foldl body s, rest) ∧
      go ((front ++ [a]).foldl body s) = false := by
  induction front generalizing s with
  | nil =>
      have hend : go (body s a) = false := by
        rw [← Bool.not_eq_true, hbody s a hs]
        exact not_not.2 ha
      refine ⟨?_, hend⟩
      rw [List.nil_append, readWhile, if_pos hs]
      cases rest with
      | nil => rfl
      | cons b rest =>
          rw [readWhile, hend, if_neg (by simp)]
          rfl
  | cons b front ih =>
      have hb := List.forall_mem_cons.1 hfront
      rw [List.cons_append, readWhile, if_pos hs]
      exact ih ((hbody s b hs).2 hb.1) hb.2

end ReadWhile

end Runs
