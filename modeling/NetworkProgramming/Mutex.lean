/-
**Critical sections.**

Threads share a state and change it only while they hold a mutex.  A critical section is a list of
actions, which are done one by one while the other threads go on; but no other section begins before it
ends.  So the sections are done as if each of them were one action, in the order in which the mutex was
taken.

Main definitions:

* `Mutex.State`, `Mutex.step` — the shared state with the mutex, and a step of a thread;
* `Mutex.perform` — all actions of a section at once;
* `Mutex.Serial` — the state is that of some sections, done one after the other.

Main results:

* `Mutex.serial_step` — **the sections are done one after the other**;
* `Mutex.Serial.shared_eq` — the shared state while the mutex is free.
-/

import Mathlib.Data.List.Basic

set_option relaxedAutoImplicit false
set_option autoImplicit false

namespace Mutex

variable {ι σ α : Type}

/-! ### Threads -/

/-- The shared state, and the thread that holds the mutex with the actions that it has still to do. -/
structure State (ι σ α : Type) where
  shared : σ
  holder : Option (ι × List α)

/-- What a thread does. -/
inductive Event (ι α : Type)
  /-- It takes the mutex for a section. -/
  | lock (i : ι) (actions : List α)
  /-- It does the next action of its section. -/
  | act (i : ι)
  | unlock (i : ι)

/-- **A step.** -/
def step [DecidableEq ι] (act : σ → α → σ) (s : State ι σ α) : Event ι α → Option (State ι σ α)
  | .lock i actions =>
      match s.holder with
      | none => some { s with holder := some (i, actions) }
      | some _ => none
  | .act i =>
      match s.holder with
      | some (j, a :: todo) => if i = j then some ⟨act s.shared a, some (j, todo)⟩ else none
      | _ => none
  | .unlock i =>
      match s.holder with
      | some (j, []) => if i = j then some { s with holder := none } else none
      | _ => none

/-- The section that begins with a step. -/
def Event.begins : Event ι α → List (List α)
  | .lock _ actions => [actions]
  | _ => []

/-! ### One after the other -/

/-- All actions of a section. -/
def perform (act : σ → α → σ) (s : σ) (actions : List α) : σ := actions.foldl act s

/-- **The state is that of the sections, done one after the other**; of the last one some actions may be
missing. -/
def Serial (act : σ → α → σ) (init : σ) (sections : List (List α)) (s : State ι σ α) : Prop :=
  match s.holder with
  | none => s.shared = sections.foldl (perform act) init
  | some (_, todo) => ∃ past done, sections = past ++ [done ++ todo] ∧
      s.shared = perform act (past.foldl (perform act) init) done

section Serial

variable {act : σ → α → σ} {init : σ} {sections : List (List α)} {s t : State ι σ α}

theorem Serial.shared_eq (h : Serial act init sections s) (hfree : s.holder = none) :
    s.shared = sections.foldl (perform act) init := by
  rwa [Serial, hfree] at h

theorem serial_init (act : σ → α → σ) (init : σ) :
    Serial act init [] (⟨init, none⟩ : State ι σ α) := rfl

variable [DecidableEq ι]

/-- **A step keeps the sections one after the other.** -/
theorem serial_step {e : Event ι α} (h : Serial act init sections s) (hstep : step act s e = some t) :
    Serial act init (sections ++ e.begins) t := by
  obtain ⟨shared, holder⟩ := s
  cases e with
  | lock i actions =>
      cases holder with
      | none =>
          cases hstep
          exact ⟨sections, [], rfl, h⟩
      | some p => cases hstep
  | act i =>
      rcases holder with _ | ⟨j, _ | ⟨a, todo⟩⟩
      · cases hstep
      · cases hstep
      · obtain ⟨past, done, rfl, rfl⟩ := h
        simp only [step] at hstep
        split_ifs at hstep
        cases hstep
        refine ⟨past, done ++ [a], ?_, ?_⟩
        · simp [Event.begins]
        · simp [perform]
  | unlock i =>
      rcases holder with _ | ⟨j, _ | ⟨a, todo⟩⟩
      · cases hstep
      · obtain ⟨past, done, rfl, rfl⟩ := h
        simp only [step] at hstep
        split_ifs at hstep
        cases hstep
        simp [Serial, Event.begins]
      · cases hstep

end Serial

end Mutex
