/-
**Descriptor tables.**

The table of the open descriptors of a process: a list of files, in which a closed descriptor has no
entry.  A new descriptor is the lowest one that is free.  The table has no limit.

Main definitions:

* `Descriptors.alloc`, `Descriptors.dup`, `Descriptors.dup2`, `Descriptors.close` — the system calls;
* `Descriptors.openCount` — how many descriptors are open.

Main results:

* `Descriptors.openCount_alloc`, `Descriptors.le_openCount_dup2`, `Descriptors.le_openCount_close` —
  what the calls do to that number;
* `Descriptors.IsOpen.alloc`, `Descriptors.IsOpen.dup2`, `Descriptors.IsOpen.close` — which
  descriptors stay open;
* `Descriptors.alloc_snd_eq_iff` — which descriptor is new;
* `Descriptors.get_alloc`, `Descriptors.get_dup2`, `Descriptors.get_close` — the files behind the
  descriptors after the calls.
-/

import Mathlib.Data.List.Basic

set_option relaxedAutoImplicit false
set_option autoImplicit false

namespace Descriptors

variable {F : Type}

/-- The file behind a descriptor. -/
def get (t : List (Option F)) (fd : ℕ) : Option F := t[fd]?.join

/-- The descriptor is open. -/
def IsOpen (t : List (Option F)) (fd : ℕ) : Prop := (get t fd).isSome

instance (t : List (Option F)) (fd : ℕ) : Decidable (IsOpen t fd) :=
  inferInstanceAs (Decidable (_ = true))

/-- The number of the open descriptors. -/
def openCount (t : List (Option F)) : ℕ := t.countP Option.isSome

/-- A new descriptor for a file: the lowest one that is free. -/
def alloc (f : F) : List (Option F) → List (Option F) × ℕ
  | [] => ([some f], 0)
  | none :: t => (some f :: t, 0)
  | some g :: t => (some g :: (alloc f t).1, (alloc f t).2 + 1)

/-- A descriptor is made to stand for a file. -/
def put (f : F) : List (Option F) → ℕ → List (Option F)
  | [], 0 => [some f]
  | [], fd + 1 => none :: put f [] fd
  | _ :: t, 0 => some f :: t
  | g :: t, fd + 1 => g :: put f t fd

/-- `dup`; there is no new descriptor when the old one is closed. -/
def dup (t : List (Option F)) (fd : ℕ) : List (Option F) × Option ℕ :=
  match get t fd with
  | none => (t, none)
  | some f => ((alloc f t).1, some (alloc f t).2)

/-- `dup2`; the number of the old descriptor may be that of a failed call. -/
def dup2 (t : List (Option F)) (old : Option ℕ) (new : ℕ) : List (Option F) :=
  match old.bind (get t) with
  | none => t
  | some f => put f t new

/-- `close`. -/
def close (t : List (Option F)) (fd : Option ℕ) : List (Option F) :=
  match fd with
  | none => t
  | some fd => t.set fd none

/-! ### The number of the open descriptors -/

@[simp] theorem openCount_alloc (f : F) (t : List (Option F)) :
    openCount (alloc f t).1 = openCount t + 1 := by
  induction t with
  | nil => rfl
  | cons g t ih =>
      cases g with
      | none => simp [alloc, openCount]
      | some g =>
          simp only [openCount] at ih
          simp [alloc, openCount, ih]

theorem le_openCount_put (f : F) (t : List (Option F)) (fd : ℕ) :
    openCount t ≤ openCount (put f t fd) := by
  induction t generalizing fd with
  | nil => simp [openCount]
  | cons g t ih =>
      cases fd with
      | zero =>
          cases g with
          | none => simp [put, openCount]
          | some g => simp [put, openCount]
      | succ fd =>
          have h := ih fd
          simp only [openCount] at h
          cases g with
          | none => simpa [put, openCount] using h
          | some g => simpa [put, openCount] using h

theorem le_openCount_dup2 (t : List (Option F)) (old : Option ℕ) (new : ℕ) :
    openCount t ≤ openCount (dup2 t old new) := by
  unfold dup2
  cases old.bind (get t) with
  | none => exact Nat.le_refl _
  | some f => exact le_openCount_put f t new

theorem le_openCount_set (t : List (Option F)) (fd : ℕ) :
    openCount t ≤ openCount (t.set fd none) + 1 := by
  induction t generalizing fd with
  | nil => simp [openCount]
  | cons g t ih =>
      cases fd with
      | zero =>
          cases g with
          | none => simp [openCount]
          | some g => simp [openCount]
      | succ fd =>
          have h := ih fd
          simp only [openCount] at h
          cases g with
          | none => simpa [openCount] using h
          | some g => simpa [openCount] using h

/-- At most one descriptor is closed. -/
theorem le_openCount_close (t : List (Option F)) (fd : Option ℕ) :
    openCount t ≤ openCount (close t fd) + 1 := by
  cases fd with
  | none => exact Nat.le_succ _
  | some fd => exact le_openCount_set t fd

theorem openCount_dup {t : List (Option F)} {fd : ℕ} (h : IsOpen t fd) :
    openCount (dup t fd).1 = openCount t + 1 := by
  obtain ⟨f, hf⟩ := Option.isSome_iff_exists.1 h
  simp [dup, hf]

/-- The number of the open descriptors is determined by which ones are open. -/
theorem openCount_congr {t t' : List (Option F)} (h : ∀ fd, IsOpen t fd ↔ IsOpen t' fd) :
    openCount t = openCount t' := by
  induction t generalizing t' with
  | nil =>
      induction t' with
      | nil => rfl
      | cons g t' ih =>
          have hg := h 0
          have hrest := ih fun fd => by simpa [IsOpen, get] using h (fd + 1)
          cases g with
          | none => simpa [openCount] using hrest
          | some g => simp [IsOpen, get] at hg
  | cons g t ih =>
      cases t' with
      | nil =>
          have hg := h 0
          have hrest : openCount t = openCount [] :=
            ih fun fd => by simpa [IsOpen, get] using h (fd + 1)
          cases g with
          | none => simpa [openCount] using hrest
          | some g => simp [IsOpen, get] at hg
      | cons g' t' =>
          have hg := h 0
          have hrest : openCount t = openCount t' :=
            ih fun fd => by simpa [IsOpen, get] using h (fd + 1)
          simp only [openCount] at hrest
          cases g <;> cases g' <;> simp_all [openCount, IsOpen, get]

/-! ### The descriptors that stay open -/

@[simp] theorem get_cons_zero (g : Option F) (t : List (Option F)) : get (g :: t) 0 = g := by
  simp [get]

@[simp] theorem get_cons_succ (g : Option F) (t : List (Option F)) (fd : ℕ) :
    get (g :: t) (fd + 1) = get t fd := by
  simp [get]

/-- A new descriptor was closed before. -/
theorem not_isOpen_alloc (f : F) (t : List (Option F)) : ¬ IsOpen t (alloc f t).2 := by
  induction t with
  | nil => simp [IsOpen, get]
  | cons g t ih =>
      cases g with
      | none => simp [alloc, IsOpen]
      | some g => simpa [alloc, IsOpen] using ih

theorem IsOpen.alloc {t : List (Option F)} {fd : ℕ} (h : IsOpen t fd) (f : F) :
    IsOpen (Descriptors.alloc f t).1 fd := by
  induction t generalizing fd with
  | nil => simp [IsOpen, get] at h
  | cons g t ih =>
      cases g with
      | none =>
          cases fd with
          | zero => simp [IsOpen] at h
          | succ fd => simpa [Descriptors.alloc, IsOpen] using h
      | some g =>
          cases fd with
          | zero => simp [Descriptors.alloc, IsOpen]
          | succ fd =>
              have hrest : IsOpen (Descriptors.alloc f t).1 fd := ih (by simpa [IsOpen] using h)
              simpa [Descriptors.alloc, IsOpen] using hrest

theorem IsOpen.dup2 {t : List (Option F)} {fd : ℕ} (h : IsOpen t fd) (old : Option ℕ) (new : ℕ) :
    IsOpen (Descriptors.dup2 t old new) fd := by
  unfold Descriptors.dup2
  cases old.bind (get t) with
  | none => exact h
  | some f =>
      dsimp only
      induction t generalizing fd new with
      | nil => simp [IsOpen, get] at h
      | cons g t ih =>
          cases new with
          | zero =>
              cases fd with
              | zero => simp [put, IsOpen]
              | succ fd => simpa [put, IsOpen] using h
          | succ new =>
              cases fd with
              | zero => simpa [put, IsOpen] using h
              | succ fd =>
                  have hopen : IsOpen t fd := by simpa [IsOpen] using h
                  have hrest := ih hopen new
                  simpa [put, IsOpen] using hrest

theorem IsOpen.close {t : List (Option F)} {fd : ℕ} (h : IsOpen t fd) {other : Option ℕ}
    (hne : other ≠ some fd) : IsOpen (Descriptors.close t other) fd := by
  cases other with
  | none => exact h
  | some other =>
      have hne' : other ≠ fd := fun heq => hne (by rw [heq])
      simpa [Descriptors.close, IsOpen, get, List.getElem?_set_ne hne'] using h

theorem IsOpen.dup {t : List (Option F)} {fd : ℕ} (h : IsOpen t fd) (old : ℕ) :
    IsOpen (Descriptors.dup t old).1 fd := by
  unfold Descriptors.dup
  cases get t old with
  | none => exact h
  | some f => exact h.alloc f

/-- The descriptor that `dup` returns was closed before. -/
theorem dup_snd_ne {t : List (Option F)} {fd : ℕ} (h : IsOpen t fd) (old : ℕ) :
    (Descriptors.dup t old).2 ≠ some fd := by
  unfold Descriptors.dup
  cases get t old with
  | none => simp
  | some f =>
      intro heq
      exact not_isOpen_alloc f t (Option.some_inj.1 heq ▸ h)

/-! ### The file behind a descriptor -/

theorem get_alloc (f : F) (t : List (Option F)) (fd : ℕ) :
    get (alloc f t).1 fd = if fd = (alloc f t).2 then some f else get t fd := by
  induction t generalizing fd with
  | nil =>
      cases fd with
      | zero => rfl
      | succ fd => simp [alloc, get]
  | cons g t ih =>
      cases g with
      | none =>
          cases fd with
          | zero => rfl
          | succ fd => simp [alloc]
      | some g =>
          cases fd with
          | zero => simp [alloc]
          | succ fd => simp [alloc, ih fd]

theorem get_nil (fd : ℕ) : get ([] : List (Option F)) fd = none := by simp [get]

theorem get_put (f : F) (t : List (Option F)) (new fd : ℕ) :
    get (put f t new) fd = if fd = new then some f else get t fd := by
  induction new generalizing t fd with
  | zero =>
      cases fd with
      | zero => cases t <;> simp [put]
      | succ fd => cases t <;> simp [put, get]
  | succ new ih =>
      cases fd with
      | zero => cases t <;> simp [put, get_nil]
      | succ fd =>
          cases t with
          | nil => simp [put, ih, get_nil]
          | cons g t => simp [put, ih]

theorem get_dup2 {t : List (Option F)} {old : ℕ} {f : F} (h : get t old = some f) (new fd : ℕ) :
    get (dup2 t (some old) new) fd = if fd = new then some f else get t fd := by
  rw [dup2, Option.bind_some, h]
  exact get_put f t new fd

theorem get_close (t : List (Option F)) (other fd : ℕ) :
    get (close t (some other)) fd = if fd = other then none else get t fd := by
  by_cases h : fd = other
  · subst h
    rw [if_pos rfl, close, get, List.getElem?_set_self']
    cases t[fd]? <;> rfl
  · rw [if_neg h, close, get, List.getElem?_set_ne (Ne.symm h), get]

/-- An open descriptor is not the one that is new. -/
theorem ne_alloc {t : List (Option F)} {fd : ℕ} (h : IsOpen t fd) (f : F) : fd ≠ (alloc f t).2 :=
  fun heq => not_isOpen_alloc f t (heq ▸ h)

/-- The descriptors below a new one are open. -/
theorem isOpen_of_lt_alloc (f : F) {t : List (Option F)} {fd : ℕ} (h : fd < (alloc f t).2) :
    IsOpen t fd := by
  induction t generalizing fd with
  | nil => exact absurd h (Nat.not_lt_zero fd)
  | cons g t ih =>
      cases g with
      | none => exact absurd h (Nat.not_lt_zero fd)
      | some g =>
          cases fd with
          | zero => simp [IsOpen]
          | succ fd =>
              have hrest : IsOpen t fd := ih (Nat.lt_of_succ_lt_succ h)
              simpa [IsOpen] using hrest

/-- **The new descriptor is the lowest one that is free.** -/
theorem alloc_snd_eq_iff (f : F) {t : List (Option F)} {fd : ℕ} (hbelow : ∀ j < fd, IsOpen t j) :
    (alloc f t).2 = fd ↔ ¬ IsOpen t fd := by
  constructor
  · rintro rfl
    exact not_isOpen_alloc f t
  · intro hfree
    rcases Nat.lt_trichotomy (alloc f t).2 fd with hlt | heq | hgt
    · exact absurd (hbelow _ hlt) (not_isOpen_alloc f t)
    · exact heq
    · exact absurd (isOpen_of_lt_alloc f hgt) hfree

theorem isOpen_of_get {t : List (Option F)} {fd : ℕ} {f : F} (h : get t fd = some f) :
    IsOpen t fd := by
  rw [IsOpen, h]
  rfl

end Descriptors
