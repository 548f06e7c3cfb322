/-
**MyShell: the descriptors of a daemon.**

The child of `daemonizeProcess` closes all its descriptors from `sysconf(_SC_OPEN_MAX)` down to `0`, so
that it keeps nothing of the shell: no terminal, and none of the pipe ends and files that pipelines
before it have left open.  It opens `/dev/null` and duplicates descriptor `0` twice, and exits when it
does not get the numbers `0`, `1` and `2`.

`sysconf` may find no limit and return `-1`; then nothing is closed.  A descriptor above the limit stays
open, as it can be there when the limit was lowered.  No new descriptor reaches the limit.

Main definitions:

* `ShellDaemon.closeLoop` — the loop that closes the descriptors;
* `ShellDaemon.allocBelow` — a new descriptor, below the limit;
* `ShellDaemon.daemonFds` — the table, and the numbers that the child gets;
* `ShellDaemon.daemonTable` — the table of the command, if the child comes to it.

Main results:

* `ShellDaemon.get_closeAll` — what is left after the loop;
* `ShellDaemon.daemonFds_eq_iff` — when the numbers are right;
* `ShellDaemon.daemon_descriptors` — **when the child comes to its command, and with which descriptors**.
-/

import NetworkProgramming.ShellDescriptors

set_option relaxedAutoImplicit false
set_option autoImplicit false

namespace ShellDaemon

open Descriptors ShellDescriptors

/-! ### The child -/

/-- `for (fd = n; fd >= 0; fd--) close(fd)` -/
def closeLoop (t : Table) : ℕ → Table
  | 0 => close t (some 0)
  | n + 1 => closeLoop (close t (some (n + 1))) n

/-- The loop from the result of `sysconf` on; `none` is `-1`. -/
def closeAll (openMax : Option ℕ) (t : Table) : Table :=
  match openMax with
  | none => t
  | some n => closeLoop t n

def devNull : File := .path "/dev/null".toList

/-- The lowest descriptor that is free, if it is below the limit. -/
def allocBelow (openMax : Option ℕ) (f : File) (t : Table) : Table × Option ℕ :=
  if ∀ n ∈ openMax, (alloc f t).2 < n then ((alloc f t).1, some (alloc f t).2) else (t, none)

/-- `open` of `/dev/null`, which may also fail for a reason of its own. -/
def openNull (openMax : Option ℕ) (ok : Bool) (t : Table) : Table × Option ℕ :=
  if ok then allocBelow openMax devNull t else (t, none)

/-- `dup(0)` -/
def dupZero (openMax : Option ℕ) (t : Table) : Table × Option ℕ :=
  match get t 0 with
  | none => (t, none)
  | some f => allocBelow openMax f t

/-- The table of the child, with `fd0`, `fd1` and `fd2`. -/
def daemonFds (openMax : Option ℕ) (ok : Bool) (t : Table) :
    Table × Option ℕ × Option ℕ × Option ℕ :=
  let (t, fd0) := openNull openMax ok (closeAll openMax t)
  let (t, fd1) := dupZero openMax t
  let (t, fd2) := dupZero openMax t
  (t, fd0, fd1, fd2)

/-- **The table with which `execv` is called for the command**; `none` when the child exits with its
message about unexpected descriptors. -/
def daemonTable (openMax : Option ℕ) (ok : Bool) (t : Table) : Option Table :=
  let (t, fds) := daemonFds openMax ok t
  if fds = (some 0, some 1, some 2) then some t else none

/-! ### What is left after the loop -/

theorem get_closeLoop (t : Table) (n fd : ℕ) :
    get (closeLoop t n) fd = if fd ≤ n then none else get t fd := by
  induction n generalizing t with
  | zero =>
      rw [closeLoop, get_close]
      exact if_congr Nat.le_zero.symm rfl rfl
  | succ n ih =>
      rw [closeLoop, ih, get_close]
      split_ifs <;> first | rfl | omega

/-- **What is left after the loop**: the descriptors above the limit. -/
theorem get_closeAll (openMax : Option ℕ) (t : Table) (fd : ℕ) :
    get (closeAll openMax t) fd = if ∃ n ∈ openMax, fd ≤ n then none else get t fd := by
  cases openMax with
  | none => simp [closeAll]
  | some n => simp [closeAll, get_closeLoop]

theorem isOpen_closeAll_iff (openMax : Option ℕ) (t : Table) (fd : ℕ) :
    IsOpen (closeAll openMax t) fd ↔ IsOpen t fd ∧ ∀ n ∈ openMax, n < fd := by
  rw [Descriptors.IsOpen, get_closeAll, Descriptors.IsOpen]
  split_ifs with h
  · obtain ⟨n, hn, hle⟩ := h
    refine iff_of_false Bool.false_ne_true fun hall => ?_
    exact absurd (hall.2 n hn) (Nat.not_lt.2 hle)
  · exact (and_iff_left fun n hn => Nat.lt_of_not_le fun hle => h ⟨n, hn, hle⟩).symm

/-! ### The three descriptors -/

section Fds

variable {t : Table}

theorem dupZero_eq (openMax : Option ℕ) {f : File} (h : get t 0 = some f) :
    dupZero openMax t = allocBelow openMax f t := by
  rw [dupZero, h]

/-- Which descriptor is new, and that there is one. -/
theorem allocBelow_snd_iff {openMax : Option ℕ} {f : File} {fd : ℕ} :
    (allocBelow openMax f t).2 = some fd ↔ (alloc f t).2 = fd ∧ ∀ n ∈ openMax, fd < n := by
  unfold allocBelow
  split_ifs with hlimit
  · rw [Option.some_inj]
    exact ⟨fun h => ⟨h, h ▸ hlimit⟩, fun h => h.1⟩
  · refine iff_of_false nofun ?_
    rintro ⟨rfl, hall⟩
    exact hlimit hall

theorem allocBelow_fst {openMax : Option ℕ} {f : File} {fd : ℕ}
    (h : (allocBelow openMax f t).2 = some fd) : (allocBelow openMax f t).1 = (alloc f t).1 := by
  obtain ⟨rfl, hlimit⟩ := allocBelow_snd_iff.1 h
  rw [allocBelow, if_pos hlimit]

/-- A new descriptor, and then the next two, are `0`, `1` and `2` if these are free. -/
theorem alloc_three_iff (f : File) :
    ((alloc f t).2 = 0 ∧ (alloc f (alloc f t).1).2 = 1 ∧
        (alloc f (alloc f (alloc f t).1).1).2 = 2) ↔
      ∀ fd ≤ 2, ¬ IsOpen t fd := by
  have hopen : ∀ (t : Table) (fd : ℕ),
      IsOpen (alloc f t).1 fd ↔ fd = (alloc f t).2 ∨ IsOpen t fd := by
    intro t fd
    rw [Descriptors.IsOpen, get_alloc, Descriptors.IsOpen]
    split_ifs with heq <;> simp [heq]
  have hzero := @alloc_snd_eq_iff _ f t 0 (fun j hj => absurd hj (Nat.not_lt_zero j))
  constructor
  · rintro ⟨h0, h1, h2⟩ fd hfd
    have hone := not_isOpen_alloc f (alloc f t).1
    have htwo := not_isOpen_alloc f (alloc f (alloc f t).1).1
    rw [h1, hopen, not_or] at hone
    rw [h2, hopen, hopen, not_or, not_or] at htwo
    have hcases : fd = 0 ∨ fd = 1 ∨ fd = 2 := by omega
    rcases hcases with rfl | rfl | rfl
    · exact hzero.1 h0
    · exact hone.2
    · exact htwo.2.2
  · intro hfree
    have h0 : (alloc f t).2 = 0 := hzero.2 (hfree 0 (by omega))
    have h1 : (alloc f (alloc f t).1).2 = 1 := by
      refine (alloc_snd_eq_iff f fun j hj => ?_).2 ?_
      · exact (hopen t j).2 (Or.inl (by omega))
      · rw [hopen, h0]
        exact not_or.2 ⟨Nat.one_ne_zero, hfree 1 (by omega)⟩
    refine ⟨h0, h1, (alloc_snd_eq_iff f fun j hj => ?_).2 ?_⟩
    · rw [hopen, hopen, h0, h1]
      have hcases : j = 1 ∨ j = 0 := by omega
      exact hcases.imp_right Or.inl
    · rw [hopen, hopen, h0, h1]
      exact not_or.2 ⟨by omega, not_or.2 ⟨by omega, hfree 2 le_rfl⟩⟩

end Fds

section Daemon

variable {openMax : Option ℕ} {t : Table}

/-- The three numbers are right when the lowest three descriptors are free and below the limit. -/
theorem daemonFds_eq_of_free (hlimit : ∀ n ∈ openMax, 2 < n)
    (hfree : ∀ fd ≤ 2, ¬ IsOpen (closeAll openMax t) fd) :
    daemonFds openMax true t =
      ((alloc devNull (alloc devNull (alloc devNull (closeAll openMax t)).1).1).1, some 0, some 1,
        some 2) := by
  obtain ⟨h0, h1, h2⟩ := (alloc_three_iff devNull).2 hfree
  have hbelow : ∀ (t : Table) (fd : ℕ), fd ≤ 2 → (alloc devNull t).2 = fd →
      allocBelow openMax devNull t = ((alloc devNull t).1, some fd) := by
    intro t fd hfd hsnd
    have hall : ∀ n ∈ openMax, fd < n := fun n hn => (Nat.lt_of_le_of_lt hfd (hlimit n hn))
    rw [allocBelow, hsnd, if_pos hall]
  have hone : get (alloc devNull (closeAll openMax t)).1 0 = some devNull := by
    rw [get_alloc, if_pos h0.symm]
  have htwo : get (alloc devNull (alloc devNull (closeAll openMax t)).1).1 0 = some devNull := by
    rw [get_alloc, hone, ite_self]
  simp only [daemonFds, openNull, if_true, hbelow _ 0 (by omega) h0, dupZero_eq openMax hone,
    hbelow _ 1 (by omega) h1, dupZero_eq openMax htwo, hbelow _ 2 le_rfl h2]

/-- **When the numbers are right.** -/
theorem daemonFds_eq_iff (ok : Bool) :
    (daemonFds openMax ok t).2 = (some 0, some 1, some 2) ↔
      ok = true ∧ (∀ n ∈ openMax, 2 < n) ∧ ∀ fd ≤ 2, ¬ IsOpen (closeAll openMax t) fd := by
  constructor
  · intro h
    cases ok with
    | false =>
        have hfd0 : (none : Option ℕ) = some 0 := congrArg Prod.fst h
        cases hfd0
    | true =>
        -- the three calls, one after the other
        have hfd0 : (allocBelow openMax devNull (closeAll openMax t)).2 = some 0 :=
          congrArg Prod.fst h
        have h0 := (allocBelow_snd_iff.1 hfd0).1
        have hone : get (alloc devNull (closeAll openMax t)).1 0 = some devNull := by
          rw [get_alloc, if_pos h0.symm]
        have hfd1 : (dupZero openMax (allocBelow openMax devNull (closeAll openMax t)).1).2 = some 1 :=
          congrArg (fun fds => fds.2.1) h
        rw [allocBelow_fst hfd0, dupZero_eq openMax hone] at hfd1
        have htwo : get (alloc devNull (alloc devNull (closeAll openMax t)).1).1 0 = some devNull := by
          rw [get_alloc, hone, ite_self]
        have hfd2 : (dupZero openMax (dupZero openMax
            (allocBelow openMax devNull (closeAll openMax t)).1).1).2 = some 2 :=
          congrArg (fun fds => fds.2.2) h
        rw [allocBelow_fst hfd0, dupZero_eq openMax hone, allocBelow_fst hfd1,
          dupZero_eq openMax htwo] at hfd2
        obtain ⟨h2, hlimit⟩ := allocBelow_snd_iff.1 hfd2
        exact ⟨rfl, hlimit, (alloc_three_iff devNull).1 ⟨h0, (allocBelow_snd_iff.1 hfd1).1, h2⟩⟩
  · rintro ⟨rfl, hlimit, hfree⟩
    rw [daemonFds_eq_of_free hlimit hfree]

end Daemon

/-- **The descriptors of a daemon**, whatever the shell has open.  The child comes to its command exactly
if `/dev/null` can be opened and the limit leaves room for three descriptors; without a limit, if the
shell has no standard descriptor open.  Then the standard descriptors of the command are `/dev/null`, and
it has no other one of the shell up to the limit. -/
theorem daemon_descriptors (openMax : Option ℕ) (ok : Bool) (t : Table) :
    ((daemonTable openMax ok t).isSome ↔
        ok = true ∧ (openMax = none ∧ (∀ fd ≤ 2, ¬ IsOpen t fd) ∨ ∃ n ∈ openMax, 2 < n)) ∧
      ∀ t' ∈ daemonTable openMax ok t, ∀ fd, get t' fd =
        if fd ≤ 2 then some devNull
        else if ∃ n ∈ openMax, fd ≤ n then none else get t fd := by
  have hiff := @daemonFds_eq_iff openMax t ok
  constructor
  · have hfree : ((∀ n ∈ openMax, 2 < n) ∧ ∀ fd ≤ 2, ¬ IsOpen (closeAll openMax t) fd) ↔
        openMax = none ∧ (∀ fd ≤ 2, ¬ IsOpen t fd) ∨ ∃ n ∈ openMax, 2 < n := by
      simp only [isOpen_closeAll_iff]
      cases openMax with
      | none => simp
      | some n =>
          simp only [Option.mem_some_iff, forall_eq', exists_eq_left', reduceCtorEq, false_and,
            false_or, not_and, Nat.not_lt]
          exact ⟨fun h => h.1, fun h => ⟨h, fun fd hfd _ => by omega⟩⟩
    rw [← hfree, ← hiff, daemonTable]
    dsimp only
    split_ifs with h
    · exact iff_of_true rfl h
    · exact iff_of_false Bool.false_ne_true h
  · intro t' ht' fd
    rw [daemonTable] at ht'
    dsimp only at ht'
    split_ifs at ht' with h
    · obtain ⟨rfl, hlimit, hfree⟩ := hiff.1 h
      obtain ⟨h0, h1, h2⟩ := (alloc_three_iff devNull).2 hfree
      obtain rfl := Option.some_inj.1 ht'
      rw [daemonFds_eq_of_free hlimit hfree]
      dsimp only
      rw [get_alloc, h2, get_alloc, h1, get_alloc, h0, get_closeAll]
      split_ifs <;> first | rfl | omega
    · cases ht'

/-- A shell that has left the end of a pipe open starts a daemon. -/
example :
    daemonTable (some 4) true
        [some (.inherited 0), some (.inherited 1), some (.inherited 2), some (.pipeRead 0)] =
      some [some devNull, some devNull, some devNull, none] := by
  decide

end ShellDaemon
