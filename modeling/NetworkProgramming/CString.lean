/-
**Strings in memory.**

A C string is what stands in a buffer up to the first byte that is zero.

Main definitions:

* `CString.Text` — bytes;
* `CString.cstr` — the C string at the start of a buffer;
* `CString.put` — a write to one byte of a buffer, which fails outside of it.

Main results:

* `CString.cstr_append_nul` — a string without zeros is read back up to the zero behind it;
* `CString.nul_notMem_cstr` — a C string has no zeros;
* `CString.put_append`, `CString.put_full` — a write behind the part that is filled already.
-/

import Mathlib.Data.List.TakeWhile

set_option relaxedAutoImplicit false
set_option autoImplicit false

namespace CString

/-- A string of bytes. -/
abbrev Text := List Char

/-- The C string at the start of a buffer. -/
def cstr (buf : Text) : Text := buf.takeWhile fun c => c ≠ '\x00'

theorem cstr_append {s : Text} (h : '\x00' ∉ s) (rest : Text) :
    cstr (s ++ rest) = s ++ cstr rest := by
  rw [cstr, List.takeWhile_append_of_pos, ← cstr]
  intro c hc
  have hne : c ≠ '\x00' := fun heq => h (heq ▸ hc)
  simpa using hne

theorem cstr_append_nul {s : Text} (h : '\x00' ∉ s) (rest : Text) :
    cstr (s ++ '\x00' :: rest) = s := by
  rw [cstr_append h]
  exact List.append_nil s

/-- A C string ends at its first zero, whatever stands behind. -/
theorem cstr_append_nul_eq_cstr (s rest : Text) : cstr (s ++ '\x00' :: rest) = cstr s := by
  induction s with
  | nil => rfl
  | cons c s ih =>
      by_cases hc : c = '\x00'
      · simp [cstr, hc]
      · simpa [cstr, hc] using ih

theorem cstr_eq_self {s : Text} (h : '\x00' ∉ s) : cstr s = s := by
  refine List.takeWhile_eq_self_iff.2 ?_
  intro c hc
  have hne : c ≠ '\x00' := fun heq => h (heq ▸ hc)
  simpa using hne

theorem nul_notMem_cstr (t : Text) : '\x00' ∉ cstr t := by
  intro hmem
  simpa using List.mem_takeWhile_imp hmem

/-- A C string ends at a zero at the latest. -/
theorem length_cstr_append_nul_le (s rest : Text) :
    (cstr (s ++ '\x00' :: rest)).length ≤ s.length := by
  induction s with
  | nil => simp [cstr]
  | cons c s ih =>
      by_cases hc : c = '\x00'
      · simp [cstr, hc]
      · have hcons : cstr (c :: s ++ '\x00' :: rest) = c :: cstr (s ++ '\x00' :: rest) := by
          simp [cstr, hc]
        rw [hcons]
        simpa using ih

/-! ### Writing to a buffer -/

/-- A write to the byte `i`; outside of the buffer it fails. -/
def put (buf : Text) (i : ℕ) (c : Char) : Option Text :=
  if i < buf.length then some (buf.set i c) else none

/-- A write right behind the part that is filled already. -/
theorem put_append (front : Text) (old : Char) (rest : Text) (c : Char) :
    put (front ++ old :: rest) front.length c = some (front ++ c :: rest) := by
  rw [put, if_pos (by simp)]
  simp

/-- A write behind the end. -/
theorem put_full (buf : Text) (c : Char) : put buf buf.length c = none := if_neg (lt_irrefl _)

end CString
