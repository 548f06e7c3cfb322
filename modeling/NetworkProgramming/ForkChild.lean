/-
**Fork Per Client: the loop of a child.**

A child of the server clears its buffer, reads into it, writes the C string in it back and goes on
until the buffer begins with `exit`.  The result of `read` is used for errors only: at the end of the
stream the buffer stays empty, the child writes nothing and reads again.  What is written back is
measured with `strlen`, which stops at a zero that the client has sent, and does not stop inside the
buffer if the client has filled it.

Main definitions:

* `ForkPerClient.Chunk` — what one `read` can return;
* `ForkPerClient.turn` — one pass of the loop;
* `ForkPerClient.childLoop` — the loop, with the chunks that are left when it ends;
* `ForkPerClient.Served` — every chunk is written back as it is, and then the child ends.

Main results:

* `ForkPerClient.step_echo_of_turn` — a pass is a step of the child in the system of clients;
* `ForkPerClient.childLoop_of_no_exit` — without `exit` the loop does not end;
* `ForkPerClient.endsBehind_iff` — it ends behind the first chunk that begins with `exit`;
* `ForkPerClient.served_iff` — **a client is served exactly if** its last chunk, and no other one,
  begins with `exit`, and no chunk has a zero or fills the buffer.
-/

import NetworkProgramming.CString
import NetworkProgramming.ForkPerClient

set_option relaxedAutoImplicit false
set_option autoImplicit false

namespace ForkPerClient

open CString

/-! ### The loop -/

/-- What one `read` can return. -/
structure Chunk where
  bytes : Text
  length_le : bytes.length ≤ bufferSize

/-- What `read` returns at the end of the stream. -/
def Chunk.eof : Chunk := ⟨[], Nat.zero_le _⟩

/-- The buffer, cleared and then read into. -/
def Chunk.buffer (chunk : Chunk) : Text :=
  chunk.bytes ++ List.replicate (bufferSize - chunk.bytes.length) '\x00'

/-- One pass: what is written back, and whether the buffer begins with `exit`.  Where the buffer has no
zero, `strlen` reads behind it. -/
def turn (chunk : Chunk) : Option (Text × Bool) :=
  if '\x00' ∈ chunk.buffer then some (cstr chunk.buffer, isExit chunk.buffer) else none

/-- The loop of the child, for `n` passes at most.  The result is what the child has written, pass by
pass, and the chunks that it has not read.  Behind the last chunk the stream is at its end. -/
def childLoop : ℕ → List Chunk → Option (List Text × List Chunk)
  | 0, _ => none
  | n + 1, chunks =>
      (turn (chunks.headD Chunk.eof)).bind fun r =>
        if r.2 then some ([r.1], chunks.tail)
        else (childLoop n chunks.tail).map fun out => (r.1 :: out.1, out.2)

/-- **A client is served**: after finitely many passes the child ends, with every chunk written back
byte for byte. -/
def Served (chunks : List Chunk) : Prop :=
  ∃ n, childLoop n chunks = some (chunks.map Chunk.bytes, [])

/-- A chunk that comes back as it is: no zero in it, and space for one behind it. -/
def Chunk.Echoed (chunk : Chunk) : Prop := '\x00' ∉ chunk.bytes ∧ chunk.bytes.length < bufferSize

/-- The last chunk begins with `exit`, no other one does, and all of them come back as they are. -/
def ExitsLast (chunks : List Chunk) : Prop :=
  ∃ front last, chunks = front ++ [last] ∧ isExit last.bytes = true ∧
    (∀ c ∈ front, isExit c.bytes = false) ∧ ∀ c ∈ chunks, c.Echoed

/-! ### One pass -/

section Turn

variable {chunk : Chunk}

/-- The zeros behind the chunk do not make an `exit`. -/
theorem isExit_append_nul (s : Text) (k : ℕ) :
    isExit (s ++ List.replicate k '\x00') = isExit s := by
  match s with
  | [] => cases k <;> rfl
  | [_] => cases k <;> simp [isExit, List.isPrefixOf, List.replicate_succ]
  | [_, _] => cases k <;> simp [isExit, List.isPrefixOf, List.replicate_succ]
  | [_, _, _] => cases k <;> simp [isExit, List.isPrefixOf, List.replicate_succ]
  | _ :: _ :: _ :: _ :: _ => simp [isExit, List.isPrefixOf]

theorem nul_mem_buffer_iff :
    '\x00' ∈ chunk.buffer ↔ '\x00' ∈ chunk.bytes ∨ chunk.bytes.length < bufferSize := by
  rw [Chunk.buffer, List.mem_append, List.mem_replicate]
  constructor
  · rintro (h | ⟨h, -⟩)
    · exact Or.inl h
    · exact Or.inr (by omega)
  · rintro (h | h)
    · exact Or.inl h
    · exact Or.inr ⟨by omega, rfl⟩

/-- The C string in the buffer is the one in the chunk. -/
theorem cstr_buffer : cstr chunk.buffer = cstr chunk.bytes := by
  rw [Chunk.buffer]
  cases bufferSize - chunk.bytes.length with
  | zero => rw [List.replicate_zero, List.append_nil]
  | succ k => rw [List.replicate_succ, cstr_append_nul_eq_cstr]

theorem turn_eq :
    turn chunk =
      if '\x00' ∈ chunk.bytes ∨ chunk.bytes.length < bufferSize then some (cstr chunk.bytes, isExit chunk.bytes)
      else none := by
  rw [turn, cstr_buffer]
  simp only [nul_mem_buffer_iff]
  rw [Chunk.buffer, isExit_append_nul]

/-- **What comes back**: a pass writes the chunk back exactly if there is no zero in it and space for
one behind it. -/
theorem turn_fst_eq_iff (done : Bool) :
    turn chunk = some (chunk.bytes, done) ↔ chunk.Echoed ∧ isExit chunk.bytes = done := by
  rw [turn_eq, Chunk.Echoed]
  by_cases hnul : '\x00' ∈ chunk.bytes
  · rw [if_pos (Or.inl hnul)]
    refine iff_of_false ?_ fun h => h.1.1 hnul
    intro h
    apply nul_notMem_cstr chunk.bytes
    rw [(Prod.mk.inj (Option.some_inj.1 h)).1]
    exact hnul
  · by_cases hlen : chunk.bytes.length < bufferSize
    · rw [if_pos (Or.inr hlen), cstr_eq_self hnul, Option.some_inj, Prod.mk_inj]
      simp [hnul, hlen]
    · rw [if_neg (by simp [hnul, hlen])]
      simp [hlen]

/-- **A pass is a step of the child in the system**, if `strlen` finds a zero in the buffer. -/
theorem step_echo_of_turn {c : Client} {len : ℕ} (value k : ℕ) (hserving : c.serving = .child)
    (hreads : Reads c.up c.phase.left len) (hchunk : chunk.bytes = c.up.take len) {echo : Text}
    {done : Bool} (h : turn chunk = some (echo, done)) :
    c.step value (.echo k len) = some (value, { c with
      serving := if done then .done else .child
      up := c.up.drop len
      down := c.down ++ echo }) := by
  rw [turn_eq, hchunk] at h
  split_ifs at h
  obtain ⟨rfl, rfl⟩ := Prod.mk.inj (Option.some_inj.1 h)
  exact if_pos ⟨hserving, hreads⟩

end Turn

/-! ### The whole loop -/

section Loop

variable {c : Chunk} {read unread : List Chunk}

/-- The child has read and written back the chunks `read`, and ends there. -/
def EndsBehind (read unread : List Chunk) : Prop :=
  ∃ n, childLoop n (read ++ unread) = some (read.map Chunk.bytes, unread)

theorem childLoop_succ (n : ℕ) (c : Chunk) (rest : List Chunk) :
    childLoop (n + 1) (c :: rest) =
      (turn c).bind fun r =>
        if r.2 then some ([r.1], rest)
        else (childLoop n rest).map fun out => (r.1 :: out.1, out.2) := rfl

/-- At the end of the stream the child goes on for ever. -/
theorem childLoop_nil (n : ℕ) : childLoop n [] = none := by
  induction n with
  | zero => rfl
  | succ n ih =>
      have hturn : turn Chunk.eof = some ([], false) := by
        rw [turn_eq, if_pos (Or.inr (by decide))]
        rfl
      rw [childLoop, List.headD_nil, hturn, Option.bind_some, if_neg Bool.false_ne_true,
        List.tail_nil, ih]
      rfl

/-- **Without `exit` the loop does not end**, whatever the client sends before it closes. -/
theorem childLoop_of_no_exit {chunks : List Chunk} (h : ∀ c ∈ chunks, isExit c.bytes = false) (n : ℕ) :
    childLoop n chunks = none := by
  induction chunks generalizing n with
  | nil => exact childLoop_nil n
  | cons c rest ih =>
      cases n with
      | zero => rfl
      | succ n =>
          have hc : isExit c.bytes = false := h c List.mem_cons_self
          rw [childLoop_succ, turn_eq, hc, ih fun d hd => h d (List.mem_cons_of_mem _ hd)]
          split_ifs <;> rfl

/-- A loop that has ended has made a pass. -/
theorem ne_nil_of_childLoop {n : ℕ} {chunks rest : List Chunk} {out : List Text}
    (h : childLoop n chunks = some (out, rest)) : out ≠ [] := by
  cases n with
  | zero => cases h
  | succ n =>
      rw [childLoop, Option.bind_eq_some_iff] at h
      obtain ⟨r, -, h⟩ := h
      split_ifs at h with hdone
      · rw [← (Prod.mk.inj (Option.some_inj.1 h)).1]
        exact List.cons_ne_nil _ _
      · obtain ⟨out', -, h⟩ := Option.map_eq_some_iff.1 h
        rw [← (Prod.mk.inj h).1]
        exact List.cons_ne_nil _ _

theorem not_endsBehind_nil : ¬ EndsBehind [] unread :=
  fun ⟨_, h⟩ => ne_nil_of_childLoop h rfl

/-- **One pass of the loop**: the chunk is written back, and it is the last one or the loop goes on. -/
theorem endsBehind_cons_iff :
    EndsBehind (c :: read) unread ↔
      c.Echoed ∧ ((isExit c.bytes = true ∧ read = []) ∨ (isExit c.bytes = false ∧ EndsBehind read unread)) := by
  constructor
  · rintro ⟨n, h⟩
    cases n with
    | zero => cases h
    | succ n =>
        rw [List.cons_append, childLoop_succ, Option.bind_eq_some_iff] at h
        obtain ⟨⟨echo, done⟩, hturn, h⟩ := h
        cases done with
        | true =>
            obtain ⟨hbytes, hrest⟩ := Prod.mk.inj (Option.some_inj.1 h)
            obtain ⟨rfl, -⟩ := List.cons.inj hbytes
            obtain ⟨hecho, hexit⟩ := (turn_fst_eq_iff true).1 hturn
            exact ⟨hecho, Or.inl ⟨hexit, List.append_left_eq_self.1 hrest⟩⟩
        | false =>
            rw [if_neg Bool.false_ne_true] at h
            obtain ⟨⟨out, rest⟩, hloop, h⟩ := Option.map_eq_some_iff.1 h
            obtain ⟨hbytes, rfl⟩ := Prod.mk.inj h
            obtain ⟨rfl, rfl⟩ := List.cons.inj hbytes
            obtain ⟨hecho, hexit⟩ := (turn_fst_eq_iff false).1 hturn
            exact ⟨hecho, Or.inr ⟨hexit, n, hloop⟩⟩
  · rintro ⟨hecho, ⟨hexit, rfl⟩ | ⟨hexit, n, h⟩⟩
    · refine ⟨1, ?_⟩
      rw [List.cons_append, childLoop_succ, (turn_fst_eq_iff true).2 ⟨hecho, hexit⟩]
      rfl
    · refine ⟨n + 1, ?_⟩
      rw [List.cons_append, childLoop_succ, (turn_fst_eq_iff false).2 ⟨hecho, hexit⟩,
        Option.bind_some, if_neg Bool.false_ne_true, h]
      rfl

theorem not_exitsLast_nil : ¬ ExitsLast [] := by
  rintro ⟨front, last, h, -⟩
  exact List.append_ne_nil_of_right_ne_nil front (List.cons_ne_nil last []) h.symm

theorem exitsLast_cons_iff :
    ExitsLast (c :: read) ↔
      c.Echoed ∧ ((isExit c.bytes = true ∧ read = []) ∨ (isExit c.bytes = false ∧ ExitsLast read)) := by
  constructor
  · rintro ⟨front, last, h, hexit, hfront, hecho⟩
    refine ⟨hecho c List.mem_cons_self, ?_⟩
    cases front with
    | nil =>
        obtain ⟨rfl, rfl⟩ := List.cons.inj h
        exact Or.inl ⟨hexit, rfl⟩
    | cons d front =>
        obtain ⟨rfl, rfl⟩ := List.cons.inj h
        refine Or.inr ⟨hfront c List.mem_cons_self, front, last, rfl, hexit, ?_, ?_⟩
        · exact fun d hd => hfront d (List.mem_cons_of_mem _ hd)
        · exact fun d hd => hecho d (List.mem_cons_of_mem _ hd)
  · rintro ⟨hc, ⟨hexit, rfl⟩ | ⟨hexit, front, last, rfl, hlast, hfront, hecho⟩⟩
    · refine ⟨[], c, rfl, hexit, fun d hd => absurd hd List.not_mem_nil, ?_⟩
      intro d hd
      rw [List.mem_singleton.1 hd]
      exact hc
    · refine ⟨c :: front, last, rfl, hlast, List.forall_mem_cons.2 ⟨hexit, hfront⟩, ?_⟩
      exact List.forall_mem_cons.2 ⟨hc, hecho⟩

/-- **Where the child ends**: behind the first chunk that begins with `exit`. -/
theorem endsBehind_iff (read unread : List Chunk) : EndsBehind read unread ↔ ExitsLast read := by
  induction read with
  | nil => exact iff_of_false not_endsBehind_nil not_exitsLast_nil
  | cons c read ih => rw [endsBehind_cons_iff, exitsLast_cons_iff, ih]

end Loop

/-- **When a client is served.**  The child writes every chunk back byte for byte and then ends exactly
if the last chunk begins with `exit`, no earlier one does, and no chunk has a zero in it or fills the
buffer. -/
theorem served_iff (chunks : List Chunk) : Served chunks ↔ ExitsLast chunks := by
  rw [← endsBehind_iff chunks [], EndsBehind, List.append_nil, Served]

/-- A client that sends `hi` and closes its connection leaves a child that goes on for ever. -/
theorem not_served_hi : ¬ ∀ chunks : List Chunk, Served chunks := by
  intro h
  obtain ⟨n, hn⟩ := h [⟨['h', 'i'], by decide⟩]
  rw [childLoop_of_no_exit (by decide) n] at hn
  cases hn

end ForkPerClient
