/-
**MyShell: the operators `##` and `SS`.**

`shellMsgQ` and `shellShm` run a command, read what it writes and pass it to other commands, one
through a message queue and the other through shared memory.  A child reads the output in pieces of
8191 bytes into one buffer, each over the one before, and then copies the buffer as a string.

The calls of the message queue and of the shared memory succeed, as far as the sizes allow it:
`msgrcv` returns no message that is longer than 8192 bytes, and the shared memory has 4096 bytes.  The
shell waits for a child with `wait`, which returns for any child of the shell.

Main definitions:

* `ShellTransport.freadLoop` — the loop that reads the output;
* `ShellTransport.Wait` — how the `wait` for the copying child returns;
* `ShellTransport.shellMsgQ`, `ShellTransport.shellShm` — what the sink commands read;
* `ShellTransport.WholeOutput` — every sink reads the whole output.

Main results:

* `ShellTransport.freadLoop_of_le`, `ShellTransport.length_cstr_freadLoop_le` — what is left of it;
* `ShellTransport.shellMsgQ_ended`, `ShellTransport.shellShm_ended` — what the sinks get of it;
* `ShellTransport.wholeOutput_iff` — **the sinks read the whole output exactly when it is short, not
  empty and a string**, and the shell has no other children.
-/

import NetworkProgramming.CString

set_option relaxedAutoImplicit false
set_option autoImplicit false

namespace ShellTransport

open CString

/-! ### The source command -/

/-- **The loop that reads the output** into a buffer of 8192 bytes. -/
def freadLoop (buffer out : Text) : Text :=
  if out = [] then buffer
  else
    let piece := out.take 8191
    freadLoop (piece ++ '\x00' :: buffer.drop (piece.length + 1)) (out.drop 8191)
  termination_by out.length
  decreasing_by
    rename_i hne
    have hpos := List.length_pos_iff.2 hne
    simp only [List.length_drop]
    omega

@[simp] theorem freadLoop_nil (buffer : Text) : freadLoop buffer [] = buffer := by
  rw [freadLoop, if_pos rfl]

theorem freadLoop_of_ne_nil (buffer : Text) {out : Text} (h : out ≠ []) :
    freadLoop buffer out =
      freadLoop (out.take 8191 ++ '\x00' :: buffer.drop ((out.take 8191).length + 1))
        (out.drop 8191) := by
  rw [freadLoop, if_neg h]

/-- A short output is read in one piece. -/
theorem freadLoop_of_le (buffer : Text) {out : Text} (hne : out ≠ []) (hle : out.length ≤ 8191) :
    freadLoop buffer out = out ++ '\x00' :: buffer.drop (out.length + 1) := by
  rw [freadLoop_of_ne_nil buffer hne, List.take_of_length_le hle, List.drop_eq_nil_of_le hle,
    freadLoop_nil]

/-- Of a long output the last piece is left. -/
theorem length_cstr_freadLoop_le (buffer : Text) {out : Text} (hne : out ≠ []) :
    (cstr (freadLoop buffer out)).length ≤ 8191 := by
  induction hn : out.length using Nat.strong_induction_on generalizing buffer out with
  | _ n ih =>
      rw [freadLoop_of_ne_nil buffer hne]
      by_cases hrest : out.drop 8191 = []
      · rw [hrest, freadLoop_nil]
        refine (length_cstr_append_nul_le _ _).trans ?_
        rw [List.length_take]
        exact Nat.min_le_left _ _
      · have hpos := List.length_pos_iff.2 hne
        exact ih (out.drop 8191).length (by simp only [List.length_drop]; omega) _ hrest rfl

/-! ### The wait for the copy -/

/-- **How the first `wait` returns**: for the child that copies the output, when this has ended, or for
another child of the shell, which has ended or stopped.  In the second case as much is copied for the
sink `i` as `copied i` says, and `interrupted` says that one more such signal interrupts `msgrcv`. -/
inductive Wait
  | ended
  | early (pid : ℕ) (copied : ℕ → ℕ) (interrupted : Bool)

/-- `wait` returns for the children of the shell only. -/
def Wait.For (children : List ℕ) : Wait → Prop
  | .ended => True
  | .early pid _ _ => pid ∈ children

/-- How many bytes of a copy of `size` bytes are there when the text is written to the sink `i`. -/
def Wait.copied (size i : ℕ) : Wait → ℕ
  | .ended => size
  | .early _ copied _ => copied i

/-! ### The two transports -/

/-- The member `mtext` of the message after `strcpy`; it was filled with zeros before. -/
def mtext (text : Text) : Text := text ++ List.replicate (8192 - text.length) '\x00'

/-- **`shellMsgQ`**: the sink commands and what they read.  `msgsnd` is given the size of a `long`
more than the string needs, and `msgrcv` waits for the message and takes 8192 bytes at most. -/
def shellMsgQ (wait : Wait) (buffer out : Text) (outputs : List (List Text)) :
    List (List Text × Text) :=
  let text := cstr (freadLoop buffer out)
  let msgsz := 8 + text.length + 1
  match wait with
  | .early _ _ true => []
  | _ =>
      if msgsz ≤ 8192 then
        let received := (mtext text).take msgsz ++ List.replicate (8192 - msgsz) '\x00'
        outputs.map fun cmd => (cmd, cstr received)
      else []

/-- The segment after `n` bytes of the string and its zero.  The child that copies more than the segment
has room for writes the rest to its own memory, or dies there. -/
def strcpyShm (segment text : Text) (n : ℕ) : Text :=
  let bytes := ((text ++ ['\x00']).take n).take segment.length
  bytes ++ segment.drop bytes.length

/-- The string at the start of the segment, in the shell.  Where the segment has no zero it goes on in
the memory behind it; where nothing is mapped there, the child that writes to the sink dies. -/
def shmString (segment : Text) (behind : Option Text) : Text :=
  if '\x00' ∈ segment then cstr segment
  else
    match behind with
    | some rest => cstr (segment ++ rest)
    | none => []

theorem shmString_of_mem {segment : Text} (h : '\x00' ∈ segment) (behind : Option Text) :
    shmString segment behind = cstr segment := if_pos h

/-- **`shellShm`**, with the old contents of the shared memory, and what the shell has behind it. -/
def shellShm (wait : Wait) (buffer segment : Text) (behind : Option Text) (out : Text)
    (outputs : List (List Text)) : List (List Text × Text) :=
  let text := cstr (freadLoop buffer out)
  outputs.mapIdx fun i cmd =>
    (cmd, shmString (strcpyShm segment text (wait.copied (text.length + 1) i)) behind)

/-- **What the sinks of `##` read.** -/
theorem shellMsgQ_ended (buffer out : Text) (outputs : List (List Text)) :
    shellMsgQ .ended buffer out outputs =
      if (cstr (freadLoop buffer out)).length ≤ 8183 then
        outputs.map fun cmd => (cmd, cstr (freadLoop buffer out))
      else [] := by
  unfold shellMsgQ
  by_cases hle : (cstr (freadLoop buffer out)).length ≤ 8183
  · have hread : cstr ((mtext (cstr (freadLoop buffer out))).take
        (8 + (cstr (freadLoop buffer out)).length + 1) ++
        List.replicate (8192 - (8 + (cstr (freadLoop buffer out)).length + 1)) '\x00') =
        cstr (freadLoop buffer out) := by
      generalize htext : cstr (freadLoop buffer out) = text at hle
      have hnul : '\x00' ∉ text := htext ▸ nul_notMem_cstr _
      -- nine of the zeros behind the string are sent with it
      rw [mtext, List.take_append, List.take_of_length_le (by omega), List.take_replicate,
        List.append_assoc, show min (8 + text.length + 1 - text.length) (8192 - text.length) = 8 + 1 by
          omega, List.replicate_succ, List.cons_append]
      exact cstr_append_nul hnul _
    simp only [if_pos hle, if_pos (show 8 + (cstr (freadLoop buffer out)).length + 1 ≤ 8192 by omega),
      hread]
  · simp only [if_neg hle,
      if_neg (show ¬ 8 + (cstr (freadLoop buffer out)).length + 1 ≤ 8192 by omega)]

/-- The string that the sinks of `SS` are given. -/
def shmText (behind : Option Text) (text : Text) : Text :=
  if text.length ≤ 4095 then text
  else
    match behind with
    | some rest => cstr (text.take 4096 ++ rest)
    | none => []

theorem shmText_of_le {text : Text} (h : text.length ≤ 4095) (behind : Option Text) :
    shmText behind text = text := if_pos h

/-- A copy that has ended: the text is read back when there is room for it and its zero. -/
theorem shmString_strcpyShm {segment text : Text} (hsegment : segment.length = 4096)
    (hnul : '\x00' ∉ text) (behind : Option Text) :
    shmString (strcpyShm segment text (text.length + 1)) behind = shmText behind text := by
  have hbytes : (text ++ ['\x00']).take (text.length + 1) = text ++ ['\x00'] :=
    List.take_of_length_le (by rw [List.length_append, List.length_singleton])
  rw [strcpyShm, hbytes, hsegment]
  by_cases hle : text.length ≤ 4095
  · rw [List.take_of_length_le (by rw [List.length_append, List.length_singleton]; omega),
      shmText_of_le hle, List.append_assoc, List.singleton_append,
      shmString_of_mem (List.mem_append_right _ List.mem_cons_self)]
    exact cstr_append_nul hnul _
  · -- the text fills the segment
    have htake : (text ++ ['\x00']).take 4096 = text.take 4096 :=
      List.take_append_of_le_length (by omega)
    have hlen : (text.take 4096).length = 4096 := by
      rw [List.length_take]
      omega
    rw [htake, hlen, List.drop_eq_nil_of_le hsegment.le, List.append_nil]
    unfold shmString shmText
    rw [if_neg hle, if_neg fun hmem => hnul (List.mem_of_mem_take hmem)]

/-- **What the sinks of `SS` read.** -/
theorem shellShm_ended (buffer : Text) {segment : Text} (hsegment : segment.length = 4096)
    (behind : Option Text) (out : Text) (outputs : List (List Text)) :
    shellShm .ended buffer segment behind out outputs =
      outputs.map fun cmd => (cmd, shmText behind (cstr (freadLoop buffer out))) := by
  simp only [shellShm, Wait.copied, shmString_strcpyShm hsegment (nul_notMem_cstr _)]
  exact List.ext_getElem (by simp) fun i hi hj => by simp

/-! ### The whole output -/

/-- **Every sink reads the whole output**, with both operators, whatever the buffer, the shared memory
and the memory behind it held before, and for whichever of the children `wait` returns. -/
def WholeOutput (children : List ℕ) (out : Text) (outputs : List (List Text)) : Prop :=
  ∀ (wait : Wait) (buffer segment : Text) (behind : Option Text), wait.For children →
    buffer.length = 8192 → segment.length = 4096 →
      shellMsgQ wait buffer out outputs = outputs.map (fun cmd => (cmd, out)) ∧
        shellShm wait buffer segment behind out outputs = outputs.map (fun cmd => (cmd, out))

/-- What is copied is the output exactly when it is not empty, a string, and one piece. -/
theorem cstr_freadLoop_eq_iff {buffer out : Text} (hne : out ≠ []) :
    cstr (freadLoop buffer out) = out ↔ '\x00' ∉ out ∧ out.length ≤ 8191 := by
  constructor
  · intro h
    refine ⟨?_, ?_⟩
    · rw [← h]
      exact nul_notMem_cstr _
    · rw [← h]
      exact length_cstr_freadLoop_le buffer hne
  · rintro ⟨hnul, hle⟩
    rw [freadLoop_of_le buffer hne hle, cstr_append_nul hnul]

section Necessary

variable {children : List ℕ} {out : Text} {cmd : List Text} {outputs : List (List Text)}

/-- If one sink reads the whole output, this is not empty, has no zeros and at most 4095 bytes. -/
theorem short_of_wholeOutput (h : WholeOutput children out (cmd :: outputs)) :
    out ≠ [] ∧ '\x00' ∉ out ∧ out.length ≤ 4095 := by
  -- a buffer that holds a string of one byte, and nothing behind the segment
  obtain ⟨-, hshm⟩ := h .ended ('x' :: List.replicate 8191 '\x00') (List.replicate 4096 '\x00') none
    trivial (by rw [List.length_cons, List.length_replicate]) List.length_replicate
  rw [shellShm_ended _ List.length_replicate] at hshm
  have hread : shmText none (cstr (freadLoop ('x' :: List.replicate 8191 '\x00') out)) = out :=
    congrArg Prod.snd (List.cons_eq_cons.1 hshm).1
  have hne : out ≠ [] := by
    rintro rfl
    rw [freadLoop_nil] at hread
    cases hread
  rw [shmText] at hread
  split_ifs at hread with hle
  · exact ⟨hne, ((cstr_freadLoop_eq_iff hne).1 hread).1, hread ▸ hle⟩
  · exact absurd hread.symm hne

/-- If one sink reads the whole output, the shell has no other child: when `wait` returns for one, the
segment can still be empty. -/
theorem alone_of_wholeOutput (h : WholeOutput children out (cmd :: outputs)) : children = [] := by
  refine List.eq_nil_iff_forall_not_mem.2 fun pid hpid => ?_
  obtain ⟨-, hshm⟩ := h (.early pid (fun _ => 0) false) (List.replicate 8192 '\x00')
    (List.replicate 4096 '\x00') none hpid List.length_replicate List.length_replicate
  rw [shellShm, List.mapIdx_cons] at hshm
  have hread := congrArg Prod.snd (List.cons_eq_cons.1 hshm).1
  dsimp only [Wait.copied, strcpyShm] at hread
  rw [List.take_zero, List.take_nil, List.nil_append, List.length_nil, List.drop_zero,
    shmString_of_mem (List.mem_replicate.2 ⟨by decide, rfl⟩)] at hread
  -- the string in an empty segment is empty
  rw [List.replicate_succ, cstr, List.takeWhile_cons_of_neg (by decide)] at hread
  exact (short_of_wholeOutput h).1 hread.symm

end Necessary

/-- **The sinks read the whole output exactly when it is not empty, has no zeros and at most 4095
bytes**, and the shell has no other child. -/
theorem wholeOutput_iff (children : List ℕ) (out : Text) (outputs : List (List Text)) :
    WholeOutput children out outputs ↔
      outputs = [] ∨ children = [] ∧ out ≠ [] ∧ '\x00' ∉ out ∧ out.length ≤ 4095 := by
  constructor
  · intro h
    cases outputs with
    | nil => exact Or.inl rfl
    | cons cmd outputs => exact Or.inr ⟨alone_of_wholeOutput h, short_of_wholeOutput h⟩
  · rintro (rfl | ⟨rfl, hne, hnul, hle⟩) wait buffer segment behind hwait hbuffer hsegment
    · refine ⟨?_, rfl⟩
      unfold shellMsgQ
      dsimp only
      split
      · rfl
      · split_ifs
        · rfl
        · rfl
    · cases wait with
      | early pid copied interrupted => cases hwait
      | ended =>
          have htext : cstr (freadLoop buffer out) = out :=
            (cstr_freadLoop_eq_iff hne).2 ⟨hnul, by omega⟩
          rw [shellMsgQ_ended, shellShm_ended _ hsegment, htext, if_pos (by omega), shmText_of_le hle]
          exact ⟨rfl, rfl⟩

/-- An output of 5000 bytes: the sinks of `##` read it, those of `SS` do not. -/
theorem not_wholeOutput :
    ¬ ∀ (out : Text) (outputs : List (List Text)), WholeOutput [] out outputs := by
  intro hall
  have hlen := (short_of_wholeOutput (hall (List.replicate 5000 'a') [["wc".toList]])).2.2
  rw [List.length_replicate] at hlen
  omega

end ShellTransport
