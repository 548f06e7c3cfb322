/-
**Tee: what is in the files.**

`tee_command` opens all files that are named on its command line, copies its input to the standard output
and to each of them, and closes them.  The streams are buffered: `fwrite` puts bytes into the buffer of a
stream, and they are written to the file when the buffer is flushed, which can be at any time.  Every
stream has an offset of its own, also when two of them are for one file.

The result of `fopen` is not checked, so that the first `fwrite` or `fclose` of a stream that was not
opened follows a null pointer.  Writing to an open file is taken to succeed, and the names are those of
different files, none of which is the input or the output.

Main definitions:

* `Tee.Stream`, `Tee.State` — a stream that is open for writing, and the process;
* `Tee.step` — a step of `tee_command`, and a flush;
* `Tee.Fed`, `Tee.Inv` — **what a stream and its file hold**.

Main results:

* `Tee.writeAt_prefix` — a flush at any offset keeps the file a beginning of the input;
* `Tee.inv_step` — a step keeps the invariant;
* `Tee.copies` — **what is in the files in every run**.
-/

import NetworkProgramming.Runs
import NetworkProgramming.SparseFile
import Mathlib.Data.UInt

set_option relaxedAutoImplicit false
set_option autoImplicit false

namespace Tee

open Runs SparseFile

/-! ### The process -/

abbrev Bytes := List UInt8

abbrev Name := List Char

/-- A stream that is open for writing. -/
structure Stream where
  name : Name
  /-- The offset of its descriptor. -/
  offset : ℕ
  /-- What is in its buffer. -/
  pending : Bytes

/-- Where `tee_command` is. -/
inductive Pc
  /-- The first `i` files were opened. -/
  | opening (i : ℕ)
  | reading
  /-- The bytes that were read have been given to the standard output and the files, up to the `k`-th
  of them. -/
  | writing (buffer : Bytes) (k : ℕ)
  /-- The first `i` files were closed. -/
  | closing (i : ℕ)
  | exited

/-- The process, the standard output and the files. -/
structure State where
  pc : Pc
  /-- The process has followed a null pointer. -/
  crashed : Bool
  /-- What is left of the input. -/
  input : Bytes
  opFiles : List (Option Stream)
  stdout : Bytes
  stdoutPending : Bytes
  files : Name → Option Bytes

def State.init (input : Bytes) (files : Name → Option Bytes) : State :=
  ⟨.opening 0, false, input, [], [], [], files⟩

/-- The size of the buffer of `tee_command`. -/
def bufferSize : ℕ := 4096

/-- The first `n` bytes in the buffer of a stream are written to its file. -/
def flush (s : State) (k n : ℕ) (f : Stream) : State :=
  { s with
    opFiles := s.opFiles.set k
      (some { f with offset := f.offset + (f.pending.take n).length, pending := f.pending.drop n })
    files := Function.update s.files f.name
      ((s.files f.name).map fun contents => writeAt contents f.offset (f.pending.take n)) }

/-- Somebody goes on. -/
inductive Event
  /-- `tee_command`; where it calls `fread`, that returns `n`. -/
  | tee (n : ℕ)
  /-- Some bytes of the `k`-th stream are written. -/
  | flush (k n : ℕ)
  /-- Some bytes of the standard output are written. -/
  | flushStdout (n : ℕ)

/-- The next file is opened with mode `w`. -/
def fopen (opens : Name → Bool) (s : State) (i : ℕ) (name : Name) : State :=
  if opens name then
    { s with
      pc := .opening (i + 1)
      opFiles := s.opFiles ++ [some ⟨name, 0, []⟩]
      files := Function.update s.files name (some []) }
  else { s with pc := .opening (i + 1), opFiles := s.opFiles ++ [none] }

/-- The step of `tee_command`. -/
def teeStep (names : List Name) (opens : Name → Bool) (n : ℕ) (s : State) : Option State :=
  match s.pc with
  | .opening i =>
      match names[i]? with
      | some name => some (fopen opens s i name)
      | none => some { s with pc := .reading }
  | .reading =>
      if s.input = [] then if n = 0 then some { s with pc := .closing 0 } else none
      else if 0 < n ∧ n ≤ bufferSize ∧ n ≤ s.input.length then
        some { s with pc := .writing (s.input.take n) 0, input := s.input.drop n }
      else none
  | .writing buffer 0 =>
      some { s with pc := .writing buffer 1, stdoutPending := s.stdoutPending ++ buffer }
  | .writing buffer (k + 1) =>
      match s.opFiles[k]? with
      | none => some { s with pc := .reading }
      | some none => some { s with crashed := true }
      | some (some f) =>
          some { s with
            pc := .writing buffer (k + 2)
            opFiles := s.opFiles.set k (some { f with pending := f.pending ++ buffer }) }
  | .closing i =>
      match s.opFiles[i]? with
      | none =>
          some { s with pc := .exited, stdout := s.stdout ++ s.stdoutPending, stdoutPending := [] }
      | some none => some { s with crashed := true }
      | some (some f) => some { flush s i f.pending.length f with pc := .closing (i + 1) }
  | .exited => none

/-- **A step.**  When the process has crashed, nothing is written any more. -/
def step (names : List Name) (opens : Name → Bool) (s : State) (e : Event) : Option State :=
  if s.crashed then none
  else match e with
    | .tee n => teeStep names opens n s
    | .flush k n =>
        match s.opFiles[k]? with
        | some (some f) => some (flush s k n f)
        | _ => none
    | .flushStdout n =>
        some { s with
          stdout := s.stdout ++ s.stdoutPending.take n
          stdoutPending := s.stdoutPending.drop n }

/-! ### Beginnings of the input -/

/-- **A flush keeps a file a beginning of the input**, also when other streams have written more of it
already. -/
theorem writeAt_prefix {input contents bytes : Bytes} {offset : ℕ} (h : contents <+: input)
    (hoffset : offset ≤ contents.length) (hbytes : bytes <+: input.drop offset) :
    writeAt contents offset bytes <+: input ∧
      (writeAt contents offset bytes).length = max contents.length (offset + bytes.length) := by
  by_cases hnil : bytes = []
  · subst hnil
    rw [writeAt_nil]
    exact ⟨h, by simp; omega⟩
  refine ⟨?_, length_writeAt _ _ hnil⟩
  obtain ⟨tail, rfl⟩ := h
  obtain ⟨rest, hrest⟩ := hbytes
  have hfront : contents.take offset ++ bytes = (contents ++ tail).take (offset + bytes.length) := by
    rw [List.take_add, ← hrest, List.take_append_of_le_length hoffset, List.take_left' rfl]
  have hzero : offset - contents.length = 0 := by omega
  rw [writeAt_of_ne_nil _ _ hnil, hzero, List.replicate_zero, List.append_nil, hfront]
  rcases Nat.le_total (offset + bytes.length) contents.length with hle | hle
  · rw [List.take_append_of_le_length hle, List.take_append_drop]
    exact List.prefix_append _ _
  · rw [List.drop_of_length_le hle, List.append_nil]
    exact List.take_prefix _ _

/-! ### What a stream and its file hold -/

/-- **A stream that was given these bytes**: they are in its file up to its offset, and in its buffer
behind it. -/
structure Fed (whole : Bytes) (files : Name → Option Bytes) (f : Stream) (given : Bytes) : Prop where
  offset : f.offset ≤ given.length
  pending : f.pending = given.drop f.offset
  file : ∃ contents, files f.name = some contents ∧ contents <+: whole ∧
    f.offset ≤ contents.length

/-- The bytes that were read last, while they are given to the streams. -/
def Pc.buffer : Pc → Bytes
  | .writing buffer _ => buffer
  | _ => []

/-- What the `k`-th stream, the standard output included, has got of them. -/
def Pc.given (k : ℕ) : Pc → Bytes
  | .writing buffer j => if k < j then buffer else []
  | _ => []

/-- The number of files for which `fopen` was called. -/
def Pc.opened (names : List Name) : Pc → ℕ
  | .opening i => i
  | _ => names.length

/-- The first `i` streams were closed. -/
def Closed (opFiles : List (Option Stream)) (i : ℕ) : Prop :=
  ∀ k < i, ∃ f, opFiles[k]? = some (some f) ∧ f.pending = []

/-- What is known at a place of `tee_command`. -/
def AtPc (whole : Bytes) (names : List Name) (input stdoutPending : Bytes)
    (opFiles : List (Option Stream)) : Pc → Prop
  | .opening i => i ≤ names.length ∧ input = whole
  | .closing i => input = [] ∧ Closed opFiles i
  | .exited => input = [] ∧ stdoutPending = [] ∧ Closed opFiles names.length
  | _ => True

/-- **The invariant**, when these bytes were read before those in the buffer. -/
structure Inv (names : List Name) (opens : Name → Bool) (whole : Bytes) (old : Name → Option Bytes)
    (s : State) (before : Bytes) : Prop where
  read : before ++ s.pc.buffer ++ s.input = whole
  stdout : s.stdout ++ s.stdoutPending = before ++ s.pc.given 0
  fed : ∀ k f, s.opFiles[k]? = some (some f) → Fed whole s.files f (before ++ s.pc.given (k + 1))
  opened : s.opFiles.map (Option.map Stream.name) =
    (names.take (s.pc.opened names)).map fun name => if opens name then some name else none
  others : ∀ name, name ∉ names ∨ opens name = false → s.files name = old name
  crashed : s.crashed = true → none ∈ s.opFiles
  atPc : AtPc whole names s.input s.stdoutPending s.opFiles s.pc

section Fed

variable {whole : Bytes} {files : Name → Option Bytes} {opFiles : List (Option Stream)}
  {given : ℕ → Bytes} {k : ℕ} {f : Stream}

/-- **A flush**, for the stream itself and for all others, whatever their files are. -/
theorem Fed.flush (hgiven : ∀ j, given j <+: whole)
    (hfed : ∀ j g, opFiles[j]? = some (some g) → Fed whole files g (given j))
    (hk : opFiles[k]? = some (some f)) (n j : ℕ) (g : Stream)
    (hj : (opFiles.set k (some { f with
      offset := f.offset + (f.pending.take n).length, pending := f.pending.drop n }))[j]? =
        some (some g)) :
    Fed whole (Function.update files f.name
      ((files f.name).map fun contents => writeAt contents f.offset (f.pending.take n))) g
      (given j) := by
  obtain ⟨hoffset, hpending, contents, hfile, hprefix, hle⟩ := hfed k f hk
  have hbytes : f.pending.take n <+: whole.drop f.offset := by
    rw [hpending]
    exact (List.take_prefix _ _).trans ((hgiven k).drop _)
  obtain ⟨hprefix', hlen⟩ := writeAt_prefix hprefix hle hbytes
  have hsize : (f.pending.take n).length ≤ (given k).length - f.offset := by
    rw [hpending, List.length_take, List.length_drop]
    exact Nat.min_le_right _ _
  rw [hfile, Option.map_some]
  rcases eq_or_ne k j with rfl | hne
  · rw [List.getElem?_set_self (List.getElem?_eq_some_iff.1 hk).1, Option.some_inj,
      Option.some_inj] at hj
    subst hj
    refine ⟨by dsimp only; omega, ?_, _, Function.update_self .., hprefix', ?_⟩
    · dsimp only
      rw [← List.drop_drop, ← hpending, List.length_take]
      rcases Nat.le_total n f.pending.length with hn | hn
      · rw [Nat.min_eq_left hn]
      · rw [Nat.min_eq_right hn, List.drop_of_length_le hn, List.drop_length]
    · rw [hlen]
      exact Nat.le_max_right _ _
  · rw [List.getElem?_set_ne hne] at hj
    obtain ⟨hoffset', hpending', contents', hfile', hprefix'', hle'⟩ := hfed j g hj
    refine ⟨hoffset', hpending', ?_⟩
    by_cases hname : g.name = f.name
    · refine ⟨_, by rw [hname]; exact Function.update_self .., hprefix', ?_⟩
      rw [hname, hfile, Option.some_inj] at hfile'
      subst hfile'
      rw [hlen]
      exact hle'.trans (Nat.le_max_left _ _)
    · exact ⟨contents', by rw [Function.update_of_ne hname, hfile'], hprefix'', hle'⟩

end Fed

section Step

variable {names : List Name} {opens : Name → Bool} {whole before : Bytes} {old : Name → Option Bytes}
  {s : State} {k : ℕ} {f : Stream}

theorem inv_init (names : List Name) (opens : Name → Bool) (whole : Bytes)
    (old : Name → Option Bytes) : Inv names opens whole old (.init whole old) [] where
  read := rfl
  stdout := rfl
  fed k f hk := by cases hk
  opened := rfl
  others _ _ := rfl
  crashed h := by cases h
  atPc := ⟨Nat.zero_le _, rfl⟩

/-- A stream was given a beginning of the input. -/
theorem given_mono (h : Inv names opens whole old s before) (k : ℕ) :
    before ++ s.pc.given k <+: whole := by
  have hgiven : s.pc.given k <+: s.pc.buffer := by
    cases s.pc with
    | writing buffer j =>
        simp only [Pc.given, Pc.buffer]
        split_ifs
        · exact List.prefix_refl _
        · exact List.nil_prefix
    | _ => exact List.prefix_refl _
  rw [← h.read, List.append_assoc]
  exact (List.prefix_append_right_inj before).2 (hgiven.trans (List.prefix_append _ _))

/-- A change of a stream keeps its name. -/
theorem map_name_set {opFiles : List (Option Stream)} {g : Stream}
    (hk : opFiles[k]? = some (some f)) (hname : g.name = f.name) :
    (opFiles.set k (some g)).map (Option.map Stream.name) = opFiles.map (Option.map Stream.name) := by
  refine List.ext_getElem? fun j => ?_
  rcases eq_or_ne k j with rfl | hne
  · rw [List.getElem?_map, List.getElem?_map, hk,
      List.getElem?_set_self (List.getElem?_eq_some_iff.1 hk).1]
    exact congrArg (fun name => some (some name)) hname
  · rw [List.getElem?_map, List.getElem?_map, List.getElem?_set_ne hne]

theorem none_mem_set {opFiles : List (Option Stream)} {o : Option Stream}
    (hk : opFiles[k]? = some (some f)) (h : none ∈ opFiles) : none ∈ opFiles.set k o := by
  obtain ⟨j, hj⟩ := List.mem_iff_getElem?.1 h
  have hne : k ≠ j := by
    rintro rfl
    rw [hk] at hj
    cases hj
  exact List.mem_iff_getElem?.2 ⟨j, by rw [List.getElem?_set_ne hne, hj]⟩

/-- A stream that was closed has nothing to flush. -/
theorem Closed.set {opFiles : List (Option Stream)} {i : ℕ} (h : Closed opFiles i)
    (hk : opFiles[k]? = some (some f)) {g : Stream} (hg : f.pending = [] → g.pending = []) :
    Closed (opFiles.set k (some g)) i := by
  intro j hj
  obtain ⟨f', hf', hpending⟩ := h j hj
  rcases eq_or_ne k j with rfl | hne
  · obtain rfl : f = f' := Option.some_inj.1 (Option.some_inj.1 (hk.symm.trans hf'))
    exact ⟨g, List.getElem?_set_self (List.getElem?_eq_some_iff.1 hk).1, hg hpending⟩
  · exact ⟨f', by rw [List.getElem?_set_ne hne, hf'], hpending⟩

theorem AtPc.set {input p : Bytes} {opFiles : List (Option Stream)} {pc : Pc}
    (h : AtPc whole names input p opFiles pc) (hk : opFiles[k]? = some (some f)) {g : Stream}
    (hg : f.pending = [] → g.pending = []) :
    AtPc whole names input p (opFiles.set k (some g)) pc := by
  cases pc with
  | opening i => exact h
  | reading => trivial
  | writing buffer j => trivial
  | closing i => exact ⟨h.1, h.2.set hk hg⟩
  | exited => exact ⟨h.1, h.2.1, h.2.2.set hk hg⟩

/-- The name of a stream is one of those that could be opened. -/
theorem Inv.mem_names (h : Inv names opens whole old s before) (hk : s.opFiles[k]? = some (some f)) :
    f.name ∈ names ∧ opens f.name = true := by
  have hmem : some f.name ∈ s.opFiles.map (Option.map Stream.name) :=
    List.mem_map.2 ⟨some f, List.mem_of_getElem? hk, rfl⟩
  rw [h.opened, List.mem_map] at hmem
  obtain ⟨name, hname, heq⟩ := hmem
  split_ifs at heq with hopens
  obtain rfl := Option.some_inj.1 heq
  exact ⟨List.mem_of_mem_take hname, hopens⟩

/-- A flush. -/
theorem Inv.of_flush (h : Inv names opens whole old s before) (hk : s.opFiles[k]? = some (some f))
    (n : ℕ) : Inv names opens whole old (flush s k n f) before := by
  obtain ⟨hmem, hopens⟩ := h.mem_names hk
  refine ⟨h.read, h.stdout, ?_, ?_, ?_, ?_, ?_⟩
  · exact Fed.flush (fun j => given_mono h (j + 1)) h.fed hk n
  · refine Eq.trans ?_ h.opened
    exact map_name_set hk rfl
  · intro name hname
    have hne : name ≠ f.name := by
      rintro rfl
      rcases hname with hname | hname
      · exact hname hmem
      · rw [hopens] at hname
        cases hname
    exact (Function.update_of_ne hne ..).trans (h.others name hname)
  · exact fun hcrashed => none_mem_set hk (h.crashed hcrashed)
  · refine h.atPc.set hk fun hpending => ?_
    dsimp only
    rw [hpending, List.drop_nil]

theorem Inv.of_flushStdout (h : Inv names opens whole old s before) (n : ℕ) :
    Inv names opens whole old
      { s with
        stdout := s.stdout ++ s.stdoutPending.take n
        stdoutPending := s.stdoutPending.drop n } before := by
  refine ⟨h.read, ?_, h.fed, h.opened, h.others, h.crashed, ?_⟩
  · dsimp only
    rw [List.append_assoc, List.take_append_drop, h.stdout]
  · have hat := h.atPc
    dsimp only
    cases hpc : s.pc with
    | exited =>
        rw [hpc] at hat
        exact ⟨hat.1, by rw [hat.2.1, List.drop_nil], hat.2.2⟩
    | _ =>
        rw [hpc] at hat
        exact hat

/-- A file is opened: nothing was read before. -/
theorem Inv.of_fopen {i : ℕ} {name : Name} (h : Inv names opens whole old s before)
    (hpc : s.pc = .opening i) (hname : names[i]? = some name) :
    Inv names opens whole old (fopen opens s i name) before := by
  have hat := h.atPc
  have hread := h.read
  have hstdout := h.stdout
  have hfed := h.fed
  have hopened := h.opened
  rw [hpc] at hat hread hstdout hfed hopened
  obtain ⟨-, hinput⟩ := hat
  obtain rfl : before = [] := by
    have hwhole : before ++ [] ++ whole = whole := hinput ▸ hread
    rw [List.append_nil] at hwhole
    exact List.append_left_eq_self.1 hwhole
  have hlt : i < names.length := (List.getElem?_eq_some_iff.1 hname).1
  have htake : names.take (i + 1) = names.take i ++ [name] := by
    rw [List.take_add_one, hname, Option.toList_some]
  unfold fopen
  split_ifs with hopens
  · refine ⟨?_, ?_, ?_, ?_, ?_, ?_, ?_⟩
    · exact hread
    · exact hstdout
    · intro k f hk
      rcases Nat.lt_or_ge k s.opFiles.length with hlt | hle
      · rw [List.getElem?_append_left hlt] at hk
        obtain ⟨hoffset, hpending, contents, hfile, hprefix, hle⟩ := hfed k f hk
        refine ⟨hoffset, hpending, ?_⟩
        by_cases hf : f.name = name
        · exact ⟨[], by rw [hf]; exact Function.update_self .., List.nil_prefix, hoffset⟩
        · exact ⟨contents, by rw [← hfile]; exact Function.update_of_ne hf .., hprefix, hle⟩
      · obtain rfl : f = ⟨name, 0, []⟩ := by
          have hmem := List.mem_of_getElem? (List.getElem?_append_right hle ▸ hk)
          exact Option.some_inj.1 (List.mem_singleton.1 hmem)
        exact ⟨Nat.le_refl 0, rfl, [], Function.update_self .., List.nil_prefix, Nat.le_refl 0⟩
    · dsimp only [Pc.opened] at hopened ⊢
      rw [List.map_append, hopened, htake, List.map_append]
      simp [hopens]
    · intro name' hname'
      have hne : name' ≠ name := by
        rintro rfl
        rcases hname' with hname' | hname'
        · exact hname' (List.mem_of_getElem? hname)
        · rw [hopens] at hname'
          cases hname'
      exact (Function.update_of_ne hne ..).trans (h.others name' hname')
    · exact fun hcrashed => List.mem_append_left _ (h.crashed hcrashed)
    · exact ⟨hlt, hinput⟩
  · refine ⟨?_, ?_, ?_, ?_, ?_, ?_, ?_⟩
    · exact hread
    · exact hstdout
    · intro k f hk
      rcases Nat.lt_or_ge k s.opFiles.length with hlt | hle
      · rw [List.getElem?_append_left hlt] at hk
        exact hfed k f hk
      · have hmem := List.mem_of_getElem? (List.getElem?_append_right hle ▸ hk)
        cases List.mem_singleton.1 hmem
    · dsimp only [Pc.opened] at hopened ⊢
      rw [List.map_append, hopened, htake, List.map_append]
      simp [hopens]
    · exact h.others
    · exact fun hcrashed => List.mem_append_left _ (h.crashed hcrashed)
    · exact ⟨hlt, hinput⟩

/-- `tee_command` comes to another place, and nothing else happens. -/
theorem Inv.of_pc (h : Inv names opens whole old s before) {pc : Pc} (hbuffer : pc.buffer = s.pc.buffer)
    (hgiven : ∀ k, pc.given k = s.pc.given k) (hopened : pc.opened names = s.pc.opened names)
    (hat : AtPc whole names s.input s.stdoutPending s.opFiles pc) :
    Inv names opens whole old { s with pc := pc } before := by
  refine ⟨?_, ?_, ?_, ?_, h.others, h.crashed, hat⟩
  · rw [← h.read, ← hbuffer]
  · exact h.stdout.trans (congrArg (before ++ ·) (hgiven 0).symm)
  · intro k f hk
    dsimp only
    rw [hgiven]
    exact h.fed k f hk
  · dsimp only
    rw [hopened, h.opened]

theorem Inv.of_crash (h : Inv names opens whole old s before) (hnone : none ∈ s.opFiles) :
    Inv names opens whole old { s with crashed := true } before :=
  ⟨h.read, h.stdout, h.fed, h.opened, h.others, fun _ => hnone, h.atPc⟩

/-- Bytes are read. -/
theorem Inv.of_fread (h : Inv names opens whole old s before) (hpc : s.pc = .reading) (n : ℕ) :
    Inv names opens whole old
      { s with pc := .writing (s.input.take n) 0, input := s.input.drop n } before := by
  obtain ⟨pc, crashed, input, opFiles, stdout, stdoutPending, files⟩ := s
  obtain rfl : pc = .reading := hpc
  have hread : before ++ [] ++ input = whole := h.read
  refine ⟨?_, h.stdout, fun k f hk => h.fed k f hk, h.opened, h.others, h.crashed, trivial⟩
  rw [List.append_nil] at hread
  dsimp only [Pc.buffer]
  rw [List.append_assoc, List.take_append_drop, hread]

section Writing

variable {buffer : Bytes}

/-- They are given to the standard output. -/
theorem Inv.of_fwriteStdout (h : Inv names opens whole old s before) (hpc : s.pc = .writing buffer 0) :
    Inv names opens whole old
      { s with pc := .writing buffer 1, stdoutPending := s.stdoutPending ++ buffer } before := by
  obtain ⟨pc, crashed, input, opFiles, stdout, stdoutPending, files⟩ := s
  obtain rfl : pc = .writing buffer 0 := hpc
  have hstdout : stdout ++ stdoutPending = before ++ [] := h.stdout
  refine ⟨h.read, ?_, fun k f hk => h.fed k f hk, h.opened, h.others, h.crashed, trivial⟩
  dsimp only
  rw [← List.append_assoc, hstdout, List.append_nil]
  rfl

/-- They are given to the next stream. -/
theorem Inv.of_fwrite (h : Inv names opens whole old s before)
    (hpc : s.pc = .writing buffer (k + 1)) (hk : s.opFiles[k]? = some (some f)) :
    Inv names opens whole old
      { s with
        pc := .writing buffer (k + 2)
        opFiles := s.opFiles.set k (some { f with pending := f.pending ++ buffer }) } before := by
  obtain ⟨pc, crashed, input, opFiles, stdout, stdoutPending, files⟩ := s
  obtain rfl : pc = .writing buffer (k + 1) := hpc
  dsimp only at hk
  refine ⟨h.read, h.stdout, ?_, ?_, h.others, fun hc => none_mem_set hk (h.crashed hc), trivial⟩
  · intro j g hj
    dsimp only at hj ⊢
    rcases eq_or_ne k j with rfl | hne
    · rw [List.getElem?_set_self (List.getElem?_eq_some_iff.1 hk).1, Option.some_inj,
        Option.some_inj] at hj
      subst hj
      obtain ⟨hoffset, hpending, hfile⟩ := h.fed k f hk
      simp only [Pc.given, lt_irrefl, if_false, List.append_nil] at hoffset hpending
      simp only [Pc.given, Nat.lt_succ_self, if_true]
      refine ⟨?_, ?_, hfile⟩
      · rw [List.length_append]
        exact hoffset.trans (Nat.le_add_right _ _)
      · rw [List.drop_append_of_le_length hoffset, hpending]
    · rw [List.getElem?_set_ne hne] at hj
      have hgiven : Pc.given (j + 1) (.writing buffer (k + 2)) =
          Pc.given (j + 1) (.writing buffer (k + 1)) := by
        simp only [Pc.given]
        exact if_congr (by omega) rfl rfl
      exact hgiven ▸ h.fed j g hj
  · refine Eq.trans ?_ h.opened
    exact map_name_set hk rfl

/-- They have been given to all streams. -/
theorem Inv.of_written (h : Inv names opens whole old s before)
    (hpc : s.pc = .writing buffer (k + 1)) (hk : s.opFiles[k]? = none) :
    Inv names opens whole old { s with pc := .reading } (before ++ buffer) := by
  obtain ⟨pc, crashed, input, opFiles, stdout, stdoutPending, files⟩ := s
  obtain rfl : pc = .writing buffer (k + 1) := hpc
  have hread : before ++ buffer ++ input = whole := h.read
  have hall : ∀ j ≤ k, before ++ Pc.given j (.writing buffer (k + 1)) =
      before ++ buffer ++ Pc.given j .reading := by
    intro j hj
    rw [Pc.given, if_pos (Nat.lt_succ_of_le hj)]
    exact (List.append_nil _).symm
  refine ⟨?_, ?_, ?_, h.opened, h.others, h.crashed, trivial⟩
  · dsimp only [Pc.buffer]
    rw [List.append_nil, hread]
  · exact h.stdout.trans (hall 0 (Nat.zero_le k))
  · intro j f hj
    have hlt : j < k := (List.getElem?_eq_some_iff.1 hj).1.trans_le (List.getElem?_eq_none_iff.1 hk)
    exact hall (j + 1) hlt ▸ h.fed j f hj

end Writing

/-- The next stream is closed. -/
theorem Inv.of_fclose {i : ℕ} (h : Inv names opens whole old s before) (hpc : s.pc = .closing i)
    (hi : s.opFiles[i]? = some (some f)) :
    Inv names opens whole old { flush s i f.pending.length f with pc := .closing (i + 1) } before := by
  have hflush := h.of_flush hi f.pending.length
  have hat := hflush.atPc
  have hpc' : (flush s i f.pending.length f).pc = .closing i := hpc
  rw [hpc'] at hat
  refine hflush.of_pc (by rw [hpc']; rfl) (by rw [hpc']; exact fun _ => rfl) (by rw [hpc']; rfl) ?_
  refine ⟨hat.1, fun k hk => ?_⟩
  rcases Nat.lt_succ_iff_lt_or_eq.1 hk with hk | rfl
  · exact hat.2 k hk
  · exact ⟨_, List.getElem?_set_self (List.getElem?_eq_some_iff.1 hi).1, List.drop_length⟩

/-- All streams were closed. -/
theorem Inv.of_exit {i : ℕ} (h : Inv names opens whole old s before) (hpc : s.pc = .closing i)
    (hi : s.opFiles[i]? = none) :
    Inv names opens whole old
      { s with pc := .exited, stdout := s.stdout ++ s.stdoutPending, stdoutPending := [] } before := by
  obtain ⟨pc, crashed, input, opFiles, stdout, stdoutPending, files⟩ := s
  obtain rfl : pc = .closing i := hpc
  obtain ⟨hinput, hclosed⟩ := h.atPc
  refine ⟨h.read, ?_, fun k f hk => h.fed k f hk, h.opened, h.others, h.crashed, hinput, rfl, ?_⟩
  · dsimp only
    rw [List.append_nil]
    exact h.stdout
  · intro k hk
    have hlen := congrArg List.length h.opened
    simp only [Pc.opened, List.length_map, List.take_length] at hlen
    exact hclosed k (hk.trans_le (hlen ▸ List.getElem?_eq_none_iff.1 hi))

/-- **A step keeps the invariant.** -/
theorem inv_step (names : List Name) (opens : Name → Bool) (whole : Bytes) (old : Name → Option Bytes)
    (s : State) (e : Event) (t : State) (h : ∃ before, Inv names opens whole old s before)
    (ht : step names opens s e = some t) : ∃ before, Inv names opens whole old t before := by
  obtain ⟨before, h⟩ := h
  unfold step at ht
  split_ifs at ht
  cases e with
  | tee n =>
      dsimp only [teeStep] at ht
      split at ht
      · rename_i i hpc
        split at ht
        · rename_i name hname
          exact ⟨before, Option.some_inj.1 ht ▸ h.of_fopen hpc hname⟩
        · rename_i hnone
          have hat := h.atPc
          rw [hpc] at hat
          have hi : i = names.length := le_antisymm hat.1 (List.getElem?_eq_none_iff.1 hnone)
          refine ⟨before, Option.some_inj.1 ht ▸ h.of_pc ?_ ?_ ?_ trivial⟩
          · rw [hpc]
            rfl
          · rw [hpc]
            exact fun _ => rfl
          · rw [hpc]
            exact hi.symm
      · rename_i hpc
        split_ifs at ht with hnil
        · refine ⟨before, Option.some_inj.1 ht ▸ h.of_pc ?_ ?_ ?_ ⟨hnil, ?_⟩⟩
          · rw [hpc]
            rfl
          · rw [hpc]
            exact fun _ => rfl
          · rw [hpc]
            rfl
          · exact fun k hk => absurd hk (Nat.not_lt_zero k)
        · exact ⟨before, Option.some_inj.1 ht ▸ h.of_fread hpc n⟩
      · rename_i hpc
        exact ⟨before, Option.some_inj.1 ht ▸ h.of_fwriteStdout hpc⟩
      · rename_i buffer k hpc
        split at ht
        · rename_i hk
          exact ⟨before ++ buffer, Option.some_inj.1 ht ▸ h.of_written hpc hk⟩
        · rename_i hk
          exact ⟨before, Option.some_inj.1 ht ▸ h.of_crash (List.mem_of_getElem? hk)⟩
        · rename_i f hk
          exact ⟨before, Option.some_inj.1 ht ▸ h.of_fwrite hpc hk⟩
      · rename_i i hpc
        split at ht
        · rename_i hi
          exact ⟨before, Option.some_inj.1 ht ▸ h.of_exit hpc hi⟩
        · rename_i hi
          exact ⟨before, Option.some_inj.1 ht ▸ h.of_crash (List.mem_of_getElem? hi)⟩
        · rename_i f hi
          exact ⟨before, Option.some_inj.1 ht ▸ h.of_fclose hpc hi⟩
      · cases ht
  | flush k n =>
      dsimp only at ht
      split at ht
      · rename_i f hk
        exact ⟨before, Option.some_inj.1 ht ▸ h.of_flush hk n⟩
      · cases ht
  | flushStdout n => exact ⟨before, Option.some_inj.1 ht ▸ h.of_flushStdout n⟩

/-- A file that was opened has a stream. -/
theorem Inv.exists_stream (h : Inv names opens whole old s before) {name : Name}
    (hname : name ∈ names.take (s.pc.opened names)) (hopens : opens name = true) :
    ∃ (k : ℕ) (f : Stream), s.opFiles[k]? = some (some f) ∧ f.name = name := by
  have hmem : some name ∈ s.opFiles.map (Option.map Stream.name) := by
    rw [h.opened]
    exact List.mem_map.2 ⟨name, hname, if_pos hopens⟩
  obtain ⟨o, ho, heq⟩ := List.mem_map.1 hmem
  obtain ⟨f, rfl, hf⟩ := Option.map_eq_some_iff.1 heq
  obtain ⟨k, hk⟩ := List.mem_iff_getElem?.1 ho
  exact ⟨k, f, hk, hf⟩

/-- A null pointer is the stream of a file that could not be opened. -/
theorem Inv.exists_refused (h : Inv names opens whole old s before) (hnone : none ∈ s.opFiles) :
    ∃ name ∈ names, opens name = false := by
  have hmem : none ∈ s.opFiles.map (Option.map Stream.name) := List.mem_map.2 ⟨none, hnone, rfl⟩
  rw [h.opened] at hmem
  obtain ⟨name, hname, heq⟩ := List.mem_map.1 hmem
  refine ⟨name, List.mem_of_mem_take hname, ?_⟩
  split_ifs at heq with hopens
  exact Bool.eq_false_of_not_eq_true hopens

/-- When `tee_command` is done, every file holds the input. -/
theorem Inv.file_eq (h : Inv names opens whole old s before) (hpc : s.pc = .exited) {name : Name}
    (hname : name ∈ names) : opens name = true ∧ s.files name = some whole := by
  have hat := h.atPc
  have hread := h.read
  have hopened := h.opened
  rw [hpc] at hat hread hopened
  obtain ⟨hinput, -, hclosed⟩ := hat
  obtain rfl : before = whole := by
    rw [← hread, hinput]
    simp [Pc.buffer]
  obtain ⟨k, hk⟩ := List.mem_iff_getElem?.1 hname
  obtain ⟨f, hf, hpending⟩ := hclosed k (List.getElem?_eq_some_iff.1 hk).1
  have hentry := congrArg (fun l => l[k]?) hopened
  simp only [Pc.opened, List.take_length, List.getElem?_map, hf, hk, Option.map_some,
    Option.some_inj] at hentry
  split_ifs at hentry with hopens
  obtain rfl := Option.some_inj.1 hentry
  refine ⟨hopens, ?_⟩
  obtain ⟨hoffset, hrest, contents, hfile, hprefix, hle⟩ := h.fed k f hf
  rw [hpc] at hoffset hrest
  simp only [Pc.given, List.append_nil] at hoffset hrest
  have hend : before.length ≤ f.offset := List.drop_eq_nil_iff.1 (hrest.symm.trans hpending)
  rw [hfile, hprefix.eq_of_length_le (hend.trans hle)]

end Step

/-- **What is in the files in every run**, however the bytes are read and whenever the buffers are
flushed.  The standard output and every file that was opened, however often it is named, hold a beginning
of the input, and the other files are as they were.  When `tee_command` is done all files were opened,
and they and the standard output hold the input; it crashes only if one of them could not be opened. -/
theorem copies (names : List Name) (opens : Name → Bool) (input : Bytes) (old : Name → Option Bytes)
    (es : List Event) (s : State) (hrun : run (step names opens) (State.init input old) es = some s) :
    s.stdout <+: input ∧
      (∀ name ∈ names.take (s.pc.opened names), opens name = true →
        ∃ contents, s.files name = some contents ∧ contents <+: input) ∧
      (∀ name, name ∉ names ∨ opens name = false → s.files name = old name) ∧
      (s.crashed = true → ∃ name ∈ names, opens name = false) ∧
      (s.pc = .exited → s.stdout = input ∧
        ∀ name ∈ names, opens name = true ∧ s.files name = some input) := by
  obtain ⟨before, h⟩ := run_invariant (inv_step names opens input old)
    ⟨[], inv_init names opens input old⟩ hrun
  have hstdout : s.stdout <+: input :=
    (h.stdout ▸ List.prefix_append _ _).trans (given_mono h 0)
  refine ⟨hstdout, ?_, h.others, fun hcrashed => h.exists_refused (h.crashed hcrashed), ?_⟩
  · intro name hname hopens
    obtain ⟨k, f, hk, rfl⟩ := h.exists_stream hname hopens
    obtain ⟨-, -, contents, hfile, hprefix, -⟩ := h.fed k f hk
    exact ⟨contents, hfile, hprefix⟩
  · intro hpc
    refine ⟨?_, fun name hname => h.file_eq hpc hname⟩
    have hat := h.atPc
    have hread := h.read
    have hgiven := h.stdout
    rw [hpc] at hat hread hgiven
    rw [hat.1, List.append_nil] at hread
    rw [hat.2.1, List.append_nil] at hgiven
    exact hgiven.trans hread

/-- Two streams for one file; the buffer of each is flushed once, before the file is closed. -/
def twice : List Event :=
  [.tee 0, .tee 0, .tee 0, .tee 2, .tee 0, .tee 0, .flush 0 1, .tee 0, .flush 1 2, .tee 0,
    .tee 1, .tee 0, .tee 0, .tee 0, .tee 0, .tee 0, .tee 0, .tee 0, .tee 0]

theorem copies_twice :
    ∃ s, run (step [['a'], ['a']] fun _ => true) (State.init [1, 2, 3] fun _ => none) twice = some s ∧
      s.stdout = [1, 2, 3] ∧ s.files ['a'] = some [1, 2, 3] := by
  obtain ⟨s, hrun, hpc⟩ : ∃ s, run (step [['a'], ['a']] fun _ => true)
      (State.init [1, 2, 3] fun _ => none) twice = some s ∧ s.pc = .exited := ⟨_, rfl, rfl⟩
  obtain ⟨-, -, -, -, hend⟩ := copies _ _ _ _ twice s hrun
  obtain ⟨hstdout, hfiles⟩ := hend hpc
  exact ⟨s, hrun, hstdout, (hfiles ['a'] List.mem_cons_self).2⟩

end Tee
