/-
**MyShell: reading the configuration file.**

`setPATH` reads `.myshellrc` with `fgets` and copies each chunk into a row of the table `PATH`, up to
the newline.  Nothing else ends the inner loop, and nothing compares an index with the size of the
table.  In the model every byte that is read must have been stored by `fgets` for the current chunk,
and every write must fall into the table of 100 rows of 50 bytes.

Main definitions:

* `Shell.fgets` — one chunk of the file;
* `Shell.copyLine`, `Shell.setPATHLoop`, `Shell.setPATH` — the loops of the source;
* `Shell.linesOf` — the lines of a file, an unterminated last one included;
* `Shell.PathsRead` — the table holds the lines.

Main results:

* `Shell.exists_unlines` — a file is a list of complete lines and a rest;
* `Shell.setPATHLoop_line`, `Shell.setPATHLoop_rest` — one iteration;
* `Shell.pathsRead_iff` — **the table is right exactly when** every line ends with a newline and has
  at most 49 bytes, there are at most 100 lines, and none has a zero byte.
-/

import NetworkProgramming.CString

set_option relaxedAutoImplicit false
set_option autoImplicit false

namespace Shell

open CString

/-! ### The functions -/

/-- `fgets` with room for `n` bytes and a zero: the bytes it stores before the zero, and the rest of
the file.  No bytes are stored at the end of the file. -/
def fgets : ℕ → Text → Text × Text
  | 0, file => ([], file)
  | _ + 1, [] => ([], [])
  | n + 1, c :: file =>
      if c = '\n' then ([c], file) else (c :: (fgets n file).1, (fgets n file).2)

/-- The inner loop of `setPATH` on a row, from the byte `buffer[i]` on.  A byte behind those that
`fgets` has stored is never read. -/
def copyLine : Text → ℕ → Text → Option Text
  | [], _, _ => none
  | c :: stored, j, row =>
      if c = '\n' then put row j '\x00' else (put row j c).bind (copyLine stored (j + 1))

/-- The outer loop of `setPATH`, with fuel. -/
def setPATHLoop : ℕ → Text → List Text → ℕ → Option (List Text × ℕ)
  | 0, _, _, _ => none
  | fuel + 1, file, paths, pathLength =>
      if (fgets 255 file).1 = [] then some (paths, pathLength)
      else
        match paths[pathLength]? with
        | none => none
        | some row =>
            (copyLine ((fgets 255 file).1 ++ ['\x00']) 0 row).bind fun row =>
              setPATHLoop fuel (fgets 255 file).2 (paths.set pathLength row) (pathLength + 1)

/-- The table that `setPATH` allocates. -/
def emptyTable : List Text := List.replicate 100 (List.replicate 50 '\x00')

/-- `setPATH`: the table and its length.  Every chunk takes a byte at least from the file. -/
def setPATH (file : Text) : Option (List Text × ℕ) :=
  setPATHLoop (file.length + 1) file emptyTable 0

/-- The lines of a file, with or without a newline at its end. -/
def linesOf : Text → List Text
  | [] => []
  | c :: file =>
      if c = '\n' then [] :: linesOf file
      else
        match linesOf file with
        | [] => [[c]]
        | l :: ls => (c :: l) :: ls

/-- **The table holds the lines**: `setPATH` stays within its arrays, returns the number of lines,
and each row is a line. -/
def PathsRead (file : Text) : Prop :=
  ∃ paths, setPATH file = some (paths, (linesOf file).length) ∧
    ∀ (i : ℕ) (l : Text), (linesOf file)[i]? = some l → (paths[i]?).map cstr = some l

/-! ### A file and its lines -/

/-- The lines, each with its newline. -/
def unlines (ls : List Text) : Text := ls.flatMap (· ++ ['\n'])

@[simp] theorem unlines_nil : unlines [] = [] := rfl

@[simp] theorem unlines_cons (l : Text) (ls : List Text) :
    unlines (l :: ls) = l ++ '\n' :: unlines ls := by simp [unlines]

theorem length_le_length_unlines (ls : List Text) : ls.length ≤ (unlines ls).length := by
  induction ls with
  | nil => simp
  | cons l ls ih =>
      simp only [unlines_cons, List.length_append, List.length_cons]
      omega

/-- **A file is a list of complete lines and a rest without a newline**, which is a line of its own
if it is not empty. -/
theorem exists_unlines (file : Text) :
    ∃ ls rest, file = unlines ls ++ rest ∧ (∀ l ∈ ls, '\n' ∉ l) ∧ '\n' ∉ rest ∧
      linesOf file = ls ++ if rest = [] then [] else [rest] := by
  induction file with
  | nil => exact ⟨[], [], rfl, by simp, by simp, rfl⟩
  | cons c file ih =>
      obtain ⟨ls, rest, rfl, hls, hrest, hlines⟩ := ih
      by_cases hc : c = '\n'
      · refine ⟨[] :: ls, rest, by simp [hc], List.forall_mem_cons.2 ⟨by simp, hls⟩, hrest, ?_⟩
        simp [linesOf, hc, hlines]
      · cases ls with
        | nil =>
            refine ⟨[], c :: rest, by simp, by simp, by simpa [Ne.symm hc] using hrest, ?_⟩
            by_cases hnil : rest = []
            · simp [linesOf, hc, hnil]
            · simp only [unlines_nil, List.nil_append] at hlines ⊢
              simp [linesOf, hc, hlines, hnil]
        | cons l ls =>
            obtain ⟨hl, hls⟩ := List.forall_mem_cons.1 hls
            refine ⟨(c :: l) :: ls, rest, by simp, ?_, hrest, ?_⟩
            · exact List.forall_mem_cons.2 ⟨by simpa [Ne.symm hc] using hl, hls⟩
            · rw [linesOf, if_neg hc, hlines]
              rfl

/-- The file ends with a newline, or is empty, if there is no rest. -/
theorem getLast?_unlines_append {ls : List Text} {rest : Text} (hrest : '\n' ∉ rest) :
    (unlines ls ++ rest = [] ∨ (unlines ls ++ rest).getLast? = some '\n') ↔ rest = [] := by
  constructor
  · intro h
    by_contra hne
    rcases h with h | h
    · exact hne (List.append_eq_nil_iff.1 h).2
    · rw [List.getLast?_append, List.getLast?_eq_some_getLast hne, Option.some_or] at h
      exact hrest (Option.some_inj.1 h ▸ List.getLast_mem hne)
  · rintro rfl
    rw [List.append_nil]
    rcases List.eq_nil_or_concat ls with rfl | ⟨ls, l, rfl⟩
    · exact Or.inl rfl
    · right
      simp [unlines]

/-! ### One chunk -/

theorem fgets_line {l : Text} (hl : '\n' ∉ l) (rest : Text) {n : ℕ} (hn : l.length < n) :
    fgets n (l ++ '\n' :: rest) = (l ++ ['\n'], rest) := by
  induction l generalizing n with
  | nil =>
      obtain ⟨m, rfl⟩ : ∃ m, n = m + 1 := ⟨n - 1, by omega⟩
      simp [fgets]
  | cons c l ih =>
      obtain ⟨m, rfl⟩ : ∃ m, n = m + 1 := ⟨n - 1, by omega⟩
      obtain ⟨hc, hl⟩ := List.ne_and_not_mem_of_not_mem_cons hl
      simp [fgets, Ne.symm hc, ih hl (by simpa using hn)]

/-- A chunk that is full before the newline, or that the end of the file has cut off. -/
theorem fgets_of_notMem {l : Text} (hl : '\n' ∉ l) (rest : Text) {n : ℕ}
    (hn : n ≤ l.length ∨ rest = []) : (fgets n (l ++ rest)).1 = l.take n := by
  induction l generalizing n with
  | nil =>
      rcases hn with hn | rfl
      · obtain rfl : n = 0 := by simpa using hn
        rfl
      · cases n with
        | zero => rfl
        | succ n => rfl
  | cons c l ih =>
      obtain ⟨hc, hl⟩ := List.ne_and_not_mem_of_not_mem_cons hl
      cases n with
      | zero => rfl
      | succ n => simp [fgets, Ne.symm hc, ih hl (by simpa using hn)]

/-- A line is copied if it fits with its zero. -/
theorem copyLine_line {l : Text} (hl : '\n' ∉ l) (stored front tail : Text) :
    copyLine (l ++ '\n' :: stored) front.length (front ++ tail) =
      if l.length < tail.length then some (front ++ l ++ '\x00' :: tail.drop (l.length + 1))
      else none := by
  induction l generalizing front tail with
  | nil =>
      cases tail with
      | nil => simp [copyLine, put_full]
      | cons old tail => simp [copyLine, put_append]
  | cons c l ih =>
      obtain ⟨hc, hl⟩ := List.ne_and_not_mem_of_not_mem_cons hl
      rw [List.cons_append, copyLine, if_neg (Ne.symm hc)]
      cases tail with
      | nil => simp [put_full]
      | cons old tail =>
          have hnext := ih hl (front ++ [c]) tail
          rw [List.length_append, List.length_singleton, List.append_assoc,
            List.singleton_append] at hnext
          rw [put_append, Option.bind_some, hnext]
          simp

/-- Without a newline among the stored bytes the loop runs behind them. -/
theorem copyLine_of_notMem {stored : Text} (h : '\n' ∉ stored) (j : ℕ) (row : Text) :
    copyLine stored j row = none := by
  induction stored generalizing j row with
  | nil => rfl
  | cons c stored ih =>
      obtain ⟨hc, h⟩ := List.ne_and_not_mem_of_not_mem_cons h
      rw [copyLine, if_neg (Ne.symm hc)]
      cases put row j c with
      | none => rfl
      | some row => exact ih h (j + 1) row

/-! ### The table -/

/-- A row after a line was copied into it. -/
def lineRow (l row : Text) : Text := l ++ '\x00' :: row.drop (l.length + 1)

section Table

variable {fuel n : ℕ} {paths : List Text} {r : List Text × ℕ}

/-- **One iteration on a complete line**: there is a row for it, and it is short enough. -/
theorem setPATHLoop_line (hrows : ∀ row ∈ paths, row.length = 50) {l : Text} (hl : '\n' ∉ l)
    (rest : Text) :
    setPATHLoop (fuel + 1) (l ++ '\n' :: rest) paths n = some r ↔
      ∃ row, paths[n]? = some row ∧ l.length < 50 ∧
        setPATHLoop fuel rest (paths.set n (lineRow l row)) (n + 1) = some r := by
  cases hrow : paths[n]? with
  | none =>
      refine iff_of_false ?_ (by simp)
      simp only [setPATHLoop, hrow]
      -- a chunk is never empty here, so that the missing row is looked up
      have hne : (fgets 255 (l ++ '\n' :: rest)).1 ≠ [] := by
        cases l with
        | nil => simp [fgets]
        | cons c l => simp [fgets, Ne.symm (List.ne_of_not_mem_cons hl)]
      simp [hne]
  | some row =>
      have hlen : row.length = 50 := hrows row (List.mem_of_getElem? hrow)
      rcases Nat.lt_or_ge l.length 255 with hshort | hlong
      · have hcopy := copyLine_line hl ['\x00'] [] row
        rw [List.nil_append, List.length_nil, List.nil_append, hlen] at hcopy
        simp only [setPATHLoop, fgets_line hl rest hshort, hrow, List.append_assoc,
          List.singleton_append, hcopy]
        by_cases hfits : l.length < 50
        · simp [hfits, lineRow]
        · simp [hfits]
      · have hchunk := fgets_of_notMem hl ('\n' :: rest) (Or.inl hlong)
        have hnl : '\n' ∉ l.take 255 ++ ['\x00'] := by
          rw [List.mem_append, not_or]
          exact ⟨fun h => hl (List.mem_of_mem_take h), by decide⟩
        have hne : l.take 255 ≠ [] := by
          intro h
          have hzero := congrArg List.length h
          rw [List.length_take, List.length_nil] at hzero
          omega
        simp only [setPATHLoop, hchunk, hrow, copyLine_of_notMem hnl, if_neg hne, Option.bind_none]
        refine iff_of_false (by simp) ?_
        rintro ⟨-, -, hfits, -⟩
        omega

/-- A rest without a newline is not read to its end. -/
theorem setPATHLoop_rest {rest : Text} (hrest : '\n' ∉ rest) (hne : rest ≠ []) :
    setPATHLoop fuel rest paths n = none := by
  cases fuel with
  | zero => rfl
  | succ fuel =>
      have hchunk := fgets_of_notMem hrest [] (n := 255) (Or.inr rfl)
      rw [List.append_nil] at hchunk
      have hnl : '\n' ∉ rest.take 255 ++ ['\x00'] := by
        rw [List.mem_append, not_or]
        exact ⟨fun h => hrest (List.mem_of_mem_take h), by decide⟩
      have hne' : rest.take 255 ≠ [] := by
        rw [Ne, List.take_eq_nil_iff, not_or]
        exact ⟨by omega, hne⟩
      simp only [setPATHLoop, hchunk, copyLine_of_notMem hnl, if_neg hne', Option.bind_none]
      cases paths[n]? with
      | none => rfl
      | some row => rfl

/-- **The loop on a whole file**, with the rows `front` filled already. -/
theorem setPATHLoop_unlines {ls : List Text} (hls : ∀ l ∈ ls, '\n' ∉ l) {rest : Text}
    (hrest : '\n' ∉ rest) (front todo : List Text)
    (hrows : ∀ row ∈ front ++ todo, row.length = 50) (hfuel : ls.length < fuel) :
    setPATHLoop fuel (unlines ls ++ rest) (front ++ todo) front.length = some r ↔
      rest = [] ∧ (∀ l ∈ ls, l.length < 50) ∧ ls.length ≤ todo.length ∧
        r = (front ++ List.zipWith lineRow ls todo ++ todo.drop ls.length,
          front.length + ls.length) := by
  induction ls generalizing fuel front todo with
  | nil =>
      obtain ⟨fuel, rfl⟩ : ∃ k, fuel = k + 1 := ⟨fuel - 1, by omega⟩
      by_cases hnil : rest = []
      · subst hnil
        simp [setPATHLoop, fgets, eq_comm]
      · rw [unlines_nil, List.nil_append, setPATHLoop_rest hrest hnil]
        simp [hnil]
  | cons l ls ih =>
      obtain ⟨fuel, rfl⟩ : ∃ k, fuel = k + 1 := ⟨fuel - 1, by omega⟩
      obtain ⟨hl, hls⟩ := List.forall_mem_cons.1 hls
      rw [unlines_cons, List.append_assoc, List.cons_append, setPATHLoop_line hrows hl]
      cases todo with
      | nil => simp
      | cons row todo =>
          have hget : (front ++ row :: todo)[front.length]? = some row := by simp
          have hset : (front ++ row :: todo).set front.length (lineRow l row) =
              (front ++ [lineRow l row]) ++ todo := by simp
          by_cases hfits : l.length < 50
          · have hrow : row.length = 50 := hrows row (by simp)
            have hrows' : ∀ x ∈ (front ++ [lineRow l row]) ++ todo, x.length = 50 := by
              intro x hx
              simp only [List.append_assoc, List.mem_append, List.mem_singleton] at hx
              rcases hx with hx | rfl | hx
              · exact hrows x (by simp [hx])
              · simp only [lineRow, List.length_append, List.length_cons, List.length_drop, hrow]
                omega
              · exact hrows x (by simp [hx])
            have hstep := ih hls (front ++ [lineRow l row]) todo hrows' (by simpa using hfuel)
            rw [List.length_append, List.length_singleton] at hstep
            simp only [hget, Option.some_inj, exists_eq_left', hset]
            rw [hstep, and_iff_right hfits]
            simp [hfits, Nat.add_assoc, Nat.add_comm 1]
          · simp only [hget, Option.some_inj, exists_eq_left']
            simp [hfits]

/-- The table with lines in its first rows. -/
def filledTable (ls : List Text) : List Text :=
  List.zipWith lineRow ls emptyTable ++ emptyTable.drop ls.length

/-- **What `setPATH` returns.** -/
theorem setPATH_unlines {ls : List Text} (hls : ∀ l ∈ ls, '\n' ∉ l) {rest : Text}
    (hrest : '\n' ∉ rest) :
    setPATH (unlines ls ++ rest) = some r ↔
      rest = [] ∧ (∀ l ∈ ls, l.length ≤ 49) ∧ ls.length ≤ 100 ∧
        r = (filledTable ls, ls.length) := by
  have hfuel : ls.length < (unlines ls ++ rest).length + 1 := by
    have hle := length_le_length_unlines ls
    rw [List.length_append]
    omega
  have hrows : ∀ row ∈ [] ++ emptyTable, row.length = 50 := by
    intro row hrow
    rw [List.nil_append, emptyTable] at hrow
    rw [List.eq_of_mem_replicate hrow, List.length_replicate]
  have hloop := setPATHLoop_unlines (r := r) hls hrest [] emptyTable hrows hfuel
  rw [List.nil_append, List.length_nil, Nat.zero_add, List.nil_append] at hloop
  rw [setPATH, hloop, filledTable]
  simp only [Nat.lt_succ_iff, emptyTable, List.length_replicate]

theorem cstr_filledTable {ls : List Text} (hle : ls.length ≤ 100) {i : ℕ} {l : Text}
    (hi : ls[i]? = some l) :
    ((filledTable ls)[i]?).map cstr = some (cstr (lineRow l (List.replicate 50 '\x00'))) := by
  have hlt := (List.getElem?_eq_some_iff.1 hi).1
  have hrow : emptyTable[i]? = some (List.replicate 50 '\x00') :=
    List.getElem?_replicate_of_lt (by omega)
  have hlen : i < (List.zipWith lineRow ls emptyTable).length := by
    rw [List.length_zipWith, emptyTable, List.length_replicate]
    omega
  rw [filledTable, List.getElem?_append_left hlen, List.getElem?_zipWith, hi, hrow]
  rfl

end Table

/-- **When the configuration is read.**  The table holds the lines of the file exactly when the
file is empty or ends with a newline, no line has more than 49 bytes, there are at most 100 lines
and no byte is zero. -/
theorem pathsRead_iff (file : Text) :
    PathsRead file ↔ (file = [] ∨ file.getLast? = some '\n') ∧
      (∀ l ∈ linesOf file, l.length ≤ 49) ∧ (linesOf file).length ≤ 100 ∧ '\x00' ∉ file := by
  obtain ⟨ls, rest, rfl, hls, hrest, hlines⟩ := exists_unlines file
  have hnul : '\x00' ∈ unlines ls ++ [] ↔ ∃ l ∈ ls, '\x00' ∈ l := by simp [unlines]
  rw [getLast?_unlines_append hrest]
  constructor
  · rintro ⟨paths, hpaths, hread⟩
    obtain ⟨rfl, hshort, hcount, heq⟩ := (setPATH_unlines hls hrest).1 hpaths
    have hlines : linesOf (unlines ls ++ []) = ls := by simpa using hlines
    obtain ⟨rfl, -⟩ := Prod.mk.inj heq
    rw [hlines] at hread ⊢
    refine ⟨rfl, hshort, hcount, ?_⟩
    intro hmem
    obtain ⟨l, hl, hmem⟩ := hnul.1 hmem
    obtain ⟨i, hi⟩ := List.mem_iff_getElem?.1 hl
    have hcstr := hread i l hi
    rw [cstr_filledTable hcount hi, Option.some_inj] at hcstr
    exact nul_notMem_cstr _ (hcstr ▸ hmem)
  · rintro ⟨rfl, hshort, hcount, hzero⟩
    have hlines : linesOf (unlines ls ++ []) = ls := by simpa using hlines
    rw [hlines] at hshort hcount
    rw [PathsRead, hlines]
    refine ⟨_, (setPATH_unlines hls hrest).2 ⟨rfl, hshort, hcount, rfl⟩, ?_⟩
    intro i l hi
    have hl : '\x00' ∉ l := fun hmem => hzero (hnul.2 ⟨l, List.mem_of_getElem? hi, hmem⟩)
    rw [cstr_filledTable hcount hi, lineRow, cstr_append_nul hl]

/-- The file of the repository without its last newline.  The loop reads on behind the bytes that
`fgets` has stored. -/
theorem pathsRead_unterminated :
    ¬ PathsRead "/bin/\n/home/tobirama/scripts/".toList := by
  rintro ⟨paths, hpaths, -⟩
  have hnone : (setPATH "/bin/\n/home/tobirama/scripts/".toList).isNone = true := by
    decide +kernel
  rw [hpaths] at hnone
  cases hnone

end Shell
