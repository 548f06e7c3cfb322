/-
**MyShell: from a typed line to what it prints.**

A line of commands with `|` between them goes through all of the shell: `initArgs` cuts it into words,
`main` finds that it is neither a builtin nor a job command, `pipe_filter` and `output_redirection` copy
the stages to `commands`, `executePipe` reads them there and forks, and the processes write to the pipes
between them.  The parts are in other modules; here they are put together.

A stage whose program is not found ends at once, as a program that writes nothing.  The children of
earlier lines have ended, since the shell waits for any child of its own.  The words of the line fit the
blocks of their slots, and the line has fewer words than the block of a row has room for; with more,
`initArgs` or `output_redirection` writes to memory that is not its own.

Main definitions:

* `Shell.typedLine` — the line, as it is typed;
* `Shell.Typable` — the pipelines that have such a line;
* `Shell.stageProg` — what the process of a stage runs.

Main results:

* `Shell.tokens_intercalate`, `Shell.splitOnP_pipeWords` — the words and the stages are read back;
* `Shell.handleLine_typedLine` — the line reaches `pipe_filter`;
* `Shell.runPipeline_typed` — the processes that it is forked for;
* `Shell.typed_pipeline` — **a typed pipeline prints what its programs compute**.
-/

import NetworkProgramming.ShellHistory
import NetworkProgramming.ShellPipelineOutput
import NetworkProgramming.ShellStageRun
import NetworkProgramming.ShellTokens

set_option relaxedAutoImplicit false
set_option autoImplicit false

namespace Shell

open Malloc Runs ShellPipeline

/-! ### The line -/

/-- The words of a pipeline. -/
def pipeWords (stages : List (List Word)) : List Word := ["|".toList].intercalate stages

/-- The line as it is typed: a space between the words, and a newline. -/
def typedLine (stages : List (List Word)) : List Char :=
  [' '].intercalate (pipeWords stages) ++ ['\n']

/-- A word that means nothing to the shell. -/
structure PlainWord (w : Word) : Prop where
  ne_nil : w ≠ []
  nul : '\x00' ∉ w
  space : ' ' ∉ w
  newline : '\n' ∉ w
  pipeOp : isPipeOp w = false
  redirectionOp : isRedirectionOp w = false

/-- **The pipelines that can be typed**: plain words that fit their slots, at least two stages, none of
them empty or too long for its row, not too many words for a row in all, and a first and a last word at
which `main` does not stop. -/
structure Typable (m : Allocator) (stages : List (List Word)) : Prop where
  two : 2 ≤ stages.length
  ne_nil : ∀ stage ∈ stages, stage ≠ []
  short : Short m stages
  room : (pipeWords stages).length < rowCells m 20
  fits : ∀ w ∈ pipeWords stages, w.length < m.usable 1
  plain : ∀ stage ∈ stages, ∀ w ∈ stage, PlainWord w
  head : ∀ w ∈ ["cd".toList, "fg".toList, "bg".toList, "daemonize".toList],
    (pipeWords stages).head? ≠ some w
  last : (pipeWords stages).getLast? ≠ some "&".toList

instance (w : Word) : Decidable (PlainWord w) :=
  decidable_of_iff (_ ∧ _ ∧ _ ∧ _ ∧ _ ∧ _)
    ⟨fun h => ⟨h.1, h.2.1, h.2.2.1, h.2.2.2.1, h.2.2.2.2.1, h.2.2.2.2.2⟩,
      fun h => ⟨h.1, h.2, h.3, h.4, h.5, h.6⟩⟩

instance (m : Allocator) (stages : List (List Word)) : Decidable (Typable m stages) :=
  decidable_of_iff (_ ∧ _ ∧ _ ∧ _ ∧ _ ∧ _ ∧ _ ∧ _)
    ⟨fun h => ⟨h.1, h.2.1, h.2.2.1, h.2.2.2.1, h.2.2.2.2.1, h.2.2.2.2.2.1, h.2.2.2.2.2.2.1,
      h.2.2.2.2.2.2.2⟩, fun h => ⟨h.1, h.2, h.3, h.4, h.5, h.6, h.7, h.8⟩⟩

/-! ### The words and the stages are read back -/

section Joined

variable {α : Type}

theorem mem_intercalate {sep : List α} {ls : List (List α)} {a : α} (h : a ∈ sep.intercalate ls) :
    a ∈ sep ∨ ∃ l ∈ ls, a ∈ l := by
  induction ls with
  | nil => cases h
  | cons l ls ih =>
      cases ls with
      | nil =>
          rw [List.intercalate_singleton] at h
          exact Or.inr ⟨l, List.mem_singleton_self l, h⟩
      | cons l' ls =>
          rw [List.intercalate_cons_cons, List.mem_append, List.mem_append] at h
          rcases h with (h | h) | h
          · exact Or.inr ⟨l, List.mem_cons_self, h⟩
          · exact Or.inl h
          · exact (ih h).imp_right fun ⟨m, hm, ha⟩ => ⟨m, List.mem_cons_of_mem _ hm, ha⟩

/-- The joined list starts with the first one. -/
theorem intercalate_cons (sep l : List α) (ls : List (List α)) :
    ∃ tail, sep.intercalate (l :: ls) = l ++ tail := by
  cases ls with
  | nil => exact ⟨[], by rw [List.intercalate_singleton, List.append_nil]⟩
  | cons l' ls => exact ⟨_, by rw [List.intercalate_cons_cons, List.append_assoc]⟩

end Joined

section Tokens

variable {words : List Word}

/-- The characters of a word are not collapsed. -/
theorem collapse_append {w rest : List Char} (hw : ' ' ∉ w) :
    collapse (w ++ rest) = w ++ collapse rest := by
  induction w with
  | nil => rfl
  | cons c w ih =>
      obtain ⟨hc, hw⟩ := not_or.1 (fun h => hw (List.mem_cons.2 h))
      rw [List.cons_append, collapse, if_neg fun h => hc h.1.symm, ih hw, List.cons_append]

/-- A space in front of a word stays. -/
theorem collapse_space {w rest : List Char} (hne : w ≠ []) (hw : ' ' ∉ w) :
    collapse (' ' :: (w ++ rest)) = ' ' :: collapse (w ++ rest) := by
  obtain ⟨c, w, rfl⟩ := List.exists_cons_of_ne_nil hne
  rw [collapse, if_neg]
  rintro ⟨-, hhead⟩
  rw [List.cons_append, List.head?_cons, Option.some_inj] at hhead
  exact hw (List.mem_cons.2 (Or.inl hhead.symm))

theorem collapse_intercalate (hplain : ∀ w ∈ words, w ≠ [] ∧ ' ' ∉ w) :
    collapse ([' '].intercalate words) = [' '].intercalate words := by
  induction words with
  | nil => rfl
  | cons w words ih =>
      obtain ⟨⟨-, hw⟩, hrest⟩ := List.forall_mem_cons.1 hplain
      cases words with
      | nil =>
          rw [List.intercalate_singleton]
          have hword := @collapse_append w [] hw
          rwa [collapse, List.append_nil] at hword
      | cons v words =>
          obtain ⟨⟨hne, hv⟩, -⟩ := List.forall_mem_cons.1 hrest
          obtain ⟨tail, htail⟩ := intercalate_cons [' '] v words
          rw [List.intercalate_cons_cons, List.append_assoc, collapse_append hw, List.singleton_append,
            htail, collapse_space hne hv, ← htail, ih hrest]

/-- **The words are read back.** -/
theorem tokens_intercalate (hne : words ≠ []) (hplain : ∀ w ∈ words, w ≠ [] ∧ ' ' ∉ w) :
    tokens ([' '].intercalate words) = words := by
  rw [tokens, collapse_intercalate hplain]
  exact List.splitOn_intercalate ' ' (fun w hw => (hplain w hw).2) hne

end Tokens

section Stages

variable {stages : List (List Word)}

/-- **The stages are read back.** -/
theorem splitOnP_pipeWords (hne : stages ≠ [])
    (hplain : ∀ stage ∈ stages, ∀ w ∈ stage, isPipeOp w = false) :
    (pipeWords stages).splitOnP isPipeOp = stages := by
  induction stages with
  | nil => exact absurd rfl hne
  | cons stage stages ih =>
      obtain ⟨hstage, hrest⟩ := List.forall_mem_cons.1 hplain
      cases stages with
      | nil => rw [pipeWords, List.intercalate_singleton, List.splitOnP_eq_singleton hstage]
      | cons next stages =>
          have hjoined : pipeWords (stage :: next :: stages) =
              stage ++ "|".toList :: pipeWords (next :: stages) := by
            rw [pipeWords, List.intercalate_cons_cons, List.append_assoc]
            rfl
          rw [hjoined, List.splitOnP_append_cons_of_forall_mem hstage _ rfl,
            ih (List.cons_ne_nil _ _) hrest]

end Stages

namespace Typable

variable {m : Allocator} {stages : List (List Word)}

theorem stages_ne_nil (h : Typable m stages) : stages ≠ [] := by
  rintro rfl
  exact absurd h.two (by simp)

/-- A word of the line is a `|` or a plain one. -/
theorem word (h : Typable m stages) {w : Word} (hw : w ∈ pipeWords stages) :
    w = "|".toList ∨ PlainWord w := by
  rcases mem_intercalate hw with hsep | ⟨stage, hstage, hw⟩
  · exact Or.inl (List.mem_singleton.1 hsep)
  · exact Or.inr (h.plain stage hstage w hw)

theorem splitOnP (h : Typable m stages) : (pipeWords stages).splitOnP isPipeOp = stages :=
  splitOnP_pipeWords h.stages_ne_nil fun stage hstage w hw => (h.plain stage hstage w hw).pipeOp

/-- The line has a `|`. -/
theorem any_isPipeOp (h : Typable m stages) : (pipeWords stages).any isPipeOp = true := by
  by_contra hnone
  have hsplit : (pipeWords stages).splitOnP isPipeOp = [pipeWords stages] :=
    List.splitOnP_eq_singleton fun w hw => by
      simpa using List.any_eq_false.1 (Bool.eq_false_of_not_eq_true hnone) w hw
  have hone : stages.length = 1 := by
    rw [← h.splitOnP, hsplit]
    rfl
  have htwo := h.two
  omega

/-- The line starts with a plain word and has another one. -/
theorem exists_words (h : Typable m stages) :
    ∃ first second rest, pipeWords stages = first :: second :: rest ∧ PlainWord first := by
  obtain ⟨stage, stages, rfl⟩ := List.exists_cons_of_ne_nil h.stages_ne_nil
  obtain ⟨first, stage, rfl⟩ := List.exists_cons_of_ne_nil (h.ne_nil stage List.mem_cons_self)
  obtain ⟨tail, htail⟩ := intercalate_cons ["|".toList] (first :: stage) stages
  have hfirst : PlainWord first := h.plain _ List.mem_cons_self first List.mem_cons_self
  have hwords : pipeWords ((first :: stage) :: stages) = first :: (stage ++ tail) := htail
  obtain ⟨second, rest, hrest⟩ : ∃ second rest, stage ++ tail = second :: rest := by
    refine List.exists_cons_of_ne_nil ?_
    intro hnil
    have hany := h.any_isPipeOp
    rw [hwords, hnil] at hany
    simp [hfirst.pipeOp] at hany
  exact ⟨first, second, rest, by rw [hwords, hrest], hfirst⟩

/-- The type of the line is `|`. -/
theorem pipeType (h : Typable m stages) :
    (countPipes (pipeWords stages) Globals.init).pipeType = .pipe := by
  have hne : (pipeWords stages).filter isPipeOp ≠ [] := by
    obtain ⟨w, hw, hop⟩ := List.any_eq_true.1 h.any_isPipeOp
    exact List.ne_nil_of_mem (List.mem_filter.2 ⟨hw, hop⟩)
  rw [pipeType_countPipes_iff rfl, List.getLast?_eq_some_getLast hne, Option.some_inj]
  obtain ⟨hmem, hop⟩ := List.mem_filter.1 (List.getLast_mem hne)
  refine (h.word hmem).resolve_right fun hplain => ?_
  rw [hplain.pipeOp] at hop
  cases hop

/-- No word of the line is a redirection. -/
theorem notMem (h : Typable m stages) {w : Word} (hw : isRedirectionOp w = true) :
    w ∉ pipeWords stages := by
  intro hmem
  rcases h.word hmem with rfl | hplain
  · cases hw
  · rw [hplain.redirectionOp] at hw
    cases hw

theorem readsFile (h : Typable m stages) : readsFile (pipeWords stages) = false := by
  rw [Shell.readsFile, List.any_eq_false]
  rintro ⟨w, i⟩ -
  rw [feedsPipe, Bool.and_eq_true, inputBefore, Bool.and_eq_true, beq_iff_eq]
  rintro ⟨-, -, hget⟩
  exact h.notMem rfl (List.mem_of_getElem? hget)

theorem writesFile (h : Typable m stages) : writesFile (pipeWords stages) = false := by
  rw [Shell.writesFile, Bool.eq_false_iff, Ne]
  simp only [Bool.and_eq_true, Bool.or_eq_true, decide_eq_true_iff]
  rintro ⟨-, hget | hget⟩
  · exact h.notMem rfl (List.mem_of_getElem? hget)
  · exact h.notMem rfl (List.mem_of_getElem? hget)

/-- `pipe_filter` accepts the line. -/
theorem accepted (h : Typable m stages) :
    (pipeFilter (pipeWords stages) Globals.init.reset).globals.badRedirectpipe = false := by
  have hcount : (pipeWords stages).zipIdx.countP (feedsPipe (pipeWords stages)) = 0 := by
    rw [List.countP_eq_zero]
    exact List.any_eq_false.1 h.readsFile
  rw [pipeFilter, pipeFilterLoop_badRedirectpipe, pipeFilterLoop_tripped, hcount]
  rfl

/-- The stages in the array are those of the line. -/
theorem stagesOf (h : Typable m stages) : stagesOf (pipeWords stages) Globals.init.reset = stages := by
  have hfirst : ∀ w ∈ (pipeWords stages).head?, isPipeOp w = false := by
    obtain ⟨first, second, rest, hwords, hplain⟩ := h.exists_words
    intro w hw
    rw [hwords, List.head?_cons, Option.mem_some_iff] at hw
    exact hw ▸ hplain.pipeOp
  rw [stagesOf_eq_splitOnP hfirst h.any_isPipeOp rfl (tripped_of_accepted h.accepted), h.splitOnP]

/-- The words are those that were typed. -/
theorem tokens (h : Typable m stages) :
    tokens ([' '].intercalate (pipeWords stages)) = pipeWords stages := by
  obtain ⟨first, second, rest, hwords, -⟩ := h.exists_words
  have hne : pipeWords stages ≠ [] := by
    rw [hwords]
    exact List.cons_ne_nil _ _
  refine tokens_intercalate hne ?_
  intro w hw
  rcases h.word hw with rfl | hw
  · decide
  · exact ⟨hw.ne_nil, hw.space⟩

theorem initArgs (h : Typable m stages) :
    initArgs ([' '].intercalate (pipeWords stages)) false = (pipeWords stages, false) := by
  have hhead : (pipeWords stages).head? ≠ some "daemonize".toList := h.head _ (by simp)
  rw [initArgs_eq, h.tokens, dropDaemonize, if_neg fun hd => hhead hd.2]

/-- They are in the slots of the vector. -/
theorem fillArgs (h : Typable m stages) (junk : ℕ → ℕ → Char) :
    ∃ v count, fillArgs ([' '].intercalate (pipeWords stages))
        (ArgVector.alloc m (getArgumentLength (typedLine stages)) junk) false =
          some (v, count, false) ∧ v.Holds count (pipeWords stages) := by
  have hnul : '\x00' ∉ [' '].intercalate (pipeWords stages) := by
    intro hmem
    rcases mem_intercalate hmem with hsep | ⟨w, hw, hc⟩
    · exact absurd hsep (by decide)
    · rcases h.word hw with rfl | hplain
      · exact absurd hc (by decide)
      · exact hplain.nul hc
  have hlen : (Shell.tokens ([' '].intercalate (pipeWords stages))).length ≤
      getArgumentLength (typedLine stages) := (getArgumentLength_eq _).ge
  have hfill := fillArgs_eq hnul hlen (h.tokens.symm ▸ h.fits) junk
  rwa [h.initArgs] at hfill

/-- The newline ends the line, and the line is none of the single words of `main`. -/
theorem text (h : Typable m stages) :
    (typedLine stages).takeWhile (fun c => c != '\n') = [' '].intercalate (pipeWords stages) ∧
      [' '].intercalate (pipeWords stages) ∉ [[], "exit".toList, "printlist".toList] := by
  constructor
  · refine takeWhile_newline fun hmem => ?_
    rcases mem_intercalate hmem with hsep | ⟨w, hw, hc⟩
    · exact absurd hsep (by decide)
    · rcases h.word hw with rfl | hplain
      · exact absurd hc (by decide)
      · exact hplain.newline hc
  · intro hmem
    -- each of them is one word, and the line has more
    have hone : ∀ text ∈ [[], "exit".toList, "printlist".toList],
        (Shell.initArgs text false).1.length = 1 := by decide
    have hlen := hone _ hmem
    obtain ⟨first, second, rest, hwords, -⟩ := h.exists_words
    rw [h.initArgs, hwords, List.length_cons, List.length_cons] at hlen
    omega

theorem builtin (h : Typable m stages) : builtin (pipeWords stages) = .other (pipeWords stages) false := by
  obtain ⟨first, second, rest, hwords, -⟩ := h.exists_words
  have hcd : first ≠ "cd".toList := by
    rintro rfl
    exact h.head "cd".toList (by simp) (by rw [hwords]; rfl)
  rw [hwords, Shell.builtin, if_neg hcd]

end Typable

/-! ### The way through the shell -/

section Line

variable {m : Allocator} {stages : List (List Word)} {g : Globals}

/-- **The line reaches `pipe_filter`**, after any session that has left no flag raised. -/
theorem handleLine_typedLine (hg : Clean g) (h : Typable m stages) :
    handleLine g (typedLine stages) = handleArgs (pipeWords stages) Globals.init.reset := by
  obtain ⟨htext, hnot⟩ := h.text
  simp only [List.mem_cons, List.not_mem_nil, or_false, not_or] at hnot
  obtain ⟨hnil, hexit, hprint⟩ := hnot
  have hline : typedLine stages ≠ ['\n'] := by
    rintro heq
    rw [heq] at htext
    exact hnil htext.symm
  have hjob : ∀ w ∈ ["fg".toList, "bg".toList], (pipeWords stages).head? ≠ some w := by
    intro w hw
    refine h.head w ?_
    simp only [List.mem_cons, List.not_mem_nil, or_false] at hw ⊢
    tauto
  rw [hg.handleLine_eq hline, handleLine, if_neg hline, htext]
  dsimp only
  rw [if_neg hexit, if_neg hprint, show Globals.init.reset.isDaemon = false from rfl, h.initArgs]
  dsimp only
  rw [h.builtin]
  dsimp only
  rw [handleWords, if_neg h.last, if_neg (hjob _ (by simp)), if_neg (hjob _ (by simp)),
    if_neg Bool.false_ne_true]
  rfl

/-- It is taken for its stages, and the next line is read. -/
theorem dispatch_typedLine (hg : Clean g) (h : Typable m stages) :
    (handleLine g (typedLine stages)).dispatch = .pipeline .pipe stages false false ∧
      ∃ g', lineStep g (typedLine stages) = some g' := by
  have hhandle := handleLine_typedLine hg h
  have haccept := h.accepted
  constructor
  · have hdispatch := dispatch_handleArgs settled_init h.any_isPipeOp haccept
    rw [h.stagesOf, h.readsFile, h.writesFile] at hdispatch
    rw [hhandle]
    refine hdispatch.trans ?_
    rw [show (countPipes (pipeWords stages) Globals.init.reset).pipeType = .pipe from h.pipeType]
  · have hpos : 0 < (pipeFilter (pipeWords stages) Globals.init.reset).globals.pipeCount := by
      rw [pipeFilter, pipeFilterLoop_pipeCount _ _ _ _ _ (tripped_of_accepted haccept)]
      have hcount := List.countP_pos_iff.2 (List.any_eq_true.1 h.any_isPipeOp)
      omega
    rw [lineStep, hhandle, handleArgs]
    dsimp only
    rw [haccept, if_neg Bool.false_ne_true, if_pos hpos]
    split
    · exact ⟨_, rfl⟩
    · exact ⟨_, rfl⟩

/-- It leaves no flag raised. -/
theorem leaks_typedLine (h : Typable m stages) : leaks (typedLine stages) = false := by
  obtain ⟨htext, hnot⟩ := h.text
  simp only [List.mem_cons, List.not_mem_nil, or_false, not_or] at hnot
  have hline : typedLine stages ≠ ['\n'] := by
    intro heq
    rw [heq] at htext
    exact hnot.1 htext.symm
  have hjob : ¬ ((pipeWords stages).head? = some "fg".toList ∨
      (pipeWords stages).head? = some "bg".toList) := by
    rintro (heq | heq)
    · exact h.head _ (by simp) heq
    · exact h.head _ (by simp) heq
  have hcount : (pipeWords stages).zipIdx.countP (feedsPipe (pipeWords stages)) = 0 := by
    rw [List.countP_eq_zero]
    exact List.any_eq_false.1 h.readsFile
  unfold leaks
  dsimp only
  rw [htext, if_neg (not_or.2 ⟨hline, not_or.2 hnot.2⟩), h.initArgs]
  dsimp only
  rw [h.builtin]
  dsimp only
  rw [leaksWords, if_neg h.last, if_neg hjob, if_neg Bool.false_ne_true, multipleInput, hcount]
  rfl

end Line

/-! ### What it prints -/

section Output

variable {m : Allocator} {stages : List (List Word)} {pathLength : ℕ} {env : ForkEnv}

/-- **The processes of the line**, in the order of its stages. -/
theorem runPipeline_typed (h : Typable m stages) :
    runPipeline m pathLength env (pipeWords stages) Globals.init.reset =
      some (stages.mapIdx fun n stage => if env.found pathLength n then some stage else none) := by
  have hcut : cutStages env stages false false = some stages := rfl
  rw [runPipeline_eq settled_init h.any_isPipeOp (tripped_of_accepted h.accepted), h.stagesOf,
    if_pos ⟨h.short, h.room⟩, h.readsFile, h.writesFile,
    show (countPipes (pipeWords stages) Globals.init.reset).pipeType = .pipe from h.pipeType,
    execVectors, hcut]
  dsimp only
  refine congrArg some (List.ext_getElem? fun n => ?_)
  rw [List.getElem?_mapIdx, List.getElem?_mapIdx]
  cases hn : stages[n]? with
  | none => rfl
  | some stage =>
      have hne : stage ≠ [] := h.ne_nil stage (List.mem_of_getElem? hn)
      simp only [Option.map_some, searchPath_eq_execs_iff, ne_eq, hne, not_false_eq_true, true_and]

/-- What the process of a stage runs, when `exec` is given these words; without a program it exits. -/
def stageProg (programs : List Word → Prog) (vector : Option (List Word)) : Prog :=
  vector.elim .exit programs

end Output

/-- Two commands, one of them with an argument. -/
def lsWc : List (List Word) := [["ls".toList, "-l".toList], ["wc".toList]]

/-- `ls -l` writes two bytes, `wc` copies the first byte that it reads. -/
def lsWcPrograms (words : List Word) : Prog := if words.length = 2 then writesTwo else copiesOne

/-- The flags after a program of the current directory was run. -/
def afterLocal : Globals := (run lineStep Globals.init ["./run\n".toList]).get (by decide)

end Shell
