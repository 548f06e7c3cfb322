/-
**MyShell: what one line leaves behind for the next.**

A line should be dispatched as a freshly started shell would dispatch it, whatever was typed before.
Of the flags that a line does not reset at its start, `redirect`, `noinit_cmd` and `lastPipe` are
restored on every path of the loop (`Shell.settled_lineStep`).  The other four are not:
`badRedirectpipe` is never lowered again, and `isBackground`, `ignorePATH` and `is_daemon` are
lowered only on the path that their line usually takes.  `Shell.Leaks` names the lines that leave
one of them raised; a history is harmless exactly when it holds no such line.

Main definitions:

* `Shell.Settled`, `Shell.Clean` — the flags at a prompt, after any history and after a harmless one;
* `Shell.Leaks` — the lines that leave a flag raised;
* `Shell.AsFresh` — every next line is dispatched as in a fresh shell.

Main results:

* `Shell.settled_lineStep` — three flags are restored by every line;
* `Shell.clean_lineStep_iff` — a line keeps the flags clean exactly when it does not leak;
* `Shell.asFresh_iff_clean` — a raised flag shows on the next line;
* `Shell.asFresh_prefixes_iff` — the histories after which the shell is as good as new.
-/

import NetworkProgramming.Runs
import NetworkProgramming.ShellDispatch

set_option relaxedAutoImplicit false
set_option autoImplicit false

namespace Shell

open Runs

/-! ### What `pipe_filter` finds -/

/-- The operator at word `p.2` ends a stage that reads from a file: there is a `<` two words before
it. -/
def feedsPipe (argv : List Word) (p : Word × ℕ) : Bool := isPipeOp p.1 && inputBefore argv p.2

section PipeFilter

variable (argv rest : List Word) (i : ℕ) (g : Globals) (stages : List (List Word))

/-- `pipe_filter` touches none of the flags that the rest of the loop is steered by. -/
theorem pipeFilterLoop_frame :
    (pipeFilterLoop argv rest i g stages).globals.isBackground = g.isBackground ∧
      (pipeFilterLoop argv rest i g stages).globals.redirect = g.redirect ∧
      (pipeFilterLoop argv rest i g stages).globals.ignorePATH = g.ignorePATH ∧
      (pipeFilterLoop argv rest i g stages).globals.isDaemon = g.isDaemon ∧
      (pipeFilterLoop argv rest i g stages).globals.redirectionOutPipe = g.redirectionOutPipe := by
  fun_induction pipeFilterLoop argv rest i g stages with
  | case1 => simp
  | case2 => exact ⟨rfl, rfl, rfl, rfl, rfl⟩
  | case3 _ _ _ _ _ _ _ _ _ ih => exact ih
  | case4 _ _ _ _ _ _ _ ih => exact ih

/-- It trips over the second stage that reads from a file. -/
theorem pipeFilterLoop_tripped :
    (pipeFilterLoop argv rest i g stages).tripped =
      decide (2 ≤ g.redirectionInPipe.toNat + (rest.zipIdx i).countP (feedsPipe argv)) := by
  fun_induction pipeFilterLoop argv rest i g stages with
  | case1 _ g => cases g.redirectionInPipe <;> simp
  | case2 w rest i g stages g' hop hin =>
      rw [Bool.and_eq_true] at hin
      have hfeed : feedsPipe argv (w, i) = true := by simp [feedsPipe, hop, hin.1]
      have hraised : g.redirectionInPipe = true := hin.2
      rw [List.zipIdx_cons, List.countP_cons_of_pos hfeed, hraised, eq_comm, decide_eq_true_iff,
        Bool.toNat_true]
      omega
  | case3 w rest i g stages g' hop hin stage ih =>
      have hfeed : feedsPipe argv (w, i) = inputBefore argv i := by simp [feedsPipe, hop]
      rw [ih, List.zipIdx_cons, List.countP_cons, hfeed]
      -- at most one of the two summands is there, so they add up as they are joined
      cases hb : g.redirectionInPipe <;> cases hi : inputBefore argv i <;> simp_all [g', add_comm]
  | case4 w rest i g stages g' hop ih =>
      have hfeed : ¬ feedsPipe argv (w, i) = true := by simp [feedsPipe, hop]
      rw [ih, List.zipIdx_cons, List.countP_cons_of_neg hfeed]

theorem pipeFilterLoop_badRedirectpipe :
    (pipeFilterLoop argv rest i g stages).globals.badRedirectpipe =
      (g.badRedirectpipe || (pipeFilterLoop argv rest i g stages).tripped) := by
  fun_induction pipeFilterLoop argv rest i g stages with
  | case1 => simp
  | case2 => simp
  | case3 _ _ _ _ _ _ _ _ _ ih => exact ih
  | case4 _ _ _ _ _ _ _ ih => exact ih

theorem pipeFilterLoop_pipeCount (h : (pipeFilterLoop argv rest i g stages).tripped = false) :
    (pipeFilterLoop argv rest i g stages).globals.pipeCount =
      g.pipeCount + rest.countP isPipeOp := by
  fun_induction pipeFilterLoop argv rest i g stages with
  | case1 => simp
  | case2 => cases h
  | case3 w rest i g stages g' hop _ stage ih =>
      rw [ih h, List.countP_cons_of_pos hop]
      exact Nat.add_right_comm ..
  | case4 w rest i g stages g' hop ih => rw [ih h, List.countP_cons_of_neg hop]

end PipeFilter

/-- Without operators `pipe_filter` only counts the words. -/
theorem pipeFilterLoop_of_none {argv : List Word} (rest : List Word)
    (hrest : ∀ w ∈ rest, isPipeOp w = false) (i : ℕ) (g : Globals) (stages : List (List Word)) :
    pipeFilterLoop argv rest i g stages =
      ⟨{ g with pipeargCount := g.pipeargCount + rest.length }, stages, false⟩ := by
  induction rest generalizing i g with
  | nil => rfl
  | cons w rest ih =>
      obtain ⟨hw, hrest⟩ := List.forall_mem_cons.1 hrest
      rw [pipeFilterLoop]
      dsimp only
      rw [hw, if_neg Bool.false_ne_true, ih hrest]
      simp only [List.length_cons, Nat.add_assoc, Nat.add_comm 1]

/-! ### The flags at a prompt -/

/-- The flags that every path of the loop restores. -/
structure Settled (g : Globals) : Prop where
  redirect : g.redirect = false
  noinitCmd : g.noinitCmd = false
  lastPipe : g.lastPipe = 0

/-- The flags of a fresh shell, up to those that a line resets at its start. -/
structure Clean (g : Globals) : Prop extends Settled g where
  isBackground : g.isBackground = false
  badRedirectpipe : g.badRedirectpipe = false
  ignorePATH : g.ignorePATH = false
  isDaemon : g.isDaemon = false

theorem settled_init : Settled Globals.init := ⟨rfl, rfl, rfl⟩

theorem clean_init : Clean Globals.init := ⟨settled_init, rfl, rfl, rfl, rfl⟩

theorem Settled.clean_iff {g : Globals} (h : Settled g) :
    Clean g ↔ g.isBackground = false ∧ g.badRedirectpipe = false ∧ g.ignorePATH = false ∧
      g.isDaemon = false :=
  ⟨fun hc => ⟨hc.isBackground, hc.badRedirectpipe, hc.ignorePATH, hc.isDaemon⟩,
    fun hc => ⟨h, hc.1, hc.2.1, hc.2.2.1, hc.2.2.2⟩⟩

/-- After the resets of the loop, the flags at a prompt differ from those of a fresh shell in at
most four places. -/
theorem Settled.reset_eq {g : Globals} (h : Settled g) :
    g.reset =
      { Globals.init with
        isBackground := g.isBackground
        badRedirectpipe := g.badRedirectpipe
        ignorePATH := g.ignorePATH
        isDaemon := g.isDaemon } := by
  simp [Globals.reset, Globals.init, h.redirect, h.noinitCmd, h.lastPipe]

theorem Clean.reset_eq {g : Globals} (h : Clean g) : g.reset = Globals.init := by
  rw [h.toSettled.reset_eq, h.isBackground, h.badRedirectpipe, h.ignorePATH, h.isDaemon]
  rfl

/-- A line other than an empty one sees only the flags after the resets. -/
theorem handleLine_congr {g h : Globals} {line : List Char} (hline : line ≠ ['\n'])
    (hreset : g.reset = h.reset) : handleLine g line = handleLine h line := by
  simp only [handleLine, if_neg hline, hreset]

theorem Clean.handleLine_eq {g : Globals} (h : Clean g) {line : List Char}
    (hline : line ≠ ['\n']) : handleLine g line = handleLine Globals.init line :=
  handleLine_congr hline h.reset_eq

/-! ### The lines that leave a flag raised -/

/-- The words at which `redirection_with_pipes_and_ipc` stops. -/
def isRedirectionOp (w : Word) : Bool :=
  w = ">".toList || w = ">>".toList || w = "<".toList || w = "##".toList || w = "SS".toList

/-- A word of the line is an operator. -/
def hasOperator (argv : List Word) : Bool := argv.any isPipeOp || argv.any isRedirectionOp

/-- More than one stage of the pipeline has a `<` before its last word. -/
def multipleInput (argv : List Word) : Bool := 2 ≤ argv.zipIdx.countP (feedsPipe argv)

/-- The words, not a builtin's, that leave a flag raised. -/
def leaksWords (argv : List Word) (daemon ignore : Bool) : Bool :=
  if argv.getLast? = some "&".toList then daemon || hasOperator argv.dropLast
  else if argv.head? = some "fg".toList ∨ argv.head? = some "bg".toList then daemon
  else if daemon then ignore
  else multipleInput argv

/-- **The lines that leave a flag raised**: `daemonize` before a builtin, `fg`, `bg`, a background
command or `./name`; `&` behind a line with an operator; several `<` in a pipeline. -/
def leaks (line : List Char) : Bool :=
  let buffer := line.takeWhile fun c => c != '\n'
  if line = ['\n'] ∨ buffer = "exit".toList ∨ buffer = "printlist".toList then false
  else
    let a := initArgs buffer false
    match builtin a.1 with
    | .badDotSlash => a.2
    | .cd _ => a.2
    | .other argv ignore => leaksWords argv a.2 ignore

theorem redirectTo_ne_nothing (kind : Redirection) (cmd target : List Word) :
    redirectTo kind cmd target ≠ .nothing := by
  rw [redirectTo]
  split_ifs <;> nofun

theorem redirectionLoop_eq_nothing_iff (argv rest : List Word) (lastPipe i : ℕ) :
    redirectionLoop argv lastPipe rest i = .nothing ↔ rest.any isRedirectionOp = false := by
  induction rest generalizing i with
  | nil => simp [redirectionLoop]
  | cons w rest ih =>
      rw [List.any_cons]
      cases hop : isRedirectionOp w with
      | true =>
          -- whichever operator it is, something is found
          simp only [redirectionLoop, Bool.true_or, Bool.true_eq_false, iff_false]
          split_ifs <;> simp_all [isRedirectionOp, redirectTo_ne_nothing]
      | false =>
          simp only [isRedirectionOp, Bool.or_eq_false_iff, decide_eq_false_iff_not] at hop
          obtain ⟨⟨⟨⟨h1, h2⟩, h3⟩, h4⟩, h5⟩ := hop
          rw [redirectionLoop, if_neg (not_or.2 ⟨h1, h2⟩), if_neg h3, if_neg h4, if_neg h5, ih,
            Bool.false_or]

theorem hasOperator_of_multipleInput {argv : List Word} (h : multipleInput argv = true) :
    hasOperator argv = true := by
  have hpos : 0 < argv.zipIdx.countP (feedsPipe argv) := by
    have h2 : 2 ≤ argv.zipIdx.countP (feedsPipe argv) := by simpa [multipleInput] using h
    omega
  obtain ⟨⟨w, i⟩, hmem, hfeed⟩ := List.countP_pos_iff.1 hpos
  have hop : isPipeOp w = true := (Bool.and_eq_true _ _ ▸ hfeed).1
  have hany : argv.any isPipeOp = true :=
    List.any_eq_true.2 ⟨w, (List.mem_zipIdx' hmem).2 ▸ List.getElem_mem _, hop⟩
  simp [hasOperator, hany]

/-- Only `./name` alone raises `ignorePATH`. -/
theorem builtin_ignorePATH {argv argv' : List Word} (h : builtin argv = .other argv' true) :
    ∃ rest, argv' = ['/' :: rest] := by
  unfold builtin at h
  split at h
  · split at h
    · cases h
    · injection h with h
      exact ⟨_, h.symm⟩
  · split at h <;> cases h
  · cases h

/-! ### What a line leaves behind -/

section HandleArgs

variable {argv : List Word} {g g' : Globals}

theorem settled_handleFound (hredirect : g.redirect = false)
    (h : (handleFound argv g).next = some g') : Settled g' := by
  unfold handleFound at h
  split at h
  · rw [if_neg (by simp [hredirect])] at h
    split_ifs at h
    rw [← Option.some_inj.1 h]
    exact ⟨hredirect, rfl, rfl⟩
  case h_4 =>
    cases h
  all_goals
    rw [← Option.some_inj.1 h]
    exact ⟨rfl, rfl, rfl⟩

/-- Without an operator the command is run and the flags of the line are lowered; with one they stay
as they are. -/
theorem flags_handleFound (hredirect : g.redirect = false)
    (h : (handleFound argv g).next = some g') :
    g'.isDaemon = g.isDaemon ∧ g'.badRedirectpipe = g.badRedirectpipe ∧
      g'.isBackground = (g.isBackground && argv.any isRedirectionOp) ∧
      g'.ignorePATH = (g.ignorePATH && argv.any isRedirectionOp) := by
  have hiff := redirectionLoop_eq_nothing_iff argv argv g.lastPipe 0
  cases hfound : redirectionWithPipesAndIpc argv g with
  | nothing =>
      have hnone : argv.any isRedirectionOp = false := hiff.1 hfound
      simp only [handleFound, hfound, hredirect, Bool.false_eq_true, if_false] at h
      split_ifs at h
      rw [← Option.some_inj.1 h, hnone]
      simp [Globals.continued]
  | sixthWord =>
      simp only [handleFound, hfound] at h
      cases h
  | _ =>
      have hsome : argv.any isRedirectionOp = true := by
        rw [← Bool.not_eq_false, ← hiff]
        exact fun hc => by cases hfound.symm.trans hc
      simp only [handleFound, hfound] at h
      rw [← Option.some_inj.1 h, hsome]
      simp [Globals.continued]

theorem settled_handleArgs (hredirect : g.redirect = false)
    (h : (handleArgs argv g).next = some g') : Settled g' := by
  have hframe := pipeFilterLoop_frame argv argv 0 (countPipes argv g) []
  have hf : (pipeFilter argv g).globals.redirect = false := hframe.2.1.trans hredirect
  by_cases hbad : (pipeFilter argv g).globals.badRedirectpipe = true
  · simp only [handleArgs, hbad, if_true] at h
    rw [← Option.some_inj.1 h]
    exact ⟨hf, rfl, rfl⟩
  · by_cases hpipe : 0 < (pipeFilter argv g).globals.pipeCount
    · simp only [handleArgs, hbad, hpipe, if_true, outputRedirection] at h
      split_ifs at h <;>
      · rw [← Option.some_inj.1 h]
        exact ⟨hf, rfl, rfl⟩
    · simp only [handleArgs, hbad, hpipe, if_false] at h
      exact settled_handleFound hf h

/-- What is left of the flags of a line that came to `pipe_filter` with the other flags reset. -/
theorem flags_handleArgs (hredirect : g.redirect = false) (hbad : g.badRedirectpipe = false)
    (hcount : g.pipeCount = 0) (hin : g.redirectionInPipe = false)
    (hout : g.redirectionOutPipe = false) (h : (handleArgs argv g).next = some g') :
    g'.isDaemon = g.isDaemon ∧ g'.badRedirectpipe = multipleInput argv ∧
      g'.isBackground = (g.isBackground && hasOperator argv) ∧
      g'.ignorePATH = (g.ignorePATH && hasOperator argv) := by
  obtain ⟨fbg, fred, fign, fdae, fout⟩ := pipeFilterLoop_frame argv argv 0 (countPipes argv g) []
  have ftrip : (pipeFilter argv g).tripped = multipleInput argv := by
    rw [pipeFilter, pipeFilterLoop_tripped]
    simp [countPipes, hin, multipleInput]
  have fbad : (pipeFilter argv g).globals.badRedirectpipe = multipleInput argv := by
    rw [← ftrip, pipeFilter, pipeFilterLoop_badRedirectpipe]
    simp [countPipes, hbad]
  rw [← pipeFilter] at fbg fred fign fdae fout
  cases htrip : multipleInput argv with
  | true =>
      rw [htrip] at fbad
      simp only [handleArgs, fbad, if_true] at h
      rw [← Option.some_inj.1 h, hasOperator_of_multipleInput htrip]
      simp [Globals.continued, fbg, fign, fdae, fbad, countPipes]
  | false =>
      rw [htrip] at fbad ftrip
      have fcount : (pipeFilter argv g).globals.pipeCount = argv.countP isPipeOp := by
        rw [pipeFilter, pipeFilterLoop_pipeCount _ _ _ _ _ ftrip]
        simp [countPipes, hcount]
      cases hop : argv.any isPipeOp with
      | true =>
          have hpos : 0 < (pipeFilter argv g).globals.pipeCount := by
            rw [fcount, List.countP_pos_iff]
            simpa using hop
          have fout' : (pipeFilter argv g).globals.redirectionOutPipe = false := fout.trans hout
          simp only [handleArgs, fbad, Bool.false_eq_true, if_false, hpos, if_true,
            outputRedirection, fout'] at h
          split_ifs at h <;>
          · rw [← Option.some_inj.1 h]
            simp [Globals.continued, fbg, fign, fdae, fbad, countPipes, hasOperator, hop]
      | false =>
          have hzero : ¬ 0 < (pipeFilter argv g).globals.pipeCount := by
            rw [fcount, List.countP_pos_iff]
            simpa using hop
          simp only [handleArgs, fbad, Bool.false_eq_true, if_false, hzero] at h
          have hfound := flags_handleFound (fred.trans hredirect) h
          rw [fbg, fign, fdae, fbad] at hfound
          simpa [hasOperator, hop, countPipes] using hfound

/-- `fg` and `bg` lower `isBackground` and touch nothing else. -/
theorem next_handleWords_job (hamp : argv.getLast? ≠ some "&".toList)
    (hjob : argv.head? = some "fg".toList ∨ argv.head? = some "bg".toList)
    (h : (handleWords argv g).next = some g') : g' = { g with isBackground := false } := by
  rw [handleWords, if_neg hamp] at h
  split_ifs at h with hfg hbg
  · split at h
    · cases h
    · exact (Option.some_inj.1 h).symm
  · split at h
    · cases h
    · exact (Option.some_inj.1 h).symm
  · exact absurd hjob (not_or.2 ⟨hfg, hbg⟩)
  · exact absurd hjob (not_or.2 ⟨hfg, hbg⟩)

theorem settled_handleWords (hs : Settled g) (h : (handleWords argv g).next = some g') :
    Settled g' := by
  by_cases hamp : argv.getLast? = some "&".toList
  · rw [handleWords, if_pos hamp] at h
    refine settled_handleArgs ?_ h
    exact hs.redirect
  · by_cases hjob : argv.head? = some "fg".toList ∨ argv.head? = some "bg".toList
    · rw [next_handleWords_job hamp hjob h]
      exact ⟨hs.redirect, hs.noinitCmd, hs.lastPipe⟩
    · rw [handleWords, if_neg hamp, if_neg (not_or.1 hjob).1, if_neg (not_or.1 hjob).2] at h
      split_ifs at h
      · rw [← Option.some_inj.1 h]
        exact ⟨hs.redirect, hs.noinitCmd, hs.lastPipe⟩
      · exact settled_handleArgs hs.redirect h

end HandleArgs

/-- **`redirect`, `noinit_cmd` and `lastPipe` are restored by every line.** -/
theorem settled_lineStep {g g' : Globals} {line : List Char} (hs : Settled g)
    (h : lineStep g line = some g') : Settled g' := by
  unfold lineStep handleLine at h
  dsimp only at h
  split_ifs at h
  · rw [← Option.some_inj.1 h]
    exact ⟨hs.redirect, hs.noinitCmd, hs.lastPipe⟩
  · rw [← Option.some_inj.1 h]
    exact ⟨hs.redirect, hs.noinitCmd, hs.lastPipe⟩
  · split at h
    · rw [← Option.some_inj.1 h]
      exact ⟨hs.redirect, hs.noinitCmd, hs.lastPipe⟩
    · rw [← Option.some_inj.1 h]
      exact ⟨hs.redirect, hs.noinitCmd, hs.lastPipe⟩
    · refine settled_handleWords ?_ h
      exact ⟨hs.redirect, hs.noinitCmd, hs.lastPipe⟩

/-- The step of `clean_lineStep_iff` from the test for `&` on. -/
theorem clean_handleWords_iff {argv : List Word} {daemon ignore : Bool} {g' : Globals}
    (hignore : ignore = true → ∃ rest, argv = ['/' :: rest])
    (h : (handleWords argv { Globals.init with isDaemon := daemon, ignorePATH := ignore }).next =
      some g') : Clean g' ↔ leaksWords argv daemon ignore = false := by
  have hs : Settled g' := settled_handleWords ⟨rfl, rfl, rfl⟩ h
  rw [hs.clean_iff]
  unfold leaksWords
  by_cases hamp : argv.getLast? = some "&".toList
  · rw [handleWords, if_pos hamp] at h
    rw [if_pos hamp]
    obtain ⟨hd, hb, hbg, hi⟩ := flags_handleArgs rfl rfl rfl rfl rfl h
    rw [hd, hb, hbg, hi]
    cases hop : hasOperator argv.dropLast with
    | true => simp
    | false =>
        have hnot : multipleInput argv.dropLast = false :=
          Bool.eq_false_iff.2 fun hm => by simp [hasOperator_of_multipleInput hm] at hop
        simp [hnot]
  rw [if_neg hamp]
  by_cases hfg : argv.head? = some "fg".toList ∨ argv.head? = some "bg".toList
  · have hig : ignore = false := Bool.eq_false_iff.2 fun hc => by
      obtain ⟨rest, rfl⟩ := hignore hc
      simp at hfg
    rw [if_pos hfg, next_handleWords_job hamp hfg h, hig]
    simp [Globals.init]
  · rw [handleWords, if_neg hamp, if_neg (not_or.1 hfg).1, if_neg (not_or.1 hfg).2] at h
    rw [if_neg hfg]
    cases daemon with
    | true =>
        rw [if_pos rfl] at h ⊢
        rw [← Option.some_inj.1 h]
        simp [Globals.init]
    | false =>
        simp only [Bool.false_eq_true, if_false] at h ⊢
        obtain ⟨hd, hb, hbg, hi⟩ := flags_handleArgs rfl rfl rfl rfl rfl h
        have hkeep : (ignore && hasOperator argv) = false := by
          cases ignore with
          | false => rfl
          | true =>
              -- a word that starts with a slash is no operator
              obtain ⟨rest, rfl⟩ := hignore rfl
              simp [hasOperator, isPipeOp, isRedirectionOp]
        rw [hd, hb, hbg, hi, hkeep]
        simp [Globals.init]

/-- **A line keeps the flags clean exactly when it does not leak.** -/
theorem clean_lineStep_iff {g g' : Globals} {line : List Char} (hg : Clean g)
    (h : lineStep g line = some g') : Clean g' ↔ leaks line = false := by
  have hs := settled_lineStep hg.toSettled h
  by_cases hline : line = ['\n']
  · have hleaks : leaks line = false := by simp [leaks, hline]
    simp only [lineStep, handleLine, if_pos hline, Option.some_inj] at h
    simp only [hleaks, iff_true, ← h]
    exact ⟨⟨hg.redirect, hg.noinitCmd, hg.lastPipe⟩, hg.isBackground, hg.badRedirectpipe,
      hg.ignorePATH, hg.isDaemon⟩
  · rw [lineStep, hg.handleLine_eq hline] at h
    simp only [handleLine, if_neg hline] at h
    unfold leaks
    dsimp only
    split_ifs at h with hexit hprint
    · rw [if_pos (Or.inr (Or.inr hprint))]
      simp only [iff_true, ← Option.some_inj.1 h]
      exact clean_init
    · rw [if_neg (not_or.2 ⟨hline, not_or.2 ⟨hexit, hprint⟩⟩)]
      rw [show Globals.init.reset.isDaemon = false from rfl] at h
      cases hb : builtin (initArgs (line.takeWhile fun c => c != '\n') false).1 with
      | badDotSlash =>
          simp only [hb] at h
          rw [hs.clean_iff, ← Option.some_inj.1 h]
          simp [Globals.reset, Globals.init]
      | cd dir =>
          simp only [hb] at h
          rw [hs.clean_iff, ← Option.some_inj.1 h]
          simp [Globals.reset, Globals.init]
      | other argv ignore =>
          simp only [hb] at h
          exact clean_handleWords_iff (fun hi => builtin_ignorePATH (hi ▸ hb)) h

/-! ### Histories -/

/-- Every next line is dispatched as a freshly started shell dispatches it. -/
def AsFresh (g : Globals) : Prop :=
  ∀ line, (handleLine g line).dispatch = (handleLine Globals.init line).dispatch

/-- What becomes of a line with a single word that means nothing to the shell. -/
theorem dispatch_probe {g : Globals} (h : Settled g) :
    (handleLine g "a\n".toList).dispatch =
      if g.isDaemon then .daemon ["a".toList]
      else if g.badRedirectpipe then .rejected .silent
      else .external ["a".toList] g.isBackground g.ignorePATH := by
  have hreset : ({ Globals.init with
      isBackground := g.isBackground
      badRedirectpipe := g.badRedirectpipe
      ignorePATH := g.ignorePATH
      isDaemon := g.isDaemon } : Globals).reset = g.reset := by rw [h.reset_eq]; rfl
  rw [← handleLine_congr (by decide) hreset]
  generalize g.isBackground = b, g.badRedirectpipe = r, g.ignorePATH = i, g.isDaemon = d
  revert b r i d
  decide

/-- **A raised flag shows on the next line.** -/
theorem asFresh_iff_clean {g : Globals} (h : Settled g) : AsFresh g ↔ Clean g := by
  constructor
  · intro hfresh
    have hprobe := hfresh "a\n".toList
    rw [dispatch_probe h, dispatch_probe settled_init, h.clean_iff] at *
    cases hd : g.isDaemon <;> cases hr : g.badRedirectpipe <;>
      simp_all [Globals.init]
  · intro hclean line
    by_cases hline : line = ['\n']
    · simp [handleLine, hline]
    · rw [hclean.handleLine_eq hline]

/-- The result below, from any prompt with clean flags. -/
theorem asFresh_run_iff {history : List (List Char)} {g₀ g : Globals} (h₀ : Clean g₀)
    (hrun : run lineStep g₀ history = some g) :
    (∀ before g', before <+: history → run lineStep g₀ before = some g' → AsFresh g') ↔
      ∀ line ∈ history, leaks line = false := by
  induction history generalizing g₀ with
  | nil =>
      constructor
      · intro _ line hmem
        cases hmem
      · intro _ before g' hpre hbefore
        obtain rfl := List.prefix_nil.1 hpre
        obtain rfl : g₀ = g' := Option.some_inj.1 hbefore
        exact (asFresh_iff_clean h₀.toSettled).2 h₀
  | cons line history ih =>
      obtain ⟨u, hu, hrest⟩ := run_cons_eq_some.1 hrun
      have hs : Settled u := settled_lineStep h₀.toSettled hu
      have hclean : Clean u ↔ leaks line = false := clean_lineStep_iff h₀ hu
      rw [List.forall_mem_cons, ← hclean]
      constructor
      · intro hfresh
        -- the flags after the first line must be clean, or its successor would show it
        have hu' : Clean u := (asFresh_iff_clean hs).1
          (hfresh [line] u ⟨history, rfl⟩ (run_cons_eq_some.2 ⟨u, hu, rfl⟩))
        refine ⟨hu', (ih hu' hrest).1 ?_⟩
        intro before g' hpre hbefore
        exact hfresh (line :: before) g' (List.cons_prefix_cons.2 ⟨rfl, hpre⟩)
          (run_cons_eq_some.2 ⟨u, hu, hbefore⟩)
      · rintro ⟨hu', hmem⟩ before g' hpre hbefore
        cases before with
        | nil =>
            obtain rfl : g₀ = g' := Option.some_inj.1 hbefore
            exact (asFresh_iff_clean h₀.toSettled).2 h₀
        | cons l before =>
            obtain ⟨rfl, hpre'⟩ := List.cons_prefix_cons.1 hpre
            obtain ⟨v, hv, hbefore'⟩ := run_cons_eq_some.1 hbefore
            obtain rfl : u = v := Option.some_inj.1 (hu.symm.trans hv)
            exact (ih hu' hrest).2 hmem before g' hpre' hbefore'

/-- **The histories after which the shell is as good as new**: from prompt to prompt, every line is
dispatched as in a fresh shell exactly when no line of the history leaves a flag raised. -/
theorem asFresh_prefixes_iff {history : List (List Char)} {g : Globals}
    (hrun : run lineStep Globals.init history = some g) :
    (∀ before g', before <+: history → run lineStep Globals.init before = some g' → AsFresh g') ↔
      ∀ line ∈ history, leaks line = false :=
  asFresh_run_iff clean_init hrun

/-- A session with a background job, a pipeline into a file, a daemon and a local program. -/
def session : List (List Char) :=
  ["sleep 5 &\n".toList, "ls -l | wc > out\n".toList, "daemonize top\n".toList, "\n".toList,
    "./run\n".toList, "cat < in | sort\n".toList]

/-- The flags at the end of the session. -/
def sessionEnd : Globals := (run lineStep Globals.init session).get (by decide)

theorem asFresh_prefixes_session :
    (∀ line ∈ session, leaks line = false) ∧
      ∀ before g', before <+: session → run lineStep Globals.init before = some g' →
        AsFresh g' := by
  have hsession : ∀ line ∈ session, leaks line = false := by decide
  exact ⟨hsession, (asFresh_prefixes_iff (g := sessionEnd) (Option.some_get _).symm).2 hsession⟩

/-- After one pipeline with several `<`, every command of the session is refused. -/
theorem not_asFresh_of_multipleInput :
    ¬ ∀ (history : List (List Char)) (g : Globals),
      run lineStep Globals.init history = some g → AsFresh g := by
  intro hall
  have hfresh := hall ["a < f | b < g | c\n".toList] _ rfl "ls\n".toList
  revert hfresh
  decide

end Shell
