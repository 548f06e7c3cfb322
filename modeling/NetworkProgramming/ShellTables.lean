/-
**MyShell: the sizes of the parse tables.**

`pipe_filter`, `output_redirection` and `redirection_with_pipes_and_ipc` copy the words of a line
into tables of fixed sizes and never compare an index with a size.  This module lists the elements
that they write, in their order, and says for which lines all of them are inside.

Main definitions:

* `Shell.ParseTable`, `Shell.SlotWrite` — the tables, and one write to one of them;
* `Shell.SlotWrite.Fits` — the slot exists, and has a buffer when a string is copied to it;
* `Shell.pipeFilterWrites`, `Shell.outputRedirectionWrites`, `Shell.redirectionWrites`,
  `Shell.lineWrites` — the writes of the functions, and of a whole line;
* `Shell.stageLength`, `Shell.LineFits` — the condition on the line.

Main results:

* `Shell.fits_pipeFilterWrites_iff` — the stages before the last;
* `Shell.fits_redirectionWrites_iff` — redirections and fan-outs;
* `Shell.fits_lineWrites_iff` — **every write is inside exactly when the line is short enough**.
-/

import NetworkProgramming.ShellHistory

set_option relaxedAutoImplicit false
set_option autoImplicit false

namespace Shell

/-! ### The tables -/

/-- The tables that a line is cut into. -/
inductive ParseTable
  | commands
  | redirectcmd1
  | redirectcmd2
  | msgOutputs
  | shmOutputs
  | array
  deriving DecidableEq

/-- The slots of a row. -/
def ParseTable.slots : ParseTable → ℕ
  | .commands => 20
  | .redirectcmd1 => 50
  | .redirectcmd2 => 50
  | .msgOutputs => 5
  | .shmOutputs => 5
  | .array => 1

/-- The slots of a row that are initialised with a buffer.  `array` holds numbers. -/
def ParseTable.buffers : ParseTable → ℕ
  | .commands => 20
  | .redirectcmd1 => 5
  | .redirectcmd2 => 5
  | .msgOutputs => 5
  | .shmOutputs => 5
  | .array => 0

/-- The rows, when the line has `counter` pipe operators. -/
def ParseTable.rows (counter : ℕ) : ParseTable → ℕ
  | .commands => counter + 2
  | .msgOutputs => 20
  | .shmOutputs => 20
  | _ => 1

/-- A write to a slot; `copies` if a string is copied to it. -/
structure SlotWrite where
  table : ParseTable
  row : ℕ
  col : ℕ
  copies : Bool
  deriving DecidableEq

/-- **The slot is there**, and has a buffer if a string is copied. -/
def SlotWrite.Fits (counter : ℕ) (w : SlotWrite) : Prop :=
  w.row < w.table.rows counter ∧ w.col < w.table.slots ∧
    (w.copies = true → w.col < w.table.buffers)

instance (counter : ℕ) (w : SlotWrite) : Decidable (w.Fits counter) :=
  inferInstanceAs (Decidable (_ ∧ _ ∧ _))

/-! ### The writes of the source -/

/-- `n` strings are copied to the slots of a row, from the first on, and the slot behind them is
set to null. -/
def rowWrites (table : ParseTable) (row n : ℕ) : List SlotWrite :=
  (List.range n).map (fun a => ⟨table, row, a, true⟩) ++ [⟨table, row, n, false⟩]

/-- The loop of `pipe_filter`, at word `i` with `rest` ahead of it. -/
def pipeFilterWrites (argv : List Word) : List Word → ℕ → Globals → List SlotWrite
  | [], _, _ => []
  | w :: rest, i, g =>
      if isPipeOp w then
        if inputBefore argv i && g.redirectionInPipe then []
        else
          -- the first stage starts at the first word, a later one after the last operator
          rowWrites .commands g.pipeCount (i - if g.lastPipe = 0 then 0 else g.lastPipe + 1) ++
            pipeFilterWrites argv rest (i + 1)
              { g with
                redirectionInPipe := g.redirectionInPipe || inputBefore argv i
                lastPipe := i
                pipeCount := g.pipeCount + 1 }
      else pipeFilterWrites argv rest (i + 1) g

/-- The splitting part of `output_redirection`.  The last write goes to the row that is released
just before; its slots are counted as the others. -/
def outputRedirectionWrites (argv : List Word) (g : Globals) : List SlotWrite :=
  ((List.range' (g.lastPipe + 1) (argv.length - (g.lastPipe + 1))).filter
      fun a => !(argv[a]?).any isPipeOp).map
    (fun a => ⟨.commands, g.pipeCount, a - g.lastPipe - 1, true⟩) ++
    [⟨.commands, g.pipeCount, argv.length - g.lastPipe - 1, false⟩,
      ⟨.commands, g.pipeCount + 1, argv.length, false⟩]

/-- The loop over the words of a fan-out, at slot `l` of row `k`.  `##` and `SS` store different
numbers in `array`, at the same indices. -/
def fanOutWrites (table : ParseTable) : List Word → ℕ → ℕ → List SlotWrite
  | [], _, _ => []
  | w :: rest, k, l =>
      if w = ",".toList then
        -- `array[k]` is set before and after `k` is raised
        [⟨table, k, l, false⟩, ⟨.array, 0, k, false⟩, ⟨.array, 0, k + 1, false⟩] ++
          fanOutWrites table rest (k + 1) 0
      else
        ⟨table, k, l, true⟩ :: ((if rest = [] then [⟨table, k, l + 1, false⟩] else []) ++
          ⟨.array, 0, k, false⟩ :: fanOutWrites table rest k (l + 1))

/-- The loop of `redirection_with_pipes_and_ipc`, at word `i`. -/
def redirectionWrites (lastPipe : ℕ) : List Word → ℕ → List SlotWrite
  | [], _ => []
  | w :: rest, i =>
      if w = ">".toList ∨ w = ">>".toList then
        if i ≤ lastPipe then []
        else rowWrites .redirectcmd1 0 (i - if 0 < lastPipe then lastPipe + 1 else 0) ++
          rowWrites .redirectcmd2 0 rest.length
      else if w = "<".toList then
        rowWrites .redirectcmd1 0 i ++ rowWrites .redirectcmd2 0 rest.length
      else if w = "##".toList then fanOutWrites .msgOutputs rest 0 0
      else if w = "SS".toList then fanOutWrites .shmOutputs rest 0 0
      else redirectionWrites lastPipe rest (i + 1)

/-- **The writes of a line**, along `Shell.handleArgs`. -/
def lineWrites (argv : List Word) (g : Globals) : List SlotWrite :=
  let f := pipeFilter argv g
  pipeFilterWrites argv argv 0 (countPipes argv g) ++
    if f.globals.badRedirectpipe then []
    else if 0 < f.globals.pipeCount then outputRedirectionWrites argv f.globals
    else redirectionWrites f.globals.lastPipe argv 0

/-! ### The condition on the line -/

/-- The last pipe operator before word `i`, or `0`. -/
def lastOpBefore (argv : List Word) : ℕ → ℕ
  | 0 => 0
  | i + 1 => if (argv[i]?).any isPipeOp then i else lastOpBefore argv i

/-- The words that `pipe_filter` copies for the stage that ends at word `i`.  An operator that is
the first word counts as a word of the next stage. -/
def stageLength (argv : List Word) (i : ℕ) : ℕ :=
  i - if lastOpBefore argv i = 0 then 0 else lastOpBefore argv i + 1

/-- Two operators up to word `i` end a stage that reads from a file. -/
def feedsTwice (argv : List Word) (i : ℕ) : Prop :=
  2 ≤ (argv.zipIdx.take i).countP (feedsPipe argv)

instance (argv : List Word) (i : ℕ) : Decidable (feedsTwice argv i) :=
  inferInstanceAs (Decidable (_ ≤ _))

/-- The words around the first operator of a line without pipes. -/
def RedirectionFits : List Word → ℕ → Prop
  | [], _ => True
  | w :: rest, i =>
      if w = ">".toList ∨ w = ">>".toList then i = 0 ∨ (i ≤ 5 ∧ rest.length ≤ 5)
      else if w = "<".toList then i ≤ 5 ∧ rest.length ≤ 5
      else if w = "##".toList ∨ w = "SS".toList then ",".toList ∉ rest ∧ rest.length ≤ 4
      else RedirectionFits rest (i + 1)

/-- **The line is short enough.** -/
def LineFits (argv : List Word) (g : Globals) : Prop :=
  if argv.any isPipeOp then
    if g.badRedirectpipe = true ∨ feedsTwice argv argv.length then
      ∀ i < argv.length, (argv[i]?).any isPipeOp = true → ¬ feedsTwice argv (i + 1) →
        stageLength argv i < 20
    else argv.length < 20
  else g.badRedirectpipe = true ∨ RedirectionFits argv 0

/-! ### Rows and fan-outs -/

section Rows

variable {counter : ℕ} {argv : List Word}

/-- The copies need a buffer each, and the null a slot. -/
theorem fits_rowWrites_iff (table : ParseTable) (row n : ℕ) :
    (∀ w ∈ rowWrites table row n, w.Fits counter) ↔
      row < table.rows counter ∧ n < table.slots ∧ n ≤ table.buffers := by
  have hmem : ∀ w, w ∈ rowWrites table row n ↔
      (∃ a < n, w = ⟨table, row, a, true⟩) ∨ w = ⟨table, row, n, false⟩ := by
    intro w
    simp [rowWrites, eq_comm]
  constructor
  · intro h
    obtain ⟨hrow, hslot, -⟩ := h ⟨table, row, n, false⟩ ((hmem _).2 (Or.inr rfl))
    refine ⟨hrow, hslot, ?_⟩
    rcases Nat.eq_zero_or_pos n with rfl | hpos
    · exact Nat.zero_le _
    · obtain ⟨-, -, hbuf⟩ := h ⟨table, row, n - 1, true⟩
        ((hmem _).2 (Or.inl ⟨n - 1, by omega, rfl⟩))
      have hlt : n - 1 < table.buffers := hbuf rfl
      omega
  · rintro ⟨hrow, hslot, hbuf⟩ w hw
    rcases (hmem w).1 hw with ⟨a, ha, rfl⟩ | rfl
    · exact ⟨hrow, ha.trans hslot, fun _ => lt_of_lt_of_le ha hbuf⟩
    · exact ⟨hrow, hslot, fun h => absurd h Bool.false_ne_true⟩

/-- A fan-out has room for four words behind the operator, and for no comma: `array` has one slot. -/
theorem fits_fanOutWrites_iff {table : ParseTable}
    (htable : table = .msgOutputs ∨ table = .shmOutputs) (rest : List Word) (l : ℕ)
    (hl : l ≤ 4 ∨ rest ≠ []) :
    (∀ w ∈ fanOutWrites table rest 0 l, w.Fits counter) ↔
      ",".toList ∉ rest ∧ l + rest.length ≤ 4 := by
  have hsize : table.rows counter = 20 ∧ table.slots = 5 ∧ table.buffers = 5 := by
    rcases htable with rfl | rfl <;> exact ⟨rfl, rfl, rfl⟩
  obtain ⟨hrows, hslots, hbuffers⟩ := hsize
  induction rest generalizing l with
  | nil =>
      have hl' : l ≤ 4 := hl.resolve_right (fun h => h rfl)
      simp [fanOutWrites, hl']
  | cons w rest ih =>
      rw [fanOutWrites]
      by_cases hw : w = ",".toList
      · rw [if_pos hw]
        refine iff_of_false ?_ (by simp [hw])
        intro h
        obtain ⟨-, hcol, -⟩ := h ⟨.array, 0, 0 + 1, false⟩ (by simp)
        exact absurd hcol (by decide)
      · rw [if_neg hw, List.mem_cons, not_or, and_iff_right (Ne.symm hw), List.length_cons]
        have harray : SlotWrite.Fits counter ⟨.array, 0, 0, false⟩ :=
          ⟨Nat.one_pos, Nat.one_pos, fun h => absurd h Bool.false_ne_true⟩
        have hcopy : SlotWrite.Fits counter ⟨table, 0, l, true⟩ ↔ l < 5 := by
          simp [SlotWrite.Fits, hrows, hslots, hbuffers]
        have hnull : SlotWrite.Fits counter ⟨table, 0, l + 1, false⟩ ↔ l + 1 < 5 := by
          simp [SlotWrite.Fits, hrows, hslots]
        by_cases hrest : rest = []
        · subst hrest
          simp only [if_true, List.singleton_append, List.forall_mem_cons, fanOutWrites, hcopy,
            hnull, harray, List.not_mem_nil, not_false_eq_true, true_and, List.length_nil]
          simp only [false_implies, implies_true, and_true]
          omega
        · simp only [if_neg hrest, List.nil_append, List.forall_mem_cons, hcopy, harray, true_and,
            ih (l + 1) (Or.inr hrest)]
          constructor
          · rintro ⟨-, hcomma, hlen⟩
            exact ⟨hcomma, by omega⟩
          · rintro ⟨hcomma, hlen⟩
            exact ⟨by omega, hcomma, by omega⟩

/-- **Redirections and fan-outs**, on a line without pipes. -/
theorem fits_redirectionWrites_iff (rest : List Word) (i : ℕ) :
    (∀ w ∈ redirectionWrites 0 rest i, w.Fits counter) ↔ RedirectionFits rest i := by
  have hsides : ∀ (a b : ℕ),
      (∀ w ∈ rowWrites .redirectcmd1 0 a ++ rowWrites .redirectcmd2 0 b, w.Fits counter) ↔
        a ≤ 5 ∧ b ≤ 5 := by
    intro a b
    rw [List.forall_mem_append, fits_rowWrites_iff, fits_rowWrites_iff]
    simp only [ParseTable.rows, ParseTable.slots, ParseTable.buffers]
    omega
  induction rest generalizing i with
  | nil => simp [redirectionWrites, RedirectionFits]
  | cons w rest ih =>
      rw [redirectionWrites, RedirectionFits]
      by_cases hout : w = ">".toList ∨ w = ">>".toList
      · rw [if_pos hout, if_pos hout]
        by_cases hi : i = 0
        · simp [hi]
        · rw [if_neg (by omega), if_neg (lt_irrefl 0), Nat.sub_zero, hsides, or_iff_right hi]
      · rw [if_neg hout, if_neg hout]
        by_cases hin : w = "<".toList
        · rw [if_pos hin, if_pos hin, hsides]
        · rw [if_neg hin, if_neg hin]
          by_cases hmsg : w = "##".toList
          · rw [if_pos hmsg, if_pos (Or.inl hmsg),
              fits_fanOutWrites_iff (Or.inl rfl) rest 0 (Or.inl (Nat.zero_le _)), Nat.zero_add]
          · by_cases hshm : w = "SS".toList
            · rw [if_neg hmsg, if_pos hshm, if_pos (Or.inr hshm),
                fits_fanOutWrites_iff (Or.inr rfl) rest 0 (Or.inl (Nat.zero_le _)), Nat.zero_add]
            · rw [if_neg hmsg, if_neg hshm, if_neg (not_or.2 ⟨hmsg, hshm⟩)]
              exact ih (i + 1)

end Rows

/-! ### The stages before the last -/

section Stages

variable {argv : List Word}

theorem take_zipIdx_succ {i : ℕ} {w : Word} (hw : argv[i]? = some w) :
    argv.zipIdx.take (i + 1) = argv.zipIdx.take i ++ [(w, i)] := by
  rw [List.take_add_one, List.getElem?_zipIdx, hw]
  simp

theorem feedsTwice_mono {i j : ℕ} (hij : i ≤ j) (h : feedsTwice argv i) : feedsTwice argv j :=
  le_trans h ((List.take_sublist_take_left hij).countP_le)

/-- The stages that end at word `i` or later, up to the one at which the loop stops, have room in a
row. -/
def StagesFit (argv : List Word) (i : ℕ) : Prop :=
  ∀ j, i ≤ j → j < argv.length → (argv[j]?).any isPipeOp = true → ¬ feedsTwice argv (j + 1) →
    stageLength argv j < 20

theorem stagesFit_of_le {i : ℕ} (h : argv.length ≤ i) : StagesFit argv i := by
  intro j hij hj
  omega

/-- When the loop stops, nothing behind the word is looked at. -/
theorem stagesFit_of_feedsTwice {i : ℕ} (h : feedsTwice argv (i + 1)) : StagesFit argv i := by
  intro j hij _ _ hnot
  exact absurd (feedsTwice_mono (by omega) h) hnot

/-- The word at `i`, and the words behind it. -/
theorem stagesFit_iff_succ {i : ℕ} {w : Word} (hw : argv[i]? = some w) :
    StagesFit argv i ↔
      (isPipeOp w = true → ¬ feedsTwice argv (i + 1) → stageLength argv i < 20) ∧
        StagesFit argv (i + 1) := by
  have hi : i < argv.length := (List.getElem?_eq_some_iff.1 hw).1
  constructor
  · intro h
    exact ⟨fun hop => h i le_rfl hi (by rw [hw]; exact hop), fun j hj => h j (by omega)⟩
  · rintro ⟨hfirst, hbehind⟩ j hij hj hop
    rcases Nat.eq_or_lt_of_le hij with rfl | hlt
    · rw [hw] at hop
      exact hfirst hop
    · exact hbehind j hlt hj hop

theorem countP_feedsPipe_succ {i : ℕ} {w : Word} (hw : argv[i]? = some w) :
    (argv.zipIdx.take (i + 1)).countP (feedsPipe argv) =
      (argv.zipIdx.take i).countP (feedsPipe argv) + (isPipeOp w && inputBefore argv i).toNat := by
  rw [take_zipIdx_succ hw, List.countP_append, List.countP_singleton, Bool.toNat]
  change _ + (if (isPipeOp w && inputBefore argv i) = true then 1 else 0) = _
  cases isPipeOp w && inputBefore argv i <;> rfl

/-- The flag says whether a stage has read from a file before the operator. -/
theorem feedsTwice_succ_iff {i : ℕ} {w : Word} {fed : Bool} (hw : argv[i]? = some w)
    (hop : isPipeOp w = true)
    (hfed : fed.toNat = (argv.zipIdx.take i).countP (feedsPipe argv)) :
    feedsTwice argv (i + 1) ↔ (inputBefore argv i && fed) = true := by
  rw [feedsTwice, countP_feedsPipe_succ hw, ← hfed, hop, Bool.true_and]
  cases inputBefore argv i <;> cases fed <;> decide

/-- **The stages before the last**: each of them, up to the one at which the loop stops, has room in
its row. -/
theorem fits_pipeFilterWrites_iff {counter : ℕ} (rest : List Word) (i : ℕ) (g : Globals)
    (hrest : argv.drop i = rest) (hlast : g.lastPipe = lastOpBefore argv i)
    (hfed : g.redirectionInPipe.toNat = (argv.zipIdx.take i).countP (feedsPipe argv))
    (hcount : g.pipeCount + rest.countP isPipeOp ≤ counter) :
    (∀ w ∈ pipeFilterWrites argv rest i g, w.Fits counter) ↔ StagesFit argv i := by
  induction rest generalizing i g with
  | nil =>
      exact iff_of_true (by simp [pipeFilterWrites]) (stagesFit_of_le (List.drop_eq_nil_iff.1 hrest))
  | cons w rest ih =>
      have hw : argv[i]? = some w := by rw [← List.head?_drop, hrest, List.head?_cons]
      have hdrop : argv.drop (i + 1) = rest := by rw [← List.tail_drop, hrest, List.tail_cons]
      have hfeeds := countP_feedsPipe_succ hw
      rw [pipeFilterWrites]
      cases hop : isPipeOp w with
      | false =>
          rw [if_neg Bool.false_ne_true, stagesFit_iff_succ hw, hop,
            and_iff_right (fun h => absurd h Bool.false_ne_true)]
          refine ih (i + 1) g hdrop ?_ ?_ (by simpa [List.countP_cons, hop] using hcount)
          · rw [lastOpBefore, hw, hlast]
            simp [hop]
          · rw [hfeeds, hfed, hop]
            rfl
      | true =>
          have htwice := feedsTwice_succ_iff hw hop hfed
          rw [hop, Bool.true_and] at hfeeds
          rw [if_pos rfl]
          by_cases htrip : (inputBefore argv i && g.redirectionInPipe) = true
          · rw [if_pos htrip]
            exact iff_of_true (by simp) (stagesFit_of_feedsTwice (htwice.2 htrip))
          · have hrow : (∀ x ∈ rowWrites .commands g.pipeCount
                (i - if g.lastPipe = 0 then 0 else g.lastPipe + 1), x.Fits counter) ↔
                stageLength argv i < 20 := by
              have hpos : g.pipeCount < counter + 2 := by omega
              rw [fits_rowWrites_iff, stageLength, ← hlast]
              simp only [ParseTable.rows, ParseTable.slots, ParseTable.buffers]
              omega
            rw [if_neg htrip, List.forall_mem_append, hrow, stagesFit_iff_succ hw, hop,
              imp_iff_right rfl, imp_iff_right (fun h => htrip (htwice.1 h))]
            refine and_congr_right fun _ => ih (i + 1) _ hdrop ?_ ?_ ?_
            · rw [lastOpBefore, hw]
              simp [hop]
            · rw [hfeeds, ← hfed]
              revert htrip
              cases inputBefore argv i <;> cases g.redirectionInPipe <;> simp
            · rw [List.countP_cons_of_pos hop] at hcount
              dsimp only
              omega

end Stages

/-! ### The whole line -/

section Line

variable {argv : List Word} {g : Globals}

/-- The last stage, and the null behind the stages, which is the slot with the number of all the
words. -/
theorem fits_outputRedirectionWrites_iff {counter : ℕ} (hcount : g.pipeCount = counter) :
    (∀ w ∈ outputRedirectionWrites argv g, w.Fits counter) ↔ argv.length < 20 := by
  constructor
  · intro h
    obtain ⟨-, hcol, -⟩ := h ⟨.commands, g.pipeCount + 1, argv.length, false⟩
      (by simp [outputRedirectionWrites])
    exact hcol
  · intro hlen w hw
    simp only [outputRedirectionWrites, List.mem_append, List.mem_map, List.mem_filter,
      List.mem_range'_1, List.mem_cons, List.not_mem_nil, or_false] at hw
    rcases hw with ⟨a, ⟨ha, -⟩, rfl⟩ | rfl | rfl
    · simp only [SlotWrite.Fits, ParseTable.rows, ParseTable.slots, ParseTable.buffers]
      omega
    · simp only [SlotWrite.Fits, ParseTable.rows, ParseTable.slots, ParseTable.buffers]
      omega
    · simp only [SlotWrite.Fits, ParseTable.rows, ParseTable.slots, ParseTable.buffers]
      omega

/-- `pipe_filter` is stopped by the second stage that reads from a file. -/
theorem tripped_pipeFilter : (pipeFilter argv g.reset).tripped = true ↔
    feedsTwice argv argv.length := by
  have hlen : argv.zipIdx.take argv.length = argv.zipIdx :=
    List.take_of_length_le (by rw [List.length_zipIdx])
  rw [pipeFilter, pipeFilterLoop_tripped, decide_eq_true_iff, feedsTwice, hlen]
  have hreset : (countPipes argv g.reset).redirectionInPipe = false := rfl
  rw [hreset, Bool.toNat_false, Nat.zero_add]

theorem badRedirectpipe_pipeFilter : (pipeFilter argv g.reset).globals.badRedirectpipe = true ↔
    g.badRedirectpipe = true ∨ feedsTwice argv argv.length := by
  rw [← tripped_pipeFilter (g := g), pipeFilter, pipeFilterLoop_badRedirectpipe, Bool.or_eq_true]
  rfl

/-- The writes of `pipe_filter` on a whole line. -/
theorem fits_pipeFilter_iff (hs : Settled g) :
    (∀ w ∈ pipeFilterWrites argv argv 0 (countPipes argv g.reset),
        w.Fits (argv.countP isPipeOp)) ↔
      ∀ i < argv.length, (argv[i]?).any isPipeOp = true → ¬ feedsTwice argv (i + 1) →
        stageLength argv i < 20 := by
  have hcount : (countPipes argv g.reset).pipeCount = 0 := rfl
  rw [fits_pipeFilterWrites_iff argv 0 (countPipes argv g.reset) List.drop_zero hs.lastPipe rfl
    (by rw [hcount, Nat.zero_add])]
  exact forall_congr' fun j => imp_iff_right (Nat.zero_le j)

end Line

/-- **When the tables are large enough.**  All the writes of a line are inside exactly in these
cases.  With pipe operators, either the line is rejected and every stage that was copied before has
less than 20 words, or the whole line has less than 20 words.  Without, either the line is rejected,
or a `>` or `>>` is the first word, or at most five words stand on either side of the first
redirection, or at most four words and no comma behind `##` or `SS`. -/
theorem fits_lineWrites_iff (argv : List Word) (g : Globals) (hs : Settled g) :
    (∀ w ∈ lineWrites argv g.reset, w.Fits (argv.countP isPipeOp)) ↔ LineFits argv g := by
  rw [lineWrites, List.forall_mem_append, fits_pipeFilter_iff hs, LineFits]
  by_cases hop : argv.any isPipeOp = true
  · rw [if_pos hop, if_congr badRedirectpipe_pipeFilter rfl rfl]
    by_cases hbad : g.badRedirectpipe = true ∨ feedsTwice argv argv.length
    · simp only [if_pos hbad, List.not_mem_nil, false_implies, implies_true, and_true]
    · have htrip : (pipeFilter argv g.reset).tripped = false := by
        rw [← Bool.not_eq_true, tripped_pipeFilter]
        exact fun h => hbad (Or.inr h)
      have hcount : (pipeFilter argv g.reset).globals.pipeCount = argv.countP isPipeOp := by
        rw [pipeFilter, pipeFilterLoop_pipeCount _ _ _ _ _ htrip]
        exact Nat.zero_add _
      have hpos : 0 < (pipeFilter argv g.reset).globals.pipeCount := by
        rw [hcount]
        exact List.countP_pos_iff.2 (List.any_eq_true.1 hop)
      rw [if_neg hbad, if_pos hpos, fits_outputRedirectionWrites_iff hcount, if_neg hbad]
      refine and_iff_right_of_imp ?_
      intro hlen i hi _ _
      rw [stageLength]
      omega
  · have hnone : ∀ w ∈ argv, isPipeOp w = false := by
      intro w hw
      rw [← Bool.not_eq_true]
      exact fun h => hop (List.any_eq_true.2 ⟨w, hw, h⟩)
    have hlast : (countPipes argv g.reset).lastPipe = 0 := hs.lastPipe
    have hcount : (countPipes argv g.reset).pipeCount = 0 := rfl
    have hbad : (countPipes argv g.reset).badRedirectpipe = g.badRedirectpipe := rfl
    rw [if_neg hop, pipeFilter, pipeFilterLoop_of_none argv hnone, and_iff_right]
    · dsimp only
      rw [hbad, hcount, hlast, if_neg (lt_irrefl 0)]
      cases g.badRedirectpipe with
      | true => simp
      | false =>
          rw [if_neg Bool.false_ne_true, fits_redirectionWrites_iff,
            or_iff_right Bool.false_ne_true]
    · intro i hi hany
      obtain ⟨w, hw⟩ : ∃ w, argv[i]? = some w := ⟨_, List.getElem?_eq_getElem hi⟩
      rw [hw, Option.any_some, hnone w (List.mem_of_getElem? hw)] at hany
      cases hany

/-- The words of `ls -l | grep out > f`. -/
def grepLine : List Word :=
  ["ls".toList, "-l".toList, "|".toList, "grep".toList, "out".toList, ">".toList, "f".toList]

theorem fits_lineWrites_iff_grepLine :
    (∀ w ∈ lineWrites grepLine Globals.init.reset, w.Fits (grepLine.countP isPipeOp)) ↔
      LineFits grepLine Globals.init :=
  fits_lineWrites_iff grepLine Globals.init settled_init

/-- The words of `ls ## wc , sort`. -/
def fanOutLine : List Word :=
  ["ls".toList, "##".toList, "wc".toList, ",".toList, "sort".toList]

/-- The fan-out of the documentation: the second element of `array` is written. -/
theorem not_fits_fanOutLine :
    ⟨.array, 0, 1, false⟩ ∈ lineWrites fanOutLine Globals.init.reset ∧
      ¬ SlotWrite.Fits (fanOutLine.countP isPipeOp) ⟨.array, 0, 1, false⟩ := by
  decide +kernel

end Shell
