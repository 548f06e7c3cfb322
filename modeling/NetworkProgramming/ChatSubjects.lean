/-
**UDPChatter: the list of subjects of one client.**

Two places of a client write to `subject_list`.  A subscription is entered into the row
`num_threads - 1`, after a search that stops at the first empty row; an announcement is entered into
the row `num_groups`, after a search of all rows below it.  Both count `num_groups` up, and only a
subscription counts `num_threads` up.  As long as nothing is announced the two counters are equal;
later on a subscription can hit a row that an announcement has filled, and an announced subject can
stand behind the row where the search of a subscription stops.

In a table in order exactly one row below `num_groups` is empty.  A subscription keeps it in order
exactly if this is the row that it writes to, or its subject is found above that row.

Main definitions:

* `Chat.ClientEvent`, `Chat.clientStep` — what one client does, one line or announcement at a time;
* `Chat.RightTable` — the rows are the subjects so far, each once;
* `Chat.Keeps` — no row that is filled has changed;
* `Chat.NeverLost` — all this in the whole run;
* `Chat.Fits` — the condition on a step;
* `Chat.Tidy` — the table is in order.

Main results:

* `Chat.step_line_of_clientStep`, `Chat.step_receive_of_clientStep` — these are steps of the system;
* `Chat.tidy_step` — a step that fits keeps the table in order;
* `Chat.neverLost_iff` — **no subject is lost or entered twice exactly in the runs whose steps fit**.
-/

import NetworkProgramming.MulticastChat

set_option relaxedAutoImplicit false
set_option autoImplicit false

namespace Chat

open Runs

/-! ### One client -/

/-- The bytes of a row of `subject_list`, and of the buffers for a subject and its announcement. -/
def rowSize : ℕ := 256

/-- What happens at one client: a line is typed, or an announcement comes in. -/
inductive ClientEvent
  | line (typed : Text)
  | announcement (recvline : Text)

/-- The subject of an announcement, which ends at the newline. -/
def announcedSubject (recvline : Text) : Text := recvline.takeWhile (· ≠ '\n')

/-- The subject that an event is about. -/
def ClientEvent.subject : ClientEvent → Option Text
  | .line typed => subjectOf typed
  | .announcement recvline =>
      if announcedSubject recvline = [] then none else some (announcedSubject recvline)

/-- The subjects of a run. -/
def subjects (es : List ClientEvent) : List Text := es.filterMap ClientEvent.subject

/-- **The step of one client.**  A subject that does not fit into its buffers is written behind them;
the one for the announcement has space for `#` and the newline too. -/
def clientStep (c : Client) : ClientEvent → Option Client
  | .line typed =>
      match subjectOf typed with
      | none => some c
      | some subject =>
          if rowSize ≤ subject.length then none
          else
            match c.addtoList subject with
            | none => none
            | some false => some c
            | some true =>
                if c.numThreads < MAX_SUBJECTS ∧ subject.length + 2 < rowSize then
                  some (c.subscribe subject)
                else none
  | .announcement recvline =>
      if rowSize ≤ (announcedSubject recvline).length then none else c.announced recvline

/-- **The table is right**: the rows that are not empty are the subjects seen so far, each once. -/
structure RightTable (seen : List Text) (rows : ℕ → Text) : Prop where
  mem_iff : ∀ subject ≠ [], (∃ i, rows i = subject) ↔ subject ∈ seen
  once : ∀ i j, rows i ≠ [] → rows i = rows j → i = j

/-- No row that is filled has changed. -/
def Keeps (c c' : Client) : Prop :=
  ∀ i, c.subjectList i ≠ [] → c'.subjectList i = c.subjectList i

/-- **No subject is lost or entered twice**: the run reaches its end, after every part of it the table
is right, and a row that is filled then does not change any more. -/
def NeverLost (es : List ClientEvent) : Prop :=
  ∀ front rest, front ++ rest <+: es →
    ∃ c c', run clientStep Client.init front = some c ∧ run clientStep c rest = some c' ∧
      RightTable (subjects front) c.subjectList ∧ Keeps c c'

/-- **The condition on a step.**  The subject of a subscription stands in a row with no empty row above
it, or it is in no row and the row `num_threads - 1` is empty; and subjects are short enough. -/
def Fits (c : Client) : ClientEvent → Prop
  | .line typed => ∀ subject, subjectOf typed = some subject → subject.length < rowSize ∧
      ((∃ i, c.subjectList i = subject ∧ ∀ j < i, c.subjectList j ≠ []) ∨
        ((∀ i, c.subjectList i ≠ subject) ∧ c.subjectList (c.numThreads - 1) = [] ∧
          subject.length + 2 < rowSize))
  | .announcement recvline => (announcedSubject recvline).length < rowSize

/-- **The table is in order**: it is right, exactly one row below `num_groups` is empty, and all rows
from there on are. -/
structure Tidy (seen : List Text) (c : Client) : Prop where
  ordered : c.Ordered
  right : RightTable seen c.subjectList
  gap : ∃ k < c.numGroups, c.subjectList k = [] ∧
    ∀ i < c.numGroups, i ≠ k → c.subjectList i ≠ []
  behind : ∀ i, c.numGroups ≤ i → c.subjectList i = []

/-! ### What a step can do -/

section Step

variable {c c' : Client} {typed recvline subject : Text}

/-- A line is no subscription, or it is one for a subject that the search finds, or it enters its
subject. -/
theorem clientStep_line_cases (h : clientStep c (.line typed) = some c') :
    (subjectOf typed = none ∧ c' = c) ∨
      ∃ subject, subjectOf typed = some subject ∧ subject.length < rowSize ∧
        ((c.addtoList subject = some false ∧ c' = c) ∨
          (c.addtoList subject = some true ∧ c.numThreads < MAX_SUBJECTS ∧
            subject.length + 2 < rowSize ∧ c' = c.subscribe subject)) := by
  simp only [clientStep] at h
  split at h
  · rename_i hnone
    exact Or.inl ⟨hnone, (Option.some_inj.1 h).symm⟩
  · rename_i subject hsubject
    by_cases hlen : rowSize ≤ subject.length
    · rw [if_pos hlen] at h
      cases h
    rw [if_neg hlen] at h
    refine Or.inr ⟨subject, hsubject, not_le.1 hlen, ?_⟩
    split at h
    · cases h
    · rename_i hadd
      exact Or.inl ⟨hadd, (Option.some_inj.1 h).symm⟩
    · rename_i hadd
      split_ifs at h with hroom
      exact Or.inr ⟨hadd, hroom.1, hroom.2, (Option.some_inj.1 h).symm⟩

theorem clientStep_line_of_none (h : subjectOf typed = none) :
    clientStep c (.line typed) = some c := by
  simp only [clientStep, h]

theorem clientStep_line_of_listed (h : subjectOf typed = some subject)
    (hlen : subject.length < rowSize) (hadd : c.addtoList subject = some false) :
    clientStep c (.line typed) = some c := by
  simp only [clientStep, h, hadd, if_neg (not_le.2 hlen)]

theorem clientStep_line_of_new (h : subjectOf typed = some subject)
    (hlen : subject.length + 2 < rowSize) (hadd : c.addtoList subject = some true)
    (hroom : c.numThreads < MAX_SUBJECTS) :
    clientStep c (.line typed) = some (c.subscribe subject) := by
  have hlen' : ¬ rowSize ≤ subject.length := by omega
  simp only [clientStep, h, hadd, if_neg hlen']
  exact if_pos ⟨hroom, hlen⟩

theorem clientStep_announcement (hlen : (announcedSubject recvline).length < rowSize) :
    clientStep c (.announcement recvline) = c.announced recvline :=
  if_neg (not_le.2 hlen)

/-- **The steps of a client are steps of the system**: a typed line. -/
theorem step_line_of_clientStep {s : State} {d : ℕ} {client : Client}
    (h : clientStep (s.clients d) (.line typed) = some client) :
    ∃ t, step s (.line d typed) = some t ∧ t.clients = Function.update s.clients d client := by
  rcases clientStep_line_cases h with ⟨hnone, rfl⟩ |
    ⟨subject, hsubject, -, ⟨hadd, rfl⟩ | ⟨hadd, hroom, -, rfl⟩⟩
  · refine ⟨s, ?_, (Function.update_eq_self _ _).symm⟩
    simp only [step, hnone]
  · refine ⟨s, ?_, (Function.update_eq_self _ _).symm⟩
    simp only [step, hsubject, hadd]
  · simp only [step, hsubject, hadd, if_pos hroom]
    exact ⟨_, rfl, rfl⟩

/-- **The steps of a client are steps of the system**: an announcement. -/
theorem step_receive_of_clientStep {s : State} {d k : ℕ} {client : Client}
    (hsent : s.sent[k]? = some ('#' :: recvline))
    (h : clientStep (s.clients d) (.announcement recvline) = some client) :
    ∃ t, step s (.receive d k) = some t ∧ t.clients = Function.update s.clients d client := by
  simp only [clientStep] at h
  split_ifs at h
  simp only [step, hsent, h]
  exact ⟨_, rfl, rfl⟩

end Step

/-! ### Writing a row -/

section Rows

variable {seen : List Text} {rows : ℕ → Text} {subject : Text} {i : ℕ}

/-- A subject that was seen before adds nothing. -/
theorem RightTable.again (h : RightTable seen rows) (hmem : subject ∈ seen) :
    RightTable (seen ++ [subject]) rows := by
  refine ⟨?_, h.once⟩
  intro other hother
  rw [h.mem_iff other hother, List.mem_append, List.mem_singleton]
  refine ⟨Or.inl, ?_⟩
  rintro (hseen | rfl)
  · exact hseen
  · exact hmem

/-- A new subject in an empty row. -/
theorem RightTable.write (h : RightTable seen rows) (hne : subject ≠ [])
    (hnew : ∀ j, rows j ≠ subject) (hempty : rows i = []) :
    RightTable (seen ++ [subject]) (Function.update rows i subject) := by
  refine ⟨?_, ?_⟩
  · intro other hother
    rw [List.mem_append, List.mem_singleton, ← h.mem_iff other hother]
    constructor
    · rintro ⟨j, rfl⟩
      rcases eq_or_ne j i with rfl | hj
      · exact Or.inr (Function.update_self ..)
      · exact Or.inl ⟨j, (Function.update_of_ne hj ..).symm⟩
    · rintro (⟨j, rfl⟩ | rfl)
      · have hj : j ≠ i := by
          rintro rfl
          exact hother hempty
        exact ⟨j, Function.update_of_ne hj ..⟩
      · exact ⟨i, Function.update_self ..⟩
  · intro j k hj hjk
    rcases eq_or_ne j i with rfl | hji
    · rcases eq_or_ne k j with rfl | hkj
      · rfl
      · rw [Function.update_self, Function.update_of_ne hkj] at hjk
        exact absurd hjk.symm (hnew k)
    · rw [Function.update_of_ne hji] at hj hjk
      rcases eq_or_ne k i with rfl | hki
      · rw [Function.update_self] at hjk
        exact absurd hjk (hnew j)
      · rw [Function.update_of_ne hki] at hjk
        exact h.once j k hj hjk

/-- **What a write must not do**: where the table is right after it, the subject is in no other row,
and the row was empty or had the subject already. -/
theorem RightTable.of_write (h : RightTable seen rows) (hne : subject ≠ [])
    (hafter : RightTable (seen ++ [subject]) (Function.update rows i subject)) :
    (∀ j ≠ i, rows j ≠ subject) ∧ (rows i = [] ∨ rows i = subject) := by
  refine ⟨?_, ?_⟩
  · intro j hj hrow
    apply hj
    apply hafter.once
    · rw [Function.update_of_ne hj, hrow]
      exact hne
    · rw [Function.update_of_ne hj, Function.update_self, hrow]
  · by_contra hrow
    obtain ⟨hfull, hother⟩ := not_or.1 hrow
    -- the subject that stood in the row is in no other one
    have hmem : rows i ∈ seen ++ [subject] :=
      List.mem_append_left _ ((h.mem_iff _ hfull).1 ⟨i, rfl⟩)
    obtain ⟨j, hj⟩ := (hafter.mem_iff _ hfull).2 hmem
    rcases eq_or_ne j i with rfl | hji
    · rw [Function.update_self] at hj
      exact hother hj.symm
    · rw [Function.update_of_ne hji] at hj
      exact hji (h.once i j hfull hj.symm).symm

end Rows

/-! ### The table in order -/

/-- The search of a subscription, from row `i` on, where the row `k` is the first empty one. -/
theorem listed_eq {rows : ℕ → Text} {k : ℕ} (hempty : rows k = []) (subject : Text) :
    ∀ n i, i ≤ k → k < i + n → (∀ j, i ≤ j → j < k → rows j ≠ []) →
      (listed rows subject n i = some false ∧ ∀ j, i ≤ j → j < k → rows j ≠ subject) ∨
        (listed rows subject n i = some true ∧ ∃ j, i ≤ j ∧ j < k ∧ rows j = subject)
  | 0, i, hik, hk, _ => by omega
  | n + 1, i, hik, hk, hrows => by
      rcases eq_or_lt_of_le hik with rfl | hik
      · refine Or.inl ⟨?_, fun j hj hji => by omega⟩
        rw [listed, if_pos hempty]
      · rw [listed, if_neg (hrows i le_rfl hik)]
        by_cases hrow : rows i = subject
        · exact Or.inr ⟨if_pos hrow, i, le_rfl, hik, hrow⟩
        · rw [if_neg hrow]
          rcases listed_eq hempty subject n (i + 1) hik (by omega)
            (fun j hj => hrows j (by omega)) with ⟨heq, hnone⟩ | ⟨heq, j, hj, hjk, hfound⟩
          · refine Or.inl ⟨heq, ?_⟩
            intro j hj hjk
            rcases eq_or_lt_of_le hj with rfl | hj
            · exact hrow
            · exact hnone j hj hjk
          · exact Or.inr ⟨heq, j, by omega, hjk, hfound⟩

namespace Tidy

variable {seen : List Text} {c : Client} {subject : Text}

/-- The counter `num_groups` is the number of subjects, and one more. -/
theorem numGroups_le (h : Tidy seen c) : c.numGroups ≤ seen.toFinset.card + 1 := by
  obtain ⟨k, hk, -, hfull⟩ := h.gap
  have hcard : ((Finset.range c.numGroups).erase k).card ≤ seen.toFinset.card := by
    refine Finset.card_le_card_of_injOn c.subjectList ?_ ?_
    · intro i hi
      obtain ⟨hik, hi⟩ := Finset.mem_erase.1 hi
      have hne : c.subjectList i ≠ [] := hfull i (Finset.mem_range.1 hi) hik
      exact List.mem_toFinset.2 ((h.right.mem_iff _ hne).1 ⟨i, rfl⟩)
    · intro i hi j _ hij
      obtain ⟨hik, hi⟩ := Finset.mem_erase.1 hi
      exact h.right.once i j (hfull i (Finset.mem_range.1 hi) hik) hij
  rw [Finset.card_erase_of_mem (Finset.mem_range.2 hk), Finset.card_range] at hcard
  omega

/-- The rows above `num_threads - 1` are the client's own. -/
theorem ne_nil_of_lt (h : Tidy seen c) {i : ℕ} (hi : i < c.numThreads - 1) :
    c.subjectList i ≠ [] := by
  have hlt : i < c.threads.length := by
    rw [h.ordered.numThreads] at hi
    exact hi
  obtain ⟨-, hrow, hne⟩ := h.ordered.thread i _ (List.getElem?_eq_getElem hlt)
  exact hrow ▸ hne

/-- The search of a subscription finds the subject, or it is in no row above the empty one. -/
theorem addtoList_cases (h : Tidy seen c) (hfew : c.numGroups ≤ MAX_SUBJECTS) (subject : Text)
    (hne : subject ≠ []) :
    (c.addtoList subject = some false ∧
        ∃ i, c.subjectList i = subject ∧ ∀ j < i, c.subjectList j ≠ []) ∨
      (c.addtoList subject = some true ∧
        ∀ i, c.subjectList i = subject → ∃ j < i, c.subjectList j = []) := by
  obtain ⟨k, hk, hempty, hfull⟩ := h.gap
  have habove : ∀ j, 0 ≤ j → j < k → c.subjectList j ≠ [] :=
    fun j _ hj => hfull j (by omega) hj.ne
  rcases listed_eq hempty subject MAX_SUBJECTS 0 (Nat.zero_le k) (by omega) habove with
    ⟨heq, hnone⟩ | ⟨heq, i, -, hi, hrow⟩
  · refine Or.inr ⟨?_, ?_⟩
    · rw [Client.addtoList, heq]
      rfl
    · intro i hrow
      refine ⟨k, ?_, hempty⟩
      by_contra hki
      rcases eq_or_lt_of_le (not_lt.1 hki) with rfl | hik
      · exact hne (hrow.symm.trans hempty)
      · exact hnone i (Nat.zero_le i) hik hrow
  · refine Or.inl ⟨?_, i, hrow, fun j hj => habove j (Nat.zero_le j) (by omega)⟩
    rw [Client.addtoList, heq]
    rfl

/-- The empty row is the one that the next subscription writes to, if that one is empty at all. -/
theorem gap_eq (h : Tidy seen c) (hrow : c.subjectList (c.numThreads - 1) = []) :
    c.numThreads - 1 < c.numGroups ∧
      ∀ i < c.numGroups, i ≠ c.numThreads - 1 → c.subjectList i ≠ [] := by
  obtain ⟨k, -, -, hfull⟩ := h.gap
  have hlt : c.numThreads - 1 < c.numGroups := by
    have hle := h.ordered.numGroups
    have hpos := h.ordered.numThreads
    omega
  have hk : c.numThreads - 1 = k := by
    by_contra hne
    exact hfull _ hlt hne hrow
  rw [hk]
  exact ⟨hk ▸ hlt, hfull⟩

/-- A new subject in the empty row; the next row takes its place. -/
theorem subscribe (h : Tidy seen c) (hne : subject ≠ []) (hnew : ∀ i, c.subjectList i ≠ subject)
    (hrow : c.subjectList (c.numThreads - 1) = []) :
    Tidy (seen ++ [subject]) (c.subscribe subject) := by
  obtain ⟨hlt, hfull⟩ := h.gap_eq hrow
  refine ⟨h.ordered.subscribe hne, h.right.write hne hnew hrow, ⟨c.numGroups, ?_, ?_, ?_⟩, ?_⟩
  · exact Nat.lt_succ_self _
  · exact (Function.update_of_ne hlt.ne' ..).trans (h.behind _ le_rfl)
  · intro i hi hi'
    have hi : i < c.numGroups := lt_of_le_of_ne (Nat.lt_succ_iff.1 hi) hi'
    rcases eq_or_ne i (c.numThreads - 1) with rfl | hrow'
    · exact (Function.update_self ..).trans_ne hne
    · exact (Function.update_of_ne hrow' ..).trans_ne (hfull i hi hrow')
  · intro i hi
    have hi : c.numGroups < i := hi
    exact (Function.update_of_ne (by omega) ..).trans (h.behind i hi.le)

/-- A new subject behind all others. -/
theorem announce (h : Tidy seen c) (hne : subject ≠ [])
    (hnew : ∀ i < c.numGroups, c.subjectList i ≠ subject) {recvline : Text}
    (hsubject : announcedSubject recvline = subject) (hroom : c.numGroups < MAX_SUBJECTS) :
    ∃ c', c.announced recvline = some c' ∧ Tidy (seen ++ [subject]) c' ∧ Keeps c c' := by
  obtain ⟨k, hk, hempty, hfull⟩ := h.gap
  have hnone : ¬ ∃ i < c.numGroups, c.subjectList i = subject := by
    rintro ⟨i, hi, hrow⟩
    exact hnew i hi hrow
  have heq : c.announced recvline = some { c with
      numGroups := c.numGroups + 1
      subjectList := Function.update c.subjectList c.numGroups subject } := by
    rw [announcedSubject] at hsubject
    rw [Client.announced, hsubject]
    exact (if_neg hnone).trans (if_pos hroom)
  have hnowhere : ∀ i, c.subjectList i ≠ subject := by
    intro i
    rcases lt_or_ge i c.numGroups with hi | hi
    · exact hnew i hi
    · rw [h.behind i hi]
      exact hne.symm
  refine ⟨_, heq, ⟨(h.ordered.announced heq).1, h.right.write hne hnowhere (h.behind _ le_rfl),
    ⟨k, hk.trans (Nat.lt_succ_self _), ?_, ?_⟩, ?_⟩, ?_⟩
  · exact (Function.update_of_ne hk.ne ..).trans hempty
  · intro i hi hik
    rcases eq_or_ne i c.numGroups with rfl | hi'
    · exact (Function.update_self ..).trans_ne hne
    · refine (Function.update_of_ne hi' ..).trans_ne (hfull i ?_ hik)
      exact lt_of_le_of_ne (Nat.lt_succ_iff.1 hi) hi'
  · intro i hi
    have hi : c.numGroups < i := hi
    exact (Function.update_of_ne hi.ne' ..).trans (h.behind i hi.le)
  · intro i hi
    refine Function.update_of_ne ?_ ..
    rintro rfl
    exact hi (h.behind _ le_rfl)

/-- A subject that is in the table already. -/
theorem again (h : Tidy seen c) (hmem : subject ∈ seen) : Tidy (seen ++ [subject]) c :=
  ⟨h.ordered, h.right.again hmem, h.gap, h.behind⟩

end Tidy

section Run

variable {seen : List Text} {c c' : Client} {e : ClientEvent}

theorem Keeps.refl (c : Client) : Keeps c c := fun _ _ => rfl

theorem Keeps.trans {c'' : Client} (h : Keeps c c') (h' : Keeps c' c'') : Keeps c c'' := by
  intro i hi
  rw [h' i ((h i hi).trans_ne hi), h i hi]

theorem tidy_init : Tidy [] Client.init := by
  refine ⟨⟨rfl, rfl, le_rfl, ?_⟩, ⟨?_, ?_⟩, ⟨0, Nat.one_pos, rfl, ?_⟩, fun _ _ => rfl⟩
  · intro k p hp
    cases hp
  · intro subject hne
    refine iff_of_false ?_ List.not_mem_nil
    rintro ⟨i, hi⟩
    exact hne hi.symm
  · intro i j hi
    exact absurd rfl hi
  · intro i hi hne
    exact absurd (Nat.lt_one_iff.1 hi) hne

/-- A subject that is new leaves space for itself. -/
theorem Tidy.numGroups_lt (h : Tidy seen c) {subject : Text} (hnew : subject ∉ seen)
    (hfew : (seen ++ [subject]).toFinset.card < MAX_SUBJECTS) : c.numGroups < MAX_SUBJECTS := by
  have hle := h.numGroups_le
  have hcard : (seen ++ [subject]).toFinset.card = seen.toFinset.card + 1 := by
    rw [List.toFinset_append, List.toFinset_cons, List.toFinset_nil, insert_empty_eq,
      Finset.union_comm, ← Finset.insert_eq, Finset.card_insert_of_notMem (by simpa using hnew)]
  omega

/-- With few subjects in total there are few subjects at any time. -/
theorem few_of_append {more : List Text} (hfew : (seen ++ more).toFinset.card < MAX_SUBJECTS) :
    seen.toFinset.card < MAX_SUBJECTS := by
  rw [List.toFinset_append] at hfew
  exact (Finset.card_le_card Finset.subset_union_left).trans_lt hfew

/-- A subscription that fits. -/
theorem Tidy.line {typed subject : Text} (h : Tidy seen c) (hsubject : subjectOf typed = some subject)
    (hfew : (seen ++ [subject]).toFinset.card < MAX_SUBJECTS) (hfits : Fits c (.line typed)) :
    ∃ c', clientStep c (.line typed) = some c' ∧ Tidy (seen ++ [subject]) c' ∧ Keeps c c' := by
  have hne := subjectOf_ne_nil hsubject
  have hgroups : c.numGroups ≤ MAX_SUBJECTS := h.numGroups_le.trans (few_of_append hfew)
  obtain ⟨hlen, hplace⟩ := hfits subject hsubject
  rcases h.addtoList_cases hgroups subject hne with ⟨hadd, i, hrow, -⟩ | ⟨hadd, hlater⟩
  · refine ⟨c, clientStep_line_of_listed hsubject hlen hadd, h.again ?_, Keeps.refl c⟩
    exact (h.right.mem_iff _ hne).1 ⟨i, hrow⟩
  rcases hplace with ⟨i, hrow, habove⟩ | ⟨hnew, hrow, hlen⟩
  · obtain ⟨j, hj, hempty⟩ := hlater i hrow
    exact absurd hempty (habove j hj)
  have hunseen : subject ∉ seen := by
    intro hmem
    obtain ⟨i, hi⟩ := (h.right.mem_iff _ hne).2 hmem
    exact hnew i hi
  have hroom : c.numThreads < MAX_SUBJECTS :=
    h.ordered.numGroups.trans_lt (h.numGroups_lt hunseen hfew)
  refine ⟨_, clientStep_line_of_new hsubject hlen hadd hroom, h.subscribe hne hnew hrow, ?_⟩
  intro i hi
  refine Function.update_of_ne ?_ ..
  rintro rfl
  exact hi hrow

/-- An announcement whose subject is not in a row below `num_groups` is about a new subject. -/
theorem Tidy.new_of_not_listed {subject : Text} (h : Tidy seen c)
    (hnew : ∀ i < c.numGroups, c.subjectList i ≠ subject) : subject ≠ [] ∧ subject ∉ seen := by
  have hne : subject ≠ [] := by
    -- the empty row below `num_groups` is an entry for the empty subject
    intro hempty
    obtain ⟨k, hk, hrow, -⟩ := h.gap
    exact hnew k hk (hrow.trans hempty.symm)
  refine ⟨hne, ?_⟩
  intro hmem
  obtain ⟨i, hi⟩ := (h.right.mem_iff _ hne).2 hmem
  refine hnew i (lt_of_not_ge ?_) hi
  intro hbehind
  exact hne (hi.symm.trans (h.behind i hbehind))

/-- **A step that fits**: it is taken, and the table is in order after it. -/
theorem tidy_step (h : Tidy seen c)
    (hfew : (seen ++ e.subject.toList).toFinset.card < MAX_SUBJECTS) (hfits : Fits c e) :
    ∃ c', clientStep c e = some c' ∧ Tidy (seen ++ e.subject.toList) c' ∧ Keeps c c' := by
  cases e with
  | line typed =>
      cases hsubject : subjectOf typed with
      | none =>
          refine ⟨c, clientStep_line_of_none hsubject, ?_, Keeps.refl c⟩
          simpa [ClientEvent.subject, hsubject] using h
      | some subject =>
          simp only [ClientEvent.subject, hsubject, Option.toList_some] at hfew ⊢
          exact h.line hsubject hfew hfits
  | announcement recvline =>
      rw [clientStep_announcement hfits]
      by_cases hlisted : ∃ i < c.numGroups, c.subjectList i = announcedSubject recvline
      · refine ⟨c, if_pos hlisted, ?_, Keeps.refl c⟩
        by_cases hempty : announcedSubject recvline = []
        · simpa [ClientEvent.subject, hempty] using h
        · obtain ⟨i, -, hrow⟩ := hlisted
          rw [ClientEvent.subject, if_neg hempty]
          exact h.again ((h.right.mem_iff _ hempty).1 ⟨i, hrow⟩)
      · have hnew : ∀ i < c.numGroups, c.subjectList i ≠ announcedSubject recvline :=
          fun i hi hrow => hlisted ⟨i, hi, hrow⟩
        obtain ⟨hempty, hunseen⟩ := h.new_of_not_listed hnew
        simp only [ClientEvent.subject, if_neg hempty, Option.toList_some] at hfew ⊢
        exact h.announce hempty hnew rfl (h.numGroups_lt hunseen hfew)

/-- A step after which the table is right fits. -/
theorem fits_of_right (h : Tidy seen c) (hfew : seen.toFinset.card < MAX_SUBJECTS)
    (hstep : clientStep c e = some c')
    (hright : RightTable (seen ++ e.subject.toList) c'.subjectList) : Fits c e := by
  cases e with
  | line typed =>
      intro subject hsubject
      have hne := subjectOf_ne_nil hsubject
      simp only [ClientEvent.subject, hsubject, Option.toList_some] at hright
      rcases clientStep_line_cases hstep with ⟨hnone, -⟩ | ⟨subject', hsubject', hlen, hcases⟩
      · cases hnone.symm.trans hsubject
      obtain rfl := Option.some_inj.1 (hsubject'.symm.trans hsubject)
      refine ⟨hlen, ?_⟩
      rcases hcases with ⟨hadd, -⟩ | ⟨-, -, hlen, rfl⟩
      · rcases h.addtoList_cases (h.numGroups_le.trans hfew) subject' hne with
          ⟨-, hfound⟩ | ⟨hadd', -⟩
        · exact Or.inl hfound
        · cases hadd.symm.trans hadd'
      · obtain ⟨hother, hrow⟩ := h.right.of_write hne hright
        rcases hrow with hrow | hrow
        · refine Or.inr ⟨?_, hrow, hlen⟩
          intro i
          rcases eq_or_ne i (c.numThreads - 1) with rfl | hi
          · rw [hrow]
            exact hne.symm
          · exact hother i hi
        · exact Or.inl ⟨_, hrow, fun j hj => h.ne_nil_of_lt hj⟩
  | announcement recvline =>
      simp only [clientStep] at hstep
      split_ifs at hstep with hlen
      exact not_le.1 hlen

theorem subjects_cons (e : ClientEvent) (es : List ClientEvent) :
    subjects (e :: es) = e.subject.toList ++ subjects es := by
  cases hsubject : e.subject with
  | none => simp [subjects, hsubject]
  | some subject => simp [subjects, hsubject]

theorem subjects_append (es es' : List ClientEvent) :
    subjects (es ++ es') = subjects es ++ subjects es' :=
  List.filterMap_append

/-- **A run whose steps fit** reaches its end, with the table in order. -/
theorem tidy_run {es : List ClientEvent} (h : Tidy seen c)
    (hfew : (seen ++ subjects es).toFinset.card < MAX_SUBJECTS)
    (hfits : Along clientStep Fits c es) :
    ∃ c', run clientStep c es = some c' ∧ Tidy (seen ++ subjects es) c' ∧ Keeps c c' := by
  induction es generalizing seen c with
  | nil =>
      refine ⟨c, rfl, ?_, Keeps.refl c⟩
      rwa [subjects, List.filterMap_nil, List.append_nil]
  | cons e es ih =>
      rw [subjects_cons, ← List.append_assoc] at hfew ⊢
      obtain ⟨u, hu, htidy, hkeeps⟩ := tidy_step h (few_of_append hfew) hfits.1
      obtain ⟨c', hrun, htidy', hkeeps'⟩ := ih htidy hfew ((along_cons_of_step hu).1 hfits).2
      exact ⟨c', run_cons_eq_some.2 ⟨u, hu, hrun⟩, htidy', hkeeps.trans hkeeps'⟩

/-- A run after whose steps the table is right has steps that fit. -/
theorem along_of_right {es : List ClientEvent} (h : Tidy seen c)
    (hfew : (seen ++ subjects es).toFinset.card < MAX_SUBJECTS)
    (hright : ∀ front, front <+: es → ∃ c', run clientStep c front = some c' ∧
      RightTable (seen ++ subjects front) c'.subjectList) :
    Along clientStep Fits c es := by
  induction es generalizing seen c with
  | nil => trivial
  | cons e es ih =>
      rw [subjects_cons, ← List.append_assoc] at hfew
      obtain ⟨u, hu, hrightu⟩ := hright [e] (List.cons_prefix_cons.2 ⟨rfl, List.nil_prefix⟩)
      obtain ⟨v, hv, hnil⟩ := run_cons_eq_some.1 hu
      obtain rfl := Option.some_inj.1 hnil
      rw [subjects_cons, subjects, List.filterMap_nil, List.append_nil] at hrightu
      have hfits : Fits c e := fits_of_right h (few_of_append (few_of_append hfew)) hv hrightu
      obtain ⟨w, hw, htidy, -⟩ := tidy_step h (few_of_append hfew) hfits
      obtain rfl := Option.some_inj.1 (hv.symm.trans hw)
      refine (along_cons_of_step hv).2 ⟨hfits, ih htidy hfew ?_⟩
      intro front hfront
      obtain ⟨c', hrun, hright'⟩ := hright (e :: front) (List.cons_prefix_cons.2 ⟨rfl, hfront⟩)
      obtain ⟨w, hw, hrun⟩ := run_cons_eq_some.1 hrun
      obtain rfl := Option.some_inj.1 (hv.symm.trans hw)
      rw [subjects_cons, ← List.append_assoc] at hright'
      exact ⟨c', hrun, hright'⟩

end Run

/-- **No subject is lost or entered twice exactly in the runs whose steps fit.**  The run is about fewer
than `MAX_SUBJECTS` subjects; it consists of typed lines and announcements in any order. -/
theorem neverLost_iff (es : List ClientEvent)
    (hfew : (subjects es).toFinset.card < MAX_SUBJECTS) :
    NeverLost es ↔ Along clientStep Fits Client.init es := by
  constructor
  · intro h
    refine along_of_right tidy_init hfew ?_
    intro front hfront
    obtain ⟨c, -, hrun, -, hright, -⟩ := h front [] (by rwa [List.append_nil])
    exact ⟨c, hrun, hright⟩
  · rintro h front rest ⟨tail, rfl⟩
    rw [List.append_assoc, along_append] at h
    rw [List.append_assoc, subjects_append, subjects_append, ← List.append_assoc] at hfew
    have hfew := few_of_append hfew
    obtain ⟨c, hrun, htidy, -⟩ := tidy_run tidy_init (few_of_append hfew) h.1
    obtain ⟨c', hrun', -, hkeeps⟩ := tidy_run htidy hfew (along_append.1 (h.2 c hrun)).1
    exact ⟨c, c', hrun, hrun', htidy.right, hkeeps⟩

/-- A subject is announced, and then the client subscribes to another one. -/
def announcedThenOther : List ClientEvent :=
  [.announcement "Chemistry\n".toList, .line (subscribeLine "Physics")]

theorem neverLost_announcedThenOther : NeverLost announcedThenOther := by
  have hshort : (announcedSubject "Chemistry\n".toList).length < rowSize := by decide +kernel
  refine (neverLost_iff announcedThenOther (by decide +kernel)).2 ⟨hshort, ?_⟩
  have hphysics : subjectOf (subscribeLine "Physics") = some "Physics".toList := by decide +kernel
  refine ⟨?_, ?_⟩
  · intro subject hsubject
    obtain rfl := Option.some_inj.1 (hphysics.symm.trans hsubject)
    refine ⟨by decide, Or.inr ⟨?_, rfl, by decide⟩⟩
    intro i
    by_cases hi : i = 1
    · subst hi
      decide +kernel
    · exact (Function.update_of_ne hi ..).trans_ne (List.cons_ne_nil _ _).symm
  · trivial

/-- A subject is announced, and then the client subscribes to it. -/
def announcedThenSame : List ClientEvent :=
  [.announcement "Chemistry\n".toList, .line (subscribeLine "Chemistry")]

/-- The search stops in the empty row `0`, and the subject is entered a second time. -/
theorem not_neverLost_announcedThenSame :
    ¬ ∀ es : List ClientEvent, (subjects es).toFinset.card < MAX_SUBJECTS → NeverLost es := by
  intro h
  obtain ⟨c, -, hrun, -, hright, -⟩ :=
    h announcedThenSame (by decide +kernel) announcedThenSame [] (List.prefix_rfl)
  have hrows : (run clientStep Client.init announcedThenSame).map
      (fun c => (c.subjectList 0, c.subjectList 1)) =
        some ("Chemistry".toList, "Chemistry".toList) := by
    decide +kernel
  rw [hrun, Option.map_some, Option.some_inj, Prod.mk_inj] at hrows
  have hne : c.subjectList 0 ≠ [] := by
    rw [hrows.1]
    decide
  exact absurd (hright.once 0 1 hne (hrows.1.trans hrows.2.symm)) Nat.zero_ne_one

end Chat
