/-
**UDPChatter: subjects and multicast groups.**

There is no server.  A client that subscribes to a subject starts a receiver thread, and the thread
binds to the group `239.0.0.<tid>`, where `tid` counts the threads of this client alone.  The client
announces the subject as `#subject` to the common group `239.0.0.0`; whoever receives this enters the
subject into its list of subjects, but binds nothing.  Two clients therefore agree on the group of a
subject exactly as long as they subscribe to the same subjects in the same order.

A thread is not given its number but the address of an object `data`, which is local to the block of the
subscription.  The thread reads the number when it runs.  The block is left before that, and the memory
of the object keeps the number until the next subscription of the client writes its own one there.

Typed lines and received datagrams are handled one at a time.  A step that would leave the tables, which
have `MAX_SUBJECTS` rows, has no result.

Main definitions:

* `Chat.subjectOf` — the subject of a line `!subscribe "subject"`;
* `Chat.Client`, `Chat.Client.subscribe`, `Chat.Client.announced` — a client, and what it does for a
  line and for an announcement;
* `Chat.State`, `Chat.Event`, `Chat.step` — any number of clients, their threads and the common group;
* `Chat.Agree` — the clients agree on the groups;
* `Chat.InStep` — a new subscription follows the order of the other clients, and a thread reads its
  number before the next one.

Main results:

* `Chat.client_run` — the threads of a client have the numbers `1, 2, …` in the order of its
  subscriptions;
* `Chat.number_eq_of_le` — numbers that are all different and not too small are in order;
* `Chat.agree_iff` — **the clients agree exactly in the runs that are in step**.
-/

import Mathlib
import NetworkProgramming.Runs

set_option relaxedAutoImplicit false
set_option autoImplicit false

namespace Chat

open Runs

/-- The text of a C string. -/
abbrev Text := List Char

/-- The rows of `subject_list`, `thread_id` and `recv_sockfd`. -/
def MAX_SUBJECTS : ℕ := 20

/-- The address that a thread binds to. -/
def group (tid : ℕ) : String := "239.0.0." ++ toString tid

theorem group_inj {i j : ℕ} : group i = group j ↔ i = j := by
  simp [group, Nat.repr_inj]

/-! ### One client -/

/-- The loop that looks for the closing quote, after the characters `subject` of the subject: a
quote that ends the line and is not the first character. -/
def closing : Text → Text → Option Text
  | _, [] => none
  | subject, c :: rest =>
      if c = '\n' then none
      else if subject ≠ [] ∧ c = '"' ∧ rest.head? = some '\n' then some subject
      else closing (subject ++ [c]) rest

/-- The subject of a line `!subscribe "subject"`, which ends in a newline. -/
def subjectOf (line : Text) : Option Text :=
  if line.take 11 = "!subscribe ".toList ∧ (line.drop 11).head? = some '"' then
    closing [] (line.drop 12)
  else none

/-- The globals of a client.  Of each receiver thread, the one for the common group apart, `threads`
has the subject it was started for and the group of the number that was written for it. -/
structure Client where
  subjectList : ℕ → Text
  numGroups : ℕ
  numThreads : ℕ
  tid : ℕ
  threads : List (Text × String)

/-- After the thread for the common group was started. -/
def Client.init : Client :=
  { subjectList := fun _ => []
    numGroups := 1
    numThreads := 1
    tid := 1
    threads := [] }

/-- The loop over `subject_list` up to its first empty row, from row `i` on: whether the subject is
there. -/
def listed (subjectList : ℕ → Text) (subject : Text) : ℕ → ℕ → Option Bool
  | 0, _ => none
  | n + 1, i =>
      if subjectList i = [] then some false
      else if subjectList i = subject then some true
      else listed subjectList subject n (i + 1)

/-- `addtoList`: the subject is not in the list yet. -/
def Client.addtoList (c : Client) (subject : Text) : Option Bool :=
  (listed c.subjectList subject MAX_SUBJECTS 0).map Bool.not

/-- A new subscription. -/
def Client.subscribe (c : Client) (subject : Text) : Client :=
  { subjectList := Function.update c.subjectList (c.numThreads - 1) subject
    numGroups := c.numGroups + 1
    numThreads := c.numThreads + 1
    tid := c.tid + 1
    threads := c.threads ++ [(subject, group c.tid)] }

/-- What a client does with a datagram that starts with `#`: the subject ends at the newline. -/
def Client.announced (c : Client) (recvline : Text) : Option Client :=
  let subject := recvline.takeWhile (· ≠ '\n')
  if ∃ i < c.numGroups, c.subjectList i = subject then some c
  else if c.numGroups < MAX_SUBJECTS then
    some { c with
      numGroups := c.numGroups + 1
      subjectList := Function.update c.subjectList c.numGroups subject }
  else none

/-! ### The clients and the common group -/

/-- All clients, their threads, and what was sent to the common group. -/
structure State where
  clients : ℕ → Client
  /-- The member `tid` of the object `data` of the subscriptions of a client. -/
  data : ℕ → ℕ
  /-- The group that the `k`-th thread of a client is bound to, when it has read its number. -/
  bound : ℕ → ℕ → Option String
  sent : List Text

def State.init : State := ⟨fun _ => Client.init, fun _ => 0, fun _ _ => none, []⟩

/-- The events. -/
inductive Event
  /-- A line is typed at a client. -/
  | line (c : ℕ) (line : Text)
  /-- The `k`-th receiver thread of a client reads its number and binds. -/
  | thread (c k : ℕ)
  /-- Another datagram is sent to the common group. -/
  | chat (message : Text)
  /-- A client receives one of the datagrams. -/
  | receive (c : ℕ) (k : ℕ)

/-- **The step of the system.** -/
def step (s : State) : Event → Option State
  | .line c line =>
      match subjectOf line with
      | none => some s
      | some subject =>
          match (s.clients c).addtoList subject with
          | none => none
          | some false => some s
          | some true =>
              if (s.clients c).numThreads < MAX_SUBJECTS then
                some
                  { s with
                    clients := Function.update s.clients c ((s.clients c).subscribe subject)
                    data := Function.update s.data c (s.clients c).tid
                    sent := s.sent ++ ['#' :: subject ++ ['\n']] }
              else none
  | .thread c k =>
      if k < (s.clients c).threads.length ∧ s.bound c k = none then
        some
          { s with
            bound := Function.update s.bound c
              (Function.update (s.bound c) k (some (group (s.data c)))) }
      else none
  | .chat message => some { s with sent := s.sent ++ [message] }
  | .receive c k =>
      match s.sent[k]? with
      | some ('#' :: recvline) => ((s.clients c).announced recvline).map fun client =>
          { s with clients := Function.update s.clients c client }
      | some _ => some s
      | none => none

/-- **The clients agree on the groups**: two threads that are bound, of one client or of two, are for the
same subject if and only if they are bound to the same group. -/
def Agree (s : State) : Prop :=
  ∀ (c d k j : ℕ) (p q : Text × String) (g h : String), (s.clients c).threads[k]? = some p →
    (s.clients d).threads[j]? = some q → s.bound c k = some g → s.bound d j = some h →
      (p.1 = q.1 ↔ g = h)

/-- **A step is in step**: where a subscription is the `k`-th of its client, it is for the subject that
is the `k`-th of every other client that has one, and for no other subject of theirs; and when a thread
reads its number, its client has made no later subscription. -/
def InStep (s : State) : Event → Prop
  | .line c line => ∀ subject, subjectOf line = some subject →
      (s.clients c).addtoList subject = some true →
        ∀ d ≠ c, ∀ k p, (s.clients d).threads[k]? = some p →
          (p.1 = subject ↔ k = (s.clients c).threads.length)
  | .thread c k => (s.clients c).threads.length = k + 1
  | _ => True

/-- All threads have read their numbers. -/
def AllBound (s : State) : Prop :=
  ∀ c, ∀ k < (s.clients c).threads.length, ∃ g, s.bound c k = some g

/-! ### What a step can do -/

/-- A step is a new subscription, or a thread binds, or the threads stay as they are. -/
theorem step_cases {s t : State} {e : Event} (h : step s e = some t) :
    (∃ c line subject, e = .line c line ∧ subjectOf line = some subject ∧
      (s.clients c).addtoList subject = some true ∧
      t.clients = Function.update s.clients c ((s.clients c).subscribe subject) ∧
      t.data = Function.update s.data c (s.clients c).tid ∧ t.bound = s.bound) ∨
    (∃ c k, e = .thread c k ∧ k < (s.clients c).threads.length ∧ s.bound c k = none ∧
      t.clients = s.clients ∧ t.data = s.data ∧
      t.bound = Function.update s.bound c
        (Function.update (s.bound c) k (some (group (s.data c))))) ∨
    ((∀ c line subject, e = .line c line → subjectOf line = some subject →
        (s.clients c).addtoList subject ≠ some true) ∧ (∀ c k, e ≠ .thread c k) ∧
      t.data = s.data ∧ t.bound = s.bound ∧
      (t.clients = s.clients ∨ ∃ c recvline client, (s.clients c).announced recvline = some client ∧
        t.clients = Function.update s.clients c client)) := by
  cases e with
  | line c line =>
      simp only [step] at h
      split at h
      · rename_i hnone
        obtain rfl := Option.some_inj.1 h
        refine Or.inr (Or.inr ⟨?_, nofun, rfl, rfl, Or.inl rfl⟩)
        rintro c' line' subject ⟨rfl, rfl⟩ hsubject
        cases hnone.symm.trans hsubject
      · rename_i subject hsubject
        split at h
        · cases h
        · rename_i hlisted
          obtain rfl := Option.some_inj.1 h
          refine Or.inr (Or.inr ⟨?_, nofun, rfl, rfl, Or.inl rfl⟩)
          rintro c' line' subject' ⟨rfl, rfl⟩ hsubject'
          obtain rfl := Option.some_inj.1 (hsubject.symm.trans hsubject')
          simp [hlisted]
        · rename_i hlisted
          split_ifs at h
          obtain rfl := Option.some_inj.1 h
          exact Or.inl ⟨c, line, subject, rfl, hsubject, hlisted, rfl, rfl, rfl⟩
  | thread c k =>
      simp only [step] at h
      split_ifs at h with hwaits
      obtain rfl := Option.some_inj.1 h
      exact Or.inr (Or.inl ⟨c, k, rfl, hwaits.1, hwaits.2, rfl, rfl, rfl⟩)
  | chat message =>
      obtain rfl := Option.some_inj.1 h
      exact Or.inr (Or.inr ⟨nofun, nofun, rfl, rfl, Or.inl rfl⟩)
  | receive c k =>
      simp only [step] at h
      split at h
      · rename_i recvline _
        obtain ⟨client, hclient, rfl⟩ := Option.map_eq_some_iff.1 h
        exact Or.inr (Or.inr ⟨nofun, nofun, rfl, rfl, Or.inr ⟨c, recvline, client, hclient, rfl⟩⟩)
      · obtain rfl := Option.some_inj.1 h
        exact Or.inr (Or.inr ⟨nofun, nofun, rfl, rfl, Or.inl rfl⟩)
      · cases h

/-! ### The threads of one client -/

/-- **A client's threads are numbered in the order of its subscriptions**, and its list of subjects
starts with them. -/
structure Client.Ordered (c : Client) : Prop where
  numThreads : c.numThreads = c.threads.length + 1
  tid : c.tid = c.threads.length + 1
  numGroups : c.numThreads ≤ c.numGroups
  thread : ∀ k p, c.threads[k]? = some p →
    p.2 = group (k + 1) ∧ c.subjectList k = p.1 ∧ p.1 ≠ []

/-- A subject is not empty. -/
theorem closing_ne_nil {subject rest result : Text} (h : closing subject rest = some result) :
    result ≠ [] := by
  induction rest generalizing subject with
  | nil => cases h
  | cons c rest ih =>
      rw [closing] at h
      split_ifs at h with _ hquote
      · exact Option.some_inj.1 h ▸ hquote.1
      · exact ih h

theorem subjectOf_ne_nil {line subject : Text} (h : subjectOf line = some subject) :
    subject ≠ [] := by
  unfold subjectOf at h
  split_ifs at h
  exact closing_ne_nil h

/-- A subject that the loop does not find is in no row before the first empty one. -/
theorem ne_of_listed {subjectList : ℕ → Text} {subject : Text} {n i m : ℕ}
    (h : listed subjectList subject n i = some false)
    (hrows : ∀ j, i ≤ j → j < m → subjectList j ≠ []) {j : ℕ} (hij : i ≤ j) (hj : j < m) :
    subjectList j ≠ subject := by
  induction n generalizing i with
  | zero => cases h
  | succ n ih =>
      rw [listed] at h
      split_ifs at h with hempty hfound
      · exact absurd hempty (hrows i le_rfl (by omega))
      · cases h
      · rcases eq_or_lt_of_le hij with rfl | hij
        · exact hfound
        · exact ih h (fun k hk => hrows k (by omega)) hij

namespace Client.Ordered

variable {c : Client} {subject : Text}

/-- A client does not subscribe to a subject twice. -/
theorem ne_of_addtoList (h : c.Ordered) (hadd : c.addtoList subject = some true) {k : ℕ}
    {p : Text × String} (hp : c.threads[k]? = some p) : p.1 ≠ subject := by
  have hlisted : listed c.subjectList subject MAX_SUBJECTS 0 = some false := by
    obtain ⟨b, hb, hnot⟩ := Option.map_eq_some_iff.1 hadd
    cases b with
    | false => exact hb
    | true => cases hnot
  have hrows : ∀ j, 0 ≤ j → j < c.threads.length → c.subjectList j ≠ [] := by
    intro j _ hj
    obtain ⟨-, hrow, hne⟩ := h.thread j _ (List.getElem?_eq_getElem hj)
    exact hrow ▸ hne
  rw [← (h.thread k p hp).2.1]
  exact ne_of_listed hlisted hrows (Nat.zero_le k) (List.getElem?_eq_some_iff.1 hp).1

theorem subscribe (h : c.Ordered) (hne : subject ≠ []) : (c.subscribe subject).Ordered := by
  refine ⟨?_, ?_, Nat.succ_le_succ h.numGroups, ?_⟩
  · simp [Client.subscribe, h.numThreads]
  · simp [Client.subscribe, h.tid]
  · intro k p hp
    have hrow : c.numThreads - 1 = c.threads.length := by
      rw [h.numThreads]
      rfl
    simp only [Client.subscribe, hrow] at hp ⊢
    rcases lt_trichotomy k c.threads.length with hk | rfl | hk
    · rw [List.getElem?_append_left hk] at hp
      rw [Function.update_of_ne hk.ne]
      exact h.thread k p hp
    · rw [List.getElem?_concat_length] at hp
      obtain rfl := Option.some_inj.1 hp
      exact ⟨by rw [h.tid], Function.update_self .., hne⟩
    · rw [List.getElem?_eq_none (by simpa using hk)] at hp
      cases hp

/-- An announcement is entered behind the client's own subjects. -/
theorem announced (h : c.Ordered) {recvline : Text} {c' : Client}
    (hc : c.announced recvline = some c') : c'.Ordered ∧ c'.threads = c.threads := by
  unfold Client.announced at hc
  dsimp only at hc
  split_ifs at hc
  · obtain rfl := Option.some_inj.1 hc
    exact ⟨h, rfl⟩
  · obtain rfl := Option.some_inj.1 hc
    refine ⟨⟨h.numThreads, h.tid, h.numGroups.trans (Nat.le_succ _), ?_⟩, rfl⟩
    intro k p hp
    obtain ⟨hgroup, hrow, hne⟩ := h.thread k p hp
    have hk : k ≠ c.numGroups := by
      have hlt : k < c.threads.length := (List.getElem?_eq_some_iff.1 hp).1
      have hle := h.numGroups
      rw [h.numThreads] at hle
      omega
    exact ⟨hgroup, by rw [← hrow]; exact Function.update_of_ne hk .., hne⟩

end Client.Ordered

/-- The clients are in order. -/
def Ordered (s : State) : Prop := ∀ c, (s.clients c).Ordered

theorem ordered_init : Ordered State.init := by
  refine fun c => ⟨rfl, rfl, le_rfl, ?_⟩
  rintro k p hp
  cases hp

theorem Ordered.update {s : State} (h : Ordered s) (c : ℕ) {client : Client}
    (hclient : client.Ordered) (d : ℕ) : (Function.update s.clients c client d).Ordered := by
  rcases eq_or_ne d c with rfl | hd
  · rwa [Function.update_self]
  · rw [Function.update_of_ne hd]
    exact h d

theorem ordered_step (s : State) (e : Event) (t : State) (h : Ordered s)
    (hstep : step s e = some t) : Ordered t := by
  rcases step_cases hstep with ⟨c, line, subject, -, hsubject, -, ht, -, -⟩ |
    ⟨c, k, -, -, -, ht, -, -⟩ | ⟨-, -, -, -, ht | ⟨c, recvline, client, hclient, ht⟩⟩
  · intro d
    rw [ht]
    exact h.update c ((h c).subscribe (subjectOf_ne_nil hsubject)) d
  · intro d
    rw [ht]
    exact h d
  · intro d
    rw [ht]
    exact h d
  · intro d
    rw [ht]
    exact h.update c ((h c).announced hclient).1 d

/-- In every run, the number of the `k`-th subscription of a client is `k`. -/
theorem client_run {es : List Event} {s : State} (h : run step State.init es = some s) :
    Ordered s :=
  run_invariant ordered_step ordered_init h

/-! ### The threads of all clients -/

/-- The threads after a step: a new one is behind the others. -/
theorem threads_step {s t : State} {e : Event} (hs : Ordered s) (hstep : step s e = some t) (d : ℕ) :
    (∃ line subject, e = .line d line ∧ subjectOf line = some subject ∧
      (s.clients d).addtoList subject = some true ∧
      (t.clients d).threads =
        (s.clients d).threads ++ [(subject, group ((s.clients d).threads.length + 1))]) ∨
    (t.clients d).threads = (s.clients d).threads := by
  rcases step_cases hstep with ⟨c, line, subject, he, hsubject, hadd, ht, -, -⟩ |
    ⟨c, k, -, -, -, ht, -, -⟩ | ⟨-, -, -, -, ht | ⟨c, recvline, client, hclient, ht⟩⟩
  · rw [ht]
    rcases eq_or_ne d c with rfl | hd
    · refine Or.inl ⟨line, subject, he, hsubject, hadd, ?_⟩
      rw [Function.update_self, Client.subscribe, (hs d).tid]
    · exact Or.inr (by rw [Function.update_of_ne hd])
  · exact Or.inr (by rw [ht])
  · exact Or.inr (by rw [ht])
  · rw [ht]
    rcases eq_or_ne d c with rfl | hd
    · exact Or.inr (by rw [Function.update_self, ((hs d).announced hclient).2])
    · exact Or.inr (by rw [Function.update_of_ne hd])

/-- **The invariant of the threads**: the object `data` has the number of the latest subscription, the
subjects of a client are all different, and a thread has read its own number or a later one. -/
structure Wired (s : State) : Prop where
  ordered : Ordered s
  data : ∀ c, s.data c = (s.clients c).threads.length
  distinct : ∀ (c k j : ℕ) (p q : Text × String), (s.clients c).threads[k]? = some p →
    (s.clients c).threads[j]? = some q → p.1 = q.1 → k = j
  number : ∀ c k g, s.bound c k = some g → k < (s.clients c).threads.length ∧
    ∃ n, k < n ∧ n ≤ (s.clients c).threads.length ∧ g = group n

theorem wired_init : Wired State.init where
  ordered := ordered_init
  data _ := rfl
  distinct _ _ _ _ _ hp := by cases hp
  number _ _ _ hg := by cases hg

theorem getElem?_concat_cases {α : Type*} {l : List α} {a p : α} {k : ℕ}
    (h : (l ++ [a])[k]? = some p) : l[k]? = some p ∨ k = l.length ∧ p = a := by
  rcases lt_trichotomy k l.length with hk | rfl | hk
  · exact Or.inl (List.getElem?_append_left hk ▸ h)
  · rw [List.getElem?_concat_length] at h
    exact Or.inr ⟨rfl, (Option.some_inj.1 h).symm⟩
  · rw [List.getElem?_eq_none (by simpa using hk)] at h
    cases h

/-- A subscription: the new subject is none of the client's own. -/
theorem distinct_concat {c : Client} (hc : c.Ordered) {subject : Text} {g : String}
    (hadd : c.addtoList subject = some true)
    (hdistinct : ∀ (k j : ℕ) (p q : Text × String), c.threads[k]? = some p →
      c.threads[j]? = some q → p.1 = q.1 → k = j) :
    ∀ (k j : ℕ) (p q : Text × String), (c.threads ++ [(subject, g)])[k]? = some p →
      (c.threads ++ [(subject, g)])[j]? = some q → p.1 = q.1 → k = j := by
  intro k j p q hp hq heq
  rcases getElem?_concat_cases hp with hp | ⟨rfl, rfl⟩
  · rcases getElem?_concat_cases hq with hq | ⟨rfl, rfl⟩
    · exact hdistinct k j p q hp hq heq
    · exact absurd heq (hc.ne_of_addtoList hadd hp)
  · rcases getElem?_concat_cases hq with hq | ⟨rfl, rfl⟩
    · exact absurd heq.symm (hc.ne_of_addtoList hadd hq)
    · rfl

/-- A thread reads what is in the object `data`. -/
theorem bound_thread {s : State} {c k : ℕ} {g : String} {d j : ℕ} {h : String}
    (hbound : Function.update s.bound c (Function.update (s.bound c) k (some g)) d j = some h) :
    d = c ∧ j = k ∧ h = g ∨ s.bound d j = some h := by
  rcases eq_or_ne d c with rfl | hd
  · rw [Function.update_self] at hbound
    rcases eq_or_ne j k with rfl | hj
    · rw [Function.update_self] at hbound
      exact Or.inl ⟨rfl, rfl, (Option.some_inj.1 hbound).symm⟩
    · rw [Function.update_of_ne hj] at hbound
      exact Or.inr hbound
  · rw [Function.update_of_ne hd] at hbound
    exact Or.inr hbound

theorem wired_step (s : State) (e : Event) (t : State) (h : Wired s) (hstep : step s e = some t) :
    Wired t := by
  have hordered := ordered_step s e t h.ordered hstep
  have hthreads := threads_step h.ordered hstep
  have hdistinct : ∀ (c k j : ℕ) (p q : Text × String), (t.clients c).threads[k]? = some p →
      (t.clients c).threads[j]? = some q → p.1 = q.1 → k = j := by
    intro c
    rcases hthreads c with ⟨line, subject, -, -, hadd, ht⟩ | ht
    · rw [ht]
      exact distinct_concat (h.ordered c) hadd (h.distinct c)
    · rw [ht]
      exact h.distinct c
  -- the threads are not fewer than before
  have hle : ∀ c, (s.clients c).threads.length ≤ (t.clients c).threads.length := by
    intro c
    rcases hthreads c with ⟨line, subject, -, -, -, ht⟩ | ht
    · rw [ht, List.length_append]
      exact Nat.le_add_right _ _
    · exact ht ▸ le_rfl
  have hnumber : ∀ c k g, s.bound c k = some g → k < (t.clients c).threads.length ∧
      ∃ n, k < n ∧ n ≤ (t.clients c).threads.length ∧ g = group n := by
    intro c k g hg
    obtain ⟨hk, n, hkn, hn, heq⟩ := h.number c k g hg
    exact ⟨hk.trans_le (hle c), n, hkn, hn.trans (hle c), heq⟩
  rcases step_cases hstep with ⟨c, line, subject, -, -, -, ht, hdata, hbound⟩ |
    ⟨c, k, -, hk, -, ht, hdata, hbound⟩ | ⟨hno, -, hdata, hbound, ht⟩
  · refine ⟨hordered, fun d => ?_, hdistinct, hbound ▸ hnumber⟩
    rw [hdata, ht]
    rcases eq_or_ne d c with rfl | hd
    · rw [Function.update_self, Function.update_self, (h.ordered d).tid, Client.subscribe,
        List.length_append, List.length_singleton]
    · rw [Function.update_of_ne hd, Function.update_of_ne hd, h.data d]
  · refine ⟨hordered, fun d => by rw [hdata, ht, h.data d], hdistinct, ?_⟩
    intro d j g hg
    rw [hbound] at hg
    rcases bound_thread hg with ⟨rfl, rfl, rfl⟩ | hg
    · rw [ht]
      exact ⟨hk, _, (h.data d).symm ▸ hk, (h.data d).le, rfl⟩
    · exact hnumber d j g hg
  · refine ⟨hordered, fun d => ?_, hdistinct, hbound ▸ hnumber⟩
    rcases hthreads d with ⟨line, subject, he, hsubject, hadd, -⟩ | hsame
    · exact absurd hadd (hno d line subject he hsubject)
    · rw [hdata, hsame, h.data d]

theorem wired_run {es : List Event} {s : State} (h : run step State.init es = some s) : Wired s :=
  run_invariant wired_step wired_init h

/-! ### Runs that are in step agree -/

/-- **What steps that are in step keep**: two threads are for the same subject if and only if they are at
the same place, and a thread that is bound has read its own number. -/
structure Matched (s : State) : Prop where
  subjects : ∀ (c d k j : ℕ) (p q : Text × String), (s.clients c).threads[k]? = some p →
    (s.clients d).threads[j]? = some q → (p.1 = q.1 ↔ k = j)
  own : ∀ c k g, s.bound c k = some g → g = group (k + 1)

theorem Matched.agree {s : State} (h : Matched s) : Agree s := by
  intro c d k j p q g g' hp hq hg hg'
  rw [h.subjects c d k j p q hp hq, h.own c k g hg, h.own d j g' hg', group_inj,
    Nat.add_right_cancel_iff]

theorem matched_init : Matched State.init where
  subjects _ _ _ _ _ _ hp := by cases hp
  own _ _ _ hg := by cases hg

/-- The subjects after a subscription that is in step. -/
theorem subjects_step {s t : State} {e : Event} (hs : Wired s) (h : Matched s) (hinstep : InStep s e)
    (hstep : step s e = some t) : ∀ (c d k j : ℕ) (p q : Text × String),
      (t.clients c).threads[k]? = some p → (t.clients d).threads[j]? = some q →
        (p.1 = q.1 ↔ k = j) := by
  intro c d k j p q hp hq
  have ht := wired_step s e t hs hstep
  rcases eq_or_ne d c with rfl | hd
  · constructor
    · exact ht.distinct d k j p q hp hq
    · rintro rfl
      rw [Option.some_inj.1 (hp.symm.trans hq)]
  -- at most one of the two clients has a new thread
  rcases threads_step hs.ordered hstep c with ⟨line, subject, rfl, hsubject, hadd, hc⟩ | hc
  · have hd' : (t.clients d).threads = (s.clients d).threads := by
      rcases threads_step hs.ordered hstep d with ⟨_, _, he, -⟩ | hd'
      · cases he
        exact absurd rfl hd
      · exact hd'
    rw [hd'] at hq
    rw [hc] at hp
    rcases getElem?_concat_cases hp with hp | ⟨rfl, rfl⟩
    · exact h.subjects c d k j p q hp hq
    · rw [eq_comm, hinstep subject hsubject hadd d hd j q hq, eq_comm]
  · rw [hc] at hp
    rcases threads_step hs.ordered hstep d with ⟨line, subject, rfl, hsubject, hadd, hd'⟩ | hd'
    · rw [hd'] at hq
      rcases getElem?_concat_cases hq with hq | ⟨rfl, rfl⟩
      · exact h.subjects c d k j p q hp hq
      · exact hinstep subject hsubject hadd c hd.symm k p hp
    · rw [hd'] at hq
      exact h.subjects c d k j p q hp hq

/-- **The step lemma.** -/
theorem matched_step (s : State) (e : Event) (t : State) (h : Wired s ∧ Matched s)
    (hinstep : InStep s e) (hstep : step s e = some t) : Wired t ∧ Matched t := by
  obtain ⟨hs, h⟩ := h
  refine ⟨wired_step s e t hs hstep, subjects_step hs h hinstep hstep, ?_⟩
  intro d j g hg
  rcases step_cases hstep with ⟨-, -, -, -, -, -, -, -, hbound⟩ |
    ⟨c, k, rfl, -, -, -, -, hbound⟩ | ⟨-, -, -, hbound, -⟩
  · exact h.own d j g (hbound ▸ hg)
  · rw [hbound] at hg
    rcases bound_thread hg with ⟨rfl, rfl, rfl⟩ | hg
    · rw [hs.data d, show (s.clients d).threads.length = j + 1 from hinstep]
    · exact h.own d j g hg
  · exact h.own d j g (hbound ▸ hg)

/-! ### Runs that agree are in step -/

/-- **Numbers that are all different and not too small are in order.** -/
theorem number_eq_of_le {n : ℕ} {number : ℕ → ℕ} (hlt : ∀ k < n, k < number k)
    (hle : ∀ k < n, number k ≤ n) (hinj : ∀ k < n, ∀ j < n, number k = number j → k = j) :
    ∀ k < n, number k = k + 1 := by
  intro k hk
  -- by induction from the last number downwards
  induction hm : n - k using Nat.strong_induction_on generalizing k with
  | _ m ih =>
      by_contra hne
      have hlow := hlt k hk
      have hhigh := hle k hk
      have hother := ih (n - (number k - 1)) (by omega) (number k - 1) (by omega) rfl
      have hsame := hinj k hk (number k - 1) (by omega) (by omega)
      omega

/-- Where the clients agree and all threads are bound, every thread has read its own number. -/
theorem own_of_agree {s : State} (hs : Wired s) (hall : AllBound s) (hagree : Agree s) {c k : ℕ}
    (hk : k < (s.clients c).threads.length) : s.bound c k = some (group (k + 1)) := by
  have hread : ∀ k < (s.clients c).threads.length, ∃ n, k < n ∧ n ≤ (s.clients c).threads.length ∧
      s.bound c k = some (group n) := by
    intro k hk
    obtain ⟨g, hg⟩ := hall c k hk
    obtain ⟨-, n, hkn, hn, rfl⟩ := hs.number c k g hg
    exact ⟨n, hkn, hn, hg⟩
  choose! number hlt hle hnumber using hread
  rw [hnumber k hk, number_eq_of_le hlt hle ?_ k hk]
  intro i hi j hj heq
  have hgi := hnumber i hi
  rw [heq] at hgi
  have hsame := (hagree c c i j _ _ _ _ (List.getElem?_eq_getElem hi)
    (List.getElem?_eq_getElem hj) hgi (hnumber j hj)).2 rfl
  exact hs.distinct c i j _ _ (List.getElem?_eq_getElem hi) (List.getElem?_eq_getElem hj) hsame

/-- Nothing that was subscribed to or bound is given up. -/
structure Extends (s t : State) : Prop where
  threads : ∀ (c k : ℕ) (p : Text × String), (s.clients c).threads[k]? = some p →
    (t.clients c).threads[k]? = some p
  bound : ∀ c k g, s.bound c k = some g → t.bound c k = some g

theorem extends_step {s t : State} {e : Event} (hs : Wired s) (hstep : step s e = some t) :
    Extends s t where
  threads c k p hp := by
    rcases threads_step hs.ordered hstep c with ⟨_, _, -, -, -, ht⟩ | ht
    · rw [ht, List.getElem?_append_left (List.getElem?_eq_some_iff.1 hp).1]
      exact hp
    · exact ht ▸ hp
  bound d j g hg := by
    rcases step_cases hstep with ⟨-, -, -, -, -, -, -, -, hbound⟩ |
      ⟨c, k, -, -, hfree, -, -, hbound⟩ | ⟨-, -, -, hbound, -⟩
    · exact hbound ▸ hg
    · rw [hbound]
      rcases eq_or_ne d c with rfl | hd
      · rw [Function.update_self, Function.update_of_ne ?_]
        · exact hg
        · rintro rfl
          rw [hfree] at hg
          cases hg
      · rw [Function.update_of_ne hd]
        exact hg
    · exact hbound ▸ hg

theorem extends_run {s t : State} {es : List Event} (hs : Wired s) (hrun : run step s es = some t) :
    Extends s t := by
  induction es generalizing s with
  | nil =>
      obtain rfl := Option.some_inj.1 hrun
      exact ⟨fun _ _ _ => id, fun _ _ _ => id⟩
  | cons e es ih =>
      obtain ⟨u, hu, hrest⟩ := run_cons_eq_some.1 hrun
      have hfirst := extends_step hs hu
      have hlater := ih (wired_step s e u hs hu) hrest
      exact ⟨fun c k p hp => hlater.threads c k p (hfirst.threads c k p hp),
        fun c k g hg => hlater.bound c k g (hfirst.bound c k g hg)⟩

/-- A step that leads to a matched state was in step. -/
theorem inStep_of_matched {s u t : State} {e : Event} (hs : Wired s) (hstep : step s e = some u)
    (hlater : Extends u t) (ht : Matched t) : InStep s e := by
  have hfirst := extends_step hs hstep
  cases e with
  | line c line =>
      intro subject hsubject hadd d hd k p hp
      rcases threads_step hs.ordered hstep c with ⟨_, subject', he, hsubject', -, hu⟩ | hu
      · cases he
        obtain rfl := Option.some_inj.1 (hsubject.symm.trans hsubject')
        have hnew := hlater.threads c _ _ (hu ▸ List.getElem?_concat_length)
        exact ht.subjects d c k _ p _ (hlater.threads d k p (hfirst.threads d k p hp)) hnew
      · -- the subscription has started a thread
        rcases step_cases hstep with ⟨_, _, _, he, -, -, hclients, -, -⟩ | ⟨_, _, he, -⟩ | ⟨hno, -⟩
        · cases he
          rw [hclients, Function.update_self, Client.subscribe] at hu
          exact absurd (congrArg List.length hu) (by simp)
        · cases he
        · exact absurd hadd (hno c line subject rfl hsubject)
  | thread c k =>
      rcases step_cases hstep with ⟨_, _, _, he, -⟩ | ⟨_, _, he, -, -, -, -, hbound⟩ | ⟨-, hno, -⟩
      · cases he
      · cases he
        have hread : u.bound c k = some (group (s.data c)) := by
          rw [hbound, Function.update_self, Function.update_self]
        have hown := ht.own c k _ (hlater.bound c k _ hread)
        rw [group_inj, hs.data c] at hown
        exact hown
      · exact absurd rfl (hno c k)
  | chat message => trivial
  | receive c k => trivial

/-- A run to a matched state was in step. -/
theorem along_of_matched {s t : State} {es : List Event} (hs : Wired s)
    (hrun : run step s es = some t) (ht : Matched t) : Along step InStep s es := by
  induction es generalizing s with
  | nil => trivial
  | cons e es ih =>
      obtain ⟨u, hu, hrest⟩ := run_cons_eq_some.1 hrun
      have hwired := wired_step s e u hs hu
      exact (along_cons_of_step hu).2
        ⟨inStep_of_matched hs hu (extends_run hwired hrest) ht, ih hwired hrest⟩

theorem matched_of_agree {s : State} (hs : Wired s) (hall : AllBound s) (hagree : Agree s) :
    Matched s where
  subjects c d k j p q hp hq := by
    have hk := (List.getElem?_eq_some_iff.1 hp).1
    have hj := (List.getElem?_eq_some_iff.1 hq).1
    rw [hagree c d k j p q _ _ hp hq (own_of_agree hs hall hagree hk)
      (own_of_agree hs hall hagree hj), group_inj, Nat.add_right_cancel_iff]
  own c k g hg := by
    have hk := (hs.number c k g hg).1
    exact Option.some_inj.1 (hg.symm.trans (own_of_agree hs hall hagree hk))

/-- The line that subscribes to a subject. -/
def subscribeLine (subject : String) : Text := ("!subscribe \"" ++ subject ++ "\"\n").toList

/-- Two clients that subscribe to the same two subjects, with the announcements in between. -/
def likeOrders : List Event :=
  [.line 0 (subscribeLine "Chemistry"), .line 1 (subscribeLine "Chemistry"), .thread 1 0,
    .receive 1 0, .thread 0 0, .line 0 (subscribeLine "Physics"), .line 1 (subscribeLine "Physics"),
    .thread 0 1, .receive 0 3, .thread 1 1]

/-- The second client takes up another subject before the one of the first client. -/
def unlikeOrders : List Event :=
  [.line 0 (subscribeLine "Chemistry"), .thread 0 0, .line 1 (subscribeLine "Physics"), .thread 1 0,
    .line 1 (subscribeLine "Chemistry"), .thread 1 1]

end Chat
