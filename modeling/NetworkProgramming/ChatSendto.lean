/-
**UDPChatter: a message to the clients of one subject.**

`!sendto "subject" text` is for the group of the subject.  The client cuts the subject out of the line
with its closing quote and without a terminator, compares every subject that it has subscribed to with
the first bytes of that, and sends the text once for each subject that matches.  The destination is
`addr` each time.  It is set before the loop of `main`, to the common group, and the function that would
change it is not called; what the row of the subject decides is the socket that is used to send.

Main definitions:

* `Chat.sendtoOf` — the subject and the text of a line;
* `Chat.Datagram`, `Chat.sendtoLoop`, `Chat.sendtoLine` — what is sent for a line;
* `Chat.Delivered` — what the line asks for.

Main results:

* `Chat.sendtoOf_plain` — a subject without quotes is cut out as it was typed;
* `Chat.dest_of_mem_sendtoLoop` — all datagrams go to the common group;
* `Chat.delivered_iff` — **a line is answered as it should be exactly if** no subject of the client
  matches, and the subject of the line fits into its buffer.
-/

import NetworkProgramming.ChatSubjects

set_option relaxedAutoImplicit false
set_option autoImplicit false

namespace Chat

open Runs

/-! ### The command -/

/-- The size of `send_msg`. -/
def BUFSIZE : ℕ := 8192

/-- The loop that looks for the closing quote, after the characters `subject` of the subject: a quote
with a space behind it that is not the first character. -/
def quoted : Text → Text → Option (Text × Text)
  | _, [] => none
  | subject, c :: rest =>
      if c = '\n' then none
      else if subject ≠ [] ∧ c = '"' ∧ rest.head? = some ' ' then some (subject, rest.drop 1)
      else quoted (subject ++ [c]) rest

/-- The subject and the text of a line `!sendto "subject" text`. -/
def sendtoOf (line : Text) : Option (Text × Text) :=
  if line.take 8 = "!sendto ".toList ∧ (line.drop 8).head? = some '"' then
    quoted [] (line.drop 9)
  else none

/-- The local buffer `subject`, which is not initialised. -/
structure SubjectBuffer where
  bytes : Text
  length_eq : bytes.length = rowSize

/-- `strncpy` of the subject and its closing quote. -/
def SubjectBuffer.copy (old : SubjectBuffer) (subject : Text) : Option Text :=
  if subject.length + 1 ≤ rowSize then
    some (subject ++ '"' :: old.bytes.drop (subject.length + 1))
  else none

/-- `strcat` to `send_msg`. -/
def strcat (msg text : Text) : Option Text :=
  if msg.length + text.length < BUFSIZE then some (msg ++ text) else none

/-- A datagram: the row of `subject_list` that it was sent for, the C string in it, and the group that it
is sent to. -/
structure Datagram where
  row : Option ℕ
  message : Text
  dest : String

/-- `addr`, which is set before the loop of `main`. -/
def addr : String := group 0

/-- The loop over the subjects of the client, from row `i` on.  Each match adds the text to the message
once more. -/
def sendtoLoop (c : Client) (buffer text : Text) : ℕ → ℕ → Text → Option (List Datagram)
  | 0, _, _ => some []
  | n + 1, i, msg =>
      if (c.subjectList i).isPrefixOf buffer then
        (strcat msg text).bind fun msg =>
          (sendtoLoop c buffer text n (i + 1) msg).map fun sent => ⟨some i, msg, addr⟩ :: sent
      else sendtoLoop c buffer text n (i + 1) msg

/-- What is sent for a line that starts with `!sendto`, with the sender and the time in `header`. -/
def sendtoLine (c : Client) (old : SubjectBuffer) (header line : Text) : Option (List Datagram) :=
  match sendtoOf line with
  | none => (strcat header line).map fun msg => [⟨none, msg, addr⟩]
  | some (subject, text) =>
      (old.copy subject).bind fun buffer =>
        (sendtoLoop c buffer text (c.numThreads - 1) 0 header).map fun sent =>
          if sent.isEmpty then [⟨none, header, addr⟩] else sent

/-- **What the line asks for.**  A client that is subscribed to the subject sends one datagram, with the
text, to the group of its receiver thread for the subject; and no other subject makes it send. -/
def Delivered (c : Client) (old : SubjectBuffer) (header line : Text) : Prop :=
  ∀ subject text, sendtoOf line = some (subject, text) →
    ∃ sent, sendtoLine c old header line = some sent ∧
      (∀ thread ∈ c.threads, thread.1 = subject →
        ∃ d, sent = [d] ∧ d.message = header ++ text ∧ d.dest = thread.2) ∧
      ∀ d ∈ sent, ∀ i, d.row = some i → c.subjectList i = subject

/-! ### The line -/

section Line

theorem quoted_plain (front : Text) {subject : Text} (hfront : front ++ subject ≠ [])
    (hsubject : ∀ c ∈ subject, c ≠ '"' ∧ c ≠ '\n') (text : Text) :
    quoted front (subject ++ '"' :: ' ' :: text) = some (front ++ subject, text) := by
  induction subject generalizing front with
  | nil =>
      rw [List.append_nil] at hfront ⊢
      rw [List.nil_append, quoted, if_neg (by decide), if_pos ⟨hfront, rfl, rfl⟩]
      rfl
  | cons c subject ih =>
      obtain ⟨hquote, hnewline⟩ := hsubject c List.mem_cons_self
      rw [List.cons_append, quoted, if_neg hnewline, if_neg (fun h => hquote h.2.1),
        ih _ (by simp) (fun d hd => hsubject d (List.mem_cons_of_mem _ hd)), List.append_assoc,
        List.singleton_append]

/-- **A subject without quotes is cut out as it was typed.** -/
theorem sendtoOf_plain {subject : Text} (hne : subject ≠ [])
    (hsubject : ∀ c ∈ subject, c ≠ '"' ∧ c ≠ '\n') (text : Text) :
    sendtoOf ("!sendto \"".toList ++ subject ++ '"' :: ' ' :: text) = some (subject, text) := by
  rw [List.append_assoc]
  exact quoted_plain [] hne hsubject text

end Line

/-! ### The loop over the subjects -/

section Loop

variable {c : Client} {buffer text msg : Text} {sent : List Datagram} {n i : ℕ}

/-- **All datagrams go to the common group.** -/
theorem dest_of_mem_sendtoLoop (h : sendtoLoop c buffer text n i msg = some sent) :
    ∀ d ∈ sent, d.dest = addr := by
  induction n generalizing i msg sent with
  | zero =>
      obtain rfl := Option.some_inj.1 h
      intro d hd
      cases hd
  | succ n ih =>
      rw [sendtoLoop] at h
      split_ifs at h
      · obtain ⟨msg', -, h⟩ := Option.bind_eq_some_iff.1 h
        obtain ⟨sent', hsent', rfl⟩ := Option.map_eq_some_iff.1 h
        exact List.forall_mem_cons.2 ⟨rfl, ih hsent'⟩
      · exact ih h

/-- Every row that matches makes the client send. -/
theorem exists_mem_sendtoLoop (h : sendtoLoop c buffer text n i msg = some sent) {j : ℕ}
    (hij : i ≤ j) (hj : j < i + n) (hmatch : c.subjectList j <+: buffer) :
    ∃ d ∈ sent, d.row = some j := by
  induction n generalizing i msg sent with
  | zero => omega
  | succ n ih =>
      rw [sendtoLoop] at h
      rcases eq_or_lt_of_le hij with rfl | hij
      · rw [if_pos (List.isPrefixOf_iff_prefix.2 hmatch)] at h
        obtain ⟨msg', -, h⟩ := Option.bind_eq_some_iff.1 h
        obtain ⟨sent', -, rfl⟩ := Option.map_eq_some_iff.1 h
        exact ⟨_, List.mem_cons_self, rfl⟩
      · split_ifs at h
        · obtain ⟨msg', -, h⟩ := Option.bind_eq_some_iff.1 h
          obtain ⟨sent', hsent', rfl⟩ := Option.map_eq_some_iff.1 h
          obtain ⟨d, hd, hrow⟩ := ih hsent' hij (by omega)
          exact ⟨d, List.mem_cons_of_mem _ hd, hrow⟩
        · exact ih h hij (by omega)

/-- Without a match nothing is sent. -/
theorem sendtoLoop_of_no_match (hno : ∀ j, i ≤ j → j < i + n → ¬ c.subjectList j <+: buffer) :
    sendtoLoop c buffer text n i msg = some [] := by
  induction n generalizing i with
  | zero => rfl
  | succ n ih =>
      have hrow : ¬ (c.subjectList i).isPrefixOf buffer = true := by
        rw [List.isPrefixOf_iff_prefix]
        exact hno i le_rfl (by omega)
      rw [sendtoLoop, if_neg hrow]
      exact ih fun j hj hlt => hno j (by omega) (by omega)

end Loop

/-! ### What is delivered -/

section Delivery

variable {c : Client}

theorem ordered_clientStep (c : Client) (e : ClientEvent) (c' : Client) (h : c.Ordered)
    (hstep : clientStep c e = some c') : c'.Ordered := by
  cases e with
  | line typed =>
      rcases clientStep_line_cases hstep with ⟨-, rfl⟩ |
        ⟨subject, hsubject, -, ⟨-, rfl⟩ | ⟨-, -, -, rfl⟩⟩
      · exact h
      · exact h
      · exact h.subscribe (subjectOf_ne_nil hsubject)
  | announcement recvline =>
      simp only [clientStep] at hstep
      split_ifs at hstep
      exact (h.announced hstep).1

/-- Each of the first rows is the subject of a thread. -/
theorem Client.Ordered.exists_thread (h : c.Ordered) {j : ℕ} (hj : j < c.numThreads - 1) :
    ∃ thread ∈ c.threads, thread.1 = c.subjectList j := by
  have hlt : j < c.threads.length := by
    rw [h.numThreads] at hj
    exact hj
  refine ⟨c.threads[j], List.getElem_mem hlt, ?_⟩
  exact (h.thread j _ (List.getElem?_eq_getElem hlt)).2.1.symm

/-- The subject of each thread is in one of the first rows. -/
theorem Client.Ordered.exists_row (h : c.Ordered) {thread : Text × String}
    (hthread : thread ∈ c.threads) : ∃ j < c.numThreads - 1, c.subjectList j = thread.1 := by
  obtain ⟨j, hj⟩ := List.mem_iff_getElem?.1 hthread
  refine ⟨j, ?_, (h.thread j thread hj).2.1⟩
  rw [h.numThreads]
  exact (List.getElem?_eq_some_iff.1 hj).1

/-- No thread but the first one listens to the common group. -/
theorem Client.Ordered.group_ne_addr (h : c.Ordered) {thread : Text × String}
    (hthread : thread ∈ c.threads) : thread.2 ≠ addr := by
  obtain ⟨j, hj⟩ := List.mem_iff_getElem?.1 hthread
  rw [(h.thread j thread hj).1, addr, Ne, group_inj]
  exact Nat.succ_ne_zero j

/-- A subject of the client that begins the buffer makes it send, and to the common group only. -/
theorem sendtoLine_of_match (h : c.Ordered) {old : SubjectBuffer} {header line subject text : Text}
    {sent : List Datagram} (hline : sendtoOf line = some (subject, text))
    (hsent : sendtoLine c old header line = some sent) :
    subject.length < rowSize ∧ ∀ thread ∈ c.threads,
      thread.1 <+: subject ++ '"' :: old.bytes.drop (subject.length + 1) →
        (∃ d ∈ sent, ∃ j, d.row = some j ∧ c.subjectList j = thread.1) ∧ ∀ d ∈ sent, d.dest = addr := by
  simp only [sendtoLine, hline] at hsent
  obtain ⟨buffer, hbuffer, hmap⟩ := Option.bind_eq_some_iff.1 hsent
  obtain ⟨sent', hloop, hwhole⟩ := Option.map_eq_some_iff.1 hmap
  rw [SubjectBuffer.copy] at hbuffer
  split_ifs at hbuffer with hlen
  obtain rfl := Option.some_inj.1 hbuffer
  refine ⟨hlen, ?_⟩
  intro thread hthread hmatch
  obtain ⟨j, hj, hrow⟩ := h.exists_row hthread
  rw [← hrow] at hmatch
  obtain ⟨d, hd, hdrow⟩ := exists_mem_sendtoLoop hloop (Nat.zero_le j) (by omega) hmatch
  have hsame : sent = sent' := by
    rw [← hwhole, if_neg]
    rw [List.isEmpty_iff]
    exact List.ne_nil_of_mem hd
  rw [hsame]
  exact ⟨⟨d, hd, j, hdrow, hrow⟩, dest_of_mem_sendtoLoop hloop⟩

/-- Without a match the client sends the beginning of a message to the common group. -/
theorem sendtoLine_of_no_match (h : c.Ordered) {old : SubjectBuffer} {line subject text : Text}
    (hline : sendtoOf line = some (subject, text)) (hlen : subject.length < rowSize)
    (hno : ∀ thread ∈ c.threads,
      ¬ thread.1 <+: subject ++ '"' :: old.bytes.drop (subject.length + 1)) (header : Text) :
    sendtoLine c old header line = some [⟨none, header, addr⟩] := by
  have hmatch : ∀ j, 0 ≤ j → j < 0 + (c.numThreads - 1) →
      ¬ c.subjectList j <+: subject ++ '"' :: old.bytes.drop (subject.length + 1) := by
    intro j _ hj hrow
    obtain ⟨thread, hthread, hsubject⟩ := h.exists_thread (j := j) (by omega)
    exact hno thread hthread (hsubject ▸ hrow)
  simp only [sendtoLine, hline]
  rw [SubjectBuffer.copy, if_pos (Nat.succ_le_of_lt hlen), Option.bind_some,
    sendtoLoop_of_no_match hmatch]
  rfl

/-- **When a line is answered as it should be.**  In every client that can be reached, the text of a
line goes where it should and no other subject makes the client send, exactly if the subject fits into
its buffer and no subject that the client is subscribed to begins what is in the buffer: the subject, the
quote behind it, and what the buffer had there before. -/
theorem delivered_iff (es : List ClientEvent) (c : Client)
    (hrun : run clientStep Client.init es = some c) (old : SubjectBuffer) (header line : Text) :
    Delivered c old header line ↔
      ∀ subject text, sendtoOf line = some (subject, text) → subject.length < rowSize ∧
        ∀ thread ∈ c.threads,
          ¬ thread.1 <+: subject ++ '"' :: old.bytes.drop (subject.length + 1) := by
  have hordered : c.Ordered := run_invariant ordered_clientStep tidy_init.ordered hrun
  refine forall_congr' fun subject => forall_congr' fun text => imp_congr_right fun hline => ?_
  constructor
  · rintro ⟨sent, hsent, hdelivered, hrows⟩
    obtain ⟨hlen, hmatch⟩ := sendtoLine_of_match hordered hline hsent
    refine ⟨hlen, ?_⟩
    intro thread hthread hbegins
    obtain ⟨⟨d, hd, j, hdrow, hrow⟩, hdest⟩ := hmatch thread hthread hbegins
    -- the row that matches is the subject itself, and its group is not the common one
    obtain ⟨d', rfl, -, hgroup⟩ := hdelivered thread hthread (hrow.symm.trans (hrows d hd j hdrow))
    apply hordered.group_ne_addr hthread
    rw [← hgroup]
    exact hdest d' (List.mem_singleton_self d')
  · rintro ⟨hlen, hno⟩
    refine ⟨_, sendtoLine_of_no_match hordered hline hlen hno header, ?_, ?_⟩
    · rintro thread hthread rfl
      exact absurd (List.prefix_append _ _) (hno thread hthread)
    · intro d hd i hi
      rw [List.mem_singleton.1 hd] at hi
      cases hi

end Delivery

/-- A buffer that was zero by chance. -/
def zeroBuffer : SubjectBuffer := ⟨List.replicate rowSize '\x00', List.length_replicate⟩

/-- The client has subscribed to Chemistry. -/
def chemist : List ClientEvent := [.line (subscribeLine "Chemistry")]

/-- A message to the subject Chem, which the client is not subscribed to. -/
theorem delivered_chem :
    ∃ c, run clientStep Client.init chemist = some c ∧
      c.threads = [("Chemistry".toList, "239.0.0.1")] ∧
      Delivered c zeroBuffer "me at 10:00: ".toList "!sendto \"Chem\" Test\n".toList := by
  have hthreads : (run clientStep Client.init chemist).map Client.threads =
      some [("Chemistry".toList, "239.0.0.1")] := by
    decide +kernel
  obtain ⟨c, hrun, hc⟩ := Option.map_eq_some_iff.1 hthreads
  refine ⟨c, hrun, hc, (delivered_iff chemist c hrun _ _ _).2 ?_⟩
  intro subject text hline
  have hparsed : sendtoOf "!sendto \"Chem\" Test\n".toList =
      some ("Chem".toList, "Test\n".toList) := by
    decide +kernel
  obtain ⟨rfl, rfl⟩ := Prod.mk.inj (Option.some_inj.1 (hparsed.symm.trans hline))
  refine ⟨by decide, ?_⟩
  rw [hc]
  intro thread hthread
  rw [List.mem_singleton.1 hthread]
  decide +kernel

/-- A message to Chemistry goes to the common group. -/
theorem not_delivered_chemistry :
    ∃ c, run clientStep Client.init chemist = some c ∧
      ("Chemistry".toList, "239.0.0.1") ∈ c.threads ∧
      ¬ Delivered c zeroBuffer "me at 10:00: ".toList "!sendto \"Chemistry\" Test\n".toList := by
  have hboth : (run clientStep Client.init chemist).map (fun c => (c.threads,
      (sendtoLine c zeroBuffer "me at 10:00: ".toList
        "!sendto \"Chemistry\" Test\n".toList).map (List.map Datagram.dest))) =
      some ([("Chemistry".toList, "239.0.0.1")], some ["239.0.0.0"]) := by
    decide +kernel
  obtain ⟨c, hrun, hc⟩ := Option.map_eq_some_iff.1 hboth
  obtain ⟨hthreads, hdest⟩ := Prod.mk.inj hc
  have hmem : ("Chemistry".toList, "239.0.0.1") ∈ c.threads := by
    rw [hthreads]
    exact List.mem_singleton_self _
  have hparsed : sendtoOf "!sendto \"Chemistry\" Test\n".toList =
      some ("Chemistry".toList, "Test\n".toList) := by
    decide +kernel
  refine ⟨c, hrun, hmem, ?_⟩
  intro h
  obtain ⟨sent, hsent, hdelivered, -⟩ := h _ _ hparsed
  obtain ⟨d, rfl, -, hgroup⟩ := hdelivered _ hmem rfl
  rw [hsent, Option.map_some, Option.some_inj, List.map_singleton, hgroup] at hdest
  revert hdest
  decide

end Chat
