/-
**HTTP Requests: the GET request.**

`client.c` formats a request, connects to a server, writes the request to the socket and copies what it
reads from there to its standard output, until the server closes the connection.  The socket takes as
many bytes of a `write` as it likes, and gives as many to a `read`; the client goes on writing until the
whole request is sent, but does not look at how much of the answer its standard output takes.

The format string has the field `Connection: close` behind the empty line, where the head of the request
is over.

Main definitions:

* `HttpGet.request` — the request;
* `HttpGet.step` — a call of `main`, with what it returns;
* `HttpGet.decode` — a request as its receiver reads it;
* `HttpGet.Exchanged` — what was sent and shown.

Main results:

* `HttpGet.exchanged_step` — a call keeps it;
* `HttpGet.exchange` — **the request is sent once, and the answer is shown** unless a write was short;
* `HttpGet.decode_text` — a request is read as it is written;
* `HttpGet.decode_request` — **the receiver does not see the field `Connection`**.
-/

import NetworkProgramming.HttpPost
import NetworkProgramming.Runs

set_option relaxedAutoImplicit false
set_option autoImplicit false

namespace HttpGet

open CString HttpPost Runs

/-! ### `main` -/

/-- `MAX_REQUEST_LEN`. -/
def maxRequestLen : ℕ := 1024

/-- `BUFSIZ`. -/
def bufSiz : ℕ := 8192

/-- `request_header`, with the name of the host. -/
def request (hostname : Text) : Text :=
  "GET / HTTP/1.1\r\nHost: ".toList ++ hostname ++ "\r\n\r\nConnection: close\r\n".toList

/-- The calls before the request is sent. -/
inductive Call
  | getprotobyname
  | socket
  | gethostbyname
  | inetAddr
  | connect
  deriving DecidableEq, Repr

/-- The call behind a call. -/
def Call.next : Call → Option Call
  | getprotobyname => some socket
  | socket => some gethostbyname
  | gethostbyname => some inetAddr
  | inetAddr => some connect
  | connect => none

/-- `perror`. -/
def perror (call reason : Text) : Text := call ++ ": ".toList ++ reason ++ ['\n']

/-- The message when a call fails; `reason` is the text for `errno`, or the address of the host. -/
def Call.message (hostname reason : Text) : Call → Text
  | getprotobyname => perror "getprotobyname()".toList reason
  | socket => perror "socket()".toList reason
  | gethostbyname =>
      "Error: gethostbyname(\"".toList ++ hostname ++ "\"). Host does not exist.\n".toList
  | inetAddr => "Error: inet_addr(\"".toList ++ reason ++ "\")\n".toList
  | connect => perror "connect()".toList reason

/-- The last line of the standard output. -/
def timeTaken (seconds : Text) : Text := "Time taken : ".toList ++ seconds ++ " seconds".toList

/-- Where the program is. -/
inductive Phase
  | calling (call : Call)
  /-- `nbytes_total` bytes are sent. -/
  | sending (total : ℕ)
  | reading
  | exited (success : Bool)
  deriving DecidableEq, Repr

/-- The program, the bytes that were given to the socket, and the part of the answer that was not read
yet. -/
structure State where
  phase : Phase
  sent : Text
  response : Text
  stdout : Text
  stderr : Text
  deriving DecidableEq, Repr

/-- The call that is made, and what it returns: `none` is `-1`. -/
inductive Event
  | call (ok : Bool) (reason seconds : Text)
  | write (nbytes : Option ℕ) (reason seconds : Text)
  /-- The standard output takes `shown` of the bytes that are read. -/
  | read (nbytes : Option ℕ) (shown : ℕ) (reason seconds : Text)
  deriving DecidableEq, Repr

/-- The beginning of `main`. -/
def start (hostname response : Text) : State :=
  if maxRequestLen ≤ (request hostname).length then
    { phase := .exited false
      sent := []
      response := response
      stdout := []
      stderr := "Request length exceeded limit: ".toList ++ decimal (request hostname).length ++
        " bytes\n".toList }
  else
    { phase := .calling .getprotobyname
      sent := []
      response := response
      stdout := []
      stderr := [] }

/-- The program ends and says how long it took. -/
def State.exit (s : State) (success : Bool) (message seconds : Text) : State :=
  { s with
    phase := .exited success
    stdout := s.stdout ++ timeTaken seconds
    stderr := s.stderr ++ message }

/-- **A call of `main`.** -/
def step (hostname : Text) (s : State) : Event → Option State
  | .call ok reason seconds =>
      match s.phase with
      | .calling c =>
          if ok then
            match c.next with
            | some c => some { s with phase := .calling c }
            | none => some { s with phase := .sending 0 }
          else some (s.exit false (c.message hostname reason) seconds)
      | _ => none
  | .write nbytes reason seconds =>
      match s.phase with
      | .sending total =>
          match nbytes with
          | none => some (s.exit false (perror "write()".toList reason) seconds)
          | some k =>
              if total + k ≤ (request hostname).length then
                some { s with
                  phase := if total + k < (request hostname).length then .sending (total + k) else .reading
                  sent := s.sent ++ ((request hostname).drop total).take k }
              else none
      | _ => none
  | .read nbytes shown reason seconds =>
      match s.phase with
      | .reading =>
          match nbytes with
          | none => some (s.exit false (perror "read()".toList reason) seconds)
          | some 0 => if s.response = [] then some (s.exit true [] seconds) else none
          | some n =>
              if n ≤ bufSiz ∧ n ≤ s.response.length ∧ shown ≤ n then
                some { s with
                  response := s.response.drop n
                  stdout := s.stdout ++ (s.response.take n).take shown }
              else none
      | _ => none

/-! ### What is sent and shown -/

/-- The bytes that are read in a call and not shown. -/
def Event.lost : Event → ℕ
  | .read (some n) shown _ _ => n - shown
  | _ => 0

/-- **What was sent and shown**, when `lost` bytes of the answer were read and not shown. -/
def Exchanged (hostname response : Text) (lost : ℕ) (s : State) : Prop :=
  match s.phase with
  | .calling _ => s.sent = [] ∧ s.stdout = [] ∧ s.response = response ∧ lost = 0
  | .sending total => s.sent = (request hostname).take total ∧ total < (request hostname).length ∧
      s.stdout = [] ∧ s.response = response ∧ lost = 0
  | .reading => s.sent = request hostname ∧ ∃ got, got ++ s.response = response ∧
      s.stdout.Sublist got ∧ s.stdout.length + lost = got.length
  | .exited true => s.sent = request hostname ∧ ∃ out seconds, s.stdout = out ++ timeTaken seconds ∧
      out.Sublist response ∧ out.length + lost = response.length
  | .exited false => s.sent <+: request hostname

section Exchange

variable {hostname response : Text} {lost : ℕ} {s t : State}

theorem length_request (hostname : Text) : (request hostname).length = 45 + hostname.length := by
  have hline : "GET / HTTP/1.1\r\nHost: ".toList.length = 22 := by simp
  have hend : "\r\n\r\nConnection: close\r\n".toList.length = 23 := by simp
  unfold request
  generalize "GET / HTTP/1.1\r\nHost: ".toList = line at hline ⊢
  generalize "\r\n\r\nConnection: close\r\n".toList = fields at hend ⊢
  simp only [List.length_append, hline, hend]
  omega

theorem request_length_pos (hostname : Text) : 0 < (request hostname).length := by
  rw [length_request]
  omega

theorem exchanged_start (hostname response : Text) :
    Exchanged hostname response 0 (start hostname response) := by
  unfold start
  split_ifs
  · exact List.nil_prefix
  · exact ⟨rfl, rfl, rfl, rfl⟩

theorem exchanged_call {ok : Bool} {reason seconds : Text} (hs : Exchanged hostname response lost s)
    (h : step hostname s (.call ok reason seconds) = some t) : Exchanged hostname response lost t := by
  obtain ⟨phase, sent, rest, stdout, stderr⟩ := s
  cases phase with
  | calling c =>
      obtain ⟨rfl, rfl, rfl, rfl⟩ := hs
      simp only [step] at h
      split_ifs at h
      · split at h
        · cases h
          exact ⟨rfl, rfl, rfl, rfl⟩
        · cases h
          exact ⟨rfl, request_length_pos hostname, rfl, rfl, rfl⟩
      · cases h
        exact List.nil_prefix
  | sending total => cases h
  | reading => cases h
  | exited success => cases h

/-- The socket takes some more bytes of the request. -/
theorem exchanged_write {nbytes : Option ℕ} {reason seconds : Text}
    (hs : Exchanged hostname response lost s)
    (h : step hostname s (.write nbytes reason seconds) = some t) :
    Exchanged hostname response lost t := by
  obtain ⟨phase, sent, rest, stdout, stderr⟩ := s
  cases phase with
  | sending total =>
      obtain ⟨rfl, hlt, rfl, rfl, rfl⟩ := hs
      cases nbytes with
      | none =>
          cases h
          exact List.take_prefix _ _
      | some k =>
          simp only [step] at h
          have htake : (request hostname).take total ++ ((request hostname).drop total).take k =
              (request hostname).take (total + k) := List.take_add.symm
          rw [htake] at h
          split_ifs at h with hle hmore
          · cases h
            exact ⟨rfl, hmore, rfl, rfl, rfl⟩
          · cases h
            exact ⟨List.take_of_length_le (Nat.le_of_not_lt hmore), [], rfl, List.nil_sublist _, rfl⟩
  | calling c => cases h
  | reading => cases h
  | exited success => cases h

/-- The next bytes of the answer are read, and shown as far as the standard output takes them. -/
theorem exchanged_read {nbytes : Option ℕ} {shown : ℕ} {reason seconds : Text}
    (hs : Exchanged hostname response lost s)
    (h : step hostname s (.read nbytes shown reason seconds) = some t) :
    Exchanged hostname response (lost + Event.lost (.read nbytes shown reason seconds)) t := by
  obtain ⟨phase, sent, rest, stdout, stderr⟩ := s
  cases phase with
  | reading =>
      obtain ⟨rfl, got, rfl, hsub, hlen⟩ := hs
      rcases nbytes with _ | _ | n
      · cases h
        exact List.prefix_rfl
      · simp only [step] at h
        split_ifs at h with hnil
        cases h
        obtain rfl := hnil
        refine ⟨rfl, stdout, seconds, rfl, ?_, ?_⟩
        · rwa [List.append_nil]
        · rw [List.append_nil, Event.lost, Nat.zero_sub, Nat.add_zero]
          exact hlen
      · simp only [step] at h
        split_ifs at h with hle
        obtain ⟨-, hrest, hshown⟩ := hle
        cases h
        refine ⟨rfl, got ++ rest.take (n + 1), ?_, ?_, ?_⟩
        · rw [List.append_assoc, List.take_append_drop]
        · exact hsub.append (List.take_sublist _ _)
        · simp only [List.length_append, List.length_take, Event.lost] at hlen ⊢
          omega
  | calling c => cases h
  | sending total => cases h
  | exited success => cases h

/-- **A call keeps what was sent and shown.** -/
theorem exchanged_step {e : Event} (hs : Exchanged hostname response lost s)
    (h : step hostname s e = some t) : Exchanged hostname response (lost + e.lost) t := by
  cases e with
  | call ok reason seconds => exact exchanged_call hs h
  | write nbytes reason seconds => exact exchanged_write hs h
  | read nbytes shown reason seconds => exact exchanged_read hs h

theorem exchanged_run {es : List Event} (hs : Exchanged hostname response lost s)
    (h : run (step hostname) s es = some t) :
    Exchanged hostname response (lost + (es.map Event.lost).sum) t := by
  induction es generalizing s lost with
  | nil =>
      cases h
      exact hs
  | cons e es ih =>
      obtain ⟨s', he, hrest⟩ := run_cons_eq_some.1 h
      rw [List.map_cons, List.sum_cons, ← Nat.add_assoc]
      exact ih (exchanged_step hs he) hrest

end Exchange

/-- **The request is sent once, and the answer is shown.**  In every state of every run, however the
bytes are divided between the calls, what was sent is the front of the request, and the whole of it when
the program reads.  When it ends with success, it has shown the answer and the time, exactly unless the
standard output did not take all bytes of a call. -/
theorem exchange (hostname response : Text) (es : List Event) (s : State)
    (h : run (step hostname) (start hostname response) es = some s) :
    s.sent <+: request hostname ∧
      (s.phase = .reading ∨ s.phase = .exited true → s.sent = request hostname) ∧
      (s.phase = .exited true → ∃ out seconds, s.stdout = out ++ timeTaken seconds ∧
        out.Sublist response ∧ (out = response ↔ ∀ e ∈ es, e.lost = 0)) := by
  have hs := exchanged_run (exchanged_start hostname response) h
  rw [Nat.zero_add] at hs
  obtain ⟨phase, sent, rest, stdout, stderr⟩ := s
  cases phase with
  | calling c =>
      obtain ⟨rfl, -⟩ := hs
      exact ⟨List.nil_prefix, by simp, by simp⟩
  | sending total =>
      obtain ⟨rfl, -⟩ := hs
      exact ⟨List.take_prefix _ _, by simp, by simp⟩
  | reading =>
      obtain ⟨rfl, -⟩ := hs
      exact ⟨List.prefix_rfl, fun _ => rfl, by simp⟩
  | exited success =>
      cases success with
      | false => exact ⟨hs, by simp, by simp⟩
      | true =>
          obtain ⟨rfl, out, seconds, rfl, hsub, hlen⟩ := hs
          refine ⟨List.prefix_rfl, fun _ => rfl, fun _ => ⟨out, seconds, rfl, hsub, ?_⟩⟩
          rw [show (∀ e ∈ es, e.lost = 0) ↔ (es.map Event.lost).sum = 0 by
            simp [List.sum_eq_zero_iff]]
          constructor
          · rintro rfl
            omega
          · intro hzero
            exact hsub.eq_of_length (by omega)

/-- The calls succeed, the request is sent in two pieces, and the answer is read in two pieces, of which
the second one is not shown to its end. -/
def dividedRun : List Event :=
  List.replicate 5 (.call true [] []) ++
    [.write (some 40) [] [], .write (some 16) [] [], .read (some 2) 2 [] [], .read (some 3) 1 [] [],
      .read (some 0) 0 [] "0.105".toList]

theorem run_dividedRun :
    run (step "example.com".toList) (start "example.com".toList "hello".toList) dividedRun = some
      { phase := .exited true
        sent := request "example.com".toList
        response := []
        stdout := "hel".toList ++ timeTaken "0.105".toList
        stderr := [] } := by
  decide +kernel

/-- The page of `example.com`. -/
theorem exchange_example :
    ∃ s out seconds,
      run (step "example.com".toList) (start "example.com".toList "hello".toList) dividedRun = some s ∧
      s.sent <+: request "example.com".toList ∧ s.sent = request "example.com".toList ∧
      s.stdout = out ++ timeTaken seconds ∧ out.Sublist "hello".toList ∧
      (out = "hello".toList ↔ ∀ e ∈ dividedRun, e.lost = 0) := by
  obtain ⟨hfront, hsent, hshown⟩ := exchange _ _ _ _ run_dividedRun
  obtain ⟨out, seconds, hout, hsub, hiff⟩ := hshown rfl
  exact ⟨_, out, seconds, run_dividedRun, hfront, hsent (.inr rfl), hout, hsub, hiff⟩

/-! ### The receiver -/

/-- The lines up to the empty one, and what stands behind it; `cur` is the line that is being read. -/
def decodeLines : Text → Text → Option (List Text × Text)
  | _, [] => none
  | cur, '\r' :: '\n' :: rest =>
      if cur = [] then some ([], rest) else (decodeLines [] rest).map fun q => (cur :: q.1, q.2)
  | cur, c :: rest => decodeLines (cur ++ [c]) rest

/-- **A request as its receiver reads it.** -/
def decode (text : Text) : Option Request :=
  match decodeLines [] text with
  | some (line :: fields, body) => some ⟨line, fields, body⟩
  | _ => none

theorem decodeLines_cons (cur : Text) (c : Char) {d : Char} (hd : d ≠ '\n') (rest : Text) :
    decodeLines cur (c :: d :: rest) = decodeLines (cur ++ [c]) (d :: rest) := by
  rw [decodeLines]
  intro rest' _ heq
  exact hd (List.cons_eq_cons.1 heq).1

theorem decodeLines_crlf (cur rest : Text) :
    decodeLines cur (crlf ++ rest) =
      if cur = [] then some ([], rest)
      else (decodeLines [] rest).map fun q => (cur :: q.1, q.2) := by
  rw [crlf, List.cons_append, List.singleton_append, decodeLines]

/-- A line is read to its end. -/
theorem decodeLines_line {line : Text} (hline : '\n' ∉ line) (cur rest : Text) :
    decodeLines cur (line ++ crlf ++ rest) = decodeLines (cur ++ line) (crlf ++ rest) := by
  induction line generalizing cur with
  | nil => rw [List.nil_append, List.append_nil]
  | cons c line ih =>
      have hrest : '\n' ∉ line := fun h => hline (List.mem_cons_of_mem _ h)
      have hcons : decodeLines cur (c :: (line ++ crlf ++ rest)) =
          decodeLines (cur ++ [c]) (line ++ crlf ++ rest) := by
        cases line with
        | nil => exact decodeLines_cons cur c (by decide) ('\n' :: rest)
        | cons d line =>
            refine decodeLines_cons cur c ?_ (line ++ crlf ++ rest)
            rintro rfl
            exact hrest (List.mem_cons_self ..)
      rw [List.cons_append, List.cons_append, hcons, ih hrest, List.append_assoc, List.singleton_append]

/-- The fields are read up to the empty line. -/
theorem decodeLines_fields {fields : List Text} (hfields : ∀ f ∈ fields, f ≠ [] ∧ '\n' ∉ f)
    (body : Text) :
    decodeLines [] (fields.flatMap (· ++ crlf) ++ crlf ++ body) = some (fields, body) := by
  induction fields with
  | nil =>
      rw [List.flatMap_nil, List.nil_append, decodeLines_crlf, if_pos rfl]
  | cons f fields ih =>
      obtain ⟨hne, hnewline⟩ := hfields f (List.mem_cons_self ..)
      have hrest := ih fun g hg => hfields g (List.mem_cons_of_mem _ hg)
      rw [List.flatMap_cons, List.append_assoc, List.append_assoc, decodeLines_line hnewline,
        List.nil_append, decodeLines_crlf, if_neg hne, ← List.append_assoc, hrest]
      rfl

/-- **A request is read as it is written**, when its lines are lines. -/
theorem decode_text {r : Request} (hline : r.line ≠ [] ∧ '\n' ∉ r.line)
    (hfields : ∀ f ∈ r.fields, f ≠ [] ∧ '\n' ∉ f) : decode r.text = some r := by
  have hlines : decodeLines [] ((r.line :: r.fields).flatMap (· ++ crlf) ++ crlf ++ r.body) =
      some (r.line :: r.fields, r.body) := by
    refine decodeLines_fields ?_ r.body
    intro f hf
    rcases List.mem_cons.1 hf with rfl | hf
    · exact hline
    · exact hfields f hf
  rw [List.flatMap_cons] at hlines
  rw [decode, Request.text, Request.head, hlines]

/-- The request, as the program writes it. -/
theorem request_eq_text (hostname : Text) :
    request hostname = Request.text
      { line := "GET / HTTP/1.1".toList
        fields := ["Host: ".toList ++ hostname]
        body := "Connection: close".toList ++ crlf } := by
  have hline : "GET / HTTP/1.1\r\nHost: ".toList =
      "GET / HTTP/1.1".toList ++ (crlf ++ "Host: ".toList) := rfl
  have hend : "\r\n\r\nConnection: close\r\n".toList =
      crlf ++ (crlf ++ ("Connection: close".toList ++ crlf)) := rfl
  unfold request Request.text Request.head
  rw [hline, hend]
  generalize "GET / HTTP/1.1".toList = line
  generalize "Host: ".toList = hostField
  generalize "Connection: close".toList = connection
  simp only [List.flatMap_cons, List.flatMap_nil, List.append_assoc, List.nil_append]

/-- **The receiver does not see the field `Connection`**: it stands behind the end of the head. -/
theorem decode_request {hostname : Text} (hhost : '\n' ∉ hostname) :
    decode (request hostname) = some
      { line := "GET / HTTP/1.1".toList
        fields := ["Host: ".toList ++ hostname]
        body := "Connection: close".toList ++ crlf } := by
  rw [request_eq_text]
  refine decode_text ⟨by simp, by simp⟩ ?_
  intro f hf
  rw [List.mem_singleton.1 hf]
  refine ⟨by simp, ?_⟩
  intro hmem
  rcases List.mem_append.1 hmem with hmem | hmem
  · revert hmem
    simp
  · exact hhost hmem

theorem decode_request_example :
    decode (request "example.com".toList) = some
      { line := "GET / HTTP/1.1".toList
        fields := ["Host: ".toList ++ "example.com".toList]
        body := "Connection: close".toList ++ crlf } :=
  decode_request (by simp)

end HttpGet
