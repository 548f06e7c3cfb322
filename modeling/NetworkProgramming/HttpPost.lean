/-
**HTTP Requests: the POST request.**

`process_http` formats a request with one call of `snprintf` and writes it to the socket.  The request
announces the length of its body, which is computed from the whole of `poststr`; but `snprintf` is
told that there are `MAXSUB` bytes, where the buffer has `MAXLINE + 1`.

A string argument ends at its first zero.  `%d` takes the lower 32 bits of what `strlen` returns.

Main definitions:

* `HttpPost.snprintf`, `HttpPost.processHttp` — the formatting call, and `process_http`;
* `HttpPost.Request`, `HttpPost.complete` — a request, and the one that is meant;
* `HttpPost.Consistent` — the bytes of a request that announces the length of its body.

Main results:

* `HttpPost.processHttp_written` — what is written is the front of the complete request;
* `HttpPost.consistent_iff` — **a request is consistent exactly when it is shorter than `MAXSUB`**;
* `HttpPost.body_cut` — a request that is cut in its body announces more than it has.
-/

import Mathlib.Tactic
import NetworkProgramming.CString

set_option relaxedAutoImplicit false
set_option autoImplicit false

namespace HttpPost

open CString

/-! ### `process_http` -/

/-- The macro `MAXLINE`. -/
def maxLine : ℕ := 4096

/-- The macro `MAXSUB`. -/
def maxSub : ℕ := 200

/-- A local array of `MAXLINE + 1` bytes. -/
structure Line where
  bytes : Text
  length_bytes : bytes.length = maxLine + 1
  deriving DecidableEq

/-- `snprintf`: the text is cut to `size - 1` bytes and a zero is put behind it. -/
def snprintf (buf : Text) (size : ℕ) (text : Text) : Option Text :=
  let kept := text.take (size - 1)
  if kept.length < buf.length then some (kept ++ '\x00' :: buf.drop (kept.length + 1)) else none

/-- The value of a `size_t` that is read as an `int`. -/
def intOf (n : ℕ) : ℤ := (BitVec.ofNat 32 n).toInt

/-- `%d`. -/
def decimal (z : ℤ) : Text := (toString z).toList

/-- The format of the request with its arguments. -/
def formatted (page host poststr : Text) : Text :=
  "POST ".toList ++ cstr page ++ " HTTP/1.1\r\n".toList ++
    "Host: ".toList ++ cstr host ++ "\r\n".toList ++
    "User-Agent:Mozilla/5.0\r\n".toList ++
    "Content-Type: application/x-www-form-urlencoded\r\n".toList ++
    "Content-Length: ".toList ++ decimal (intOf (cstr poststr).length) ++ "\r\n\r\n".toList ++
    cstr poststr

/-- What a call leaves behind: the standard output, the bytes written to the socket, and the value
that it returns. -/
structure Outcome where
  stdout : Text
  written : Text
  ret : ℤ

/-- **`process_http`**: `replies` are the chunks of the answer, of at most `MAXLINE` bytes each, and
`n` is what the last `read` returns. -/
def processHttp (sendline : Line) (host page poststr : Text) (replies : List Text) (n : ℤ) :
    Option Outcome := do
  let sendline ← snprintf sendline.bytes maxSub (formatted page host poststr)
  return {
    stdout := "Poststring = ".toList ++ cstr poststr ++ replies.flatMap cstr
    written := cstr sendline
    ret := n }

/-! ### Requests -/

/-- A request: its first line, its header fields and its body. -/
structure Request where
  line : Text
  fields : List Text
  body : Text
  deriving DecidableEq, Repr

def crlf : Text := ['\r', '\n']

/-- The head of a request, with the empty line behind the fields. -/
def Request.head (r : Request) : Text := r.line ++ crlf ++ r.fields.flatMap (· ++ crlf) ++ crlf

/-- The bytes of a request. -/
def Request.text (r : Request) : Text := r.head ++ r.body

/-- The request for a page that announces a body of `n` bytes. -/
def post (page host : Text) (n : ℕ) (body : Text) : Request where
  line := "POST ".toList ++ page ++ " HTTP/1.1".toList
  fields := ["Host: ".toList ++ host, "User-Agent:Mozilla/5.0".toList,
    "Content-Type: application/x-www-form-urlencoded".toList,
    "Content-Length: ".toList ++ decimal n]
  body := body

/-- The complete request. -/
def complete (page host poststr : Text) : Request := post page host poststr.length poststr

/-- **The bytes are a consistent request** with the body `poststr`: its first line, its four fields,
the empty line, and a body that has the length that the fields announce. -/
def Consistent (page host poststr written : Text) : Prop :=
  ∃ (n : ℕ) (body : Text), written = (post page host n body).text ∧ body.length = n ∧ body = poststr

theorem consistent_iff_eq {page host poststr written : Text} :
    Consistent page host poststr written ↔ written = (complete page host poststr).text := by
  constructor
  · rintro ⟨n, body, rfl, rfl, rfl⟩
    rfl
  · intro h
    exact ⟨poststr.length, poststr, h, rfl, rfl⟩

/-- The length of the complete request. -/
theorem length_complete (page host poststr : Text) :
    (complete page host poststr).text.length =
      117 + page.length + host.length + (decimal poststr.length).length + poststr.length := by
  have hpost : "POST ".toList.length = 5 := by simp
  have hversion : " HTTP/1.1".toList.length = 9 := by simp
  have hhost : "Host: ".toList.length = 6 := by simp
  have hagent : "User-Agent:Mozilla/5.0".toList.length = 22 := by simp
  have htype : "Content-Type: application/x-www-form-urlencoded".toList.length = 47 := by simp
  have hlength : "Content-Length: ".toList.length = 16 := by simp
  unfold complete post Request.text Request.head
  -- only the lengths of the constant parts matter
  generalize "POST ".toList = method at hpost ⊢
  generalize " HTTP/1.1".toList = version at hversion ⊢
  generalize "Host: ".toList = hostField at hhost ⊢
  generalize "User-Agent:Mozilla/5.0".toList = agent at hagent ⊢
  generalize "Content-Type: application/x-www-form-urlencoded".toList = type at htype ⊢
  generalize "Content-Length: ".toList = lengthField at hlength ⊢
  simp only [crlf, List.flatMap_cons, List.flatMap_nil, List.length_append, List.length_cons,
    List.length_nil, hpost, hversion, hhost, hagent, htype, hlength]
  omega

/-! ### What is written -/

/-- A length that fits into the buffer is an `int`. -/
theorem intOf_of_le {n : ℕ} (h : n ≤ maxLine) : intOf n = n := by
  have hn : n < 2 ^ 31 := lt_of_le_of_lt h (by decide)
  rw [intOf, BitVec.toInt_eq_toNat_of_lt (by rw [BitVec.toNat_ofNat]; omega), BitVec.toNat_ofNat]
  omega

/-- The text of the formatting call is the complete request. -/
theorem formatted_eq {page host poststr : Text} (hpage : '\x00' ∉ page) (hhost : '\x00' ∉ host)
    (hpost : '\x00' ∉ poststr) (hlen : poststr.length ≤ maxLine) :
    formatted page host poststr = (complete page host poststr).text := by
  have hversion : " HTTP/1.1\r\n".toList = " HTTP/1.1".toList ++ crlf := rfl
  have hagent : "User-Agent:Mozilla/5.0\r\n".toList = "User-Agent:Mozilla/5.0".toList ++ crlf := rfl
  have htype : "Content-Type: application/x-www-form-urlencoded\r\n".toList =
      "Content-Type: application/x-www-form-urlencoded".toList ++ crlf := rfl
  have hend : "\r\n\r\n".toList = crlf ++ crlf := rfl
  have hcrlf : "\r\n".toList = crlf := rfl
  unfold formatted complete post Request.text Request.head
  rw [cstr_eq_self hpage, cstr_eq_self hhost, cstr_eq_self hpost, intOf_of_le hlen, hversion, hagent,
    htype, hend, hcrlf]
  -- both sides have the same constant parts
  generalize "POST ".toList = method
  generalize " HTTP/1.1".toList = version
  generalize "Host: ".toList = hostField
  generalize "User-Agent:Mozilla/5.0".toList = agent
  generalize "Content-Type: application/x-www-form-urlencoded".toList = type
  generalize "Content-Length: ".toList = lengthField
  simp only [List.flatMap_cons, List.flatMap_nil, List.append_assoc, List.nil_append]

/-- There are only digits in a number. -/
theorem nul_notMem_decimal (n : ℕ) : '\x00' ∉ decimal n := by
  intro hmem
  have hdigits : decimal n = Nat.toDigits 10 n := Nat.toList_repr
  rw [hdigits] at hmem
  exact absurd (Nat.isDigit_of_mem_toDigits (by omega) le_rfl hmem) (by decide)

theorem nul_notMem_complete {page host poststr : Text} (hpage : '\x00' ∉ page)
    (hhost : '\x00' ∉ host) (hpost : '\x00' ∉ poststr) :
    '\x00' ∉ (complete page host poststr).text := by
  have hline : '\x00' ∉ "POST ".toList ∧ '\x00' ∉ " HTTP/1.1".toList := by decide
  have hfields : '\x00' ∉ "Host: ".toList ∧ '\x00' ∉ "User-Agent:Mozilla/5.0".toList ∧
      '\x00' ∉ "Content-Type: application/x-www-form-urlencoded".toList ∧
      '\x00' ∉ "Content-Length: ".toList := by decide
  have hcrlf : '\x00' ∉ crlf := by decide
  simp only [complete, post, Request.text, Request.head, List.flatMap_cons, List.flatMap_nil,
    List.mem_append, List.not_mem_nil, or_false, not_or]
  exact ⟨⟨⟨⟨⟨⟨hline.1, hpage⟩, hline.2⟩, hcrlf⟩, ⟨⟨hfields.1, hhost⟩, hcrlf⟩,
    ⟨hfields.2.1, hcrlf⟩, ⟨hfields.2.2.1, hcrlf⟩,
    ⟨hfields.2.2.2, nul_notMem_decimal _⟩, hcrlf⟩, hcrlf⟩, hpost⟩

section Written

variable (page host poststr : Text) (hpage : '\x00' ∉ page) (hhost : '\x00' ∉ host)
  (hpost : '\x00' ∉ poststr) (hfits : (complete page host poststr).text.length ≤ maxLine)

include hpage hhost hpost hfits

/-- **What is written is the front of the complete request**, `MAXSUB - 1` bytes at most. -/
theorem processHttp_written (sendline : Line) (replies : List Text) (n : ℤ) :
    processHttp sendline host page poststr replies n =
      some { stdout := "Poststring = ".toList ++ poststr ++ replies.flatMap cstr
             written := (complete page host poststr).text.take (maxSub - 1)
             ret := n } := by
  have hlen : poststr.length ≤ maxLine := by
    rw [length_complete] at hfits
    omega
  have hnul : '\x00' ∉ (complete page host poststr).text.take (maxSub - 1) :=
    fun hmem => nul_notMem_complete hpage hhost hpost (List.mem_of_mem_take hmem)
  have hroom : ((complete page host poststr).text.take (maxSub - 1)).length <
      sendline.bytes.length := by
    rw [sendline.length_bytes, List.length_take]
    exact lt_of_le_of_lt (min_le_left _ _) (by decide)
  rw [processHttp, formatted_eq hpage hhost hpost hlen, snprintf, if_pos hroom,
    Option.bind_eq_bind, Option.bind_some, cstr_append_nul hnul, cstr_eq_self hpost]
  rfl

/-- **A request is consistent exactly when it is shorter than `MAXSUB`.**  A longer one is cut, though
the buffer has room for it. -/
theorem consistent_iff (sendline : Line) (replies : List Text) (n : ℤ) :
    ∃ o, processHttp sendline host page poststr replies n = some o ∧
      (Consistent page host poststr o.written ↔
        (complete page host poststr).text.length < maxSub) := by
  refine ⟨_, processHttp_written page host poststr hpage hhost hpost hfits sendline replies n, ?_⟩
  rw [consistent_iff_eq, List.take_eq_self_iff]
  exact Nat.le_sub_one_iff_lt (by decide)

/-- **A request that is cut in its body announces more than it has.** -/
theorem body_cut (sendline : Line) (replies : List Text) (n : ℤ)
    (hhead : (complete page host poststr).head.length < maxSub)
    (hlong : maxSub ≤ (complete page host poststr).text.length) :
    ∃ o body, processHttp sendline host page poststr replies n = some o ∧
      o.written = (post page host poststr.length body).text ∧ body <+: poststr ∧
      body.length < poststr.length := by
  refine ⟨_, poststr.take (maxSub - 1 - (complete page host poststr).head.length),
    processHttp_written page host poststr hpage hhost hpost hfits sendline replies n, ?_,
    List.take_prefix _ _, ?_⟩
  · rw [Request.text, List.take_append, List.take_of_length_le (by omega)]
    rfl
  · have hbody : (complete page host poststr).body = poststr := rfl
    rw [Request.text, List.length_append, hbody] at hlong
    rw [List.length_take]
    omega

end Written

/-- The array before the call. -/
def zeroLine : Line := ⟨List.replicate (maxLine + 1) '\x00', List.length_replicate⟩

/-- A short request is written as it is. -/
theorem consistent_short : ∃ o, processHttp zeroLine ['h'] ['/'] ['a', '=', '1'] [] 0 = some o ∧
    Consistent ['/'] ['h'] ['a', '=', '1'] o.written := by
  have hlength : (complete ['/'] ['h'] ['a', '=', '1']).text.length = 123 := by
    rw [length_complete]
    rfl
  obtain ⟨o, ho, hiff⟩ := consistent_iff ['/'] ['h'] ['a', '=', '1'] (by decide) (by decide)
    (by decide) (by rw [hlength]; decide) zeroLine [] 0
  exact ⟨o, ho, hiff.2 (by rw [hlength]; decide)⟩

/-- A body of 200 bytes is cut, in a request of 322 bytes. -/
theorem not_consistent_long :
    (complete ['/'] ['h'] (List.replicate 200 'a')).text.length = 322 ∧
      ¬ ∃ o, processHttp zeroLine ['h'] ['/'] (List.replicate 200 'a') [] 0 = some o ∧
        Consistent ['/'] ['h'] (List.replicate 200 'a') o.written := by
  have hlength : (complete ['/'] ['h'] (List.replicate 200 'a')).text.length = 322 := by
    rw [length_complete, List.length_replicate]
    rfl
  refine ⟨hlength, ?_⟩
  rintro ⟨o, ho, hcons⟩
  have hwritten := processHttp_written ['/'] ['h'] (List.replicate 200 'a') (by decide) (by decide)
    (fun hmem => absurd (List.eq_of_mem_replicate hmem) (by decide)) (by rw [hlength]; decide)
    zeroLine [] 0
  obtain rfl := Option.some_inj.1 (ho.symm.trans hwritten)
  rw [consistent_iff_eq, List.take_eq_self_iff, hlength] at hcons
  exact absurd hcons (by decide)

end HttpPost
