/-
**MyShell: the directory in the prompt.**

`replaceSubstring` puts the working directory into `current_directory`, with the home directory
abbreviated to `~`, and `cd` replaces a leading `~` of its argument by the home directory.  The
function looks for the home directory anywhere in the path, cuts off as many bytes as it has from
the start of the path, and leaves the old contents alone when it is not found.

Main definitions:

* `Shell.replaceSubstring` — the function, on a buffer whose size is checked at every write;
* `Shell.expand` — what `cd` does to its argument;
* `Shell.Under` — a path is the home directory or below it;
* `Shell.displayed` — the string in the buffer.

Main results:

* `Shell.replaceSubstring_of_two_le`, `Shell.replaceSubstring_of_one` — what is left in the buffer;
* `Shell.expand_displayed_iff` — **the prompt shows the working directory exactly when** it is below
  the home directory, or the home directory does not occur in it and the prompt was right already.
  A home directory of one byte needs the byte behind the path to be zero.
-/

import NetworkProgramming.CString
import NetworkProgramming.ShellDispatch

set_option relaxedAutoImplicit false
set_option autoImplicit false

namespace Shell

open CString

/-! ### The functions -/

/-- A byte of a C string, the zero at its end included. -/
def charAt (str : Text) (i : ℕ) : Char := str.getD i '\x00'

/-- The loop of `replaceSubstring`, with `rest` as the string from `str[i]` on. -/
def replaceLoop (homeLen : ℕ) (str : Text) : Text → ℕ → Text → Option Text
  | [], _, buf => some buf
  | _ :: rest, i, buf =>
      if charAt str (i + homeLen - 1) ≠ '\x00' then
        (put buf i (charAt str (i + homeLen - 1))).bind (replaceLoop homeLen str rest (i + 1))
      else put buf i '\x00'

/-- `replaceSubstring`, with `current_directory` as `buf`. -/
def replaceSubstring (home str buf : Text) : Option Text :=
  if home <:+: str then
    (put buf 0 '~').bind fun buf =>
      if charAt str home.length = '\x00' then put buf 1 '\x00'
      else replaceLoop home.length str (str.drop 1) 1 buf
  else some buf

/-- The loop of `cd` that builds the new argument in `op`. -/
def expandLoop (home : Text) : ℕ → Text → Text → Text
  | _, [], op => op
  | i, c :: rest, op => expandLoop home (i + 1) rest (if i = 0 then op ++ home else op ++ [c])

/-- What `cd` passes to `chdir`. -/
def expand (home arg : Text) : Text :=
  if arg.head? = some '~' then expandLoop home 0 arg [] else arg

/-- The string in a buffer, if it ends there. -/
def displayed (buf : Text) : Option Text := if '\x00' ∈ buf then some (cstr buf) else none

/-- The path is the home directory or a directory below it. -/
def Under (home path : Text) : Prop :=
  path = home ∨ home ++ ['/'] <+: path ∨ (home.getLast? = some '/' ∧ home <+: path)

instance (home path : Text) : Decidable (Under home path) :=
  inferInstanceAs (Decidable (_ ∨ _ ∨ _))

/-! ### What `cd` makes of a displayed directory -/

section Expand

variable {home : Text}

theorem expandLoop_succ (rest : Text) (i : ℕ) (op : Text) :
    expandLoop home (i + 1) rest op = op ++ rest := by
  induction rest generalizing i op with
  | nil => simp [expandLoop]
  | cons c rest ih => simp [expandLoop, ih]

theorem expand_tilde (rest : Text) : expand home ('~' :: rest) = home ++ rest := by
  simp [expand, expandLoop, expandLoop_succ]

theorem expand_of_head?_ne {arg : Text} (h : arg.head? ≠ some '~') : expand home arg = arg :=
  if_neg h

theorem Under.isPrefix {path : Text} (h : Under home path) : home <+: path := by
  rcases h with rfl | h | ⟨-, h⟩
  · exact List.prefix_refl _
  · exact (List.prefix_append _ _).trans h
  · exact h

end Expand

/-! ### What is left in the buffer -/

section Buffer

variable {home str : Text}

theorem charAt_of_drop_eq_nil {k : ℕ} (h : str.drop k = []) : charAt str k = '\x00' := by
  have hnone : str[k]? = none := by rw [← List.head?_drop, h, List.head?_nil]
  rw [charAt, List.getD_eq_getElem?_getD, hnone, Option.getD_none]

theorem charAt_of_drop_eq_cons {k : ℕ} {c : Char} {rest : Text} (h : str.drop k = c :: rest) :
    charAt str k = c ∧ str.drop (k + 1) = rest := by
  have hsome : str[k]? = some c := by rw [← List.head?_drop, h, List.head?_cons]
  refine ⟨by rw [charAt, List.getD_eq_getElem?_getD, hsome, Option.getD_some], ?_⟩
  rw [← List.tail_drop, h, List.tail_cons]

/-- The loop copies what stands behind the home directory, and the zero. -/
theorem replaceLoop_of_shorter {homeLen : ℕ} {src : Text} (hnul : '\x00' ∉ src) (rest : Text)
    (i : ℕ) (front tail : Text) (hsrc : str.drop (i + homeLen - 1) = src) (hhome : 0 < homeLen)
    (hrest : src.length < rest.length) (hi : front.length = i) :
    replaceLoop homeLen str rest i (front ++ tail) =
      if src.length < tail.length then
        some (front ++ src ++ '\x00' :: tail.drop (src.length + 1))
      else none := by
  induction src generalizing rest i front tail with
  | nil =>
      obtain ⟨d, rest, rfl⟩ := List.exists_cons_of_length_pos hrest
      rw [replaceLoop, if_neg (by simp [charAt_of_drop_eq_nil hsrc]), ← hi]
      cases tail with
      | nil => simp [put_full]
      | cons old tail => simp [put_append]
  | cons c src ih =>
      obtain ⟨hc, hsrc'⟩ := List.ne_and_not_mem_of_not_mem_cons hnul
      obtain ⟨hchar, hdrop⟩ := charAt_of_drop_eq_cons hsrc
      obtain ⟨d, rest, rfl⟩ := List.exists_cons_of_length_pos (Nat.zero_lt_of_lt hrest)
      rw [replaceLoop, hchar, if_pos (Ne.symm hc)]
      cases tail with
      | nil => simp [← hi, put_full]
      | cons old tail =>
          have hnext : str.drop (i + 1 + homeLen - 1) = src := by
            rw [← hdrop]
            congr 1
            omega
          have hput : put (front ++ old :: tail) i c = some ((front ++ [c]) ++ tail) := by
            rw [← hi, put_append, List.append_assoc, List.singleton_append]
          rw [hput, Option.bind_some, ih hsrc' rest (i + 1) (front ++ [c]) tail hnext
            (by simpa using hrest) (by simp [hi])]
          simp

/-- With a home directory of one byte the loop copies the path onto itself and writes no zero. -/
theorem replaceLoop_one (rest : Text) (hnul : '\x00' ∉ rest) (i : ℕ) (front tail : Text)
    (hrest : str.drop i = rest) (hi : front.length = i) :
    replaceLoop 1 str rest i (front ++ tail) =
      if rest.length ≤ tail.length then some (front ++ rest ++ tail.drop rest.length)
      else none := by
  induction rest generalizing i front tail with
  | nil => simp [replaceLoop]
  | cons c rest ih =>
      obtain ⟨hc, hnul'⟩ := List.ne_and_not_mem_of_not_mem_cons hnul
      obtain ⟨hchar, hdrop⟩ := charAt_of_drop_eq_cons hrest
      rw [replaceLoop, Nat.add_sub_cancel, hchar, if_pos (Ne.symm hc)]
      cases tail with
      | nil => simp [← hi, put_full]
      | cons old tail =>
          have hput : put (front ++ old :: tail) i c = some ((front ++ [c]) ++ tail) := by
            rw [← hi, put_append, List.append_assoc, List.singleton_append]
          rw [hput, Option.bind_some, ih hnul' (i + 1) (front ++ [c]) tail hdrop (by simp [hi])]
          simp

/-- **The buffer afterwards**, for a home directory of two bytes or more that occurs in the path. -/
theorem replaceSubstring_of_two_le (hhome : 2 ≤ home.length) (hin : home <:+: str)
    (hnul : '\x00' ∉ str) (old : Char) (tail : Text) :
    replaceSubstring home str (old :: tail) =
      if str.length - home.length < tail.length then
        some ('~' :: str.drop home.length ++
          '\x00' :: tail.drop (str.length - home.length + 1))
      else none := by
  have hlen := hin.length_le
  have hnul' : '\x00' ∉ str.drop home.length := fun h => hnul (List.mem_of_mem_drop h)
  have hput : put (old :: tail) 0 '~' = some (['~'] ++ tail) := put_append [] old tail '~'
  rw [replaceSubstring, if_pos hin, hput, Option.bind_some]
  cases hdrop : str.drop home.length with
  | nil =>
      have heq : str.length - home.length = 0 := by
        rw [← List.length_drop, hdrop, List.length_nil]
      rw [if_pos (charAt_of_drop_eq_nil hdrop), heq]
      cases tail with
      | nil => simp [put]
      | cons old' tail => simp [put]
  | cons c rest =>
      obtain ⟨hchar, -⟩ := charAt_of_drop_eq_cons hdrop
      have hc : c ≠ '\x00' := by
        rintro rfl
        exact hnul' (hdrop ▸ List.mem_cons_self)
      have hsrc : str.drop (1 + home.length - 1) = c :: rest := by
        rw [Nat.add_sub_cancel_left, hdrop]
      have hshort : (c :: rest).length < (str.drop 1).length := by
        rw [← hdrop, List.length_drop, List.length_drop]
        omega
      rw [if_neg (by rw [hchar]; exact hc),
        replaceLoop_of_shorter (hdrop ▸ hnul') _ 1 ['~'] tail hsrc (by omega) hshort rfl, ← hdrop,
        List.length_drop]
      rfl

/-- **The buffer afterwards**, for a home directory of one byte and a longer path. -/
theorem replaceSubstring_of_one (hhome : home.length = 1) (hin : home <:+: str)
    (hnul : '\x00' ∉ str) (hlong : 1 < str.length) (old : Char) (tail : Text) :
    replaceSubstring home str (old :: tail) =
      if str.length ≤ tail.length + 1 then
        some ('~' :: str.drop 1 ++ tail.drop (str.length - 1))
      else none := by
  have hnul' : '\x00' ∉ str.drop 1 := fun h => hnul (List.mem_of_mem_drop h)
  have hput : put (old :: tail) 0 '~' = some (['~'] ++ tail) := put_append [] old tail '~'
  obtain ⟨c, rest, hdrop⟩ : ∃ c rest, str.drop 1 = c :: rest :=
    List.exists_cons_of_length_pos (by rw [List.length_drop]; omega)
  obtain ⟨hchar, -⟩ := charAt_of_drop_eq_cons hdrop
  have hc : c ≠ '\x00' := by
    rintro rfl
    exact hnul' (hdrop ▸ List.mem_cons_self)
  have hiff : str.length - 1 ≤ tail.length ↔ str.length ≤ tail.length + 1 := by omega
  rw [replaceSubstring, if_pos hin, hput, Option.bind_some, hhome,
    if_neg (by rw [hchar]; exact hc), replaceLoop_one _ hnul' 1 ['~'] tail rfl rfl]
  simp only [List.length_drop, hiff]
  rfl

/-- The buffer afterwards, when the path is a home directory of one byte. -/
theorem replaceSubstring_of_eq (hhome : home.length = 1) (hin : home <:+: str)
    (heq : str.length = 1) (old old' : Char) (tail : Text) :
    replaceSubstring home str (old :: old' :: tail) = some ('~' :: '\x00' :: tail) := by
  have hend : charAt str home.length = '\x00' := by
    refine charAt_of_drop_eq_nil ?_
    rw [List.drop_eq_nil_iff]
    omega
  have hput : put (old :: old' :: tail) 0 '~' = some ('~' :: old' :: tail) :=
    put_append [] old (old' :: tail) '~'
  rw [replaceSubstring, if_pos hin, hput, Option.bind_some, if_pos hend]
  exact put_append ['~'] old' tail '\x00'

end Buffer

/-! ### The prompt -/

section Prompt

variable {home cwd buf : Text}

/-- **The prompt is right**: what it shows stands for the working directory, and is abbreviated
exactly below the home directory. -/
def PromptRight (home cwd buf : Text) : Prop :=
  ∃ buf' d, replaceSubstring home cwd buf = some buf' ∧ displayed buf' = some d ∧
    expand home d = cwd ∧ (d.head? = some '~' ↔ Under home cwd)

theorem nul_notMem_abbreviated (hnul : '\x00' ∉ cwd) (n : ℕ) : '\x00' ∉ '~' :: cwd.drop n := by
  intro hmem
  rcases List.mem_cons.1 hmem with heq | hmem
  · cases heq
  · exact hnul (List.mem_of_mem_drop hmem)

/-- The abbreviated path and its end are in the buffer. -/
theorem promptRight_of_abbreviated {rest : Text} (hunder : Under home cwd) (hnul : '\x00' ∉ cwd)
    (h : replaceSubstring home cwd buf = some ('~' :: cwd.drop home.length ++ '\x00' :: rest)) :
    PromptRight home cwd buf := by
  refine ⟨_, '~' :: cwd.drop home.length, h, ?_, ?_, iff_of_true rfl hunder⟩
  · rw [displayed, if_pos (by simp), cstr_append_nul (nul_notMem_abbreviated hnul _)]
  · rw [expand_tilde]
    exact List.prefix_iff_eq_append.1 hunder.isPrefix

/-- A directory that is abbreviated must be below the home directory. -/
theorem PromptRight.under {rest : Text} (h : PromptRight home cwd buf)
    (hbuf : replaceSubstring home cwd buf = some ('~' :: rest)) : Under home cwd := by
  obtain ⟨buf', d, hbuf', hd, -, hiff⟩ := h
  obtain rfl := Option.some_inj.1 (hbuf.symm.trans hbuf')
  refine hiff.1 ?_
  rw [displayed] at hd
  split_ifs at hd
  rw [← Option.some_inj.1 hd]
  rfl

/-- A byte that is left over from the old path would be shown behind the new one. -/
theorem PromptRight.head?_eq_nul {rest : Text} (h : PromptRight home cwd buf) (hnul : '\x00' ∉ cwd)
    (hlen : home.length ≤ cwd.length)
    (hbuf : replaceSubstring home cwd buf = some ('~' :: cwd.drop home.length ++ rest)) :
    rest.head? = some '\x00' := by
  obtain ⟨buf', d, hbuf', hd, hexpand, -⟩ := h
  obtain rfl := Option.some_inj.1 (hbuf.symm.trans hbuf')
  rw [displayed, cstr_append (nul_notMem_abbreviated hnul _)] at hd
  split_ifs at hd with hmem
  have hzero : '\x00' ∈ rest :=
    (List.mem_append.1 hmem).resolve_left (nul_notMem_abbreviated hnul _)
  rw [← Option.some_inj.1 hd, List.cons_append, expand_tilde] at hexpand
  have hempty : cstr rest = [] := by
    have hlength := congrArg List.length hexpand
    simp only [List.length_append, List.length_drop] at hlength
    exact List.length_eq_zero_iff.1 (by omega)
  cases rest with
  | nil => exact absurd hzero List.not_mem_nil
  | cons c rest =>
      by_contra hc
      have hne : c ≠ '\x00' := fun heq => hc (by rw [heq, List.head?_cons])
      simp [cstr, hne] at hempty

theorem not_promptRight_of_none (h : replaceSubstring home cwd buf = none) :
    ¬ PromptRight home cwd buf := by
  rintro ⟨buf', d, hbuf', -⟩
  rw [h] at hbuf'
  cases hbuf'

/-- A path in which the home directory does not occur is shown if it was shown before. -/
theorem promptRight_iff_outside (hin : ¬ home <:+: cwd) (hcwd : cwd.head? = some '/')
    (hbuf : '\x00' ∈ buf) : PromptRight home cwd buf ↔ cstr buf = cwd := by
  have hsame : replaceSubstring home cwd buf = some buf := if_neg hin
  have hunder : ¬ Under home cwd := fun h => hin h.isPrefix.isInfix
  have hd : displayed buf = some (cstr buf) := if_pos hbuf
  constructor
  · rintro ⟨buf', d, hbuf', hd', hexpand, hiff⟩
    obtain rfl := Option.some_inj.1 (hsame.symm.trans hbuf')
    obtain rfl := Option.some_inj.1 (hd.symm.trans hd')
    rwa [expand_of_head?_ne (fun h => hunder (hiff.1 h))] at hexpand
  · intro heq
    have hhead : (cstr buf).head? ≠ some '~' := by
      rw [heq, hcwd]
      decide
    exact ⟨buf, cstr buf, hsame, hd, by rw [expand_of_head?_ne hhead, heq],
      iff_of_false hhead hunder⟩

/-- A home directory of two bytes or more is abbreviated if the result fits. -/
theorem promptRight_iff_of_two_le (hhome : 2 ≤ home.length) (hin : home <:+: cwd)
    (hnul : '\x00' ∉ cwd) {old : Char} {tail : Text} (hbuf : buf = old :: tail) :
    PromptRight home cwd buf ↔ Under home cwd ∧ cwd.length - home.length < tail.length := by
  have hresult := replaceSubstring_of_two_le hhome hin hnul old tail
  rw [← hbuf] at hresult
  constructor
  · intro h
    by_cases hfits : cwd.length - home.length < tail.length
    · rw [if_pos hfits] at hresult
      exact ⟨h.under hresult, hfits⟩
    · rw [if_neg hfits] at hresult
      exact absurd h (not_promptRight_of_none hresult)
  · rintro ⟨hunder, hfits⟩
    rw [if_pos hfits] at hresult
    exact promptRight_of_abbreviated hunder hnul hresult

/-- A home directory of one byte is abbreviated if the buffer has a zero behind the path. -/
theorem promptRight_iff_of_one (hhome : home.length = 1) (hin : home <:+: cwd)
    (hnul : '\x00' ∉ cwd) (hlong : 1 < cwd.length) {old : Char} {tail : Text}
    (hbuf : buf = old :: tail) :
    PromptRight home cwd buf ↔ Under home cwd ∧ buf[cwd.length]? = some '\x00' := by
  obtain ⟨n, hn⟩ : ∃ n, cwd.length = n + 1 := ⟨cwd.length - 1, by omega⟩
  have hresult := replaceSubstring_of_one hhome hin hnul hlong old tail
  rw [← hbuf, hn, Nat.add_sub_cancel] at hresult
  have hbyte : buf[cwd.length]? = (tail.drop n).head? := by
    rw [hbuf, hn, List.getElem?_cons_succ, List.head?_drop]
  rw [hbyte]
  constructor
  · intro h
    by_cases hfits : n + 1 ≤ tail.length + 1
    · rw [if_pos hfits, ← hhome] at hresult
      exact ⟨h.under hresult, h.head?_eq_nul hnul (by omega) hresult⟩
    · rw [if_neg hfits] at hresult
      exact absurd h (not_promptRight_of_none hresult)
  · rintro ⟨hunder, hzero⟩
    cases hdrop : tail.drop n with
    | nil => simp [hdrop] at hzero
    | cons c rest =>
        obtain rfl : c = '\x00' := by simpa [hdrop] using hzero
        have hfits : n + 1 ≤ tail.length + 1 := by
          have hlen := congrArg List.length hdrop
          simp only [List.length_drop, List.length_cons] at hlen
          omega
        rw [if_pos hfits, hdrop, ← hhome] at hresult
        exact promptRight_of_abbreviated hunder hnul hresult

end Prompt

/-- **When the prompt shows the working directory.**  With a buffer of 300 bytes, what the prompt
shows is expanded to the working directory, and abbreviated exactly below the home directory, in two
cases: the working directory is below the home directory, it fits into the buffer, and a home
directory of one byte finds a zero behind a longer path; or the home directory does not occur in it
and the prompt has shown it before. -/
theorem expand_displayed_iff (home cwd buf : Text) (hhome : home ≠ [])
    (hcwd : cwd.head? = some '/') (hnul : '\x00' ∉ cwd) (hlen : buf.length = 300)
    (hbuf : '\x00' ∈ buf) :
    PromptRight home cwd buf ↔
      (Under home cwd ∧ cwd.length + 1 < home.length + 300 ∧
        (home.length = 1 → cwd.length = 1 ∨ buf[cwd.length]? = some '\x00')) ∨
      (¬ home <:+: cwd ∧ cstr buf = cwd) := by
  obtain ⟨old, tail, rfl⟩ := List.exists_cons_of_ne_nil (List.ne_nil_of_mem hbuf)
  rw [List.length_cons] at hlen
  have hpos : 0 < home.length := List.length_pos_iff.2 hhome
  by_cases hin : home <:+: cwd
  · have hle := hin.length_le
    rw [or_iff_left (fun h => h.1 hin)]
    rcases Nat.lt_or_ge 1 home.length with htwo | hone
    · rw [promptRight_iff_of_two_le htwo hin hnul rfl]
      refine and_congr_right fun _ => ?_
      constructor
      · intro h
        exact ⟨by omega, fun h1 => by omega⟩
      · rintro ⟨h, -⟩
        omega
    · have hone' : home.length = 1 := by omega
      rcases Nat.lt_or_ge 1 cwd.length with hlong | hshort
      · rw [promptRight_iff_of_one hone' hin hnul hlong rfl]
        refine and_congr_right fun _ => ?_
        constructor
        · intro h
          have hlt := (List.getElem?_eq_some_iff.1 h).1
          rw [List.length_cons] at hlt
          exact ⟨by omega, fun _ => Or.inr h⟩
        · rintro ⟨-, h⟩
          exact (h hone').resolve_left (by omega)
      · have heq : cwd.length = 1 := by omega
        obtain ⟨old', tail, rfl⟩ := List.exists_cons_of_length_pos (l := tail) (by omega)
        have hresult := replaceSubstring_of_eq hone' hin heq old old' tail
        have hdrop : cwd.drop home.length = [] := by
          rw [List.drop_eq_nil_iff]
          omega
        constructor
        · intro h
          exact ⟨h.under hresult, by omega, fun _ => Or.inl heq⟩
        · rintro ⟨hunder, -⟩
          have hshown : replaceSubstring home cwd (old :: old' :: tail) =
              some ('~' :: cwd.drop home.length ++ '\x00' :: tail) := by
            rw [hresult, hdrop]
            rfl
          exact promptRight_of_abbreviated hunder hnul hshown
  · rw [promptRight_iff_outside hin hcwd hbuf, or_iff_right (fun h => hin h.1.isPrefix.isInfix)]
    exact (and_iff_right hin).symm

/-- `current_directory` with a string and zeros behind it. -/
def directoryBuffer (s : Text) : Text := s ++ List.replicate (300 - s.length) '\x00'

theorem expand_displayed_iff_downloads :
    PromptRight "/home/u".toList "/home/u/dl".toList (directoryBuffer "~".toList) ↔
      (Under "/home/u".toList "/home/u/dl".toList ∧
        "/home/u/dl".toList.length + 1 < "/home/u".toList.length + 300 ∧
        ("/home/u".toList.length = 1 → "/home/u/dl".toList.length = 1 ∨
          (directoryBuffer "~".toList)["/home/u/dl".toList.length]? = some '\x00')) ∨
      (¬ "/home/u".toList <:+: "/home/u/dl".toList ∧
        cstr (directoryBuffer "~".toList) = "/home/u/dl".toList) :=
  expand_displayed_iff _ _ _ (by decide) (by decide) (by decide) (by decide +kernel)
    (by decide +kernel)

/-- After `cd /tmp` from the home directory the prompt still shows `~`. -/
theorem promptRight_outside_home :
    ¬ PromptRight "/home/u".toList "/tmp".toList (directoryBuffer "~".toList) := by
  have hin : ¬ "/home/u".toList <:+: "/tmp".toList := by decide
  rw [promptRight_iff_outside hin (by decide) (by decide +kernel)]
  decide +kernel

end Shell
