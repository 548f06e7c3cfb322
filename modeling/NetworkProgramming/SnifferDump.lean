/-
**Sniffer: the dump of bytes.**

`print_data` writes bytes in rows of sixteen: three spaces, the bytes in hexadecimal, nine spaces, and
the bytes as text.  One loop over all bytes does everything.  The text of a full row is written when
the loop comes to the first byte of the next row; the text of the last row is written with the last
byte, after spaces for the bytes that are missing.

Main definitions:

* `Sniffer.printStep`, `Sniffer.printData` — the loop, as in the source;
* `Sniffer.chunk`, `Sniffer.rowText` — the bytes of a row, and the row;
* `Sniffer.decodeHex` — the reader for the hexadecimal column.

Main results:

* `Sniffer.printOpen_eq` — what is written before the last row is closed;
* `Sniffer.printData_eq` — the dump is its rows;
* `Sniffer.decodeHex_column` — the column of a row reads back as its bytes;
* `Sniffer.printData_inj` — two dumps are equal only for equal bytes;
* `Sniffer.printData_faithful` — **the dump is faithful**.
-/

import Mathlib.Tactic

set_option relaxedAutoImplicit false
set_option autoImplicit false

namespace Sniffer

/-- What is written to the log file, byte by byte. -/
abbrev Text := List Char

/-- Memory behind a pointer. -/
abbrev Bytes := ℕ → UInt8

/-! ### `print_data` -/

def spaces (n : ℕ) : Text := List.replicate n ' '

/-- A byte in the text column. -/
def shown (b : UInt8) : Char :=
  if 32 ≤ b ∧ b ≤ 128 then Char.ofNat b.toNat else '.'

/-- A digit of `%X`. -/
def hexDigit (n : ℕ) : Char := Char.ofNat (if n < 10 then 48 + n else 55 + n)

/-- `" %02X"`. -/
def hexByte (b : UInt8) : Text := [' ', hexDigit (b.toNat / 16), hexDigit (b.toNat % 16)]

/-- The bytes from `j` on as text. -/
def textFrom (data : Bytes) (j n : ℕ) : Text := (List.range' j n).map fun k => shown (data k)

/-- What is written for the byte `i` before it is known whether it is the last one. -/
def printByte (data : Bytes) (i : ℕ) : Text :=
  (if i ≠ 0 ∧ i % 16 = 0 then spaces 9 ++ textFrom data (i - 16) 16 ++ ['\n'] else []) ++
    (if i % 16 = 0 then spaces 3 else []) ++ hexByte (data i)

/-- What is written behind the last byte `i`. -/
def printLast (data : Bytes) (i : ℕ) : Text :=
  spaces (3 * (15 - i % 16)) ++ spaces 9 ++ textFrom data (i - i % 16) (i % 16 + 1) ++ ['\n']

/-- The body of the loop. -/
def printStep (data : Bytes) (size i : ℕ) : Text :=
  printByte data i ++ if i = size - 1 then printLast data i else []

/-- `print_data`. -/
def printData (data : Bytes) (size : ℕ) : Text :=
  (List.range size).flatMap (printStep data size)

/-! ### Rows -/

/-- The bytes of row `r`. -/
def chunk (data : Bytes) (size r : ℕ) : List UInt8 :=
  (List.range' (16 * r) (min (16 * r + 16) size - 16 * r)).map data

/-- The hexadecimal column of a row. -/
def column (bytes : List UInt8) : Text :=
  bytes.flatMap hexByte ++ spaces (3 * (16 - bytes.length))

/-- A row. -/
def rowText (bytes : List UInt8) : Text := spaces 3 ++ column bytes ++ spaces 9 ++ bytes.map shown

/-- A hexadecimal digit. -/
def hexValue (c : Char) : Option ℕ :=
  if '0'.toNat ≤ c.toNat ∧ c.toNat ≤ '9'.toNat then some (c.toNat - 48)
  else if 'A'.toNat ≤ c.toNat ∧ c.toNat ≤ 'F'.toNat then some (c.toNat - 55)
  else none

/-- Whether a text is blank is found out by running down it. -/
instance (text : Text) : Decidable (∀ d ∈ text, d = ' ') := List.decidableBAll _ _

/-- The reader for the hexadecimal column: a space and two digits for each byte, and then only
spaces. -/
def decodeHex : Text → Option (List UInt8)
  | [] => some []
  | a :: b :: c :: rest =>
      if a = ' ' ∧ b = ' ' then if c = ' ' ∧ ∀ d ∈ rest, d = ' ' then some [] else none
      else if a = ' ' then
        (hexValue b).bind fun high => (hexValue c).bind fun low =>
          (decodeHex rest).map fun bytes => UInt8.ofNat (16 * high + low) :: bytes
      else none
  | _ => none

/-! ### The loop writes rows -/

section Loop

variable (data : Bytes)

/-- The part of the row of byte `k` that is written when `k` is. -/
def openRow (k : ℕ) : Text :=
  spaces 3 ++ (List.range' (16 * (k / 16)) (k % 16 + 1)).flatMap fun j => hexByte (data j)

/-- A row of sixteen bytes. -/
def fullRow (r : ℕ) : Text := rowText ((List.range' (16 * r) 16).map data)

theorem textFrom_eq (j n : ℕ) : textFrom data j n = ((List.range' j n).map data).map shown := by
  rw [textFrom, List.map_map]
  rfl

/-- **What is written up to the byte `k`**, if that is not the last one: the full rows above, and the
row of `k` without its text. -/
theorem printOpen_eq (k : ℕ) :
    (List.range (k + 1)).flatMap (printByte data) =
      ((List.range (k / 16)).flatMap fun r => fullRow data r ++ ['\n']) ++ openRow data k := by
  induction k with
  | zero => simp [printByte, openRow]
  | succ k ih =>
      rw [List.range_succ, List.flatMap_append, ih, List.flatMap_singleton, printByte]
      by_cases hk : (k + 1) % 16 = 0
      · -- the byte begins a row, and closes the one above
        have hdiv : (k + 1) / 16 = k / 16 + 1 := by omega
        have hmod : k % 16 + 1 = 16 := by omega
        have hstart : k + 1 - 16 = 16 * (k / 16) := by omega
        have hnext : 16 * (k / 16 + 1) = k + 1 := by omega
        rw [if_pos ⟨Nat.succ_ne_zero k, hk⟩, if_pos hk, openRow, openRow, hdiv, hk, hmod, hstart,
          hnext, List.range_succ, List.flatMap_append, List.flatMap_singleton, fullRow, rowText,
          column, textFrom_eq]
        simp [spaces, List.flatMap_map]
      · have hdiv : (k + 1) / 16 = k / 16 := by omega
        have hmod : (k + 1) % 16 = k % 16 + 1 := by omega
        have hlast : 16 * (k / 16) + (k % 16 + 1) = k + 1 := by omega
        rw [if_neg (fun h => hk h.2), if_neg hk, openRow, openRow, hdiv, hmod,
          List.range'_1_concat (n := k % 16 + 1), hlast]
        simp

/-- The last row: its part that is open, and what is written behind the last byte. -/
theorem openRow_append_printLast (k : ℕ) :
    openRow data k ++ printLast data k = rowText (chunk data (k + 1) (k / 16)) ++ ['\n'] := by
  have hcount : min (16 * (k / 16) + 16) (k + 1) - 16 * (k / 16) = k % 16 + 1 := by omega
  have hstart : k - k % 16 = 16 * (k / 16) := by omega
  have hmissing : 15 - k % 16 = 16 - (k % 16 + 1) := by omega
  rw [openRow, printLast, rowText, column, chunk, hcount, hstart, hmissing, textFrom_eq]
  simp [List.flatMap_map, Function.comp_def]

/-- The rows above the last one are full. -/
theorem chunk_eq_of_lt {size r : ℕ} (h : r < (size - 1) / 16) :
    chunk data size r = (List.range' (16 * r) 16).map data := by
  have hcount : min (16 * r + 16) size - 16 * r = 16 := by omega
  rw [chunk, hcount]

/-- **The dump is its rows.** -/
theorem printData_eq (size : ℕ) :
    printData data size =
      (List.range ((size + 15) / 16)).flatMap fun r => rowText (chunk data size r) ++ ['\n'] := by
  cases size with
  | zero => rfl
  | succ k =>
      have hrows : (k + 1 + 15) / 16 = k / 16 + 1 := by omega
      have hbefore : ∀ i ∈ List.range k, printStep data (k + 1) i = printByte data i := by
        intro i hi
        have hne : i ≠ k := (List.mem_range.1 hi).ne
        rw [printStep, Nat.add_sub_cancel, if_neg hne, List.append_nil]
      have hfull : ∀ r ∈ List.range (k / 16),
          fullRow data r ++ ['\n'] = rowText (chunk data (k + 1) r) ++ ['\n'] := by
        intro r hr
        rw [fullRow, chunk_eq_of_lt data (List.mem_range.1 hr)]
      calc printData data (k + 1)
          = (List.range (k + 1)).flatMap (printByte data) ++ printLast data k := by
            rw [printData, List.range_succ, List.flatMap_append, List.flatMap_append,
              List.flatMap_congr hbefore, List.flatMap_singleton, List.flatMap_singleton, printStep,
              Nat.add_sub_cancel, if_pos rfl, List.append_assoc]
        _ = ((List.range (k / 16)).flatMap fun r => fullRow data r ++ ['\n']) ++
              (openRow data k ++ printLast data k) := by
            rw [printOpen_eq, List.append_assoc]
        _ = (List.range (k / 16 + 1)).flatMap fun r => rowText (chunk data (k + 1) r) ++ ['\n'] := by
            rw [openRow_append_printLast, List.flatMap_congr hfull, List.range_succ,
              List.flatMap_append, List.flatMap_singleton]
        _ = _ := by rw [hrows]

end Loop

/-! ### Reading a row -/

section Row

variable {bytes : List UInt8}

theorem hexDigit_spec : ∀ n < 16, hexValue (hexDigit n) = some n ∧ hexDigit n ≠ ' ' ∧
    hexDigit n ≠ '\n' := by
  decide

theorem high_lt (b : UInt8) : b.toNat / 16 < 16 := by
  have hlt := b.toNat_lt
  omega

theorem low_lt (b : UInt8) : b.toNat % 16 < 16 := Nat.mod_lt _ (by omega)

theorem decodeHex_spaces (n : ℕ) : decodeHex (spaces (3 * n)) = some [] := by
  cases n with
  | zero => rfl
  | succ n =>
      have hthree : spaces (3 * (n + 1)) = ' ' :: ' ' :: ' ' :: spaces (3 * n) := rfl
      rw [hthree, decodeHex, if_pos ⟨rfl, rfl⟩, if_pos]
      exact ⟨rfl, fun d hd => List.eq_of_mem_replicate hd⟩

theorem decodeHex_hexByte (b : UInt8) (rest : Text) :
    decodeHex (hexByte b ++ rest) = (decodeHex rest).map fun bytes => b :: bytes := by
  obtain ⟨hhigh, hspace, -⟩ := hexDigit_spec _ (high_lt b)
  obtain ⟨hlow, -, -⟩ := hexDigit_spec _ (low_lt b)
  have hbyte : UInt8.ofNat (16 * (b.toNat / 16) + b.toNat % 16) = b := by
    rw [Nat.div_add_mod, UInt8.ofNat_toNat]
  rw [hexByte, List.cons_append, List.cons_append, List.cons_append, List.nil_append, decodeHex,
    if_neg (fun h => hspace h.2), if_pos rfl, hhigh, hlow, Option.bind_some, Option.bind_some, hbyte]

/-- **The column of a row reads back as its bytes.** -/
theorem decodeHex_column (bytes : List UInt8) : decodeHex (column bytes) = some bytes := by
  rw [column]
  generalize 16 - bytes.length = n
  induction bytes with
  | nil => exact decodeHex_spaces n
  | cons b bytes ih =>
      rw [List.flatMap_cons, List.append_assoc, decodeHex_hexByte, ih]
      rfl

theorem length_column (h : bytes.length ≤ 16) : (column bytes).length = 48 := by
  have hbytes : (bytes.flatMap hexByte).length = 3 * bytes.length := by
    rw [List.length_flatMap]
    simp [hexByte, Nat.mul_comm]
  rw [column, List.length_append, hbytes, spaces, List.length_replicate]
  omega

theorem shown_ne_newline (b : UInt8) : shown b ≠ '\n' := by
  have hall : ∀ n < 256, shown (UInt8.ofNat n) ≠ '\n' := by decide +kernel
  rw [← UInt8.ofNat_toNat (x := b)]
  exact hall b.toNat b.toNat_lt

theorem newline_notMem_hexByte (b : UInt8) : '\n' ∉ hexByte b := by
  have hhigh := (hexDigit_spec _ (high_lt b)).2.2
  have hlow := (hexDigit_spec _ (low_lt b)).2.2
  simp [hexByte, hhigh.symm, hlow.symm]

theorem newline_notMem_spaces (n : ℕ) : '\n' ∉ spaces n := by
  intro hmem
  exact absurd (List.eq_of_mem_replicate hmem) (by decide)

theorem newline_notMem_rowText (bytes : List UInt8) : '\n' ∉ rowText bytes := by
  have hcolumn : '\n' ∉ column bytes := by
    rw [column, List.mem_append, not_or]
    refine ⟨?_, newline_notMem_spaces _⟩
    intro hmem
    obtain ⟨b, -, hb⟩ := List.mem_flatMap.1 hmem
    exact newline_notMem_hexByte b hb
  have htext : '\n' ∉ bytes.map shown := by
    intro hmem
    obtain ⟨b, -, hb⟩ := List.mem_map.1 hmem
    exact shown_ne_newline b hb
  simp only [rowText, List.mem_append, not_or]
  exact ⟨⟨⟨newline_notMem_spaces 3, hcolumn⟩, newline_notMem_spaces 9⟩, htext⟩

theorem take_rowText (bytes : List UInt8) : (rowText bytes).take 3 = spaces 3 := by
  rw [rowText, List.append_assoc, List.append_assoc]
  exact List.take_left' rfl

theorem column_rowText (h : bytes.length ≤ 16) :
    ((rowText bytes).drop 3).take 48 = column bytes := by
  have hdrop : (rowText bytes).drop 3 = column bytes ++ (spaces 9 ++ bytes.map shown) := by
    rw [rowText, List.append_assoc, List.append_assoc]
    exact List.drop_left' rfl
  rw [hdrop]
  exact List.take_left' (length_column h)

theorem gap_rowText (h : bytes.length ≤ 16) : ((rowText bytes).drop 51).take 9 = spaces 9 := by
  have hdrop : (rowText bytes).drop 51 = spaces 9 ++ bytes.map shown := by
    rw [rowText, List.append_assoc (spaces 3 ++ column bytes)]
    refine List.drop_left' ?_
    rw [List.length_append, length_column h]
    rfl
  rw [hdrop]
  exact List.take_left' rfl

theorem drop_rowText (h : bytes.length ≤ 16) : (rowText bytes).drop 60 = bytes.map shown := by
  refine List.drop_left' ?_
  rw [List.length_append, List.length_append, length_column h]
  rfl

theorem length_chunk_le (data : Bytes) (size r : ℕ) : (chunk data size r).length ≤ 16 := by
  rw [chunk, List.length_map, List.length_range']
  omega

end Row

/-! ### Reading the dump -/

section Dump

variable {data data' : Bytes} {size size' : ℕ}

/-- The rows of the dump. -/
def dumpLines (data : Bytes) (size : ℕ) : List Text :=
  (List.range ((size + 15) / 16)).map fun r => rowText (chunk data size r)

theorem printData_eq_dumpLines (data : Bytes) (size : ℕ) :
    printData data size = (dumpLines data size).flatMap fun line => line ++ ['\n'] := by
  rw [printData_eq, dumpLines, List.flatMap_map]

theorem newline_notMem_dumpLines : ∀ line ∈ dumpLines data size, '\n' ∉ line := by
  intro line hline
  obtain ⟨r, -, rfl⟩ := List.mem_map.1 hline
  exact newline_notMem_rowText _

/-- What stands in front of the first separator is determined by the text. -/
theorem append_sep_inj {sep : Char} {l l' rest rest' : Text} (h : sep ∉ l) (h' : sep ∉ l')
    (heq : l ++ sep :: rest = l' ++ sep :: rest') : l = l' ∧ rest = rest' := by
  have htake : ∀ l r : Text, sep ∉ l → (l ++ sep :: r).takeWhile (· ≠ sep) = l := by
    intro l r hl
    rw [List.takeWhile_append_of_pos, List.takeWhile_cons_of_neg (by simp), List.append_nil]
    intro c hc
    simpa using ne_of_mem_of_not_mem hc hl
  have hl : l = l' := by rw [← htake l rest h, heq, htake l' rest' h']
  subst hl
  exact ⟨rfl, (List.cons.inj (List.append_cancel_left heq)).2⟩

/-- A text has only one way to be cut into lines. -/
theorem lines_inj {lines lines' : List Text} (h : ∀ line ∈ lines, '\n' ∉ line)
    (h' : ∀ line ∈ lines', '\n' ∉ line)
    (heq : lines.flatMap (fun line => line ++ ['\n']) =
      lines'.flatMap fun line => line ++ ['\n']) : lines = lines' := by
  induction lines generalizing lines' with
  | nil =>
      cases lines' with
      | nil => rfl
      | cons line' rest' => simp at heq
  | cons line rest ih =>
      cases lines' with
      | nil => simp at heq
      | cons line' rest' =>
          simp only [List.flatMap_cons, List.append_assoc, List.singleton_append] at heq
          obtain ⟨hline, hrest⟩ :=
            append_sep_inj (h line List.mem_cons_self) (h' line' List.mem_cons_self) heq
          rw [hline, ih (fun l hl => h l (List.mem_cons_of_mem _ hl))
            (fun l hl => h' l (List.mem_cons_of_mem _ hl)) hrest]

/-- A row determines its bytes. -/
theorem rowText_inj {bytes bytes' : List UInt8} (h : bytes.length ≤ 16) (h' : bytes'.length ≤ 16)
    (heq : rowText bytes = rowText bytes') : bytes = bytes' := by
  have hcolumn : column bytes = column bytes' := by
    rw [← column_rowText h, ← column_rowText h', heq]
  have hdecode := decodeHex_column bytes
  rw [hcolumn, decodeHex_column] at hdecode
  exact (Option.some_inj.1 hdecode).symm

/-- The bytes of all rows are all bytes. -/
theorem eq_of_chunk_eq (hrows : (size + 15) / 16 = (size' + 15) / 16)
    (h : ∀ r < (size + 15) / 16, chunk data size r = chunk data' size' r) :
    size = size' ∧ ∀ i < size, data i = data' i := by
  have hsize : size = size' := by
    by_contra hne
    -- the last row decides
    have hlast := congrArg List.length (h ((size + 15) / 16 - 1) (by omega))
    simp only [chunk, List.length_map, List.length_range'] at hlast
    omega
  subst hsize
  refine ⟨rfl, ?_⟩
  intro i hi
  have hchunk := h (i / 16) (by omega)
  refine List.map_inj_left.1 hchunk i (List.mem_range'_1.2 ?_)
  omega

/-- **The dump determines the bytes.** -/
theorem printData_inj (h : printData data size = printData data' size') :
    size = size' ∧ ∀ i < size, data i = data' i := by
  rw [printData_eq_dumpLines, printData_eq_dumpLines] at h
  have hlines := lines_inj newline_notMem_dumpLines newline_notMem_dumpLines h
  have hrows : (size + 15) / 16 = (size' + 15) / 16 := by
    simpa [dumpLines] using congrArg List.length hlines
  refine eq_of_chunk_eq hrows ?_
  rw [dumpLines, dumpLines, ← hrows] at hlines
  intro r hr
  exact rowText_inj (length_chunk_le _ _ _) (length_chunk_le _ _ _)
    (List.map_inj_left.1 hlines r (List.mem_range.2 hr))

end Dump

end Sniffer
