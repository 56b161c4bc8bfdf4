/-
MultiStorageClient/GoText.lean

Texts that Go reads line by line and field by field: `bufio.Scanner`,
`strings.SplitN`, `strconv.ParseUint` and `strconv.FormatUint`.

What is joined by a separator is found again where no piece has the separator in
it (`lines_flatMap`, `splitN_cons`); and no piece that is read has it
(`newline_not_mem_scan`, `splitN_eq_cons`).
-/
import MultiStorageClient.GoStr
import MultiStorageClient.IsoTime

namespace GoStr

open MultiStorageClient (digitVal? digitVal?_digitChar)

/-! ### Lines -/

/-- The lines of a text; the last one counts if it is not empty. -/
def lines (s : GoStr) : List GoStr :=
  let parts := s.splitOn '\n'
  if parts.getLast? = some [] then parts.dropLast else parts

/-- `bufio.Scanner` with a buffer of `size` bytes: the lines, without a carriage
return at the end, up to one that does not fit, and whether there is such a line
(`bufio.ErrTooLong`). -/
def scan (size : ℕ) (s : GoStr) : List GoStr × Bool :=
  (((lines s).takeWhile fun line => line.length < size).map fun line => line.trimSuffix ['\r'],
    (lines s).any fun line => size ≤ line.length)

theorem mem_lines {s line : GoStr} (h : line ∈ lines s) : line ∈ s.splitOn '\n' := by
  unfold lines at h
  dsimp only at h
  split at h
  · exact List.dropLast_subset _ h
  · exact h

theorem mem_of_mem_trimSuffix {s p : GoStr} {c : Char} (h : c ∈ s.trimSuffix p) : c ∈ s := by
  unfold trimSuffix at h
  split at h
  · exact List.mem_of_mem_take h
  · exact h

theorem newline_not_mem_scan {size : ℕ} {s token : GoStr} (h : token ∈ (scan size s).1) :
    '\n' ∉ token := by
  obtain ⟨line, hline, rfl⟩ := List.mem_map.mp h
  intro hmem
  have hsplit := mem_lines (List.takeWhile_subset _ hline)
  exact PyStr.sep_free_of_splitOn hsplit (mem_of_mem_trimSuffix hmem)

/-- Lines that are ended by a newline each are the lines of the text. -/
theorem lines_flatMap {ls : List GoStr} (h : ∀ l ∈ ls, '\n' ∉ l) :
    lines (ls.flatMap fun l => l ++ ['\n']) = ls := by
  have hsplit : (ls.flatMap fun l => l ++ ['\n']).splitOn '\n' = ls ++ [[]] := by
    induction ls with
    | nil => exact List.splitOn_nil '\n'
    | cons l ls ih =>
        rw [List.flatMap_cons, List.append_assoc, List.singleton_append,
          List.splitOn_append_cons_self_of_not_mem (h l (List.mem_cons_self ..)),
          ih fun k hk => h k (List.mem_cons_of_mem _ hk), List.cons_append]
  unfold lines
  simp only [hsplit, List.getLast?_concat, if_true, List.dropLast_concat]

theorem trimSuffix_of_not_mem {s : GoStr} {c : Char} (h : s.getLast? ≠ some c) :
    s.trimSuffix [c] = s := by
  unfold trimSuffix
  split
  · next hs =>
      obtain ⟨t, rfl⟩ := List.isSuffixOf_iff_suffix.mp hs
      exact absurd (List.getLast?_concat ..) h
  · rfl

/-- Lines that end in no carriage return are read as they were written, if each
fits. -/
theorem scan_flatMap {size : ℕ} {ls : List GoStr} (h : ∀ l ∈ ls, '\n' ∉ l)
    (hr : ∀ l ∈ ls, l.getLast? ≠ some '\r') (hlen : ∀ l ∈ ls, l.length < size) :
    scan size (ls.flatMap fun l => l ++ ['\n']) = (ls, false) := by
  have htake : (ls.takeWhile fun line => decide (line.length < size)) = ls :=
    List.takeWhile_eq_self_iff.mpr fun l hl => decide_eq_true (hlen l hl)
  have hmap : ls.map (fun line => line.trimSuffix ['\r']) = ls := by
    conv_rhs => rw [← List.map_id ls]
    apply List.map_congr_left
    intro l hl
    exact trimSuffix_of_not_mem (hr l hl)
  have hany : (ls.any fun line => decide (size ≤ line.length)) = false := by
    rw [List.any_eq_false]
    intro l hl hle
    exact absurd (hlen l hl) (not_lt.mpr (of_decide_eq_true hle))
  unfold scan
  rw [lines_flatMap h, htake, hmap, hany]

/-! ### Fields -/

/-- `strings.SplitN(s, sep, n)` for a separator of one byte. -/
def splitN (sep : Char) : ℕ → GoStr → List GoStr
  | 0, _ => []
  | 1, s => [s]
  | n + 2, s =>
      match s.dropWhile (· ≠ sep) with
      | [] => [s]
      | _ :: rest => s.takeWhile (· ≠ sep) :: splitN sep (n + 1) rest

/-- A field and its separator are split off. -/
theorem splitN_cons {sep : Char} {a : GoStr} (h : sep ∉ a) (n : ℕ) (rest : GoStr) :
    splitN sep (n + 2) (a ++ sep :: rest) = a :: splitN sep (n + 1) rest := by
  have hall : ∀ c ∈ a, decide (c ≠ sep) = true := by
    intro c hc
    apply decide_eq_true
    rintro rfl
    exact h hc
  have hdrop : (a ++ sep :: rest).dropWhile (· ≠ sep) = sep :: rest := by
    rw [List.dropWhile_append_of_pos hall]
    simp
  have htake : (a ++ sep :: rest).takeWhile (· ≠ sep) = a := by
    rw [List.takeWhile_append_of_pos hall]
    simp
  rw [splitN, hdrop, htake]

/-- A split into two fields and more, read backwards. -/
theorem splitN_eq_cons {sep : Char} {n : ℕ} {s a b : GoStr} {fields : List GoStr}
    (h : splitN sep (n + 2) s = a :: b :: fields) :
    sep ∉ a ∧ ∃ rest, s = a ++ sep :: rest ∧ splitN sep (n + 1) rest = b :: fields := by
  rw [splitN] at h
  split at h
  · cases h
  · next c rest hs =>
      obtain ⟨rfl, hrest⟩ := List.cons.inj h
      have hc : c = sep := by
        have hne : s.dropWhile (· ≠ sep) ≠ [] := by
          rw [hs]
          exact List.cons_ne_nil _ _
        have hhead := List.head_dropWhile_not (· ≠ sep) hne
        simpa only [hs, List.head_cons, decide_eq_false_iff_not, not_not] using hhead
      refine ⟨?_, rest, ?_, hrest⟩
      · intro hmem
        simpa using List.mem_takeWhile_imp hmem
      · rw [← hc, ← hs, hc, List.takeWhile_append_dropWhile]

/-! ### Numbers -/

/-- What is wrong with the text of a number. -/
inductive NumError where
  | syntaxError
  | range
deriving DecidableEq

/-- The loop of `strconv.ParseUint` in base 10, for 64 bits. -/
def parseUintLoop (n : ℕ) : GoStr → ℕ × Option NumError
  | [] => (n, none)
  | c :: s =>
      match digitVal? c with
      | none => (0, some .syntaxError)
      | some d =>
          if 2 ^ 64 ≤ n * 10 + d then (2 ^ 64 - 1, some .range) else parseUintLoop (n * 10 + d) s

/-- `strconv.ParseUint(s, 10, 64)`: the value, which is the greatest one where
the number is out of range, and the error. -/
def parseUint (s : GoStr) : ℕ × Option NumError :=
  if s = [] then (0, some .syntaxError) else parseUintLoop 0 s

/-- The loop reads the digits as their number, below 2^64. -/
theorem parseUintLoop_ofDigitChars {s : GoStr} (hs : ∀ c ∈ s, c.isDigit = true) {n : ℕ}
    (h : Nat.ofDigitChars 10 s n < 2 ^ 64) :
    parseUintLoop n s = (Nat.ofDigitChars 10 s n, none) := by
  induction s generalizing n with
  | nil => rw [parseUintLoop, Nat.ofDigitChars_nil]
  | cons c s ih =>
      have hd : digitVal? c = some (c.toNat - '0'.toNat) := if_pos (hs c (List.mem_cons_self ..))
      rw [Nat.ofDigitChars_cons, Nat.mul_comm] at h ⊢
      have hle : n * 10 + (c.toNat - '0'.toNat) ≤
          Nat.ofDigitChars 10 s (n * 10 + (c.toNat - '0'.toNat)) := by
        rw [Nat.ofDigitChars_eq_ofDigitChars_zero]
        exact le_trans (Nat.le_mul_of_pos_left _ (by positivity)) (Nat.le_add_right _ _)
      rw [parseUintLoop, hd]
      show (if _ then _ else _) = _
      rw [if_neg (by omega)]
      exact ih (fun k hk => hs k (List.mem_cons_of_mem _ hk)) h

/-- A number of 64 bits is found again in its digits. -/
theorem parseUint_toDigits {n : ℕ} (h : n < 2 ^ 64) :
    parseUint (Nat.toDigits 10 n) = (n, none) := by
  have hdigits : ∀ c ∈ Nat.toDigits 10 n, c.isDigit = true := fun c hc =>
    Nat.isDigit_of_mem_toDigits (by decide) (by decide) hc
  unfold parseUint
  rw [if_neg Nat.toDigits_ne_nil, parseUintLoop_ofDigitChars hdigits (by simpa using h),
    Nat.ofDigitChars_ten_toDigits]

/-! ### Numbers in base 16 -/

/-- `strconv.FormatUint(n, 16)` -/
def formatUint16 (n : ℕ) : GoStr := Nat.toDigits 16 n

/-- The value of a digit in base 16. -/
def hexVal? (c : Char) : Option ℕ :=
  if c.isDigit then some (c.toNat - '0'.toNat)
  else if 'a' ≤ c ∧ c ≤ 'f' then some (c.toNat - 'a'.toNat + 10)
  else if 'A' ≤ c ∧ c ≤ 'F' then some (c.toNat - 'A'.toNat + 10)
  else none

/-- The loop of `strconv.ParseUint` in base 16, for 64 bits. -/
def parseUint16Loop (n : ℕ) : GoStr → ℕ × Option NumError
  | [] => (n, none)
  | c :: s =>
      match hexVal? c with
      | none => (0, some .syntaxError)
      | some d =>
          if 2 ^ 64 ≤ n * 16 + d then (2 ^ 64 - 1, some .range) else parseUint16Loop (n * 16 + d) s

/-- `strconv.ParseUint(s, 16, 64)` -/
def parseUint16 (s : GoStr) : ℕ × Option NumError :=
  if s = [] then (0, some .syntaxError) else parseUint16Loop 0 s

theorem hexVal?_digitChar {d : ℕ} (h : d < 16) : hexVal? d.digitChar = some d := by
  revert d
  decide

/-- The loop reads on behind what it has read. -/
theorem parseUint16Loop_append {s t : GoStr} {n m : ℕ} (h : parseUint16Loop n s = (m, none)) :
    parseUint16Loop n (s ++ t) = parseUint16Loop m t := by
  induction s generalizing n with
  | nil =>
      obtain rfl := congrArg Prod.fst h
      rfl
  | cons c s ih =>
      rw [parseUint16Loop] at h
      rw [List.cons_append, parseUint16Loop]
      cases hd : hexVal? c with
      | none => simp [hd] at h
      | some d =>
          simp only [hd] at h ⊢
          split at h
          · simp at h
          next hlt => rw [if_neg hlt, ih h]

theorem parseUint16Loop_digit {m d : ℕ} (hd : d < 16) (h : m * 16 + d < 2 ^ 64) :
    parseUint16Loop m [d.digitChar] = (m * 16 + d, none) := by
  rw [parseUint16Loop, hexVal?_digitChar hd]
  show (if _ then _ else _) = _
  rw [if_neg (by omega)]
  rfl

/-- The loop reads back the hexadecimal digits of a number. -/
theorem parseUint16Loop_toDigits {n : ℕ} (h : n < 2 ^ 64) :
    parseUint16Loop 0 (Nat.toDigits 16 n) = (n, none) := by
  induction n using Nat.strong_induction_on with
  | _ n ih =>
      by_cases hlt : n < 16
      · rw [Nat.toDigits_of_lt_base hlt, parseUint16Loop_digit hlt (by omega), Nat.zero_mul,
          Nat.zero_add]
      · have hdiv : n / 16 < n := Nat.div_lt_self (by omega) (by omega)
        have hsum : n / 16 * 16 + n % 16 = n := Nat.div_add_mod' n 16
        rw [Nat.toDigits_of_base_le (by decide) (not_lt.mp hlt),
          parseUint16Loop_append (ih _ hdiv (by omega)),
          parseUint16Loop_digit (Nat.mod_lt _ (by decide)) (by omega), hsum]

/-- A number of 64 bits is found again in its digits. -/
theorem parseUint16_formatUint16 {n : ℕ} (h : n < 2 ^ 64) :
    parseUint16 (formatUint16 n) = (n, none) := by
  unfold parseUint16 formatUint16
  rw [if_neg Nat.toDigits_ne_nil, parseUint16Loop_toDigits h]

theorem formatUint16_ne_nil (n : ℕ) : formatUint16 n ≠ [] := Nat.toDigits_ne_nil

end GoStr
