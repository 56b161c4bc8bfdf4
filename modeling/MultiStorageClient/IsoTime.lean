/-
MultiStorageClient/IsoTime.lean

Dates and times in UTC, and their texts: `datetime.isoformat`, which names
the folders of a manifest, and the `strftime` format of `last_modified`.

A day is counted from the first of January of the year 1 in the proleptic
Gregorian calendar, as `datetime.toordinal` does (less one).  Texts of fixed
width compare as the numbers do, so that the folder with the greatest name is
the latest one.
-/
import MultiStorageClient.PyStr

namespace MultiStorageClient

/-! ### Digits of fixed width -/

/-- `f"{n:0w}"` -/
def digits : ℕ → ℕ → PyStr
  | 0, _ => []
  | w + 1, n => digits w (n / 10) ++ [Nat.digitChar (n % 10)]

@[simp] theorem length_digits (w n : ℕ) : (digits w n).length = w := by
  induction w generalizing n with
  | zero => rfl
  | succ w ih => simp [digits, ih]

theorem isDigit_of_mem_digits {w n : ℕ} {c : Char} (h : c ∈ digits w n) : c.isDigit = true := by
  induction w generalizing n with
  | zero => cases h
  | succ w ih =>
      rw [digits, List.mem_append, List.mem_singleton] at h
      rcases h with h | rfl
      · exact ih h
      · have hall : ∀ m < 10, (Nat.digitChar m).isDigit = true := by decide
        exact hall _ (Nat.mod_lt n (by decide))

/-- The value of a decimal digit. -/
def digitVal? (c : Char) : Option ℕ := if c.isDigit then some (c.toNat - 48) else none

/-- `int(s)` for a text of digits. -/
def parseDigits (s : PyStr) : Option ℕ :=
  s.foldl (fun acc c => do
    let n ← acc
    let d ← digitVal? c
    some (n * 10 + d)) (some 0)

theorem digitVal?_digitChar : ∀ n < 10, digitVal? (Nat.digitChar n) = some n := by decide

/-- Padded digits are read back. -/
theorem parseDigits_digits {w n : ℕ} (h : n < 10 ^ w) : parseDigits (digits w n) = some n := by
  induction w generalizing n with
  | zero =>
      obtain rfl : n = 0 := by simpa using h
      rfl
  | succ w ih =>
      have hdiv : n / 10 < 10 ^ w := by
        rw [Nat.div_lt_iff_lt_mul (by decide)]
        rwa [Nat.pow_succ] at h
      have hn : n / 10 * 10 + n % 10 = n := by omega
      have hprev := ih hdiv
      rw [parseDigits] at hprev ⊢
      rw [digits, List.foldl_append, hprev]
      simp [digitVal?_digitChar (n % 10) (Nat.mod_lt n (by decide)), hn]

theorem digitChar_lt : ∀ m < 10, ∀ n < m, Nat.digitChar n < Nat.digitChar m := by decide

/-- Texts of one width compare as their numbers. -/
theorem digits_lt {w n m : ℕ} (h : n < m) (hm : m < 10 ^ w) : digits w n < digits w m := by
  induction w generalizing n m with
  | zero =>
      rw [Nat.pow_zero] at hm
      omega
  | succ w ih =>
      have hdiv : m / 10 < 10 ^ w := by
        rw [Nat.div_lt_iff_lt_mul (by decide)]
        rwa [Nat.pow_succ] at hm
      rw [digits, digits]
      rcases Nat.lt_or_ge (n / 10) (m / 10) with hlt | hge
      · exact PyStr.append_lt_append_of_lt (ih hlt hdiv) (by simp) _ _
      · have heq : n / 10 = m / 10 := by omega
        rw [heq, PyStr.append_lt_append_iff]
        have hc := digitChar_lt (m % 10) (Nat.mod_lt m (by decide)) (n % 10) (by omega)
        exact List.cons_lt_cons_iff.mpr (.inl hc)

/-! ### The calendar -/

/-- Leap years. -/
def isLeap (y : ℕ) : Bool := y % 4 = 0 ∧ (y % 100 ≠ 0 ∨ y % 400 = 0)

/-- The lengths of the months. -/
def monthLengths (leap : Bool) : List ℕ :=
  [31, if leap then 29 else 28, 31, 30, 31, 30, 31, 31, 30, 31, 30, 31]

/-- The days before the first of January of a year. -/
def daysBeforeYear (y : ℕ) : ℕ := (y - 1) * 365 + (y - 1) / 4 - (y - 1) / 100 + (y - 1) / 400

/-- The days of a year before the first of a month. -/
def daysBeforeMonth (y m : ℕ) : ℕ := ((monthLengths (isLeap y)).take (m - 1)).sum

/-- The number of a date, counted from the first of January of the year 1. -/
def dayNumber (y m d : ℕ) : ℕ := daysBeforeYear y + daysBeforeMonth y m + (d - 1)

/-- The month and day of the `n`-th day of a year, the month counted from
`m`. -/
def monthDay : List ℕ → ℕ → ℕ → ℕ × ℕ
  | [], m, n => (m, n + 1)
  | len :: lens, m, n => if n < len then (m, n + 1) else monthDay lens (m + 1) (n - len)

/-- The year of a day, and its number in that year: cycles of 400, 100, 4 and
1 years, where the last day of a long cycle belongs to its last year. -/
def yearDay (n : ℕ) : ℕ × ℕ :=
  let n400 := n / 146097
  let r400 := n % 146097
  let n100 := r400 / 36524
  let r100 := r400 % 36524
  let n4 := r100 / 1461
  let r4 := r100 % 1461
  let n1 := r4 / 365
  let r1 := r4 % 365
  let year := n400 * 400 + n100 * 100 + n4 * 4 + n1 + 1
  if n1 = 4 ∨ n100 = 4 then (year - 1, 365) else (year, r1)

theorem daysBeforeYear_cycles (a : ℕ) {b c d : ℕ} (hb : b ≤ 3) (hc : c ≤ 24) (hd : d ≤ 3) :
    daysBeforeYear (a * 400 + b * 100 + c * 4 + d + 1) =
      a * 146097 + b * 36524 + c * 1461 + d * 365 := by
  have h₄ : (a * 400 + b * 100 + c * 4 + d) / 4 = a * 100 + b * 25 + c := by omega
  have h₁₀₀ : (a * 400 + b * 100 + c * 4 + d) / 100 = a * 4 + b := by omega
  have h₄₀₀ : (a * 400 + b * 100 + c * 4 + d) / 400 = a := by omega
  rw [daysBeforeYear, Nat.add_sub_cancel, h₄, h₁₀₀, h₄₀₀]
  omega

theorem isLeap_cycles (a : ℕ) {b c d : ℕ} (hb : b ≤ 3) (hc : c ≤ 24) (hd : d ≤ 3) :
    isLeap (a * 400 + b * 100 + c * 4 + d + 1) = decide (d = 3 ∧ (c ≠ 24 ∨ b = 3)) := by
  rw [isLeap]
  apply decide_eq_decide.mpr
  omega

/-- The year begins on the day it should, and the day lies in it. -/
theorem yearDay_spec (n : ℕ) :
    daysBeforeYear (yearDay n).1 + (yearDay n).2 = n ∧ 1 ≤ (yearDay n).1 ∧
      (yearDay n).2 < (if isLeap (yearDay n).1 then 366 else 365) := by
  have h₁ := Nat.div_add_mod n 146097
  have h₂ := Nat.div_add_mod (n % 146097) 36524
  have h₃ := Nat.div_add_mod (n % 146097 % 36524) 1461
  have h₄ := Nat.div_add_mod (n % 146097 % 36524 % 1461) 365
  have hl₁ := Nat.mod_lt n (show 146097 > 0 by decide)
  have hl₂ := Nat.mod_lt (n % 146097) (show 36524 > 0 by decide)
  have hl₃ := Nat.mod_lt (n % 146097 % 36524) (show 1461 > 0 by decide)
  have hl₄ := Nat.mod_lt (n % 146097 % 36524 % 1461) (show 365 > 0 by decide)
  rw [yearDay]
  generalize n / 146097 = a at *
  generalize n % 146097 = r₁ at *
  generalize r₁ / 36524 = b at *
  generalize r₁ % 36524 = r₂ at *
  generalize r₂ / 1461 = c at *
  generalize r₂ % 1461 = r₃ at *
  generalize r₃ / 365 = d at *
  generalize r₃ % 365 = r₄ at *
  split
  · next h =>
      rcases Nat.lt_or_ge b 4 with hb | hb
      · -- the last day of a leap year
        have hd : d = 4 := by omega
        subst hd
        have hy : a * 400 + b * 100 + c * 4 + 4 + 1 - 1 = a * 400 + b * 100 + c * 4 + 3 + 1 := rfl
        have hc : c ≠ 24 ∨ b = 3 := by omega
        rw [hy, daysBeforeYear_cycles a (by omega) (by omega) (by omega),
          isLeap_cycles a (by omega) (by omega) (by omega)]
        simp only [hc, and_self, decide_true, if_true]
        omega
      · -- the last day of four centuries
        have hb' : b = 4 := by omega
        have hz : c = 0 ∧ d = 0 ∧ r₄ = 0 := by omega
        obtain ⟨rfl, rfl, rfl⟩ := hz
        subst hb'
        have hy : a * 400 + 4 * 100 + 0 * 4 + 0 + 1 - 1 = a * 400 + 3 * 100 + 24 * 4 + 3 + 1 := by
          omega
        simp only [hy, daysBeforeYear_cycles a (b := 3) (c := 24) (d := 3) (by decide) (by decide)
          (by decide), isLeap_cycles a (b := 3) (c := 24) (d := 3) (by decide) (by decide)
          (by decide)]
        simp only [or_true, and_self, decide_true, if_true]
        omega
  · next h =>
      rw [daysBeforeYear_cycles a (by omega) (by omega) (by omega)]
      refine ⟨by omega, by omega, ?_⟩
      split <;> omega

/-- The month and day name the day they were computed from. -/
theorem monthDay_spec (lens : List ℕ) (m n : ℕ) (h : n < lens.sum) :
    ∃ k len, lens[k]? = some len ∧ (monthDay lens m n).1 = m + k ∧
      1 ≤ (monthDay lens m n).2 ∧ (monthDay lens m n).2 ≤ len ∧
      (lens.take k).sum + ((monthDay lens m n).2 - 1) = n := by
  induction lens generalizing m n with
  | nil => simp at h
  | cons len lens ih =>
      rw [monthDay]
      split
      · next hn => exact ⟨0, len, rfl, rfl, by simp, hn, by simp⟩
      · next hn =>
          rw [List.sum_cons] at h
          obtain ⟨k, len', hk, hm, hd₁, hd₂, hsum⟩ := ih (m + 1) (n - len) (by omega)
          refine ⟨k + 1, len', by simpa using hk, by omega, hd₁, hd₂, ?_⟩
          rw [List.take_succ_cons, List.sum_cons]
          omega

theorem sum_monthLengths (leap : Bool) :
    (monthLengths leap).sum = if leap then 366 else 365 := by
  cases leap <;> rfl

/-! ### Points in time -/

/-- A `datetime` in UTC. -/
structure UtcDatetime where
  year : ℕ
  month : ℕ
  day : ℕ
  hour : ℕ
  minute : ℕ
  second : ℕ
  microsecond : ℕ
  year_pos : 1 ≤ year
  year_le : year ≤ 9999
  month_pos : 1 ≤ month
  day_pos : 1 ≤ day
  day_le : ∃ len, (monthLengths (isLeap year))[month - 1]? = some len ∧ day ≤ len
  hour_lt : hour < 24
  minute_lt : minute < 60
  second_lt : second < 60
  microsecond_lt : microsecond < 1000000

/-- The microseconds from the beginning of the year 1. -/
def microsOf (year month day hour minute second microsecond : ℕ) : ℕ :=
  (((dayNumber year month day * 24 + hour) * 60 + minute) * 60 + second) * 1000000 + microsecond

/-- The microseconds from the beginning of the year 1 to the epoch. -/
def epochMicros : ℕ := 62135596800000000

namespace UtcDatetime

/-- The microseconds of a time since year 1. -/
def micros (t : UtcDatetime) : ℕ :=
  microsOf t.year t.month t.day t.hour t.minute t.second t.microsecond

/-- `t.timestamp()`, in microseconds. -/
def timestamp (t : UtcDatetime) : ℤ := (t.micros : ℤ) - epochMicros

/-- `t.isoformat(timespec="seconds")` -/
def isoformat (t : UtcDatetime) : PyStr :=
  digits 4 t.year ++ '-' :: (digits 2 t.month ++ '-' :: (digits 2 t.day ++ 'T' ::
    (digits 2 t.hour ++ ':' :: (digits 2 t.minute ++ ':' :: (digits 2 t.second ++
      "+00:00".toList)))))

/-- `%Y`, which the C library does not pad. -/
def yearText (y : ℕ) : PyStr :=
  if y < 10 then digits 1 y else if y < 100 then digits 2 y else if y < 1000 then digits 3 y
  else digits 4 y

/-- `t.strftime("%Y-%m-%dT%H:%M:%S.%fZ")` -/
def strftime (t : UtcDatetime) : PyStr :=
  yearText t.year ++ '-' :: (digits 2 t.month ++ '-' :: (digits 2 t.day ++ 'T' ::
    (digits 2 t.hour ++ ':' :: (digits 2 t.minute ++ ':' :: (digits 2 t.second ++ '.' ::
      (digits 6 t.microsecond ++ ['Z']))))))

theorem month_le (t : UtcDatetime) : t.month ≤ 12 := by
  obtain ⟨len, hlen, -⟩ := t.day_le
  have h : t.month - 1 < (monthLengths (isLeap t.year)).length :=
    (List.getElem?_eq_some_iff.mp hlen).1
  have h12 : (monthLengths (isLeap t.year)).length = 12 := rfl
  omega

theorem day_lt (t : UtcDatetime) : t.day < 32 := by
  obtain ⟨len, hlen, hd⟩ := t.day_le
  have hmem : len ∈ monthLengths (isLeap t.year) := List.mem_of_getElem? hlen
  have hle : ∀ leap, ∀ x ∈ monthLengths leap, x ≤ 31 := by decide
  have := hle _ len hmem
  omega

/-! ### The order of the texts -/

/-- A year has 365 days, or 366. -/
theorem daysBeforeYear_succ {y : ℕ} (h : 1 ≤ y) :
    daysBeforeYear (y + 1) = daysBeforeYear y + if isLeap y then 366 else 365 := by
  obtain ⟨z, rfl⟩ : ∃ z, y = z + 1 := ⟨y - 1, by omega⟩
  have h₄ : (z + 1) / 4 = z / 4 + if (z + 1) % 4 = 0 then 1 else 0 := by split <;> omega
  have h₁₀₀ : (z + 1) / 100 = z / 100 + if (z + 1) % 100 = 0 then 1 else 0 := by split <;> omega
  have h₄₀₀ : (z + 1) / 400 = z / 400 + if (z + 1) % 400 = 0 then 1 else 0 := by split <;> omega
  have hle : z / 100 ≤ z / 4 := Nat.div_le_div_left (by decide) (by decide)
  have h₁ : (z + 1) % 100 = 0 → (z + 1) % 4 = 0 := by omega
  have h₂ : (z + 1) % 400 = 0 → (z + 1) % 100 = 0 := by omega
  simp only [daysBeforeYear, isLeap, Nat.add_sub_cancel, h₄, h₁₀₀, h₄₀₀, decide_eq_true_eq]
  clear h₄ h₁₀₀ h₄₀₀
  generalize (z + 1) % 4 = m₄ at *
  generalize (z + 1) % 100 = m₁₀₀ at *
  generalize (z + 1) % 400 = m₄₀₀ at *
  generalize z / 4 = q₄ at *
  generalize z / 100 = q₁₀₀ at *
  generalize z / 400 = q₄₀₀ at *
  by_cases h4 : m₄ = 0 <;> by_cases h100 : m₁₀₀ = 0 <;> by_cases h400 : m₄₀₀ = 0 <;>
    simp only [h4, h100, h400, if_true, if_false, true_and, false_and, ne_eq, not_true_eq_false,
      not_false_eq_true, or_true, or_false] <;> omega

theorem daysBeforeYear_mono {y y' : ℕ} (h : 1 ≤ y) (hy : y ≤ y') :
    daysBeforeYear y ≤ daysBeforeYear y' := by
  induction y', hy using Nat.le_induction with
  | base => exact le_rfl
  | succ y' hy ih =>
      rw [daysBeforeYear_succ (h.trans hy)]
      omega

/-- The days before a month and the days of the month fit below any later
month. -/
theorem sum_take_add_le {lens : List ℕ} {i j len : ℕ} (h : lens[i]? = some len) (hij : i < j) :
    (lens.take i).sum + len ≤ (lens.take j).sum := by
  induction lens generalizing i j with
  | nil => simp at h
  | cons l lens ih =>
      obtain ⟨j, rfl⟩ : ∃ k, j = k + 1 := ⟨j - 1, by omega⟩
      cases i with
      | zero =>
          obtain rfl : l = len := by simpa using h
          simp
      | succ i =>
          have := ih (by simpa using h) (Nat.lt_of_succ_lt_succ hij)
          rw [List.take_succ_cons, List.take_succ_cons, List.sum_cons, List.sum_cons]
          omega

/-- A date lies before the end of its month. -/
theorem dayOfYear_lt (t : UtcDatetime) {m : ℕ} (h : t.month < m) :
    daysBeforeMonth t.year t.month + (t.day - 1) < daysBeforeMonth t.year m := by
  obtain ⟨len, hlen, hd⟩ := t.day_le
  have hp := t.day_pos
  have hm := t.month_pos
  have := sum_take_add_le hlen (show t.month - 1 < m - 1 by omega)
  simp only [daysBeforeMonth]
  omega

theorem dayOfYear_lt_year (t : UtcDatetime) :
    daysBeforeMonth t.year t.month + (t.day - 1) < if isLeap t.year then 366 else 365 := by
  have hm := t.month_le
  have h := dayOfYear_lt t (m := 13) (by omega)
  rw [← sum_monthLengths]
  rwa [daysBeforeMonth.eq_def t.year 13, List.take_of_length_le (by simp [monthLengths])] at h

theorem dayNumber_lt_of_year {t t' : UtcDatetime} (h : t.year < t'.year) :
    dayNumber t.year t.month t.day < dayNumber t'.year t'.month t'.day := by
  have h₁ := daysBeforeYear_mono (y := t.year + 1) (by omega) h
  rw [daysBeforeYear_succ t.year_pos] at h₁
  have h₂ := dayOfYear_lt_year t
  simp only [dayNumber]
  omega

theorem dayNumber_lt_of_month {t t' : UtcDatetime} (hy : t.year = t'.year)
    (h : t.month < t'.month) :
    dayNumber t.year t.month t.day < dayNumber t'.year t'.month t'.day := by
  have := dayOfYear_lt t h
  rw [← hy]
  simp only [dayNumber]
  omega

theorem cons_append_lt_iff (c : Char) {s t : PyStr} : c :: s < c :: t ↔ s < t := by
  rw [List.cons_lt_cons_iff]
  simp

/-- A point at least a second later has a greater text. -/
theorem isoformat_lt {t t' : UtcDatetime} (h : t.micros + 1000000 ≤ t'.micros) :
    t.isoformat < t'.isoformat := by
  simp only [micros, microsOf] at h
  have hbounds : t.hour < 24 ∧ t.minute < 60 ∧ t.second < 60 ∧ t.microsecond < 1000000 :=
    ⟨t.hour_lt, t.minute_lt, t.second_lt, t.microsecond_lt⟩
  have hbounds' : t'.hour < 24 ∧ t'.minute < 60 ∧ t'.second < 60 ∧ t'.microsecond < 1000000 :=
    ⟨t'.hour_lt, t'.minute_lt, t'.second_lt, t'.microsecond_lt⟩
  have hday : dayNumber t.year t.month t.day ≤ dayNumber t'.year t'.month t'.day := by omega
  rw [isoformat, isoformat]
  rcases lt_trichotomy t.year t'.year with hy | hy | hy
  · exact PyStr.append_lt_append_of_lt (digits_lt hy (by have := t'.year_le; omega)) (by simp) _ _
  · rw [hy, PyStr.append_lt_append_iff, cons_append_lt_iff]
    rcases lt_trichotomy t.month t'.month with hm | hm | hm
    · exact PyStr.append_lt_append_of_lt (digits_lt hm (by have := t'.month_le; omega))
        (by simp) _ _
    · rw [hm, PyStr.append_lt_append_iff, cons_append_lt_iff]
      have hpos := t.day_pos
      have hpos' := t'.day_pos
      have hdays : t.day ≤ t'.day := by
        rw [hy, hm] at hday
        simp only [dayNumber] at hday
        omega
      rcases Nat.lt_or_eq_of_le hdays with hd | hd
      · exact PyStr.append_lt_append_of_lt (digits_lt hd (by have := t'.day_lt; omega))
          (by simp) _ _
      · rw [hd, PyStr.append_lt_append_iff, cons_append_lt_iff]
        rw [hy, hm, hd] at h
        -- the same day: the clock decides
        rcases lt_trichotomy t.hour t'.hour with hh | hh | hh
        · exact PyStr.append_lt_append_of_lt (digits_lt hh (by omega)) (by simp) _ _
        · rw [hh, PyStr.append_lt_append_iff, cons_append_lt_iff]
          rcases lt_trichotomy t.minute t'.minute with hi | hi | hi
          · exact PyStr.append_lt_append_of_lt (digits_lt hi (by omega)) (by simp) _ _
          · rw [hi, PyStr.append_lt_append_iff, cons_append_lt_iff]
            exact PyStr.append_lt_append_of_lt (digits_lt (by omega) (by omega)) (by simp) _ _
          · omega
        · omega
    · have := dayNumber_lt_of_month hy.symm hm
      omega
  · have := dayNumber_lt_of_year hy
    omega

/-! ### Points in time from their count -/

/-- `datetime.fromtimestamp(z / 10**6, timezone.utc)`, if the year is in range. -/
def ofTimestamp? (z : ℤ) : Option UtcDatetime :=
  -- microseconds since the first day of the year 1
  let n := (z + epochMicros).toNat
  let date := yearDay (n / 86400000000)
  let md := monthDay (monthLengths (isLeap date.1)) 1 date.2
  if h : 0 ≤ z + epochMicros ∧ date.1 ≤ 9999 then
    some
      { year := date.1
        month := md.1
        day := md.2
        hour := n / 3600000000 % 24
        minute := n / 60000000 % 60
        second := n / 1000000 % 60
        microsecond := n % 1000000
        year_pos := (yearDay_spec _).2.1
        year_le := h.2
        -- the month and the day by the lemma that places a day of the year
        month_pos := by
          obtain ⟨k, len, -, hm, -⟩ := monthDay_spec (monthLengths (isLeap date.1)) 1 date.2
            (by rw [sum_monthLengths]; exact (yearDay_spec _).2.2)
          show 1 ≤ (monthDay _ _ _).1
          omega
        day_pos := by
          obtain ⟨k, len, -, -, hd, -⟩ := monthDay_spec (monthLengths (isLeap date.1)) 1 date.2
            (by rw [sum_monthLengths]; exact (yearDay_spec _).2.2)
          exact hd
        day_le := by
          obtain ⟨k, len, hk, hm, -, hd, -⟩ := monthDay_spec (monthLengths (isLeap date.1)) 1 date.2
            (by rw [sum_monthLengths]; exact (yearDay_spec _).2.2)
          refine ⟨len, ?_, hd⟩
          have hk' : md.1 - 1 = k := by
            show (monthDay _ _ _).1 - 1 = k
            omega
          rw [hk', hk]
        hour_lt := Nat.mod_lt _ (by decide)
        minute_lt := Nat.mod_lt _ (by decide)
        second_lt := Nat.mod_lt _ (by decide)
        microsecond_lt := Nat.mod_lt _ (by decide) }
  else none

/-- The point in time has the count it was made from. -/
theorem timestamp_ofTimestamp? {z : ℤ} {t : UtcDatetime} (h : ofTimestamp? z = some t) :
    t.timestamp = z := by
  simp only [ofTimestamp?] at h
  split at h
  · next hz =>
      obtain rfl := Option.some.inj h
      have hy := yearDay_spec ((z + epochMicros).toNat / 86400000000)
      obtain ⟨k, len, -, hm, -, -, hsum⟩ := monthDay_spec
        (monthLengths (isLeap (yearDay ((z + epochMicros).toNat / 86400000000)).1)) 1
        (yearDay ((z + epochMicros).toNat / 86400000000)).2
        (by rw [sum_monthLengths]; exact hy.2.2)
      have hday : dayNumber (yearDay ((z + epochMicros).toNat / 86400000000)).1
          (monthDay (monthLengths (isLeap (yearDay ((z + epochMicros).toNat / 86400000000)).1)) 1
            (yearDay ((z + epochMicros).toNat / 86400000000)).2).1
          (monthDay (monthLengths (isLeap (yearDay ((z + epochMicros).toNat / 86400000000)).1)) 1
            (yearDay ((z + epochMicros).toNat / 86400000000)).2).2 =
          (z + epochMicros).toNat / 86400000000 := by
        rw [dayNumber, daysBeforeMonth, hm, Nat.add_sub_cancel_left, Nat.add_assoc, hsum, hy.1]
      simp only [timestamp, micros, microsOf, hday]
      omega
  · cases h

end UtcDatetime

end MultiStorageClient
