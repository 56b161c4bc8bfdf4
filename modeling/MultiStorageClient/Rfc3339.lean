/-
MultiStorageClient/Rfc3339.lean

Times of Go's `time` package, and their texts in the layout `time.RFC3339Nano`.

A time is given by its fields in the proleptic Gregorian calendar and by the
offset of its zone.  The year is any integer: `Format` writes every year, but
`Parse` takes four digits for it and nothing else, so a time is found again in
its text if and only if its year has four digits (`parse_format_iff`).
-/
import MultiStorageClient.GoStr
import MultiStorageClient.IsoTime

namespace GoTime

open MultiStorageClient
  (digits digitVal? parseDigits monthLengths parseDigits_digits isDigit_of_mem_digits
  digitVal?_digitChar length_digits)

/-! ### Times -/

/-- `time.Time`, by its fields; `zone` is the offset in seconds. -/
structure Time where
  year : ℤ
  month : ℕ
  day : ℕ
  hour : ℕ
  minute : ℕ
  second : ℕ
  nanosecond : ℕ
  zone : ℤ
deriving DecidableEq

/-- The zero value of `time.Time`. -/
def Time.zero : Time :=
  { year := 1, month := 1, day := 1, hour := 0, minute := 0, second := 0, nanosecond := 0,
    zone := 0 }

/-- `isLeap(year)` -/
def isLeap (y : ℤ) : Bool := y % 4 = 0 ∧ (y % 100 ≠ 0 ∨ y % 400 = 0)

/-- `daysIn(m, year)` -/
def daysIn (m : ℕ) (y : ℤ) : ℕ := (monthLengths (isLeap y))[m - 1]?.getD 0

/-- A time in UTC. -/
structure UtcTime extends Time where
  month_pos : 1 ≤ month
  month_le : month ≤ 12
  day_pos : 1 ≤ day
  day_le : day ≤ daysIn month year
  hour_lt : hour < 24
  minute_lt : minute < 60
  second_lt : second < 60
  nanosecond_lt : nanosecond < 10 ^ 9
  zone_eq : zone = 0

/-! ### `Format` -/

/-- `appendInt(b, x, width)` -/
def appendInt (x : ℤ) (width : ℕ) : GoStr :=
  (if x < 0 then ['-'] else []) ++
    if x.natAbs < 10 ^ width then digits width x.natAbs else Nat.toDigits 10 x.natAbs

/-- `appendNano` with trailing zeros removed. -/
def appendNano (nanosec : ℕ) : GoStr :=
  if nanosec = 0 then [] else '.' :: (digits 9 nanosec).rdropWhile (· == '0')

/-- `t.Format(time.RFC3339Nano)` -/
def UtcTime.format (t : UtcTime) : GoStr :=
  appendInt t.year 4 ++ '-' :: (digits 2 t.month ++ '-' :: (digits 2 t.day ++ 'T' ::
    (digits 2 t.hour ++ ':' :: (digits 2 t.minute ++ ':' :: (digits 2 t.second ++
      (appendNano t.nanosecond ++ ['Z']))))))

/-! ### `Parse` -/

/-- `skip(value, prefix)` for a separator. -/
def skip (c : Char) : GoStr → Option GoStr
  | d :: s => if d = c then some s else none
  | [] => none

/-- `getnum(s, fixed)`: one digit is enough where the width is not fixed. -/
def getnum (fixed : Bool) : GoStr → Option (ℕ × GoStr)
  | [] => none
  | c :: s => do
      let n ← digitVal? c
      match s.head?.bind digitVal? with
      | some m => some (n * 10 + m, s.tail)
      | none => if fixed then none else some (n, s)

/-- The year, which is read by `atoi` from four bytes. -/
def getYear (s : GoStr) : Option (ℕ × GoStr) :=
  if s.length < 4 then none
  else (parseDigits (s.take 4)).map fun y => (y, s.drop 4)

/-- `parseNanoseconds`: the digits after the ninth are cut off. -/
def parseNanoseconds (ds : GoStr) : ℕ :=
  (parseDigits (ds.take 9)).getD 0 * 10 ^ (9 - ds.length)

/-- The fraction of the second, which may be absent. -/
def getFraction : GoStr → ℕ × GoStr
  | c :: d :: s =>
      if (c = '.' ∨ c = ',') ∧ d.isDigit then
        (parseNanoseconds ((d :: s).takeWhile Char.isDigit), (d :: s).dropWhile Char.isDigit)
      else (0, c :: d :: s)
  | s => (0, s)

/-- The zone: `Z`, or the offset in hours and minutes. -/
def getZone : GoStr → Option (ℤ × GoStr)
  | 'Z' :: s => some (0, s)
  | sign :: h₁ :: h₂ :: colon :: m₁ :: m₂ :: s => do
      guard (colon = ':')
      let h ← getnum true [h₁, h₂]
      let m ← getnum true [m₁, m₂]
      guard (h.1 ≤ 24 ∧ m.1 ≤ 60)
      let offset : ℤ := (h.1 * 60 + m.1) * 60
      if sign = '+' then some (offset, s) else if sign = '-' then some (-offset, s) else none
  | _ => none

/-- `time.Parse(time.RFC3339Nano, value)` -/
def parse (value : GoStr) : Option Time := do
  let (year, value) ← getYear value
  let value ← skip '-' value
  let (month, value) ← getnum true value
  guard (1 ≤ month ∧ month ≤ 12)
  let value ← skip '-' value
  let (day, value) ← getnum true value
  let value ← skip 'T' value
  let (hour, value) ← getnum false value
  guard (hour < 24)
  let value ← skip ':' value
  let (minute, value) ← getnum true value
  guard (minute < 60)
  let value ← skip ':' value
  let (second, value) ← getnum true value
  guard (second < 60)
  let (nanosecond, value) := getFraction value
  let (zone, value) ← getZone value
  guard (value = [])
  guard (1 ≤ day ∧ day ≤ daysIn month year)
  some { year, month, day, hour, minute, second, nanosecond, zone }

/-! ### The pieces of a text are found again -/

theorem skip_cons (c : Char) (s : GoStr) : skip c (c :: s) = some s := if_pos rfl

theorem digits_two (n : ℕ) :
    digits 2 n = [Nat.digitChar (n / 10 % 10), Nat.digitChar (n % 10)] := rfl

theorem getnum_digits {n : ℕ} (h : n < 100) (fixed : Bool) (s : GoStr) :
    getnum fixed (digits 2 n ++ s) = some (n, s) := by
  have htens := digitVal?_digitChar (n / 10 % 10) (Nat.mod_lt _ (by decide))
  have hones := digitVal?_digitChar (n % 10) (Nat.mod_lt _ (by decide))
  have hn : n / 10 % 10 * 10 + n % 10 = n := by omega
  rw [digits_two]
  simp [getnum, htens, hones, hn]

theorem getYear_digits {n : ℕ} (h : n < 10 ^ 4) (s : GoStr) :
    getYear (digits 4 n ++ s) = some (n, s) := by
  have hlen : (digits 4 n).length = 4 := length_digits 4 n
  unfold getYear
  rw [if_neg (by simp [hlen]), List.take_left' hlen, List.drop_left' hlen, parseDigits_digits h]
  rfl

/-- A zero at the end multiplies by ten. -/
theorem parseDigits_zeros (t : GoStr) (k : ℕ) :
    parseDigits (t ++ List.replicate k '0') = (parseDigits t).map (· * 10 ^ k) := by
  induction k with
  | zero => simp
  | succ k ih =>
      rw [List.replicate_succ', ← List.append_assoc]
      rw [parseDigits] at ih ⊢
      rw [List.foldl_append, ih]
      cases parseDigits t with
      | none => rfl
      | some n =>
          have hzero : digitVal? '0' = some 0 := rfl
          simp [hzero, Nat.pow_succ, Nat.mul_assoc]

/-- What is cut from the end are zeros. -/
theorem rdropWhile_zeros (s : GoStr) :
    ∃ k, s = s.rdropWhile (· == '0') ++ List.replicate k '0' := by
  induction s using List.reverseRecOn with
  | nil => exact ⟨0, rfl⟩
  | append_singleton s c ih =>
      by_cases hc : c = '0'
      · obtain ⟨k, hk⟩ := ih
        refine ⟨k + 1, ?_⟩
        rw [List.rdropWhile_concat_pos _ _ _ (by simp [hc]), List.replicate_succ',
          ← List.append_assoc, ← hk, hc]
      · refine ⟨0, ?_⟩
        rw [List.rdropWhile_concat_neg _ _ _ (by simp [hc])]
        simp

theorem getFraction_of_digit {c d : Char} {s : GoStr} (hc : c = '.' ∨ c = ',')
    (hd : d.isDigit = true) :
    getFraction (c :: d :: s) =
      (parseNanoseconds ((d :: s).takeWhile Char.isDigit), (d :: s).dropWhile Char.isDigit) :=
  if_pos ⟨hc, hd⟩

/-- The nanoseconds are read back. -/
theorem getFraction_appendNano {n : ℕ} (h : n < 10 ^ 9) :
    getFraction (appendNano n ++ ['Z']) = (n, ['Z']) := by
  unfold appendNano
  split
  · next hn =>
      subst hn
      rfl
  · next hn =>
      obtain ⟨k, hk⟩ := rdropWhile_zeros (digits 9 n)
      have hdigits : ∀ c ∈ (digits 9 n).rdropWhile (· == '0'), c.isDigit = true := by
        intro c hc
        apply isDigit_of_mem_digits (w := 9) (n := n)
        rw [hk]
        exact List.mem_append_left _ hc
      have hparse : (parseDigits ((digits 9 n).rdropWhile (· == '0'))).map (· * 10 ^ k) =
          some n := by
        rw [← parseDigits_zeros, ← hk, parseDigits_digits h]
      have hlen := congrArg List.length hk
      rw [List.length_append, List.length_replicate, length_digits] at hlen
      generalize (digits 9 n).rdropWhile (· == '0') = t at hdigits hparse hlen
      obtain ⟨m, hm, hmn⟩ := Option.map_eq_some_iff.mp hparse
      cases t with
      | nil =>
          -- only zeros: the number would be zero
          obtain rfl : m = 0 := (Option.some.inj hm).symm
          exact absurd (by simpa using hmn.symm) hn
      | cons d t =>
          have htake : (d :: (t ++ ['Z'])).takeWhile Char.isDigit = d :: t := by
            rw [← List.cons_append, List.takeWhile_append_of_pos hdigits]
            simp [List.takeWhile]
          have hdrop : (d :: (t ++ ['Z'])).dropWhile Char.isDigit = ['Z'] := by
            rw [← List.cons_append, List.dropWhile_append_of_pos hdigits]
            rfl
          have hlt : (d :: t).length ≤ 9 := by omega
          have hscale : 9 - (d :: t).length = k := by omega
          show getFraction ('.' :: d :: (t ++ ['Z'])) = _
          rw [getFraction_of_digit (.inl rfl) (hdigits d (List.mem_cons_self ..)), htake, hdrop,
            parseNanoseconds, List.take_of_length_le hlt, hm, hscale, ← hmn]
          rfl

theorem daysIn_lt (m : ℕ) (y : ℤ) : daysIn m y < 100 := by
  have hall : ∀ leap, ∀ x ∈ monthLengths leap, x < 100 := by decide
  unfold daysIn
  cases hm : (monthLengths (isLeap y))[m - 1]? with
  | none => decide
  | some x => exact hall _ x (List.mem_of_getElem? hm)

/-! ### Times are found again -/

variable {t : UtcTime}

/-- A time of the years 0 to 9999 is read back. -/
theorem parse_format (h₀ : 0 ≤ t.year) (h₁ : t.year ≤ 9999) :
    parse t.format = some t.toTime := by
  obtain ⟨y, hy⟩ := Int.eq_ofNat_of_zero_le h₀
  have hlt : y < 10 ^ 4 := by omega
  have hyear : appendInt t.year 4 = digits 4 y := by
    unfold appendInt
    rw [if_neg (by omega), hy, Int.natAbs_natCast, if_pos hlt]
    rfl
  have hmonth : 1 ≤ t.month ∧ t.month ≤ 12 := ⟨t.month_pos, t.month_le⟩
  have hday : 1 ≤ t.day ∧ t.day ≤ daysIn t.month (y : ℤ) := ⟨t.day_pos, hy ▸ t.day_le⟩
  have hday' := daysIn_lt t.month y
  unfold UtcTime.format parse
  rw [hyear, getYear_digits hlt]
  have hhour := t.hour_lt
  have hminute := t.minute_lt
  have hsecond := t.second_lt
  simp only [Option.bind_eq_bind, Option.bind_some, skip_cons,
    getnum_digits (show t.month < 100 by omega), getnum_digits (show t.day < 100 by omega),
    getnum_digits (show t.hour < 100 by omega), getnum_digits (show t.minute < 100 by omega),
    getnum_digits (show t.second < 100 by omega), getFraction_appendNano t.nanosecond_lt]
  simp only [guard, hmonth, hday, hhour, hminute, hsecond, and_self, if_true, Option.pure_def,
    Option.bind_some, getZone]
  rw [← hy, ← t.zone_eq]

/-- Digits of width `w` are below `10 ^ w`. -/
theorem parseDigits_lt {s : GoStr} {n : ℕ} (h : parseDigits s = some n) : n < 10 ^ s.length := by
  induction s using List.reverseRecOn generalizing n with
  | nil =>
      obtain rfl : 0 = n := Option.some.inj h
      decide
  | append_singleton s c ih =>
      rw [parseDigits, List.foldl_append] at h
      obtain ⟨m, hm, h⟩ := Option.bind_eq_some_iff.mp h
      obtain ⟨d, hd, h⟩ := Option.bind_eq_some_iff.mp h
      have hlt : m < 10 ^ s.length := ih hm
      have hd : d < 10 := by
        unfold digitVal? at hd
        split at hd
        · next hc =>
            have h9 : 48 ≤ c.toNat ∧ c.toNat ≤ 57 := Char.isDigit_iff_toNat.mp hc
            obtain rfl := Option.some.inj hd
            omega
        · cases hd
      obtain rfl : m * 10 + d = n := Option.some.inj h
      rw [List.length_append, List.length_singleton, Nat.pow_succ]
      omega

/-- A year has four digits. -/
theorem year_of_getYear {s s' : GoStr} {n : ℕ} (h : getYear s = some (n, s')) : n ≤ 9999 := by
  unfold getYear at h
  split at h
  · cases h
  · next hlen =>
      obtain ⟨y, hy, heq⟩ := Option.map_eq_some_iff.mp h
      obtain ⟨rfl, -⟩ := Prod.mk.inj heq
      have hlt := parseDigits_lt hy
      rw [List.length_take, min_eq_left (by omega)] at hlt
      omega

/-- A time that is read is of the years 0 to 9999. -/
theorem year_of_parse {s : GoStr} {x : Time} (h : parse s = some x) :
    0 ≤ x.year ∧ x.year ≤ 9999 := by
  unfold parse at h
  obtain ⟨⟨y, s₁⟩, hy, h⟩ := Option.bind_eq_some_iff.mp h
  have hle := year_of_getYear hy
  simp only [Option.bind_eq_bind, Option.bind_eq_some_iff] at h
  obtain ⟨_, -, _, -, _, -, _, -, _, -, _, -, _, -, _, -, _, -, _, -, _, -, _, -, _, -, _, -, _, -,
    _, -, _, -, h⟩ := h
  obtain rfl := Option.some.inj h
  exact ⟨Int.natCast_nonneg y, Int.ofNat_le.mpr hle⟩

/-- A time, or the zero time where its text is not one, is the time that was
written if and only if the year has four digits. -/
theorem parse_format_iff :
    (parse t.format).getD Time.zero = t.toTime ↔ 0 ≤ t.year ∧ t.year ≤ 9999 := by
  constructor
  · intro h
    rw [← h]
    cases hp : parse t.format with
    | none => decide
    | some x => exact year_of_parse hp
  · rintro ⟨h₀, h₁⟩
    rw [parse_format h₀ h₁]
    rfl

/-! ### The characters of a text -/

theorem isDigit_of_mem_appendNano {n : ℕ} {c : Char} (h : c ∈ appendNano n) :
    c.isDigit = true ∨ c = '.' := by
  unfold appendNano at h
  split at h
  · cases h
  · rcases List.mem_cons.mp h with rfl | h
    · exact .inr rfl
    · exact .inl (isDigit_of_mem_digits ((List.rdropWhile_prefix _ _).subset h))

/-- A number is written in digits, maybe behind a minus. -/
theorem isDigit_of_mem_appendInt {x : ℤ} {w : ℕ} {c : Char} (h : c ∈ appendInt x w) :
    c.isDigit = true ∨ c = '-' := by
  unfold appendInt at h
  rcases List.mem_append.mp h with h | h
  · split at h
    · exact .inr (List.mem_singleton.mp h)
    · cases h
  · split at h
    · exact .inl (isDigit_of_mem_digits h)
    · exact .inl (Nat.isDigit_of_mem_toDigits (by decide) (by decide) h)

/-- A text is of digits and separators. -/
theorem newline_not_mem_format (t : UtcTime) : '\n' ∉ t.format := by
  have hdigits : ∀ w n, '\n' ∉ digits w n := fun w n h =>
    absurd (isDigit_of_mem_digits h) (by decide)
  have hyear : '\n' ∉ appendInt t.year 4 := fun h =>
    absurd (isDigit_of_mem_appendInt h) (by decide)
  have hnano : '\n' ∉ appendNano t.nanosecond := fun h =>
    absurd (isDigit_of_mem_appendNano h) (by decide)
  simp [UtcTime.format, hdigits, hyear, hnano]

theorem getLast?_format (t : UtcTime) : t.format.getLast? = some 'Z' := by
  have hsplit : t.format = (appendInt t.year 4 ++ '-' :: (digits 2 t.month ++ '-' ::
      (digits 2 t.day ++ 'T' :: (digits 2 t.hour ++ ':' :: (digits 2 t.minute ++ ':' ::
        (digits 2 t.second ++ appendNano t.nanosecond)))))) ++ ['Z'] := by
    simp [UtcTime.format]
  rw [hsplit, List.getLast?_concat]

end GoTime
