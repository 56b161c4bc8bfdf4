/-
MultiStorageClient/AttributeFilterOrder.lean

The comparisons of an attribute filter as an order: for a value of the metadata
and a literal, `<`, `=` and `>` exclude each other and one of them holds, and
`<=`, `>=` and `!=` agree with them.

`compare` takes `str` of the value, while `number` makes a float of a numeric
literal.  A text is never equal to a float, so `=` and `!=` do not see the
numbers that `<` and `>` see, and a text that is no number cannot be ordered
with a float at all.
-/
import MultiStorageClient.AttributeFilter
import MultiStorageClient.PyFloat

namespace MultiStorageClient

/-- A value in the metadata of an object. -/
inductive MetadataValue
  | string (s : PyStr)
  | int (i : ℤ)
  | float (x : Float)
  | bool (b : Bool)

namespace AttributeFilter

/-- `sys.int_info.default_max_str_digits` -/
def maxStrDigits : ℕ := 4300

/-- `float` of a string, and `<` and `<=` of floats. -/
def pyFloats : PyFloats Float where
  parse := PyFloat.parse
  lt x y := decide (x < y)
  le x y := decide (x ≤ y)

-- `float.__repr__`
variable (repr : Float → PyStr)

/-- `str` -/
def str : MetadataValue → Except FilterError PyStr
  | .string s => .ok s
  | .int i => if maxStrDigits < i.natAbs.repr.length then .error .valueError else .ok i.repr.toList
  | .float x => .ok (repr x)
  | .bool b => .ok (if b then "True" else "False").toList

/-- `compare`, on the metadata itself. -/
def compareValue (metadata : PyDict PyStr MetadataValue) (c : Comparison Float) :
    Except FilterError Bool :=
  match metadata.get? c.key with
  | none => .ok false
  | some v => do compareValues pyFloats (← str repr v) c.op c.value

/-- The evaluator of an expression, applied to the metadata itself. -/
def evaluateValues (ts : List (FilterToken Float)) (metadata : PyDict PyStr MetadataValue) :
    Except FilterError Bool :=
  if ts = [] then .ok true
  else
    match parse ts with
    | none => .error .valueError
    | some t => t.eval (compareValue repr metadata)

/-- `key op literal` -/
def comparisonValue (metadata : PyDict PyStr MetadataValue) (key : PyStr)
    (literal : FilterValue Float)
    (o : FilterOp) : Except FilterError Bool :=
  evaluateValues repr (comparisonTokens ⟨key, o, literal⟩) metadata

/-- The comparison reads the value as text and compares the text. -/
theorem comparisonValue_eq {metadata : PyDict PyStr MetadataValue} {key : PyStr} {v : MetadataValue}
    (h : metadata.get? key = some v) (literal : FilterValue Float) (o : FilterOp) :
    comparisonValue repr metadata key literal o =
      (str repr v).bind fun s => compareValues pyFloats s o literal := by
  have hparse : parse (comparisonTokens ⟨key, o, literal⟩) =
      some (.atom (⟨key, o, literal⟩ : Comparison Float)) := parse_tokens (.atom _)
  have hne : comparisonTokens (⟨key, o, literal⟩ : Comparison Float) ≠ [] := List.cons_ne_nil _ _
  rw [comparisonValue, evaluateValues, if_neg hne, hparse]
  show compareValue repr metadata _ = _
  rw [compareValue, h]
  rfl

/-! ### The laws -/

/-- What the six comparisons with one literal return is an order. -/
structure Lawful (holds : FilterOp → Bool) : Prop where
  one : (holds .lt).toNat + (holds .eq).toNat + (holds .gt).toNat = 1
  ge : holds .ge = (holds .gt || holds .eq)
  le : holds .le = (holds .lt || holds .eq)
  ne : holds .ne = !holds .eq

/-- A text reads as a number: an exact rational, which an infinity and NaN are not. -/
def ReadsAsNumber (s : PyStr) : Prop := ∃ v, (PyFloat.read s).bind PyFloat.Text.exact = some v

/-- None of the six comparisons raises.  They are an order wherever the literal is a string, and
where it is a number for a value that reads as a number. -/
def ComparesLawfully (metadata : PyDict PyStr MetadataValue) (key : PyStr) (v : MetadataValue)
    (literal : FilterValue Float) : Prop :=
  ∃ holds, (∀ o, comparisonValue repr metadata key literal o = .ok (holds o)) ∧
    ((∀ n, literal = .number n → ∃ s, str repr v = .ok s ∧ ReadsAsNumber s) → Lawful holds)

/-- The text of a value can be compared with a literal.  A number must be a number in the text, and
another one; two strings that are the same number must be the same string. -/
def Comparable (s : PyStr) : FilterValue Float → Prop
  | .number n => ∃ x, PyFloat.parse s = some x ∧ (ReadsAsNumber s → x < n ∨ n < x)
  | .string t => ∀ x y, PyFloat.parse s = some x → PyFloat.parse t = some y →
      x < y ∨ y < x ∨ s = t ∧ x.isNaN = false

/-! ### Comparisons by an order -/

/-- What the comparisons return for two things in the order `c`, which are equal or not. -/
def holdsOf (c : Option Ordering) (equal : Bool) : FilterOp → Bool
  | .eq => equal
  | .ne => !equal
  | .lt => c = some .lt
  | .gt => c = some .gt
  | .le => c = some .lt ∨ c = some .eq
  | .ge => c = some .gt ∨ c = some .eq

/-- Nothing but the equal things may be equal in the order. -/
theorem lawful_holdsOf_iff {c : Option Ordering} {equal : Bool} :
    Lawful (holdsOf c equal) ↔
      c = some .lt ∧ equal = false ∨ c = some .gt ∧ equal = false ∨ c = some .eq ∧
        equal = true := by
  constructor
  · rintro ⟨hone, hge, hle, hne⟩
    rcases c with - | - | - | - <;> cases equal <;> simp_all [holdsOf]
  · rintro (⟨rfl, rfl⟩ | ⟨rfl, rfl⟩ | ⟨rfl, rfl⟩) <;>
      exact ⟨by decide, by decide, by decide, by decide⟩

section Text

variable {s t : PyStr} {x y : Float}

theorem cmp_gt_iff : PyFloat.cmp x y = some .gt ↔ y < x := by
  rw [PyFloat.lt_iff, PyFloat.cmp_swap x y]
  cases PyFloat.cmp x y with
  | none => simp
  | some c => cases c <;> simp

theorem ge_iff : y ≤ x ↔ PyFloat.cmp x y = some .gt ∨ PyFloat.cmp x y = some .eq := by
  rw [PyFloat.le_iff, PyFloat.cmp_swap x y]
  cases PyFloat.cmp x y with
  | none => simp
  | some c => cases c <;> simp

/-- A text that is a number, compared with a number. -/
theorem compareValues_number (n : Float) (hs : PyFloat.parse s = some x) (o : FilterOp) :
    compareValues pyFloats s o (.number n) = .ok (holdsOf (PyFloat.cmp x n) false o) := by
  have hparse : pyFloats.parse s = some x := hs
  cases o
  case eq | ne => rfl
  all_goals
    simp only [compareValues, hparse, floatOf, holdsOf]
    congr 1
  case gt => exact decide_eq_decide.mpr cmp_gt_iff.symm
  case ge => exact decide_eq_decide.mpr ge_iff
  case lt => exact decide_eq_decide.mpr PyFloat.lt_iff
  case le => exact decide_eq_decide.mpr PyFloat.le_iff

/-- A text that is no number cannot be ordered with a number. -/
theorem compareValues_noNumber (n : Float) (hs : PyFloat.parse s = none) :
    compareValues pyFloats s .lt (.number n) = .error .typeError := by
  have hparse : pyFloats.parse s = none := hs
  simp only [compareValues, hparse]

/-- Two texts that are numbers. -/
theorem compareValues_numbers (hs : PyFloat.parse s = some x) (ht : PyFloat.parse t = some y)
    (o : FilterOp) :
    compareValues pyFloats s o (.string t) = .ok (holdsOf (PyFloat.cmp x y) (s = t) o) := by
  have hparse : pyFloats.parse s = some x := hs
  have hparse' : pyFloats.parse t = some y := ht
  cases o
  case eq => rfl
  case ne => simp [compareValues, holdsOf]
  all_goals
    simp only [compareValues, hparse, floatOf, hparse', holdsOf]
    congr 1
  case gt => exact decide_eq_decide.mpr cmp_gt_iff.symm
  case ge => exact decide_eq_decide.mpr ge_iff
  case lt => exact decide_eq_decide.mpr PyFloat.lt_iff
  case le => exact decide_eq_decide.mpr PyFloat.le_iff

/-- The order of two texts. -/
def textOrder (s t : PyStr) : Ordering := if s < t then .lt else if s = t then .eq else .gt

theorem textOrder_iff (s t : PyStr) :
    (s < t ↔ textOrder s t = .lt) ∧ (s = t ↔ textOrder s t = .eq) ∧
      (t < s ↔ textOrder s t = .gt) := by
  rcases lt_trichotomy s t with h | rfl | h
  · simp [textOrder, h, h.ne, h.le]
  · simp [textOrder]
  · simp [textOrder, h, h.ne', h.not_gt]

/-- Two texts, of which one is no number, are compared as texts. -/
theorem compareValues_texts (h : ∀ x y, PyFloat.parse s = some x → PyFloat.parse t ≠ some y)
    (o : FilterOp) :
    compareValues pyFloats s o (.string t) = .ok (holdsOf (some (textOrder s t)) (s = t) o) := by
  obtain ⟨hlt, heq, hgt⟩ := textOrder_iff s t
  have hge : t ≤ s ↔ textOrder s t = .gt ∨ textOrder s t = .eq := by
    rw [← hgt, ← heq, le_iff_lt_or_eq, eq_comm]
  have hle : s ≤ t ↔ textOrder s t = .lt ∨ textOrder s t = .eq := by
    rw [← hlt, ← heq, le_iff_lt_or_eq]
  cases hs : pyFloats.parse s with
  | none => cases o <;> simp [compareValues, floatOf, holdsOf, hs, hgt, hlt, hge, hle]
  | some x =>
      cases ht : pyFloats.parse t with
      | none => cases o <;> simp [compareValues, floatOf, holdsOf, hs, ht, hgt, hlt, hge, hle]
      | some y => exact absurd ht (h x y hs)

end Text

/-! ### The condition -/

/-- A text is compared with a literal as the laws say. -/
def LawfulText (s : PyStr) (literal : FilterValue Float) : Prop :=
  ∃ holds, (∀ o, compareValues pyFloats s o literal = .ok (holds o)) ∧
    ((∀ n, literal = .number n → ReadsAsNumber s) → Lawful holds)

/-- Where the comparisons are read off an ordering and an equality, they are lawful where the two
agree. -/
theorem lawfulText_of_holdsOf {s : PyStr} {literal : FilterValue Float} {c : Option Ordering}
    {equal : Bool} (h : ∀ o, compareValues pyFloats s o literal = .ok (holdsOf c equal o)) :
    LawfulText s literal ↔ ((∀ n, literal = .number n → ReadsAsNumber s) →
      c = some .lt ∧ equal = false ∨ c = some .gt ∧ equal = false ∨ c = some .eq ∧
        equal = true) := by
  constructor
  · rintro ⟨holds, hholds, hlawful⟩ hreads
    obtain rfl : holds = holdsOf c equal := by
      funext o
      have := (hholds o).symm.trans (h o)
      injection this
    exact lawful_holdsOf_iff.mp (hlawful hreads)
  · intro hc
    exact ⟨_, h, fun hreads => lawful_holdsOf_iff.mpr (hc hreads)⟩

/-- Against a number the laws hold of a text that can be compared with it. -/
theorem lawfulText_number_iff (s : PyStr) (n : Float) :
    LawfulText s (.number n) ↔ Comparable s (.number n) := by
  cases hs : PyFloat.parse s with
  | none =>
      constructor
      · rintro ⟨holds, hholds, -⟩
        have := (compareValues_noNumber n hs).symm.trans (hholds .lt)
        cases this
      · rintro ⟨x, hx, -⟩
        rw [hs] at hx
        cases hx
  | some x =>
      rw [lawfulText_of_holdsOf (compareValues_number n hs)]
      simp [Comparable, hs, ← PyFloat.lt_iff, cmp_gt_iff]

/-- Against a string the laws hold of a text that can be compared with it. -/
theorem lawfulText_string_iff (s t : PyStr) :
    LawfulText s (.string t) ↔ Comparable s (.string t) := by
  by_cases h : ∀ x y, PyFloat.parse s = some x → PyFloat.parse t ≠ some y
  · have hcomparable : Comparable s (.string t) := fun x y hs ht => absurd ht (h x y hs)
    rw [lawfulText_of_holdsOf (compareValues_texts h)]
    obtain ⟨hlt, heq, hgt⟩ := textOrder_iff s t
    refine iff_of_true (fun _ => ?_) hcomparable
    simp only [Option.some.injEq, ← hlt, ← heq, ← hgt, decide_eq_false_iff_not, decide_eq_true_iff]
    rcases lt_trichotomy s t with h | h | h
    · exact .inl ⟨h, h.ne⟩
    · exact .inr (.inr ⟨h, h⟩)
    · exact .inr (.inl ⟨h, h.ne'⟩)
  · push Not at h
    obtain ⟨x, y, hs, ht⟩ := h
    have hcomparable : Comparable s (.string t) ↔ x < y ∨ y < x ∨ s = t ∧ x.isNaN = false := by
      simp [Comparable, hs, ht]
    rw [lawfulText_of_holdsOf (compareValues_numbers hs ht), hcomparable, PyFloat.lt_iff (x := x),
      ← cmp_gt_iff]
    by_cases hst : s = t
    · obtain rfl : x = y := by
        subst hst
        exact Option.some.inj (hs.symm.trans ht)
      simp [hst, PyFloat.cmp_self]
    · simp [hst]

theorem lawfulText_iff (s : PyStr) (literal : FilterValue Float) :
    LawfulText s literal ↔ Comparable s literal := by
  cases literal with
  | string t => exact lawfulText_string_iff s t
  | number n => exact lawfulText_number_iff s n

/-- **The comparisons of a value with a literal are lawful**, and never raise, if and only if its
text can be compared with the literal. -/
theorem comparesLawfully_iff {metadata : PyDict PyStr MetadataValue} {key : PyStr}
    {v : MetadataValue}
    (h : metadata.get? key = some v) (literal : FilterValue Float) :
    ComparesLawfully repr metadata key v literal ↔
      ∃ s, str repr v = .ok s ∧ Comparable s literal := by
  simp only [← lawfulText_iff, ComparesLawfully, comparisonValue_eq repr h]
  cases hstr : str repr v with
  | error e =>
      constructor
      · rintro ⟨holds, hholds, -⟩
        cases hholds .eq
      · rintro ⟨s, hs, -⟩
        cases hs
  | ok s => simp [Except.bind, LawfulText]

/-- The attribute `version`, which is the text `0.4`. -/
def versionText : PyDict PyStr MetadataValue :=
  PyDict.empty.set "version".toList (.string "0.4".toList)

/-- `version` compared with `0.5`. -/
theorem versionText_comparesLawfully :
    ComparesLawfully (fun _ => []) versionText "version".toList (.string "0.4".toList)
      (.number 0.5) :=
  (comparesLawfully_iff _ rfl _).mpr
    ⟨"0.4".toList, rfl, 0.4, by decide +kernel, fun _ => .inl (by decide +kernel)⟩

/-- The attribute `priority`, which is `5`. -/
def priorityFive : PyDict PyStr MetadataValue := PyDict.empty.set "priority".toList (.int 5)

/-- `priority < 5`, `priority = 5` and `priority > 5` are all false. -/
theorem priorityFive_not_comparesLawfully :
    ¬ComparesLawfully (fun _ => []) priorityFive "priority".toList (.int 5) (.number 5) := by
  rintro ⟨holds, hholds, hlawful⟩
  have hparse : PyFloat.parse "5".toList = some 5 := by decide +kernel
  have hfalse : ∀ o, holdsOf (PyFloat.cmp 5 5) false o = holds o := by
    intro o
    have h := hholds o
    rw [comparisonValue_eq _
      (show priorityFive.get? "priority".toList = some (.int 5) from rfl)] at h
    exact Except.ok.inj ((compareValues_number 5 hparse o).symm.trans h)
  have hreads : ReadsAsNumber "5".toList := ⟨5, by decide +kernel⟩
  have hone := (hlawful fun _ _ => ⟨"5".toList, rfl, hreads⟩).one
  rw [← hfalse, ← hfalse, ← hfalse] at hone
  exact absurd hone (by decide +kernel)

end AttributeFilter

end MultiStorageClient
