/-
MultiStorageClient/JsonText.lean

JSON text: `json.dumps` and `json.loads` with their default settings, and the
round trip between them.

`dumps` escapes everything outside printable ASCII, so its text has no line
break and no character that an encoding could change.  `loads` is a recursive
descent parser; its fuel is the length of the text, which every nested call
shortens.  How Python writes and reads a number is a parameter: `repr` of a
`float` is the shortest text that reads back as the same value, and only that
it does is used.
-/
import MultiStorageClient.ObjectMetadata
import MultiStorageClient.PyDict

namespace MultiStorageClient

/-! ### Numbers -/

/-- The characters of a JSON number. -/
def isNumberChar (c : Char) : Bool :=
  c.isDigit || c == '-' || c == '+' || c == '.' || c == 'e' || c == 'E'

/-- `int.__repr__` and `float.__repr__`, and the way back. -/
structure NumberText where
  repr : ℚ → PyStr
  parse : PyStr → Option ℚ
  parse_repr : ∀ q, parse (repr q) = some q
  repr_ne_nil : ∀ q, repr q ≠ []
  isNumberChar_of_repr : ∀ q, ∀ c ∈ repr q, isNumberChar c = true

namespace Json

/-! ### Strings -/

/-- A hexadecimal digit, in lower case. -/
def hexDigit (n : ℕ) : Char := Char.ofNat (if n < 10 then 48 + n else 87 + n)

/-- The value of a hexadecimal digit of either case. -/
def hexVal? (c : Char) : Option ℕ :=
  let n := c.toNat
  if 48 ≤ n ∧ n ≤ 57 then some (n - 48)
  else if 97 ≤ n ∧ n ≤ 102 then some (n - 87)
  else if 65 ≤ n ∧ n ≤ 70 then some (n - 55)
  else none

/-- `\uXXXX` -/
def unicodeEscape (n : ℕ) : PyStr :=
  ['\\', 'u', hexDigit (n / 4096 % 16), hexDigit (n / 256 % 16), hexDigit (n / 16 % 16),
    hexDigit (n % 16)]

/-- The text of one character of a string: `py_encode_basestring_ascii`. -/
def escape (c : Char) : PyStr :=
  if c = '"' then ['\\', '"']
  else if c = '\\' then ['\\', '\\']
  else if c = '\n' then ['\\', 'n']
  else if c = '\r' then ['\\', 'r']
  else if c = '\t' then ['\\', 't']
  else if c.toNat = 12 then ['\\', 'f']
  else if c.toNat = 8 then ['\\', 'b']
  else if 32 ≤ c.toNat ∧ c.toNat ≤ 126 then [c]
  else if c.toNat < 65536 then unicodeEscape c.toNat
  else
    -- a surrogate pair
    unicodeEscape (55296 + (c.toNat - 65536) / 1024) ++
      unicodeEscape (56320 + (c.toNat - 65536) % 1024)

/-- The text of a string. -/
def quote (s : PyStr) : PyStr := '"' :: (s.flatMap escape ++ ['"'])

/-- Four hexadecimal digits. -/
def parseHex4 : PyStr → Option (ℕ × PyStr)
  | a :: b :: c :: d :: r => do
      let a ← hexVal? a
      let b ← hexVal? b
      let c ← hexVal? c
      let d ← hexVal? d
      some (a * 4096 + b * 256 + c * 16 + d, r)
  | _ => none

/-- The rest of a `\u` escape; a lone surrogate is refused, since a `PyStr`
has no character for it. -/
def parseUnicode (s : PyStr) : Option (Char × PyStr) :=
  match parseHex4 s with
  | none => none
  | some (n, r) =>
      -- a high surrogate: the low one has to follow
      if 55296 ≤ n ∧ n ≤ 56319 then
        match r with
        | '\\' :: 'u' :: r =>
            match parseHex4 r with
            | none => none
            | some (m, r) =>
                if 56320 ≤ m ∧ m ≤ 57343 then
                  some (Char.ofNat (65536 + (n - 55296) * 1024 + (m - 56320)), r)
                else none
        | _ => none
      -- a low surrogate alone
      else if 56320 ≤ n ∧ n ≤ 57343 then none
      else some (Char.ofNat n, r)

/-- One character of a string behind a backslash. -/
def parseEscape : PyStr → Option (Char × PyStr)
  | '"' :: r => some ('"', r)
  | '\\' :: r => some ('\\', r)
  | '/' :: r => some ('/', r)
  | 'n' :: r => some ('\n', r)
  | 'r' :: r => some ('\r', r)
  | 't' :: r => some ('\t', r)
  | 'f' :: r => some (Char.ofNat 12, r)
  | 'b' :: r => some (Char.ofNat 8, r)
  | 'u' :: r => parseUnicode r
  | _ => none

/-- The characters of a string up to its closing quote. -/
def parseString : ℕ → PyStr → Option (PyStr × PyStr)
  | 0, _ => none
  | _ + 1, [] => none
  | fuel + 1, c :: r =>
      if c = '"' then some ([], r)
      else if c = '\\' then do
        let (c, r) ← parseEscape r
        let (s, r) ← parseString fuel r
        some (c :: s, r)
      -- control characters are refused, as by the strict decoder
      else if c.toNat < 32 then none
      else do
        let (s, r) ← parseString fuel r
        some (c :: s, r)

/-! ### Values -/

variable (N : NumberText)

mutual

/-- `json.dumps` -/
def dumps : Json → PyStr
  | .null => "null".toList
  | .bool true => "true".toList
  | .bool false => "false".toList
  | .num q => N.repr q
  | .str s => quote s
  | .arr [] => "[]".toList
  | .arr (x :: xs) => '[' :: (dumps x ++ dumpsItems xs ++ [']'])
  | .obj [] => ['\x7b', '\x7d']
  | .obj ((k, v) :: kvs) =>
      '\x7b' :: (quote k ++ [':', ' '] ++ dumps v ++ dumpsPairs kvs ++ ['\x7d'])

/-- The items of an array after the first. -/
def dumpsItems : List Json → PyStr
  | [] => []
  | x :: xs => [',', ' '] ++ dumps x ++ dumpsItems xs

/-- The pairs of an object after the first. -/
def dumpsPairs : List (PyStr × Json) → PyStr
  | [] => []
  | (k, v) :: kvs => [',', ' '] ++ quote k ++ [':', ' '] ++ dumps v ++ dumpsPairs kvs

end

/-- JSON white space. -/
def isSpace (c : Char) : Bool := c == ' ' || c == '\t' || c == '\n' || c == '\r'

/-- Skip white space. -/
def skipWs (s : PyStr) : PyStr := s.dropWhile isSpace

mutual

/-- A value at the beginning of the text, and what follows it. -/
def parseValue : ℕ → PyStr → Option (Json × PyStr)
  | 0, _ => none
  | fuel + 1, s =>
      match s with
      | '"' :: r => (parseString (r.length + 1) r).map fun (t, r) => (.str t, r)
      | '[' :: r =>
          match skipWs r with
          | ']' :: r => some (.arr [], r)
          | r => (parseItems fuel r).map fun (xs, r) => (.arr xs, r)
      | '\x7b' :: r =>
          match skipWs r with
          | '\x7d' :: r => some (.obj [], r)
          -- a repeated key keeps its first place and its last value
          | r => (parsePairs fuel r).map fun (kvs, r) => (.obj (PyDict.ofList kvs).entries, r)
      | 'n' :: 'u' :: 'l' :: 'l' :: r => some (.null, r)
      | 't' :: 'r' :: 'u' :: 'e' :: r => some (.bool true, r)
      | 'f' :: 'a' :: 'l' :: 's' :: 'e' :: r => some (.bool false, r)
      | s => (N.parse (s.takeWhile isNumberChar)).map fun q => (.num q, s.dropWhile isNumberChar)

/-- The items of an array and its closing bracket. -/
def parseItems : ℕ → PyStr → Option (List Json × PyStr)
  | 0, _ => none
  | fuel + 1, s =>
      match parseValue fuel s with
      | none => none
      | some (x, r) =>
          match skipWs r with
          | ']' :: r => some ([x], r)
          | ',' :: r => (parseItems fuel (skipWs r)).map fun (xs, r) => (x :: xs, r)
          | _ => none

/-- The pairs of an object and its closing brace. -/
def parsePairs : ℕ → PyStr → Option (List (PyStr × Json) × PyStr)
  | 0, _ => none
  | fuel + 1, s =>
      match s with
      | '"' :: r =>
          match parseString (r.length + 1) r with
          | none => none
          | some (k, r) =>
              match skipWs r with
              | ':' :: r =>
                  match parseValue fuel (skipWs r) with
                  | none => none
                  | some (v, r) =>
                      match skipWs r with
                      | '\x7d' :: r => some ([(k, v)], r)
                      | ',' :: r =>
                          (parsePairs fuel (skipWs r)).map fun (kvs, r) => ((k, v) :: kvs, r)
                      | _ => none
              | _ => none
      | _ => none

end

/-- `json.loads` -/
def loads (s : PyStr) : Option Json :=
  match parseValue N (s.length + 1) (skipWs s) with
  | some (j, r) => if skipWs r = [] then some j else none
  | none => none

/-! ### Strings read back -/

theorem hexVal?_hexDigit : ∀ n < 16, hexVal? (hexDigit n) = some n := by decide

theorem parseHex4_unicodeEscape {n : ℕ} (h : n < 65536) (r : PyStr) :
    parseHex4 ((unicodeEscape n).drop 2 ++ r) = some (n, r) := by
  have hd : ∀ m, hexVal? (hexDigit (m % 16)) = some (m % 16) :=
    fun m => hexVal?_hexDigit _ (Nat.mod_lt _ (by decide))
  have hn : n / 4096 % 16 * 4096 + n / 256 % 16 * 256 + n / 16 % 16 * 16 + n % 16 = n := by omega
  simp only [unicodeEscape, List.drop_succ_cons, List.drop_zero, List.cons_append,
    List.nil_append, parseHex4, hd, Option.bind_eq_bind, Option.bind_some, hn]

theorem not_surrogate (c : Char) : ¬ (55296 ≤ c.toNat ∧ c.toNat ≤ 57343) := by
  have hc := c.valid
  simp only [UInt32.isValidChar, Nat.isValidChar] at hc
  show ¬ (55296 ≤ c.val.toNat ∧ c.val.toNat ≤ 57343)
  omega

theorem toNat_lt_max (c : Char) : c.toNat < 1114112 := by
  have hc := c.valid
  simp only [UInt32.isValidChar, Nat.isValidChar] at hc
  show c.val.toNat < 1114112
  omega

theorem unicodeEscape_eq (n : ℕ) :
    unicodeEscape n = '\\' :: 'u' :: (unicodeEscape n).drop 2 := rfl

theorem parseUnicode_basic {c : Char} (h : c.toNat < 65536) (r : PyStr) :
    parseUnicode ((unicodeEscape c.toNat).drop 2 ++ r) = some (c, r) := by
  have hc := not_surrogate c
  have h₁ : ¬ (55296 ≤ c.toNat ∧ c.toNat ≤ 56319) := by omega
  have h₂ : ¬ (56320 ≤ c.toNat ∧ c.toNat ≤ 57343) := by omega
  simp only [parseUnicode, parseHex4_unicodeEscape h, h₁, h₂, if_false, Char.ofNat_toNat]

/-- A surrogate pair is read back as its character. -/
theorem parseUnicode_pair {c : Char} (h : ¬ c.toNat < 65536) (r : PyStr) :
    parseUnicode ((unicodeEscape (55296 + (c.toNat - 65536) / 1024)).drop 2 ++
      (unicodeEscape (56320 + (c.toNat - 65536) % 1024) ++ r)) = some (c, r) := by
  have hmax := toNat_lt_max c
  have h₁ : 55296 ≤ 55296 + (c.toNat - 65536) / 1024 ∧
      55296 + (c.toNat - 65536) / 1024 ≤ 56319 := by omega
  have h₂ : 56320 ≤ 56320 + (c.toNat - 65536) % 1024 ∧
      56320 + (c.toNat - 65536) % 1024 ≤ 57343 := by omega
  have hsum : 65536 + (55296 + (c.toNat - 65536) / 1024 - 55296) * 1024 +
      (56320 + (c.toNat - 65536) % 1024 - 56320) = c.toNat := by omega
  rw [unicodeEscape_eq (56320 + _), List.cons_append, List.cons_append, parseUnicode,
    parseHex4_unicodeEscape (by omega)]
  have hlow := parseHex4_unicodeEscape (n := 56320 + (c.toNat - 65536) % 1024) (by omega) r
  simp only [h₁, h₂, and_self, if_true, hlow, hsum, Char.ofNat_toNat]

/-- Reading one escaped character of a string. -/
theorem parseString_escape (c : Char) (fuel : ℕ) (r : PyStr) :
    parseString (fuel + 1) (escape c ++ r) =
      (parseString fuel r).map fun p => (c :: p.1, p.2) := by
  have hmap : ∀ o : Option (PyStr × PyStr),
      (o.bind fun p => some (c :: p.1, p.2)) = o.map fun p => (c :: p.1, p.2) := by
    intro o
    cases o <;> rfl
  rw [escape]
  split
  -- the characters with an escape of their own
  · next h => subst h; simpa [parseString, parseEscape] using hmap _
  split
  · next h => subst h; simpa [parseString, parseEscape] using hmap _
  split
  · next h => subst h; simpa [parseString, parseEscape] using hmap _
  split
  · next h => subst h; simpa [parseString, parseEscape] using hmap _
  split
  · next h => subst h; simpa [parseString, parseEscape] using hmap _
  split
  · next h =>
      obtain rfl : c = Char.ofNat 12 := by rw [← h, Char.ofNat_toNat]
      simpa [parseString, parseEscape] using hmap _
  split
  · next h =>
      obtain rfl : c = Char.ofNat 8 := by rw [← h, Char.ofNat_toNat]
      simpa [parseString, parseEscape] using hmap _
  split
  -- a plain character stands for itself
  · next hq hb _ _ _ _ _ h =>
      have h₁ : ¬ c.toNat < 32 := by omega
      simpa [parseString, hq, hb, h₁] using hmap _
  -- the others are written as one code unit, or as a surrogate pair
  split
  · next h =>
      rw [unicodeEscape_eq]
      simpa [parseString, parseEscape, parseUnicode_basic h] using hmap _
  · next h =>
      rw [List.append_assoc, unicodeEscape_eq (55296 + _)]
      simpa [parseString, parseEscape, parseUnicode_pair h] using hmap _

/-- A quoted string reads back. -/
theorem parseString_quote (s : PyStr) {fuel : ℕ} (h : s.length < fuel) (r : PyStr) :
    parseString fuel (s.flatMap escape ++ '"' :: r) = some (s, r) := by
  induction s generalizing fuel with
  | nil =>
      obtain ⟨n, rfl⟩ : ∃ n, fuel = n + 1 := ⟨fuel - 1, by omega⟩
      simp [parseString]
  | cons c s ih =>
      obtain ⟨n, rfl⟩ : ∃ n, fuel = n + 1 := ⟨fuel - 1, by omega⟩
      have hn : s.length < n := by simpa using h
      rw [List.flatMap_cons, List.append_assoc, parseString_escape, ih hn]
      rfl

theorem length_le_flatMap_escape (s : PyStr) : s.length ≤ (s.flatMap escape).length := by
  induction s with
  | nil => simp
  | cons c s ih =>
      have hc : 1 ≤ (escape c).length := by
        rw [escape]
        split_ifs <;> simp [unicodeEscape]
      rw [List.flatMap_cons, List.length_append, List.length_cons]
      omega

theorem parseString_quote_self (s r : PyStr) :
    parseString ((s.flatMap escape ++ '"' :: r).length + 1) (s.flatMap escape ++ '"' :: r) =
      some (s, r) := by
  refine parseString_quote s ?_ r
  have h := length_le_flatMap_escape s
  simp only [List.length_append, List.length_cons]
  omega

/-! ### Values read back -/

mutual

/-- The objects in the value are dictionaries: their keys are distinct. -/
def WF : Json → Prop
  | .arr xs => WFItems xs
  | .obj kvs => (kvs.map Prod.fst).Nodup ∧ WFPairs kvs
  | _ => True

/-- `WF`, for every item. -/
def WFItems : List Json → Prop
  | [] => True
  | x :: xs => x.WF ∧ WFItems xs

/-- `WF`, for every value. -/
def WFPairs : List (PyStr × Json) → Prop
  | [] => True
  | (_, v) :: kvs => v.WF ∧ WFPairs kvs

end

/-- What may follow a value: a number ends there. -/
def Follow (r : PyStr) : Prop := ∀ c ∈ r.head?, isNumberChar c = false

theorem Follow.cons {c : Char} (h : isNumberChar c = false) (r : PyStr) : Follow (c :: r) := by
  intro d hd
  rw [← Option.some.inj hd]
  exact h

theorem skipWs_cons {c : Char} (h : isSpace c = false) (r : PyStr) : skipWs (c :: r) = c :: r := by
  simp [skipWs, h]

/-- A value begins with a character that neither is white space nor closes a
bracket. -/
theorem head_dumps (j : Json) :
    ∃ c r, dumps N j = c :: r ∧ isSpace c = false ∧ c ≠ ']' ∧ c ≠ '\x7d' := by
  match j with
  | .null => exact ⟨'n', "ull".toList, rfl, rfl, by decide, by decide⟩
  | .bool true => exact ⟨'t', "rue".toList, rfl, rfl, by decide, by decide⟩
  | .bool false => exact ⟨'f', "alse".toList, rfl, rfl, by decide, by decide⟩
  | .num q =>
      obtain ⟨c, r, hc⟩ := List.exists_cons_of_ne_nil (N.repr_ne_nil q)
      have hn : isNumberChar c = true := N.isNumberChar_of_repr q c (by rw [hc]; simp)
      refine ⟨c, r, hc, ?_, ?_, ?_⟩
      · by_contra hs
        simp only [isSpace, Bool.not_eq_false, Bool.or_eq_true, beq_iff_eq] at hs
        rcases hs with ((rfl | rfl) | rfl) | rfl <;> exact absurd hn (by decide)
      · rintro rfl
        exact absurd hn (by decide)
      · rintro rfl
        exact absurd hn (by decide)
  | .str s => exact ⟨'"', _, rfl, rfl, by decide, by decide⟩
  | .arr [] => exact ⟨'[', _, rfl, rfl, by decide, by decide⟩
  | .arr (x :: xs) => exact ⟨'[', _, rfl, rfl, by decide, by decide⟩
  | .obj [] => exact ⟨'\x7b', _, rfl, rfl, by decide, by decide⟩
  | .obj ((k, v) :: kvs) => exact ⟨'\x7b', _, rfl, rfl, by decide, by decide⟩

theorem skipWs_dumps (j : Json) (r : PyStr) : skipWs (dumps N j ++ r) = dumps N j ++ r := by
  obtain ⟨c, t, hc, hs, -⟩ := head_dumps N j
  rw [hc, List.cons_append]
  exact skipWs_cons hs _

theorem skipWs_space (r : PyStr) : skipWs (' ' :: r) = skipWs r := rfl

/-- A number reads back. -/
theorem parseValue_num (q : ℚ) {r : PyStr} (hr : Follow r) (fuel : ℕ) :
    parseValue N (fuel + 1) (N.repr q ++ r) = some (.num q, r) := by
  have htake : (N.repr q ++ r).takeWhile isNumberChar = N.repr q := by
    rw [List.takeWhile_append_of_pos (N.isNumberChar_of_repr q)]
    cases r with
    | nil => simp
    | cons c r => simp [hr c rfl]
  have hdrop : (N.repr q ++ r).dropWhile isNumberChar = r := by
    rw [List.dropWhile_append_of_pos (N.isNumberChar_of_repr q)]
    cases r with
    | nil => rfl
    | cons c r => simp [hr c rfl]
  obtain ⟨c, t, hc⟩ := List.exists_cons_of_ne_nil (N.repr_ne_nil q)
  have hn : isNumberChar c = true := N.isNumberChar_of_repr q c (by rw [hc]; simp)
  have hhead : ∀ d s, isNumberChar d = false → N.repr q ++ r ≠ d :: s := by
    intro d s hd heq
    rw [hc, List.cons_append] at heq
    rw [(List.cons.inj heq).1, hd] at hn
    cases hn
  -- no other kind of value begins like a number
  rw [parseValue]
  · rw [htake, hdrop, N.parse_repr]
    rfl
  all_goals
    intros
    refine hhead _ _ ?_ ‹_›
    rfl

mutual

/-- Every value reads back from its text. -/
theorem parseValue_dumps : ∀ (j : Json), j.WF → ∀ {fuel : ℕ} {r : PyStr},
    (dumps N j).length ≤ fuel → Follow r → parseValue N fuel (dumps N j ++ r) = some (j, r)
  | .null, _, fuel, r, hf, _ => by
      obtain ⟨n, rfl⟩ : ∃ n, fuel = n + 1 := ⟨fuel - 1, by simp [dumps] at hf; omega⟩
      simp [dumps, parseValue]
  | .bool true, _, fuel, r, hf, _ => by
      obtain ⟨n, rfl⟩ : ∃ n, fuel = n + 1 := ⟨fuel - 1, by simp [dumps] at hf; omega⟩
      simp [dumps, parseValue]
  | .bool false, _, fuel, r, hf, _ => by
      obtain ⟨n, rfl⟩ : ∃ n, fuel = n + 1 := ⟨fuel - 1, by simp [dumps] at hf; omega⟩
      simp [dumps, parseValue]
  | .num q, _, fuel, r, hf, hr => by
      have hpos : 0 < (N.repr q).length := List.length_pos_iff.mpr (N.repr_ne_nil q)
      obtain ⟨n, rfl⟩ : ∃ n, fuel = n + 1 := ⟨fuel - 1, by simp only [dumps] at hf; omega⟩
      exact parseValue_num N q hr n
  | .str s, _, fuel, r, hf, _ => by
      obtain ⟨n, rfl⟩ : ∃ n, fuel = n + 1 := ⟨fuel - 1, by simp [dumps, quote] at hf; omega⟩
      simp only [dumps, quote, List.cons_append, List.append_assoc, List.nil_append, parseValue,
        parseString_quote_self, Option.map_some]
  | .arr [], _, fuel, r, hf, _ => by
      obtain ⟨n, rfl⟩ : ∃ n, fuel = n + 1 := ⟨fuel - 1, by simp [dumps] at hf; omega⟩
      simp [dumps, parseValue, skipWs, isSpace]
  | .arr (x :: xs), hwf, fuel, r, hf, _ => by
      obtain ⟨n, rfl⟩ : ∃ n, fuel = n + 1 := ⟨fuel - 1, by simp [dumps] at hf; omega⟩
      have hlen : (dumps N x ++ dumpsItems N xs).length + 1 ≤ n := by
        simp [dumps] at hf ⊢
        omega
      have hitems := parseItems_dumps xs hwf.2 (fun hf hr => parseValue_dumps x hwf.1 hf hr)
        hlen (r := r)
      simp only [dumps, List.cons_append, List.append_assoc, List.nil_append] at hitems ⊢
      rw [parseValue, skipWs_dumps]
      obtain ⟨c, t, hc, -, hb, -⟩ := head_dumps N x
      -- a first character that closes the list would be no value
      split
      · next heq =>
          rw [hc] at heq
          exact absurd (List.cons.inj heq).1 hb
      · rw [hitems]
        rfl
  | .obj [], _, fuel, r, hf, _ => by
      obtain ⟨n, rfl⟩ : ∃ n, fuel = n + 1 := ⟨fuel - 1, by simp [dumps] at hf; omega⟩
      simp [dumps, parseValue, skipWs, isSpace]
  | .obj ((k, v) :: kvs), hwf, fuel, r, hf, _ => by
      obtain ⟨n, rfl⟩ : ∃ n, fuel = n + 1 := ⟨fuel - 1, by simp [dumps] at hf; omega⟩
      have hlen : (dumps N v ++ dumpsPairs N kvs).length + 1 ≤ n := by
        simp [dumps, quote] at hf ⊢
        omega
      have hpairs := parsePairs_dumps kvs hwf.2.2 k
        (fun hf hr => parseValue_dumps v hwf.2.1 hf hr) hlen (r := r)
      -- the keys are distinct, so that no pair is lost
      have hdict : (PyDict.ofList ((k, v) :: kvs)).entries = (k, v) :: kvs :=
        PyDict.entries_ofList hwf.1
      simp only [dumps, quote, List.cons_append, List.append_assoc, List.nil_append] at hpairs ⊢
      rw [parseValue, skipWs_cons (c := '"') rfl]
      split
      -- and a first character that closes the object would be no key
      · next heq => exact absurd (List.cons.inj heq).1 (by decide)
      · rw [hpairs, Option.map_some]
        simp only [hdict]

theorem parseItems_dumps : ∀ (xs : List Json), WFItems xs → ∀ {x : Json} {fuel : ℕ} {r : PyStr},
    (∀ {fuel : ℕ} {r : PyStr}, (dumps N x).length ≤ fuel → Follow r →
      parseValue N fuel (dumps N x ++ r) = some (x, r)) →
    (dumps N x ++ dumpsItems N xs).length + 1 ≤ fuel →
    parseItems N fuel (dumps N x ++ dumpsItems N xs ++ ']' :: r) = some (x :: xs, r)
  | [], _, x, fuel, r, hx, hf => by
      obtain ⟨n, rfl⟩ : ∃ n, fuel = n + 1 := ⟨fuel - 1, by omega⟩
      simp only [dumpsItems, List.append_nil, Nat.add_le_add_iff_right] at hf ⊢
      rw [parseItems, hx hf (Follow.cons rfl r)]
      simp [skipWs, isSpace]
  | y :: ys, hwf, x, fuel, r, hx, hf => by
      obtain ⟨n, rfl⟩ : ∃ n, fuel = n + 1 := ⟨fuel - 1, by omega⟩
      have hlen : (dumps N y ++ dumpsItems N ys).length + 1 ≤ n := by
        simp [dumpsItems] at hf ⊢
        omega
      have hitems := parseItems_dumps ys hwf.2 (fun hf hr => parseValue_dumps y hwf.1 hf hr)
        hlen (r := r)
      have hxlen : (dumps N x).length ≤ n := by
        simp [dumpsItems] at hf
        omega
      simp only [dumpsItems, List.append_assoc, List.cons_append, List.nil_append] at hitems ⊢
      rw [parseItems, hx hxlen (Follow.cons rfl _)]
      simp only [skipWs_cons (c := ',') rfl, skipWs_space, skipWs_dumps, hitems, Option.map_some]

theorem parsePairs_dumps : ∀ (kvs : List (PyStr × Json)), WFPairs kvs → ∀ (k : PyStr) {v : Json}
    {fuel : ℕ} {r : PyStr},
    (∀ {fuel : ℕ} {r : PyStr}, (dumps N v).length ≤ fuel → Follow r →
      parseValue N fuel (dumps N v ++ r) = some (v, r)) →
    (dumps N v ++ dumpsPairs N kvs).length + 1 ≤ fuel →
    parsePairs N fuel (quote k ++ [':', ' '] ++ dumps N v ++ dumpsPairs N kvs ++ '\x7d' :: r) =
      some ((k, v) :: kvs, r)
  | [], _, k, v, fuel, r, hv, hf => by
      obtain ⟨n, rfl⟩ : ∃ n, fuel = n + 1 := ⟨fuel - 1, by omega⟩
      simp only [dumpsPairs, List.append_nil, Nat.add_le_add_iff_right] at hf
      simp only [quote, dumpsPairs, List.append_nil, List.cons_append, List.append_assoc,
        List.nil_append]
      rw [parsePairs, parseString_quote_self]
      simp only [skipWs_cons (c := ':') rfl, skipWs_space, skipWs_dumps,
        hv hf (Follow.cons (c := '\x7d') rfl r), skipWs_cons (c := '\x7d') rfl]
  | (k', v') :: kvs, hwf, k, v, fuel, r, hv, hf => by
      obtain ⟨n, rfl⟩ : ∃ n, fuel = n + 1 := ⟨fuel - 1, by omega⟩
      have hlen : (dumps N v' ++ dumpsPairs N kvs).length + 1 ≤ n := by
        simp [dumpsPairs] at hf ⊢
        omega
      have hpairs := parsePairs_dumps kvs hwf.2 k'
        (fun hf hr => parseValue_dumps v' hwf.1 hf hr) hlen (r := r)
      have hvlen : (dumps N v).length ≤ n := by
        simp [dumpsPairs] at hf
        omega
      simp only [quote, dumpsPairs, List.cons_append, List.append_assoc,
        List.nil_append] at hpairs ⊢
      rw [parsePairs, parseString_quote_self]
      simp only [skipWs_cons (c := ':') rfl, skipWs_space, skipWs_dumps,
        hv hvlen (Follow.cons (c := ',') rfl _), skipWs_cons (c := ',') rfl,
        skipWs_cons (c := '"') rfl, hpairs, Option.map_some]

end

/-- **JSON round trip**: `json.loads(json.dumps(j) + w) == j` for white space `w`. -/
theorem loads_dumps {j : Json} (h : j.WF) {w : PyStr} (hw : ∀ c ∈ w, isSpace c = true) :
    loads N (dumps N j ++ w) = some j := by
  have hfollow : Follow w := by
    intro c hc
    have hs := hw c (List.mem_of_mem_head? hc)
    simp only [isSpace, Bool.or_eq_true, beq_iff_eq] at hs
    rcases hs with ((rfl | rfl) | rfl) | rfl <;> rfl
  have hp : parseValue N ((dumps N j ++ w).length + 1) (dumps N j ++ w) = some (j, w) :=
    parseValue_dumps N j h (by rw [List.length_append]; omega) hfollow
  have hnil : skipWs w = [] := List.dropWhile_eq_nil_iff.mpr hw
  rw [loads, skipWs_dumps, hp]
  simp [hnil]

/-! ### The text is one line -/

/-- A line break of a text file. -/
def isBreak (c : Char) : Bool := c == '\n' || c == '\r'

theorem isBreak_hexDigit : ∀ n < 16, isBreak (hexDigit n) = false := by decide

theorem isBreak_unicodeEscape (n : ℕ) : ∀ c ∈ unicodeEscape n, isBreak c = false := by
  have hd : ∀ m, isBreak (hexDigit (m % 16)) = false :=
    fun m => isBreak_hexDigit _ (Nat.mod_lt _ (by decide))
  intro c hc
  simp only [unicodeEscape, List.mem_cons, List.not_mem_nil, or_false] at hc
  rcases hc with rfl | rfl | rfl | rfl | rfl | rfl
  · rfl
  · rfl
  all_goals exact hd _

/-- An escaped character breaks no line. -/
theorem isBreak_escape (c : Char) : ∀ d ∈ escape c, isBreak d = false := by
  rw [escape]
  split_ifs with h₁ h₂ h₃ h₄ h₅ h₆ h₇ h₈ h₉
  · exact PyStr.forall_mem_of_all rfl
  · exact PyStr.forall_mem_of_all rfl
  · exact PyStr.forall_mem_of_all rfl
  · exact PyStr.forall_mem_of_all rfl
  · exact PyStr.forall_mem_of_all rfl
  · exact PyStr.forall_mem_of_all rfl
  · exact PyStr.forall_mem_of_all rfl
  · intro d hd
    rw [List.mem_singleton.mp hd, isBreak]
    simp [h₃, h₄]
  · exact isBreak_unicodeEscape _
  · intro d hd
    rcases List.mem_append.mp hd with hd | hd
    · exact isBreak_unicodeEscape _ d hd
    · exact isBreak_unicodeEscape _ d hd

theorem isBreak_quote (s : PyStr) : ∀ c ∈ quote s, isBreak c = false := by
  intro c hc
  simp only [quote, List.mem_cons, List.mem_append, List.mem_flatMap, List.not_mem_nil,
    or_false] at hc
  rcases hc with rfl | ⟨d, -, hd⟩ | rfl
  · rfl
  · exact isBreak_escape d c hd
  · rfl

theorem isBreak_of_isNumberChar {c : Char} (h : isNumberChar c = true) : isBreak c = false := by
  by_contra hb
  simp only [isBreak, Bool.not_eq_false, Bool.or_eq_true, beq_iff_eq] at hb
  rcases hb with rfl | rfl <;> exact absurd h (by decide)

mutual

theorem isBreak_dumps : ∀ j : Json, ∀ c ∈ dumps N j, isBreak c = false
  | .null => PyStr.forall_mem_of_all rfl
  | .bool true => PyStr.forall_mem_of_all rfl
  | .bool false => PyStr.forall_mem_of_all rfl
  | .num q => fun c hc => isBreak_of_isNumberChar (N.isNumberChar_of_repr q c hc)
  | .str s => isBreak_quote s
  | .arr [] => PyStr.forall_mem_of_all rfl
  | .arr (x :: xs) => by
      intro c hc
      simp only [dumps, List.mem_cons, List.mem_append, List.not_mem_nil, or_false] at hc
      rcases hc with rfl | (hc | hc) | rfl
      · rfl
      · exact isBreak_dumps x c hc
      · exact isBreak_dumpsItems xs c hc
      · rfl
  | .obj [] => PyStr.forall_mem_of_all rfl
  | .obj ((k, v) :: kvs) => by
      intro c hc
      simp only [dumps, List.mem_cons, List.mem_append, List.not_mem_nil, or_false] at hc
      rcases hc with rfl | (((hc | rfl | rfl) | hc) | hc) | rfl
      · rfl
      · exact isBreak_quote k c hc
      · rfl
      · rfl
      · exact isBreak_dumps v c hc
      · exact isBreak_dumpsPairs kvs c hc
      · rfl

theorem isBreak_dumpsItems : ∀ xs : List Json, ∀ c ∈ dumpsItems N xs, isBreak c = false
  | [] => by simp [dumpsItems]
  | x :: xs => by
      intro c hc
      simp only [dumpsItems, List.mem_append, List.mem_cons, List.not_mem_nil, or_false] at hc
      rcases hc with ((rfl | rfl) | hc) | hc
      · rfl
      · rfl
      · exact isBreak_dumps x c hc
      · exact isBreak_dumpsItems xs c hc

theorem isBreak_dumpsPairs : ∀ kvs : List (PyStr × Json), ∀ c ∈ dumpsPairs N kvs,
    isBreak c = false
  | [] => by simp [dumpsPairs]
  | (k, v) :: kvs => by
      intro c hc
      simp only [dumpsPairs, List.mem_append, List.mem_cons, List.not_mem_nil, or_false] at hc
      rcases hc with ((((rfl | rfl) | hc) | rfl | rfl) | hc) | hc
      · rfl
      · rfl
      · exact isBreak_quote k c hc
      · rfl
      · rfl
      · exact isBreak_dumps v c hc
      · exact isBreak_dumpsPairs kvs c hc

end

end Json

end MultiStorageClient
