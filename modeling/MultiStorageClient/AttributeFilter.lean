/-
MultiStorageClient/AttributeFilter.lean

Attribute filter expressions: `ATTRIBUTE_FILTER_GRAMMAR` and
`AttributeFilterEvaluator`.

The grammar does not say how `AND` and `OR` nest.  Behind `expr AND expr` or
`expr OR expr` a parser can reduce, or shift the connective that comes next; Lark
shifts, so it nests every chain to the right (`parse_tokens`).

An expression is the list of its tokens, and no tokens are the empty string.
-/
import MultiStorageClient.Formula
import MultiStorageClient.PyDict
import MultiStorageClient.PyStr

namespace MultiStorageClient

/-! ### Tokens and trees -/

/-- `OP` -/
inductive FilterOp
  | eq
  | ne
  | gt
  | ge
  | lt
  | le
  deriving DecidableEq

/-- `value`: a string without its quotes, or a float. -/
inductive FilterValue (F : Type)
  | string (s : PyStr)
  | number (n : F)
  deriving DecidableEq

/-- `CNAME OP value` -/
structure Comparison (F : Type) where
  key : PyStr
  op : FilterOp
  value : FilterValue F
  deriving DecidableEq

/-- The tokens of an expression. -/
inductive FilterToken (F : Type)
  | cname (key : PyStr)
  | op (o : FilterOp)
  | value (v : FilterValue F)
  | connective (k : Connective)
  | lpar
  | rpar
  deriving DecidableEq

/-- What is on the stack of the parser. -/
inductive FilterSymbol (F : Type)
  | token (t : FilterToken F)
  | expr (t : FormulaTree (Comparison F))
  deriving DecidableEq

namespace AttributeFilter

variable {F : Type}

open FilterSymbol FilterToken

/-! ### The parser -/

/-- A reduction at the top of the stack, if there is one that does not give way to a shift. -/
def reduce (lookahead : Option (FilterToken F)) :
    List (FilterSymbol F) → Option (List (FilterSymbol F))
  | token (value v) :: token (op o) :: token (cname k) :: stack =>
      some (expr (.atom ⟨k, o, v⟩) :: stack)
  | token rpar :: expr t :: token lpar :: stack => some (expr (.parens t) :: stack)
  | expr r :: token (connective k) :: expr l :: stack =>
      -- the conflict: a connective can also be shifted, and it is
      match lookahead with
      | some (connective _) => none
      | _ => some (expr (.node k l r) :: stack)
  | _ => none

/-- All reductions, at most `n`. -/
def reduceAll (lookahead : Option (FilterToken F)) :
    ℕ → List (FilterSymbol F) → List (FilterSymbol F)
  | 0, stack => stack
  | n + 1, stack =>
      match reduce lookahead stack with
      | none => stack
      | some stack' => reduceAll lookahead n stack'

/-- An expression can begin. -/
def isOpen : List (FilterSymbol F) → Bool
  | [] | token (connective _) :: _ | token lpar :: _ => true
  | _ => false

/-- A token is shifted where the grammar admits it. -/
def shift (t : FilterToken F) (stack : List (FilterSymbol F)) : Option (List (FilterSymbol F)) :=
  match t, stack with
  | cname _, stack | lpar, stack => if isOpen stack then some (token t :: stack) else none
  | op _, token (cname _) :: _ => some (token t :: stack)
  | value _, token (op _) :: _ => some (token t :: stack)
  | connective _, expr _ :: _ => some (token t :: stack)
  | rpar, expr _ :: token lpar :: _ => some (token t :: stack)
  | _, _ => none

/-- The parser, with a stack on which nothing is left to reduce for the next token. -/
def parseFrom : List (FilterSymbol F) → List (FilterToken F) → Option (FormulaTree (Comparison F))
  | [expr t], [] => some t
  | _, [] => none
  | stack, t :: ts =>
      (shift t stack).bind fun stack => parseFrom (reduceAll ts.head? stack.length stack) ts

/-- `attribute_filter_parser.parse` -/
def parse (ts : List (FilterToken F)) : Option (FormulaTree (Comparison F)) := parseFrom [] ts

/-! ### The evaluator -/

/-- `float` of a string, and the comparisons of floats. -/
structure PyFloats (F : Type) where
  parse : PyStr → Option F
  lt : F → F → Bool
  le : F → F → Bool

/-- What the evaluation may raise. -/
inductive FilterError
  | valueError
  | typeError
  deriving DecidableEq

variable (floats : PyFloats F)

/-- `float(expected)` -/
def floatOf : FilterValue F → Option F
  | .string s => floats.parse s
  | .number n => some n

/-- `_compare_values`: numbers if both are, else strings; a string that is no number cannot be
ordered with a number. -/
def compareValues (actual : PyStr) (operator : FilterOp) (expected : FilterValue F) :
    Except FilterError Bool :=
  match operator with
  -- equality is decided on the strings as they stand, without a conversion
  | .eq => .ok (match expected with
      | .string s => actual = s
      | .number _ => false)
  | .ne => .ok (match expected with
      | .string s => actual ≠ s
      | .number _ => true)
  | operator =>
      -- the ordered operators: as floats when both sides convert
      match floats.parse actual, floatOf floats expected with
      | some a, some e => .ok (match operator with
          | .gt => floats.lt e a
          | .ge => floats.le e a
          | .lt => floats.lt a e
          | _ => floats.le a e)
      | _, _ =>
          -- float() raised ValueError: back to the strings, which a number refuses
          match expected with
          | .number _ => .error .typeError
          | .string s => .ok (match operator with
              | .gt => s < actual
              | .ge => s ≤ actual
              | .lt => actual < s
              | _ => actual ≤ s)

/-- `compare`, on the metadata with `str` of its values. -/
def compare (metadata : PyDict PyStr PyStr) (c : Comparison F) : Except FilterError Bool :=
  match metadata.get? c.key with
  | none => .ok false
  | some actual => compareValues floats actual c.op c.value

/-- `create_attribute_filter_evaluator` -/
def createAttributeFilterEvaluator (ts : List (FilterToken F)) :
    Except FilterError (PyDict PyStr PyStr → Except FilterError Bool) :=
  if ts = [] then .ok fun _ => .ok true
  else
    match parse ts with
    | none => .error .valueError
    | some t => .ok fun metadata => t.eval (compare floats metadata)

/-! ### Expressions -/

/-- The tokens of a comparison. -/
def comparisonTokens (c : Comparison F) : List (FilterToken F) :=
  [cname c.key, op c.op, value c.value]

/-- An expression, written out. -/
def tokens : Formula (Comparison F) → List (FilterToken F)
  | .atom c => comparisonTokens c
  | .parens e => lpar :: (tokens e ++ [rpar])
  | .atomThen c k rest => comparisonTokens c ++ connective k :: tokens rest
  | .parensThen e k rest => lpar :: (tokens e ++ rpar :: connective k :: tokens rest)

/-- The value of an expression under the usual precedence. -/
def standardValue (e : Formula (Comparison F)) (metadata : PyDict PyStr PyStr) :
    Except FilterError Bool :=
  e.precedence.eval (compare floats metadata)

section Parse

variable {st : List (FilterSymbol F)} {ts : List (FilterToken F)} {t r : FormulaTree (Comparison F)}
  {lookahead : Option (FilterToken F)} {n m : ℕ}

/-- A reduction shortens the stack. -/
theorem length_reduce {st' : List (FilterSymbol F)} (h : reduce lookahead st = some st') :
    st'.length < st.length := by
  unfold reduce at h
  split at h
  case h_3 =>
    split at h
    · cases h
    · cases h
      simp only [List.length_cons]
      omega
  all_goals first
    | cases h; done
    | (cases h; simp only [List.length_cons]; omega)

/-- More steps than the stack is high change nothing. -/
theorem reduceAll_of_le (hn : st.length ≤ n) (hm : st.length ≤ m) :
    reduceAll lookahead n st = reduceAll lookahead m st := by
  have hzero : ∀ m, reduceAll lookahead m ([] : List (FilterSymbol F)) = [] := by
    intro m
    cases m <;> rfl
  induction n generalizing st m with
  | zero =>
      obtain rfl := List.eq_nil_of_length_eq_zero (Nat.le_zero.mp hn)
      rw [hzero, hzero]
  | succ n ih =>
      cases m with
      | zero =>
          obtain rfl := List.eq_nil_of_length_eq_zero (Nat.le_zero.mp hm)
          rw [hzero, hzero]
      | succ m =>
          unfold reduceAll
          cases h : reduce lookahead st with
          | none => rfl
          | some st' =>
              have := length_reduce h
              exact ih (by omega) (by omega)

theorem reduceAll_of_none (h : reduce lookahead st = none) : reduceAll lookahead n st = st := by
  cases n with
  | zero => rfl
  | succ n => rw [reduceAll, h]

theorem reduceAll_of_some {st' : List (FilterSymbol F)} (h : reduce lookahead st = some st') :
    reduceAll lookahead st.length st = reduceAll lookahead st'.length st' := by
  have hlt := length_reduce h
  obtain ⟨k, hk⟩ : ∃ k, st.length = k + 1 := ⟨st.length - 1, by omega⟩
  rw [hk, reduceAll, h]
  exact reduceAll_of_le (by omega) le_rfl

/-- An expression takes in the connectives before it. -/
def collapse (t : FormulaTree (Comparison F)) : List (FilterSymbol F) → List (FilterSymbol F)
  | token (connective k) :: expr l :: st => collapse (.node k l t) st
  | st => expr t :: st

/-- The next token is no connective. -/
def Ends (lookahead : Option (FilterToken F)) : Prop := ∀ k, lookahead ≠ some (connective k)

theorem reduce_node (k : Connective) (l : FormulaTree (Comparison F)) (h : Ends lookahead) :
    reduce lookahead (expr t :: token (connective k) :: expr l :: st) =
      some (expr (.node k l t) :: st) := by
  cases lookahead with
  | none => rfl
  | some next =>
      cases next
      case connective k => exact absurd rfl (h k)
      all_goals rfl

/-- At an end of the input the operators on the stack are collapsed. -/
theorem reduceAll_expr (h : Ends lookahead) :
    reduceAll lookahead (expr t :: st).length (expr t :: st) = collapse t st := by
  fun_induction collapse t st with
  | case1 t k l st ih => rw [reduceAll_of_some (reduce_node k l h), ih]
  | case2 t st hst =>
      refine reduceAll_of_none ?_
      unfold reduce
      split
      next heq => cases heq
      next heq => cases heq
      next heq =>
        cases heq
        exact absurd rfl (hst _ _ _)
      next => rfl

/-- Before a connective nothing is reduced. -/
theorem reduceAll_connective (k : Connective) :
    reduceAll (some (connective k)) n (expr t :: st) = expr t :: st := by
  refine reduceAll_of_none ?_
  unfold reduce
  split
  next heq => cases heq
  next heq => cases heq
  next => rfl
  next => rfl

theorem parseFrom_cons {next : FilterToken F} {st' : List (FilterSymbol F)}
    (h : shift next st = some st') :
    parseFrom st (next :: ts) = parseFrom (reduceAll ts.head? st'.length st') ts := by
  rw [parseFrom, h]
  rfl

/-- A token with which nothing ends. -/
theorem parseFrom_shift {next : FilterToken F} (h : shift next st = some (token next :: st))
    (hnone : reduce ts.head? (token next :: st) = none) :
    parseFrom st (next :: ts) = parseFrom (token next :: st) ts := by
  rw [parseFrom_cons h, reduceAll_of_none hnone]

theorem parseFrom_connective (k : Connective) :
    parseFrom (expr t :: st) (connective k :: ts) =
      parseFrom (token (connective k) :: expr t :: st) ts :=
  parseFrom_shift rfl rfl

/-- A comparison is reduced when its value has come. -/
theorem parseFrom_comparison (c : Comparison F) (hst : isOpen st = true) :
    parseFrom st (comparisonTokens c ++ ts) =
      parseFrom (reduceAll ts.head? (expr (.atom c) :: st).length (expr (.atom c) :: st)) ts := by
  have hcname : shift (cname c.key) st = some (token (cname c.key) :: st) := if_pos hst
  show parseFrom st (cname c.key :: op c.op :: value c.value :: ts) = _
  rw [parseFrom_shift hcname rfl, parseFrom_shift rfl rfl, parseFrom_cons rfl,
    reduceAll_of_some rfl]

/-- Parentheses are reduced when they close. -/
theorem parseFrom_rpar :
    parseFrom (expr t :: token lpar :: st) (rpar :: ts) =
      parseFrom (reduceAll ts.head? (expr (.parens t) :: st).length (expr (.parens t) :: st))
        ts := by
  rw [parseFrom_cons rfl, reduceAll_of_some rfl]

theorem ends_rpar : Ends (some (rpar : FilterToken F)) := nofun

/-- An expression is read to its end. -/
theorem parseFrom_tokens (e : Formula (Comparison F)) (hst : isOpen st = true)
    (hts : Ends ts.head?) :
    parseFrom st (tokens e ++ ts) = parseFrom (collapse e.nested st) ts := by
  induction e generalizing st ts with
  | atom c => rw [tokens, parseFrom_comparison c hst, reduceAll_expr hts]; rfl
  -- the inner tokens are parsed above the parenthesis, which is open
  | parens e ih =>
      have hlpar : shift lpar st = some (token lpar :: st) := if_pos hst
      have hinner : parseFrom (token lpar :: st) (tokens e ++ rpar :: ts) =
          parseFrom (expr e.nested :: token lpar :: st) (rpar :: ts) := ih rfl ends_rpar
      show parseFrom st (lpar :: ((tokens e ++ [rpar]) ++ ts)) = _
      rw [parseFrom_shift hlpar rfl, List.append_assoc, List.singleton_append, hinner,
        parseFrom_rpar, reduceAll_expr hts]
      rfl
  -- the connective is reduced to first, so that the rest nests behind it
  | atomThen c k rest ih =>
      show parseFrom st ((comparisonTokens c ++ connective k :: tokens rest) ++ ts) = _
      rw [List.append_assoc, parseFrom_comparison c hst]
      show parseFrom (reduceAll (some (connective k)) _ _) (connective k :: (tokens rest ++ ts)) = _
      rw [reduceAll_connective, parseFrom_connective, ih rfl hts]
      rfl
  -- as in both cases before: the parentheses, then the connective
  | parensThen e k rest ihe ih =>
      have hlpar : shift lpar st = some (token lpar :: st) := if_pos hst
      have hinner : parseFrom (token lpar :: st)
          (tokens e ++ rpar :: connective k :: (tokens rest ++ ts)) =
          parseFrom (expr e.nested :: token lpar :: st)
            (rpar :: connective k :: (tokens rest ++ ts)) := ihe rfl ends_rpar
      show parseFrom st (lpar :: ((tokens e ++ rpar :: connective k :: tokens rest) ++ ts)) = _
      rw [parseFrom_shift hlpar rfl, List.append_assoc]
      show parseFrom _ (tokens e ++ rpar :: connective k :: (tokens rest ++ ts)) = _
      rw [hinner, parseFrom_rpar]
      show parseFrom (reduceAll (some (connective k)) _ _) (connective k :: (tokens rest ++ ts)) = _
      rw [reduceAll_connective, parseFrom_connective, ih rfl hts]
      rfl

/-- **The parser nests to the right.** -/
theorem parse_tokens (e : Formula (Comparison F)) : parse (tokens e) = some e.nested := by
  have hnil : isOpen ([] : List (FilterSymbol F)) = true := rfl
  have h := parseFrom_tokens e hnil (show Ends ([] : List (FilterToken F)).head? from nofun)
  rw [List.append_nil] at h
  rw [parse, h, collapse]
  · rfl
  · nofun

theorem tokens_ne_nil (e : Formula (Comparison F)) : tokens e ≠ [] := by
  cases e <;> exact nofun

end Parse

/-! ### What the evaluator returns -/

/-- The evaluator of an expression, applied to metadata. -/
def evaluate (ts : List (FilterToken F)) (metadata : PyDict PyStr PyStr) :
    Except FilterError Bool := do
  (← createAttributeFilterEvaluator floats ts) metadata

theorem evaluate_tokens (e : Formula (Comparison F)) (metadata : PyDict PyStr PyStr) :
    evaluate floats (tokens e) metadata = e.nested.eval (compare floats metadata) := by
  rw [evaluate, createAttributeFilterEvaluator, if_neg (tokens_ne_nil e), parse_tokens]
  rfl

/-- The metadata with the attribute `a`, which is `1`. -/
def oneAttribute : PyDict PyStr PyStr := PyDict.empty.set ['a'] ['1']

/-- **The evaluator returns the value under the usual precedence**, for all expressions of a shape
and all metadata, if and only if no `AND` stands before an `OR` in a chain. -/
theorem create_attribute_filter_evaluator_iff (s : Formula Unit) :
    (∀ e : Formula (Comparison F), e.shape = s → ∀ metadata,
      evaluate floats (tokens e) metadata = standardValue floats e metadata) ↔ s.NoAndBeforeOr := by
  have hvalue : ∀ c : Char, compare floats oneAttribute ⟨['a'], .eq, .string [c]⟩ =
      .ok (decide (['1'] = [c])) := fun _ => rfl
  constructor
  · intro h
    refine (Formula.eval_nested_iff (hvalue '1') (hvalue '0') s).mp fun e he => ?_
    rw [← evaluate_tokens]
    exact h e he oneAttribute
  · rintro h e rfl metadata
    rw [evaluate_tokens]
    exact Formula.eval_nested e ((Formula.noAndBeforeOr_map _ e).mp h)

/-- `a = "0" AND a = "0" OR a = "1"` -/
def andBeforeOr : Formula (Comparison F) :=
  .atomThen ⟨['a'], .eq, .string ['0']⟩ .and
    (.atomThen ⟨['a'], .eq, .string ['0']⟩ .or (.atom ⟨['a'], .eq, .string ['1']⟩))

/-- Where the attribute `a` is `1`, the expression is true, and its evaluator returns false. -/
theorem andBeforeOr_differs :
    evaluate (F := Unit) ⟨fun _ => none, fun _ _ => false, fun _ _ => false⟩ (tokens andBeforeOr)
        oneAttribute = .ok false ∧
      standardValue (F := Unit) ⟨fun _ => none, fun _ _ => false, fun _ _ => false⟩ andBeforeOr
        oneAttribute = .ok true :=
  ⟨rfl, rfl⟩

end AttributeFilter

end MultiStorageClient
