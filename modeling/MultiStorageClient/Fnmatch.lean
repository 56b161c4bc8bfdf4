/-
MultiStorageClient/Fnmatch.lean

Python's `fnmatch.fnmatch` on a POSIX system, where `os.path.normcase` is
the identity.  `translate` reads a pattern into tokens the way the library
reads it into a regular expression; `matchTokens` is the meaning of that
regular expression, anchored at both ends.

The bracket syntax follows the library in its corners: `]` directly after
`[` or `[!` is an ordinary member, an unclosed `[` is an ordinary character,
and a `-` is a range only between two members.  A range whose ends are in the
wrong order is dropped before the library looks at the first character to see
whether the expression is negated.
-/
import MultiStorageClient.PyStr

namespace Fnmatch

/-- A member of a bracket expression. -/
inductive Member
  | one (c : Char)
  | range (lo hi : Char)
  deriving DecidableEq

/-- The member has the character. -/
def Member.matches : Member → Char → Bool
  | one d, c => c == d
  | range lo hi, c => lo ≤ c && c ≤ hi

/-- A piece of a pattern: `*`, `?`, a bracket expression (negated or not),
or an ordinary character. -/
inductive Token
  | star
  | any
  | set (negated : Bool) (members : List Member)
  | lit (c : Char)
  deriving DecidableEq

/-- The members of a bracket expression, read left to right, without the ranges
whose ends are in the wrong order. -/
def members : PyStr → List Member
  | lo :: '-' :: hi :: rest => if lo ≤ hi then .range lo hi :: members rest else members rest
  | c :: rest => .one c :: members rest
  | [] => []

/-- The expression is negated if a `!` comes first in what is left.  If this `!` was the lower
end of a range, the `-` behind it is an ordinary member then. -/
def ofMembers : List Member → Token
  | .one '!' :: ms => .set true ms
  | .range '!' hi :: ms => .set true (.one '-' :: .one hi :: ms)
  | ms => .set false ms

/-- What follows a `[`: the expression, and the rest of the pattern after the
closing bracket, or `none` when it is not closed. -/
def bracket (rest : PyStr) : Option (Token × PyStr) :=
  -- a `-` directly after `[!` is no range
  let (bang, body) := match rest with
    | '!' :: r => ([Member.one '!'], r)
    | r => ([], r)
  -- a `]` in first position does not close the expression
  let (first, body) := match body with
    | ']' :: r => ([']'], r)
    | r => ([], r)
  match body.span (· != ']') with
  | (stuff, _ :: after) => some (ofMembers (bang ++ members (first ++ stuff)), after)
  | (_, []) => none

/-- Read a pattern of length at most `fuel`. -/
def translateAux : ℕ → PyStr → List Token
  | 0, _ => []
  | _ + 1, [] => []
  | n + 1, '*' :: rest => .star :: translateAux n rest
  | n + 1, '?' :: rest => .any :: translateAux n rest
  | n + 1, '[' :: rest =>
      match bracket rest with
      | some (t, after) => t :: translateAux n after
      | none => .lit '[' :: translateAux n rest
  | n + 1, c :: rest => .lit c :: translateAux n rest

/-- The tokens of a pattern. -/
def translate (pattern : PyStr) : List Token := translateAux pattern.length pattern

/-- Whether a token list matches a whole string. -/
def matchTokens : List Token → PyStr → Bool
  | [], s => s.isEmpty
  | .star :: ts, s => s.tails.any (matchTokens ts)
  | .any :: ts, _ :: s => matchTokens ts s
  | .set negated ms :: ts, c :: s =>
      (ms.any (fun m => m.matches c) != negated) && matchTokens ts s
  | .lit d :: ts, c :: s => c == d && matchTokens ts s
  | _ :: _, [] => false

/-- `fnmatch.fnmatch(name, pattern)`. -/
def fnmatch (name pattern : PyStr) : Bool := matchTokens (translate pattern) name

example : fnmatch "a/b.txt".toList "*.tx[a-t]".toList = true := by decide

example : fnmatch "x[1".toList "x[!]".toList = false := by decide

example : fnmatch "x1".toList "x[z-a!b]".toList = true := by decide

end Fnmatch
