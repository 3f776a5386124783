/-!
# Glob patterns

A question mark stands for one character of a name, a star for any number of them, and two stars,
which have to fill a whole segment, for any number of whole segments. A class in brackets stands for
one character of a name. Braces and backslashes are ordinary characters.
-/
namespace ExplicitModules.Glob
set_option autoImplicit false

structure CharRange where
  low : Char
  high : Char
deriving DecidableEq, Repr

def CharRange.contains (r : CharRange) (c : Char) : Bool :=
  decide (r.low.toNat ≤ c.toNat) && decide (c.toNat ≤ r.high.toNat)

inductive Token
  | char (c : Char)
  | anyChar
  | anyName
  | directories
  | oneOf (ranges : List CharRange)
  | noneOf (ranges : List CharRange)
deriving DecidableEq, Repr

abbrev Pattern := List Token

/-- Members of a class: a dash between two characters makes a range of them. -/
def classRanges : List Char → List CharRange
  | a :: '-' :: b :: cs => ⟨a, b⟩ :: classRanges cs
  | a :: cs => ⟨a, a⟩ :: classRanges cs
  | [] => []

def startsSegment (previous : Option Char) : Bool :=
  previous == none || previous == some '/'

/-- Reads a class whose first member `first` is ordinary whatever it is: the ranges and the text
behind the closing bracket. -/
def readClass? (first : Char) (cs : List Char) : Option (List CharRange × List Char) :=
  match cs.dropWhile (· != ']') with
  | [] => none
  | _ :: rest => some (classRanges (first :: cs.takeWhile (· != ']')), rest)

theorem length_lt_of_readClass? {first : Char} {cs rest : List Char} {ranges : List CharRange}
    (h : readClass? first cs = some (ranges, rest)) : rest.length < cs.length := by
  unfold readClass? at h
  split at h
  · cases h
  · rename_i c rest' hDrop
    obtain ⟨-, rfl⟩ := Prod.mk.inj (Option.some.inj h)
    have hSuffix := (List.dropWhile_suffix (p := (· != ']')) (l := cs)).length_le
    rw [hDrop, List.length_cons] at hSuffix
    omega

def readTokens? (previous : Option Char) (cs : List Char) : Option Pattern :=
  match cs with
  | [] => some []
  | '*' :: '*' :: '*' :: _ => none
  | '*' :: '*' :: '/' :: cs =>
    if startsSegment previous then (readTokens? (some '/') cs).map (.directories :: ·) else none
  | ['*', '*'] => if startsSegment previous then some [.directories] else none
  | '*' :: '*' :: _ => none
  | '[' :: '!' :: first :: cs =>
    match _h : readClass? first cs with
    | none => none
    | some (ranges, rest) => (readTokens? (some ']') rest).map (.noneOf ranges :: ·)
  | ['[', '!'] => none
  | '[' :: first :: cs =>
    match _h : readClass? first cs with
    | none => none
    | some (ranges, rest) => (readTokens? (some ']') rest).map (.oneOf ranges :: ·)
  | ['['] => none
  | '?' :: cs => (readTokens? (some '?') cs).map (.anyChar :: ·)
  | '*' :: cs => (readTokens? (some '*') cs).map (.anyName :: ·)
  | c :: cs => (readTokens? (some c) cs).map (.char c :: ·)
termination_by cs.length
decreasing_by
  · simp only [List.length_cons]; omega
  · have hRest := length_lt_of_readClass? _h
    simp only [List.length_cons]; omega
  · have hRest := length_lt_of_readClass? _h
    simp only [List.length_cons]; omega
  · simp
  · simp
  · simp

def Pattern.ofText? (text : List Char) : Option Pattern :=
  readTokens? none text

def isWildcard (c : Char) : Bool :=
  c == '*' || c == '?' || c == '['

/-- The text of a pattern that matches `text` and nothing else. -/
def escape (text : List Char) : List Char :=
  text.flatMap fun c => if isWildcard c || c == ']' then ['[', c, ']'] else [c]

/-- Whether a single character stands where the token does. Only a slash itself stands for a
slash. -/
def Token.accepts (token : Token) (c : Char) : Bool :=
  match token with
  | .char d => c == d
  | .anyChar => c != '/'
  | .oneOf ranges => c != '/' && ranges.any fun r => r.contains c
  | .noneOf ranges => c != '/' && !ranges.any fun r => r.contains c
  | .anyName => false
  | .directories => false

/-- What may be left of a text when some of its first name has been read. -/
def nameTails : List Char → List (List Char)
  | [] => [[]]
  | c :: cs => (c :: cs) :: if c = '/' then [] else nameTails cs

/-- What is left of a text behind each slash, and at its end. -/
def slashTails : List Char → List (List Char)
  | [] => [[]]
  | c :: cs => if c = '/' then cs :: slashTails cs else slashTails cs

def Pattern.accepts : Pattern → List Char → Bool
  | [], cs => cs.isEmpty
  | .anyName :: rest, cs => (nameTails cs).any fun tail => accepts rest tail
  | .directories :: rest, cs => (cs :: slashTails cs).any fun tail => accepts rest tail
  | token :: rest, c :: cs => token.accepts c && accepts rest cs
  | _ :: _, [] => false

end ExplicitModules.Glob
