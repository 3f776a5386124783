import ExplicitModules.Glob.Pattern

/-!
# Matching with few steps

Read from its end, a pattern settles for every tail of a text whether it accepts that tail, each time
from the answers for the rest of the pattern. So matching takes as many steps as the pattern has tokens
for each character of the text, however many stars there are, and it agrees with `Pattern.accepts`.
-/
namespace ExplicitModules.Glob
set_option autoImplicit false

/-- The values of `f` at all tails of a text, the longest first. -/
def onTails (f : List Char → Bool) : List Char → List Bool
  | [] => [f []]
  | c :: cs => f (c :: cs) :: onTails f cs

/-- Answers for all tails where one character stands in front of the rest of the pattern. -/
def Token.afterChar (token : Token) : List Char → List Bool → List Bool
  | c :: cs, _ :: answers =>
    (token.accepts c && answers.headD false) :: afterChar token cs answers
  | _, _ => [false]

/-- Answers for all tails where any part of a name stands in front of the rest of the pattern. -/
def afterName : List Char → List Bool → List Bool
  | c :: cs, answer :: answers =>
    let below := afterName cs answers
    (answer || (c != '/' && below.headD false)) :: below
  | _, answers => answers

/-- Whether an answer behind some slash, or the last one, is positive, for all tails. -/
def behindSlash : List Char → List Bool → List Bool
  | c :: cs, _ :: answers =>
    let below := behindSlash cs answers
    ((c == '/' && answers.headD false) || below.headD false) :: below
  | _, answers => answers

/-- Answers for all tails where whole segments stand in front of the rest of the pattern. -/
def afterDirectories (cs : List Char) (answers : List Bool) : List Bool :=
  answers.zipWith (· || ·) (behindSlash cs answers)

def Token.after (token : Token) : List Char → List Bool → List Bool :=
  match token with
  | .anyName => afterName
  | .directories => afterDirectories
  | token => token.afterChar

/-- Which tails of a text the pattern accepts. -/
def Pattern.acceptedTails (pattern : Pattern) (cs : List Char) : List Bool :=
  pattern.foldr (fun token answers => token.after cs answers) (onTails List.isEmpty cs)

def Pattern.matchesText (pattern : Pattern) (cs : List Char) : Bool :=
  (pattern.acceptedTails cs).headD false

@[simp] theorem headD_onTails (f : List Char → Bool) (cs : List Char) :
    (onTails f cs).headD false = f cs := by
  cases cs <;> rfl

theorem afterChar_onTails (token : Token) (f : List Char → Bool) (cs : List Char) :
    token.afterChar cs (onTails f cs) =
      onTails (fun tail => match tail with
        | [] => false
        | c :: rest => token.accepts c && f rest) cs := by
  induction cs with
  | nil => rfl
  | cons c cs ih => simp only [onTails, Token.afterChar, headD_onTails, ih]

theorem afterName_onTails (f : List Char → Bool) (cs : List Char) :
    afterName cs (onTails f cs) = onTails (fun tail => (nameTails tail).any f) cs := by
  induction cs with
  | nil => simp [onTails, afterName, nameTails]
  | cons c cs ih =>
    simp only [onTails, afterName, ih, headD_onTails, List.cons.injEq, and_true]
    by_cases hSlash : c = '/'
    · simp [nameTails, hSlash]
    · have hName : (c != '/') = true := by simpa using hSlash
      simp [nameTails, hSlash, hName]

theorem behindSlash_onTails (f : List Char → Bool) (cs : List Char) :
    behindSlash cs (onTails f cs) = onTails (fun tail => (slashTails tail).any f) cs := by
  induction cs with
  | nil => simp [onTails, behindSlash, slashTails]
  | cons c cs ih =>
    simp only [onTails, behindSlash, ih, headD_onTails, List.cons.injEq, and_true]
    by_cases hSlash : c = '/' <;> simp [slashTails, hSlash]

theorem zipWith_onTails (f g : List Char → Bool) (cs : List Char) :
    (onTails f cs).zipWith (· || ·) (onTails g cs) = onTails (fun tail => f tail || g tail) cs := by
  induction cs with
  | nil => rfl
  | cons c cs ih => simp only [onTails, List.zipWith_cons_cons, ih]

theorem afterDirectories_onTails (f : List Char → Bool) (cs : List Char) :
    afterDirectories cs (onTails f cs) =
      onTails (fun tail => (tail :: slashTails tail).any f) cs := by
  simp only [afterDirectories, behindSlash_onTails, zipWith_onTails, List.any_cons]

theorem after_onTails (token : Token) (rest : Pattern) (cs : List Char) :
    token.after cs (onTails rest.accepts cs) =
      onTails (Pattern.accepts (token :: rest)) cs := by
  cases token with
  | anyName => exact afterName_onTails _ _
  | directories => exact afterDirectories_onTails _ _
  | _ =>
    simp only [Token.after, afterChar_onTails]
    congr 1
    funext tail
    cases tail <;> simp [Pattern.accepts]

theorem acceptedTails_eq (pattern : Pattern) (cs : List Char) :
    pattern.acceptedTails cs = onTails pattern.accepts cs := by
  induction pattern with
  | nil => rfl
  | cons token rest ih =>
    rw [← after_onTails, ← ih]
    rfl

theorem matchesText_eq_accepts (pattern : Pattern) (cs : List Char) :
    pattern.matchesText cs = pattern.accepts cs := by
  rw [Pattern.matchesText, acceptedTails_eq, headD_onTails]

end ExplicitModules.Glob
