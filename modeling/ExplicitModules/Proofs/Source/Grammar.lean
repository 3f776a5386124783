import ExplicitModules.Proofs.Source.Quoting
import ExplicitModules.Source.Scan

/-!
# Well-formed source texts

A source is a sequence of items, each closed by a semicolon: declarations that name a module, and
other statements that are made up of words, strings, templates, regular expressions and punctuation.
Behind every token there may be white space and comments; where there are none, the next character
has to tell where the token ends. The declarations of a source are read off its items.
-/
namespace ExplicitModules.Source
set_option autoImplicit false
open Text

inductive Filler
  | space (c : Char) (hSpace : isSpace c = true)
  | line (body : List Char) (hBody : '\n' ∉ body)
  | block (body : List Char) (hBody : ¬['*', '/'] <:+: body)

def Filler.chars : Filler → List Char
  | .space c _ => [c]
  | .line body _ => '/' :: '/' :: (body ++ ['\n'])
  | .block body _ => '/' :: '*' :: (body ++ ['*', '/'])

/-- What stands between two tokens: it starts with white space. -/
structure Gap where
  first : Char
  first_space : isSpace first = true
  fillers : List Filler

def Gap.chars (g : Gap) : List Char :=
  g.first :: g.fillers.flatMap Filler.chars

def gapChars (g : Option Gap) : List Char :=
  g.elim [] Gap.chars

structure Word where
  chars : List Char
  ne_nil : chars ≠ []
  all_word : ∀ c ∈ chars, isWordChar c = true

namespace Word

def ofImport : Word := ⟨"import".toList, by decide, by decide⟩
def ofExport : Word := ⟨"export".toList, by decide, by decide⟩
def ofType : Word := ⟨"type".toList, by decide, by decide⟩
def ofAs : Word := ⟨"as".toList, by decide, by decide⟩
def ofFrom : Word := ⟨"from".toList, by decide, by decide⟩
def ofWith : Word := ⟨"with".toList, by decide, by decide⟩
def ofAssert : Word := ⟨"assert".toList, by decide, by decide⟩

@[simp] theorem chars_ofImport : ofImport.chars = "import".toList := rfl
@[simp] theorem chars_ofExport : ofExport.chars = "export".toList := rfl
@[simp] theorem chars_ofType : ofType.chars = "type".toList := rfl
@[simp] theorem chars_ofAs : ofAs.chars = "as".toList := rfl
@[simp] theorem chars_ofFrom : ofFrom.chars = "from".toList := rfl

end Word

structure StringToken where
  quote : Char
  body : List Char
  quote_isQuote : isQuote quote = true
  closed : IsQuotedBody quote body

def StringToken.chars (s : StringToken) : List Char :=
  s.quote :: (s.body ++ [s.quote])

/-- A character that means nothing to a reader of a block in braces. -/
def isBraceChar (c : Char) : Bool :=
  !isQuote c && c != '`' && c != '{' && c != '}' && c != '/'

inductive BracePiece
  | char (c : Char) (hPlain : isBraceChar c = true)
  | string (s : StringToken)
  | filler (f : Filler)

def BracePiece.chars : BracePiece → List Char
  | .char c _ => [c]
  | .string s => s.chars
  | .filler f => f.chars

structure Braces where
  pieces : List BracePiece

def Braces.chars (b : Braces) : List Char :=
  '{' :: (b.pieces.flatMap BracePiece.chars ++ ['}'])

def isTemplateBody : List Char → Bool
  | [] => true
  | ['\\'] => false
  | '\\' :: _ :: cs => isTemplateBody cs
  | c :: cs => c != '`' && !(c == '$' && cs.head? == some '{') && isTemplateBody cs

/-- What can stand between the slashes of a regular expression, from a place inside or outside a
character class on. -/
def isRegexTail (inClass : Bool) : List Char → Bool
  | [] => !inClass
  | ['\\'] => false
  | '\\' :: _ :: cs => isRegexTail inClass cs
  | c :: cs =>
    if c = '\n' then false
    else if c = '[' then isRegexTail true cs
    else if c = ']' then isRegexTail false cs
    else (c != '/' || inClass) && isRegexTail inClass cs

/-- With nothing or a star between them the slashes would open a comment. -/
def isRegexBody (body : List Char) : Bool :=
  body != [] && body.head? != some '*' && isRegexTail false body

def isPunctuation (c : Char) : Bool :=
  !isWordChar c && !isSpace c && !isQuote c && c != '`' && c != '/'

inductive Token
  | word (w : Word)
  | string (s : StringToken)
  | template (body : List Char) (hBody : isTemplateBody body = true)
  | regex (body flags : List Char) (hBody : isRegexBody body = true)
    (hFlags : ∀ c ∈ flags, c.isAlpha = true)
  /-- A slash that divides, and punctuation written together with it. -/
  | division (tail : List Char) (hTail : ∀ c ∈ tail, isPunctuation c = true)
    (hStar : tail.head? ≠ some '*')
  | punctuation (c : Char) (tail : List Char) (hTail : ∀ d ∈ c :: tail, isPunctuation d = true)
  | braces (b : Braces)

namespace Token

def star : Token := .punctuation '*' [] (by decide)
def comma : Token := .punctuation ',' [] (by decide)

def chars : Token → List Char
  | .word w => w.chars
  | .string s => s.chars
  | .template body _ => '`' :: (body ++ ['`'])
  | .regex body flags _ _ => '/' :: (body ++ '/' :: flags)
  | .division tail _ _ => '/' :: tail
  | .punctuation c tail _ => c :: tail
  | .braces b => b.chars

/-- What a slash behind the token is judged by. -/
def last : Token → Last
  | .word w => .word w.chars
  | .string s => .punctuation s.quote
  | .template _ _ => .punctuation '`'
  | .regex _ _ _ _ => .punctuation '/'
  | .division tail _ _ => .punctuation (tail.getLast?.getD '/')
  | .punctuation c tail _ => .punctuation (tail.getLast?.getD c)
  | .braces _ => .punctuation '}'

def endsBefore (next : Char) : Token → Bool
  | .word _ => !isWordChar next
  | .regex _ _ _ _ => !next.isAlpha
  | .division tail _ _ => tail != [] || next != '/' && next != '*'
  | _ => true

/-- Whether the token can follow `before` in a statement. A keyword is a word there only as the name
of a member, and a slash is what the token in front makes of it. -/
def Fits (before : Last) : Token → Prop
  | .word w => w.chars ≠ "import".toList ∧ w.chars ≠ "export".toList ∨ before = .punctuation '.'
  | .regex _ _ _ _ => before.allowsRegex = true
  | .division _ _ _ => before.allowsRegex = false
  | .braces _ => False
  | _ => True

end Token

abbrev Spaced := List (Token × Option Gap)

namespace Spaced

def tokens (ts : Spaced) : List Token :=
  ts.map Prod.fst

def chars (ts : Spaced) : List Char :=
  ts.flatMap fun t => t.1.chars ++ gapChars t.2

/-- Every token has a gap behind it or ends in front of the next character, the last one in front of
`next`. -/
def Legible (next : Char) : Spaced → Prop
  | [] => True
  | (t, gap) :: ts =>
    (gap = none → t.endsBefore ((chars ts).headD next) = true) ∧ Legible next ts

end Spaced

def Placed (before : Last) : List Token → Prop
  | [] => True
  | t :: ts => t.Fits before ∧ Placed t.last ts

inductive ImportClause
  | default (name : Word)
  | named (names : Braces)
  | starAs (name : Word)
  | defaultAndNamed (name : Word) (names : Braces)
  | defaultAndStar (name starName : Word)

def ImportClause.tokens : ImportClause → List Token
  | .default name => [.word name]
  | .named names => [.braces names]
  | .starAs name => [.star, .word .ofAs, .word name]
  | .defaultAndNamed name names => [.word name, .comma, .braces names]
  | .defaultAndStar name starName =>
    [.word name, .comma, .star, .word .ofAs, .word starName]

inductive ExportClause
  | star
  | starAs (name : Word)
  | starAsString (name : StringToken)
  | named (names : Braces)

def ExportClause.tokens : ExportClause → List Token
  | .star => [.star]
  | .starAs name => [.star, .word .ofAs, .word name]
  | .starAsString name => [.star, .word .ofAs, .string name]
  | .named names => [.braces names]

inductive Form
  | bare
  | importing (isType : Bool) (clause : ImportClause)
  | exporting (isType : Bool) (clause : ExportClause)

namespace Form

def typeTokens (isType : Bool) : List Token :=
  if isType then [.word .ofType] else []

def tokens : Form → List Token
  | .bare => [.word .ofImport]
  | .importing isType clause =>
    .word .ofImport :: (typeTokens isType ++ clause.tokens ++ [.word .ofFrom])
  | .exporting isType clause =>
    .word .ofExport :: (typeTokens isType ++ clause.tokens ++ [.word .ofFrom])

def kind : Form → DeclarationKind
  | .exporting _ _ => .export
  | _ => .import

end Form

inductive AttributeClause
  | withBlock (b : Braces)
  | assertBlock (b : Braces)

def AttributeClause.tokens : AttributeClause → List Token
  | .withBlock b => [.word .ofWith, .braces b]
  | .assertBlock b => [.word .ofAssert, .braces b]

structure DeclarationItem where
  form : Form
  specifier : StringToken
  attributes : Option AttributeClause
  front : Spaced
  gap : Option Gap
  back : Spaced
  front_tokens : front.tokens = form.tokens
  back_tokens : back.tokens = attributes.elim [] AttributeClause.tokens
  legible : Spaced.Legible ';' (front ++ (.string specifier, gap) :: back)

structure StatementItem where
  spaced : Spaced
  placed : Placed (.punctuation ';') spaced.tokens
  legible : spaced.Legible ';'

inductive Item
  | declaration (d : DeclarationItem)
  | statement (s : StatementItem)

namespace Item

def spaced : Item → Spaced
  | .declaration d => d.front ++ (.string d.specifier, d.gap) :: d.back
  | .statement s => s.spaced

/-- The declaration that an item behind the text `soFar` makes. -/
def declaration? (soFar : List Char) : Item → Option Declaration
  | .statement _ => none
  | .declaration d =>
    let start := utf8Length (soFar ++ d.front.chars)
    some {
      kind := d.form.kind
      specifier :=
        { start
          stop := start + utf8Length d.specifier.chars
          quote := d.specifier.quote
          value := String.ofList d.specifier.body }
      hasAttributes := d.attributes.isSome
      line := lineNumber (soFar.count '\n') }

end Item

abbrev Items := List (Item × Option Gap)

namespace Items

def chars (items : Items) : List Char :=
  items.flatMap fun i => i.1.spaced.chars ++ ';' :: gapChars i.2

def declarations (soFar : List Char) : Items → List Declaration
  | [] => []
  | (i, gap) :: items =>
    (i.declaration? soFar).toList ++
      declarations (soFar ++ (i.spaced.chars ++ ';' :: gapChars gap)) items

end Items

def markChars (hasMark : Bool) : List Char :=
  if hasMark then ['\uFEFF'] else []

/-- A whole text. A byte order mark in front is never part of the first word. -/
structure SourceText where
  hasMark : Bool
  gap : Option Gap
  items : Items
  marked : (gapChars gap ++ items.chars).head? = some '\uFEFF' → hasMark = true

namespace SourceText

def front (s : SourceText) : List Char :=
  markChars s.hasMark ++ gapChars s.gap

def chars (s : SourceText) : List Char :=
  s.front ++ s.items.chars

def text (s : SourceText) : String :=
  String.ofList s.chars

def declarations (s : SourceText) : List Declaration :=
  s.items.declarations s.front

end SourceText
end ExplicitModules.Source
