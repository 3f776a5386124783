import ExplicitModules.Text.Offset

/-!
# Module declarations

An import, or an export that re-exports from another module, and the string literal naming that
module. A declaration gives positions in bytes; a site gives the same positions as endings of the
text, which do not change when something is put in front.
-/
namespace ExplicitModules.Source
set_option autoImplicit false
open Text

inductive DeclarationKind
  | import
  | export
deriving DecidableEq, Repr

def DeclarationKind.keyword : DeclarationKind → String
  | .import => "import"
  | .export => "export"

/-- A quoted string as written: `start` is the offset of the opening quote, `stop` the one behind
the closing quote, and escapes in `value` stay as they are. -/
structure Literal where
  start : Nat
  stop : Nat
  quote : Char
  value : String
deriving DecidableEq, Repr

/-- Lines are counted from one, and no further than a 32-bit number goes. -/
def lineNumber (lineEnds : Nat) : UInt32 :=
  .ofNatClamp (lineEnds + 1)

theorem toNat_ofNatClamp (n : Nat) : (UInt32.ofNatClamp n).toNat = min n (UInt32.size - 1) := by
  by_cases h : n < UInt32.size
  · rw [UInt32.toNat_ofNatClamp_of_lt h, Nat.min_eq_left (Nat.le_sub_one_of_lt h)]
  · have hSize := Nat.not_lt.mp h
    rw [UInt32.toNat_ofNatClamp_of_le hSize, Nat.min_eq_right (Nat.le_trans (Nat.sub_le _ _) hSize)]

theorem toNat_lineNumber (lineEnds : Nat) :
    (lineNumber lineEnds).toNat = min (lineEnds + 1) (UInt32.size - 1) :=
  toNat_ofNatClamp (lineEnds + 1)

structure Declaration where
  kind : DeclarationKind
  specifier : Literal
  /-- Whether a `with` or `assert` clause in braces follows the specifier. -/
  hasAttributes : Bool
  /-- The line of the keyword. -/
  line : UInt32
deriving DecidableEq, Repr

/-- A closed string as an ending of the text: the body and the text behind the closing quote. -/
structure Quoted where
  quote : Char
  body : List Char
  rest : List Char
deriving DecidableEq, Repr

namespace Quoted

def whole (q : Quoted) : List Char :=
  q.quote :: (q.body ++ q.quote :: q.rest)

def toLiteral (text : List Char) (q : Quoted) : Literal where
  start := utf8Length (before text q.whole)
  stop := utf8Length (before text q.rest)
  quote := q.quote
  value := String.ofList q.body

end Quoted

structure Site where
  kind : DeclarationKind
  /-- The ending of the text that starts with the keyword. -/
  keyword : List Char
  specifier : Quoted
  hasAttributes : Bool
deriving DecidableEq, Repr

def Site.toDeclaration (text : List Char) (site : Site) : Declaration where
  kind := site.kind
  specifier := site.specifier.toLiteral text
  hasAttributes := site.hasAttributes
  line := lineNumber ((before text site.keyword).count '\n')

@[simp] theorem Site.toList_value (text : List Char) (site : Site) :
    (site.toDeclaration text).specifier.value.toList = site.specifier.body :=
  String.toList_ofList

end ExplicitModules.Source
