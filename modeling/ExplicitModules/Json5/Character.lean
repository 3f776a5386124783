import ExplicitModules.Text.Letter
import ExplicitModules.Text.NameMark

/-!
# Characters of JSON5

White space, line ends, the characters of unquoted names, and hexadecimal digits.
-/
namespace ExplicitModules.Json5
set_option autoImplicit false

def isLineEnd (c : Char) : Bool :=
  c == '\n' || c == '\r' || c == '\u2028' || c == '\u2029'

/-- Blanks, among them every space separator, the byte order mark and line ends. -/
def isBlank (c : Char) : Bool :=
  c == ' ' || c == '\t' || c == '\x0b' || c == '\x0c' || c == '\u00a0' || c == '\ufeff' ||
    c == '\u1680' || (decide (0x2000 ≤ c.toNat) && decide (c.toNat ≤ 0x200a)) || c == '\u202f' ||
    c == '\u205f' || c == '\u3000' || isLineEnd c

def isNameStart (c : Char) : Bool :=
  Text.isLetter c || c == '$' || c == '_'

/-- Joiners of no width may stand inside a name as well. -/
def isNamePart (c : Char) : Bool :=
  isNameStart c || Text.isNameMark c || c == '\u200c' || c == '\u200d'

def hexDigit? (c : Char) : Option Nat :=
  if c.isDigit then some (c.toNat - '0'.toNat)
  else if 'a'.toNat ≤ c.toNat ∧ c.toNat ≤ 'f'.toNat then some (c.toNat - 'a'.toNat + 10)
  else if 'A'.toNat ≤ c.toNat ∧ c.toNat ≤ 'F'.toNat then some (c.toNat - 'A'.toNat + 10)
  else none

def isHexDigit (c : Char) : Bool :=
  (hexDigit? c).isSome

def hexValue (cs : List Char) : Nat :=
  cs.foldl (fun n c => 16 * n + (hexDigit? c).getD 0) 0

def decimalValue (cs : List Char) : Nat :=
  cs.foldl (fun n c => 10 * n + (c.toNat - '0'.toNat)) 0

end ExplicitModules.Json5
