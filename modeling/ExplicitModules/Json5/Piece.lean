import ExplicitModules.Json5.Character

/-!
# Pieces of strings and names

A string or an unquoted name is a list of pieces, each written as one character or one escape. Two
pieces may stand for one character: a lead surrogate takes the piece behind it as its trail, by the
hexadecimal number that this piece spells.
-/
namespace ExplicitModules.Json5
set_option autoImplicit false

inductive Piece
  /-- A character, or an escape that stands for one. -/
  | char (written meant : Char)
  /-- An escape of two hexadecimal digits. -/
  | byte (code : Nat)
  /-- An escape of four hexadecimal digits. -/
  | unit (code : Nat)
deriving DecidableEq, Repr

/-- Faults in values that are well formed as text. -/
inductive DataFault
  | hexMalformed
  | integerMalformed
  | numberMalformed
  | numberTooLarge
  | trailMissing
  | trailExpected
  | trailUnexpected
deriving DecidableEq, Repr

def DataFault.message : DataFault → String
  | .hexMalformed => "error parsing hex"
  | .integerMalformed => "error parsing integer"
  | .numberMalformed => "error parsing number"
  | .numberTooLarge => "error parsing number: too large"
  | .trailMissing => "missing unicode trail surrogate"
  | .trailExpected => "expecting unicode trail surrogate"
  | .trailUnexpected => "unexpected unicode trail surrogate"

namespace Piece

/-- The number that the written piece spells, read as hexadecimal digits. -/
def spelled? : Piece → Option Nat
  | .char written _ => hexDigit? written
  | .byte code => some code
  | .unit code => some code

def isLead (code : Nat) : Bool :=
  decide (0xd800 ≤ code) && decide (code ≤ 0xdbff)

def isTrail (code : Nat) : Bool :=
  decide (0xdc00 ≤ code) && decide (code ≤ 0xdfff)

/-- Bits of the lead are laid over those of the trail, which carries the offset of its plane. -/
def pairChar (lead trail : Nat) : Char :=
  Char.ofNat (((lead - 0xd800) <<< 10) ||| ((trail - 0xdc00) + 0x10000))

def decode : List Piece → Except DataFault (List Char)
  | [] => .ok []
  | .char _ meant :: rest => (decode rest).map (meant :: ·)
  | .byte code :: rest => (decode rest).map (Char.ofNat code :: ·)
  | .unit code :: rest =>
    if isTrail code then .error .trailUnexpected
    else if isLead code then
      match rest with
      | [] => .error .trailMissing
      | trail :: rest =>
        match trail.spelled? with
        | none => .error .hexMalformed
        | some n =>
          if isTrail n then (decode rest).map (pairChar code n :: ·) else .error .trailExpected
    else (decode rest).map (Char.ofNat code :: ·)

def decodeText (ps : List Piece) : Except DataFault String :=
  (decode ps).map String.ofList

def spells (ps : List Piece) (text : String) : Bool :=
  ps == text.toList.map fun c => .char c c

end Piece
end ExplicitModules.Json5
