import ExplicitModules.Decimal.Shortest
import ExplicitModules.Json5.Token

/-!
# Values of JSON5 numbers

A number without point and exponent is an integer of sixty-four bits, or of thirty-two bits in
hexadecimal digits; any other number is the nearest binary number. Signs in front of hexadecimal
digits, and a plus sign in front of a word, are refused.
-/
namespace ExplicitModules.Json5
set_option autoImplicit false
open Decimal (Binary ofDecimal?)

inductive Number
  | integer (n : Int)
  | real (negative : Bool) (b : Binary)
  | infinite (negative : Bool)
  | notANumber
deriving DecidableEq, Repr

def Sign.apply (sign : Sign) (n : Nat) : Int :=
  if sign = .minus then -(n : Int) else n

/-- Integers lie between this and its negative, which is one of them. -/
def integerBound : Int := 0x8000000000000000

def hexBound : Nat := 0x100000000

def integerNumber (n : Int) : Except DataFault Number :=
  if -integerBound ≤ n ∧ n < integerBound then .ok (.integer n) else .error .integerMalformed

def hexNumber (sign : Sign) (digits : List Char) : Except DataFault Number :=
  if sign = .none then
    if hexValue digits < hexBound then .ok (.integer (hexValue digits)) else .error .hexMalformed
  else if digits.any fun c => c == 'e' || c == 'E' then .error .numberMalformed
  else .error .integerMalformed

def realNumber (sign : Sign) (whole fraction : List Char) (exponent : Int) :
    Except DataFault Number :=
  match ofDecimal? (decimalValue (whole ++ fraction)) (exponent - fraction.length) with
  | some b => .ok (.real (sign == .minus) b)
  | none => .error .numberTooLarge

def Numeral.value (n : Numeral) : Except DataFault Number :=
  match n.magnitude with
  | .hex digits => hexNumber n.sign digits
  | .infinity =>
    if n.sign = .plus then .error .integerMalformed else .ok (.infinite (n.sign == .minus))
  | .notANumber => if n.sign = .plus then .error .integerMalformed else .ok .notANumber
  | .decimal whole none none => integerNumber (n.sign.apply (decimalValue whole))
  | .decimal whole fraction none => realNumber n.sign whole (fraction.getD []) 0
  | .decimal whole fraction (some (sign, digits)) =>
    realNumber n.sign whole (fraction.getD []) (sign.apply (decimalValue digits))

/-- A real number in a message: its shortest digits, with a point even if it is whole. -/
def realText (negative : Bool) (b : Binary) : String :=
  let text := b.shortest.positional
  (if negative then "-" else "") ++ text ++ if text.toList.contains '.' then "" else ".0"

def Number.describe : Number → String
  | .integer n => "integer `" ++ toString n ++ "`"
  | .real negative b => "floating point `" ++ realText negative b ++ "`"
  | .infinite negative => if negative then "floating point `-inf`" else "floating point `inf`"
  | .notANumber => "floating point `NaN`"

end ExplicitModules.Json5
