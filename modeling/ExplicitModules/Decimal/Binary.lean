/-!
# Binary numbers of double precision

A finite number is a natural number below 2 ^ 53 times a power of two. A decimal is read as the
nearest of these, to the even neighbour where two are equally near, by exact arithmetic on natural
numbers. What rounds to 2 ^ 1024 or more has no finite value.
-/
namespace ExplicitModules.Decimal
set_option autoImplicit false

/-- The number `significand * 2 ^ exponent`. A significand below 2 ^ 52 comes with the least
exponent. -/
structure Binary where
  significand : Nat
  exponent : Int
deriving DecidableEq, Repr

/-- The least significand of fifty-three binary digits. -/
def leastFull : Nat := 0x10000000000000

def leastExponent : Int := -1074

def greatestExponent : Int := 971

/-- The quotient rounded to the nearest natural number, a half to the even one. -/
def roundDiv (num den : Nat) : Nat :=
  let quotient := num / den
  let twice := 2 * (num % den)
  if twice < den then quotient
  else if den < twice then quotient + 1
  else if quotient % 2 = 0 then quotient else quotient + 1

/-- `n * 2 ^ e` and `n * 10 ^ e` for an exponent of either sign need a factor on the one side or
the other: these are the factors of the numerator and the denominator. -/
def factor (base : Nat) (e : Int) : Nat × Nat :=
  (Nat.pow base e.toNat, Nat.pow base (-e).toNat)

def scaled (num den : Nat) (e : Int) : Nat × Nat :=
  (num * (factor 2 e).2, den * (factor 2 e).1)

/-- The exponent for which the significand of `num / den` has fifty-three binary digits, or the
least one. -/
def exponentOf (num den : Nat) : Int :=
  let size := (num.log2 : Int) - (den.log2 : Int) - 53
  let guess := if size < leastExponent then leastExponent else size
  let (n, d) := scaled num den guess
  if n / d < 2 * leastFull then guess else guess + 1

def ofFraction? (num den : Nat) : Option Binary :=
  let e := exponentOf num den
  let (n, d) := scaled num den e
  let m := roundDiv n d
  let b : Binary := if m = 2 * leastFull then ⟨leastFull, e + 1⟩ else ⟨m, e⟩
  if greatestExponent < b.exponent then none else some b

/-- Decimals whose first digit stands this far from the point need no arithmetic. -/
def farFromPoint : Int := 400

def ofDecimal? (digits : Nat) (e : Int) : Option Binary :=
  let size : Int := (Nat.toDigits 10 digits).length
  if digits = 0 then some ⟨0, leastExponent⟩
  else if farFromPoint < size + e then none
  else if size + e < -farFromPoint then some ⟨0, leastExponent⟩
  else ofFraction? (digits * (factor 10 e).1) (factor 10 e).2

end ExplicitModules.Decimal
