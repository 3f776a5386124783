import ExplicitModules.Decimal.Binary

/-!
# The shortest decimal that reads back

The reals that round to a binary number form an interval, whose ends count when the significand is
even. Grids of more and more decimal digits are searched for a point in it: the first grid with one
wins, of two points the one nearer to the number, and of two equally near ones the larger.
-/
namespace ExplicitModules.Decimal
set_option autoImplicit false

structure Scientific where
  digits : Nat
  exponent : Int
deriving DecidableEq, Repr

/-- Compares `a * 2 ^ p` with `b * 10 ^ q`: both sides as natural numbers of one scale. -/
def onScale (a : Nat) (p : Int) (b : Nat) (q : Int) : Nat × Nat :=
  (a * (factor 2 p).1 * (factor 10 q).2, b * (factor 10 q).1 * (factor 2 p).2)

/-- The number times four over a power of two, and the ends of its interval likewise. -/
structure Interval where
  low : Nat
  middle : Nat
  high : Nat
  exponent : Int
  closed : Bool

/-- Below a power of two the neighbour is half as far as above, unless it is the least one. -/
def Binary.interval (b : Binary) : Interval where
  low := if b.significand = leastFull ∧ leastExponent < b.exponent then 4 * b.significand - 1
    else 4 * b.significand - 2
  middle := 4 * b.significand
  high := 4 * b.significand + 2
  exponent := b.exponent - 2
  closed := b.significand % 2 == 0

def Interval.contains (i : Interval) (d : Scientific) : Bool :=
  let (low, point) := onScale i.low i.exponent d.digits d.exponent
  let (high, point') := onScale i.high i.exponent d.digits d.exponent
  if i.closed then decide (low ≤ point) && decide (point' ≤ high)
  else decide (low < point) && decide (point' < high)

/-- The two neighbours of the number on the grid of multiples of `10 ^ e`, the nearer one first. -/
def Interval.neighbours (i : Interval) (e : Int) : List Scientific :=
  let (value, unit) := onScale i.middle i.exponent 1 e
  let below := value / unit
  if 2 * (value % unit) < unit then [⟨below, e⟩, ⟨below + 1, e⟩] else [⟨below + 1, e⟩, ⟨below, e⟩]

/-- The least `k` with the number below `10 ^ k`. -/
def Interval.scale (i : Interval) : Int :=
  let range := (List.range 700).map fun (n : Nat) => (n : Int) - 350
  (range.find? fun k =>
    let (value, bound) := onScale i.middle i.exponent 1 k
    decide (value < bound)).getD 0

/-- Seventeen digits always tell two numbers apart. -/
def mostDigits : Nat := 17

def Binary.shortest (b : Binary) : Scientific :=
  let i := b.interval
  let grids := (List.range mostDigits).map fun (n : Nat) => i.scale - 1 - (n : Int)
  ((grids.flatMap i.neighbours).find? i.contains).getD ⟨0, 0⟩

def Scientific.positional (d : Scientific) : String :=
  let digits := Nat.toDigits 10 d.digits
  let places := (-d.exponent).toNat
  if places = 0 then String.ofList (digits ++ List.replicate d.exponent.toNat '0')
  else
    let padded := List.replicate (places + 1 - digits.length) '0' ++ digits
    let whole := padded.take (padded.length - places)
    let fraction := ((padded.drop (padded.length - places)).reverse.dropWhile (· == '0')).reverse
    if fraction = [] then String.ofList whole else String.ofList (whole ++ '.' :: fraction)

end ExplicitModules.Decimal
