import ChipEight.Decimal

/-!
# The shortest decimal of a double

A double is the nearest one to every decimal in an interval around it. `Double.shortest` gives the
decimal in that interval with the fewest digits, and of those the one nearest to the double. Grids
of one digit, two digits and so on are tried in turn: if a grid has a point in the interval, then
one of the two points next to the double is in it. Seventeen digits are always enough.
-/

namespace ChipEight.Double

/-- A double and the ends of its interval, as numbers of parts of which `den` make up a unit. -/
structure Span where
  low : Nat
  value : Nat
  high : Nat
  den : Nat
  /-- Whether the ends belong to the interval. -/
  closed : Bool

/-- The interval of `c` times two to the power `e`. It goes half way to the neighbours, of which the
lower one is nearer by half where a binary place begins. A half rounds to an even coefficient, so
the ends belong to it if `c` is even. -/
def Span.of (c : Nat) (e : Int) : Span :=
  let low := if c = 1 <<< 52 ∧ -1074 < e then 4 * c - 1 else 4 * c - 2
  let up := (e - 2).toNat
  ⟨low <<< up, (4 * c) <<< up, (4 * c + 2) <<< up, 1 <<< (2 - e).toNat, c % 2 == 0⟩

namespace Span

/-- An interval in units of ten to the power `k`. -/
def rescale (s : Span) (k : Int) : Span :=
  let m := Decimal.tens (-k).toNat
  { s with
    low := s.low * m, value := s.value * m, high := s.high * m,
    den := s.den * Decimal.tens k.toNat }

/-- Whether a number of units lies in an interval. -/
def contains (s : Span) (q : Nat) : Bool :=
  if s.closed then s.low ≤ q * s.den && q * s.den ≤ s.high
  else s.low < q * s.den && q * s.den < s.high

/-- The number of units in an interval that is nearest to its double. -/
def unit? (s : Span) : Option Nat :=
  let near := Decimal.divideToEven s.value s.den
  let below := s.value / s.den
  [near, if near = below then below + 1 else below].find? s.contains

/-- How many digits the double of an interval has before its point; for one below a tenth, less than
zero by as many zeros as follow the point. -/
def places (s : Span) : Int :=
  let guess : Int := (Nat.toDigits 10 s.value).length - (Nat.toDigits 10 s.den).length
  let s := s.rescale guess
  if s.den ≤ s.value then guess + 1 else guess

end Span

/-- The digits of the shortest decimal of a positive double, without zeros at the end, and how many
of them are before the point. -/
def shortest (c : Nat) (e : Int) : List Char × Int :=
  let s := Span.of c e
  let found := (List.range 17).findSome? fun (n : Nat) =>
    let k := s.places - (n + 1)
    ((s.rescale k).unit?).map fun q => (Nat.toDigits 10 q, k)
  let (digits, k) := found.getD ([], 0)
  ((digits.reverse.dropWhile (· == '0')).reverse, digits.length + k)

end ChipEight.Double
