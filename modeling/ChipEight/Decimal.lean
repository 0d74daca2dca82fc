/-!
# Decimal numbers and their double-precision values

A `Decimal` is a whole number times a power of ten with a sign, the exact meaning of a number's
text. `toDouble` rounds it to the nearest number of fifty-three binary digits, ties to even, as a
reader of double-precision numbers does; very large ones become infinite and very small ones zero.
Zero has a sign too.
-/

namespace ChipEight

/-- The number `coeff` times ten to the power `exp`, or less than zero by as much. -/
structure Decimal where
  negative : Bool
  coeff : Nat
  exp : Int
  deriving DecidableEq

/-- A double-precision value; a finite one is `coeff` times two to the power `exp`. -/
inductive Double where
  | finite (negative : Bool) (coeff : Nat) (exp : Int)
  | infinite (negative : Bool)
  | notANumber
  deriving DecidableEq

namespace Decimal

def tens : Nat → Nat
  | 0 => 1
  | n + 1 => 10 * tens n

/-- The quotient `num / den` to the nearest integer, a half to the even one. -/
def divideToEven (num den : Nat) : Nat :=
  let q := num / den
  let twice := 2 * (num % den)
  if den < twice ∨ (twice = den ∧ q % 2 = 1) then q + 1 else q

/-- Two natural numbers whose quotient is that of `num` and `den` divided by two to the power
`e`. -/
def scaled (num den : Nat) (e : Int) : Nat × Nat :=
  if 0 ≤ e then (num, den <<< e.toNat) else (num <<< (-e).toNat, den)

/-- The exponent at which the quotient `num / den` has fifty-three binary digits before the point,
but none below that of the least double. -/
def binaryExponent (num den : Nat) : Int :=
  let guess : Int := (num.log2 : Int) - den.log2 - 52
  let (n, d) := scaled num den guess
  max (if d <<< 52 ≤ n then guess else guess - 1) (-1074)

/-- The greatest exponent of a double. -/
def greatestExponent : Int := 971

/-- The double nearest to the positive quotient `num / den`, as a coefficient of at most fifty-three
binary digits and an exponent, or nothing where it is too large. -/
def roundQuotient (num den : Nat) : Option (Nat × Int) :=
  let e := binaryExponent num den
  if greatestExponent < e then none
  else
    let (n, d) := scaled num den e
    let c := divideToEven n d
    let (c, e) := if c < 1 <<< 53 then (c, e) else (c / 2, e + 1)
    if greatestExponent < e then none else some (c, e)

/-- The double nearest to a decimal. One with more than 310 places before the point is too large,
and one with more than 330 zeros after it is too small. -/
def toDouble (d : Decimal) : Double :=
  let places : Int := (Nat.toDigits 10 d.coeff).length + d.exp
  if d.coeff = 0 ∨ places < -330 then .finite d.negative 0 0
  else if 310 < places then .infinite d.negative
  else
    let r := if 0 ≤ d.exp then roundQuotient (d.coeff * tens d.exp.toNat) 1
      else roundQuotient d.coeff (tens (-d.exp).toNat)
    match r with
    | none => .infinite d.negative
    | some (c, e) => .finite d.negative c e

end Decimal

namespace Double

def isFinite : Double → Bool
  | finite .. => true
  | _ => false

def isZero : Double → Bool
  | finite _ c _ => c == 0
  | _ => false

/-- The integer that a double is equal to, if there is one. -/
def toInt? : Double → Option Int
  | finite negative c e =>
    let signed (n : Nat) : Int := if negative then -n else n
    if 0 ≤ e then some (signed (c <<< e.toNat))
    else
      let d : Nat := 1 <<< (-e).toNat
      if c % d = 0 then some (signed (c / d)) else none
  | _ => none

end Double

end ChipEight
