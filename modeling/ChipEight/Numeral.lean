/-!
# Hexadecimal numerals

Upper-case hexadecimal text of integers, filled with zeros to a least width. A minus sign counts
towards the width, so `-1` in width four reads `-001`.
-/

namespace ChipEight.Numeral

/-- The upper-case hexadecimal digit of a number below sixteen. -/
def digit (n : Nat) : Char :=
  if n < 10 then Char.ofNat (48 + n) else Char.ofNat (55 + n)

/-- The value of a hexadecimal digit in either case. -/
def digitValue? (c : Char) : Option Nat :=
  if '0' ≤ c ∧ c ≤ '9' then some (c.toNat - 48)
  else if 'A' ≤ c ∧ c ≤ 'F' then some (c.toNat - 55)
  else if 'a' ≤ c ∧ c ≤ 'f' then some (c.toNat - 87)
  else none

/-- The digits of `n` without leading zeros; none for zero. -/
def significant (n : Nat) : List Char :=
  if n = 0 then [] else significant (n / 16) ++ [digit (n % 16)]

/-- The digits of `n`, at least `width` of them. -/
def padded : Nat → Nat → List Char
  | 0, n => significant n
  | width + 1, n => padded width (n / 16) ++ [digit (n % 16)]

/-- The text of an integer in at least `width` characters, the sign included. -/
def hex (width : Nat) (z : Int) : List Char :=
  if z < 0 then '-' :: padded (width - 1) z.natAbs else padded width z.natAbs

end ChipEight.Numeral
