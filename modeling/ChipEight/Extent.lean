import ChipEight.Place

/-!
# Extents

How many things a row is to be made of. Their number has sixty-four bits, as an index has, and there
is room for fewer than `extentLimit` things.
-/

namespace ChipEight

/-- Why a row of so many things is not made. -/
inductive Unmade where
  /-- Their number is below zero. -/
  | negative
  /-- Their number does not fit into sixty-four bits. -/
  | oversized
  /-- There is no room for them. -/
  | exhausted
  deriving DecidableEq

/-- The number of things from which on there is no room for them. -/
def extentLimit : Int := 1099511627776

end ChipEight
