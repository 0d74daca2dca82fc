/-!
# Places in a row

An index into a row of things counts from the front or, if it is negative, from the end, the last
thing being at `-1`. An index has sixty-four bits, one of them for its sign.
-/

namespace ChipEight

/-- Whether an integer fits into sixty-four bits, one of them for its sign. -/
def fitsIndex (i : Int) : Bool := -9223372036854775808 ≤ i && i < 9223372036854775808

/-- Why an index means no place. -/
inductive Misplaced where
  /-- There are too few places. -/
  | absent
  /-- The index does not fit into sixty-four bits. -/
  | oversized
  deriving DecidableEq

/-- Why an index that means no place does not. -/
def Misplaced.of (i : Int) : Misplaced := if fitsIndex i then absent else oversized

/-- The place that an index into a row of `n` means. -/
def place (n : Nat) (i : Int) : Except Misplaced (Fin n) :=
  if h : 0 ≤ i ∧ i < n then .ok ⟨i.toNat, by omega⟩
  else if h : i < 0 ∧ 0 ≤ i + n then .ok ⟨(i + n).toNat, by omega⟩
  else .error (.of i)

theorem place_of_nonneg {n : Nat} {i : Int} (h₀ : 0 ≤ i) (h : i < n) :
    place n i = .ok ⟨i.toNat, by omega⟩ := by
  simp [place, h₀, h]

end ChipEight
