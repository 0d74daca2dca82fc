/-!
# Texts

A text is a row of code points. Most of them are characters, but halves of surrogate pairs, which
are none, may stand among them. A text of characters alone is held as a string.
-/

namespace ChipEight

namespace Surrogate

/-- Whether a code point is the first half of a surrogate pair. -/
def isHigh (p : Nat) : Bool := 0xD800 ≤ p && p < 0xDC00

/-- Whether a code point is the second half of a surrogate pair. -/
def isLow (p : Nat) : Bool := 0xDC00 ≤ p && p < 0xE000

/-- The code point that the two halves of a surrogate pair stand for. -/
def join (high low : Nat) : Nat := 0x10000 + 1024 * (high - 0xD800) + (low - 0xDC00)

end Surrogate

/-- A code point: a character, or half of a surrogate pair. -/
inductive Point where
  | char (c : Char)
  | half (p : Nat)
  deriving DecidableEq

namespace Point

/-- The code point of a number below 1114112. -/
def ofNat (p : Nat) : Point :=
  if Surrogate.isHigh p || Surrogate.isLow p then half p else char (Char.ofNat p)

def isHalf : Point → Bool
  | half _ => true
  | char _ => false

def char? : Point → Option Char
  | char c => some c
  | half _ => none

end Point

/-- A row of code points. -/
inductive Text where
  | whole (s : String)
  /-- A text in which halves of surrogate pairs stand alone. -/
  | broken (points : List Point)
  deriving DecidableEq

instance : Coe String Text := ⟨.whole⟩

namespace Text

def ofPoints (points : List Point) : Text :=
  if points.any Point.isHalf then broken points
  else whole (String.ofList (points.filterMap Point.char?))

def points : Text → List Point
  | whole s => s.toList.map .char
  | broken points => points

/-- The characters of a text, if that is what it is made of. -/
def string? : Text → Option String
  | whole s => some s
  | broken _ => none

end Text

end ChipEight
