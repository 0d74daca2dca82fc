import ChipEight.Numeral
import ChipEight.Text

/-!
# Bytes as hexadecimal text

Two digits a byte, the high one first. Digits are read in either case and written in lower case.
Blanks are read between bytes, but not within one.
-/

namespace ChipEight.HexBytes

/-- The characters that may stand between bytes: the blank and those from tab to carriage return. -/
def isBlank : Point → Bool
  | .char c => c == ' ' || (9 ≤ c.toNat && c.toNat ≤ 13)
  | .half _ => false

/-- The value of a digit. -/
def digit? (p : Point) : Option Nat := p.char?.bind Numeral.digitValue?

/-- The bytes that the rest of a text stands for, or the place of the first code point that is none
of it; `start` is the place where the rest begins. -/
def decodeFrom (start : Nat) : List Point → Except Nat (List UInt8)
  | [] => .ok []
  | p :: ps =>
    if isBlank p then decodeFrom (start + 1) ps
    else
      match digit? p, ps with
      | none, _ => .error start
      | some _, [] => .error (start + 1)
      | some h, q :: ps =>
        match digit? q with
        | none => .error (start + 1)
        | some l => (UInt8.ofNat (16 * h + l) :: ·) <$> decodeFrom (start + 2) ps

/-- Whether a code point is a character below 128. -/
def isAscii : Point → Bool
  | .char c => c.toNat < 128
  | .half _ => false

/-- The bytes that a text stands for, or the place of what keeps it from being read: of the first
character from 128 on, if there is one. -/
def decode (ps : List Point) : Except Nat (List UInt8) :=
  match ps.findIdx? (!isAscii ·) with
  | some k => .error k
  | none => decodeFrom 0 ps

/-- The lower-case digit of a number below sixteen. -/
def digit (n : Nat) : Char := if n < 10 then Char.ofNat (48 + n) else Char.ofNat (87 + n)

/-- The text of some bytes, without blanks. -/
def encode : List UInt8 → List Char
  | [] => []
  | b :: bs => digit (b.toNat / 16) :: digit (b.toNat % 16) :: encode bs

end ChipEight.HexBytes
