/-!
# Bytes as base64 text

Four characters stand for three bytes. The last group may stand for two bytes or one, and is then
filled with one or two `=`. Nothing but the alphabet and this filling is read. Bits of the last
group that belong to no byte are ignored, and so is filling after a last group that needs none.
-/

namespace ChipEight.Base64

/-- The six bits that a character stands for. -/
def value? (c : Char) : Option Nat :=
  if 'A' ≤ c ∧ c ≤ 'Z' then some (c.toNat - 65)
  else if 'a' ≤ c ∧ c ≤ 'z' then some (c.toNat - 71)
  else if '0' ≤ c ∧ c ≤ '9' then some (c.toNat + 4)
  else if c = '+' then some 62
  else if c = '/' then some 63
  else none

/-- The character of a number below 64. -/
def symbol (n : Nat) : Char :=
  if n < 26 then Char.ofNat (65 + n)
  else if n < 52 then Char.ofNat (71 + n)
  else if n < 62 then Char.ofNat (n - 4)
  else if n = 62 then '+'
  else '/'

/-- The first byte of a group, by its first two characters. -/
def first (a b : Nat) : UInt8 := UInt8.ofNat (4 * a + b / 16)

/-- The second byte of a group, by its second and third character. -/
def second (b c : Nat) : UInt8 := UInt8.ofNat (16 * (b % 16) + c / 4)

/-- The third byte of a group, by its last two characters. -/
def third (c d : Nat) : UInt8 := UInt8.ofNat (64 * (c % 4) + d)

/-- The bytes of the groups from one on. -/
def groups : List Char → Option (List UInt8)
  | [] => some []
  | '=' :: cs => if cs.all (· == '=') then some [] else none
  | [a, b, '=', '='] =>
    match value? a, value? b with
    | some a, some b => some [first a b]
    | _, _ => none
  | [a, b, c, '='] =>
    match value? a, value? b, value? c with
    | some a, some b, some c => some [first a b, second b c]
    | _, _, _ => none
  | a :: b :: c :: d :: cs =>
    match value? a, value? b, value? c, value? d with
    | some a, some b, some c, some d =>
      (groups cs).map ([first a b, second b c, third c d] ++ ·)
    | _, _, _, _ => none
  | _ => none

/-- The bytes that a text stands for. No text begins with filling. -/
def decode (cs : List Char) : Option (List UInt8) :=
  if cs.head? = some '=' then none else groups cs

/-- The text of some bytes. -/
def encode : List UInt8 → List Char
  | [] => []
  | [a] => [symbol (a.toNat / 4), symbol (16 * (a.toNat % 4)), '=', '=']
  | [a, b] =>
    [symbol (a.toNat / 4), symbol (16 * (a.toNat % 4) + b.toNat / 16),
      symbol (4 * (b.toNat % 16)), '=']
  | a :: b :: c :: bs =>
    symbol (a.toNat / 4) :: symbol (16 * (a.toNat % 4) + b.toNat / 16) ::
      symbol (4 * (b.toNat % 16) + c.toNat / 64) :: symbol (c.toNat % 64) :: encode bs

end ChipEight.Base64
