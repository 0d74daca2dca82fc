/-!
# Whole numbers as text

`Whole.read` reads a whole number in decimal as people type it: with blanks around it, a sign,
leading zeros, a point with nothing but zeros after it, and single underscores between digits. What
remains when all that is taken away is plain: a minus sign perhaps, and a zero or up to 4300 digits
that begin with another one. A text that begins with more digits than that is too long whatever
comes after them.
-/

namespace ChipEight.Whole

/-- The characters that count as blank around a number: white space of any script. -/
def isBlank (c : Char) : Bool :=
  let n := c.toNat
  (9 ≤ n && n ≤ 13) || n == 0x20 || n == 0x85 || n == 0xA0 || n == 0x1680 ||
    (0x2000 ≤ n && n ≤ 0x200A) || n == 0x2028 || n == 0x2029 || n == 0x202F || n == 0x205F ||
    n == 0x3000

/-- The text without the blanks around it. -/
def trim (cs : List Char) : List Char :=
  ((cs.dropWhile isBlank).reverse.dropWhile isBlank).reverse

/-- The text without a plus sign in front, after which no minus sign may come. -/
def dropPlus : List Char → Option (List Char)
  | '+' :: '-' :: _ => none
  | '+' :: cs => some cs
  | cs => some cs

/-- Whether there is a minus sign in front, and the text without it. -/
def splitMinus : List Char → Bool × List Char
  | '-' :: cs => (true, cs)
  | cs => (false, cs)

def isDigit (c : Char) : Bool := '0' ≤ c && c ≤ '9'

/-- Whether a number may begin with a digit. -/
def isLeading (c : Char) : Bool := '1' ≤ c && c ≤ '9'

/-- The text after a leading zero, without the zeros and underscores that follow it. The last of
them stays if nothing else comes, or if a point comes next. Besides a digit, a minus sign may come
after the zeros. -/
def dropZeros (last : Char) : List Char → Option (List Char)
  | [] => some [last]
  | c :: cs =>
    if c == '0' || c == '_' then dropZeros c cs
    else if isLeading c || c == '-' then some (c :: cs)
    else if c == '.' then some (last :: c :: cs)
    else none

/-- The text without the leading zeros of a number that has no sign. -/
def dropLeadingZeros : List Char → Option (List Char)
  | '0' :: cs => dropZeros '0' cs
  | c :: cs => if isLeading c then some (c :: cs) else none
  | [] => none

/-- The text without a point that zeros, at least one, and nothing else follow. -/
def dropPlaces (cs : List Char) : List Char :=
  match cs.dropWhile (· != '.') with
  | '.' :: '0' :: places => if places.all (· == '0') then cs.takeWhile (· != '.') else cs
  | _ => cs

/-- Whether a text has two underscores in a row. -/
def hasDoubled : List Char → Bool
  | '_' :: '_' :: _ => true
  | _ :: cs => hasDoubled cs
  | [] => false

/-- The text without underscores, if each of them stands alone inside of it. -/
def dropUnderscores (cs : List Char) : List Char :=
  if cs.head? == some '_' || cs.getLast? == some '_' || hasDoubled cs then cs
  else cs.filter (· != '_')

/-- The most digits that are read. -/
def digitLimit : Nat := 4300

/-- The number that plain digits stand for: a zero, or digits that begin with another one. -/
def ofDigits? (cs : List Char) : Option Nat :=
  let plain := match cs with
    | [] => false
    | [c] => isDigit c
    | c :: cs => isLeading c && cs.all isDigit
  if plain && cs.length ≤ digitLimit then some (cs.foldl (fun n c => 10 * n + (c.toNat - 48)) 0)
  else none

/-- The integer that a sign and plain digits stand for. -/
def ofPlain? (cs : List Char) : Option Int :=
  let (negative, digits) := splitMinus cs
  (ofDigits? digits).map fun n => if negative then -(n : Int) else n

/-- The text with all taken away that a whole number may be dressed with, except for the minus sign
in front. -/
def strip (cs : List Char) : Option (List Char) := do
  let cs ← dropPlus (trim cs)
  let (negative, cs) := splitMinus cs
  let cs ← dropLeadingZeros cs
  let cs := dropUnderscores (dropPlaces cs)
  return if negative then '-' :: cs else cs

/-- Whether a text begins with more digits than are read. -/
def isLong (cs : List Char) : Bool :=
  let (_, digits) := splitMinus cs
  (digits.head?.any isLeading) && digitLimit < (digits.takeWhile isDigit).length

inductive Error where
  | malformed
  | tooLong
  deriving DecidableEq

/-- The integer that a text stands for. -/
def read (s : String) : Except Error Int :=
  let cs := s.toList
  if isLong cs then .error .tooLong
  else
    match (strip cs).bind ofPlain? with
    | some z => .ok z
    | none => .error .malformed

end ChipEight.Whole
