import ChipEight.Json
import ChipEight.Numeral

/-!
# Reading JSON

`Json.readPoints` reads one value that fills a text, blanks around it apart. Besides the grammar of
JSON it takes the words `NaN`, `Infinity` and `-Infinity`. An integer of more than 4300 digits is
refused as too large, and so are more arrays and objects in each other than there is room for.
Halves of surrogate pairs are fit for strings only. Each part of the reader takes the code points
that are left and gives back those it did not use. Every value, item and member takes up a code
point at least, and one item or member begins where its value does, so twice the number of code
points bounds the recursion.
-/

namespace ChipEight.Json

inductive ReadError where
  | malformed
  /-- An integer has too many digits, or values are nested too deep. -/
  | tooLarge
  /-- Bytes that are no text. -/
  | notText
  deriving DecidableEq

/-- What was read, and the code points after it. -/
abbrev Parsed (α : Type) := Except ReadError (α × List Point)

def isBlank : Point → Bool
  | .char c => c == ' ' || c == '\t' || c == '\n' || c == '\r'
  | .half _ => false

def skipBlanks (ps : List Point) : List Point := ps.dropWhile isBlank

def digit? : Point → Option Nat
  | .char c => if '0' ≤ c && c ≤ '9' then some (c.toNat - 48) else none
  | .half _ => none

def isDigit (p : Point) : Bool := (digit? p).isSome

/-- The most digits an integer may have. -/
def digitLimit : Nat := 4300

def ofDigits (ps : List Point) : Nat := ps.foldl (fun n p => 10 * n + (digit? p).getD 0) 0

def hexDigit? (p : Point) : Option Nat := p.char?.bind Numeral.digitValue?

/-- The sixteen-bit unit that four hexadecimal digits stand for. -/
def unit? (a b c d : Point) : Option Nat := do
  let a ← hexDigit? a
  let b ← hexDigit? b
  let c ← hexDigit? c
  let d ← hexDigit? d
  return 4096 * a + 256 * b + 16 * c + d

/-- The character that a letter after a backslash stands for. -/
def simpleEscape? : Char → Option Char
  | '"' => some '"'
  | '\\' => some '\\'
  | '/' => some '/'
  | 'b' => some '\x08'
  | 'f' => some '\x0c'
  | 'n' => some '\n'
  | 'r' => some '\r'
  | 't' => some '\t'
  | _ => none

/-- Whether a code point may stand in a string as it is. -/
def isPlain : Point → Bool
  | .char c => 32 ≤ c.toNat && c != '\\'
  | .half _ => true

/-- The rest of a string after its first quote, as sixteen-bit units where it was escaped by their
number and as code points elsewhere, last first. -/
def stringParts : List Point → List (Nat ⊕ Point) → Parsed (List (Nat ⊕ Point))
  | [], _ => .error .malformed
  | .char '"' :: ps, parts => .ok (parts, ps)
  | .char '\\' :: .char 'u' :: a :: b :: c :: d :: ps, parts =>
    match unit? a b c d with
    | some u => stringParts ps (.inl u :: parts)
    | none => .error .malformed
  | .char '\\' :: .char c :: ps, parts =>
    match simpleEscape? c with
    | some e => stringParts ps (.inr (.char e) :: parts)
    | none => .error .malformed
  | p :: ps, parts => if isPlain p then stringParts ps (.inr p :: parts) else .error .malformed

/-- The code points of a string's parts, given last first. Two halves of a pair are one code point
if they were both escaped and follow each other. -/
def joinHalves : List (Nat ⊕ Point) → List Point → List Point
  | [], out => out
  | .inr p :: parts, out => joinHalves parts (p :: out)
  | .inl low :: .inl high :: parts, out =>
    if Surrogate.isLow low && Surrogate.isHigh high then
      joinHalves parts (.ofNat (Surrogate.join high low) :: out)
    else joinHalves (.inl high :: parts) (.ofNat low :: out)
  | .inl u :: parts, out => joinHalves parts (.ofNat u :: out)

/-- The rest of a string after its first quote. -/
def string (ps : List Point) : Parsed Text :=
  match stringParts ps [] with
  | .error e => .error e
  | .ok (parts, ps) => .ok (.ofPoints (joinHalves parts []), ps)

/-- The digits after the point of a number; none unless a digit follows the point. -/
def fraction : List Point → List Point × List Point
  | .char '.' :: ps =>
    if (ps.takeWhile isDigit).isEmpty then ([], .char '.' :: ps) else ps.span isDigit
  | ps => ([], ps)

/-- Digits that stand for a number, at least one. -/
def digits? (ps : List Point) : Option (Nat × List Point) :=
  if (ps.takeWhile isDigit).isEmpty then none
  else some (ofDigits (ps.takeWhile isDigit), ps.dropWhile isDigit)

/-- Digits behind a sign, if there is one. -/
def signedDigits? : List Point → Option (Int × List Point)
  | .char '-' :: ps => (digits? ps).map fun (n, ps) => (-(n : Int), ps)
  | .char '+' :: ps => (digits? ps).map fun (n, ps) => ((n : Int), ps)
  | ps => (digits? ps).map fun (n, ps) => ((n : Int), ps)

/-- The exponent of a number, if there is one. -/
def exponent? : List Point → Option (Int × List Point)
  | .char 'e' :: ps => signedDigits? ps
  | .char 'E' :: ps => signedDigits? ps
  | _ => none

/-- The whole part of a number: a zero, or digits that begin with another one. -/
def wholePart? : List Point → Option (List Point × List Point)
  | .char '0' :: ps => some ([.char '0'], ps)
  | ps => if (ps.takeWhile isDigit).isEmpty then none else some (ps.span isDigit)

/-- A number without its sign. -/
def magnitude (negative : Bool) (ps : List Point) : Parsed Json :=
  match wholePart? ps with
  | none => .error .malformed
  | some (whole, ps) =>
    let (places, ps) := fraction ps
    let n := ofDigits (whole ++ places)
    match exponent? ps with
    | some (e, ps) => .ok (.decimal ⟨negative, n, e - places.length⟩, ps)
    | none =>
      if !places.isEmpty then .ok (.decimal ⟨negative, n, -places.length⟩, ps)
      else if digitLimit < whole.length then .error .tooLarge
      else .ok (.int (if negative then -n else n), ps)

/-- What follows some characters, if these come first. -/
def after? : List Char → List Point → Option (List Point)
  | [], ps => some ps
  | c :: cs, .char d :: ps => if c = d then after? cs ps else none
  | _, _ => none

/-- The words that are values. -/
def words : List (List Char × Json) :=
  [(['n', 'u', 'l', 'l'], .null), (['t', 'r', 'u', 'e'], .bool true),
    (['f', 'a', 'l', 's', 'e'], .bool false), (['N', 'a', 'N'], .notANumber),
    (['I', 'n', 'f', 'i', 'n', 'i', 't', 'y'], .infinite false),
    (['-', 'I', 'n', 'f', 'i', 'n', 'i', 't', 'y'], .infinite true)]

/-- A value that is not an array, an object or a string. -/
def scalar (ps : List Point) : Parsed Json :=
  match words.findSome? fun (w, v) => (after? w ps).map fun ps => (v, ps) with
  | some (v, ps) => .ok (v, ps)
  | none =>
    match ps with
    | .char '-' :: ps => magnitude true ps
    | ps => magnitude false ps

mutual

/-- A value that begins at the first code point, with room for so many more arrays and objects in
each other. -/
def value (room : Nat) : Nat → List Point → Parsed Json
  | 0, _ => .error .malformed
  | _ + 1, .char '"' :: ps =>
    match string ps with
    | .error e => .error e
    | .ok (t, ps) => .ok (.str t, ps)
  | fuel + 1, .char '[' :: ps =>
    match room with
    | 0 => .error .tooLarge
    | room + 1 =>
      match skipBlanks ps with
      | .char ']' :: ps => .ok (.arr [], ps)
      | ps => items room fuel ps []
  | fuel + 1, .char '\x7b' :: ps =>
    match room with
    | 0 => .error .tooLarge
    | room + 1 =>
      match skipBlanks ps with
      | .char '\x7d' :: ps => .ok (.obj [], ps)
      | ps => members room fuel ps []
  | _ + 1, ps => scalar ps

/-- The items of an array from one on; those before it are given last first. -/
def items (room : Nat) : Nat → List Point → List Json → Parsed Json
  | 0, _, _ => .error .malformed
  | fuel + 1, ps, before =>
    match value room fuel ps with
    | .error e => .error e
    | .ok (v, ps) =>
      match skipBlanks ps with
      | .char ',' :: ps => items room fuel (skipBlanks ps) (v :: before)
      | .char ']' :: ps => .ok (.arr (v :: before).reverse, ps)
      | _ => .error .malformed

/-- The members of an object from one on; those before it are given last first. -/
def members (room : Nat) : Nat → List Point → List (Text × Json) → Parsed Json
  | fuel + 1, .char '"' :: ps, before =>
    match string ps with
    | .error e => .error e
    | .ok (key, ps) =>
      match skipBlanks ps with
      | .char ':' :: ps =>
        match value room fuel (skipBlanks ps) with
        | .error e => .error e
        | .ok (v, ps) =>
          match skipBlanks ps with
          | .char ',' :: ps => members room fuel (skipBlanks ps) ((key, v) :: before)
          | .char '\x7d' :: ps => .ok (.ofMembers ((key, v) :: before).reverse, ps)
          | _ => .error .malformed
      | _ => .error .malformed
  | _, _, _ => .error .malformed

end

/-- The value that some code points stand for, with room for so many arrays and objects in each
other. -/
def readPoints (room : Nat) (ps : List Point) : Except ReadError Json :=
  let ps := skipBlanks ps
  match value room (2 * ps.length + 2) ps with
  | .error e => .error e
  | .ok (v, ps) => if (skipBlanks ps).isEmpty then .ok v else .error .malformed

/-- The value that a string stands for, with room for so many arrays and objects in each other. -/
def read (room : Nat) (s : String) : Except ReadError Json := readPoints room (s.toList.map .char)

end ChipEight.Json
