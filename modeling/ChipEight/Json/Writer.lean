import ChipEight.Decimal.Shortest
import ChipEight.Json

/-!
# Writing JSON

`Json.write` hands the text of a value, without blanks, to a sink. In strings the quote, the
backslash and the control characters are escaped, and nothing else. A number that is not an integer
is written with the fewest digits that read back as the same double. The sink gets text and, one by
one, the halves of surrogate pairs that stand alone. `Json.text` escapes those too.
-/

namespace ChipEight.Json

/-- Where a value is written to; `σ` is what has been written. -/
structure Sink (σ : Type) where
  text : σ → String → σ
  /-- Takes half of a surrogate pair. -/
  half : σ → Nat → σ

/-- A character as it stands inside a string. -/
def escaped (c : Char) : List Char :=
  if c = '"' then ['\\', '"']
  else if c = '\\' then ['\\', '\\']
  else if c = '\n' then ['\\', 'n']
  else if c = '\r' then ['\\', 'r']
  else if c = '\t' then ['\\', 't']
  else if c = '\x08' then ['\\', 'b']
  else if c = '\x0c' then ['\\', 'f']
  else if c.toNat < 32 then unitEscape c.toNat
  else [c]

/-- Digits with a point after the first `point` of them. Below a ten-thousandth and from ten to the
sixteenth on, the point goes after the first digit and an exponent of at least two digits says where
it belongs. There is a digit on each side of a point. -/
def placePoint (digits : List Char) (point : Int) : List Char :=
  let zeros (n : Int) : List Char := List.replicate n.toNat '0'
  if -4 < point ∧ point ≤ 16 then
    let whole := digits.take point.toNat ++ zeros (point - digits.length)
    let places := zeros (-point) ++ digits.drop point.toNat
    (if whole.isEmpty then ['0'] else whole) ++ '.' :: (if places.isEmpty then ['0'] else places)
  else
    let size := Nat.toDigits 10 (point - 1).natAbs
    let places := digits.drop 1
    digits.take 1 ++ (if places.isEmpty then [] else '.' :: places) ++
      'e' :: (if point < 1 then '-' else '+') :: zeros (2 - size.length) ++ size

/-- The text of a double. -/
def doubleText : Double → String
  | .notANumber => "NaN"
  | .infinite false => "Infinity"
  | .infinite true => "-Infinity"
  | .finite negative c e =>
    let (digits, point) := if c = 0 then (['0'], 1) else Double.shortest c e
    (if negative then "-" else "") ++ String.ofList (placePoint digits point)

variable {σ : Type} (k : Sink σ)

/-- Writes a text in quotes. -/
def writeText (out : σ) : Text → σ
  | .whole s =>
    k.text out ((s.foldl (fun quoted c => (escaped c).foldl String.push quoted) "\"").push '"')
  | .broken points =>
    let add (out : σ) : Point → σ
      | .char c => k.text out (String.ofList (escaped c))
      | .half p => k.half out p
    k.text (points.foldl add (k.text out "\"")) "\""

mutual

/-- Writes a value. -/
def write (out : σ) : Json → σ
  | null => k.text out "null"
  | bool true => k.text out "true"
  | bool false => k.text out "false"
  | int z => k.text out (toString z)
  | decimal d => k.text out (doubleText d.toDouble)
  | infinite negative => k.text out (doubleText (.infinite negative))
  | notANumber => k.text out (doubleText .notANumber)
  | str t => writeText k out t
  | arr [] => k.text out "[]"
  | arr (v :: vs) => k.text (writeItems (write (k.text out "[") v) vs) "]"
  | obj [] => k.text out "\x7b\x7d"
  | obj ((key, v) :: ms) =>
    k.text (writeMembers (write (k.text (writeText k (k.text out "\x7b") key) ":") v) ms) "\x7d"

/-- Writes the items of an array after the first. -/
def writeItems (out : σ) : List Json → σ
  | [] => out
  | v :: vs => writeItems (write (k.text out ",") v) vs

/-- Writes the members of an object after the first. -/
def writeMembers (out : σ) : List (Text × Json) → σ
  | [] => out
  | (key, v) :: ms =>
    writeMembers (write (k.text (writeText k (k.text out ",") key) ":") v) ms

end

/-- The text of a value. -/
def text (v : Json) : String :=
  v.write ⟨fun out s => out ++ s, fun out p => out ++ String.ofList (unitEscape p)⟩ ""

end ChipEight.Json
