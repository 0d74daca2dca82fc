import ChipEight.Json.Reader

/-!
# JSON in bytes

The mark of the byte order in front of a JSON text tells how its characters are encoded: in UTF-8,
or in UTF-16 or UTF-32 with the bytes of a unit in either order. Without a mark the zeros among the
first bytes tell, since the text begins with a character below 128. Halves of surrogate pairs may
stand alone.
-/

namespace ChipEight.Json

inductive Encoding where
  | utf8
  | utf16 (bigEndian : Bool)
  | utf32 (bigEndian : Bool)
  deriving DecidableEq

/-- The encoding of a JSON text, by the zeros among its first bytes. Two bytes are one unit of
sixteen bits if one of them is zero. -/
def Encoding.guess : List UInt8 → Encoding
  | [a, b] => if a = 0 then .utf16 true else if b = 0 then .utf16 false else .utf8
  | a :: b :: c :: d :: _ =>
    if a = 0 then if b = 0 then .utf32 true else .utf16 true
    else if b = 0 then if c = 0 ∧ d = 0 then .utf32 false else .utf16 false
    else .utf8
  | _ => .utf8

/-- The marks of the byte order. One may begin with another, which is looked for later. -/
def marks : List (List UInt8 × Encoding) :=
  [([0x00, 0x00, 0xFE, 0xFF], .utf32 true), ([0xFF, 0xFE, 0x00, 0x00], .utf32 false),
    ([0xFE, 0xFF], .utf16 true), ([0xFF, 0xFE], .utf16 false), ([0xEF, 0xBB, 0xBF], .utf8)]

/-- The encoding of a JSON text, and its bytes without the mark. -/
def detect (bytes : List UInt8) : Encoding × List UInt8 :=
  match marks.find? fun (mark, _) => mark.isPrefixOf bytes with
  | some (mark, e) => (e, bytes.drop mark.length)
  | none => (.guess bytes, bytes)

/-- The code point that a group of bytes in UTF-8 stands for, `lead` being what the first says of
it. It must not be so small that fewer bytes would do. -/
def utf8Point? (lead least : Nat) (rest : List UInt8) : Option Point :=
  let p := rest.foldl (fun n b => 64 * n + b.toNat % 64) lead
  if rest.all (·.toNat / 64 = 2) && least ≤ p && p < 0x110000 then some (.ofNat p) else none

/-- The code points that bytes in UTF-8 stand for; those read before are given last first. -/
def utf8Points? : List UInt8 → List Point → Option (List Point)
  | [], points => some points.reverse
  | a :: bytes, points =>
    let lead := a.toNat
    if lead < 0x80 then utf8Points? bytes (.ofNat lead :: points)
    else
      match lead / 16, bytes with
      | 0xC, b :: bytes | 0xD, b :: bytes =>
        (utf8Point? (lead - 0xC0) 0x80 [b]).bind fun p => utf8Points? bytes (p :: points)
      | 0xE, b :: c :: bytes =>
        (utf8Point? (lead - 0xE0) 0x800 [b, c]).bind fun p => utf8Points? bytes (p :: points)
      | 0xF, b :: c :: d :: bytes =>
        (utf8Point? (lead - 0xF0) 0x10000 [b, c, d]).bind fun p => utf8Points? bytes (p :: points)
      | _, _ => none

/-- The number that some bytes stand for, the most significant first. -/
def ofBytes (bytes : List UInt8) : Nat := bytes.foldl (fun n b => 256 * n + b.toNat) 0

/-- The numbers that groups of two bytes stand for; those read before are given last first. -/
def units16? (bigEndian : Bool) : List UInt8 → List Nat → Option (List Nat)
  | [], units => some units.reverse
  | a :: b :: bytes, units =>
    units16? bigEndian bytes (ofBytes (if bigEndian then [a, b] else [b, a]) :: units)
  | _, _ => none

/-- The numbers that groups of four bytes stand for; those read before are given last first. -/
def units32? (bigEndian : Bool) : List UInt8 → List Nat → Option (List Nat)
  | [], units => some units.reverse
  | a :: b :: c :: d :: bytes, units =>
    units32? bigEndian bytes (ofBytes (if bigEndian then [a, b, c, d] else [d, c, b, a]) :: units)
  | _, _ => none

/-- The code points that units of sixteen bits stand for; those read before are given last first. -/
def joinPairs : List Nat → List Point → List Point
  | high :: low :: units, points =>
    if Surrogate.isHigh high && Surrogate.isLow low then
      joinPairs units (.ofNat (Surrogate.join high low) :: points)
    else joinPairs (low :: units) (.ofNat high :: points)
  | [u], points => (.ofNat u :: points).reverse
  | [], points => points.reverse

/-- The code points that units of thirty-two bits stand for. -/
def ofUnits32? (units : List Nat) : Option (List Point) :=
  if units.all (· < 0x110000) then some (units.map .ofNat) else none

/-- The code points that some bytes stand for. -/
def Encoding.decode? (bytes : List UInt8) : Encoding → Option (List Point)
  | utf8 => utf8Points? bytes []
  | utf16 bigEndian => (units16? bigEndian bytes []).map fun units => joinPairs units []
  | utf32 bigEndian => (units32? bigEndian bytes []).bind ofUnits32?

/-- The value that some bytes stand for, with room for so many arrays and objects in each other. -/
def readBytes (room : Nat) (bytes : ByteArray) : Except ReadError Json :=
  let (e, bytes) := detect bytes.toList
  match e.decode? bytes with
  | some ps => readPoints room ps
  | none => .error .notText

end ChipEight.Json
