import ChipEight.Decimal
import ChipEight.Text

/-!
# JSON values

A JSON value keeps integers apart from other numbers, which are held as they were written. Reading
is in `ChipEight.Json.Reader` and writing in `ChipEight.Json.Writer`.
-/

namespace ChipEight

namespace Json

/-- The escape of a code point below 65536. -/
def unitEscape (p : Nat) : List Char :=
  ['\\', 'u', Nat.digitChar (p / 4096), Nat.digitChar (p / 256 % 16), Nat.digitChar (p / 16 % 16),
    Nat.digitChar (p % 16)]

end Json

/-- A value of JSON, with the words `NaN` and `Infinity` besides. -/
inductive Json where
  | null
  | bool (b : Bool)
  | int (z : Int)
  /-- A number with a fraction or an exponent. -/
  | decimal (d : Decimal)
  | infinite (negative : Bool)
  | notANumber
  | str (t : Text)
  | arr (items : List Json)
  | obj (members : List (Text × Json))

namespace Json

/-- The first member of an object with the given key. -/
def member? : Json → String → Option Json
  | obj members, key => (members.find? fun m => m.1 == .whole key).map Prod.snd
  | _, _ => none

/-- Puts a member into the place of the one with its key, or after all others. -/
def putMember (m : Text × Json) : List (Text × Json) → List (Text × Json)
  | [] => [m]
  | m' :: ms => if m'.1 = m.1 then m :: ms else m' :: putMember m ms

/-- An object of members put in one after the other: of two with one key the later counts. -/
def ofMembers (members : List (Text × Json)) : Json :=
  obj (members.foldl (fun ms m => putMember m ms) [])

/-- Whether a value stands for truth: anything but null, false, zero and what is empty. -/
def truthy : Json → Bool
  | null => false
  | bool b => b
  | int z => z != 0
  | decimal d => !d.toDouble.isZero
  | infinite _ => true
  | notANumber => true
  | str t => t != .whole ""
  | arr items => !items.isEmpty
  | obj members => !members.isEmpty

def ints (zs : List Int) : Json := arr (zs.map int)

def ofString (s : String) : Json := str s

/-- An object with the given members, whose keys differ. -/
def record (members : List (String × Json)) : Json :=
  obj (members.map fun (key, v) => (.whole key, v))

mutual

/-- Whether no more than `room` arrays and objects of a value are in each other. -/
def nestsWithin (room : Nat) : Json → Bool
  | arr items =>
    match room with
    | 0 => false
    | room + 1 => allNestWithin room items
  | obj members =>
    match room with
    | 0 => false
    | room + 1 => membersNestWithin room members
  | _ => true

/-- Whether no more than `room` arrays and objects of any of some values are in each other. -/
def allNestWithin (room : Nat) : List Json → Bool
  | [] => true
  | v :: vs => v.nestsWithin room && allNestWithin room vs

/-- Whether no more than `room` arrays and objects of any of some members are in each other. -/
def membersNestWithin (room : Nat) : List (Text × Json) → Bool
  | [] => true
  | (_, v) :: ms => v.nestsWithin room && membersNestWithin room ms

end

end Json

end ChipEight
