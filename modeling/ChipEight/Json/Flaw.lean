import ChipEight.Json.Writer

/-!
# Documents that cannot be sent

A document is sent as JSON in UTF-8. JSON has no form for a number that is not finite, UTF-8 has
none for half of a surrogate pair, and there is room for so many arrays and objects in each other
only. `Json.flaw?` tells what is in the way. Halves of surrogate pairs come last, and of the others
the first in the document counts; of the halves, the first ones in the text, with those that follow
at once.
-/

namespace ChipEight

/-- Halves of surrogate pairs that follow each other in a text. -/
structure HalfRun where
  /-- How many code points are before it. -/
  start : Nat
  size : Nat
  /-- The first of the halves. -/
  first : Nat
  deriving DecidableEq

/-- The size of a text, and the first halves of surrogate pairs in it. -/
structure Gauge where
  size : Nat
  run : Option HalfRun

namespace Gauge

def empty : Gauge := ⟨0, none⟩

/-- Takes up half of a surrogate pair. -/
def addHalf (g : Gauge) (p : Nat) : Gauge :=
  let run := match g.run with
    | none => ⟨g.size, 1, p⟩
    | some r => if r.start + r.size = g.size then { r with size := r.size + 1 } else r
  ⟨g.size + 1, some run⟩

def add (g : Gauge) : Point → Gauge
  | .char _ => { g with size := g.size + 1 }
  | .half p => g.addHalf p

def sink : Json.Sink Gauge where
  text g s := { g with size := g.size + s.length }
  half := addHalf

end Gauge

/-- The first halves of surrogate pairs in a text. -/
def Text.halves? (t : Text) : Option HalfRun := (t.points.foldl Gauge.add .empty).run

namespace Json

/-- Why a document cannot be sent. -/
inductive Flaw where
  | notFinite
  /-- There are too many arrays and objects in each other. -/
  | tooDeep
  | halves (run : HalfRun)
  deriving DecidableEq

mutual

/-- The first thing in a value that JSON has no form for, or has no room for. -/
def unwritable? (room : Nat) : Json → Option Flaw
  | decimal d => if d.toDouble.isFinite then none else some .notFinite
  | infinite _ => some .notFinite
  | notANumber => some .notFinite
  | arr items =>
    match room with
    | 0 => some .tooDeep
    | room + 1 => unwritableItem? room items
  | obj members =>
    match room with
    | 0 => some .tooDeep
    | room + 1 => unwritableMember? room members
  | _ => none

/-- The first thing in some values that JSON has no form for, or has no room for. -/
def unwritableItem? (room : Nat) : List Json → Option Flaw
  | [] => none
  | v :: vs => v.unwritable? room <|> unwritableItem? room vs

/-- The first thing in some members that JSON has no form for, or has no room for. -/
def unwritableMember? (room : Nat) : List (Text × Json) → Option Flaw
  | [] => none
  | (_, v) :: ms => v.unwritable? room <|> unwritableMember? room ms

end

/-- What keeps a document from being sent, with room for so many arrays and objects in each
other. -/
def flaw? (room : Nat) (v : Json) : Option Flaw :=
  v.unwritable? room <|> (v.write Gauge.sink .empty).run.map .halves

namespace Flaw

def message : Flaw → String
  | notFinite => "Out of range float values are not JSON compliant"
  | tooDeep => "maximum recursion depth exceeded while encoding a JSON object"
  | halves r =>
    let what :=
      if r.size = 1 then
        " '" ++ String.ofList (unitEscape r.first) ++ "' in position " ++ toString r.start
      else "s in position " ++ toString r.start ++ "-" ++ toString (r.start + r.size - 1)
    "'utf-8' codec can't encode character" ++ what ++ ": surrogates not allowed"

end Flaw

end Json

end ChipEight
