import ChipEight.Json.Reader
import ChipEight.Text.Whole

/-!
# Fields of a request

A `Reading α` takes a JSON value to an `α` or says what is wrong with it. Numbers and truth values
are also taken from texts and other numbers that stand for one. A `Form α` reads several fields of
one object and collects what is wrong with each of them, together with the value that is wrong.
-/

namespace ChipEight.Web

/-- What can be wrong with a value. -/
inductive Issue where
  /-- There is no value. -/
  | missing
  /-- The text is not JSON. -/
  | notJson
  | notObject
  | notInteger
  /-- A text that is no integer. -/
  | unreadableInteger
  /-- A number with a fraction where an integer is needed. -/
  | fraction
  /-- An integer that is too large to be taken from a text or a number with a fraction. -/
  | hugeInteger
  /-- An infinite number, or none at all. -/
  | notFinite
  | tooSmall (least : Int)
  | tooLarge (greatest : Int)
  | notText
  /-- A text with half a surrogate pair in it. -/
  | brokenText
  | notTruth
  /-- A text or an integer that is no truth value. -/
  | unreadableTruth
  deriving DecidableEq

namespace Issue

def code : Issue → String
  | missing => "missing"
  | notJson => "json_invalid"
  | notObject => "model_attributes_type"
  | notInteger => "int_type"
  | unreadableInteger => "int_parsing"
  | fraction => "int_from_float"
  | hugeInteger => "int_parsing_size"
  | notFinite => "finite_number"
  | tooSmall _ => "greater_than_equal"
  | tooLarge _ => "less_than_equal"
  | notText => "string_type"
  | brokenText => "string_unicode"
  | notTruth => "bool_type"
  | unreadableTruth => "bool_parsing"

def message : Issue → String
  | missing => "Field required"
  | notJson => "JSON decode error"
  | notObject => "Input should be a valid dictionary or object to extract fields from"
  | notInteger => "Input should be a valid integer"
  | unreadableInteger => "Input should be a valid integer, unable to parse string as an integer"
  | fraction => "Input should be a valid integer, got a number with a fractional part"
  | hugeInteger => "Unable to parse input string as an integer, exceeded maximum size"
  | notFinite => "Input should be a finite number"
  | tooSmall least => "Input should be greater than or equal to " ++ toString least
  | tooLarge greatest => "Input should be less than or equal to " ++ toString greatest
  | notText => "Input should be a valid string"
  | brokenText => "Input should be a valid string, unable to parse raw data as a unicode string"
  | notTruth => "Input should be a valid boolean"
  | unreadableTruth => "Input should be a valid boolean, unable to interpret input"

/-- What the message of an issue depends on. -/
def context : Issue → List (String × Json)
  | tooSmall least => [("ge", .int least)]
  | tooLarge greatest => [("le", .int greatest)]
  | _ => []

end Issue

abbrev Reading (α : Type) := Json → Except Issue α

/-- The size from which on a number with a fraction or an exponent is not taken for an integer. -/
def hugeBound : Int := 9223372036854775808

/-- A whole double as an integer. -/
def ofDouble (d : Double) : Except Issue Int :=
  match d with
  | .finite .. =>
    match d.toInt? with
    | none => .error .fraction
    | some z => if -hugeBound < z ∧ z < hugeBound then .ok z else .error .hugeInteger
  | _ => .error .notFinite

/-- An integer, or what stands for one: a truth value, a whole number written with a fraction or an
exponent, or a text. -/
def integer : Reading Int
  | .int z => .ok z
  | .bool b => .ok (if b then 1 else 0)
  | .decimal d => ofDouble d.toDouble
  | .infinite _ => .error .notFinite
  | .notANumber => .error .notFinite
  | .str (.whole s) =>
    match Whole.read s with
    | .ok z => .ok z
    | .error .malformed => .error .unreadableInteger
    | .error .tooLong => .error .hugeInteger
  | .str (.broken _) => .error .brokenText
  | _ => .error .notInteger

/-- An integer that is at least `low`. -/
def atLeast (low : Int) : Reading Int := fun j => do
  let z ← integer j
  if z < low then .error (.tooSmall low) else .ok z

/-- An integer from `low` to `high`. -/
def between (low high : Int) : Reading Int := fun j => do
  let z ← atLeast low j
  if high < z then .error (.tooLarge high) else .ok z

/-- A text, in which halves of surrogate pairs may stand alone. -/
def text : Reading Text
  | .str t => .ok t
  | _ => .error .notText

def trueTexts : List String := ["true", "t", "yes", "y", "on", "1"]

def falseTexts : List String := ["false", "f", "no", "n", "off", "0"]

/-- A truth value by its text, in any case. -/
def ofTruthText (s : String) : Except Issue Bool :=
  let s := s.map Char.toLower
  if s ∈ trueTexts then .ok true
  else if s ∈ falseTexts then .ok false
  else .error .unreadableTruth

/-- A truth value by a number. -/
def ofTruthNumber (z : Int) : Except Issue Bool :=
  if z = 0 then .ok false
  else if z = 1 then .ok true
  else if -hugeBound ≤ z ∧ z < hugeBound then .error .unreadableTruth
  else .error .notTruth

/-- A truth value, or what stands for one: the numbers one and zero, and some words. -/
def truth : Reading Bool
  | .bool b => .ok b
  | .int z => ofTruthNumber z
  | .decimal d =>
    match ofDouble d.toDouble with
    | .ok z => ofTruthNumber z
    | .error _ => .error .notTruth
  | .str (.whole s) => ofTruthText s
  | .str (.broken _) => .error .brokenText
  | _ => .error .notTruth

/-- A value that may also be null. -/
def orNull {α : Type} (r : Reading α) : Reading (Option α)
  | .null => .ok none
  | j => some <$> r j

/-- Something wrong at a place in a request; the place is a path of names. The input is the value
there, or what it is missing from. -/
structure Complaint where
  place : List String
  issue : Issue
  input : Json

/-- What is read from an object at a place, or all that is wrong with it. -/
abbrev Form (α : Type) := List String → Json → Except (List Complaint) α

namespace Form

variable {α β : Type}

/-- Reads a field that has to be there. -/
def required (name : String) (r : Reading α) : Form α := fun place j =>
  match j.member? name with
  | none => .error [⟨place ++ [name], .missing, j⟩]
  | some v => (r v).mapError fun issue => [⟨place ++ [name], issue, v⟩]

/-- Reads a field with a default for where it is not there. -/
def optional (name : String) (default : α) (r : Reading α) : Form α := fun place j =>
  match j.member? name with
  | none => .ok default
  | some v => (r v).mapError fun issue => [⟨place ++ [name], issue, v⟩]

/-- Reads a field with an object in it, or null. -/
def optionalObject (name : String) (form : Form α) : Form (Option α) := fun place j =>
  match j.member? name with
  | none => .ok none
  | some .null => .ok none
  | some (.obj members) => some <$> form (place ++ [name]) (.obj members)
  | some v => .error [⟨place ++ [name], .notObject, v⟩]

/-- Reads with two forms, and collects the complaints of both. -/
def both (f : Form α) (g : Form β) : Form (α × β) := fun place j =>
  match f place j, g place j with
  | .ok a, .ok b => .ok (a, b)
  | .error cs, .error ds => .error (cs ++ ds)
  | .error cs, .ok _ => .error cs
  | .ok _, .error ds => .error ds

def map (f : Form α) (g : α → β) : Form β := fun place j => g <$> f place j

end Form

end ChipEight.Web
