import ChipEight.Document
import ChipEight.Json.Flaw
import ChipEight.Web.Request

/-!
# Responses

A response is the state of the session, the messages since the last time, the result of a run, or a
rejection. It has a status and, unless it leads elsewhere, a JSON document. A document that says
what is wrong in a request gives back the values that are, without their private members.
-/

namespace ChipEight.Web

structure View where
  status : Status
  steps : Nat
  clockHz : Int
  regs : Registers
  frame : List String
  error : Option Report

def View.of (e : Emulator) : View :=
  ⟨e.status, e.steps, e.clockHz, e.machine.regs, e.machine.screen.picture, e.lastError⟩

def View.document (v : View) : Json :=
  .record [("status", .str v.status.name), ("steps_executed", .nat v.steps),
    ("clock_hz", .int v.clockHz), ("registers", v.regs.document), ("frame", .strs v.frame),
    ("error", .orNull Report.document v.error)]

inductive Response where
  | state (v : View)
  | events (messages : List Text)
  | result (r : RunResult)
  | rejected (r : Rejection)

/-- Whether members with this key are private. -/
def isPrivate (key : Text) : Bool := [.char '_', .char 's', .char 'a'].isPrefixOf key.points

mutual

/-- A value without private members. -/
def withoutPrivate : Json → Json
  | .arr items => .arr (itemsWithoutPrivate items)
  | .obj members => .obj (publicMembers members)
  | v => v

/-- Some values without private members. -/
def itemsWithoutPrivate : List Json → List Json
  | [] => []
  | v :: vs => withoutPrivate v :: itemsWithoutPrivate vs

/-- The members that are not private, with values without private members. -/
def publicMembers : List (Text × Json) → List (Text × Json)
  | [] => []
  | (key, v) :: ms =>
    if isPrivate key then publicMembers ms else (key, withoutPrivate v) :: publicMembers ms

end

/-- A complaint with its code, its place, what it says and the value it is about. -/
def Complaint.document (c : Complaint) : Json :=
  let context := if c.issue.context.isEmpty then [] else [("ctx", .record c.issue.context)]
  .record ([("type", .str c.issue.code), ("loc", .strs c.place), ("msg", .str c.issue.message),
    ("input", withoutPrivate c.input)] ++ context)

/-- The document that says what is wrong. -/
def detail (v : Json) : Json := .record [("detail", v)]

namespace Response

def status : Response → Nat
  | rejected (.refused r) => r.status
  | rejected .moved => 307
  | rejected (.invalid _) => 422
  | _ => 200

def document? : Response → Option Json
  | state v => some v.document
  | events messages => some (.record [("log", .arr (messages.map .str))])
  | result r => some r.document
  | rejected (.refused r) => some (detail (.str r.message))
  | rejected .moved => none
  | rejected (.invalid cs) => some (detail (.arr (cs.map Complaint.document)))

/-- How many arrays and objects may be in each other in a document. -/
def documentRoom : Nat := 964

/-- The document of a response, if it can be sent. It gives back what was wrong in a request, and
that need not be fit to be sent. -/
def sent (r : Response) : Except Json.Flaw (Option Json) :=
  match r.document?.bind (Json.flaw? documentRoom) with
  | none => .ok r.document?
  | some f => .error f

end Response

end ChipEight.Web
