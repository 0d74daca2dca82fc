import ChipEight.Batch
import ChipEight.Json

/-!
# Documents

The JSON documents in which registers, reports, cycles and runs are handed out.
-/

namespace ChipEight

namespace Json

def nat (n : Nat) : Json := int n

def orNull {α : Type} (f : α → Json) : Option α → Json
  | some a => f a
  | none => null

def strs (ss : List String) : Json := arr (ss.map ofString)

end Json

def Registers.members (r : Registers) : List (String × Json) :=
  [("v", .ints r.v.toList), ("i", .int r.i), ("pc", .int r.pc),
    ("stack", .ints r.stack.toList), ("delay_timer", .int r.delay), ("sound_timer", .int r.sound)]

def Registers.document (r : Registers) : Json := .record r.members

/-- The document of a report with the given parts. -/
def reportDocument (kind : Fault.Kind) (message : Text) (pc : Int) (opcode : Option Text) : Json :=
  .record [("type", .str kind.name), ("message", .str message), ("pc", .int pc),
    ("opcode", .orNull .str opcode)]

def Report.document (r : Report) : Json :=
  reportDocument r.kind r.message r.pc (r.opcode.map .whole)

/-- The assembly line of a cycle; none if it fetched no word. -/
def Outcome.line (o : Outcome) : String := (o.word.map Word.description).getD ""

def Outcome.members (o : Outcome) : List (String × Json) :=
  [("step", .nat o.step), ("addr", .int o.addr),
    ("opcode", .orNull .ofString (o.word.map Word.text)), ("instr_text", .str o.line)]

def Outcome.document (o : Outcome) : Json := .record o.members

/-- Whether a run went well, in a word. -/
def RunResult.status (r : RunResult) : String := if r.error.isNone then "ok" else "error"

def RunResult.document (r : RunResult) : Json :=
  .record <| [("status", .str r.status), ("steps_executed", .nat r.steps),
    ("final_state", r.regs.document), ("frame", .strs r.frame),
    ("trace", .arr (r.trace.map Outcome.document))] ++
    match r.error with
    | some e => [("error", e.document)]
    | none => []

end ChipEight
