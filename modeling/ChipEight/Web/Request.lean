import ChipEight.Emulator
import ChipEight.Json.Encoding
import ChipEight.Text.Base64
import ChipEight.Text.HexBytes
import ChipEight.Web.Field

/-!
# Requests

A request has a method, a path and a body. The path leads to an action, which goes with one method.
Both count to the letter, but a line may end behind the path. Some actions have a form, which the
body has to fill in; the body of the others is not looked at. A program is sent as hexadecimal text
or in base64, and has to fit into memory.
-/

namespace ChipEight.Web

/-- What is sent with a request. -/
inductive Body where
  | bytes (bs : ByteArray)
  /-- The text of a value. -/
  | json (v : Json)

structure Request where
  method : String
  path : String
  body : Body

inductive Action where
  | rom
  | step
  | start
  | pause
  | reset
  | key
  | clock
  | state
  | events
  | run
  deriving DecidableEq

namespace Action

/-- The action at a path. -/
def ofPath? : String → Option Action
  | "/api/rom" => some rom
  | "/api/step" => some step
  | "/api/start" => some start
  | "/api/pause" => some pause
  | "/api/reset" => some reset
  | "/api/key" => some key
  | "/api/clock" => some clock
  | "/api/state" => some state
  | "/api/events" => some events
  | "/api/run" => some run
  | _ => none

/-- The method that an action goes with. -/
def method : Action → String
  | state => "GET"
  | events => "GET"
  | _ => "POST"

end Action

/-- Why a request is refused whose form is filled in, or that has none. -/
inductive Refusal where
  | notFound
  | wrongMethod
  /-- The body is no text, or holds something too large to be read. -/
  | unreadableBody
  /-- No program was sent. -/
  | noRom
  | unreadableRom
  | romTooLarge
  deriving DecidableEq

namespace Refusal

def status : Refusal → Nat
  | notFound => 404
  | wrongMethod => 405
  | _ => 400

def message : Refusal → String
  | notFound => "Not Found"
  | wrongMethod => "Method Not Allowed"
  | unreadableBody => "There was an error parsing the body"
  | noRom => "Provide 'hex' or 'base64'"
  | unreadableRom => "ROM is not valid hex/base64"
  | romTooLarge => "ROM size exceeds limit of " ++ toString programRoom ++ " bytes"

end Refusal

/-- Why a request is not carried out. -/
inductive Rejection where
  | refused (r : Refusal)
  /-- The path leads somewhere without the slashes at its end. -/
  | moved
  /-- The form is not filled in as it should be. -/
  | invalid (cs : List Complaint)

/-- A path without the end of a line behind it. -/
def dropLineEnd (path : String) : String :=
  match path.toList.getLast? with
  | some '\n' => String.ofList path.toList.dropLast
  | _ => path

/-- A path without slashes at its end, if it has some. -/
def dropSlashes? (path : String) : Option String :=
  match path.toList.reverse with
  | '/' :: cs => some (String.ofList (cs.dropWhile (· == '/')).reverse)
  | _ => none

/-- The action at a path, behind which a line may end. -/
def Action.atPath? (path : String) : Option Action := Action.ofPath? (dropLineEnd path)

def Request.action (r : Request) : Except Rejection Action :=
  match Action.atPath? r.path with
  | some a => if r.method = a.method then .ok a else .error (.refused .wrongMethod)
  | none =>
    if ((dropSlashes? r.path).bind Action.atPath?).isSome then .error .moved
    else .error (.refused .notFound)

/-! ## Forms -/

/-- Something wrong with the body as a whole. -/
def bodyIssue {α : Type} (issue : Issue) (input : Json) : Except Rejection α :=
  .error (.invalid [⟨["body"], issue, input⟩])

def fillFrom {α : Type} (form : Form α) : Json → Except Rejection α
  | .obj members => (form ["body"] (.obj members)).mapError .invalid
  | v => bodyIssue .notObject v

/-- How many arrays and objects may be in each other in a body. -/
def bodyRoom : Nat := 966

def fill {α : Type} (form : Form α) : Body → Except Rejection α
  | .bytes bs =>
    if bs.isEmpty then bodyIssue .missing .null
    else
      match Json.readBytes bodyRoom bs with
      | .ok v => fillFrom form v
      | .error .malformed => bodyIssue .notJson (.obj [])
      | .error _ => .error (.refused .unreadableBody)
  | .json v =>
    if v.nestsWithin bodyRoom then fillFrom form v else .error (.refused .unreadableBody)

structure RomText where
  hex : Option Text
  base64 : Option Text

def romForm : Form RomText :=
  ((Form.optional "hex" none (orNull text)).both (Form.optional "base64" none (orNull text))).map
    fun (hex, base64) => ⟨hex, base64⟩

/-- The bytes of a program. Hexadecimal text goes before base64. -/
def RomText.bytes (t : RomText) : Except Refusal (List UInt8) :=
  let bytes : Except Refusal (Option (List UInt8)) :=
    match t.hex, t.base64 with
    | some t, _ => .ok (HexBytes.decode t.points).toOption
    | none, some t => .ok (t.string?.bind fun s => Base64.decode s.toList)
    | none, none => .error .noRom
  match bytes with
  | .error r => .error r
  | .ok none => .error .unreadableRom
  | .ok (some bs) => if programRoom < bs.length then .error .romTooLarge else .ok bs

def stepForm : Form Int := Form.optional "count" 1 (between 1 100000)

def keyForm : Form (Int × Bool) :=
  (Form.required "key" (between 0 15)).both (Form.optional "pressed" true truth)

def clockForm : Form Int := Form.required "hz" integer

def optionsForm : Form Options :=
  ((Form.optional "clock_hz" 500 (atLeast 1)).both <|
    (Form.optional "stack_depth" (some 16) (orNull (atLeast 1))).both <|
    (Form.optional "decrement_sound_timer" true truth).both <|
    (Form.optional "seed" none (orNull integer)).both <|
    (Form.optional "max_steps" 10000 (between 1 1000000)).both <|
    Form.optional "trace" false truth).map
    fun (clockHz, stackDepth, decrementSound, seed, maxSteps, trace) =>
      { clockHz, stackDepth, decrementSound, seed, maxSteps, trace }

/-- A run that is asked for. -/
structure RunOrder where
  rom : RomText
  steps : Option Int
  options : Options

def runForm : Form RunOrder :=
  (romForm.both <| (Form.optional "steps" none (orNull (between 1 1000000))).both <|
    Form.optionalObject "options" optionsForm).map
    fun (rom, steps, options) => ⟨rom, steps, options.getD {}⟩

end ChipEight.Web
