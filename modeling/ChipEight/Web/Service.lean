import ChipEight.Session
import ChipEight.Web.Response

/-!
# The service

The service keeps one session, whose host hears messages alone and holds the latest 1024 of them.
`Web.handle` answers a request and says what becomes of the session. A request that is rejected, a
look at the state and a run on a machine of its own leave the emulator and the messages alone.
-/

namespace ChipEight.Web

def messageLimit : Int := 1024

def newSession (threshold : Option Level) : Session :=
  .new {} (.hearing [.log] messageLimit) threshold

/-- Runs up to `n` cycles, up to the first that fails. -/
def runCycles : Nat → Session → Session
  | 0, s => s
  | n + 1, s =>
    match s.step with
    | (s, .error _) => s
    | (s, .ok o) => if o.error.isSome then s else runCycles n s

/-- Pauses and switches the machine off and on. -/
def restart (s : Session) : Session := (s.onEmulator .pause).onEmulator .powerOn

/-- Forgets the messages that have not been fetched. -/
def forget (s : Session) : Session := s.drain.2

def messages (ns : List Notice) : List Text :=
  ns.filterMap fun n =>
    match n with
    | .log message => some message
    | _ => none

def showState (s : Session) : Session × Response := (s, .state (.of s.emulator))

def reject (s : Session) (r : Rejection) : Session × Response := (s, .rejected r)

/-- Goes on with the form of a request, or rejects it. -/
def withForm {α : Type} (s : Session) (form : Form α) (b : Body)
    (use : α → Session × Response) : Session × Response :=
  match fill form b with
  | .ok a => use a
  | .error r => reject s r

/-- Goes on with the bytes of a program, or rejects the request. -/
def withRom (s : Session) (t : RomText) (use : List UInt8 → Session × Response) :
    Session × Response :=
  match t.bytes with
  | .ok bs => use bs
  | .error r => reject s (.refused r)

def act (s : Session) (b : Body) : Action → Session × Response
  | .rom => withForm s romForm b fun t => withRom s t fun rom =>
    showState ((forget ((restart s).loadRom rom)).note [.romReceived rom.length])
  | .step => withForm s stepForm b fun count => showState (runCycles count.toNat s)
  | .start => showState (s.onEmulator .start)
  | .pause => showState (s.onEmulator .pause)
  | .reset => showState (forget (restart s))
  | .key => withForm s keyForm b fun (code, pressed) =>
    showState (s.onKeys fun k => (k.setCode code).setPressed pressed)
  | .clock => withForm s clockForm b fun hz => showState (s.setClock hz)
  | .state => showState s
  | .events =>
    let (ns, s) := s.drain
    (s, .events (messages ns))
  | .run => withForm s runForm b fun order => withRom s order.rom fun rom =>
    let (r, journal) := Batch.run rom order.steps order.options s.journal
    ({ s with journal }, .result r)

def handle (s : Session) (r : Request) : Session × Response :=
  match r.action with
  | .ok a => act s r.body a
  | .error e => reject s e

end ChipEight.Web
