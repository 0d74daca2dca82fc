import ChipEight.Emulator
import ChipEight.Journal
import ChipEight.Notice

/-!
# Sessions

A session is an emulator, a host that listens to it, and a journal. `Session.step` runs one cycle
and tells the host about it: the message if the cycle failed, the screen, the registers, and the end
of the cycle, in this order. On hearing of the end the host may use the controls, and with them run
further cycles, whose notices come in between. The host may also fail, on seeing a frame or because
it loads a file that is not there. It is then told nothing more about that cycle, and everything
going on around it ends; what the cycle did stays done. A cycle that breaks down without a report is
an interruption of the same sort, of which the host is told nothing.

`Session.workLoop` is the loop of a worker. At each turn the worker looks whether it has been told
to stop, and if not, whether the emulator runs; if it does, the worker runs a cycle, and halts the
emulator if the cycle is interrupted. The worker pauses between cycles for as long as the frequency
says; one that is too high for that makes it break off after the cycle. In `Session.work` the host
lets a worker go on until as many cycles as asked for have ended, one has failed, or the emulator no
longer runs. The host then pauses the emulator or stops the worker. Cycles that the host runs on
hearing of an end count too, and before the cycle whose end that was.
-/

namespace ChipEight

/-- Where a worker is. -/
inductive Worker where
  | absent
  /-- It waits for the emulator to run. -/
  | waiting
  /-- It is at its turns, and may have been told to stop. -/
  | busy (stopping : Bool)
  deriving DecidableEq

def Worker.stopping : Worker → Bool
  | busy stopping => stopping
  | _ => false

/-- How long the host means to let a worker go on. -/
structure Task where
  /-- The number of cycles whose ends are still to come. -/
  left : Int
  /-- Whether a cycle has failed since the worker began. -/
  failed : Bool
  /-- Whether the worker is to stay and wait. -/
  stay : Bool

def Task.fail (t : Task) : Task := { t with failed := true }

structure Session where
  emulator : Emulator
  listener : Listener
  journal : Journal
  /-- How many frames have been shown. -/
  frames : Nat := 0
  /-- How many ends of cycles have been signalled. -/
  ends : Nat := 0
  worker : Worker := .absent
  /-- What the host has in mind for the worker, unless it has had its way. -/
  task : Option Task := none

/-- What ends everything that goes on around a cycle. -/
inductive Interruption where
  /-- The host failed. -/
  | host
  /-- A cycle broke down without a report, at a point that has no pixel. -/
  | breakdown (m : Misplaced)
  deriving DecidableEq

namespace Session

/-- A new emulator with a host and an empty journal. -/
def new (o : Options) (l : Listener) (threshold : Option Level) : Session :=
  { emulator := .new o, listener := l, journal := .empty threshold }

/-! ## Controls -/

/-- Applies a function to the emulator alone. -/
def onEmulator (f : Emulator → Emulator) (s : Session) : Session :=
  match s with
  | ⟨emulator, listener, journal, frames, ends, worker, task⟩ =>
    ⟨f emulator, listener, journal, frames, ends, worker, task⟩

def note (s : Session) (es : List Entry) : Session := { s with journal := s.journal.addAll es }

def onKeys (f : KeyLatch → KeyLatch) (s : Session) : Session := s.onEmulator (·.withKeys f)

/-- Puts a program in its place, cut off at the end of memory, which is noted. -/
def loadRom (s : Session) (rom : List UInt8) : Session :=
  (s.onEmulator (·.loadRom rom)).note (RomLoad.of rom).entries

/-- Puts the program of the file at `path` in its place, if there is one and it is accepted. -/
def loadFile (s : Session) (path : String) (file : Option (List UInt8)) : Session :=
  (s.onEmulator (·.loadFile file)).note ((FileLoad.of file).entries path)

/-- Sets the frequency; one that is not positive is noted and ignored. -/
def setClock (s : Session) (hz : Int) : Session :=
  (s.onEmulator (·.setClock hz)).note (if hz ≤ 0 then [.clockIgnored hz] else [])

/-- Ends the worker. -/
def retire (s : Session) : Session := { s with worker := .absent }.note [.workerStopped]

/-- Pauses the emulator and stops the worker, one that waits at once and one that is at work at its
next turn. -/
def stop (s : Session) : Session :=
  let s := s.onEmulator .pause
  match s.worker with
  | .absent => s
  | .waiting => s.retire
  | .busy _ => { s with worker := .busy true }

/-- All that the host has heard since the last time, and the session without it. -/
def drain (s : Session) : List Notice × Session :=
  let (ns, inbox) := s.listener.inbox.drain
  (ns, { s with listener := { s.listener with inbox } })

/-! ## Cycles -/

def tell (s : Session) (n : Notice) : Session := { s with listener := s.listener.hear n }

/-- Lets the host hear the message of a cycle that failed, and the worker know of it. -/
def tellError (s : Session) (o : Outcome) : Session :=
  match o.error with
  | some r => { s with task := s.task.map Task.fail }.tell (.log r.message)
  | none => s

/-- Lets the host see the screen, on which it may fail. -/
def showFrame (s : Session) : Session × Except Interruption Unit :=
  let s := s.tell (.frame s.emulator.machine.screen)
  let s := { s with frames := s.frames + 1 }
  (s, if s.listener.fails s.frames then .error .host else .ok ())

/-- Lets the host see the registers and the end of a cycle. -/
def tellEnd (s : Session) (o : Outcome) : Session :=
  let s := (s.tell (.registers s.emulator.machine.snapshot)).tell (.cycleEnd o.step)
  { s with ends := s.ends + 1 }

/-- Runs a cycle without telling. -/
def cycle (s : Session) : Session × Outcome :=
  match s with
  | ⟨emulator, listener, journal, frames, ends, worker, task⟩ =>
    let (emulator, o) := emulator.cycle
    (⟨emulator, listener, journal.addAll o.entries, frames, ends, worker, task⟩, o)

/-- Counts a cycle as ended, all that the host did on hearing of it included. If that was the last
cycle asked for, one has failed, or the emulator no longer runs, the host pauses the emulator, or
stops the worker if that is not to stay. It does so only once. -/
def countEnd (s : Session) : Session :=
  match s.task with
  | none => s
  | some t =>
    if t.left ≤ 1 ∨ t.failed ∨ ¬ s.emulator.running then
      let s := { s with task := none }
      if t.stay then s.onEmulator .pause else s.stop
    else { s with task := some { t with left := t.left - 1 } }

/-- Runs a cycle and tells the host about it; `atEnd` is what the host does on hearing that the
cycle has ended. -/
def stepThen (atEnd : Session → Session × Except Interruption Unit) (s : Session) :
    Session × Except Interruption Outcome :=
  let (s, o) := s.cycle
  match o.ending with
  | .broken m => (s, .error (.breakdown m))
  | _ =>
    let (s, shown) := (s.tellError o).showFrame
    match shown with
    | .error e => (s, .error e)
    | .ok () =>
      let (s, done) := atEnd (s.tellEnd o)
      match done with
      | .error e => (s, .error e)
      | .ok () => (s.countEnd, .ok o)

/-- Uses a control; `step` is what a cycle is. A worker that is there is kept at a start, and gets
its turns in `work`. -/
def control (step : Session → Session × Except Interruption Outcome) (s : Session) :
    Control → Session × Except Interruption Unit
  | .pressKey code => (s.onKeys (·.press code), .ok ())
  | .releaseKey => (s.onKeys .release, .ok ())
  | .setKey code => (s.onKeys (·.setCode code), .ok ())
  | .setPressed pressed => (s.onKeys (·.setPressed pressed), .ok ())
  | .start => (s.onEmulator .start, .ok ())
  | .pause => (s.onEmulator .pause, .ok ())
  | .setClock hz => (s.setClock hz, .ok ())
  | .stop => (s.stop, .ok ())
  | .powerOn => (s.onEmulator .powerOn, .ok ())
  | .loadRom rom => (s.loadRom rom, .ok ())
  | .loadFile path file => (s.loadFile path file, .ok ())
  | .step =>
    let (s, r) := step s
    match r with
    | .error e => (s, .error e)
    | .ok _ => (s, .ok ())

/-- Uses controls in order, up to an interruption or one that fails. -/
def controls (step : Session → Session × Except Interruption Outcome) :
    Session → List Control → Session × Except Interruption Unit
  | s, [] => (s, .ok ())
  | s, c :: cs =>
    let (s, r) := s.control step c
    match r with
    | .error e => (s, .error e)
    | .ok () => if c.raises then (s, .error .host) else controls step s cs

/-- What the host does at the end of a cycle: it uses the controls of the cue for it. Cycles that
run among them end later, so only later cues can be for those. -/
def follow : List Cue → Session → Session × Except Interruption Unit
  | [], s => (s, .ok ())
  | c :: cs, s =>
    if c.atEnd = s.ends then s.controls (stepThen (follow cs)) c.controls else follow cs s

/-- Runs a cycle and tells the host about it; the host follows its script. -/
def step (s : Session) : Session × Except Interruption Outcome :=
  s.stepThen (follow s.listener.script)

def perform (s : Session) (c : Control) : Session × Except Interruption Unit := s.control step c

/-- Runs `n` cycles, going on after failed ones, and looks at the session after each. -/
def steps {α : Type} (look : Outcome → Session → α) :
    Nat → Session → Session × Except Interruption (List α)
  | 0, s => (s, .ok [])
  | n + 1, s =>
    let (s, r) := s.step
    match r with
    | .error e => (s, .error e)
    | .ok o =>
      let a := look o s
      let (s, r) := steps look n s
      match r with
      | .error e => (s, .error e)
      | .ok as => (s, .ok (a :: as))

/-! ## The worker -/

/-- The least frequency that is nearer to `2 ^ 1024` than to a double, or as near. The pause between
cycles, one by the frequency, is worked out with doubles. -/
def paceLimit : Int := Int.ofNat (Nat.pow 2 1024 - Nat.pow 2 970)

/-- Halts the emulator because of an interruption. -/
def giveUp (s : Session) : Session :=
  (s.note [.workerFailed]).onEmulator fun e => { e with running := false, halted := true }

/-- Gives a worker a number of turns. It stops or waits when it finds that it has been told to or
that the emulator does not run; without a pause to go through it is gone. -/
def workLoop : Nat → Session → Session
  | 0, s => { s with worker := .waiting }
  | n + 1, s =>
    if s.worker.stopping then s.retire
    else if !s.emulator.running then { s with worker := .waiting }
    else
      let (s, r) := s.step
      match r with
      | .error _ => workLoop n s.giveUp
      | .ok _ =>
        if paceLimit ≤ s.emulator.clockHz then { s with worker := .absent } else workLoop n s

/-- Starts the emulator, with the worker that waits or a new one, which is to go on until `n` cycles
have ended. -/
def employ (s : Session) (n : Int) (stay : Bool) : Session :=
  let s := if s.worker = .waiting then s else s.note [.workerStarted]
  { s with worker := .busy false, task := some ⟨n, false, stay⟩ }.onEmulator .start

/-- As many turns as it takes for `n` cycles, but at least one, and to find that they are enough. -/
def turns (n : Int) : Nat := (max 1 n).toNat + 1

/-- Starts the emulator and lets a worker go on until `n` cycles have ended, but at least one. In
the end the host stops a worker that is still there, unless it is to stay. -/
def work (s : Session) (n : Int) (stay : Bool) : Session :=
  let s := workLoop (turns n) (s.employ n stay)
  let s := { s with task := none }
  if stay ∨ s.worker = .absent then s else s.stop

end Session

end ChipEight
