import ChipEight.Machine
import ChipEight.Mailbox
import ChipEight.Text

/-!
# Notices and listeners

A host is told of every cycle by notices: a message if it failed, then the screen, the registers and
the end of the cycle. A `Listener` is how the host hears them: the topics it cares for, the mailbox
they go to, and what it does on its own, which is to fail on seeing some frames and to use the
controls at the end of some cycles.
-/

namespace ChipEight

inductive Topic where
  | log
  | frame
  | registers
  | cycleEnd
  deriving DecidableEq

/-- What a host is told. -/
inductive Notice where
  /-- The message of a cycle that failed. -/
  | log (message : Text)
  | frame (screen : Screen 64 32)
  | registers (s : Snapshot)
  /-- The end of a cycle, with the number of cycles done so far. -/
  | cycleEnd (step : Int)

def Notice.topic : Notice → Topic
  | log _ => .log
  | frame _ => .frame
  | registers _ => .registers
  | cycleEnd _ => .cycleEnd

/-- What a host can do to an emulator, also while it is being told of a cycle. -/
inductive Control where
  | pressKey (code : Int)
  | releaseKey
  | setKey (code : Int)
  | setPressed (pressed : Bool)
  | start
  | pause
  | setClock (hz : Int)
  | stop
  | powerOn
  | loadRom (rom : List UInt8)
  | loadFile (path : String) (file : Option (List UInt8))
  /-- One whole cycle with its notices. -/
  | step

/-- Whether a control fails because there is no such file. A host that uses it while it is told of a
cycle fails with it. -/
def Control.raises : Control → Bool
  | .loadFile _ none => true
  | _ => false

/-- What a host does at the end of the cycle with the given number, counted from one. -/
structure Cue where
  atEnd : Int
  controls : List Control

structure Listener where
  topics : List Topic
  inbox : Mailbox Notice
  /-- Whether the host fails on seeing a frame; frames are counted from one. -/
  fails : Nat → Bool
  /-- The cues in ascending order. -/
  script : List Cue

namespace Listener

/-- Hears the given topics, in a mailbox of the given capacity. -/
def hearing (topics : List Topic) (capacity : Int) : Listener :=
  ⟨topics, .empty capacity, fun _ => false, []⟩

def deaf : Listener := hearing [] 0

def everything : List Topic := [.log, .frame, .registers, .cycleEnd]

theorem mem_everything (t : Topic) : t ∈ everything := by
  cases t <;> decide

/-- Puts a cue in its place among cues in ascending order. -/
def insertCue (c : Cue) : List Cue → List Cue
  | [] => [c]
  | d :: ds => if c.atEnd ≤ d.atEnd then c :: d :: ds else d :: insertCue c ds

/-- Hears everything, and fails and acts as told. -/
def recording (fails : Nat → Bool) (cues : List Cue) : Listener :=
  { topics := everything, inbox := .empty 0, fails, script := cues.foldr insertCue [] }

/-- Hears everything, acts as told, and fails at one frame at most. -/
def acting (failFrame : Option Int) (cues : List Cue) : Listener :=
  recording (fun k => failFrame = some (k : Int)) cues

/-- Takes a notice, if it is about something the host cares for. -/
def hear (l : Listener) (n : Notice) : Listener :=
  if n.topic ∈ l.topics then { l with inbox := l.inbox.put n } else l

end Listener

end ChipEight
