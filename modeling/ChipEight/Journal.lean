import ChipEight.Emulator
import ChipEight.Instr.Assembly

/-!
# The journal

An `Entry` is something worth noting that happened. It has a level of importance, a part of the
system that it comes from, and a text. A journal keeps the entries at its threshold or above, in
order, and none without a threshold.
-/

namespace ChipEight

inductive Level where
  | debug
  | info
  | warning
  | error
  deriving DecidableEq

namespace Level

def rank : Level → Nat
  | debug => 0
  | info => 1
  | warning => 2
  | error => 3

def name : Level → String
  | debug => "DEBUG"
  | info => "INFO"
  | warning => "WARNING"
  | error => "ERROR"

def ofName? (s : String) : Option Level := [debug, info, warning, error].find? fun l => l.name == s

end Level

/-- The parts of the system that note things. -/
inductive Part where
  | machine
  | cycles
  | web
  deriving DecidableEq

inductive Entry where
  /-- A program was cut off at the end of memory. -/
  | romCut (written total : Nat)
  /-- A file was too large to be loaded. -/
  | fileRefused (path : String) (size : Nat)
  | fileLoaded (path : String) (size : Nat)
  /-- A word is about to be carried out. -/
  | cycle (addr : Int) (w : Word)
  /-- A cycle failed. -/
  | halted (addr : Int) (message : String)
  /-- A frequency that is not positive was asked for. -/
  | clockIgnored (hz : Int)
  | workerStarted
  | workerStopped
  /-- An interruption halted the worker. -/
  | workerFailed
  /-- A program came in over the web. -/
  | romReceived (size : Nat)

namespace Entry

def level : Entry → Level
  | romCut .. => .warning
  | fileRefused .. => .warning
  | fileLoaded .. => .debug
  | cycle .. => .debug
  | halted .. => .error
  | clockIgnored _ => .debug
  | workerStarted => .debug
  | workerStopped => .debug
  | workerFailed => .error
  | romReceived _ => .info

def part : Entry → Part
  | romCut .. => .machine
  | fileRefused .. => .machine
  | fileLoaded .. => .machine
  | romReceived _ => .web
  | _ => .cycles

/-- An address in at least three digits. -/
def place (addr : Int) : String := String.ofList (Numeral.hex 3 addr)

def text : Entry → String
  | romCut written total =>
    "ROM truncated: " ++ toString written ++ " of " ++ toString total ++ " bytes fit in memory"
  | fileRefused path size => "ROM " ++ path ++ " ignored: " ++ toString size ++ " bytes do not fit"
  | fileLoaded path size => "Loaded ROM " ++ path ++ " (" ++ toString size ++ " bytes)"
  | cycle addr w => place addr ++ "  " ++ w.text ++ "  " ++ w.description
  | halted addr message => "Halted at " ++ place addr ++ ": " ++ message
  | clockIgnored hz => "Ignoring clock frequency " ++ toString hz
  | workerStarted => "Cycle worker started"
  | workerStopped => "Cycle worker stopped"
  | workerFailed => "Cycle worker halted by host listener error"
  | romReceived size => "Loaded " ++ toString size ++ " byte ROM"

end Entry

def RomLoad.entries (l : RomLoad) : List Entry :=
  if l.written < l.total then [.romCut l.written l.total] else []

/-- What loading the file at `path` is noted as. -/
def FileLoad.entries (path : String) : FileLoad → List Entry
  | .missing => []
  | .refused size => [.fileRefused path size]
  | .loaded size => [.fileLoaded path size]

def Outcome.entries (o : Outcome) : List Entry :=
  (match o.word with
    | some w => [.cycle o.addr w]
    | none => []) ++
  match o.error with
  | some r => [.halted o.addr r.message]
  | none => []

/-- The entries so far that are important enough. -/
structure Journal where
  threshold : Option Level
  entries : Array Entry

namespace Journal

def empty (threshold : Option Level) : Journal := ⟨threshold, #[]⟩

def keeps (j : Journal) (l : Level) : Bool :=
  match j.threshold with
  | none => false
  | some t => t.rank ≤ l.rank

def add (j : Journal) (e : Entry) : Journal :=
  if j.keeps e.level then { j with entries := j.entries.push e } else j

def addAll (j : Journal) (es : List Entry) : Journal := es.foldl add j

/-- The entries so far, and the journal without them. -/
def flush (j : Journal) : List Entry × Journal := (j.entries.toList, { j with entries := #[] })

end Journal

end ChipEight
