import ChipEight.Instr.Exec

/-!
# Emulators

An emulator is a machine together with the flags and counters of its execution. `Emulator.cycle`
fetches one word and carries it out. If that succeeds, the program counter moves on, the timers tick
and the step is counted; if there is a fault, the emulator halts and keeps the report. In any case
the key is released.
-/

namespace ChipEight

namespace Machine

/-- Fetches the word at an address and carries it out. Gives the word, if it was fetched, and what
came of it. -/
def attempt (m : Machine) (addr : Int) : Machine × Option Word × Except Breakdown Flow :=
  match m.mem.readWord addr with
  | .error f => (m, none, .error (.fault f))
  | .ok w =>
    match w.exec m with
    | (m, r) => (m, some w, r)

/-- The address where the next cycle begins, in sixteen bits. -/
def nextPc (pc : Int) : Flow → Int
  | .next => (pc + 2) % 65536
  | .jump target => target % 65536

def releaseKey (m : Machine) : Machine := { m with keys := m.keys.release }

/-- Ends a successful cycle: moves the program counter, ticks the timers and releases the key. -/
def advance (m : Machine) (flow : Flow) (withSound : Bool) : Machine :=
  { m with
    regs := { m.regs with pc := nextPc m.regs.pc flow }.tick withSound
    keys := m.keys.release }

end Machine

/-- How an emulator is set up and how a batch run is carried out. -/
structure Options where
  clockHz : Int := 500
  stackDepth : Option Int := some 16
  decrementSound : Bool := true
  seed : Option Int := none
  maxSteps : Int := 10000
  trace : Bool := false

structure Emulator where
  machine : Machine
  running : Bool
  halted : Bool
  /-- The cycles that have succeeded since the machine was last switched on. -/
  steps : Nat
  clockHz : Int
  lastError : Option Report
  /-- Whether the sound timer ticks. -/
  decrementSound : Bool

inductive Ending where
  | done
  | failed (r : Report)
  /-- The cycle broke down without a report, at a point that has no pixel. -/
  | broken (m : Misplaced)

/-- What came of a cycle: the number of steps after it, the address it began at, the word it
fetched, and how it ended. -/
structure Outcome where
  step : Nat
  addr : Int
  word : Option Word
  ending : Ending

def Outcome.error (o : Outcome) : Option Report :=
  match o.ending with
  | .failed r => some r
  | _ => none

inductive Status where
  | halted
  | running
  | paused
  deriving DecidableEq

def Status.name : Status → String
  | halted => "halted"
  | running => "running"
  | paused => "paused"

namespace Emulator

/-- A paused emulator with a new machine. A frequency that is not positive counts as 500. -/
def new (o : Options) : Emulator where
  machine := .new o.stackDepth o.seed
  running := false
  halted := false
  steps := 0
  clockHz := if 0 < o.clockHz then o.clockHz else 500
  lastError := none
  decrementSound := o.decrementSound

variable (e : Emulator)

def status : Status :=
  if e.halted then .halted else if e.running then .running else .paused

/-- Switches the machine off and on; whether the emulator runs, and how fast, stays. -/
def powerOn : Emulator :=
  { e with machine := e.machine.powerOn, halted := false, steps := 0, lastError := none }

def withMachine (f : Machine → Machine) : Emulator :=
  match e with
  | ⟨m, running, halted, steps, clockHz, lastError, decrementSound⟩ =>
    ⟨f m, running, halted, steps, clockHz, lastError, decrementSound⟩

def withKeys (f : KeyLatch → KeyLatch) : Emulator :=
  e.withMachine fun m => { m with keys := f m.keys }

/-- Puts a program in its place, cut off at the end of memory. -/
def loadRom (rom : List UInt8) : Emulator := e.withMachine (·.loadRom rom)

/-- Puts the program that a file holds in its place, if there is such a file and it is accepted. -/
def loadFile (file : Option (List UInt8)) : Emulator := e.withMachine (·.loadFile file)

def start : Emulator := { e with halted := false, running := true }

def pause : Emulator := { e with running := false }

def setClock (hz : Int) : Emulator := if hz ≤ 0 then e else { e with clockHz := hz }

def cycle : Emulator × Outcome :=
  match e with
  | ⟨m, running, halted, steps, clockHz, lastError, decrementSound⟩ =>
    let addr := m.regs.pc
    match m.attempt addr with
    | (m, w, .ok flow) =>
      (⟨m.advance flow decrementSound, running, halted, steps + 1, clockHz, lastError,
          decrementSound⟩,
        ⟨steps + 1, addr, w, .done⟩)
    | (m, w, .error (.fault f)) =>
      let r := f.inCycle addr w
      (⟨m.releaseKey, false, true, steps, clockHz, some r, decrementSound⟩,
        ⟨steps, addr, w, .failed r⟩)
    | (m, w, .error (.noPixel e)) =>
      (⟨m.releaseKey, running, halted, steps, clockHz, lastError, decrementSound⟩,
        ⟨steps, addr, w, .broken e⟩)

end Emulator

end ChipEight
