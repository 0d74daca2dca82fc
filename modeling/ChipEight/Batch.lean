import ChipEight.Session

/-!
# Batch runs

`Batch.run` runs a program on a new machine for a number of cycles or up to the first that fails,
and keeps, if told so, a trace of the cycles that succeeded.
-/

namespace ChipEight

structure RunResult where
  steps : Nat
  regs : Registers
  /-- The screen's rows as text. -/
  frame : List String
  trace : List Outcome
  error : Option Report

namespace Batch

/-- Runs up to `n` cycles, up to the first that does not succeed. -/
def loop (traced : Bool) : Nat → Emulator → Journal → Array Outcome →
    Emulator × Journal × Array Outcome × Option Report
  | 0, e, j, trace => (e, j, trace, none)
  | n + 1, e, j, trace =>
    let (e, o) := e.cycle
    let j := j.addAll o.entries
    match o.ending with
    | .done => loop traced n e j (if traced then trace.push o else trace)
    | .failed r => (e, j, trace, some r)
    | .broken _ => (e, j, trace, none)

/-- Runs a program for a number of cycles, by default the most that the options allow. A number
below zero runs none. -/
def run (rom : List UInt8) (steps : Option Int) (o : Options) (j : Journal) : RunResult × Journal :=
  let e := (Emulator.new o).loadRom rom
  let j := j.addAll (RomLoad.of rom).entries
  let (e, j, trace, error) := loop o.trace (steps.getD o.maxSteps).toNat e j #[]
  (⟨e.steps, e.machine.regs, e.machine.screen.picture, trace.toList, error⟩, j)

end Batch

end ChipEight
