import ChipEight.KeyLatch
import ChipEight.Registers
import ChipEight.Screen
import ChipEight.Twister

/-!
# Machines

A machine is made of registers, 4096 bytes of memory, a screen of 64 by 32 pixels, a key latch and a
source of random bytes. `Machine.powerOn` takes all but the source back to where it began. Programs
are loaded after the first 512 bytes, from bytes at hand or from a file; one that is too long is cut
off in the first case and refused in the second.
-/

namespace ChipEight

abbrev memorySize : Nat := 4096

/-- The size in bytes that memory has for programs. -/
abbrev programRoom : Nat := memorySize - Memory.programStart

/-- The state of a machine between two instructions. -/
@[ext] structure Machine where
  regs : Registers
  mem : Memory memorySize
  screen : Screen 64 32
  keys : KeyLatch
  source : Twister

structure Snapshot where
  regs : Registers
  mem : Memory memorySize

/-- How many bytes of a program are written when it is loaded, and how many it has. -/
structure RomLoad where
  written : Nat
  total : Nat

def RomLoad.of (rom : List UInt8) : RomLoad := ⟨min rom.length programRoom, rom.length⟩

/-- What comes of loading a file. -/
inductive FileLoad where
  /-- There is no such file. -/
  | missing
  /-- The file is too large, and nothing is loaded. -/
  | refused (size : Nat)
  | loaded (size : Nat)

/-- A file is accepted if it leaves at least one byte of memory free. -/
def FileLoad.of : Option (List UInt8) → FileLoad
  | none => missing
  | some rom =>
    if memorySize ≤ rom.length + Memory.programStart then refused rom.length else loaded rom.length

namespace Machine

/-- Puts everything back to its beginning and the glyphs into memory; the limit of the stack and the
source of random bytes stay. -/
def powerOn (m : Machine) : Machine :=
  { regs := m.regs.reset Memory.programStart
    mem := m.mem.clear.loadFont.1
    screen := m.screen.clear
    keys := .initial
    source := m.source }

/-- A machine with the given limit of the stack and seed; the default seed is zero. -/
def new (depth : Option Int) (seed : Option Int) : Machine :=
  powerOn
    { regs := .initial depth Memory.programStart
      mem := .blank _
      screen := .blank _ _
      keys := .initial
      source := .seeded (seed.getD 0) }

def fetch (m : Machine) : Except Fault Word := m.mem.readWord m.regs.pc

def snapshot (m : Machine) : Snapshot := ⟨m.regs, m.mem⟩

/-- Puts a program in its place, cut off at the end of memory. -/
def loadRom (m : Machine) (rom : List UInt8) : Machine :=
  { m with mem := m.mem.place Memory.programStart rom }

/-- Puts the program that a file holds in its place, if there is such a file and it is accepted. -/
def loadFile (m : Machine) (file : Option (List UInt8)) : Machine :=
  match FileLoad.of file, file with
  | .loaded _, some rom => m.loadRom rom
  | _, _ => m

/-! ## The state that instructions work on -/

def v (m : Machine) (x : Reg) : Int := m.regs.v.get x

def setV (m : Machine) (x : Reg) (value : Int) : Machine := { m with regs := m.regs.setV x value }

def setFlag (m : Machine) (value : Int) : Machine := { m with regs := m.regs.setFlag value }

def setIndex (m : Machine) (value : Int) : Machine := { m with regs := m.regs.setIndex value }

end Machine

end ChipEight
