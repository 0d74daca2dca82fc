import ChipEight.Place
import ChipEight.Word

/-!
# Faults

`Fault` lists the reasons why an instruction cannot be carried out. Every reason has a kind, and the
kinds form a tree: `Kind.ancestors` is the way from a kind to the root. A `Report` is what a host
gets to see of a fault: its kind, a message, and where it happened.
-/

namespace ChipEight

/-- Why an instruction cannot be carried out. -/
inductive Fault where
  /-- The two bytes at the address are not both in memory. -/
  | outOfProgram (addr : Int)
  /-- The word has no instruction. -/
  | undefined (w : Word)
  /-- A call finds the stack as deep as it may be. -/
  | stackFull (depth : Int)
  /-- A return finds the stack empty. -/
  | stackEmpty
  /-- The address is not in memory. -/
  | badAddress (addr : Int)
  deriving DecidableEq

namespace Fault

/-- The tree of kinds under which faults are reported. -/
inductive Kind where
  | any
  | runtime
  | fatalDecode
  | outOfProgram
  | undefined
  | stack
  | stackFull
  | stackEmpty
  | badAddress
  deriving DecidableEq

namespace Kind

def name : Kind → String
  | any => "Chip8Error"
  | runtime => "Chip8RuntimeError"
  | fatalDecode => "FatalDecodeError"
  | outOfProgram => "ProgramCounterOutOfBounds"
  | undefined => "UnknownOpcode"
  | stack => "StackError"
  | stackFull => "StackOverflow"
  | stackEmpty => "StackUnderflow"
  | badAddress => "MemoryAccessError"

/-- A kind and those above it, up to the root. -/
def ancestors : Kind → List Kind
  | any => [any]
  | runtime => [runtime, any]
  | fatalDecode => [fatalDecode, runtime, any]
  | outOfProgram => [outOfProgram, fatalDecode, runtime, any]
  | undefined => [undefined, fatalDecode, runtime, any]
  | stack => [stack, runtime, any]
  | stackFull => [stackFull, stack, runtime, any]
  | stackEmpty => [stackEmpty, stack, runtime, any]
  | badAddress => [badAddress, runtime, any]

def all : List Kind :=
  [any, runtime, fatalDecode, outOfProgram, undefined, stack, stackFull, stackEmpty, badAddress]

def ofName? (s : String) : Option Kind := all.find? fun k => k.name == s

end Kind

def kind : Fault → Kind
  | outOfProgram _ => .outOfProgram
  | undefined _ => .undefined
  | stackFull _ => .stackFull
  | stackEmpty => .stackEmpty
  | badAddress _ => .badAddress

def message : Fault → String
  | outOfProgram addr => "Out of bounds of memory. PC = " ++ String.ofList (Numeral.hex 4 addr)
  | undefined w => "Unknown command " ++ w.text
  | stackFull depth => "Call stack overflow (depth " ++ toString depth ++ ")"
  | stackEmpty => "Return with empty call stack"
  | badAddress addr => "Memory address out of range: 0x" ++ String.ofList (Numeral.hex 1 addr)

end Fault

/-- Why an instruction is not carried out to its end. -/
inductive Breakdown where
  | fault (f : Fault)
  /-- A sprite has a point that has no pixel, and is not just right of or below the screen. There is
  no report of that. -/
  | noPixel (m : Misplaced)
  deriving DecidableEq

/-- What a host is told about a fault. -/
@[ext] structure Report where
  kind : Fault.Kind
  message : String
  pc : Int
  opcode : Option String
  deriving DecidableEq

namespace Fault

/-- The report of a fault in the cycle that began at `addr` and fetched `w`, if it got that far. -/
def inCycle (f : Fault) (addr : Int) (w : Option Word) : Report :=
  ⟨f.kind, f.message, addr, w.map Word.text⟩

/-- The report of a fault outside a cycle, with the program counter at `pc`. A bad address says
nothing about the place, and a word is named only where it is itself the reason. -/
def atPoint (f : Fault) (pc : Int) : Report :=
  match f with
  | outOfProgram addr => ⟨f.kind, f.message, addr, none⟩
  | undefined w => ⟨f.kind, f.message, pc, some w.text⟩
  | stackFull _ => ⟨f.kind, f.message, pc, none⟩
  | stackEmpty => ⟨f.kind, f.message, pc, none⟩
  | badAddress _ => ⟨f.kind, f.message, 0, none⟩

end Fault

end ChipEight
