import ChipEight.Instr
import ChipEight.Memory
import ChipEight.Place

/-!
# Registers

The sixteen general registers, the index, the program counter, the call stack and the two timers.
All of them hold integers. The operations here cut what goes into a general register to a byte, and
the index and the addresses on the stack to sixteen bits; only `Registers.put` and
`Registers.assign?` take any integer.
-/

namespace ChipEight

@[ext] structure Registers where
  v : Vector Int 16
  /-- The index, which points into memory. -/
  i : Int
  pc : Int
  /-- Return addresses, the latest last. -/
  stack : Array Int
  delay : Int
  sound : Int
  /-- How many return addresses there may be, if there is a limit. -/
  depth : Option Int

namespace Registers

/-- Zeros and an empty stack, about to run from `start`. -/
def initial (depth : Option Int) (start : Int) : Registers :=
  ⟨Vector.replicate 16 0, 0, start, #[], 0, 0, depth⟩

variable (r : Registers)

def put (x : Reg) (value : Int) : Registers := { r with v := r.v.set x value }

def setV (x : Reg) (value : Int) : Registers := r.put x (value % 256)

/-- Puts the low byte of an integer into the general register that an index means. -/
def setAt (x value : Int) : Except Misplaced Registers :=
  (fun x => r.setV x value) <$> place 16 x

/-- Puts an integer into the general register that an index means. -/
def assignAt (x value : Int) : Except Misplaced Registers :=
  (fun x => r.put x value) <$> place 16 x

/-- Puts the low byte of an integer into the register of flags. -/
def setFlag (value : Int) : Registers := r.setV .flag value

def setIndex (value : Int) : Registers := { r with i := value % 65536 }

/-- The limit of the stack, if the stack is as deep as it may be. -/
def full? : Option Int := r.depth.filter fun depth => decide (depth ≤ r.stack.size)

/-- Puts the low sixteen bits of an address on the stack. -/
def pushed (addr : Int) : Registers := { r with stack := r.stack.push (addr % 65536) }

def popped : Registers := { r with stack := r.stack.pop }

/-- Puts an address on the stack, if it is not as deep as it may be. -/
def push (addr : Int) : Except Fault Registers :=
  match r.full? with
  | some depth => .error (.stackFull depth)
  | none => .ok (r.pushed addr)

/-- Takes the latest address off the stack, if there is one. -/
def pop : Except Fault (Int × Registers) :=
  match r.stack.back? with
  | none => .error .stackEmpty
  | some addr => .ok (addr, r.popped)

/-- One step of a timer towards zero. -/
def lowered (t : Int) : Int := if 0 < t then t - 1 else t

/-- One step of the timers, of the sound timer only if told so. -/
def tick (withSound : Bool) : Registers :=
  { r with delay := lowered r.delay, sound := if withSound then lowered r.sound else r.sound }

/-- Puts everything but the limit of the stack back to its beginning, about to run from `start`. -/
def reset (start : Int) : Registers := initial r.depth start

end Registers

end ChipEight
