import ChipEight.Machine
import ChipEight.Proofs.Memory

/-!
# The instruction set in natural numbers

What an instruction is meant to do, said a second time without machines: a `Reference.State` gives
the number that stands in every register and at every address, and `Reference.exec` what becomes of
it when a word is carried out that can be. The digits of the word are taken by division. Nothing is
cut to a size but by a remainder that is written out.

`Machine.view` is the state of a machine.
-/

namespace ChipEight

namespace Reference

/-- What stands where, in numbers; zero or dark where a machine has nothing. -/
@[ext] structure State where
  v : Nat → Nat
  i : Nat
  pc : Nat
  /-- Return addresses, the latest first. -/
  stack : List Nat
  depth : Option Int
  delay : Nat
  sound : Nat
  mem : Nat → Nat
  /-- Whether the pixel in a column and a row is lit. -/
  lit : Nat → Nat → Bool
  key : Nat
  pressed : Bool
  source : Twister

namespace State

variable (s : State)

def goto (a : Nat) : State := { s with pc := a }

/-- Goes on with the next instruction, two bytes on. -/
def next : State := s.goto (s.pc + 2)

/-- Leaves out the next instruction if told so. -/
def skipIf (c : Bool) : State := s.goto (s.pc + if c then 4 else 2)

def set (x k : Nat) : State := { s with v := fun r => if r = x then k else s.v r }

/-- Puts a result into a register and a flag into register 15; where they are one the result
stays. -/
def setFlagged (x k flag : Nat) : State :=
  { s with v := fun r => if r = x then k else if r = 15 then flag else s.v r }

/-- Puts numbers at the addresses of a run from the index on. -/
def store (n : Nat) (k : Nat → Nat) : State :=
  { s with mem := fun a => if s.i ≤ a ∧ a < s.i + n then k (a - s.i) else s.mem a }

/-- Puts what stands at a run of addresses from the index on into the registers from 0 on. -/
def load (n : Nat) : State := { s with v := fun r => if r < n then s.mem (s.i + r) else s.v r }

/-- Whether the sprite of `n` rows at the index, put at (`x`, `y`), has a bit over the pixel in
column `c` and row `r` of the screen. -/
def covers (x y n c r : Nat) : Bool :=
  decide (c < 64 ∧ r < 32) && decide ((x ≤ c ∧ c < x + 8) ∧ y ≤ r ∧ r < y + n) &&
    (s.mem (s.i + (r - y))).testBit (7 - (c - x))

/-- Flips what a sprite covers; the flag says whether something lit was covered. -/
def draw (x y n : Nat) : State :=
  let hit :=
    (List.range 64).any fun c => (List.range 32).any fun r => s.covers x y n c r && s.lit c r
  { s with
    v := fun r => if r = 15 then (if hit then 1 else 0) else s.v r
    lit := fun c r => s.lit c r ^^ s.covers x y n c r }

def tick (withSound : Bool) : State :=
  { s with
    delay := s.delay - 1
    sound := if withSound then s.sound - 1 else s.sound
    pressed := false }

end State

open State

/-- What becomes of a state when a word of group 8 is carried out. -/
def arithmetic (w : Nat) (s : State) : State :=
  let x := w / 256 % 16
  let a := s.v x
  let b := s.v (w / 16 % 16)
  match w % 16 with
  | 0x0 => (s.set x b).next
  | 0x1 => (s.set x (a ||| b)).next
  | 0x2 => (s.set x (a &&& b)).next
  | 0x3 => (s.set x (a ^^^ b)).next
  | 0x4 => (s.setFlagged x ((a + b) % 256) (if 255 < a + b then 1 else 0)).next
  | 0x5 => (s.setFlagged x ((a + 256 - b) % 256) (if b < a then 1 else 0)).next
  | 0x6 => (s.setFlagged x (a / 2) (a % 2)).next
  | 0x7 => (s.setFlagged x ((b + 256 - a) % 256) (if a < b then 1 else 0)).next
  | 0xE => (s.setFlagged x (2 * a % 256) (a / 128)).next
  | _ => s

def device (w : Nat) (s : State) : State :=
  let x := w / 256 % 16
  let a := s.v x
  match w % 256 with
  | 0x07 => (s.set x s.delay).next
  | 0x0A => if s.pressed then (s.set x s.key).next else s
  | 0x15 => { s with delay := a }.next
  | 0x18 => { s with sound := a }.next
  | 0x1E => { s with i := (s.i + a) % 65536 }.next
  | 0x29 => { s with i := 0x50 + 5 * a }.next
  | 0x33 =>
    (s.store 3 fun k => if k = 0 then a / 100 else if k = 1 then a / 10 % 10 else a % 10).next
  | 0x55 => (s.store (x + 1) s.v).next
  | 0x65 => (s.load (x + 1)).next
  | _ => s

/-- What becomes of a state when a word is carried out that can be; the timers and the key latch
are left to `State.tick`. -/
def exec (w : Nat) (s : State) : State :=
  let x := w / 256 % 16
  let y := w / 16 % 16
  let nnn := w % 4096
  let kk := w % 256
  match w / 4096 with
  | 0x0 =>
    match w % 16 with
    | 0x0 => { s with lit := fun _ _ => false }.next
    | 0xE => { s with stack := s.stack.tail }.goto (s.stack.headD 0)
    | _ => s
  | 0x1 => s.goto nnn
  | 0x2 => { s with stack := (s.pc + 2) :: s.stack }.goto nnn
  | 0x3 => s.skipIf (s.v x = kk)
  | 0x4 => s.skipIf (s.v x ≠ kk)
  | 0x5 => s.skipIf (s.v x = s.v y)
  | 0x6 => (s.set x kk).next
  | 0x7 => (s.set x ((s.v x + kk) % 256)).next
  | 0x8 => arithmetic w s
  | 0x9 => s.skipIf (s.v x ≠ s.v y)
  | 0xA => { s with i := nnn }.next
  | 0xB => s.goto (s.v 0 + nnn)
  | 0xC => ({ s with source := s.source.byte.2 }.set x (s.source.byte.1.toNat &&& kk)).next
  | 0xD => (s.draw (s.v x) (s.v y) (w % 16)).next
  | 0xE =>
    match kk with
    | 0x9E => s.skipIf (s.key = s.v x)
    | 0xA1 => s.skipIf (s.key ≠ s.v x)
    | _ => s
  | 0xF => device w s
  | _ => s

/-- The word at the program counter, high byte first. -/
def word (s : State) : Nat := 256 * s.mem s.pc + s.mem (s.pc + 1)

/-- What becomes of a state in a cycle that succeeds. -/
def cycle (withSound : Bool) (s : State) : State := (exec (word s) s).tick withSound

end Reference

namespace Machine

/-- What stands where in a machine. -/
def view (m : Machine) : Reference.State where
  v x := if h : x < 16 then (m.v ⟨x, h⟩).toNat else 0
  i := m.regs.i.toNat
  pc := m.regs.pc.toNat
  stack := m.regs.stack.toList.reverse.map Int.toNat
  depth := m.regs.depth
  delay := m.regs.delay.toNat
  sound := m.regs.sound.toNat
  mem a := (m.mem.peek a).toNat
  lit c r := if h : c < 64 ∧ r < 32 then m.screen.lit (Screen.cell ⟨r, h.2⟩ ⟨c, h.1⟩) else false
  key := m.keys.code.toNat
  pressed := m.keys.pressed
  source := m.source

end Machine

end ChipEight
