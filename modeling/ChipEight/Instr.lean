import ChipEight.Word

/-!
# Instructions

`Instr` lists what a machine can be told to do, one constructor an operation, with its operands
read out of the word. `Instr.ofWord?` finds the instruction of a word. Nibbles that an operation
does not look at are not kept, so words that differ only there have the same instruction.
-/

namespace ChipEight

/-- The number of a general register. -/
abbrev Reg := Fin 16

namespace Reg

def first : Reg := 0

/-- The register that holds flags. -/
def flag : Reg := 15

end Reg

/-- An address written in an instruction. -/
abbrev Target := Fin 4096

/-- What a machine can be told to do. -/
inductive Instr where
  /-- Turns every pixel off. -/
  | clear
  /-- Goes back to the address on top of the call stack. -/
  | ret
  | jump (t : Target)
  /-- Puts the address of the next instruction on the call stack and jumps. -/
  | call (t : Target)
  | skipIfByte (x : Reg) (k : UInt8)
  | skipUnlessByte (x : Reg) (k : UInt8)
  | skipIfEqual (x y : Reg)
  | loadByte (x : Reg) (k : UInt8)
  | addByte (x : Reg) (k : UInt8)
  | copy (x y : Reg)
  | bitOr (x y : Reg)
  | bitAnd (x y : Reg)
  | bitXor (x y : Reg)
  /-- Adds `y` to `x`; the flag is the carry. -/
  | add (x y : Reg)
  /-- Subtracts `y` from `x`; the flag says that `x` was larger. -/
  | sub (x y : Reg)
  /-- Halves `x`; the flag is the bit shifted out. -/
  | shiftRight (x : Reg)
  /-- Puts `y` less `x` into `x`; the flag says that `y` was larger. -/
  | subFrom (x y : Reg)
  /-- Doubles `x`; the flag is the bit shifted out. -/
  | shiftLeft (x : Reg)
  | skipUnlessEqual (x y : Reg)
  | loadIndex (t : Target)
  /-- Jumps to the sum of an address and register 0. -/
  | jumpOffset (t : Target)
  /-- Puts a random byte, masked, into `x`. -/
  | random (x : Reg) (mask : UInt8)
  /-- Draws the `n` rows at the index at the point (`x`, `y`); the flag says that a pixel went
  off. -/
  | draw (x y : Reg) (n : Fin 16)
  | skipIfKey (x : Reg)
  | skipUnlessKey (x : Reg)
  | readDelay (x : Reg)
  /-- Repeats itself until a key is pressed, and puts that key into `x`. -/
  | awaitKey (x : Reg)
  | setDelay (x : Reg)
  | setSound (x : Reg)
  | addIndex (x : Reg)
  /-- Points the index at the glyph of `x`. -/
  | loadGlyph (x : Reg)
  /-- Stores the three decimal digits of `x` at the index. -/
  | storeDecimal (x : Reg)
  /-- Stores the registers up to `x` at the index. -/
  | store (x : Reg)
  /-- Loads the registers up to `x` from the index. -/
  | load (x : Reg)
  deriving DecidableEq

namespace Instr

/-- The instruction of a word of group 8, by its last nibble. -/
def arithmetic? (w : Word) : Option Instr :=
  match w.n.val with
  | 0x0 => some (copy w.x w.y)
  | 0x1 => some (bitOr w.x w.y)
  | 0x2 => some (bitAnd w.x w.y)
  | 0x3 => some (bitXor w.x w.y)
  | 0x4 => some (add w.x w.y)
  | 0x5 => some (sub w.x w.y)
  | 0x6 => some (shiftRight w.x)
  | 0x7 => some (subFrom w.x w.y)
  | 0xE => some (shiftLeft w.x)
  | _ => none

/-- The instruction of a word of group F, by its low byte. -/
def device? (w : Word) : Option Instr :=
  match w.kk.toNat with
  | 0x07 => some (readDelay w.x)
  | 0x0A => some (awaitKey w.x)
  | 0x15 => some (setDelay w.x)
  | 0x18 => some (setSound w.x)
  | 0x1E => some (addIndex w.x)
  | 0x29 => some (loadGlyph w.x)
  | 0x33 => some (storeDecimal w.x)
  | 0x55 => some (store w.x)
  | 0x65 => some (load w.x)
  | _ => none

/-- The instruction of a word, if it has one. Groups 0 and 8 are told apart by the last nibble, E
and F by the low byte; in the other groups the first nibble says it all. -/
def ofWord? (w : Word) : Option Instr :=
  match w.group.val with
  | 0x0 =>
    match w.n.val with
    | 0x0 => some clear
    | 0xE => some ret
    | _ => none
  | 0x1 => some (jump w.nnn)
  | 0x2 => some (call w.nnn)
  | 0x3 => some (skipIfByte w.x w.kk)
  | 0x4 => some (skipUnlessByte w.x w.kk)
  | 0x5 => some (skipIfEqual w.x w.y)
  | 0x6 => some (loadByte w.x w.kk)
  | 0x7 => some (addByte w.x w.kk)
  | 0x8 => arithmetic? w
  | 0x9 => some (skipUnlessEqual w.x w.y)
  | 0xA => some (loadIndex w.nnn)
  | 0xB => some (jumpOffset w.nnn)
  | 0xC => some (random w.x w.kk)
  | 0xD => some (draw w.x w.y w.n)
  | 0xE =>
    match w.kk.toNat with
    | 0x9E => some (skipIfKey w.x)
    | 0xA1 => some (skipUnlessKey w.x)
    | _ => none
  | _ => device? w

end Instr

end ChipEight
