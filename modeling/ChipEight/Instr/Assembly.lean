import ChipEight.Instr

/-!
# Assembly lines

The assembly line of an instruction is an operation name and a list of operands. `Assembly.chars`
writes it: the name, a blank, and the operands set apart by a comma and a blank. A word that has no
instruction is written as three question marks and its digits.
-/

namespace ChipEight

/-- What an operation can be applied to, as it is written. -/
inductive Operand where
  | reg (x : Reg)
  | byte (k : UInt8)
  | target (t : Target)
  /-- A row count, in decimal. -/
  | count (n : Fin 16)
  | index
  /-- The memory that the index points at. -/
  | atIndex
  | delay
  | sound
  | key
  | glyph
  | decimal

namespace Operand

def chars : Operand → List Char
  | reg x => 'V' :: Numeral.padded 1 x.val
  | byte k => '0' :: 'x' :: Numeral.padded 2 k.toNat
  | target t => '0' :: 'x' :: Numeral.padded 3 t.val
  | count n => if n.val < 10 then [Numeral.digit n.val] else ['1', Numeral.digit (n.val - 10)]
  | index => ['I']
  | atIndex => ['[', 'I', ']']
  | delay => ['D', 'T']
  | sound => ['S', 'T']
  | key => ['K']
  | glyph => ['F']
  | decimal => ['B']

end Operand

/-- A line of assembly: the operation and what it is applied to. -/
structure Assembly where
  name : String
  operands : List Operand

namespace Assembly

/-- Operands with a comma and a blank between them. -/
def operandChars : List Operand → List Char
  | [] => []
  | [o] => o.chars
  | o :: os => o.chars ++ ',' :: ' ' :: operandChars os

def chars (a : Assembly) : List Char :=
  match a.operands with
  | [] => a.name.toList
  | os => a.name.toList ++ ' ' :: operandChars os

end Assembly

open Operand in
def Instr.assembly : Instr → Assembly
  | clear => ⟨"CLS", []⟩
  | ret => ⟨"RET", []⟩
  | jump t => ⟨"JP", [target t]⟩
  | call t => ⟨"CALL", [target t]⟩
  | skipIfByte x k => ⟨"SE", [reg x, byte k]⟩
  | skipUnlessByte x k => ⟨"SNE", [reg x, byte k]⟩
  | skipIfEqual x y => ⟨"SE", [reg x, reg y]⟩
  | loadByte x k => ⟨"LD", [reg x, byte k]⟩
  | addByte x k => ⟨"ADD", [reg x, byte k]⟩
  | copy x y => ⟨"LD", [reg x, reg y]⟩
  | bitOr x y => ⟨"OR", [reg x, reg y]⟩
  | bitAnd x y => ⟨"AND", [reg x, reg y]⟩
  | bitXor x y => ⟨"XOR", [reg x, reg y]⟩
  | add x y => ⟨"ADD", [reg x, reg y]⟩
  | sub x y => ⟨"SUB", [reg x, reg y]⟩
  | shiftRight x => ⟨"SHR", [reg x]⟩
  | subFrom x y => ⟨"SUBN", [reg x, reg y]⟩
  | shiftLeft x => ⟨"SHL", [reg x]⟩
  | skipUnlessEqual x y => ⟨"SNE", [reg x, reg y]⟩
  | loadIndex t => ⟨"LD", [index, target t]⟩
  | jumpOffset t => ⟨"JP", [reg .first, target t]⟩
  | random x mask => ⟨"RND", [reg x, byte mask]⟩
  | draw x y n => ⟨"DRW", [reg x, reg y, count n]⟩
  | skipIfKey x => ⟨"SKP", [reg x]⟩
  | skipUnlessKey x => ⟨"SKNP", [reg x]⟩
  | readDelay x => ⟨"LD", [reg x, delay]⟩
  | awaitKey x => ⟨"LD", [reg x, key]⟩
  | setDelay x => ⟨"LD", [delay, reg x]⟩
  | setSound x => ⟨"LD", [sound, reg x]⟩
  | addIndex x => ⟨"ADD", [index, reg x]⟩
  | loadGlyph x => ⟨"LD", [glyph, reg x]⟩
  | storeDecimal x => ⟨"LD", [decimal, reg x]⟩
  | store x => ⟨"LD", [atIndex, reg x]⟩
  | load x => ⟨"LD", [reg x, atIndex]⟩

namespace Word

/-- What a word says: the assembly line of its instruction, or question marks and its digits. -/
def describe (w : Word) : List Char :=
  match Instr.ofWord? w with
  | some i => i.assembly.chars
  | none => '?' :: '?' :: '?' :: ' ' :: '0' :: 'x' :: w.chars

def description (w : Word) : String := String.ofList w.describe

end Word

end ChipEight
