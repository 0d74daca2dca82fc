import ChipEight.Numeral

/-!
# Instruction words

A `Word` holds sixteen bits. Its nibbles are, from the top, the group, `x`, `y` and `n`; the low
twelve bits are the address `nnn` and the low eight the byte `kk`. `ofInt` keeps the low sixteen
bits of an integer of any size and sign.
-/

namespace ChipEight

@[ext] structure Word where
  val : Nat
  isLt : val < 65536
  deriving DecidableEq

namespace Word

def ofInt (z : Int) : Word := ⟨(z % 65536).toNat, by omega⟩

def ofBytes (high low : UInt8) : Word :=
  ⟨256 * high.toNat + low.toNat, by have := high.toNat_lt; have := low.toNat_lt; omega⟩

/-- The word whose high and low byte are the low eight bits of two integers. -/
def ofParts (high low : Int) : Word := ofBytes (UInt8.ofInt high) (UInt8.ofInt low)

variable (w : Word)

def group : Fin 16 := ⟨w.val / 4096, by have := w.isLt; omega⟩

def x : Fin 16 := ⟨w.val / 256 % 16, by omega⟩

def y : Fin 16 := ⟨w.val / 16 % 16, by omega⟩

def n : Fin 16 := ⟨w.val % 16, by omega⟩

def nnn : Fin 4096 := ⟨w.val % 4096, by omega⟩

def kk : UInt8 := UInt8.ofNat (w.val % 256)

def chars : List Char := Numeral.padded 4 w.val

def text : String := String.ofList w.chars

end Word

end ChipEight
