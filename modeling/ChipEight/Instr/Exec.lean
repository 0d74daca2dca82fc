import ChipEight.Machine
import ChipEight.Screen.Sprite

/-!
# Execution

`Instr.exec` carries out one instruction and tells where to go on: with the next one, or somewhere
else. It leaves the program counter, the ticking of the timers and the key latch alone. A breakdown
comes with the machine as it was left: an instruction that moves several bytes moves those before
the one that cannot be moved, and a sprite is drawn up to the point that has no pixel. There is
always a pixel where general registers hold bytes.
-/

namespace ChipEight

/-- Where to go on after an instruction. -/
inductive Flow where
  | next
  | jump (target : Int)
  deriving DecidableEq

/-- What an instruction does: the machine after it, and where to go on or why not. -/
abbrev Effect := Machine × Except Breakdown Flow

namespace Machine

variable (m : Machine)

def goOn : Effect := (m, .ok .next)

def jump (target : Int) : Effect := (m, .ok (.jump target))

def skipIf (c : Bool) : Effect := if c then m.jump (m.regs.pc + 4) else m.goOn

def fail (f : Fault) : Effect := (m, .error (.fault f))

def finish (f : Option Fault) : Effect :=
  match f with
  | none => m.goOn
  | some f => m.fail f

/-- Sets the flag and then puts a result into a register, which may be that of the flag. -/
def setWithFlag (flag : Bool) (x : Reg) (value : Int) : Machine :=
  (m.setFlag (if flag then 1 else 0)).setV x value

/-- Puts the bits of two registers together, one byte of each, in the first of them. -/
def mixBits (f : UInt8 → UInt8 → UInt8) (x y : Reg) : Machine :=
  m.setV x (f (UInt8.ofInt (m.v x)) (UInt8.ofInt (m.v y))).toNat

def storeAtIndex (bs : List UInt8) : Effect :=
  match m with
  | ⟨regs, mem, screen, keys, source⟩ =>
    match mem.storeRun regs.i bs with
    | (mem, f) => Machine.finish ⟨regs, mem, screen, keys, source⟩ f

/-- Puts bytes into the registers from register `k` on. -/
def setFrom : Nat → List UInt8 → Machine → Machine
  | _, [], m => m
  | k, b :: bs, m => if h : k < 16 then setFrom (k + 1) bs (m.setV ⟨k, h⟩ b.toNat) else m

def loadFromIndex (n : Nat) : Effect :=
  match m.mem.readRun m.regs.i n with
  | (bs, f) => (setFrom 0 bs m).finish f

/-- Draws rows on the screen; the flag tells whether a pixel went off. -/
def drawRows (x y : Reg) (rows : List UInt8) : Effect :=
  match m with
  | ⟨regs, mem, screen, keys, source⟩ =>
    match screen.draw (regs.v.get x) (regs.v.get y) (rows.map fun b => (b.toNat : Int)) with
    | (screen, .ok hit) =>
      Machine.goOn ⟨regs.setFlag (if hit then 1 else 0), mem, screen, keys, source⟩
    | (screen, .error e) => (⟨regs, mem, screen, keys, source⟩, .error (.noPixel e))

def setRandom (x : Reg) (mask : UInt8) : Machine :=
  match m with
  | ⟨regs, mem, screen, keys, source⟩ =>
    match source.byte with
    | (b, source) => ⟨regs.setV x (b &&& mask).toNat, mem, screen, keys, source⟩

end Machine

/-- The hundreds, tens and ones of a number, the low byte of each. -/
def decimalDigits (z : Int) : List UInt8 :=
  [UInt8.ofInt (z / 100), UInt8.ofInt (z / 10 % 10), UInt8.ofInt (z % 10)]

def Instr.exec (i : Instr) (m : Machine) : Effect :=
  match i with
  | clear => { m with screen := m.screen.clear }.goOn
  | ret =>
    match m.regs.stack.back? with
    | none => m.fail .stackEmpty
    | some addr => { m with regs := m.regs.popped }.jump addr
  | jump t => m.jump t.val
  | call t =>
    match m.regs.full? with
    | some depth => m.fail (.stackFull depth)
    | none => { m with regs := m.regs.pushed (m.regs.pc + 2) }.jump t.val
  | skipIfByte x k => m.skipIf (m.v x == k.toNat)
  | skipUnlessByte x k => m.skipIf (m.v x != k.toNat)
  | skipIfEqual x y => m.skipIf (m.v x == m.v y)
  | loadByte x k => (m.setV x k.toNat).goOn
  | addByte x k => (m.setV x (m.v x + k.toNat)).goOn
  | copy x y => (m.setV x (m.v y)).goOn
  | bitOr x y => (m.mixBits (· ||| ·) x y).goOn
  | bitAnd x y => (m.mixBits (· &&& ·) x y).goOn
  | bitXor x y => (m.mixBits (· ^^^ ·) x y).goOn
  | add x y => (m.setWithFlag (255 < m.v x + m.v y) x (m.v x + m.v y)).goOn
  | sub x y => (m.setWithFlag (m.v y < m.v x) x (m.v x - m.v y)).goOn
  | shiftRight x => (m.setWithFlag (m.v x % 2 == 1) x (m.v x / 2)).goOn
  | subFrom x y => (m.setWithFlag (m.v x < m.v y) x (m.v y - m.v x)).goOn
  | shiftLeft x => (m.setWithFlag (128 ≤ m.v x % 256) x (2 * m.v x)).goOn
  | skipUnlessEqual x y => m.skipIf (m.v x != m.v y)
  | loadIndex t => (m.setIndex t.val).goOn
  | jumpOffset t => m.jump (m.v .first + t.val)
  | random x mask => (m.setRandom x mask).goOn
  | draw x y n =>
    match m.mem.readRun m.regs.i n.val with
    | (_, some f) => m.fail f
    | (rows, none) => m.drawRows x y rows
  | skipIfKey x => m.skipIf (m.keys.isKey (m.v x))
  | skipUnlessKey x => m.skipIf (!m.keys.isKey (m.v x))
  | readDelay x => (m.setV x m.regs.delay).goOn
  | awaitKey x => if m.keys.pressed then (m.setV x m.keys.code.toNat).goOn else m.jump m.regs.pc
  | setDelay x => { m with regs := { m.regs with delay := m.v x } }.goOn
  | setSound x => { m with regs := { m.regs with sound := m.v x } }.goOn
  | addIndex x => (m.setIndex (m.regs.i + m.v x)).goOn
  | loadGlyph x => (m.setIndex (Memory.fontStart + Memory.glyphHeight * m.v x)).goOn
  | storeDecimal x => m.storeAtIndex (decimalDigits (m.v x))
  | store x => m.storeAtIndex ((m.regs.v.toList.take (x.val + 1)).map UInt8.ofInt)
  | load x => m.loadFromIndex (x.val + 1)

/-- Carries out the instruction of a word; a word without one is a fault. -/
def Word.exec (w : Word) (m : Machine) : Effect :=
  match Instr.ofWord? w with
  | some i => i.exec m
  | none => m.fail (.undefined w)

end ChipEight
