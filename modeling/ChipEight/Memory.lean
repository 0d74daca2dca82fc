import ChipEight.Extent
import ChipEight.Fault

/-!
# Memory

A `Memory size` holds `size` bytes at the addresses from zero on. Reading and storing a byte checks
the address first. A run of bytes is moved one by one, so one that leaves memory is carried out up
to there. A load is checked as a whole and then cut off at the end of memory.
-/

namespace ChipEight

/-- So many bytes of memory. -/
@[ext] structure Memory (size : Nat) where
  bytes : Vector UInt8 size

namespace Memory

variable {size : Nat}

def blank (size : Nat) : Memory size := ⟨Vector.replicate size 0⟩

/-- Blank memory of a size that is not negative and for which there is room. -/
def ofSize (size : Int) : Except Unmade ((n : Nat) × Memory n) :=
  if ¬ fitsIndex size then .error .oversized
  else if size < 0 then .error .negative
  else if extentLimit ≤ size then .error .exhausted
  else .ok ⟨size.toNat, blank _⟩

def Holds (size : Nat) (a : Int) : Prop := 0 ≤ a ∧ a < size

instance (a : Int) : Decidable (Holds size a) := inferInstanceAs (Decidable (_ ∧ _))

theorem Holds.toNat_lt {a : Int} (h : Holds size a) : a.toNat < size := by
  obtain ⟨h₁, h₂⟩ := h; omega

def read (m : Memory size) (a : Int) : Except Fault UInt8 :=
  if h : Holds size a then
    have := h.toNat_lt
    .ok m.bytes[a.toNat]
  else .error (.badAddress a)

def put (m : Memory size) (a : Int) (h : Holds size a) (b : UInt8) : Memory size :=
  have := h.toNat_lt
  ⟨m.bytes.set a.toNat b⟩

def store (m : Memory size) (a : Int) (b : UInt8) : Except Fault (Memory size) :=
  if h : Holds size a then .ok (m.put a h b) else .error (.badAddress a)

/-- Puts the low byte of an integer at an address. -/
def write (m : Memory size) (a value : Int) : Except Fault (Memory size) :=
  m.store a (UInt8.ofInt value)

/-- The word whose high byte is at an address and whose low byte follows it. -/
def readWord (m : Memory size) (a : Int) : Except Fault Word :=
  if h : 0 ≤ a ∧ a + 1 < size then
    have : a.toNat + 1 < size := by omega
    .ok (.ofBytes m.bytes[a.toNat] m.bytes[a.toNat + 1])
  else .error (.outOfProgram a)

/-- Reads bytes from an address on. Gives those before the first address that is not in memory, and
the fault there. -/
def readRun (m : Memory size) : Int → Nat → List UInt8 × Option Fault
  | _, 0 => ([], none)
  | a, n + 1 =>
    match m.read a with
    | .error f => ([], some f)
    | .ok b =>
      let (bs, f) := m.readRun (a + 1) n
      (b :: bs, f)

/-- Stores bytes from an address on, up to the first address that is not in memory. -/
def storeRun : Memory size → Int → List UInt8 → Memory size × Option Fault
  | m, _, [] => (m, none)
  | m, a, b :: bs =>
    if h : Holds size a then (m.put a h b).storeRun (a + 1) bs else (m, some (.badAddress a))

/-- Puts bytes from `a` on, leaving out those past the end of memory. -/
def place : Memory size → Nat → List UInt8 → Memory size
  | m, _, [] => m
  | m, a, b :: bs => if h : a < size then place ⟨m.bytes.set a b⟩ (a + 1) bs else m

/-- Puts bytes from an address on, cut off at the end of memory, and counts them. -/
def load (m : Memory size) (a : Int) (bs : List UInt8) : Memory size × Except Fault Nat :=
  if Holds size a then (m.place a.toNat bs, .ok (min bs.length (size - a.toNat)))
  else (m, .error (.badAddress a))

/-- Why integers cannot be loaded as bytes. -/
inductive LoadError where
  | fault (f : Fault)
  /-- Some value does not fit into a byte. -/
  | notByte
  deriving DecidableEq

/-- Loads integers as bytes. One that is no byte stops the load before it begins, even where it
would have been cut off. -/
def loadInts (m : Memory size) (a : Int) (zs : List Int) : Memory size × Except LoadError Nat :=
  if ¬ Holds size a then (m, .error (.fault (.badAddress a)))
  else if zs.all fun z => 0 ≤ z && z < 256 then
    match m.load a (zs.map UInt8.ofInt) with
    | (m, .ok n) => (m, .ok n)
    | (m, .error f) => (m, .error (.fault f))
  else (m, .error .notByte)

/-- The end of a copy of `length` bytes from `a` on: a negative end counts from the end of memory,
and no end lies outside of it. -/
def copyEnd (size : Nat) (a length : Int) : Nat :=
  let stop := a + length
  min (if stop < 0 then stop + size else stop).toNat size

/-- A copy of `length` bytes from an address on, cut off at the end of memory. -/
def copy (m : Memory size) (a length : Int) : Except Fault (List UInt8) :=
  if Holds size a then .ok ((m.bytes.toList.take (copyEnd size a length)).drop a.toNat)
  else .error (.badAddress a)

def fontStart : Nat := 0x050

def programStart : Nat := 0x200

def glyphHeight : Nat := 5

/-- The glyphs of the sixteen digits, in the high half of their rows. -/
def font : List UInt8 :=
  [0xF0, 0x90, 0x90, 0x90, 0xF0,
   0x20, 0x60, 0x20, 0x20, 0x70,
   0xF0, 0x10, 0xF0, 0x80, 0xF0,
   0xF0, 0x10, 0xF0, 0x10, 0xF0,
   0x90, 0x90, 0xF0, 0x10, 0x10,
   0xF0, 0x80, 0xF0, 0x10, 0xF0,
   0xF0, 0x80, 0xF0, 0x90, 0xF0,
   0xF0, 0x10, 0x20, 0x40, 0x40,
   0xF0, 0x90, 0xF0, 0x90, 0xF0,
   0xF0, 0x90, 0xF0, 0x10, 0xF0,
   0xF0, 0x90, 0xF0, 0x90, 0x90,
   0xE0, 0x90, 0xE0, 0x90, 0xE0,
   0xF0, 0x80, 0x80, 0x80, 0xF0,
   0xE0, 0x90, 0x90, 0x90, 0xE0,
   0xF0, 0x80, 0xF0, 0x80, 0xF0,
   0xF0, 0x80, 0xF0, 0x80, 0x80]

def loadFont (m : Memory size) : Memory size × Except Fault Nat := m.load fontStart font

def clear (_ : Memory size) : Memory size := blank size

def toList (m : Memory size) : List UInt8 := m.bytes.toList

end Memory

end ChipEight
