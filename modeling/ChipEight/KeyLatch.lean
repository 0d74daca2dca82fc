/-!
# The key latch

The latch holds the code of the latest key and whether it is pressed. It does not tell keys apart
that are held down together.
-/

namespace ChipEight

@[ext] structure KeyLatch where
  code : UInt8
  pressed : Bool
  deriving DecidableEq

namespace KeyLatch

def initial : KeyLatch := ⟨0, false⟩

variable (k : KeyLatch)

/-- Latches the low byte of a key's code. -/
def setCode (code : Int) : KeyLatch := { k with code := UInt8.ofInt code }

def setPressed (pressed : Bool) : KeyLatch := { k with pressed }

def press (code : Int) : KeyLatch := (k.setCode code).setPressed true

def release : KeyLatch := k.setPressed false

def isKey (code : Int) : Bool := (k.code.toNat : Int) == code

end KeyLatch

end ChipEight
