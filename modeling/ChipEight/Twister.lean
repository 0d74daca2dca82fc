/-!
# A seeded source of random bytes

The Mersenne twister: 624 words of state from which numbers of thirty-two bits are drawn, the state
being renewed whenever all of it has been used. It is seeded with an integer, of whose absolute
value the words of thirty-two bits are mixed into the state one after the other. A random byte is
the top nine bits of a number, drawn again until they are below 256.
-/

namespace ChipEight

/-- The state, and how many of its words have been used. -/
structure Twister where
  state : Vector UInt32 624
  used : Nat

namespace Twister

/-- A word of the state, the positions taken in a circle. -/
def pick (s : Vector UInt32 624) (i : Nat) : UInt32 := s[i % 624]

/-- The state with one word replaced. -/
def put (s : Vector UInt32 624) (i : Nat) (w : UInt32) : Vector UInt32 624 := s.set (i % 624) w

/-- A word folded onto itself, as the seeding mixes it. -/
def folded (w : UInt32) : UInt32 := w ^^^ (w >>> 30)

/-- The state that one word grows into. -/
def grow : Nat → Nat → Vector UInt32 624 → Vector UInt32 624
  | 0, _, s => s
  | n + 1, i, s => grow n (i + 1) (put s i (1812433253 * folded (pick s (i - 1)) + UInt32.ofNat i))

/-- Goes on to the next position, `0` standing for the last word before position `1`. -/
def wrapped (s : Vector UInt32 624) (i : Nat) : Vector UInt32 624 × Nat :=
  if 624 ≤ i then (put s 0 (pick s 623), 1) else (s, i)

/-- Mixes the words of a key into the state, in a circle over both. -/
def mixKey (key : Array UInt32) : Nat → Nat → Nat → Vector UInt32 624 → Vector UInt32 624 × Nat
  | 0, i, _, s => (s, i)
  | n + 1, i, j, s =>
    let w := (pick s i ^^^ (folded (pick s (i - 1)) * 1664525)) + key.getD j 0 + UInt32.ofNat j
    let (s, i) := wrapped (put s i w) (i + 1)
    mixKey key n i (if key.size ≤ j + 1 then 0 else j + 1) s

/-- Mixes the state once more, without a key. -/
def mixPlain : Nat → Nat → Vector UInt32 624 → Vector UInt32 624
  | 0, _, s => s
  | n + 1, i, s =>
    let w := (pick s i ^^^ (folded (pick s (i - 1)) * 1566083941)) - UInt32.ofNat i
    let (s, i) := wrapped (put s i w) (i + 1)
    mixPlain n i s

/-- The words of thirty-two bits of a number, the lowest first; none for zero. -/
def words (n : Nat) : List UInt32 :=
  if n = 0 then [] else UInt32.ofNat (n % 4294967296) :: words (n / 4294967296)

/-- The key that an integer seeds with: the words of its absolute value, or one zero. -/
def key (seed : Int) : Array UInt32 :=
  if seed = 0 then #[0] else (words seed.natAbs).toArray

/-- The source seeded with an integer. -/
def seeded (seed : Int) : Twister :=
  let key := key seed
  let base := grow 623 1 (put (Vector.replicate 624 0) 0 19650218)
  let (s, i) := mixKey key (max 624 key.size) 1 0 base
  ⟨put (mixPlain 623 i s) 0 0x80000000, 624⟩

/-- Renews the words of the state from position `i` on. -/
def renew : Nat → Nat → Vector UInt32 624 → Vector UInt32 624
  | 0, _, s => s
  | n + 1, i, s =>
    let y := (pick s i &&& 0x80000000) ||| (pick s (i + 1) &&& 0x7FFFFFFF)
    let w := pick s (i + 397) ^^^ (y >>> 1) ^^^ (if y &&& 1 = 0 then 0 else 0x9908B0DF)
    renew n (i + 1) (put s i w)

/-- A word of the state as it is given out. -/
def tempered (y : UInt32) : UInt32 :=
  let y := y ^^^ (y >>> 11)
  let y := y ^^^ ((y <<< 7) &&& 0x9D2C5680)
  let y := y ^^^ ((y <<< 15) &&& 0xEFC60000)
  y ^^^ (y >>> 18)

def next (t : Twister) : UInt32 × Twister :=
  if t.used < 624 then (tempered (pick t.state t.used), ⟨t.state, t.used + 1⟩)
  else
    let s := renew 624 0 t.state
    (tempered (pick s 0), ⟨s, 1⟩)

/-- Draws up to `n` times for a byte. -/
def byteWithin : Nat → Twister → UInt8 × Twister
  | 0, t => (0, t)
  | n + 1, t =>
    let (w, t) := t.next
    if w >>> 23 < 256 then ((w >>> 23).toUInt8, t) else byteWithin n t

/-- The next random byte. The top bits of the numbers follow a linear recurrence of degree 19937,
which ones alone do not satisfy. So of 19938 top bits in a row one is zero, and the top nine bits of
that number are below 256. -/
def byte (t : Twister) : UInt8 × Twister := byteWithin 19938 t

end Twister

end ChipEight
