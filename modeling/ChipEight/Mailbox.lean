/-!
# Mailboxes

A mailbox keeps what is put into it until it is emptied. One with a positive capacity holds no more
than that, and makes room by dropping the oldest.

All of that can be done with two operations on single things: one that puts something in if there is
room, and one that takes out the oldest if there is any. To put something in for sure is to insist
on it, and to empty the mailbox is to take out all there is.
-/

namespace ChipEight

/-- What has been put in since the mailbox was last emptied. -/
structure Mailbox (α : Type) where
  capacity : Int
  /-- The oldest first. -/
  items : Array α

namespace Mailbox

variable {α : Type}

def empty (capacity : Int) : Mailbox α := ⟨capacity, #[]⟩

def isFull (b : Mailbox α) : Bool := 0 < b.capacity && b.capacity ≤ b.items.size

/-- Puts something in, after all the rest. -/
def put (b : Mailbox α) (a : α) : Mailbox α :=
  if b.isFull then { b with items := (b.items.extract 1 b.items.size).push a }
  else { b with items := b.items.push a }

/-- All that is in, the oldest first, and the mailbox without it. -/
def drain (b : Mailbox α) : List α × Mailbox α := (b.items.toList, { b with items := #[] })

/-! ## One by one -/

/-- Puts something in if there is room for it. -/
def offer? (b : Mailbox α) (a : α) : Option (Mailbox α) :=
  if b.isFull then none else some { b with items := b.items.push a }

/-- Takes out the oldest, if there is one. -/
def take? (b : Mailbox α) : Option (α × Mailbox α) :=
  b.items[0]?.map fun a => (a, { b with items := b.items.extract 1 b.items.size })

theorem size_lt_of_take? {b b' : Mailbox α} {a : α} (h : b.take? = some (a, b')) :
    b'.items.size < b.items.size := by
  obtain ⟨_, ha, heq⟩ := Option.map_eq_some_iff.1 h
  obtain ⟨hpos, -⟩ := Array.getElem?_eq_some_iff.1 ha
  cases heq
  rw [Array.size_extract]
  omega

/-- Offers something until it is accepted, and takes out the oldest each time it is refused. Gives
what has been taken out. Where there is nothing to take out either, this would go on for ever, and
gives nothing. -/
def insist? (b : Mailbox α) (a : α) : Option (List α × Mailbox α) :=
  match b.offer? a with
  | some b => some ([], b)
  | none =>
    match _h : b.take? with
    | some (d, b') => (b'.insist? a).map fun (ds, b'') => (d :: ds, b'')
    | none => none
termination_by b.items.size
decreasing_by exact size_lt_of_take? ‹_›

/-- Takes out the oldest until there is none. -/
def takeAll (b : Mailbox α) : List α × Mailbox α :=
  match _h : b.take? with
  | some (a, b') =>
    match b'.takeAll with
    | (as, b'') => (a :: as, b'')
  | none => ([], b)
termination_by b.items.size
decreasing_by exact size_lt_of_take? ‹_›

end Mailbox

end ChipEight
