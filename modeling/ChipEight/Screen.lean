import ChipEight.Extent
import ChipEight.Text

/-!
# Screens

A screen is a grid of pixels that are lit or not, kept row by row. Apart from clearing it, nothing
changes a screen but flipping pixels. A pixel is found by its column and row, each of which may
count from the end.
-/

namespace ChipEight

/-- A screen; one with a size below zero in either direction has no pixels. -/
@[ext] structure Screen (width height : Int) where
  pixels : Vector Bool (height.toNat * width.toNat)

namespace Screen

variable {width height : Int}

def blank (width height : Int) : Screen width height := ⟨Vector.replicate _ false⟩

/-- A blank screen for which there is room. Its width matters only if it has rows, and may then be
below zero. -/
def ofSize (width height : Int) : Except Unmade (Screen width height) :=
  if height ≤ 0 then .ok (blank width height)
  else if ¬ fitsIndex width then .error .oversized
  else if extentLimit ≤ width * height then .error .exhausted
  else .ok (blank width height)

/-- The position of a pixel in the list of all of them. -/
abbrev Cell (width height : Int) := Fin (height.toNat * width.toNat)

/-- The pixel in a given row and column. -/
def cell (r : Fin height.toNat) (c : Fin width.toNat) : Cell width height :=
  ⟨r.val * width.toNat + c.val, by
    have h₁ : r.val * width.toNat + width.toNat ≤ height.toNat * width.toNat := by
      rw [← Nat.succ_mul]; exact Nat.mul_le_mul_right _ r.isLt
    have h₂ := c.isLt
    omega⟩

/-- The pixel that a pair of indices means. The row is looked up first. -/
def cellAt (x y : Int) : Except Misplaced (Cell width height) :=
  match place height.toNat y with
  | .error e => .error e
  | .ok r =>
    match place width.toNat x with
    | .error e => .error e
    | .ok c => .ok (cell r c)

def lit (s : Screen width height) (c : Cell width height) : Bool := s.pixels[c]

def flip (s : Screen width height) (c : Cell width height) : Screen width height :=
  let on := s.pixels[c]
  ⟨s.pixels.set c (!on)⟩

def clear (_ : Screen width height) : Screen width height := blank width height

def get (s : Screen width height) (x y : Int) : Except Misplaced Bool := s.lit <$> cellAt x y

/-- Flips the pixel at a point, if there is one, and tells whether that turned it off. -/
def toggle (s : Screen width height) (x y : Int) : Screen width height × Except Misplaced Bool :=
  match cellAt x y with
  | .ok c =>
    let was := s.lit c
    (s.flip c, .ok was)
  | .error e => (s, .error e)

theorem exists_cellAt {x y : Int} (hx : 0 ≤ x ∧ x < width) (hy : 0 ≤ y ∧ y < height) :
    ∃ c : Cell width height, cellAt x y = .ok c := by
  rw [cellAt, place_of_nonneg hy.1 (show y < height.toNat by omega),
    place_of_nonneg hx.1 (show x < width.toNat by omega)]
  exact ⟨_, rfl⟩

def rows (s : Screen width height) : List (List Bool) :=
  List.ofFn fun r : Fin height.toNat => List.ofFn fun c : Fin width.toNat => s.lit (cell r c)

def litCount (s : Screen width height) : Nat := s.pixels.count true

/-- The rows with `#` for a lit pixel and `.` for another. -/
def picture (s : Screen width height) : List String :=
  s.rows.map fun row => String.ofList (row.map fun b => if b then '#' else '.')

/-- The rows as lines of one text, with given texts for lit and other pixels. -/
def render (s : Screen width height) (on off : Text) : Text :=
  .ofPoints ([.char '\n'].intercalate
    (s.rows.map fun row => row.flatMap fun b => if b then on.points else off.points))

end Screen

end ChipEight
