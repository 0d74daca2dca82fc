import ChipEight.Screen

/-!
# Sprites

A sprite is a list of rows of eight bits, the highest bit on the left. Drawing it flips the pixels
under its set bits in order. Points right of or below the screen are left out; the first point that
has no pixel for another reason ends the drawing. Which pixels are flipped does not depend on which
are lit. A drawing at a point with no negative coordinate never ends early (`Screen.exists_draw`).
-/

namespace ChipEight.Screen

variable {width height : Int}

/-- A bit of an integer, the lowest being number zero. Integers have bits without end, in two's
complement. -/
def bit (z : Int) : Nat → Bool
  | 0 => z % 2 == 1
  | k + 1 => bit (z / 2) k

/-- The points under the set bits of one row at (`x`, `y`), from the highest bit on, without those
right of the screen. -/
def rowPoints (width x y bits : Int) : List (Int × Int) :=
  (List.range 8).filterMap fun (k : Nat) =>
    if x + k < width && bit bits (7 - k) then some (x + k, y) else none

/-- The points under the set bits of a sprite at (`x`, `y`), row by row, without those right of or
below the screen. -/
def spritePoints (width height x : Int) : Int → List Int → List (Int × Int)
  | _, [] => []
  | y, bits :: rows =>
    (if y < height then rowPoints width x y bits else []) ++
      spritePoints width height x (y + 1) rows

/-- Flips the pixels at some points in order, up to the first point that has none. Tells whether a
pixel was turned off, now or before, unless it ended early. -/
def toggleAll : Screen width height → Bool → List (Int × Int) →
    Screen width height × Except Misplaced Bool
  | s, hit, [] => (s, .ok hit)
  | s, hit, p :: ps =>
    match s.toggle p.1 p.2 with
    | (s, .ok off) => toggleAll s (hit || off) ps
    | (s, .error e) => (s, .error e)

/-- Draws a sprite and tells whether that turned a pixel off, unless the drawing ended early. -/
def draw (s : Screen width height) (x y : Int) (rows : List Int) :
    Screen width height × Except Misplaced Bool :=
  s.toggleAll false (spritePoints width height x y rows)

theorem exists_toggleAll (s : Screen width height) (hit : Bool) (ps : List (Int × Int))
    (h : ∀ p ∈ ps, (0 ≤ p.1 ∧ p.1 < width) ∧ 0 ≤ p.2 ∧ p.2 < height) :
    ∃ b, (s.toggleAll hit ps).2 = .ok b := by
  induction ps generalizing s hit with
  | nil => exact ⟨hit, rfl⟩
  | cons p ps ih =>
    obtain ⟨hx, hy⟩ := h p List.mem_cons_self
    obtain ⟨c, hc⟩ := exists_cellAt hx hy
    simp only [toggleAll, toggle, hc]
    exact ih _ _ fun q hq => h q (List.mem_cons_of_mem _ hq)

theorem mem_rowPoints {x y bits : Int} {p : Int × Int} (h : p ∈ rowPoints width x y bits) :
    (x ≤ p.1 ∧ p.1 < width) ∧ p.2 = y := by
  simp only [rowPoints, List.mem_filterMap, List.mem_range] at h
  obtain ⟨k, -, hk⟩ := h
  split at hk
  · next hb =>
    obtain rfl := Option.some.inj hk
    simp only [Bool.and_eq_true, decide_eq_true_eq] at hb
    exact ⟨⟨by omega, hb.1⟩, rfl⟩
  · cases hk

theorem mem_spritePoints {x y : Int} {rows : List Int} {p : Int × Int}
    (h : p ∈ spritePoints width height x y rows) :
    (x ≤ p.1 ∧ p.1 < width) ∧ y ≤ p.2 ∧ p.2 < height := by
  induction rows generalizing y with
  | nil => cases h
  | cons bits rows ih =>
    rcases List.mem_append.1 h with h | h
    · split at h
      · obtain ⟨hx, hy⟩ := mem_rowPoints h
        exact ⟨hx, by omega, by omega⟩
      · cases h
    · obtain ⟨hx, hy⟩ := ih h
      exact ⟨hx, by omega, hy.2⟩

/-- A drawing at a point with no negative coordinate does not end early. -/
theorem exists_draw (s : Screen width height) {x y : Int} (hx : 0 ≤ x) (hy : 0 ≤ y)
    (rows : List Int) : ∃ b, (s.draw x y rows).2 = .ok b :=
  s.exists_toggleAll false _ fun p hp => by
    obtain ⟨h₁, h₂⟩ := mem_spritePoints hp
    exact ⟨⟨by omega, h₁.2⟩, by omega, h₂.2⟩

end ChipEight.Screen
