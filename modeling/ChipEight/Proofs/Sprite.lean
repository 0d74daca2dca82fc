import ChipEight.Screen.Sprite

/-!
# What drawing a sprite does

Drawing flips the pixels of `cellsOf` the sprite's points (`toggleAll_fst`): which pixels those are
does not depend on the screen. Flipping is governed by parity (`lit_flipAll`). At a point with no
negative coordinate every point of the sprite has a pixel of its own, so a pixel is flipped exactly
if the sprite covers it (`lit_draw`), and the drawing tells whether a covered pixel was lit
(`draw_snd`).
-/

namespace ChipEight.Screen

variable {width height : Int} {s : Screen width height}

theorem lit_flip (s : Screen width height) (c d : Cell width height) :
    (s.flip c).lit d = (s.lit d ^^ decide (d = c)) := by
  by_cases h : d = c
  · subst h; simp [lit, flip]
  · have hv : c.val ≠ d.val := fun hv => h (Fin.ext hv.symm)
    simp [lit, flip, h, Vector.getElem_set_ne _ _ hv]

/-- Flips some pixels one after the other. -/
def flipAll (s : Screen width height) (cs : List (Cell width height)) : Screen width height :=
  cs.foldl flip s

@[simp] theorem flipAll_nil (s : Screen width height) : s.flipAll [] = s := rfl

@[simp] theorem flipAll_cons (s : Screen width height) (c : Cell width height) (cs) :
    s.flipAll (c :: cs) = (s.flip c).flipAll cs := rfl

/-- A pixel ends up flipped if it is flipped an odd number of times. -/
theorem lit_flipAll (s : Screen width height) (cs : List (Cell width height)) (d) :
    (s.flipAll cs).lit d = (s.lit d ^^ decide (cs.count d % 2 = 1)) := by
  induction cs generalizing s with
  | nil => simp
  | cons c cs ih =>
    rw [flipAll_cons, ih, lit_flip, Bool.xor_assoc]
    congr 1
    by_cases h : d = c
    · subst h
      rw [List.count_cons_self]
      rcases Nat.mod_two_eq_zero_or_one (cs.count d) with hp | hp
      · have h' : (cs.count d + 1) % 2 = 1 := by omega
        simp [hp, h']
      · have h' : (cs.count d + 1) % 2 = 0 := by omega
        simp [hp, h']
    · rw [List.count_cons_of_ne fun he => h he.symm]
      simp [h]

/-- The pixels of some points, up to the first point that has none. -/
def cellsOf : List (Int × Int) → List (Cell width height)
  | [] => []
  | p :: ps =>
    match cellAt p.1 p.2 with
    | .ok c => c :: cellsOf ps
    | .error _ => []

theorem toggleAll_fst (s : Screen width height) (hit : Bool) (ps : List (Int × Int)) :
    (s.toggleAll hit ps).1 = s.flipAll (cellsOf ps) := by
  induction ps generalizing s hit with
  | nil => rfl
  | cons p ps ih =>
    cases h : (cellAt p.1 p.2 : Except Misplaced (Cell width height)) with
    | ok c => simp only [toggleAll, toggle, cellsOf, h, flipAll_cons]; exact ih _ _
    | error e => simp only [toggleAll, toggle, cellsOf, h, flipAll_nil]

/-! ### Points of the grid -/

/-- Whether a point lies on the screen, with no coordinate counted from the end. -/
def OnGrid (width height : Int) (p : Int × Int) : Prop :=
  (0 ≤ p.1 ∧ p.1 < width) ∧ 0 ≤ p.2 ∧ p.2 < height

theorem cell_inj {r r' : Fin height.toNat} {c c' : Fin width.toNat} :
    cell r c = cell r' c' ↔ r = r' ∧ c = c' := by
  refine ⟨fun h => ?_, fun ⟨hr, hc⟩ => by rw [hr, hc]⟩
  have hv : r.val * width.toNat + c.val = r'.val * width.toNat + c'.val := congrArg Fin.val h
  have hpos : 0 < width.toNat := Nat.lt_of_le_of_lt (Nat.zero_le _) c.isLt
  have hdiv := congrArg (· / width.toNat) hv
  have hmod := congrArg (· % width.toNat) hv
  simp only [Nat.mul_comm _ width.toNat, Nat.mul_add_div hpos, Nat.mul_add_mod,
    Nat.div_eq_of_lt c.isLt, Nat.div_eq_of_lt c'.isLt, Nat.mod_eq_of_lt c.isLt,
    Nat.mod_eq_of_lt c'.isLt] at hdiv hmod
  exact ⟨Fin.ext hdiv, Fin.ext hmod⟩

theorem exists_cell (d : Cell width height) :
    ∃ (r : Fin height.toNat) (c : Fin width.toNat), d = cell r c := by
  have hd := d.isLt
  have hpos : 0 < width.toNat := Nat.pos_of_lt_mul_left hd
  refine ⟨⟨d / width.toNat, (Nat.div_lt_iff_lt_mul hpos).2 hd⟩,
    ⟨d % width.toNat, Nat.mod_lt _ hpos⟩, Fin.ext ?_⟩
  exact (Nat.div_add_mod' d.val width.toNat).symm

theorem cellAt_natCast (r : Fin height.toNat) (c : Fin width.toNat) :
    cellAt (c : Int) (r : Int) = .ok (cell r c) := by
  have hr := r.isLt
  have hc := c.isLt
  rw [cellAt, place_of_nonneg (by omega) (show ((r : Nat) : Int) < height.toNat by omega),
    place_of_nonneg (by omega) (show ((c : Nat) : Int) < width.toNat by omega)]
  rfl

theorem OnGrid.exists_eq {p : Int × Int} (h : OnGrid width height p) :
    ∃ (r : Fin height.toNat) (c : Fin width.toNat), p = ((c : Int), (r : Int)) := by
  obtain ⟨⟨hx₀, hx⟩, hy₀, hy⟩ := h
  exact ⟨⟨p.2.toNat, by omega⟩, ⟨p.1.toNat, by omega⟩, Prod.ext (by simp; omega) (by simp; omega)⟩

theorem cell_mem_cellsOf {ps : List (Int × Int)} (h : ∀ p ∈ ps, OnGrid width height p)
    (r : Fin height.toNat) (c : Fin width.toNat) :
    cell r c ∈ cellsOf ps ↔ ((c : Int), (r : Int)) ∈ ps := by
  induction ps with
  | nil => simp [cellsOf]
  | cons p ps ih =>
    obtain ⟨r', c', rfl⟩ := (h p List.mem_cons_self).exists_eq
    simp only [cellsOf, cellAt_natCast, List.mem_cons, cell_inj, Prod.mk.injEq, Int.natCast_inj,
      Fin.val_inj]
    rw [ih fun q hq => h q (List.mem_cons_of_mem _ hq), and_comm]

theorem nodup_cellsOf {ps : List (Int × Int)} (h : ∀ p ∈ ps, OnGrid width height p)
    (hn : ps.Nodup) : (cellsOf ps : List (Cell width height)).Nodup := by
  induction ps with
  | nil => exact List.nodup_nil
  | cons p ps ih =>
    obtain ⟨hp, hn'⟩ := List.nodup_cons.1 hn
    have hps := fun q hq => h q (List.mem_cons_of_mem _ hq)
    obtain ⟨r, c, rfl⟩ := (h p List.mem_cons_self).exists_eq
    simp only [cellsOf, cellAt_natCast, List.nodup_cons]
    exact ⟨fun hm => hp ((cell_mem_cellsOf hps r c).1 hm), ih hps hn'⟩

/-- Where every point has a pixel of its own, no flip hides another. -/
theorem toggleAll_snd {ps : List (Int × Int)} (h : ∀ p ∈ ps, OnGrid width height p) (hn : ps.Nodup)
    (s : Screen width height) (hit : Bool) :
    (s.toggleAll hit ps).2 = .ok (hit || (cellsOf ps).any s.lit) := by
  induction ps generalizing s hit with
  | nil => simp [toggleAll, cellsOf]
  | cons p ps ih =>
    obtain ⟨hp, hn'⟩ := List.nodup_cons.1 hn
    have hps := fun q hq => h q (List.mem_cons_of_mem _ hq)
    obtain ⟨r, c, rfl⟩ := (h p List.mem_cons_self).exists_eq
    have hc : cell r c ∉ cellsOf ps := fun hm => hp ((cell_mem_cellsOf hps r c).1 hm)
    have hany : (cellsOf ps).any (s.flip (cell r c)).lit = (cellsOf ps).any s.lit := by
      rw [Bool.eq_iff_iff, List.any_eq_true, List.any_eq_true]
      refine exists_congr fun d => and_congr_right fun hd => ?_
      have hne : d ≠ cell r c := fun he => hc (he ▸ hd)
      simp [lit_flip, hne]
    simp only [toggleAll, toggle, cellsOf, cellAt_natCast, List.any_cons]
    rw [ih hps hn', hany, Bool.or_assoc]

/-! ### Sprites -/

theorem bit_natCast (z k : Nat) : bit z k = z.testBit k := by
  induction k generalizing z with
  | zero => rw [bit, Nat.testBit_zero, Bool.eq_iff_iff, beq_iff_eq, decide_eq_true_iff]; omega
  | succ k ih => rw [bit, Nat.testBit_succ, ← ih]; rfl

/-- Whether a set bit of the sprite of some rows at (`x`, `y`) lies on a point. -/
def Covers (x y : Int) (rows : List Int) (p : Int × Int) : Prop :=
  (x ≤ p.1 ∧ p.1 < x + 8) ∧ y ≤ p.2 ∧
    (rows[(p.2 - y).toNat]?.any fun bits => bit bits (7 - (p.1 - x).toNat)) = true

instance (x y : Int) (rows : List Int) (p : Int × Int) : Decidable (Covers x y rows p) :=
  inferInstanceAs (Decidable (_ ∧ _))

theorem mem_rowPoints_iff {x y bits : Int} {p : Int × Int} :
    p ∈ rowPoints width x y bits ↔
      ((x ≤ p.1 ∧ p.1 < x + 8) ∧ p.1 < width) ∧ p.2 = y ∧
        bit bits (7 - (p.1 - x).toNat) = true := by
  simp only [rowPoints, List.mem_filterMap, List.mem_range, Option.ite_none_right_eq_some,
    Option.some.injEq, Bool.and_eq_true, decide_eq_true_eq]
  constructor
  · rintro ⟨k, hk, ⟨hw, hb⟩, rfl⟩
    have hk' : (x + k - x).toNat = k := by omega
    exact ⟨⟨⟨by simp only; omega, by simp only; omega⟩, hw⟩, rfl, by rw [hk']; exact hb⟩
  · rintro ⟨⟨⟨h₁, h₂⟩, hw⟩, rfl, hb⟩
    have hx : x + ((p.1 - x).toNat : Int) = p.1 := by omega
    exact ⟨(p.1 - x).toNat, by omega, ⟨by rw [hx]; exact hw, hb⟩, by rw [hx]⟩

theorem mem_spritePoints_iff {x y : Int} {rows : List Int} {p : Int × Int} :
    p ∈ spritePoints width height x y rows ↔ (p.1 < width ∧ p.2 < height) ∧ Covers x y rows p := by
  induction rows generalizing y with
  | nil => simp [spritePoints, Covers]
  | cons bits rows ih =>
    have htail : Covers x y (bits :: rows) p ↔
        (p.2 = y ∧ (x ≤ p.1 ∧ p.1 < x + 8) ∧ bit bits (7 - (p.1 - x).toNat) = true) ∨
          Covers x (y + 1) rows p := by
      unfold Covers
      rcases Int.lt_trichotomy p.2 y with h | h | h
      · have h₁ : ¬ y ≤ p.2 := by omega
        have h₂ : ¬ y + 1 ≤ p.2 := by omega
        simp only [h₁, h₂, Int.ne_of_lt h, false_and, and_false, or_false]
      · have h₂ : ¬ y + 1 ≤ y := by omega
        simp [h, h₂, and_assoc]
      · have h₁ : (p.2 - y).toNat = (p.2 - (y + 1)).toNat + 1 := by omega
        have h₂ : y ≤ p.2 ↔ y + 1 ≤ p.2 := by omega
        have h₃ : p.2 ≠ y := by omega
        simp only [h₁, h₂, h₃, List.getElem?_cons_succ, false_and, false_or]
    have hhead : p ∈ (if y < height then rowPoints width x y bits else []) ↔
        (p.1 < width ∧ p.2 < height) ∧
          p.2 = y ∧ (x ≤ p.1 ∧ p.1 < x + 8) ∧ bit bits (7 - (p.1 - x).toNat) = true := by
      split
      · next hy =>
        rw [mem_rowPoints_iff]
        constructor
        · rintro ⟨⟨hx, hw⟩, rfl, hb⟩
          exact ⟨⟨hw, hy⟩, rfl, hx, hb⟩
        · rintro ⟨⟨hw, -⟩, rfl, hx, hb⟩
          exact ⟨⟨hx, hw⟩, rfl, hb⟩
      · next hy =>
        simp only [List.not_mem_nil, false_iff]
        rintro ⟨⟨-, hy'⟩, rfl, -⟩
        exact hy hy'
    rw [spritePoints, List.mem_append, ih, hhead, htail, ← and_or_left]

theorem nodup_rowPoints (x y bits : Int) : (rowPoints width x y bits).Nodup := by
  unfold rowPoints
  refine List.Pairwise.filterMap _ (fun k l hkl p hp q hq => ?_) List.nodup_range
  simp only [Option.ite_none_right_eq_some, Option.some.injEq] at hp hq
  obtain ⟨-, rfl⟩ := hp
  obtain ⟨-, rfl⟩ := hq
  intro he
  have hfst : x + (k : Int) = x + (l : Int) := congrArg Prod.fst he
  omega

/-- No point occurs twice: rows differ in their second coordinate, bits of a row in the first. -/
theorem nodup_spritePoints (x y : Int) (rows : List Int) :
    (spritePoints width height x y rows).Nodup := by
  induction rows generalizing y with
  | nil => exact List.nodup_nil
  | cons bits rows ih =>
    refine List.nodup_append.2 ⟨?_, ih (y + 1), fun p hp q hq he => ?_⟩
    · split
      · exact nodup_rowPoints x y bits
      · exact List.nodup_nil
    · have hq' := (mem_spritePoints_iff.1 hq).2.2.1
      split at hp
      · have hp' := (mem_rowPoints_iff.1 hp).2.1
        rw [← he] at hq'
        omega
      · cases hp

section
variable {x y : Int} (hx : 0 ≤ x) (hy : 0 ≤ y) (rows : List Int)
include hx hy

theorem onGrid_of_mem_spritePoints {p : Int × Int} (h : p ∈ spritePoints width height x y rows) :
    OnGrid width height p := by
  obtain ⟨⟨hw, hh⟩, ⟨hx', -⟩, hy', -⟩ := mem_spritePoints_iff.1 h
  exact ⟨⟨by omega, hw⟩, by omega, hh⟩

theorem cell_mem_sprite (r : Fin height.toNat) (c : Fin width.toNat) :
    cell r c ∈ cellsOf (spritePoints width height x y rows) ↔
      Covers x y rows ((c : Int), (r : Int)) := by
  have hr := r.isLt
  have hc := c.isLt
  rw [cell_mem_cellsOf fun p hp => onGrid_of_mem_spritePoints hx hy rows hp, mem_spritePoints_iff]
  exact and_iff_right ⟨by simp only; omega, by simp only; omega⟩

/-- At a point with no negative coordinate, drawing flips exactly the pixels that are covered. -/
theorem lit_draw (s : Screen width height) (r : Fin height.toNat) (c : Fin width.toNat) :
    (s.draw x y rows).1.lit (cell r c) =
      (s.lit (cell r c) ^^ decide (Covers x y rows ((c : Int), (r : Int)))) := by
  have hgrid : ∀ p ∈ spritePoints width height x y rows, OnGrid width height p :=
    fun p hp => onGrid_of_mem_spritePoints hx hy rows hp
  have hn := nodup_cellsOf hgrid (nodup_spritePoints x y rows)
  rw [draw, toggleAll_fst, lit_flipAll, hn.count]
  congr 1
  rw [decide_eq_decide, ← cell_mem_sprite hx hy rows r c]
  split <;> simp [*]

/-- At a point with no negative coordinate, drawing ends and tells whether something lit was
covered. -/
theorem draw_snd (s : Screen width height) :
    ∃ hit, (s.draw x y rows).2 = .ok hit ∧
      (hit = true ↔ ∃ (r : Fin height.toNat) (c : Fin width.toNat),
        Covers x y rows ((c : Int), (r : Int)) ∧ s.lit (cell r c) = true) := by
  have hgrid : ∀ p ∈ spritePoints width height x y rows, OnGrid width height p :=
    fun p hp => onGrid_of_mem_spritePoints hx hy rows hp
  refine ⟨_, toggleAll_snd hgrid (nodup_spritePoints x y rows) s false, ?_⟩
  rw [Bool.false_or, List.any_eq_true]
  constructor
  · rintro ⟨d, hd, hlit⟩
    obtain ⟨r, c, rfl⟩ := exists_cell d
    exact ⟨r, c, (cell_mem_sprite hx hy rows r c).1 hd, hlit⟩
  · rintro ⟨r, c, hcov, hlit⟩
    exact ⟨cell r c, (cell_mem_sprite hx hy rows r c).2 hcov, hlit⟩

end

end ChipEight.Screen
