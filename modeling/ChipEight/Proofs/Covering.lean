import ChipEight.Proofs.Sprite
import Mathlib.Data.Fintype.Prod
import Mathlib.Data.Fintype.Fin

/-!
# How many pixels a sprite turns on and off

At a point with no negative coordinate, drawing inverts the `covered` pixels and no others
(`draw_inverts`). It turns off those of them that were lit and turns on the rest, so the number of
lit pixels changes by the number of covered ones, less twice the number of those that were lit.
-/

namespace ChipEight.Screen

variable {width height : Int} {s s' : Screen width height}

/-- The row and column of a pixel. -/
abbrev Spot (width height : Int) := Fin height.toNat × Fin width.toNat

/-- The pixels on the screen that the sprite of some rows at (`x`, `y`) covers. -/
def covered (x y : Int) (rows : List Int) : Finset (Spot width height) :=
  Finset.univ.filter fun p => Covers x y rows ((p.2 : Int), (p.1 : Int))

def litSpots (s : Screen width height) : Finset (Spot width height) :=
  Finset.univ.filter fun p => s.lit (cell p.1 p.2) = true

theorem mem_covered {x y : Int} {rows : List Int} {p : Spot width height} :
    p ∈ covered x y rows ↔ Covers x y rows ((p.2 : Int), (p.1 : Int)) := by
  simp [covered]

theorem mem_litSpots {p : Spot width height} : p ∈ s.litSpots ↔ s.lit (cell p.1 p.2) = true := by
  simp [litSpots]

theorem litCount_eq_card (s : Screen width height) :
    s.litCount = (Finset.univ.filter fun c => s.lit c = true).card := by
  have hpixels : s.pixels.toList = List.ofFn s.lit :=
    List.ext_getElem (by simp) fun k _ _ => by simp [lit]
  calc s.litCount = (List.ofFn s.lit).count true := by rw [← hpixels]; simp [litCount]
    _ = (Finset.univ.val.map s.lit).count true := by rw [Fin.univ_val_map, Multiset.coe_count]
    _ = _ := by simp only [Multiset.count_map, Finset.card_def, Finset.filter_val, eq_comm]

/-- Every pixel has one row and one column. -/
theorem card_litSpots (s : Screen width height) : s.litSpots.card = s.litCount := by
  rw [litCount_eq_card]
  refine Finset.card_bij (fun p _ => cell p.1 p.2) (fun p hp => ?_) (fun p _ q _ h => ?_)
    fun d hd => ?_
  · simpa using mem_litSpots.1 hp
  · obtain ⟨hr, hc⟩ := cell_inj.1 h
    exact Prod.ext hr hc
  · obtain ⟨r, c, rfl⟩ := exists_cell d
    exact ⟨(r, c), mem_litSpots.2 (by simpa using hd), rfl⟩

/-- Inverting some pixels turns off those of them that were lit and turns on the rest. -/
theorem litCount_of_inverted {cs : Finset (Spot width height)}
    (h : ∀ p : Spot width height,
      s'.lit (cell p.1 p.2) = (s.lit (cell p.1 p.2) ^^ decide (p ∈ cs))) :
    (s'.litCount : Int) = s.litCount + cs.card - 2 * (cs ∩ s.litSpots).card := by
  have hspots : s'.litSpots = (s.litSpots \ cs) ∪ (cs \ s.litSpots) := by
    ext p
    simp only [Finset.mem_union, Finset.mem_sdiff, mem_litSpots, h]
    by_cases hp : p ∈ cs <;> simp [hp]
  have hdisjoint : Disjoint (s.litSpots \ cs) (cs \ s.litSpots) := disjoint_sdiff_sdiff
  have hkept := Finset.card_sdiff_add_card_inter s.litSpots cs
  have hnew := Finset.card_sdiff_add_card_inter cs s.litSpots
  rw [Finset.inter_comm] at hkept
  rw [← card_litSpots, ← card_litSpots, hspots, Finset.card_union_of_disjoint hdisjoint]
  omega

/-- At a point with no negative coordinate, drawing ends, inverts the covered pixels and no others,
and tells whether one of them was lit. The number of lit pixels changes by that of the covered ones,
less twice that of those which were lit. -/
theorem draw_inverts (s : Screen width height) {x y : Int} (hx : 0 ≤ x) (hy : 0 ≤ y)
    (rows : List Int) :
    ∃ hit, (s.draw x y rows).2 = .ok hit ∧
      (∀ (r : Fin height.toNat) (c : Fin width.toNat), (s.draw x y rows).1.lit (cell r c) =
        (s.lit (cell r c) ^^ decide (Covers x y rows ((c : Int), (r : Int))))) ∧
      (hit = true ↔ ∃ (r : Fin height.toNat) (c : Fin width.toNat),
        Covers x y rows ((c : Int), (r : Int)) ∧ s.lit (cell r c) = true) ∧
      ((s.draw x y rows).1.litCount : Int) =
        s.litCount + (covered x y rows : Finset (Spot width height)).card -
          2 * (covered x y rows ∩ s.litSpots).card := by
  obtain ⟨hit, hok, hiff⟩ := draw_snd hx hy rows s
  refine ⟨hit, hok, lit_draw hx hy rows s, hiff, litCount_of_inverted fun p => ?_⟩
  rw [lit_draw hx hy rows s p.1 p.2, decide_eq_decide.2 mem_covered]

/-- Of a sprite in the corner four pixels are left, one of which was lit. -/
theorem draw_inverts_clipped :
    let s : Screen 4 2 := (blank 4 2).flip (cell ⟨1, by decide⟩ ⟨3, by decide⟩)
    (0 : Int) ≤ 2 ∧ (0 : Int) ≤ 0 ∧ (s.draw 2 0 [-1, 0x1FF, 0x80]).2 = .ok true ∧
      (s.draw 2 0 [-1, 0x1FF, 0x80]).1.litCount = 3 := by
  intro s
  obtain ⟨hit, hok, -, hhit, hcount⟩ :=
    s.draw_inverts (x := 2) (y := 0) (by decide) (by decide) [-1, 0x1FF, 0x80]
  have hlit : hit = true := hhit.2 ⟨⟨1, by decide⟩, ⟨3, by decide⟩, by decide, by decide⟩
  have hcovered : (covered 2 0 [-1, 0x1FF, 0x80] : Finset (Spot 4 2)).card = 4 := by decide
  have hturned : (covered 2 0 [-1, 0x1FF, 0x80] ∩ s.litSpots).card = 1 := by decide
  have hcount₀ : s.litCount = 1 := by decide
  rw [hcovered, hturned, hcount₀] at hcount
  exact ⟨by decide, by decide, hlit ▸ hok, by omega⟩

end ChipEight.Screen
