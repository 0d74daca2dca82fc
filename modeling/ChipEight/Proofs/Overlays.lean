import ChipEight.Proofs.Sprite

/-!
# Drawing many sprites

Some sprites may be drawn in any order, wherever they are and also where some of the drawings end
early: the screen is the same afterwards, and the same drawings end early for the same reasons.
Drawing all of them again, in any order, brings the screen back (`drawAll_perm`). Both come from
one equation (`drawAll_eq`): which pixels a drawing flips, and where it ends, does not depend on the
screen, and a pixel that is flipped twice is as it was.
-/

namespace ChipEight

/-- A sprite and the point where it is to be drawn. -/
structure Drawing where
  x : Int
  y : Int
  rows : List Int
  deriving DecidableEq

namespace Screen

variable {width height : Int} {s s' : Screen width height}

/-- Draws sprites one after the other. Gives the drawings that ended early, with the reasons. -/
def drawAll : Screen width height → List Drawing →
    Screen width height × List (Drawing × Misplaced)
  | s, [] => (s, [])
  | s, d :: ds =>
    match s.draw d.x d.y d.rows with
    | (s, .ok _) => s.drawAll ds
    | (s, .error e) =>
      let (s, es) := s.drawAll ds
      (s, (d, e) :: es)

/-! ### Flips -/

theorem ext_lit (h : ∀ c, s.lit c = s'.lit c) : s = s' :=
  Screen.ext (Vector.ext fun k hk => h ⟨k, hk⟩)

theorem flipAll_append (s : Screen width height) (cs ds : List (Cell width height)) :
    s.flipAll (cs ++ ds) = (s.flipAll cs).flipAll ds :=
  List.foldl_append

/-- The order of flips does not matter. -/
theorem flipAll_perm {cs ds : List (Cell width height)} (h : cs.Perm ds)
    (s : Screen width height) : s.flipAll cs = s.flipAll ds :=
  ext_lit fun c => by rw [lit_flipAll, lit_flipAll, h.count_eq]

/-- Flips that are all made again are undone. -/
theorem flipAll_flipAll_perm {cs ds : List (Cell width height)} (h : cs.Perm ds)
    (s : Screen width height) : (s.flipAll cs).flipAll ds = s := by
  refine ext_lit fun c => ?_
  have heven : ¬ (cs ++ ds).count c % 2 = 1 := by
    rw [List.count_append, ← h.count_eq]
    omega
  rw [← flipAll_append, lit_flipAll, decide_eq_false heven, Bool.xor_false]

/-! ### Drawings -/

/-- Why flipping the pixels at some points in order ends early, if it does. -/
def misplaced? (width height : Int) : List (Int × Int) → Option Misplaced
  | [] => none
  | p :: ps =>
    match (cellAt p.1 p.2 : Except Misplaced (Cell width height)) with
    | .ok _ => misplaced? width height ps
    | .error e => some e

theorem toggleAll_eq_error_iff {ps : List (Int × Int)} {e : Misplaced} (s : Screen width height)
    (hit : Bool) : (s.toggleAll hit ps).2 = .error e ↔ misplaced? width height ps = some e := by
  induction ps generalizing s hit with
  | nil => exact iff_of_false nofun nofun
  | cons p ps ih =>
    cases hc : (cellAt p.1 p.2 : Except Misplaced (Cell width height)) with
    | ok c => simp only [toggleAll, toggle, misplaced?, hc, ih]
    | error e' =>
      simp only [toggleAll, toggle, misplaced?, hc, Except.error.injEq, Option.some.injEq]

end Screen

namespace Drawing

/-- The points that a drawing goes through. -/
def points (width height : Int) (d : Drawing) : List (Int × Int) :=
  Screen.spritePoints width height d.x d.y d.rows

/-- Why a drawing ends early, if it does. -/
def misplaced? (width height : Int) (d : Drawing) : Option Misplaced :=
  Screen.misplaced? width height (d.points width height)

end Drawing

namespace Screen

variable {width height : Int}

/-- A drawing flips the same pixels, and ends for the same reason, on every screen. -/
theorem drawAll_eq (s : Screen width height) (ds : List Drawing) :
    s.drawAll ds = (s.flipAll (ds.flatMap fun d => cellsOf (d.points width height)),
      ds.filterMap fun d => (d.misplaced? width height).map (d, ·)) := by
  induction ds generalizing s with
  | nil => rfl
  | cons d ds ih =>
    have hfst : (s.draw d.x d.y d.rows).1 = s.flipAll (cellsOf (d.points width height)) :=
      toggleAll_fst s false _
    have hearly (e : Misplaced) : (s.draw d.x d.y d.rows).2 = .error e ↔
        d.misplaced? width height = some e := toggleAll_eq_error_iff s false
    rw [List.flatMap_cons, flipAll_append, ← hfst, List.filterMap_cons, drawAll,
      ← Prod.eta (s.draw d.x d.y d.rows)]
    cases hr : (s.draw d.x d.y d.rows).2 with
    | ok hit =>
      have hnone : d.misplaced? width height = none :=
        Option.eq_none_iff_forall_ne_some.2 fun e he => by cases hr.symm.trans ((hearly e).2 he)
      rw [hnone]
      exact ih _
    | error e =>
      rw [(hearly e).1 hr]
      simp only [ih, Option.map_some]

/-- Sprites that are drawn in any order come to the same screen, and the same drawings end early for
the same reasons. To draw all of them again, in any order, brings the screen back. -/
theorem drawAll_perm (s : Screen width height) {ds es : List Drawing} (h : ds.Perm es) :
    (s.drawAll ds).1 = (s.drawAll es).1 ∧
      (s.drawAll ds).2.Perm (s.drawAll es).2 ∧
      ((s.drawAll ds).1.drawAll es).1 = s := by
  have hcells :=
    h.flatMap_right fun d => (cellsOf (d.points width height) : List (Cell width height))
  simp only [drawAll_eq]
  exact ⟨flipAll_perm hcells s, h.filterMap _, flipAll_flipAll_perm hcells s⟩

/-- The first sprite flips every pixel twice, the second ends early after one flip, and the third
is cut off at the right. -/
theorem drawAll_perm_narrow :
    let ds : List Drawing := [⟨-4, 0, [0xFF]⟩, ⟨-5, -1, [0x40, 0x80]⟩, ⟨3, 0, [-1]⟩]
    let s : Screen 4 1 := blank 4 1
    ds.Perm ds.reverse ∧
      (s.drawAll ds).1 = (s.drawAll ds.reverse).1 ∧
      (s.drawAll ds.reverse).2.Perm [(⟨-5, -1, [0x40, 0x80]⟩, .absent)] ∧
      (s.drawAll ds).1.litCount = 2 ∧
      ((s.drawAll ds).1.drawAll ds.reverse).1 = s := by
  intro ds s
  have hperm : ds.Perm ds.reverse := ds.reverse_perm.symm
  obtain ⟨hscreen, hearly, hback⟩ := s.drawAll_perm hperm
  have hds : (s.drawAll ds).2 = [(⟨-5, -1, [0x40, 0x80]⟩, .absent)] := by decide
  rw [hds] at hearly
  exact ⟨hperm, hscreen, hearly.symm, by decide, hback⟩

end Screen

end ChipEight
