import ChipEight.Proofs.Exec
import ChipEight.Proofs.Reference

/-!
# What changes to a machine look like

The changes that instructions are made of, as seen in the state that a machine shows: each changes
the numbers that `Reference.State` has for it and leaves the others alone. With the index in range,
bytes are moved in runs that stay in memory, and a sprite is drawn pixel by pixel.
-/

namespace ChipEight.Machine

open Reference (State)

variable {m : Machine}

theorem view_v (m : Machine) (x : Reg) : m.view.v x.val = (m.v x).toNat := by
  simp [view]

theorem view_lit (m : Machine) (r : Fin 32) (c : Fin 64) :
    m.view.lit c.val r.val = m.screen.lit (Screen.cell r c) :=
  dif_pos ⟨c.isLt, r.isLt⟩

theorem map_view_stack (h : m.regs.InRange) :
    m.view.stack.map Int.ofNat = m.regs.stack.toList.reverse := by
  rw [view, List.map_map]
  refine (List.map_congr_left fun a ha => ?_).trans (List.map_id _)
  exact Int.toNat_of_nonneg (h.stack a (by simpa using ha)).1

/-- Registers in range are told apart by what they show, and so are machines with such registers. -/
theorem ext_view {m m' : Machine} (h : m.regs.InRange) (h' : m'.regs.InRange)
    (hv : m.view = m'.view) : m = m' := by
  have hnat {a b : Int} (ha : 0 ≤ a) (hb : 0 ≤ b) (hab : a.toNat = b.toNat) : a = b := by omega
  refine Machine.ext (Registers.ext (Vector.ext fun k hk => ?_) ?_ ?_ ?_ ?_ ?_ ?_)
    (Memory.ext_peek fun a _ => ?_) (Screen.ext (Vector.ext fun k hk => ?_)) (KeyLatch.ext ?_ ?_) ?_
  · have hx : (m.v ⟨k, hk⟩).toNat = (m'.v ⟨k, hk⟩).toNat := by rw [← view_v, ← view_v, hv]
    exact hnat (h.v ⟨k, hk⟩).1 (h'.v ⟨k, hk⟩).1 hx
  · exact hnat h.i.1 h'.i.1 (congrArg State.i hv)
  · exact hnat h.pc.1 h'.pc.1 (congrArg State.pc hv)
  · have hs : m.view.stack = m'.view.stack := congrArg State.stack hv
    exact Array.ext' (List.reverse_inj.1 (by rw [← map_view_stack h, ← map_view_stack h', hs]))
  · exact hnat h.delay.1 h'.delay.1 (congrArg State.delay hv)
  · exact hnat h.sound.1 h'.sound.1 (congrArg State.sound hv)
  · exact congrArg State.depth hv
  · exact UInt8.toNat_inj.1 (congrFun (congrArg State.mem hv) a)
  · obtain ⟨r, c, hrc⟩ := Screen.exists_cell (⟨k, hk⟩ : Screen.Cell 64 32)
    have hl : m.screen.lit (Screen.cell r c) = m'.screen.lit (Screen.cell r c) := by
      rw [← view_lit, ← view_lit, hv]
    rwa [← hrc] at hl
  · exact UInt8.toNat_inj.1 (congrArg State.key hv)
  · exact congrArg State.pressed hv
  · exact congrArg State.source hv

/-! ### What is changed -/

theorem view_setV (x : Reg) (z : Int) : (m.setV x z).view = m.view.set x.val (z % 256).toNat := by
  refine State.ext (funext fun r => ?_) rfl rfl rfl rfl rfl rfl rfl rfl rfl rfl rfl
  by_cases hr : r < 16
  · have hx : (⟨r, hr⟩ : Reg) = x ↔ r = x.val := Fin.ext_iff
    simp only [view, State.set, hr, ↓reduceDIte, v, setV, Registers.get_setV, hx]
    split <;> rfl
  · have hx : r ≠ x.val := fun he => hr (he ▸ x.isLt)
    simp only [view, State.set, hr, ↓reduceDIte, hx, ↓reduceIte]

theorem view_setFlag (flag : Bool) :
    (m.setFlag (if flag then 1 else 0)).view = m.view.set 15 (if flag then 1 else 0) := by
  cases flag
  · exact view_setV .flag 0
  · exact view_setV .flag 1

theorem view_setWithFlag (flag : Bool) (x : Reg) (z : Int) :
    (m.setWithFlag flag x z).view =
      m.view.setFlagged x.val (z % 256).toNat (if flag then 1 else 0) := by
  rw [setWithFlag, view_setV, view_setFlag]
  rfl

theorem view_setIndex (z : Int) :
    (m.setIndex z).view = { m.view with i := (z % 65536).toNat } := rfl

theorem view_setRandom (x : Reg) (mask : UInt8) :
    (m.setRandom x mask).view =
      { m.view with source := m.source.byte.2 }.set x.val
        (m.source.byte.1.toNat &&& mask.toNat) := by
  have hview : (m.setRandom x mask).view =
      { (m.setV x (m.source.byte.1 &&& mask).toNat).view with source := m.source.byte.2 } := by
    rw [setRandom_eq]; rfl
  have hb : (((m.source.byte.1 &&& mask).toNat : Int) % 256).toNat =
      m.source.byte.1.toNat &&& mask.toNat := by
    have := (m.source.byte.1 &&& mask).toNat_lt
    rw [← UInt8.toNat_and]; omega
  rw [hview, view_setV, hb]
  rfl

theorem view_clear : { m with screen := m.screen.clear }.view =
    { m.view with lit := fun _ _ => false } := by
  refine State.ext rfl rfl rfl rfl rfl rfl rfl rfl (funext fun c => funext fun r => ?_) rfl rfl rfl
  simp only [view, Screen.clear, Screen.blank, Screen.lit]
  split <;> simp

theorem view_pushed (a : Int) : { m with regs := m.regs.pushed a }.view =
    { m.view with stack := (a % 65536).toNat :: m.view.stack } := by
  refine State.ext rfl rfl rfl ?_ rfl rfl rfl rfl rfl rfl rfl rfl
  simp [view, Registers.pushed]

theorem view_popped : { m with regs := m.regs.popped }.view =
    { m.view with stack := m.view.stack.tail } := by
  refine State.ext rfl rfl rfl ?_ rfl rfl rfl rfl rfl rfl rfl rfl
  simp [view, Registers.popped]

/-! ### Runs of bytes -/

/-- A run that stays in memory is read as a whole. -/
theorem readRun_index_eq (h : m.regs.InRange) {n : Nat}
    (hf : Memory.runFault memorySize m.regs.i.toNat n = none) :
    m.mem.readRun m.regs.i n =
      ((List.range n).map fun k => m.mem.peek (m.regs.i.toNat + k), none) := by
  have hmin : min n (memorySize - m.regs.i.toNat) = n := by
    rcases Memory.runFault_eq_none_iff.1 hf with h₀ | h₀ <;> omega
  have hfst := readRun_index_fst h n
  rw [hmin] at hfst
  exact Prod.ext hfst ((readRun_index_snd h n).trans hf)

theorem view_storeAtIndex (h : m.regs.InRange) {bs : List UInt8} {k : Nat → Nat}
    (hf : Memory.runFault memorySize m.regs.i.toNat bs.length = none)
    (hk : ∀ j < bs.length, (bs.getD j 0).toNat = k j) :
    (m.storeAtIndex bs).1.view = m.view.store bs.length k := by
  rw [storeAtIndex_fst]
  refine State.ext rfl rfl rfl rfl rfl rfl rfl (funext fun a => ?_) rfl rfl rfl rfl
  have hfit := Memory.runFault_eq_none_iff.1 hf
  show ((m.mem.storeRun m.regs.i bs).1.peek a).toNat =
    if m.regs.i.toNat ≤ a ∧ a < m.regs.i.toNat + bs.length then k (a - m.regs.i.toNat)
    else (m.mem.peek a).toNat
  rw [peek_storeRun_index h]
  by_cases ha : m.regs.i.toNat ≤ a ∧ a < m.regs.i.toNat + bs.length
  · have ha' : m.regs.i.toNat ≤ a ∧ a < m.regs.i.toNat + bs.length ∧ a < memorySize := by omega
    rw [if_pos ha, if_pos ha', hk _ (by omega)]
  · have ha' : ¬ (m.regs.i.toNat ≤ a ∧ a < m.regs.i.toNat + bs.length ∧ a < memorySize) := by omega
    rw [if_neg ha, if_neg ha']

theorem view_loadFromIndex (h : m.regs.InRange) {n : Nat} (hn : n ≤ 16)
    (hf : Memory.runFault memorySize m.regs.i.toNat n = none) :
    (m.loadFromIndex n).1.view = m.view.load n := by
  rw [loadFromIndex_fst, readRun_index_eq h hf, setFrom_eq]
  refine State.ext (funext fun r => ?_) rfl rfl rfl rfl rfl rfl rfl rfl rfl rfl rfl
  simp only [view, State.load]
  by_cases hr : r < 16
  · have hv := m.v_setFrom 0 ((List.range n).map fun k => m.mem.peek (m.regs.i.toNat + k)) ⟨r, hr⟩
    simp only [v] at hv
    simp only [hr, ↓reduceDIte, v, hv, List.length_map, List.length_range]
    by_cases hrn : r < n
    · simp [hrn]
    · simp [hrn]
  · have hrn : ¬ r < n := by omega
    simp only [hr, hrn, ↓reduceDIte, ↓reduceIte]

/-! ### Sprites -/

theorem covers_iff (h : m.regs.InRange) (x y : Reg) (n : Nat) {c r : Nat} (hc : c < 64)
    (hr : r < 32) :
    Screen.Covers (m.v x) (m.v y)
        (((List.range n).map fun k => m.mem.peek (m.regs.i.toNat + k)).map fun b => (b.toNat : Int))
        ((c : Int), (r : Int)) ↔
      m.view.covers (m.v x).toNat (m.v y).toNat n c r = true := by
  obtain ⟨hx, -⟩ := h.v x
  obtain ⟨hy, -⟩ := h.v y
  change 0 ≤ m.v x at hx
  change 0 ≤ m.v y at hy
  have hcol : (m.v x ≤ (c : Int) ∧ (c : Int) < m.v x + 8) ↔
      (m.v x).toNat ≤ c ∧ c < (m.v x).toNat + 8 := by omega
  have hrow : m.v y ≤ (r : Int) ↔ (m.v y).toNat ≤ r := by omega
  have hr' : ((r : Int) - m.v y).toNat = r - (m.v y).toNat := by omega
  have hc' : ((c : Int) - m.v x).toNat = c - (m.v x).toNat := by omega
  simp only [Screen.Covers, State.covers, hcol, hrow, hr', hc', hc, hr, Bool.and_eq_true,
    decide_eq_true_eq, and_self, true_and, List.map_map, List.getElem?_map, Option.any_map]
  by_cases hn : r - (m.v y).toNat < n
  · rw [List.getElem?_range hn, Option.any_some, Function.comp_apply, Screen.bit_natCast]
    constructor
    · rintro ⟨hcx, hry, hbit⟩
      exact ⟨⟨hcx, hry, by omega⟩, hbit⟩
    · rintro ⟨⟨hcx, hry, -⟩, hbit⟩
      exact ⟨hcx, hry, hbit⟩
  · have hnone : (List.range n)[r - (m.v y).toNat]? = none := by simp; omega
    rw [hnone]
    constructor
    · rintro ⟨-, -, hfalse⟩; cases hfalse
    · rintro ⟨⟨-, hle, hlt⟩, -⟩; omega

/-- The pixels and the flag after a sprite is drawn, one by one. -/
theorem view_drawRows (h : m.regs.InRange) (x y : Reg) (n : Nat) :
    (m.drawRows x y ((List.range n).map fun k => m.mem.peek (m.regs.i.toNat + k))).1.view =
      m.view.draw (m.v x).toNat (m.v y).toNat n := by
  obtain ⟨hx, -⟩ : 0 ≤ m.v x ∧ m.v x < 256 := h.v x
  obtain ⟨hy, -⟩ : 0 ≤ m.v y ∧ m.v y < 256 := h.v y
  have hcov := fun c r (hc : c < 64) (hr : r < 32) => covers_iff h x y n hc hr
  rw [drawRows_eq]
  generalize ((List.range n).map fun k => m.mem.peek (m.regs.i.toNat + k)).map
    (fun b => (b.toNat : Int)) = rows at hcov ⊢
  have hlit := Screen.lit_draw hx hy rows m.screen
  obtain ⟨hit, hsnd, hhit⟩ := Screen.draw_snd hx hy rows m.screen
  generalize m.screen.draw (m.v x) (m.v y) rows = drawn at hlit hsnd ⊢
  obtain ⟨screen, res⟩ := drawn
  subst hsnd
  have hany : hit = (List.range 64).any fun c => (List.range 32).any fun r =>
      m.view.covers (m.v x).toNat (m.v y).toNat n c r && m.view.lit c r := by
    rw [Bool.eq_iff_iff, hhit]
    simp only [List.any_eq_true, List.mem_range, Bool.and_eq_true]
    constructor
    · rintro ⟨r, c, hc, hl⟩
      exact ⟨c, c.isLt, r, r.isLt, (hcov c r c.isLt r.isLt).1 hc, (m.view_lit r c).trans hl⟩
    · rintro ⟨c, hc, r, hr, hk, hl⟩
      exact ⟨⟨r, hr⟩, ⟨c, hc⟩, (hcov c r hc hr).2 hk, (m.view_lit ⟨r, hr⟩ ⟨c, hc⟩).symm.trans hl⟩
  refine State.ext ?_ rfl rfl rfl rfl rfl rfl rfl (funext fun c => funext fun r => ?_) rfl rfl rfl
  · refine (congrArg State.v (view_setFlag hit)).trans ?_
    rw [hany]
    rfl
  · by_cases hcr : c < 64 ∧ r < 32
    · obtain ⟨hc, hr⟩ := hcr
      have hb : decide (Screen.Covers (m.v x) (m.v y) rows ((c : Int), (r : Int))) =
          m.view.covers (m.v x).toNat (m.v y).toNat n c r := by
        rw [Bool.eq_iff_iff, decide_eq_true_iff, hcov c r hc hr]
      exact (dif_pos ⟨hc, hr⟩).trans
        ((hlit ⟨r, hr⟩ ⟨c, hc⟩).trans (by rw [hb, ← view_lit]; rfl))
    · have hk : m.view.covers (m.v x).toNat (m.v y).toNat n c r = false := by
        simp only [State.covers, hcr, decide_false, Bool.false_and]
      have hl : m.view.lit c r = false := dif_neg hcr
      show (if h : c < 64 ∧ r < 32 then _ else false) =
        (m.view.lit c r ^^ m.view.covers _ _ n c r)
      rw [dif_neg hcr, hk, hl]
      rfl

end ChipEight.Machine
