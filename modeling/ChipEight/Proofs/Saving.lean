import ChipEight.Proofs.Cycle
import ChipEight.Proofs.View

/-!
# Saving registers

Registers that have been stored come back when they are loaded, if the index points to the same
bytes again (`Machine.exec_load_of_stored`), and bytes that have been loaded are the same when the
registers are stored again (`Machine.exec_store_of_loaded`). `Machine.Carried` is what may be done
between the two. It keeps registers in range, and what successful cycles do is part of it
(`Emulator.carried_cycles`).
-/

namespace ChipEight

namespace Machine

/-- One instruction after the other, all of them carried out. Between two of them the program
counter and the timers may come to show anything that they can, and the key latch too. -/
inductive Carried (m : Machine) : Machine → Prop
  | refl : Carried m m
  | exec {m' m'' : Machine} {w : Word} {flow : Flow} (h : Carried m m')
      (hx : w.exec m' = (m'', .ok flow)) : Carried m m''
  | between {m' : Machine} {pc delay sound : Int} (h : Carried m m') (hpc : 0 ≤ pc ∧ pc < 65536)
      (hdelay : 0 ≤ delay ∧ delay < 256) (hsound : 0 ≤ sound ∧ sound < 256) (keys : KeyLatch) :
      Carried m { m' with regs := { m'.regs with pc, delay, sound }, keys }

namespace Carried

variable {m m' m'' : Machine}

theorem trans (h : m.Carried m') (h' : m'.Carried m'') : m.Carried m'' := by
  induction h' with
  | refl => exact h
  | exec _ hx ih => exact ih.exec hx
  | between _ hpc hdelay hsound keys ih => exact ih.between hpc hdelay hsound keys

theorem inRange (h : m.Carried m') (hm : m.regs.InRange) : m'.regs.InRange := by
  induction h with
  | refl => exact hm
  | @exec m' m'' w flow _ hx ih =>
    unfold Word.exec at hx
    split at hx
    · next i _ =>
      have hr := Registers.stable_inRange.exec ih i
      rwa [hx] at hr
    · cases hx
  | between _ hpc hdelay hsound _ ih =>
    exact ((ih.withPc hpc).withDelay hdelay).withSound hsound

end Carried

/-! ### The area of a store -/

/-- The addresses at which the registers up to `x` are stored. -/
def Area (m : Machine) (x : Reg) (a : Nat) : Prop := m.regs.i ≤ a ∧ a ≤ m.regs.i + x.val

section
variable {m : Machine} {x : Reg} (h : m.regs.InRange) (hx : m.regs.i + x.val ≤ 0xFFF)
include h

theorem area_iff (a : Nat) :
    m.Area x a ↔ m.regs.i.toNat ≤ a ∧ a < m.regs.i.toNat + (x.val + 1) := by
  have hpos := h.i.1
  unfold Area
  omega

theorem area_add {y : Reg} (hy : y ≤ x) : m.Area x (m.regs.i.toNat + y.val) := by
  have hle : y.val ≤ x.val := hy
  rw [area_iff h]
  omega

theorem exists_of_area {a : Nat} (ha : m.Area x a) : ∃ y ≤ x, m.regs.i.toNat + y.val = a := by
  have hlt := x.isLt
  rw [area_iff h] at ha
  refine ⟨⟨a - m.regs.i.toNat, by omega⟩, ?_, ?_⟩
  · show a - m.regs.i.toNat ≤ x.val
    omega
  · show m.regs.i.toNat + (a - m.regs.i.toNat) = a
    omega

include hx

theorem runFault_area : Memory.runFault memorySize m.regs.i.toNat (x.val + 1) = none := by
  have hpos := h.i.1
  refine Memory.runFault_eq_none_iff.2 (.inr ?_)
  show m.regs.i.toNat + (x.val + 1) ≤ 4096
  omega

/-- Storing puts each register in its place, and changes nothing but these bytes. -/
theorem exec_store :
    ∃ saved, (Instr.store x).exec m = (saved, .ok .next) ∧ saved = { m with mem := saved.mem } ∧
      (∀ y ≤ x, saved.mem.peek (m.regs.i.toNat + y.val) = UInt8.ofInt (m.v y)) ∧
      ∀ a, ¬ m.Area x a → saved.mem.peek a = m.mem.peek a := by
  have hlen := length_storedRegs m.regs x
  have hfit : m.regs.i.toNat + (x.val + 1) ≤ memorySize :=
    (Memory.runFault_eq_none_iff.1 (runFault_area h hx)).resolve_left (Nat.succ_ne_zero _)
  have hpeek := peek_storeRun_index h ((m.regs.v.toList.take (x.val + 1)).map UInt8.ofInt)
  rw [hlen] at hpeek
  refine ⟨((Instr.store x).exec m).1, Prod.ext rfl ?_, ?_, fun y hy => ?_, fun a ha => ?_⟩
  · rw [Instr.exec, storeAtIndex_snd, storeRun_index_snd h, hlen, runFault_area h hx]
    rfl
  · rw [Instr.exec, storeAtIndex_fst]
  · have hle : y.val ≤ x.val := hy
    rw [Instr.exec, storeAtIndex_fst, hpeek, if_pos (by omega), Nat.add_sub_cancel_left,
      getD_storedRegs m.regs hy]
    rfl
  · rw [area_iff h] at ha
    rw [Instr.exec, storeAtIndex_fst, hpeek, if_neg (by omega)]

/-- Loading takes each register from its place, and changes nothing but these registers. -/
theorem exec_load :
    ∃ loaded, (Instr.load x).exec m = (loaded, .ok .next) ∧
      loaded = { m with regs := { m.regs with v := loaded.regs.v } } ∧
      (∀ y ≤ x, loaded.v y = (m.mem.peek (m.regs.i.toNat + y.val)).toNat) ∧
      ∀ y, x < y → loaded.v y = m.v y := by
  have hread := readRun_index_eq h (runFault_area h hx)
  refine ⟨((Instr.load x).exec m).1, Prod.ext rfl ?_, ?_, fun y hy => ?_, fun y hy => ?_⟩
  · rw [Instr.exec, loadFromIndex_snd, hread]
    rfl
  · rw [Instr.exec, loadFromIndex_fst]
    exact setFrom_eq _ _ _
  · have hlt : y.val < x.val + 1 := Nat.lt_succ_of_le hy
    rw [Instr.exec, loadFromIndex_fst, hread, v_setFrom, List.length_map, List.length_range,
      if_pos (by omega), Nat.sub_zero, List.getD_eq_getElem?_getD, List.getElem?_map,
      List.getElem?_range hlt]
    rfl
  · have hgt : x.val < y.val := hy
    rw [Instr.exec, loadFromIndex_fst, hread, v_setFrom, List.length_map, List.length_range,
      if_neg (by omega)]

/-- Registers that hold bytes come back from where they were stored. -/
theorem exec_load_of_stored {m' : Machine} (h' : m'.regs.InRange) (hi : m'.regs.i = m.regs.i)
    (hstored : ∀ y ≤ x, m'.mem.peek (m.regs.i.toNat + y.val) = UInt8.ofInt (m.v y)) :
    ∃ restored, (Instr.load x).exec m' = (restored, .ok .next) ∧
      restored = { m' with regs := { m'.regs with v := restored.regs.v } } ∧
      (∀ y ≤ x, restored.v y = m.v y) ∧ ∀ y, x < y → restored.v y = m'.v y := by
  rw [← hi] at hx
  obtain ⟨restored, hload, hframe, hback, habove⟩ := exec_load h' hx
  refine ⟨restored, hload, hframe, fun y hy => ?_, habove⟩
  have hbyte : (UInt8.ofInt (m.v y)).toNat = (m.v y).toNat := toNat_ofInt (h.v y)
  rw [hback y hy, hi, hstored y hy, hbyte]
  exact Int.toNat_of_nonneg (h.v y).1

/-- Bytes that have been loaded are the same when they are stored again. -/
theorem exec_store_of_loaded :
    ∃ loaded stored, (Instr.load x).exec m = (loaded, .ok .next) ∧
      (Instr.store x).exec loaded = (stored, .ok .next) ∧
      (∀ y, x < y → loaded.v y = m.v y) ∧ stored.mem = m.mem := by
  obtain ⟨loaded, hload, hframe, hloaded, habove⟩ := exec_load h hx
  have hi : loaded.regs.i = m.regs.i := by rw [hframe]
  have hmem : loaded.mem = m.mem := by rw [hframe]
  have hrange : loaded.regs.InRange := by
    have hr := Registers.stable_inRange.exec h (.load x)
    rwa [hload] at hr
  rw [← hi] at hx
  obtain ⟨stored, hstore, -, hstored, hout⟩ := exec_store hrange hx
  refine ⟨loaded, stored, hload, hstore, habove, Memory.ext_peek fun a _ => ?_⟩
  by_cases ha : loaded.Area x a
  · obtain ⟨y, hy, rfl⟩ := exists_of_area hrange ha
    rw [hstored y hy, hloaded y hy, ofInt_toNat, hi]
  · rw [hout a ha, hmem]

end

/-! ### Words -/

theorem ofWord?_store :
    ∀ x : Reg, Instr.ofWord? (.ofInt (0xF055 + 0x100 * x.val)) = some (.store x) := by
  decide

theorem ofWord?_load :
    ∀ x : Reg, Instr.ofWord? (.ofInt (0xF065 + 0x100 * x.val)) = some (.load x) := by
  decide

/-- To store registers and to load them undo each other, in either order, also if something is done
between a store and a load that leaves the index and the stored bytes as they were. Neither fails
where the registers fit into memory, and neither touches another byte or register. -/
theorem store_load_inverse {m : Machine} (h : m.regs.InRange) (x : Reg)
    (hx : m.regs.i + x.val ≤ 0xFFF) :
    (∃ saved, (Word.ofInt (0xF055 + 0x100 * x.val)).exec m = (saved, .ok .next) ∧
      saved = { m with mem := saved.mem } ∧
      (∀ a, ¬ m.Area x a → saved.mem.peek a = m.mem.peek a) ∧
      ∀ later, saved.Carried later → later.regs.i = m.regs.i →
        (∀ a, m.Area x a → later.mem.peek a = saved.mem.peek a) →
        ∃ restored, (Word.ofInt (0xF065 + 0x100 * x.val)).exec later = (restored, .ok .next) ∧
          restored = { later with regs := { later.regs with v := restored.regs.v } } ∧
          (∀ y ≤ x, restored.v y = m.v y) ∧ (∀ y, x < y → restored.v y = later.v y) ∧
          m.Carried restored) ∧
      ∃ loaded stored, (Word.ofInt (0xF065 + 0x100 * x.val)).exec m = (loaded, .ok .next) ∧
        (Word.ofInt (0xF055 + 0x100 * x.val)).exec loaded = (stored, .ok .next) ∧
        (∀ y, x < y → loaded.v y = m.v y) ∧ stored.mem = m.mem := by
  have hstore := Emulator.exec_of_some (ofWord?_store x)
  have hload := Emulator.exec_of_some (ofWord?_load x)
  simp only [hstore, hload]
  refine ⟨?_, exec_store_of_loaded h hx⟩
  obtain ⟨saved, hsave, hframe, hstored, hout⟩ := exec_store h hx
  have hsaved : m.Carried saved := .exec .refl ((hstore m).trans hsave)
  refine ⟨saved, hsave, hframe, hout, fun later hlater hi hkept => ?_⟩
  have hrun : m.Carried later := hsaved.trans hlater
  have hbytes : ∀ y ≤ x, later.mem.peek (m.regs.i.toNat + y.val) = UInt8.ofInt (m.v y) :=
    fun y hy => (hkept _ (area_add h hy)).trans (hstored y hy)
  obtain ⟨restored, hrestore, hrest, hback, habove⟩ :=
    exec_load_of_stored h hx (hrun.inRange h) hi hbytes
  exact ⟨restored, hrestore, hrest, hback, habove, hrun.exec ((hload later).trans hrestore)⟩

/-- Two registers are stored in the last two bytes of memory, and the first of them is cleared
before both are loaded. -/
theorem store_load_inverse_last :
    let m := ((new none none).setV 0 7).setIndex 0xFFE
    (m.regs.InRange ∧ m.regs.i + (1 : Reg).val ≤ 0xFFF) ∧ ∃ saved later restored,
      (Word.ofInt 0xF155).exec m = (saved, .ok .next) ∧
        (Word.ofInt 0x6000).exec saved = (later, .ok .next) ∧ later.v 0 = 0 ∧
        (Word.ofInt 0xF165).exec later = (restored, .ok .next) ∧ restored.v 0 = 7 := by
  intro m
  have h : m.regs.InRange := ((Registers.InRange.initial none).setV 0 7).setIndex 0xFFE
  have hx : m.regs.i + (1 : Reg).val ≤ 0xFFF := by decide
  obtain ⟨⟨saved, hsave, hframe, -, hback⟩, -⟩ := store_load_inverse h 1 hx
  have hclear : (Word.ofInt 0x6000).exec saved = (saved.setV 0 0, .ok .next) := rfl
  have hi : (saved.setV 0 0).regs.i = m.regs.i := by
    rw [hframe]
    rfl
  obtain ⟨restored, hload, -, hv, -⟩ := hback _ (.exec .refl hclear) hi fun _ _ => rfl
  have hzero : (saved.setV 0 0).v 0 = 0 := saved.regs.get_setV 0 0 0
  exact ⟨⟨h, hx⟩, saved, _, restored, hsave, hclear, hzero, hload, hv 0 (by decide)⟩

end Machine

namespace Emulator

variable {e : Emulator}

/-- A cycle that succeeds carries out an instruction. -/
theorem carried_cycle (h : e.machine.regs.InRange) (hd : e.cycle.2.ending = .done) :
    e.machine.Carried e.cycle.1.machine := by
  have hc := cycled_cycle h
  generalize e.cycle = c at hc hd ⊢
  cases hc with
  | unfetched | undefined | fault => cases hd
  | @done w i flow hpc hw hi hf hx =>
    have hrun : e.machine.Carried (i.exec e.machine).1 :=
      .exec .refl ((exec_of_some hi e.machine).trans (Prod.ext rfl hx))
    have hticked := (hrun.inRange h).tick e.decrementSound
    refine hrun.between ?_ hticked.delay hticked.sound _
    cases flow <;> exact ⟨Int.emod_nonneg _ (by decide), Int.emod_lt_of_pos _ (by decide)⟩

theorem carried_cycles (h : e.machine.regs.InRange) {n : Nat}
    (hd : ∀ k < n, (e.cycles k).cycle.2.ending = .done) :
    e.machine.Carried (e.cycles n).machine := by
  induction n generalizing e with
  | zero => exact .refl
  | succ n ih =>
    have hfirst := carried_cycle h (hd 0 (Nat.succ_pos n))
    exact hfirst.trans (ih (inRange_cycle h) fun k hk => hd (k + 1) (Nat.succ_lt_succ hk))

end Emulator

end ChipEight
