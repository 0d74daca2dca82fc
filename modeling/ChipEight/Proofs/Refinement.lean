import ChipEight.Proofs.Cycle
import ChipEight.Proofs.View

/-!
# Cycles do what the instruction set says

An instruction that can be carried out takes a machine with registers in range to the state that
`Reference.exec` gives (`Machine.shows_exec`), so a cycle that succeeds takes it to the state that
`Reference.cycle` gives. Instructions that change the same part of a machine share one lemma; what
is left of each of them is arithmetic.
-/

namespace ChipEight

open Reference (State)

/-- An effect goes on, and shows the given state except for what ends the cycle. -/
def Shows (r : Effect) (s : State) : Prop :=
  ∃ flow, r.2 = .ok flow ∧ { r.1.view with pc := (Machine.nextPc r.1.regs.pc flow).toNat } = s

theorem Word.toNat_kk (w : Word) : w.kk.toNat = w.val % 256 := by
  simp [Word.kk]

/-- Putting the bits of two bytes together is the same on bytes and on numbers. -/
theorem toNat_mixBits {f : UInt8 → UInt8 → UInt8} {g : Nat → Nat → Nat} {a b : Int}
    (hfg : (f (UInt8.ofInt a) (UInt8.ofInt b)).toNat =
      g (UInt8.ofInt a).toNat (UInt8.ofInt b).toNat)
    (ha : 0 ≤ a ∧ a < 256) (hb : 0 ≤ b ∧ b < 256) :
    (((f (UInt8.ofInt a) (UInt8.ofInt b)).toNat : Int) % 256).toNat = g a.toNat b.toNat := by
  have hlt := (f (UInt8.ofInt a) (UInt8.ofInt b)).toNat_lt
  rw [← toNat_ofInt ha, ← toNat_ofInt hb, ← hfg]
  omega

theorem flag_congr {p q : Prop} [Decidable p] [Decidable q] (h : p ↔ q) :
    (if decide p then 1 else 0) = if q then 1 else 0 := by
  simp only [decide_eq_true_eq, h]

theorem beq_congr {a b : Int} {p : Prop} [Decidable p] (h : a = b ↔ p) : (a == b) = decide p := by
  rw [Bool.eq_iff_iff, beq_iff_eq, decide_eq_true_iff, h]

theorem bne_congr {a b : Int} {p : Prop} [Decidable p] (h : a ≠ b ↔ p) : (a != b) = decide p := by
  rw [Bool.eq_iff_iff, bne_iff_ne, decide_eq_true_iff, h]

namespace Machine

variable {m : Machine}

/-! ### Where to go on -/

/-- Where a word can be fetched, the next one is in sixteen bits' reach. -/
def Fetches (m : Machine) : Prop := 0 ≤ m.regs.pc ∧ m.regs.pc + 1 < 4096

theorem shows_next {r : Effect} {s : State} (hr : r.2 = .ok .next) (hpc : r.1.Fetches)
    (hs : r.1.view = s) : Shows r s.next := by
  refine ⟨.next, hr, ?_⟩
  obtain ⟨h₀, h₁⟩ := hpc
  subst hs
  have hnext : (nextPc r.1.regs.pc .next).toNat = r.1.regs.pc.toNat + 2 := by
    simp only [nextPc]; omega
  rw [hnext]
  rfl

theorem shows_goOn {s : State} (hpc : m.Fetches) (hs : m.view = s) : Shows m.goOn s.next :=
  shows_next rfl hpc hs

theorem shows_jump {s : State} {t : Int} (ht : 0 ≤ t ∧ t < 65536) (hs : m.view = s) :
    Shows (m.jump t) (s.goto t.toNat) := by
  refine ⟨.jump t, rfl, ?_⟩
  subst hs
  have hnext : (nextPc m.regs.pc (.jump t)).toNat = t.toNat := by
    simp only [nextPc]; omega
  simp only [jump, hnext]
  rfl

theorem shows_skipIf {c d : Bool} (hpc : m.Fetches) (hc : c = d) :
    Shows (m.skipIf c) (m.view.skipIf d) := by
  subst hc
  cases c with
  | false => exact shows_goOn hpc rfl
  | true =>
    obtain ⟨h₀, h₁⟩ := hpc
    have ht : (m.regs.pc + 4).toNat = m.regs.pc.toNat + 4 := by omega
    have := shows_jump (m := m) (t := m.regs.pc + 4) (by omega) rfl
    rw [ht] at this
    exact this

/-! ### What is changed -/

section
variable (hpc : m.Fetches)
include hpc

theorem shows_setV {x : Reg} {z : Int} {k : Nat} (hz : (z % 256).toNat = k) :
    Shows (m.setV x z).goOn (m.view.set x.val k).next := by
  subst hz
  exact shows_goOn hpc (view_setV x z)

theorem shows_setWithFlag {flag : Bool} {x : Reg} {z : Int} {k g : Nat} (hz : (z % 256).toNat = k)
    (hg : (if flag then 1 else 0) = g) :
    Shows (m.setWithFlag flag x z).goOn (m.view.setFlagged x.val k g).next := by
  subst hz hg
  exact shows_goOn hpc (view_setWithFlag flag x z)

theorem shows_setIndex {z : Int} {k : Nat} (hz : (z % 65536).toNat = k) :
    Shows (m.setIndex z).goOn { m.view with i := k }.next := by
  subst hz
  exact shows_goOn hpc (view_setIndex z)

theorem shows_storeAtIndex (h : m.regs.InRange) {bs : List UInt8} {n : Nat} {k : Nat → Nat}
    (hn : bs.length = n) (hf : Memory.runFault memorySize m.regs.i.toNat n = none)
    (hk : ∀ j < n, (bs.getD j 0).toNat = k j) :
    Shows (m.storeAtIndex bs) (m.view.store n k).next := by
  subst hn
  refine shows_next ?_ (by rw [storeAtIndex_fst]; exact hpc) (view_storeAtIndex h hf hk)
  rw [storeAtIndex_snd, storeRun_index_snd h, hf]
  rfl

theorem shows_loadFromIndex (h : m.regs.InRange) {n : Nat} (hn : n ≤ 16)
    (hf : Memory.runFault memorySize m.regs.i.toNat n = none) :
    Shows (m.loadFromIndex n) (m.view.load n).next := by
  refine shows_next ?_ (by rw [loadFromIndex_fst, setFrom_eq]; exact hpc)
    (view_loadFromIndex h hn hf)
  rw [loadFromIndex_snd, readRun_index_snd h, hf]
  rfl

end

theorem toNat_decimalDigits {z : Int} (hz : 0 ≤ z ∧ z < 256) {j : Nat} (hj : j < 3) :
    ((decimalDigits z).getD j 0).toNat =
      if j = 0 then z.toNat / 100 else if j = 1 then z.toNat / 10 % 10 else z.toNat % 10 := by
  obtain rfl | rfl | rfl : j = 0 ∨ j = 1 ∨ j = 2 := by omega
  · exact (toNat_ofInt (by omega)).trans (by simp only [↓reduceIte]; omega)
  · exact (toNat_ofInt (by omega)).trans (by simp only [Nat.one_ne_zero, ↓reduceIte]; omega)
  · have hne : ¬ 2 = 0 ∧ ¬ 2 = 1 := by decide
    exact (toNat_ofInt (by omega)).trans (by simp only [hne, ↓reduceIte]; omega)

theorem toNat_storedRegs (h : m.regs.InRange) {x : Reg} {j : Nat} (hj : j < x.val + 1) :
    (((m.regs.v.toList.take (x.val + 1)).map UInt8.ofInt).getD j 0).toNat = m.view.v j := by
  have hlt : j < 16 := by omega
  have hget := getD_storedRegs m.regs (y := ⟨j, hlt⟩) (Nat.le_of_lt_succ hj)
  rw [hget]
  exact (toNat_ofInt (h.v ⟨j, hlt⟩)).trans (view_v m ⟨j, hlt⟩).symm

/-! ### Instructions -/

theorem shows_ret (h : m.regs.InRange) (hf : Instr.ret.fault? m.regs = none) :
    Shows (Instr.ret.exec m)
      ({ m.view with stack := m.view.stack.tail }.goto (m.view.stack.headD 0)) := by
  cases hb : m.regs.stack.back? with
  | none =>
    have hs : m.regs.stack.size = 0 := by simpa using hb
    simp only [Instr.fault?, hs, ↓reduceIte, reduceCtorEq] at hf
  | some a =>
    have ha : 0 ≤ a ∧ a < 65536 := h.stack a (Array.mem_of_back? hb)
    have htop : m.view.stack.headD 0 = a.toNat := by
      obtain ⟨as, has⟩ : ∃ as : Array Int, m.regs.stack = as.push a := Array.back?_eq_some_iff.1 hb
      simp only [view, has, Array.toList_push, List.reverse_append, List.reverse_singleton,
        List.singleton_append, List.map_cons, List.headD_cons]
    simp only [Instr.exec, hb, htop]
    exact shows_jump ha view_popped

theorem shows_call (hpc : m.Fetches) (t : Target) (hf : (Instr.call t).fault? m.regs = none) :
    Shows ((Instr.call t).exec m)
      ({ m.view with stack := (m.view.pc + 2) :: m.view.stack }.goto t.val) := by
  have hfull : m.regs.full? = none := by simpa [Instr.fault?] using hf
  have hpush : ((m.regs.pc + 2) % 65536).toNat = m.view.pc + 2 := by
    obtain ⟨h₀, h₁⟩ := hpc
    show _ = m.regs.pc.toNat + 2
    omega
  have := t.isLt
  simp only [Instr.exec, hfull, ← hpush]
  exact shows_jump (t := (t.val : Int)) (by omega) (view_pushed _)

theorem shows_random (hpc : m.Fetches) (x : Reg) (mask : UInt8) :
    Shows ((Instr.random x mask).exec m)
      ({ m.view with source := m.view.source.byte.2 }.set x.val
        (m.view.source.byte.1.toNat &&& mask.toNat)).next :=
  shows_goOn (by rw [setRandom_eq]; exact hpc) (view_setRandom x mask)

section
variable (h : m.regs.InRange) (hpc : m.Fetches) {w : Word} {i : Instr}
include h hpc

theorem shows_arithmetic (hi : Instr.arithmetic? w = some i) :
    Shows (i.exec m) (Reference.arithmetic w.val m.view) := by
  have ha : 0 ≤ m.v w.x ∧ m.v w.x < 256 := h.v w.x
  have hb : 0 ≤ m.v w.y ∧ m.v w.y < 256 := h.v w.y
  have hx : m.view.v (w.val / 256 % 16) = (m.v w.x).toNat := view_v m w.x
  have hy : m.view.v (w.val / 16 % 16) = (m.v w.y).toNat := view_v m w.y
  unfold Instr.arithmetic? at hi
  -- Both registers are read before either result is put down, so `x` and `y` may be the same, and
  -- may be the register of the flag.
  split at hi <;> cases hi <;> rename_i hn <;> change w.val % 16 = _ at hn <;>
    simp only [Reference.arithmetic, hn, hx, hy, Instr.exec]
  · exact shows_setV hpc (by omega)
  · exact shows_setV hpc (toNat_mixBits (UInt8.toNat_or _ _) ha hb)
  · exact shows_setV hpc (toNat_mixBits (UInt8.toNat_and _ _) ha hb)
  · exact shows_setV hpc (toNat_mixBits (UInt8.toNat_xor _ _) ha hb)
  · exact shows_setWithFlag hpc (by omega) (flag_congr (by omega))
  · exact shows_setWithFlag hpc (by omega) (flag_congr (by omega))
  · exact shows_setWithFlag hpc (by omega) (by simp only [beq_iff_eq]; split <;> omega)
  · exact shows_setWithFlag hpc (by omega) (flag_congr (by omega))
  · exact shows_setWithFlag hpc (by omega) (by simp only [decide_eq_true_eq]; split <;> omega)

theorem shows_device (hi : Instr.device? w = some i) (hf : i.fault? m.regs = none) :
    Shows (i.exec m) (Reference.device w.val m.view) := by
  have ha : 0 ≤ m.v w.x ∧ m.v w.x < 256 := h.v w.x
  have hi₀ := h.i
  have hx : m.view.v (w.val / 256 % 16) = (m.v w.x).toNat := view_v m w.x
  unfold Instr.device? at hi
  split at hi <;> cases hi <;> rename_i hk <;> rw [Word.toNat_kk] at hk <;>
    simp only [Reference.device, hk, hx, Instr.exec]
  · have hd := h.delay
    exact shows_setV hpc (by show _ = m.regs.delay.toNat; omega)
  · show Shows _ (if m.keys.pressed then _ else _)
    split
    · have hc := m.keys.code.toNat_lt
      exact shows_setV hpc (by show _ = m.keys.code.toNat; omega)
    · exact shows_jump h.pc rfl
  · exact shows_goOn hpc rfl
  · exact shows_goOn hpc rfl
  · refine shows_setIndex hpc ?_
    rw [Int.toNat_emod (by omega) (by decide), Int.toNat_add hi₀.1 ha.1]
    rfl
  · refine shows_setIndex hpc ?_
    simp only [Memory.fontStart, Memory.glyphHeight]
    rw [Int.emod_eq_of_lt (by omega) (by omega)]
    omega
  · exact shows_storeAtIndex hpc h rfl hf fun j hj => toNat_decimalDigits ha hj
  · exact shows_storeAtIndex hpc h (length_storedRegs _ _) hf fun j hj => toNat_storedRegs h hj
  · exact shows_loadFromIndex hpc h w.x.isLt hf

theorem shows_draw (x y : Reg) (n : Fin 16) (hf : (Instr.draw x y n).fault? m.regs = none) :
    Shows ((Instr.draw x y n).exec m) (m.view.draw (m.v x).toNat (m.v y).toNat n).next := by
  simp only [Instr.exec, readRun_index_eq h hf]
  have hkept := regs_drawRows (P := (·.pc = m.regs.pc)) (fun _ _ h => h) rfl x y
    ((List.range n.val).map fun k => m.mem.peek (m.regs.i.toNat + k))
  exact shows_next (drawRows_snd h x y _) (by rw [Fetches, hkept]; exact hpc)
    (view_drawRows h x y n.val)

/-- What an instruction does, if it can be carried out, is what its word is meant to do. -/
theorem shows_exec (hi : Instr.ofWord? w = some i) (hf : i.fault? m.regs = none) :
    Shows (i.exec m) (Reference.exec w.val m.view) := by
  have ha : 0 ≤ m.v w.x ∧ m.v w.x < 256 := h.v w.x
  have hb : 0 ≤ m.v w.y ∧ m.v w.y < 256 := h.v w.y
  have hk : w.val % 256 = w.kk.toNat := w.toNat_kk.symm
  have hk₁ := w.kk.toNat_lt
  have hx : m.view.v (w.val / 256 % 16) = (m.v w.x).toNat := view_v m w.x
  have hy : m.view.v (w.val / 16 % 16) = (m.v w.y).toNat := view_v m w.y
  have ht : 0 ≤ (w.nnn.val : Int) ∧ (w.nnn.val : Int) < 4096 := by omega
  have hgroup : w.val / 4096 = w.group.val := rfl
  unfold Instr.ofWord? at hi
  -- One case for each group, in their order.
  split at hi <;> rename_i hg <;> simp only [Reference.exec, hgroup, hg, hx, hy]
  · have hlast : w.val % 16 = w.n.val := rfl
    split at hi <;> cases hi <;> rename_i hn <;> simp only [hlast, hn]
    · exact shows_goOn hpc view_clear
    · exact shows_ret h hf
  · cases hi; exact shows_jump (by omega) rfl
  · cases hi; exact shows_call hpc w.nnn hf
  · cases hi; exact shows_skipIf hpc (beq_congr (by omega))
  · cases hi; exact shows_skipIf hpc (bne_congr (by omega))
  · cases hi; exact shows_skipIf hpc (beq_congr (by omega))
  · cases hi; exact shows_setV hpc (by omega)
  · cases hi; exact shows_setV hpc (by omega)
  · exact shows_arithmetic h hpc hi
  · cases hi; exact shows_skipIf hpc (bne_congr (by omega))
  · cases hi; exact shows_setIndex hpc (by show _ = w.nnn.val; omega)
  · cases hi
    have hv₀ : 0 ≤ m.v Reg.first ∧ m.v Reg.first < 256 := h.v Reg.first
    have hv₁ : m.view.v 0 = (m.v Reg.first).toNat := view_v m Reg.first
    have htarget : m.view.v 0 + w.val % 4096 = (m.v Reg.first + w.nnn.val).toNat := by
      rw [hv₁]
      show _ + w.nnn.val = _
      omega
    rw [htarget]
    exact shows_jump (by omega) rfl
  · cases hi; rw [hk]; exact shows_random hpc w.x w.kk
  · cases hi; exact shows_draw h hpc w.x w.y w.n hf
  · split at hi <;> cases hi <;> rename_i hn <;> simp only [hk, hn]
    · exact shows_skipIf hpc (beq_congr (by show _ ↔ m.keys.code.toNat = _; omega))
    · exact shows_skipIf hpc (bne_congr (by show _ ↔ m.keys.code.toNat ≠ _; omega))
  · have hlast : w.group.val = 15 := by have := w.group.isLt; grind
    simp only [hlast]
    exact shows_device h hpc hi hf

end

/-! ### Cycles -/

theorem word_view (h : m.regs.InRange) {w : Word} (hw : m.fetch = .ok w) :
    Reference.word m.view = w.val := by
  rw [fetch_eq h] at hw
  split at hw
  · cases hw; rfl
  · cases hw

theorem view_advance {flow : Flow} (withSound : Bool) :
    (m.advance flow withSound).view =
      { m.view with pc := (nextPc m.regs.pc flow).toNat }.tick withSound := by
  have hlow (t : Int) : (Registers.lowered t).toNat = t.toNat - 1 := by
    unfold Registers.lowered; split <;> omega
  refine State.ext rfl rfl rfl rfl rfl (hlow _) ?_ rfl rfl rfl rfl rfl
  cases withSound
  · rfl
  · exact hlow _

end Machine

/-- A cycle that succeeds takes registers in range to registers in range and does to what the
machine shows what the instruction set says of the word at the program counter; no other machine
with registers in range shows the same. Of the rest of the emulator only the steps are changed. -/
theorem Emulator.view_cycle {e : Emulator} (h : e.machine.regs.InRange)
    (hok : e.cycle.2.error = none) :
    let m := e.cycle.1.machine
    (m.regs.InRange ∧ m.view = Reference.cycle e.decrementSound e.machine.view) ∧
      (∀ m' : Machine, m'.regs.InRange → m'.view = m.view → m' = m) ∧
      e.cycle.1 = { e with machine := m, steps := e.steps + 1 } ∧
      ∃ w, w.val = Reference.word e.machine.view ∧
        e.cycle.2 = ⟨e.steps + 1, e.machine.regs.pc, some w, .done⟩ := by
  have hr := inRange_cycle h
  have hc := cycled_cycle h
  generalize e.cycle = c at hok hr hc ⊢
  cases hc with
  | unfetched | undefined | fault => cases hok
  | @done w i flow hpc hw hi hf hx =>
    have hword := Machine.word_view h hw
    refine ⟨⟨hr, ?_⟩, fun m' h' hv => Machine.ext_view h' hr hv, rfl, w, hword.symm, rfl⟩
    obtain ⟨flow', hflow, hs⟩ := Machine.shows_exec h ⟨h.pc.1, hpc⟩ hi hf
    cases hx.symm.trans hflow
    rw [Reference.cycle, hword, ← hs]
    exact Machine.view_advance e.decrementSound

/-- The sum of the flag's register with itself stays where the carry would have been. -/
theorem Emulator.view_cycle_flag_doubled :
    let e := ((Emulator.new {}).loadRom [0x6F, 0xC8, 0x8F, 0xF4]).cycle.1
    (e.machine.regs.InRange ∧ e.cycle.2.error = none) ∧
      e.cycle.1.machine.view = Reference.cycle e.decrementSound e.machine.view ∧
      e.machine.view.v 15 = 200 ∧ e.cycle.1.machine.view.v 15 = 144 := by
  have h₀ : ((Emulator.new {}).loadRom [0x6F, 0xC8, 0x8F, 0xF4]).machine.regs.InRange :=
    Registers.InRange.initial _
  have h := inRange_cycle h₀
  have hrun :
      let e := ((Emulator.new {}).loadRom [0x6F, 0xC8, 0x8F, 0xF4]).cycle.1
      e.cycle.2.error = none ∧ e.machine.view.v 15 = 200 ∧ e.cycle.1.machine.view.v 15 = 144 := by
    decide +kernel
  exact ⟨⟨h, hrun.1⟩, (view_cycle h hrun.1).1.2, hrun.2⟩

end ChipEight
