import ChipEight.Proofs.Cycle

/-!
# What a failed cycle leaves behind

An instruction that has a fault changes nothing but bytes in memory and general registers
(`Instr.exec_eq_of_fault`). It changes those if it moves several bytes and only some of them cannot
be moved: the others have been moved all the same (`Instr.peek_exec_of_fault`,
`Instr.v_exec_of_fault`). So a failed cycle leaves registers and memory as they were exactly if no
byte that was moved differs from the one in its place, which `Machine.Torn` denies.
-/

namespace ChipEight

namespace Instr

/-- The bytes that an instruction stores from the index on. -/
def stored (i : Instr) (m : Machine) : List UInt8 :=
  match i with
  | storeDecimal x => decimalDigits (m.v x)
  | store x => (m.regs.v.toList.take (x.val + 1)).map UInt8.ofInt
  | _ => []

/-- How many registers an instruction loads from the index on. -/
def loaded : Instr → Nat
  | load x => x.val + 1
  | _ => 0

section
variable {m : Machine} (h : m.regs.InRange) {i : Instr} {f : Fault}
  (hf : i.fault? m.regs = some f)
include h hf

/-- An instruction with a fault stores and loads the bytes that it can, and does nothing else. -/
theorem exec_eq_of_fault :
    (i.exec m).1 =
      Machine.setFrom 0 (m.mem.readRun m.regs.i i.loaded).1
        { m with mem := (m.mem.storeRun m.regs.i (i.stored m)).1 } := by
  cases i with
  | ret =>
    have hs : m.regs.stack.back? = none := by
      simp only [fault?] at hf
      split at hf
      · next hs => simp [Array.size_eq_zero_iff.1 hs]
      · cases hf
    simp only [exec, hs]
    rfl
  | call t =>
    obtain ⟨d, hd, -⟩ := Option.map_eq_some_iff.1 hf
    simp only [exec, hd]
    rfl
  | draw x y n =>
    have hread := (Machine.readRun_index_snd h n.val).trans hf
    simp only [exec]
    split
    · rfl
    · next heq => rw [heq] at hread; cases hread
  | storeDecimal | store => rw [exec, Machine.storeAtIndex_fst]; rfl
  | load => rw [exec, Machine.loadFromIndex_fst]; rfl
  | _ => cases hf

theorem exec_frame_of_fault :
    (i.exec m).1 =
      { m with regs := { m.regs with v := (i.exec m).1.regs.v }, mem := (i.exec m).1.mem } := by
  rw [exec_eq_of_fault h hf, Machine.setFrom_eq]

/-- Memory holds what was stored, as far as there is memory. -/
theorem peek_exec_of_fault (a : Nat) :
    (i.exec m).1.mem.peek a =
      if m.regs.i.toNat ≤ a ∧ a < m.regs.i.toNat + (i.stored m).length ∧ a < memorySize then
        (i.stored m).getD (a - m.regs.i.toNat) 0
      else m.mem.peek a := by
  rw [exec_eq_of_fault h hf, Machine.setFrom_eq]
  exact Machine.peek_storeRun_index h (i.stored m) a

/-- Registers hold what was loaded, as far as there was memory to load from. -/
theorem v_exec_of_fault (x : Reg) :
    (i.exec m).1.v x =
      if x.val < i.loaded ∧ m.regs.i.toNat + x.val < memorySize then
        ((m.mem.peek (m.regs.i.toNat + x.val)).toNat : Int)
      else m.v x := by
  rw [exec_eq_of_fault h hf, Machine.v_setFrom, Machine.readRun_index_fst h, List.length_map,
    List.length_range]
  by_cases hx : x.val < i.loaded ∧ m.regs.i.toNat + x.val < memorySize
  · have hlt : x.val < min i.loaded (memorySize - m.regs.i.toNat) := by omega
    have hmin : 0 ≤ x.val ∧ x.val < 0 + min i.loaded (memorySize - m.regs.i.toNat) := by omega
    rw [if_pos hx, if_pos hmin, Nat.sub_zero, List.getD_eq_getElem?_getD, List.getElem?_map,
      List.getElem?_range hlt]
    rfl
  · have hmin : ¬ (0 ≤ x.val ∧ x.val < 0 + min i.loaded (memorySize - m.regs.i.toNat)) := by omega
    rw [if_neg hx, if_neg hmin]
    rfl

end

/-- Some byte that an instruction stores or loads can be moved and differs from what it replaces. -/
def Tears (i : Instr) (m : Machine) : Prop :=
  (∃ k, k < (i.stored m).length ∧ m.regs.i.toNat + k < memorySize ∧
    (i.stored m).getD k 0 ≠ m.mem.peek (m.regs.i.toNat + k)) ∨
  ∃ x : Reg, x.val < i.loaded ∧ m.regs.i.toNat + x.val < memorySize ∧
    ((m.mem.peek (m.regs.i.toNat + x.val)).toNat : Int) ≠ m.v x

theorem exec_eq_self_iff {m : Machine} (h : m.regs.InRange) {i : Instr} {f : Fault}
    (hf : i.fault? m.regs = some f) : (i.exec m).1 = m ↔ ¬ i.Tears m := by
  have hpeek := peek_exec_of_fault h hf
  have hv := v_exec_of_fault h hf
  constructor
  · rintro he (⟨k, hk, ha, hne⟩ | ⟨x, hx, ha, hne⟩)
    · have := hpeek (m.regs.i.toNat + k)
      rw [he, if_pos (by omega), Nat.add_sub_cancel_left] at this
      exact hne this.symm
    · have := hv x
      rw [he, if_pos ⟨hx, ha⟩] at this
      exact hne this.symm
  · intro ht
    have hmem : (i.exec m).1.mem = m.mem := by
      refine Memory.ext_peek fun a _ => ?_
      rw [hpeek]
      split
      · next ha =>
        have hk : m.regs.i.toNat + (a - m.regs.i.toNat) = a := by omega
        refine Decidable.byContradiction fun hne => ht (.inl ?_)
        exact ⟨a - m.regs.i.toNat, by omega, by omega, by rwa [hk]⟩
      · rfl
    have hregs : (i.exec m).1.regs.v = m.regs.v := by
      refine Vector.ext fun k hk => ?_
      refine (hv ⟨k, hk⟩).trans ?_
      split
      · next hx =>
        exact Decidable.byContradiction fun hne => ht (.inr ⟨⟨k, hk⟩, hx.1, hx.2, hne⟩)
      · rfl
    rw [exec_frame_of_fault h hf, hregs, hmem]

end Instr

/-- Some byte is moved that makes a difference when the word at the program counter fails. -/
def Machine.Torn (m : Machine) : Prop :=
  ∃ w i, m.fetch = .ok w ∧ Instr.ofWord? w = some i ∧ i.Tears m

namespace Emulator

variable {e : Emulator}

section
variable (h : e.machine.regs.InRange) {r : Report} (hr : e.cycle.2.error = some r)
include h hr

/-- A failed cycle halts the emulator and releases the key, and apart from that changes nothing but
general registers and bytes in memory. -/
theorem frame_of_error :
    e.cycle.1 =
      e.failed
        { e.machine with
          regs := { e.machine.regs with v := e.cycle.1.machine.regs.v }
          mem := e.cycle.1.machine.mem } r := by
  have hc := cycled_cycle h
  generalize e.cycle = c at hr hc ⊢
  cases hc with
  | done => cases hr
  | unfetched | undefined => cases hr; rfl
  | fault hpc hw hi hf =>
    cases hr
    exact congrArg (e.failed · r) (Instr.exec_frame_of_fault h hf)

theorem machine_eq_iff_not_torn : e.cycle.1.machine = e.machine.releaseKey ↔ ¬ e.machine.Torn := by
  have hc := cycled_cycle h
  have hfetch := Machine.fetch_eq h
  generalize e.cycle = c at hr hc ⊢
  cases hc with
  | done => cases hr
  | unfetched hpc =>
    refine ⟨fun _ => ?_, fun _ => rfl⟩
    rintro ⟨w, i, hw, -⟩
    rw [if_neg (Int.not_lt.2 hpc), hw] at hfetch
    cases hfetch
  | undefined hpc hw hi =>
    refine ⟨fun _ => ?_, fun _ => rfl⟩
    rintro ⟨w', i, hw', hi', -⟩
    cases hw.symm.trans hw'
    cases hi.symm.trans hi'
  | @fault w i f _ hpc hw hi hf =>
    have htorn : e.machine.Torn ↔ i.Tears e.machine := by
      constructor
      · rintro ⟨w', i', hw', hi', ht⟩
        cases hw.symm.trans hw'
        cases hi.symm.trans hi'
        exact ht
      · exact fun ht => ⟨w, i, hw, hi, ht⟩
    rw [htorn, ← Instr.exec_eq_self_iff h hf]
    constructor
    · intro he
      have hregs := congrArg (fun m : Machine => m.regs.v) he
      have hmem := congrArg Machine.mem he
      change (i.exec e.machine).1.regs.v = e.machine.regs.v at hregs
      change (i.exec e.machine).1.mem = e.machine.mem at hmem
      rw [Instr.exec_frame_of_fault h hf, hregs, hmem]
    · exact congrArg Machine.releaseKey

end

/-- A failed cycle halts the emulator and releases the key. Of the machine it can change nothing
else but general registers and bytes in memory, and it does change those exactly if the machine was
torn. -/
theorem machine_of_error {e : Emulator} (h : e.machine.regs.InRange) {r : Report}
    (hr : e.cycle.2.error = some r) :
    let m := e.machine
    let m' := e.cycle.1.machine
    e.cycle.1 = { e with machine := m', running := false, halted := true, lastError := some r } ∧
      m' =
        { m with regs := { m.regs with v := m'.regs.v }, mem := m'.mem, keys := m.keys.release } ∧
      (m' = m.releaseKey ↔ ¬ m.Torn) := by
  have hframe := frame_of_error h hr
  refine ⟨?_, congrArg Emulator.machine hframe, machine_eq_iff_not_torn h hr⟩
  rw [hframe]
  rfl

/-- A load from the last address of memory on changes the first register before it fails. -/
theorem machine_of_error_load :
    let e := ((Emulator.new {}).loadRom [0x60, 0x2A, 0xAF, 0xFF, 0xF1, 0x65]).cycle.1.cycle.1
    (e.machine.regs.InRange ∧ ∃ r, e.cycle.2.error = some r) ∧
      e.machine.Torn ∧ e.cycle.1.machine ≠ e.machine.releaseKey := by
  have h₀ : ((Emulator.new {}).loadRom [0x60, 0x2A, 0xAF, 0xFF, 0xF1, 0x65]).machine.regs.InRange :=
    Registers.InRange.initial _
  have h := inRange_cycle (inRange_cycle h₀)
  have hrun :
      let e := ((Emulator.new {}).loadRom [0x60, 0x2A, 0xAF, 0xFF, 0xF1, 0x65]).cycle.1.cycle.1
      e.cycle.2.error.isSome ∧ e.cycle.1.machine.v 0 ≠ e.machine.v 0 := by
    decide +kernel
  generalize ((Emulator.new {}).loadRom [0x60, 0x2A, 0xAF, 0xFF, 0xF1, 0x65]).cycle.1.cycle.1 = e
    at h hrun ⊢
  obtain ⟨r, hr⟩ := Option.isSome_iff_exists.1 hrun.1
  obtain ⟨-, -, hiff⟩ := machine_of_error h hr
  have hne : e.cycle.1.machine ≠ e.machine.releaseKey := fun he => hrun.2 (by rw [he]; rfl)
  exact ⟨⟨h, r, hr⟩, Classical.not_not.1 (mt hiff.2 hne), hne⟩

/-- A store to the last address of memory on changes that byte before it fails. -/
theorem torn_store :
    let e := ((Emulator.new {}).loadRom [0x60, 0x07, 0xAF, 0xFF, 0xF1, 0x55]).cycle.1.cycle.1
    e.machine.regs.InRange ∧ e.cycle.2.error.isSome ∧
      e.machine.mem.peek 4095 = 0 ∧ e.cycle.1.machine.mem.peek 4095 = 7 := by
  have h₀ : ((Emulator.new {}).loadRom [0x60, 0x07, 0xAF, 0xFF, 0xF1, 0x55]).machine.regs.InRange :=
    Registers.InRange.initial _
  exact ⟨inRange_cycle (inRange_cycle h₀), by decide +kernel⟩

end Emulator

end ChipEight
