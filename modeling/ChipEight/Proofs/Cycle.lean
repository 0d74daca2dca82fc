import ChipEight.Emulator
import ChipEight.Proofs.Exec

/-!
# What a cycle does

`Emulator.Cycled` lists the four ways in which a cycle goes: no word can be fetched, the word has no
instruction, the instruction has a fault, or it is carried out. With registers in range every cycle
goes one of these ways (`Emulator.cycled_cycle`); in particular it is never broken off without a
report.
-/

namespace ChipEight

namespace Machine

variable {m : Machine}

/-- The instruction that the next cycle carries out, or tries to. -/
def next? (m : Machine) : Option Instr := m.fetch.toOption.bind Instr.ofWord?

theorem next?_of_fetch {w : Word} (hw : m.fetch = .ok w) : m.next? = Instr.ofWord? w := by
  rw [next?, hw]; rfl

/-- An instruction comes next only if its word is in memory. -/
theorem exists_fetch_of_next? {i : Instr} (h : m.next? = some i) :
    ∃ w, m.fetch = .ok w ∧ Instr.ofWord? w = some i ∧
      0 ≤ m.regs.pc ∧ m.regs.pc + 1 < memorySize := by
  cases hw : m.fetch with
  | error f => rw [next?, hw] at h; cases h
  | ok w =>
    refine ⟨w, rfl, (next?_of_fetch hw).symm.trans h, ?_⟩
    unfold fetch Memory.readWord at hw
    split at hw
    · assumption
    · cases hw

theorem fetch_eq (h : m.regs.InRange) :
    m.fetch =
      if m.regs.pc + 1 < memorySize then
        .ok (.ofBytes (m.mem.peek m.regs.pc.toNat) (m.mem.peek (m.regs.pc.toNat + 1)))
      else .error (.outOfProgram m.regs.pc) := by
  have hiff : 0 ≤ m.regs.pc ∧ m.regs.pc + 1 < memorySize ↔ m.regs.pc + 1 < memorySize :=
    and_iff_right h.pc.1
  simp only [fetch, Memory.readWord_eq, hiff]

end Machine

namespace Emulator

variable {e : Emulator}

/-- The emulator after a cycle that failed with a report, and left the machine `m`. -/
def failed (e : Emulator) (m : Machine) (r : Report) : Emulator :=
  { e with machine := m.releaseKey, running := false, halted := true, lastError := some r }

/-- The emulator after a cycle that succeeded, `m` being the machine after the instruction. -/
def done (e : Emulator) (m : Machine) (flow : Flow) : Emulator :=
  { e with machine := m.advance flow e.decrementSound, steps := e.steps + 1 }

theorem cycle_of_fetch_error {f : Fault} (hf : e.machine.fetch = .error f) :
    e.cycle =
      (e.failed e.machine (f.inCycle e.machine.regs.pc none),
        ⟨e.steps, e.machine.regs.pc, none, .failed (f.inCycle e.machine.regs.pc none)⟩) := by
  have ha : e.machine.attempt e.machine.regs.pc = (e.machine, none, .error (.fault f)) := by
    simp only [Machine.fetch] at hf
    simp only [Machine.attempt, hf]
  simp only [cycle, ha]
  rfl

variable {w : Word} {m : Machine}

theorem attempt_of_fetch {r : Except Breakdown Flow} (hw : e.machine.fetch = .ok w)
    (hx : w.exec e.machine = (m, r)) :
    e.machine.attempt e.machine.regs.pc = (m, some w, r) := by
  simp only [Machine.fetch] at hw
  simp only [Machine.attempt, hw, hx]

theorem cycle_of_fault {f : Fault} (hw : e.machine.fetch = .ok w)
    (hx : w.exec e.machine = (m, .error (.fault f))) :
    e.cycle =
      (e.failed m (f.inCycle e.machine.regs.pc (some w)),
        ⟨e.steps, e.machine.regs.pc, some w, .failed (f.inCycle e.machine.regs.pc (some w))⟩) := by
  simp only [cycle, attempt_of_fetch hw hx]
  rfl

theorem cycle_of_ok {flow : Flow} (hw : e.machine.fetch = .ok w)
    (hx : w.exec e.machine = (m, .ok flow)) :
    e.cycle = (e.done m flow, ⟨e.steps + 1, e.machine.regs.pc, some w, .done⟩) := by
  simp only [cycle, attempt_of_fetch hw hx]
  rfl

theorem exec_of_none (hi : Instr.ofWord? w = none) (m : Machine) :
    w.exec m = m.fail (.undefined w) := by
  simp only [Word.exec, hi]

theorem exec_of_some {i : Instr} (hi : Instr.ofWord? w = some i) (m : Machine) :
    w.exec m = i.exec m := by
  simp only [Word.exec, hi]

theorem cycle_of_next? {i : Instr} {flow : Flow} (hi : e.machine.next? = some i)
    (hx : i.exec e.machine = (m, .ok flow)) :
    ∃ w, e.cycle = (e.done m flow, ⟨e.steps + 1, e.machine.regs.pc, some w, .done⟩) := by
  obtain ⟨w, hw, hwi, -⟩ := Machine.exists_fetch_of_next? hi
  exact ⟨w, cycle_of_ok hw ((exec_of_some hwi e.machine).trans hx)⟩

/-- Apart from the machine, a cycle that succeeds is counted, and one that fails halts the emulator
and leaves its report. -/
theorem cycle_fst (e : Emulator) :
    e.cycle.1 =
      match e.cycle.2.ending with
      | .done => { e with machine := e.cycle.1.machine, steps := e.steps + 1 }
      | .failed r =>
        { e with
          machine := e.cycle.1.machine, running := false, halted := true, lastError := some r }
      | .broken _ => { e with machine := e.cycle.1.machine } := by
  obtain ⟨m, running, halted, steps, clockHz, lastError, decrementSound⟩ := e
  unfold cycle
  simp only
  split <;> rfl

/-- The ways in which a cycle goes, in the order in which they are told apart, and its result. -/
inductive Cycled (e : Emulator) : Emulator × Outcome → Prop
  /-- The program counter has left memory. -/
  | unfetched {r : Report} (hpc : memorySize ≤ e.machine.regs.pc + 1)
      (hr : r = Fault.inCycle (.outOfProgram e.machine.regs.pc) e.machine.regs.pc none) :
      Cycled e (e.failed e.machine r, ⟨e.steps, e.machine.regs.pc, none, .failed r⟩)
  | undefined {w : Word} {r : Report} (hpc : e.machine.regs.pc + 1 < memorySize)
      (hw : e.machine.fetch = .ok w) (hi : Instr.ofWord? w = none)
      (hr : r = Fault.inCycle (.undefined w) e.machine.regs.pc (some w)) :
      Cycled e (e.failed e.machine r, ⟨e.steps, e.machine.regs.pc, some w, .failed r⟩)
  | fault {w : Word} {i : Instr} {f : Fault} {r : Report}
      (hpc : e.machine.regs.pc + 1 < memorySize) (hw : e.machine.fetch = .ok w)
      (hi : Instr.ofWord? w = some i) (hf : i.fault? e.machine.regs = some f)
      (hr : r = f.inCycle e.machine.regs.pc (some w)) :
      Cycled e (e.failed (i.exec e.machine).1 r, ⟨e.steps, e.machine.regs.pc, some w, .failed r⟩)
  | done {w : Word} {i : Instr} {flow : Flow} (hpc : e.machine.regs.pc + 1 < memorySize)
      (hw : e.machine.fetch = .ok w) (hi : Instr.ofWord? w = some i)
      (hf : i.fault? e.machine.regs = none) (hx : (i.exec e.machine).2 = .ok flow) :
      Cycled e (e.done (i.exec e.machine).1 flow, ⟨e.steps + 1, e.machine.regs.pc, some w, .done⟩)

theorem cycled_cycle (h : e.machine.regs.InRange) : e.Cycled e.cycle := by
  have hfetch := Machine.fetch_eq h
  by_cases hpc : e.machine.regs.pc + 1 < memorySize
  · obtain ⟨w, hw⟩ : ∃ w, e.machine.fetch = .ok w := ⟨_, by rw [hfetch, if_pos hpc]⟩
    cases hi : Instr.ofWord? w with
    | none =>
      rw [cycle_of_fault hw (exec_of_none hi e.machine)]
      exact .undefined hpc hw hi rfl
    | some i =>
      cases hf : i.fault? e.machine.regs with
      | some f =>
        have hx : w.exec e.machine = ((i.exec e.machine).1, .error (.fault f)) := by
          rw [exec_of_some hi, ← Instr.exec_of_fault h hf]
        rw [cycle_of_fault hw hx]
        exact .fault hpc hw hi hf rfl
      | none =>
        obtain ⟨flow, hflow⟩ := Instr.exec_of_no_fault h hf
        have hx : w.exec e.machine = ((i.exec e.machine).1, .ok flow) := by
          rw [exec_of_some hi, ← hflow]
        rw [cycle_of_ok hw hx]
        exact .done hpc hw hi hf hflow
  · rw [if_neg hpc] at hfetch
    rw [cycle_of_fetch_error hfetch]
    exact .unfetched (Int.not_lt.1 hpc) rfl

theorem ending_ne_broken (h : e.machine.regs.InRange) (p : Misplaced) :
    e.cycle.2.ending ≠ .broken p := by
  have hc := cycled_cycle h
  generalize e.cycle = c at hc
  cases hc <;> intro hb <;> cases hb

theorem ending_cases (h : e.machine.regs.InRange) :
    e.cycle.2.ending = .done ∧ e.cycle.2.error = none ∨
      ∃ r, e.cycle.2.ending = .failed r ∧ e.cycle.2.error = some r := by
  have hc := cycled_cycle h
  generalize e.cycle = c at hc ⊢
  cases hc with
  | done => exact .inl ⟨rfl, rfl⟩
  | unfetched | undefined | fault => exact .inr ⟨_, rfl, rfl⟩

/-! ### Registers -/

/-- What is stable, and holds wherever the program counter points and whatever the timers show,
holds after a cycle, whether or not it fails. -/
theorem stable_cycle {P : Registers → Prop} (hP : Registers.Stable P)
    (hpc : ∀ {r a}, 0 ≤ a ∧ a < 65536 → P r → P { r with pc := a })
    (htick : ∀ {r} b, P r → P (r.tick b)) (h : e.machine.regs.InRange) (hp : P e.machine.regs) :
    P e.cycle.1.machine.regs := by
  have hc := cycled_cycle h
  generalize e.cycle = c at hc
  cases hc with
  | unfetched | undefined => exact hp
  | fault => exact hP.exec hp _
  | @done w i flow =>
    refine htick _ (hpc ?_ (hP.exec hp i))
    cases flow <;> exact ⟨Int.emod_nonneg _ (by decide), Int.emod_lt_of_pos _ (by decide)⟩

theorem inRange_cycle (h : e.machine.regs.InRange) : e.cycle.1.machine.regs.InRange :=
  stable_cycle Registers.stable_inRange (fun ha h => h.withPc ha) (fun b h => h.tick b) h h

/-! ### Cycles -/

def cycles : Nat → Emulator → Emulator
  | 0, e => e
  | n + 1, e => e.cycle.1.cycles n

end Emulator

end ChipEight
