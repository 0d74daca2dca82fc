import ChipEight.Proofs.Notices

/-!
# What the controls reach

A control that is `peripheral` reaches nothing but the key latch, whether the emulator runs or has
halted, and how fast. Emulators that nothing else tells apart are `Aligned`.

No instruction changes the latch (`Instr.keys_exec`), so a cycle leaves it as it was but released
(`Emulator.keys_cycle`). One that does not look at it does the same whatever it holds
(`Instr.exec_setKeys`). So a cycle comes to the same on emulators that are aligned, if their latches
are equal or the instruction does not look (`Emulator.Aligned.cycle`).
-/

namespace ChipEight

/-- What the instruction does depends on the key latch. -/
def Instr.readsKey : Instr → Bool
  | skipIfKey _ => true
  | skipUnlessKey _ => true
  | awaitKey _ => true
  | _ => false

/-- A control that leaves the program and what has become of it alone. -/
def Control.peripheral : Control → Bool
  | powerOn => false
  | loadRom _ => false
  | loadFile _ _ => false
  | step => false
  | _ => true

def Move.peripheral : Move → Bool
  | .control c => c.peripheral
  | .giveUp => true

def Move.isCycle : Move → Bool
  | .control .step => true
  | _ => false

theorem Move.isCycle_iff {m : Move} : m.isCycle ↔ m = .control .step := by
  refine ⟨fun h => ?_, by rintro rfl; rfl⟩
  unfold isCycle at h
  split at h
  · rfl
  · cases h

theorem Move.ne_step_of_peripheral {m : Move} (h : m.peripheral) : m ≠ .control .step := by
  rintro rfl
  cases h

namespace Machine

variable {m m' : Machine}

def setKeys (m : Machine) (keys : KeyLatch) : Machine := { m with keys }

/-- The next cycle looks at the key latch. -/
def readsKey (m : Machine) : Bool := m.next?.any Instr.readsKey

theorem setFrom_setKeys (m : Machine) (keys : KeyLatch) (k : Nat) (bs : List UInt8) :
    setFrom k bs (m.setKeys keys) = (setFrom k bs m).setKeys keys := by
  induction bs generalizing k m with
  | nil => rfl
  | cons b bs ih =>
    unfold setFrom
    split
    · exact ih (m.setV _ _) _
    · rfl

end Machine

theorem Instr.exec_setKeys {i : Instr} (hi : i.readsKey = false) (m : Machine) (keys : KeyLatch) :
    i.exec (m.setKeys keys) = ((i.exec m).1.setKeys keys, (i.exec m).2) := by
  cases i with
  | skipIfKey | skipUnlessKey | awaitKey => cases hi
  | skipIfByte | skipUnlessByte | skipIfEqual | skipUnlessEqual =>
    rw [exec, exec]
    exact Prod.ext (by rw [Machine.skipIf_fst, Machine.skipIf_fst])
      (by rw [Machine.skipIf_snd, Machine.skipIf_snd]; rfl)
  | storeDecimal | store =>
    rw [exec, exec]
    refine Prod.ext ?_ ?_
    · rw [Machine.storeAtIndex_fst, Machine.storeAtIndex_fst]
      rfl
    · rw [Machine.storeAtIndex_snd, Machine.storeAtIndex_snd]
      exact Machine.finish_snd _ _ _
  | load =>
    rw [exec, exec]
    refine Prod.ext ?_ ?_
    · rw [Machine.loadFromIndex_fst, Machine.loadFromIndex_fst]
      exact m.setFrom_setKeys keys _ _
    · rw [Machine.loadFromIndex_snd, Machine.loadFromIndex_snd]
      exact Machine.finish_snd _ _ _
  | ret => simp only [exec, Machine.setKeys]; split <;> rfl
  | call => simp only [exec, Machine.setKeys]; split <;> rfl
  | draw =>
    simp only [exec, Machine.setKeys]
    split
    · rfl
    · rw [Machine.drawRows_eq, Machine.drawRows_eq]
      dsimp only [Machine.v]
      split <;> rfl
  | random => rw [exec, exec, Machine.setRandom_eq, Machine.setRandom_eq]; rfl
  | _ => rfl

theorem Instr.keys_exec (i : Instr) (m : Machine) : (i.exec m).1.keys = m.keys := by
  cases hi : i.readsKey with
  | false => exact congrArg (fun r : Effect => r.1.keys) (exec_setKeys hi m m.keys)
  | true =>
    cases i with
    | skipIfKey | skipUnlessKey => rw [exec, Machine.skipIf_fst]
    | awaitKey => simp only [exec]; split <;> rfl
    | _ => cases hi

theorem Word.keys_exec (w : Word) (m : Machine) : (w.exec m).1.keys = m.keys := by
  unfold exec
  split
  · exact Instr.keys_exec _ m
  · rfl

namespace Machine

variable {m m' : Machine}

theorem keys_attempt (m : Machine) (addr : Int) : (m.attempt addr).1.keys = m.keys := by
  unfold attempt
  split
  · rfl
  · exact Word.keys_exec _ m

/-- What the latch holds makes no difference to a word that does not look at it. -/
theorem attempt_setKeys {keys : KeyLatch} (h : keys = m.keys ∨ m.readsKey = false) :
    (m.setKeys keys).attempt m.regs.pc =
      ((m.attempt m.regs.pc).1.setKeys keys, (m.attempt m.regs.pc).2) := by
  rcases h with rfl | h
  · refine Prod.ext ?_ rfl
    show (m.attempt m.regs.pc).1 = (m.attempt m.regs.pc).1.setKeys m.keys
    rw [← m.keys_attempt m.regs.pc]
    rfl
  · cases hw : m.fetch with
    | error f =>
      have hw' : m.mem.readWord m.regs.pc = .error f := hw
      simp only [attempt, setKeys, hw']
    | ok w =>
      have hw' : m.mem.readWord m.regs.pc = .ok w := hw
      have hexec : w.exec (m.setKeys keys) = ((w.exec m).1.setKeys keys, (w.exec m).2) := by
        rw [readsKey, next?_of_fetch hw] at h
        cases hi : Instr.ofWord? w with
        | none => simp only [Word.exec, hi]; rfl
        | some i =>
          rw [hi] at h
          simp only [Word.exec, hi]
          exact Instr.exec_setKeys h m keys
      simp only [attempt]
      rw [show (m.setKeys keys).mem.readWord m.regs.pc = .ok w from hw', hw']
      simp only [hexec]

/-- Nothing but the key latch tells the machines apart. -/
structure Aligned (m m' : Machine) : Prop where
  regs : m'.regs = m.regs
  mem : m'.mem = m.mem
  screen : m'.screen = m.screen
  source : m'.source = m.source

theorem Aligned.eq_setKeys (h : m.Aligned m') : m' = m.setKeys m'.keys :=
  Machine.ext h.regs h.mem h.screen rfl h.source

end Machine

namespace Emulator

variable {e e' e'' : Emulator} {ms ns : List Move}

/-- What holds of the machine whenever a cycle among some moves begins. -/
def EachBegins (P : Machine → Prop) : Emulator → List Move → Prop
  | _, [] => True
  | e, m :: ms => (m.isCycle → P e.machine) ∧ (e.move m).EachBegins P ms

instance EachBegins.decidable (P : Machine → Prop) [DecidablePred P] :
    (e : Emulator) → (ms : List Move) → Decidable (e.EachBegins P ms)
  | _, [] => .isTrue trivial
  | e, m :: ms =>
    have := EachBegins.decidable P (e.move m) ms
    inferInstanceAs (Decidable ((m.isCycle → P e.machine) ∧ (e.move m).EachBegins P ms))

theorem eachBegins_append {P : Machine → Prop} :
    e.EachBegins P (ms ++ ns) ↔ e.EachBegins P ms ∧ (e.moves ms).EachBegins P ns := by
  induction ms generalizing e with
  | nil => exact ⟨fun h => ⟨trivial, h⟩, And.right⟩
  | cons m ms ih => exact (and_congr_right fun _ => ih).trans and_assoc.symm

theorem keys_cycle (e : Emulator) : e.cycle.1.machine.keys = e.machine.keys.release := by
  have h := e.machine.keys_attempt e.machine.regs.pc
  obtain ⟨m, running, halted, steps, clockHz, lastError, decrementSound⟩ := e
  unfold cycle
  simp only at h ⊢
  generalize m.attempt m.regs.pc = r at h ⊢
  obtain ⟨m', w, (f | p) | flow⟩ := r <;> exact congrArg KeyLatch.release h

/-- Nothing but the key latch, whether they run or have halted, and how fast tells them apart. -/
structure Aligned (e e' : Emulator) : Prop where
  machine : e.machine.Aligned e'.machine
  steps : e'.steps = e.steps
  lastError : e'.lastError = e.lastError
  decrementSound : e'.decrementSound = e.decrementSound

namespace Aligned

theorem refl (e : Emulator) : e.Aligned e := ⟨⟨rfl, rfl, rfl, rfl⟩, rfl, rfl, rfl⟩

theorem symm (h : e.Aligned e') : e'.Aligned e :=
  ⟨⟨h.machine.regs.symm, h.machine.mem.symm, h.machine.screen.symm, h.machine.source.symm⟩,
    h.steps.symm, h.lastError.symm, h.decrementSound.symm⟩

theorem trans (h : e.Aligned e') (h' : e'.Aligned e'') : e.Aligned e'' :=
  ⟨⟨h'.machine.regs.trans h.machine.regs, h'.machine.mem.trans h.machine.mem,
    h'.machine.screen.trans h.machine.screen, h'.machine.source.trans h.machine.source⟩,
    h'.steps.trans h.steps, h'.lastError.trans h.lastError,
    h'.decrementSound.trans h.decrementSound⟩

/-- A cycle comes to the same, unless it looks at latches that differ. -/
theorem cycle (h : e.Aligned e')
    (hkeys : e'.machine.keys = e.machine.keys ∨ e.machine.readsKey = false) :
    e.cycle.1.Aligned e'.cycle.1 ∧ e'.cycle.2 = e.cycle.2 := by
  have hattempt := Machine.attempt_setKeys hkeys
  obtain ⟨m, running, halted, steps, clockHz, lastError, decrementSound⟩ := e
  obtain ⟨m', running', halted', steps', clockHz', lastError', decrementSound'⟩ := e'
  obtain ⟨hm, rfl, rfl, rfl⟩ := h
  have hm' : m' = m.setKeys m'.keys := hm.eq_setKeys
  simp only at hattempt
  rw [← hm'] at hattempt
  have hpc : m'.regs.pc = m.regs.pc := congrArg Registers.pc hm.regs
  unfold Emulator.cycle
  simp only [hpc, hattempt]
  generalize m.attempt m.regs.pc = r
  obtain ⟨m₁, w, (f | p) | flow⟩ := r <;> exact ⟨⟨⟨rfl, rfl, rfl, rfl⟩, rfl, rfl, rfl⟩, rfl⟩

end Aligned

theorem aligned_of_peripheral {m : Move} (h : m.peripheral) (e : Emulator) :
    e.Aligned (e.move m) := by
  rcases m with c | _
  · cases c with
    | powerOn | loadRom | loadFile | step => cases h
    | setClock hz =>
      simp only [move, obey, setClock]
      split
      · exact .refl e
      · exact ⟨⟨rfl, rfl, rfl, rfl⟩, rfl, rfl, rfl⟩
    | _ => exact ⟨⟨rfl, rfl, rfl, rfl⟩, rfl, rfl, rfl⟩
  · exact ⟨⟨rfl, rfl, rfl, rfl⟩, rfl, rfl, rfl⟩

end Emulator

end ChipEight
