import ChipEight.Proofs.Notices

/-!
# What does not depend on chance

Two machines are alike if only the sources of their random bytes tell them apart. An instruction
does the same on both unless it puts a random byte through a mask that lets something of it pass
(`Instr.exec_alike`). So as long as no such instruction comes up, emulators with machines that are
alike stay in step whatever happens to both: their cycles come to the same, and a host is told the
same of them (`Emulator.Alike.moves`).
-/

namespace ChipEight

/-- A random byte shows in what an instruction does. -/
def Instr.draws : Instr → Bool
  | random _ mask => mask != 0
  | _ => false

namespace Machine

/-- Nothing but the source of random bytes tells the machines apart. -/
structure Alike (m m' : Machine) : Prop where
  regs : m'.regs = m.regs
  mem : m'.mem = m.mem
  screen : m'.screen = m.screen
  keys : m'.keys = m.keys

/-- A random byte shows in the next cycle. -/
def draws (m : Machine) : Bool := m.next?.any Instr.draws

variable {m m' m'' : Machine}

theorem Alike.refl (m : Machine) : m.Alike m := ⟨rfl, rfl, rfl, rfl⟩

theorem Alike.trans (h : m.Alike m') (h' : m'.Alike m'') : m.Alike m'' :=
  ⟨h'.regs.trans h.regs, h'.mem.trans h.mem, h'.screen.trans h.screen, h'.keys.trans h.keys⟩

theorem Alike.symm (h : m.Alike m') : m'.Alike m :=
  ⟨h.regs.symm, h.mem.symm, h.screen.symm, h.keys.symm⟩

end Machine

/-- The same has come of an instruction on two machines. -/
structure Effect.Alike (r r' : Effect) : Prop where
  machine : r.1.Alike r'.1
  flow : r'.2 = r.2

namespace Machine

variable {m m' : Machine}

theorem Alike.goOn (h : m.Alike m') : Effect.Alike m.goOn m'.goOn := ⟨h, rfl⟩

theorem Alike.skipIf (h : m.Alike m') (c : Bool) : Effect.Alike (m.skipIf c) (m'.skipIf c) := by
  refine ⟨?_, ?_⟩
  · rwa [skipIf_fst, skipIf_fst]
  · rw [skipIf_snd, skipIf_snd, h.regs]

theorem Alike.setV (h : m.Alike m') (x : Reg) (z : Int) : (m.setV x z).Alike (m'.setV x z) :=
  ⟨congrArg (fun r : Registers => r.setV x z) h.regs, h.mem, h.screen, h.keys⟩

theorem Alike.withSource (h : m.Alike m') (f : Registers → Registers) (t t' : Twister) :
    Alike { m with regs := f m.regs, source := t } { m' with regs := f m'.regs, source := t' } :=
  ⟨congrArg f h.regs, h.mem, h.screen, h.keys⟩

/-- Nothing of a random byte passes the mask. -/
theorem Alike.setRandom_zero (h : m.Alike m') (x : Reg) :
    (m.setRandom x 0).Alike (m'.setRandom x 0) := by
  rw [setRandom_eq, setRandom_eq, UInt8.and_zero, UInt8.and_zero]
  exact h.withSource (·.setV x _) _ _

theorem Alike.setFrom (h : m.Alike m') (k : Nat) (bs : List UInt8) :
    (setFrom k bs m).Alike (setFrom k bs m') := by
  induction bs generalizing k m m' with
  | nil => exact h
  | cons b bs ih =>
    unfold Machine.setFrom
    split
    · exact ih (h.setV _ _) _
    · exact h

theorem Alike.loadRom (h : m.Alike m') (rom : List UInt8) :
    (m.loadRom rom).Alike (m'.loadRom rom) :=
  ⟨h.regs, congrArg (Memory.place · _ rom) h.mem, h.screen, h.keys⟩

theorem Alike.loadFile (h : m.Alike m') (file : Option (List UInt8)) :
    (m.loadFile file).Alike (m'.loadFile file) := by
  unfold Machine.loadFile
  split
  · exact h.loadRom _
  · exact h

end Machine

/-- What an instruction does does not depend on chance, unless a random byte shows in it. -/
theorem Instr.exec_alike {i : Instr} (hi : i.draws = false) {m m' : Machine} (h : m.Alike m') :
    Effect.Alike (i.exec m) (i.exec m') := by
  obtain ⟨regs, mem, screen, keys, source⟩ := m
  obtain ⟨regs', mem', screen', keys', source'⟩ := m'
  obtain ⟨rfl, rfl, rfl, rfl⟩ := h
  have h : Machine.Alike ⟨regs', mem', screen', keys', source⟩
      ⟨regs', mem', screen', keys', source'⟩ :=
    ⟨rfl, rfl, rfl, rfl⟩
  cases i with
  | skipIfByte | skipUnlessByte | skipIfEqual | skipUnlessEqual | skipIfKey | skipUnlessKey =>
    exact h.skipIf _
  | random x mask =>
    obtain rfl : mask = 0 := bne_eq_false_iff_eq.1 hi
    rw [exec, exec]
    exact (h.setRandom_zero x).goOn
  | storeDecimal | store =>
    refine ⟨?_, ?_⟩
    · rw [exec, exec, Machine.storeAtIndex_fst, Machine.storeAtIndex_fst]
      exact ⟨rfl, rfl, rfl, rfl⟩
    · rw [exec, exec, Machine.storeAtIndex_snd, Machine.storeAtIndex_snd]
      exact Machine.finish_snd _ _ _
  | load =>
    refine ⟨?_, ?_⟩
    · rw [exec, exec, Machine.loadFromIndex_fst, Machine.loadFromIndex_fst]
      exact h.setFrom _ _
    · rw [exec, exec, Machine.loadFromIndex_snd, Machine.loadFromIndex_snd]
      exact Machine.finish_snd _ _ _
  | ret => simp only [exec]; split <;> exact ⟨⟨rfl, rfl, rfl, rfl⟩, rfl⟩
  | call => simp only [exec]; split <;> exact ⟨⟨rfl, rfl, rfl, rfl⟩, rfl⟩
  | awaitKey => simp only [exec]; split <;> exact ⟨⟨rfl, rfl, rfl, rfl⟩, rfl⟩
  | draw =>
    simp only [exec]
    split
    · exact ⟨⟨rfl, rfl, rfl, rfl⟩, rfl⟩
    · rw [Machine.drawRows_eq, Machine.drawRows_eq]
      dsimp only [Machine.v]
      split <;> exact ⟨⟨rfl, rfl, rfl, rfl⟩, rfl⟩
  | _ => exact ⟨⟨rfl, rfl, rfl, rfl⟩, rfl⟩

theorem Machine.Alike.exec_word {m m' : Machine} (h : m.Alike m') {w : Word} (hw : m.fetch = .ok w)
    (hd : m.draws = false) : Effect.Alike (w.exec m) (w.exec m') := by
  cases hi : Instr.ofWord? w with
  | none =>
    rw [Emulator.exec_of_none hi, Emulator.exec_of_none hi]
    exact ⟨h, rfl⟩
  | some i =>
    rw [Emulator.exec_of_some hi, Emulator.exec_of_some hi]
    rw [draws, next?_of_fetch hw, hi] at hd
    exact Instr.exec_alike hd h

namespace Emulator

/-- Nothing but the source of random bytes, whether they run and how fast tells them apart. -/
structure Alike (e e' : Emulator) : Prop where
  machine : e.machine.Alike e'.machine
  halted : e'.halted = e.halted
  steps : e'.steps = e.steps
  lastError : e'.lastError = e.lastError
  decrementSound : e'.decrementSound = e.decrementSound

variable {e e' e'' : Emulator}

theorem Alike.refl (e : Emulator) : e.Alike e := ⟨.refl _, rfl, rfl, rfl, rfl⟩

theorem Alike.trans (h : e.Alike e') (h' : e'.Alike e'') : e.Alike e'' :=
  ⟨h.machine.trans h'.machine, h'.halted.trans h.halted, h'.steps.trans h.steps,
    h'.lastError.trans h.lastError, h'.decrementSound.trans h.decrementSound⟩

theorem Alike.symm (h : e.Alike e') : e'.Alike e :=
  ⟨h.machine.symm, h.halted.symm, h.steps.symm, h.lastError.symm, h.decrementSound.symm⟩

theorem alike_with (e : Emulator) (source : Twister) (running : Bool) (clockHz : Int) :
    e.Alike { e with machine := { e.machine with source }, running, clockHz } :=
  ⟨⟨rfl, rfl, rfl, rfl⟩, rfl, rfl, rfl, rfl⟩

theorem alike_pause (e : Emulator) : e.Alike e.pause := e.alike_with _ _ _

theorem Alike.failed (h : e.Alike e') {m m' : Machine} (hm : m.Alike m') (r : Report) :
    (e.failed m r).Alike (e'.failed m' r) :=
  ⟨⟨hm.regs, hm.mem, hm.screen, congrArg KeyLatch.release hm.keys⟩, rfl, h.steps, rfl,
    h.decrementSound⟩

theorem Alike.done (h : e.Alike e') {m m' : Machine} (hm : m.Alike m') (flow : Flow) :
    (e.done m flow).Alike (e'.done m' flow) := by
  have hregs : ((e'.done m' flow).machine).regs = ((e.done m flow).machine).regs := by
    simp only [Emulator.done, Machine.advance, hm.regs, h.decrementSound]
  exact ⟨⟨hregs, hm.mem, hm.screen, congrArg KeyLatch.release hm.keys⟩, h.halted,
    congrArg (· + 1) h.steps, h.lastError, h.decrementSound⟩

/-- A cycle does not depend on chance, unless a random byte shows in it. -/
theorem Alike.cycle (h : e.Alike e') (hr : e.machine.regs.InRange) (hd : e.machine.draws = false) :
    e.cycle.1.Alike e'.cycle.1 ∧ e'.cycle.2 = e.cycle.2 := by
  have hfetch : e'.machine.fetch = e.machine.fetch := by
    rw [Machine.fetch, Machine.fetch, h.machine.mem, h.machine.regs]
  cases hw : e.machine.fetch with
  | error f =>
    rw [cycle_of_fetch_error hw, cycle_of_fetch_error (hfetch.trans hw), h.machine.regs, h.steps]
    exact ⟨h.failed h.machine _, rfl⟩
  | ok w =>
    have hexec := h.machine.exec_word hw hd
    cases hx : w.exec e.machine with | mk m r =>
    cases hx' : w.exec e'.machine with | mk m' r' =>
    rw [hx, hx'] at hexec
    obtain ⟨hm, rfl⟩ := hexec
    cases r' with
    | error b =>
      obtain ⟨f, rfl⟩ := Word.exists_fault_of_exec hr (congrArg Prod.snd hx)
      rw [cycle_of_fault hw hx, cycle_of_fault (hfetch.trans hw) hx', h.machine.regs, h.steps]
      exact ⟨h.failed hm _, rfl⟩
    | ok flow =>
      rw [cycle_of_ok hw hx, cycle_of_ok (hfetch.trans hw) hx', h.machine.regs, h.steps]
      exact ⟨h.done hm flow, rfl⟩

theorem Alike.withMachine (h : e.Alike e') {f : Machine → Machine}
    (hf : (f e.machine).Alike (f e'.machine)) : (e.withMachine f).Alike (e'.withMachine f) :=
  ⟨hf, h.halted, h.steps, h.lastError, h.decrementSound⟩

theorem Alike.withKeys (h : e.Alike e') (f : KeyLatch → KeyLatch) :
    (e.withKeys f).Alike (e'.withKeys f) :=
  h.withMachine
    ⟨h.machine.regs, h.machine.mem, h.machine.screen, congrArg f h.machine.keys⟩

theorem Alike.loadRom (h : e.Alike e') (rom : List UInt8) :
    (e.loadRom rom).Alike (e'.loadRom rom) :=
  h.withMachine (h.machine.loadRom rom)

/-- Switched off and on, emulators are alike if they are set up alike. -/
theorem alike_powerOn (hdepth : e'.machine.regs.depth = e.machine.regs.depth)
    (hsound : e'.decrementSound = e.decrementSound) : e.powerOn.Alike e'.powerOn :=
  ⟨⟨congrArg (Registers.initial · _) hdepth, rfl, rfl, rfl⟩, rfl, rfl, rfl, hsound⟩

theorem Alike.obey (h : e.Alike e') {c : Control} (hc : c ≠ .step) :
    (e.obey c).Alike (e'.obey c) := by
  cases c with
  | step => exact absurd rfl hc
  | pressKey code => exact h.withKeys (·.press code)
  | releaseKey => exact h.withKeys .release
  | setKey code => exact h.withKeys (·.setCode code)
  | setPressed pressed => exact h.withKeys (·.setPressed pressed)
  | start => exact ⟨h.machine, rfl, h.steps, h.lastError, h.decrementSound⟩
  | pause | stop => exact ⟨h.machine, h.halted, h.steps, h.lastError, h.decrementSound⟩
  | setClock hz =>
    simp only [Emulator.obey, setClock]
    split
    · exact h
    · exact ⟨h.machine, h.halted, h.steps, h.lastError, h.decrementSound⟩
  | powerOn => exact alike_powerOn (congrArg Registers.depth h.machine.regs) h.decrementSound
  | loadRom rom => exact h.loadRom rom
  | loadFile path file => exact h.withMachine (f := (·.loadFile file)) (h.machine.loadFile file)

/-! ### Moves -/

/-- No random byte shows in the cycles among some moves. -/
def Certain : Emulator → List Move → Prop
  | _, [] => True
  | e, m :: ms => (m = .control .step → e.machine.draws = false) ∧ (e.move m).Certain ms

/-- What comes of a move that is a cycle. -/
def outcomeOf (e : Emulator) : Move → List Outcome
  | .control .step => [e.cycle.2]
  | _ => []

/-- What comes of the cycles among some moves. -/
def outcomes : Emulator → List Move → List Outcome
  | _, [] => []
  | e, m :: ms => e.outcomeOf m ++ outcomes (e.move m) ms

theorem outcomeOf_of_ne_step {m : Move} (h : m ≠ .control .step) : e.outcomeOf m = [] := by
  cases m with
  | giveUp => rfl
  | control c =>
    cases c with
    | step => exact absurd rfl h
    | _ => rfl

theorem Alike.move (h : e.Alike e') (hr : e.machine.regs.InRange) {m : Move}
    (hd : m = .control .step → e.machine.draws = false) :
    (e.move m).Alike (e'.move m) ∧ e'.outcomeOf m = e.outcomeOf m ∧
      ∀ fail k, e'.heardOf fail k m = e.heardOf fail k m := by
  by_cases hm : m = .control .step
  · subst hm
    obtain ⟨hcycle, hout⟩ := h.cycle hr (hd rfl)
    exact ⟨hcycle, congrArg (fun o => [o]) hout, fun fail k => block_congr hout h.steps
      hcycle.machine.regs hcycle.machine.mem hcycle.machine.screen _⟩
  · refine ⟨?_, ?_, fun fail k => ?_⟩
    · cases m with
      | giveUp => exact ⟨h.machine, rfl, h.steps, h.lastError, h.decrementSound⟩
      | control c => exact h.obey fun hc => hm (congrArg Move.control hc)
    · rw [outcomeOf_of_ne_step hm, outcomeOf_of_ne_step hm]
    · rw [heardOf_of_ne_step hm, heardOf_of_ne_step hm]

/-- Emulators that are alike stay in step as long as no random byte shows. -/
theorem Alike.moves {depth : Option Int} (h : e.Alike e') (hwf : e.WellFormed depth)
    {ms : List Move} (hc : e.Certain ms) :
    (e.moves ms).Alike (e'.moves ms) ∧ e'.outcomes ms = e.outcomes ms ∧
      ∀ fail k, e'.tale fail k ms = e.tale fail k ms := by
  induction ms generalizing e e' with
  | nil => exact ⟨h, rfl, fun _ _ => rfl⟩
  | cons m ms ih =>
    obtain ⟨hmove, hout, hheard⟩ := h.move hwf.regs.toInRange hc.1
    obtain ⟨hmoves, houts, htale⟩ := ih hmove (wellFormed_move m hwf) hc.2
    refine ⟨hmoves, ?_, fun fail k => ?_⟩
    · rw [outcomes, outcomes, hout, houts]
    · rw [tale, tale, hheard, htale]

end Emulator

end ChipEight
