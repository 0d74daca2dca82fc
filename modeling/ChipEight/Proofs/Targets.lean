import ChipEight.Proofs.Calls
import ChipEight.Proofs.Latch

/-!
# Where the program goes on

`Instr.target` is the address at which the program goes on after an instruction, an integer of any
size. Every word that is carried out lies in memory, so there are few targets outside of it: those
just behind the last bytes, and those of a jump with an offset (`Instr.target_mem`). So the program
counter and the return addresses stay far below sixteen bits (`Registers.Near`), cutting them to
that size never changes one, and a program that has left memory fails there
(`Emulator.never_wraps`).
-/

namespace ChipEight

namespace Machine

variable (m : Machine)

/-- The next instruction but one if `c` holds, and else the next. -/
def pastIf (c : Prop) [Decidable c] : Int := m.regs.pc + if c then 4 else 2

theorem pastIf_mem (h : 0 ≤ m.regs.pc ∧ m.regs.pc + 1 < memorySize) (c : Prop) [Decidable c] :
    0 ≤ m.pastIf c ∧ m.pastIf c ≤ 0x10FE := by
  have hsize : memorySize = 4096 := rfl
  unfold pastIf
  split <;> omega

end Machine

/-- Where the program goes on after an instruction that is carried out. -/
def Instr.target (i : Instr) (m : Machine) : Int :=
  match i with
  | ret => m.regs.stack.back?.getD 0
  | jump t => t.val
  | call t => t.val
  | skipIfByte x k => m.pastIf (m.v x = k.toNat)
  | skipUnlessByte x k => m.pastIf (m.v x ≠ k.toNat)
  | skipIfEqual x y => m.pastIf (m.v x = m.v y)
  | skipUnlessEqual x y => m.pastIf (m.v x ≠ m.v y)
  | jumpOffset t => m.v .first + t.val
  | skipIfKey x => m.pastIf (m.keys.code.toNat = m.v x)
  | skipUnlessKey x => m.pastIf (m.keys.code.toNat ≠ m.v x)
  | awaitKey _ => if m.keys.pressed then m.regs.pc + 2 else m.regs.pc
  | _ => m.regs.pc + 2

/-- The address that a flow leads to from the instruction at `pc`. -/
def Flow.address (pc : Int) : Flow → Int
  | next => pc + 2
  | jump target => target

theorem Machine.nextPc_eq (pc : Int) (flow : Flow) :
    nextPc pc flow = flow.address pc % 65536 := by
  cases flow <;> rfl

theorem Machine.address_skipIf {m : Machine} {c : Bool} {flow : Flow}
    (hx : (m.skipIf c).2 = .ok flow) : flow.address m.regs.pc = m.pastIf c := by
  rw [skipIf_snd] at hx
  cases hx
  cases c <;> rfl

theorem Machine.address_finish {m m' : Machine} {f : Option Fault} {flow : Flow}
    (hx : (m.finish f).2 = .ok flow) : flow.address m'.regs.pc = m'.regs.pc + 2 := by
  cases f with
  | none => cases hx; rfl
  | some f => cases hx

theorem Instr.address_eq {i : Instr} {m : Machine} (h : m.regs.InRange) {flow : Flow}
    (hx : (i.exec m).2 = .ok flow) : flow.address m.regs.pc = i.target m := by
  cases i with
  | skipIfByte | skipIfEqual | skipIfKey | skipUnlessByte | skipUnlessEqual | skipUnlessKey =>
    rw [Machine.address_skipIf hx]
    simp [target, KeyLatch.isKey, Machine.pastIf]
  | ret =>
    cases hb : m.regs.stack.back? with
    | none => simp only [exec, hb] at hx; cases hx
    | some a =>
      simp only [exec, hb] at hx
      cases hx
      simp only [target, hb]
      rfl
  | call t =>
    cases hd : m.regs.full? with
    | some d => simp only [exec, hd] at hx; cases hx
    | none => simp only [exec, hd] at hx; cases hx; rfl
  | awaitKey x =>
    simp only [exec] at hx
    unfold target
    split at hx
    · next hp => cases hx; rw [if_pos hp]; rfl
    · next hp => cases hx; rw [if_neg hp]; rfl
  | draw x y n =>
    simp only [exec] at hx
    split at hx
    · cases hx
    · rw [Machine.drawRows_snd h] at hx
      cases hx
      rfl
  | storeDecimal | store =>
    rw [exec, Machine.storeAtIndex_snd] at hx
    exact Machine.address_finish hx
  | load =>
    rw [exec, Machine.loadFromIndex_snd] at hx
    exact Machine.address_finish hx
  | _ => cases hx; rfl

/-! ### Near memory -/

/-- The program counter and the return addresses are no farther from memory than they can come. -/
structure Registers.Near (r : Registers) : Prop where
  pc : r.pc ≤ 0x10FE
  stack : ∀ a ∈ r.stack, a ≤ 0x1000

theorem Registers.near_initial (depth : Option Int) :
    (Registers.initial depth Memory.programStart).Near := by
  refine ⟨?_, ?_⟩ <;> simp [initial, Memory.programStart]

/-- The words behind the last one are where the stack's addresses end. -/
theorem Registers.stable_near {pc : Int} (h : 0 ≤ pc ∧ pc + 1 < memorySize) :
    Stable fun r => r.pc = pc ∧ ∀ a ∈ r.stack, a ≤ 0x1000 where
  setV _ _ h := h
  setIndex _ h := h
  pushed {r} _ hr := by
    obtain ⟨rfl, hstack⟩ := hr
    refine ⟨rfl, fun a ha => ?_⟩
    have hsize : memorySize = 4096 := rfl
    rcases Array.mem_push.1 ha with ha | rfl
    · exact hstack a ha
    · omega
  popped h := ⟨h.1, fun a ha => h.2 a (mem_of_mem_popped ha)⟩
  setDelay _ h := h
  setSound _ h := h

theorem Instr.target_mem (i : Instr) {m : Machine} (h : m.regs.InRange) (hnear : m.regs.Near)
    (hpc : m.regs.pc + 1 < memorySize) : 0 ≤ i.target m ∧ i.target m ≤ 0x10FE := by
  obtain ⟨hpc₀, -⟩ := h.pc
  have hsize : memorySize = 4096 := rfl
  cases i with
  | ret =>
    unfold target
    cases hb : m.regs.stack.back? with
    | none => simp
    | some a =>
      have ha : a ∈ m.regs.stack := Array.mem_of_back? hb
      have hlow := (h.stack a ha).1
      have hhigh := hnear.stack a ha
      simp only [Option.getD_some]
      omega
  | jump t | call t =>
    have ht := t.isLt
    simp only [target]
    omega
  | jumpOffset t =>
    have ht := t.isLt
    obtain ⟨hlow, hhigh⟩ : 0 ≤ m.v Reg.first ∧ m.v Reg.first < 256 := h.v Reg.first
    simp only [target]
    omega
  | skipIfByte | skipIfEqual | skipIfKey | skipUnlessByte | skipUnlessEqual | skipUnlessKey =>
    exact m.pastIf_mem ⟨hpc₀, hpc⟩ _
  | awaitKey x =>
    simp only [target]
    split <;> omega
  | _ =>
    simp only [target]
    omega

namespace Emulator

variable {e : Emulator}

/-- A cycle that succeeds goes on at the target of its instruction, and not elsewhere because that
were cut to its size. -/
theorem pc_of_done (h : e.machine.regs.InRange) (hnear : e.machine.regs.Near)
    (hd : e.cycle.2.ending = .done) :
    ∃ i, e.machine.next? = some i ∧ e.cycle.1.machine.regs.pc = i.target e.machine ∧
      i.target e.machine ≤ 0x10FE := by
  have hc := cycled_cycle h
  generalize e.cycle = c at hd hc ⊢
  cases hc with
  | unfetched | undefined | fault => cases hd
  | @done w i flow hpc hw hi hf hx =>
    obtain ⟨hlow, hhigh⟩ := i.target_mem h hnear hpc
    have hkept : (i.exec e.machine).1.regs.pc = e.machine.regs.pc :=
      (Registers.stable_pc e.machine.regs.pc).exec rfl i
    refine ⟨i, (Machine.next?_of_fetch hw).trans hi, ?_, hhigh⟩
    show Machine.nextPc (i.exec e.machine).1.regs.pc flow = _
    rw [Machine.nextPc_eq, hkept, Instr.address_eq h hx]
    exact Int.emod_eq_of_lt hlow (by omega)

theorem near_cycle (h : e.machine.regs.InRange) (hnear : e.machine.regs.Near) :
    e.cycle.1.machine.regs.Near := by
  have hpc₀ := h.pc.1
  have hdone := pc_of_done h hnear
  have hc := cycled_cycle h
  generalize e.cycle = c at hdone hc ⊢
  cases hc with
  | unfetched | undefined => exact hnear
  | @fault w i _ _ hpc =>
    have hkept := (Registers.stable_near ⟨hpc₀, hpc⟩).exec ⟨rfl, hnear.stack⟩ i
    exact ⟨hkept.1 ▸ hnear.pc, hkept.2⟩
  | @done w i flow hpc =>
    obtain ⟨_, -, hpc', hle⟩ := hdone rfl
    exact ⟨hpc' ▸ hle, ((Registers.stable_near ⟨hpc₀, hpc⟩).exec ⟨rfl, hnear.stack⟩ i).2⟩

/-- Outside of memory there is nothing to be fetched. -/
theorem cycle_of_outside (h : e.machine.regs.InRange) (hpc : memorySize ≤ e.machine.regs.pc + 1) :
    let r := (Fault.outOfProgram e.machine.regs.pc).inCycle e.machine.regs.pc none
    e.cycle = (e.failed e.machine r, ⟨e.steps, e.machine.regs.pc, none, .failed r⟩) := by
  refine cycle_of_fetch_error ?_
  rw [Machine.fetch_eq h, if_neg (Int.not_lt.2 hpc)]

/-! ### Moves -/

theorem regs_move {m : Move} (hcycle : m.isCycle = false) (hon : m.isPowerOn = false)
    (e : Emulator) : (e.move m).machine.regs = e.machine.regs := by
  rcases m with c | _
  · refine regs_obey ?_ ?_ e
    · rintro rfl
      cases hcycle
    · rintro rfl
      cases hon
  · rfl

theorem regs_moves {ms : List Move} (h : ∀ m ∈ ms, m.isCycle = false ∧ m.isPowerOn = false)
    (e : Emulator) : (e.moves ms).machine.regs = e.machine.regs := by
  induction ms generalizing e with
  | nil => rfl
  | cons m ms ih =>
    obtain ⟨⟨hcycle, hon⟩, hms⟩ := List.forall_mem_cons.1 h
    exact (ih hms (e.move m)).trans (regs_move hcycle hon e)

theorem near_move (h : e.machine.regs.InRange) (hnear : e.machine.regs.Near) (m : Move) :
    (e.move m).machine.regs.Near := by
  by_cases hcycle : m.isCycle
  · rw [Move.isCycle_iff.1 hcycle]
    exact near_cycle h hnear
  by_cases hon : m.isPowerOn
  · rw [Move.isPowerOn_iff.1 hon]
    exact Registers.near_initial _
  · rw [regs_move (Bool.eq_false_iff.2 hcycle) (Bool.eq_false_iff.2 hon)]
    exact hnear

theorem near_moves {depth : Option Int} (hwf : e.WellFormed depth) (hnear : e.machine.regs.Near)
    (ms : List Move) : (e.moves ms).machine.regs.Near := by
  induction ms generalizing e with
  | nil => exact hnear
  | cons m ms ih => exact ih (wellFormed_move m hwf) (near_move hwf.regs.toInRange hnear m)

/-- Control flow never wraps around, whatever is done to an emulator. The program counter and the
return addresses stay near memory. A cycle that succeeds goes on at the target of its instruction, a
call pushes the address of the next instruction and a return pops its target, and none of these has
been cut to its size. From a target outside of memory, which begins at the last byte, the next cycle
fetches nothing and fails there, unless the machine is switched off and on before. -/
theorem never_wraps (o : Options) (source : Twister) :
    let start := (Emulator.new o).withMachine fun m => { m with source }
    (∀ l threshold as, let s := (Session.new o l threshold).withSource source
      (s.acts as).emulator = start.moves (s.actsMoves as)) ∧
    ∀ ms, let e := start.moves ms
      (e.machine.regs.pc ≤ 0x10FE ∧ ∀ a ∈ e.machine.regs.stack, a ≤ 0x1000) ∧
      (e.cycle.2.ending = .done → ∃ i, e.machine.next? = some i ∧
        let f := e.cycle.1
        let target := i.target e.machine
        f.machine.regs.pc = target ∧
        (∀ t, i = .call t →
          f.machine.regs.stack = e.machine.regs.stack.push (e.machine.regs.pc + 2)) ∧
        (i = .ret → e.machine.regs.stack = f.machine.regs.stack.push target) ∧
        (0xFFF ≤ target → ∀ ns, (∀ m ∈ ns, m.isCycle = false ∧ m.isPowerOn = false) →
          let g := f.moves ns
          let r := (Fault.outOfProgram target).inCycle target none
          g.cycle = (g.failed g.machine r, ⟨g.steps, target, none, .failed r⟩))) := by
  intro start
  refine ⟨fun l threshold as => Session.emulator_acts _ as, fun ms => ?_⟩
  intro e
  have hwf : start.WellFormed o.stackDepth := wellFormed_initial rfl
  have hrange : e.machine.regs.InRange := (wellFormed_moves hwf ms).regs.toInRange
  have hnear : e.machine.regs.Near := near_moves hwf (Registers.near_initial _) ms
  refine ⟨⟨hnear.pc, hnear.stack⟩, fun hd => ?_⟩
  obtain ⟨i, hi, hpc, -⟩ := pc_of_done hrange hnear hd
  have hok : e.cycle.2.error = none := by rw [Outcome.error, hd]
  refine ⟨i, hi, hpc, fun t ht => stack_of_call hrange (ht ▸ hi) hok, ?_, fun hout ns hns => ?_⟩
  · rintro rfl
    obtain ⟨a, hstack, -⟩ := stack_of_ret hrange hi hok
    have hback : e.machine.regs.stack.back? = some a := by rw [hstack, Array.back?_push]
    rw [Instr.target, hback]
    exact hstack
  · intro g
    have hregs : g.machine.regs = e.cycle.1.machine.regs := regs_moves hns e.cycle.1
    have hpc' : g.machine.regs.pc = i.target e.machine := by rw [hregs, hpc]
    have hrange' : g.machine.regs.InRange := hregs ▸ inRange_cycle hrange
    rw [← hpc']
    refine cycle_of_outside hrange' ?_
    have hsize : memorySize = 4096 := rfl
    omega

/-- The farthest target there is. -/
example :
    let e := ((Emulator.new {}).loadRom [0x60, 0xFF, 0xBF, 0xFF]).cycle.1.cycle.1
    e.machine.regs.pc = 0x10FE ∧ e.cycle.2.error =
      some ⟨.outOfProgram, "Out of bounds of memory. PC = 10FE", 0x10FE, none⟩ := by
  decide +kernel

end Emulator

end ChipEight
