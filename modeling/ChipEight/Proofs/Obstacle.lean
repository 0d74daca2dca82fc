import ChipEight.Proofs.Moves
import ChipEight.Proofs.Residue

/-!
# What a cycle can fail at

`Machine.obstacle?` says why the word at the program counter cannot be carried out, by the digits of
the word and the state of the machine, the reasons in the order in which they count. With registers
in range a cycle fails exactly if there is an obstacle, and reports it
(`Emulator.error_cycle`). A failed cycle halts the emulator where it stands (`Emulator.HaltedBy`).
-/

namespace ChipEight

/-- Whether there is an entry for a word among the instructions, by its digits. -/
def Word.isDefined (w : Word) : Bool :=
  match w.group.val with
  | 0x0 => w.n.val ∈ [0x0, 0xE]
  | 0x8 => w.n.val ≤ 0x7 || w.n.val == 0xE
  | 0xE => w.kk.toNat ∈ [0x9E, 0xA1]
  | 0xF => w.kk.toNat ∈ [0x07, 0x0A, 0x15, 0x18, 0x1E, 0x29, 0x33, 0x55, 0x65]
  | _ => true

/-- How far from the index on a word reaches into memory, if it does. -/
def Word.reach? (w : Word) : Option Nat :=
  match w.group.val with
  | 0xD => if 0 < w.n.val then some (w.n.val - 1) else none
  | 0xF =>
    match w.kk.toNat with
    | 0x33 => some 2
    | 0x55 => some w.x.val
    | 0x65 => some w.x.val
    | _ => none
  | _ => none

namespace Machine

/-- The two bytes at the program counter. -/
def word (m : Machine) : Word :=
  .ofBytes (m.mem.peek m.regs.pc.toNat) (m.mem.peek (m.regs.pc.toNat + 1))

/-- The word that a cycle fetches, if it gets that far. -/
def word? (m : Machine) : Option Word := if 4096 ≤ m.regs.pc + 1 then none else some m.word

/-- The fault that a word with an instruction has, by its digits. -/
def obstacleOf? (m : Machine) (w : Word) : Option Fault :=
  if w.group.val = 0x2 ∧ m.regs.depth.any fun d => d ≤ (m.regs.stack.size : Int) then
    m.regs.depth.map .stackFull
  else if w.group.val = 0x0 ∧ w.n.val = 0xE ∧ m.regs.stack.size = 0 then some .stackEmpty
  else if w.reach?.any fun k : Nat => 4096 ≤ m.regs.i + (k : Int) then
    some (.badAddress (max m.regs.i 4096))
  else none

/-- Why the word at the program counter cannot be carried out, if it cannot. -/
def obstacle? (m : Machine) : Option Fault :=
  if 4096 ≤ m.regs.pc + 1 then some (.outOfProgram m.regs.pc)
  else if m.word.isDefined then m.obstacleOf? m.word
  else some (.undefined m.word)

end Machine

namespace Instr

variable {w : Word} {i : Instr}

theorem isSome_arithmetic? (w : Word) :
    (arithmetic? w).isSome = (w.n.val ≤ 0x7 || w.n.val == 0xE) := by
  fun_cases arithmetic? w <;> grind

theorem isSome_device? (w : Word) :
    (device? w).isSome =
      decide (w.kk.toNat ∈ [0x07, 0x0A, 0x15, 0x18, 0x1E, 0x29, 0x33, 0x55, 0x65]) := by
  simp only [List.mem_cons, List.not_mem_nil]
  fun_cases device? w <;> grind

theorem isSome_ofWord? (w : Word) : (ofWord? w).isSome = w.isDefined := by
  unfold Word.isDefined
  fun_cases ofWord? w <;> grind [isSome_arithmetic?, isSome_device?]

/-- The fault of a run of bytes from the index on is that its last byte is out of memory. -/
theorem runFault_index {m : Machine} (h : m.regs.InRange) (k : Nat) :
    Memory.runFault memorySize m.regs.i.toNat (k + 1) =
      if 4096 ≤ m.regs.i + k then some (.badAddress (max m.regs.i 4096)) else none := by
  obtain ⟨h₀, -⟩ := h.i
  have hsize : memorySize = 4096 := rfl
  have hmax : ((max m.regs.i.toNat memorySize : Nat) : Int) = max m.regs.i 4096 := by omega
  have hiff : (k + 1 = 0 ∨ m.regs.i.toNat + (k + 1) ≤ memorySize) ↔ ¬ 4096 ≤ m.regs.i + k := by
    omega
  simp only [Memory.runFault, hmax, hiff, ite_not]

theorem map_full? (r : Registers) :
    r.full?.map Fault.stackFull =
      if r.depth.any fun d => d ≤ (r.stack.size : Int) then r.depth.map .stackFull else none := by
  unfold Registers.full?
  cases r.depth with
  | none => rfl
  | some d => by_cases hd : d ≤ (r.stack.size : Int) <;> simp [Option.filter, hd]

theorem fault?_arithmetic (r : Registers) (hi : arithmetic? w = some i) : i.fault? r = none := by
  unfold arithmetic? at hi
  split at hi <;> cases hi <;> rfl

/-- The digits of a word say what the fault of its instruction is. -/
theorem fault?_eq {m : Machine} (h : m.regs.InRange) (hi : ofWord? w = some i) :
    i.fault? m.regs = m.obstacleOf? w := by
  have hrun := runFault_index h
  have hfull := map_full? m.regs
  unfold ofWord? at hi
  split at hi <;> rename_i hg
  -- Groups 0 and E go by another digit, group 8 never fails, and a draw of no rows does not either.
  case h_1 | h_15 =>
    split at hi <;> cases hi <;> simp [fault?, Machine.obstacleOf?, Word.reach?, *]
  case h_9 => simp [fault?_arithmetic m.regs hi, Machine.obstacleOf?, Word.reach?, hg]
  case h_14 =>
    cases hi
    simp only [fault?, Machine.obstacleOf?, Word.reach?, hg]
    cases hn : w.n.val with
    | zero => simp [Memory.runFault]
    | succ k => simp [hrun]
  case h_16 =>
    have hg : w.group.val = 15 := by have := w.group.isLt; grind
    unfold device? at hi
    split at hi <;> cases hi <;> simp [fault?, Machine.obstacleOf?, Word.reach?, *]
  all_goals cases hi; simp [fault?, Machine.obstacleOf?, Word.reach?, *]

end Instr

namespace Machine

variable {m : Machine}

section
variable (h : m.regs.InRange)
include h

theorem obstacle?_of_fetch {w : Word} (hw : m.fetch = .ok w) :
    m.word? = some w ∧
      m.obstacle? = if w.isDefined then m.obstacleOf? w else some (.undefined w) := by
  have hsize : memorySize = 4096 := rfl
  rw [fetch_eq h] at hw
  split at hw
  · have hpc : ¬ 4096 ≤ m.regs.pc + 1 := by omega
    have hword : m.word = w := Except.ok.inj hw
    simp only [word?, obstacle?, hpc, hword, ↓reduceIte, and_self]
  · cases hw

end

end Machine

namespace Emulator

variable {e : Emulator} (h : e.machine.regs.InRange)
include h

/-- A cycle reports the obstacle at the program counter, and nothing if there is none. -/
theorem error_cycle :
    e.cycle.2.error =
      e.machine.obstacle?.map fun f => f.inCycle e.machine.regs.pc e.machine.word? := by
  have hc := cycled_cycle h
  generalize e.cycle = c at hc ⊢
  cases hc with
  | unfetched hpc hr =>
    have hpc' : 4096 ≤ e.machine.regs.pc + 1 := hpc
    rw [Machine.obstacle?, Machine.word?, if_pos hpc', if_pos hpc']
    exact congrArg some hr
  | undefined hpc hw hi hr =>
    obtain ⟨hword, hob⟩ := Machine.obstacle?_of_fetch h hw
    rw [hob, hword, ← Instr.isSome_ofWord?, hi]
    exact congrArg some hr
  | fault hpc hw hi hf hr =>
    obtain ⟨hword, hob⟩ := Machine.obstacle?_of_fetch h hw
    rw [hob, hword, ← Instr.isSome_ofWord?, hi, ← Instr.fault?_eq h hi, hf]
    exact congrArg some hr
  | done hpc hw hi hf =>
    obtain ⟨hword, hob⟩ := Machine.obstacle?_of_fetch h hw
    rw [hob, hword, ← Instr.isSome_ofWord?, hi, ← Instr.fault?_eq h hi, hf]
    rfl

end Emulator

/-! ### Steps -/

/-- A host that never fails and does nothing on its own. -/
structure Listener.Passive (l : Listener) : Prop where
  steady : ∀ k, l.fails k = false
  idle : l.script = []

namespace Session

variable {s : Session}

theorem quiet_of_passive (hl : s.listener.Passive) : s.Quiet where
  steady k _ := hl.steady k
  idle := by rw [hl.idle]; nofun

theorem emulator_countEnd (h : s.emulator.running = false) : s.countEnd.emulator = s.emulator := by
  refine s.countEnd_cases.elim id fun hp => hp.trans ?_
  rw [Emulator.pause, ← h]

end Session

end ChipEight
