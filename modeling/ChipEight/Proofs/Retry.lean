import ChipEight.Proofs.PowerOn
import ChipEight.Proofs.Refinement

/-!
# Trying a failed cycle again

`Reference.failedCycle` says in natural numbers what a failed cycle leaves of a state: a word that
moves several numbers has moved those whose place is in memory, and nothing else has happened but
that the key is released (`Emulator.view_of_error`). Doing that twice is the same as doing it once
(`Reference.failedCycle_failedCycle`), so a failed cycle that is tried again fails in the same way
and changes nothing any more, unless its own word has been overwritten (`Session.retry_of_error`).
-/

namespace ChipEight

namespace Reference

namespace State

variable (s : State)

/-- Puts numbers at those addresses of a run from the index on that are in memory. -/
def storePart (n : Nat) (k : Nat → Nat) : State :=
  { s with mem := fun a => if s.i ≤ a ∧ a < s.i + n ∧ a < 4096 then k (a - s.i) else s.mem a }

/-- Puts what stands at a run of addresses from the index on, as far as they are in memory, into the
registers from 0 on. -/
def loadPart (n : Nat) : State :=
  { s with v := fun r => if r < n ∧ s.i + r < 4096 then s.mem (s.i + r) else s.v r }

def release : State := { s with pressed := false }

variable {s}

theorem storePart_congr {n : Nat} {k k' : Nat → Nat} (hk : ∀ j < n, k j = k' j) :
    s.storePart n k = s.storePart n k' := by
  refine State.ext rfl rfl rfl rfl rfl rfl rfl (funext fun a => ?_) rfl rfl rfl rfl
  simp only [storePart]
  split
  · exact hk _ (by omega)
  · rfl

theorem storePart_zero (s : State) (k : Nat → Nat) : s.storePart 0 k = s := by
  refine State.ext rfl rfl rfl rfl rfl rfl rfl (funext fun a => ?_) rfl rfl rfl rfl
  exact if_neg fun ⟨hle, hlt, _⟩ => Nat.not_lt.2 hle hlt

theorem loadPart_zero (s : State) : s.loadPart 0 = s := rfl

theorem storePart_again (n : Nat) (k : Nat → Nat) :
    (s.storePart n k).release.storePart n k = (s.storePart n k).release := by
  refine State.ext rfl rfl rfl rfl rfl rfl rfl (funext fun a => ?_) rfl rfl rfl rfl
  simp only [storePart, release]
  split <;> rfl

theorem loadPart_again (n : Nat) : (s.loadPart n).release.loadPart n = (s.loadPart n).release := by
  refine State.ext (funext fun r => ?_) rfl rfl rfl rfl rfl rfl rfl rfl rfl rfl rfl
  simp only [loadPart, release]
  split <;> rfl

end State

open State

/-- What a word leaves of a state that cannot be carried out. -/
def breakOff (w : Nat) (s : State) : State :=
  let x := w / 256 % 16
  let a := s.v x
  if w / 4096 = 0xF then
    match w % 256 with
    | 0x33 =>
      s.storePart 3 fun k => if k = 0 then a / 100 else if k = 1 then a / 10 % 10 else a % 10
    | 0x55 => s.storePart (x + 1) s.v
    | 0x65 => s.loadPart (x + 1)
    | _ => s
  else s

/-- What becomes of a state in a cycle that fails; there may be no word at the program counter. -/
def failedCycle (s : State) : State :=
  (if s.pc + 1 < 4096 then breakOff (word s) s else s).release

variable (s : State)

/-- What has been moved already is moved to where it is. -/
theorem breakOff_breakOff (w : Nat) :
    breakOff w (breakOff w s).release = (breakOff w s).release := by
  unfold breakOff
  simp only
  generalize w / 256 % 16 = x, w % 256 = k
  split
  · split
    · exact storePart_again 3 _
    · exact storePart_again (x + 1) s.v
    · exact loadPart_again (x + 1)
    · simp only [*]
  · rfl

theorem pc_failedCycle : (failedCycle s).pc = s.pc := by
  unfold failedCycle breakOff
  simp only
  split
  · split
    · split <;> rfl
    · rfl
  · rfl

/-- A word that is still there leaves nothing new. -/
theorem failedCycle_failedCycle (hw : word (failedCycle s) = word s) :
    failedCycle (failedCycle s) = failedCycle s := by
  rw [failedCycle, pc_failedCycle, hw]
  unfold failedCycle
  split
  · rw [breakOff_breakOff]
    rfl
  · rfl

/-- Only what is stored at the index can get to the program counter. -/
theorem word_failedCycle
    (h : ¬ ((word s / 4096 = 0xF ∧ (word s % 256 = 0x33 ∨ word s % 256 = 0x55)) ∧ s.i ≤ s.pc + 1)) :
    word (failedCycle s) = word s := by
  have hmem (a : Nat) (ha : a ≤ s.pc + 1) : (failedCycle s).mem a = s.mem a := by
    unfold failedCycle breakOff
    simp only
    split
    · split
      · next hg =>
        split
        · next hk => exact if_neg fun ⟨hi, _⟩ => h ⟨⟨hg, .inl hk⟩, Nat.le_trans hi ha⟩
        · next hk => exact if_neg fun ⟨hi, _⟩ => h ⟨⟨hg, .inr hk⟩, Nat.le_trans hi ha⟩
        · rfl
        · rfl
      · rfl
    · rfl
  have hpc := pc_failedCycle s
  unfold word at hpc ⊢
  rw [hpc, hmem _ (Nat.le_succ _), hmem _ (Nat.le_refl _)]

end Reference

/-! ### Words that move several bytes -/

namespace Instr

variable {m : Machine} {w : Word} {i : Instr} {f : Fault}

/-- A word whose instruction may move several bytes. -/
def MovesBytes (w : Word) : Prop := w.val / 4096 = 0xF ∧ w.val % 256 ∈ [0x33, 0x55, 0x65]

/-- What the instruction of a word moves, by the digits of the word. -/
inductive Moves (w : Word) : Instr → Prop
  | decimal (hg : w.val / 4096 = 0xF) (hk : w.val % 256 = 0x33) : Moves w (.storeDecimal w.x)
  | store (hg : w.val / 4096 = 0xF) (hk : w.val % 256 = 0x55) : Moves w (.store w.x)
  | load (hg : w.val / 4096 = 0xF) (hk : w.val % 256 = 0x65) : Moves w (.load w.x)
  | nothing {i : Instr} (hw : ¬ MovesBytes w) (hs : ∀ m, i.stored m = []) (hl : i.loaded = 0) :
      Moves w i

/-- There are no more registers than sixteen to be loaded. -/
theorem lt_of_lt_loaded {i : Instr} {r : Nat} (hr : r < i.loaded) : r < 16 := by
  cases i with
  | load x => exact Nat.lt_of_lt_of_le hr x.isLt
  | _ => exact absurd hr (Nat.not_lt_zero r)

theorem moves_device (hg : w.val / 4096 = 0xF) (hi : device? w = some i) : Moves w i := by
  unfold device? at hi
  split at hi <;> cases hi <;> rename_i hk <;> rw [Word.toNat_kk] at hk
  case h_7 => exact .decimal hg hk
  case h_8 => exact .store hg hk
  case h_9 => exact .load hg hk
  all_goals exact .nothing (by simp [MovesBytes, hk]) (fun _ => rfl) rfl

theorem moves_of_ofWord? (hi : ofWord? w = some i) : Moves w i := by
  by_cases hg : w.group.val = 0xF
  · unfold ofWord? at hi
    rw [hg] at hi
    exact moves_device hg hi
  · have hw : ¬ MovesBytes w := fun h => hg h.1
    unfold ofWord? at hi
    split at hi
    case h_1 | h_15 => split at hi <;> cases hi <;> exact .nothing hw (fun _ => rfl) rfl
    case h_9 =>
      unfold arithmetic? at hi
      split at hi <;> cases hi <;> exact .nothing hw (fun _ => rfl) rfl
    case h_16 => have := w.group.isLt; grind
    all_goals cases hi; exact .nothing hw (fun _ => rfl) rfl

/-- A word without an instruction moves nothing. -/
theorem not_movesBytes_of_none (hi : ofWord? w = none) : ¬ MovesBytes w := by
  rintro ⟨hg, hk⟩
  have hdef := isSome_ofWord? w
  have hgroup : w.group.val = 0xF := hg
  rw [hi, Word.isDefined, hgroup, Word.toNat_kk] at hdef
  simp only [List.mem_cons, List.not_mem_nil, or_false] at hk
  rcases hk with hk | hk | hk <;> simp [hk] at hdef

end Instr

namespace Machine

open Reference (State breakOff)

variable {m : Machine} {w : Word} {i : Instr} {f : Fault}

theorem breakOff_of_not_movesBytes (hw : ¬ Instr.MovesBytes w) (s : State) :
    breakOff w.val s = s := by
  unfold breakOff
  simp only
  split
  · next hg =>
    split
    · next hk => exact absurd ⟨hg, by simp [hk]⟩ hw
    · next hk => exact absurd ⟨hg, by simp [hk]⟩ hw
    · next hk => exact absurd ⟨hg, by simp [hk]⟩ hw
    · rfl
  · rfl

section
variable (h : m.regs.InRange) (hf : i.fault? m.regs = some f)
include h hf

/-- What an instruction with a fault moves, as far as there is memory. -/
theorem view_exec_of_fault :
    (i.exec m).1.view =
      (m.view.loadPart i.loaded).storePart (i.stored m).length
        fun k => ((i.stored m).getD k 0).toNat := by
  have hpeek := Instr.peek_exec_of_fault h hf
  have hv := Instr.v_exec_of_fault h hf
  rw [Instr.exec_frame_of_fault h hf]
  refine State.ext (funext fun r => ?_) rfl rfl rfl rfl rfl rfl (funext fun a => ?_) rfl rfl rfl rfl
  · by_cases hr : r < 16
    · have hx := congrArg Int.toNat (hv ⟨r, hr⟩)
      rw [apply_ite Int.toNat, ← view_v, ← view_v] at hx
      exact hx
    · have hout : ¬ (r < i.loaded ∧ m.view.i + r < 4096) := fun hl => hr (i.lt_of_lt_loaded hl.1)
      have hzero : m.view.v r = 0 := dif_neg hr
      exact (dif_neg hr).trans ((if_neg hout).trans hzero).symm
  · show ((i.exec m).1.mem.peek a).toNat = _
    rw [hpeek]
    exact apply_ite UInt8.toNat _ _ _

/-- What an instruction leaves that cannot be carried out is what its word leaves. -/
theorem view_exec_eq_breakOff (hw : i.Moves w) : (i.exec m).1.view = breakOff w.val m.view := by
  have hx : m.view.v (w.val / 256 % 16) = (m.v w.x).toNat := view_v m w.x
  rw [view_exec_of_fault h hf]
  cases hw with
  | decimal hg hk =>
    simp only [breakOff, hg, hk, ↓reduceIte, hx, Instr.loaded, State.loadPart_zero]
    exact State.storePart_congr fun j hj => toNat_decimalDigits (h.v w.x) hj
  | store hg hk =>
    have hlen := length_storedRegs m.regs w.x
    simp only [breakOff, hg, hk, ↓reduceIte, Instr.stored, hlen, Instr.loaded, State.loadPart_zero]
    exact State.storePart_congr fun j hj => toNat_storedRegs h hj
  | load hg hk =>
    simp only [breakOff, hg, hk, ↓reduceIte, Instr.stored]
    exact State.storePart_zero _ _
  | nothing hn hs hl =>
    rw [breakOff_of_not_movesBytes hn, hs, hl, State.loadPart_zero]
    exact State.storePart_zero _ _

end

theorem word_view_eq (m : Machine) : Reference.word m.view = m.word.val := rfl

/-- What can be in the way depends on little of the machine. -/
theorem obstacle?_congr {m' : Machine} (hpc : m'.regs.pc = m.regs.pc) (hi : m'.regs.i = m.regs.i)
    (hstack : m'.regs.stack = m.regs.stack) (hdepth : m'.regs.depth = m.regs.depth)
    (hw : m'.word = m.word) : m'.obstacle? = m.obstacle? ∧ m'.word? = m.word? := by
  simp only [obstacle?, obstacleOf?, word?, hpc, hi, hstack, hdepth, hw, and_self]

end Machine

namespace Emulator

open Reference (failedCycle)

variable {e : Emulator}

section
variable (h : e.machine.regs.InRange) {r : Report} (hr : e.cycle.2.error = some r)
include h hr

/-- What a failed cycle leaves of the numbers that the machine shows. -/
theorem view_of_error : e.cycle.1.machine.view = failedCycle e.machine.view := by
  have hfetches : e.machine.view.pc + 1 < 4096 ↔ e.machine.regs.pc + 1 < memorySize := by
    have hpc := h.pc
    have hsize : memorySize = 4096 := rfl
    change e.machine.regs.pc.toNat + 1 < 4096 ↔ _
    omega
  have hc := cycled_cycle h
  generalize e.cycle = c at hr hc ⊢
  cases hc with
  | done => cases hr
  | unfetched hpc =>
    rw [failedCycle, if_neg (mt hfetches.1 (Int.not_lt.2 hpc))]
    rfl
  | undefined hpc hw hi =>
    rw [failedCycle, if_pos (hfetches.2 hpc), Machine.word_view h hw,
      Machine.breakOff_of_not_movesBytes (Instr.not_movesBytes_of_none hi)]
    rfl
  | fault hpc hw hi hf =>
    rw [failedCycle, if_pos (hfetches.2 hpc), Machine.word_view h hw,
      ← Machine.view_exec_eq_breakOff h hf (Instr.moves_of_ofWord? hi)]
    rfl

theorem outcome_of_error :
    e.cycle.2 = ⟨e.steps, e.machine.regs.pc, e.machine.word?, .failed r⟩ := by
  have hc := cycled_cycle h
  generalize e.cycle = c at hr hc ⊢
  cases hc with
  | done => cases hr
  | unfetched hpc =>
    have hnone : e.machine.word? = none := if_pos hpc
    cases hr
    rw [hnone]
  | undefined hpc hw | fault hpc hw =>
    cases hr
    rw [(Machine.obstacle?_of_fetch h hw).1]

/-- If its word is still there, a cycle that has failed fails again, and changes nothing. -/
theorem cycle_of_failed (hw : e.cycle.1.machine.word = e.machine.word) :
    e.cycle.1.cycle = e.cycle := by
  have h' := inRange_cycle h
  have hview := view_of_error h hr
  have hframe := frame_of_error h hr
  have hout := outcome_of_error h hr
  obtain ⟨hob, hword⟩ : e.cycle.1.machine.obstacle? = e.machine.obstacle? ∧
      e.cycle.1.machine.word? = e.machine.word? := by
    refine Machine.obstacle?_congr ?_ ?_ ?_ ?_ hw <;> rw [hframe] <;> rfl
  have hpc : e.cycle.1.machine.regs.pc = e.machine.regs.pc := by rw [hframe]; rfl
  have hr' : e.cycle.1.cycle.2.error = some r := by
    rw [error_cycle h', hob, hpc, hword, ← error_cycle h, hr]
  have hmachine : e.cycle.1.cycle.1.machine = e.cycle.1.machine := by
    refine Machine.ext_view (inRange_cycle h') h' ?_
    have hsame : Reference.word (failedCycle e.machine.view) = Reference.word e.machine.view := by
      rw [← hview, Machine.word_view_eq, hw, Machine.word_view_eq]
    rw [view_of_error h' hr', hview]
    exact Reference.failedCycle_failedCycle _ hsame
  have hrest := (machine_of_error h hr).1
  have hsteps : e.cycle.1.steps = e.steps := by rw [hframe]; rfl
  refine Prod.ext ?_ ?_
  · rw [(machine_of_error h' hr').1, hmachine]
    generalize e.cycle.1.machine = m at hrest
    rw [hrest]
  · rw [outcome_of_error h' hr', hsteps, hpc, hword, hout]

end

theorem cycles_of_cycle_eq {o : Outcome} (h : e.cycle = (e, o)) (n : Nat) : e.cycles n = e := by
  induction n with
  | zero => rfl
  | succ n ih => rw [cycles, h, ih]

end Emulator

namespace Session

variable {s : Session}

/-- Where the emulator stays as it is, steps go on to have the same outcome. -/
theorem steps_of_cycle_eq {o : Outcome} (hq : s.Quiet) (hb : s.emulator.Unbroken)
    (hrun : s.emulator.running = false) (hc : s.emulator.cycle = (s.emulator, o)) (n : Nat) :
    ∃ t, t.emulator = s.emulator ∧
      s.steps (fun o t => (o, t.emulator)) n = (t, .ok (List.replicate n (o, s.emulator))) := by
  induction n generalizing s with
  | zero => exact ⟨s, rfl, rfl⟩
  | succ n ih =>
    have htold : s.told.emulator = s.emulator := by rw [emulator_told, hc]
    have he : s.told.countEnd.emulator = s.emulator := by
      rw [emulator_countEnd (htold ▸ hrun), htold]
    obtain ⟨t, ht, hsteps⟩ := ih ((hq.told hb).of_sameHost s.told.sameHost_countEnd)
      (he ▸ hb) (he ▸ hrun) (by rw [he, hc])
    refine ⟨t, ht.trans he, ?_⟩
    rw [steps, step_of_quiet hq hb]
    simp only [hsteps, he, hc, List.replicate_succ]

/-- A cycle that fails halts the emulator, and of the machine it changes nothing but what
`Reference.failedCycle` says: the key is released, a store has been made as far as there is memory,
and a load as far as there is memory to load from. The word that failed may be overwritten only by a
store that begins at it or before it. If it is still there, the cycle fails in the same way ever
after and changes nothing, and with a quiet host so do steps. -/
theorem retry_of_error (s : Session) (h : s.emulator.machine.regs.InRange) {r : Report}
    (hr : s.emulator.cycle.2.error = some r) :
    let e := s.emulator
    let m := e.machine
    let e' := e.cycle.1
    let m' := e'.machine
    (m'.view = Reference.failedCycle m.view ∧
        m' =
          { m with regs := { m.regs with v := m'.regs.v }, mem := m'.mem, keys := m.keys.release } ∧
        e' = { e with machine := m', running := false, halted := true, lastError := some r }) ∧
      (m'.word ≠ m.word →
        (m.word.group.val = 0xF ∧ (m.word.kk.toNat = 0x33 ∨ m.word.kk.toNat = 0x55)) ∧
          m.regs.i ≤ m.regs.pc + 1) ∧
      (m'.word = m.word →
        (∀ n, e'.cycles n = e' ∧ (e'.cycles n).cycle.2 = e.cycle.2) ∧
          (s.Quiet → s.step.2 = .ok e.cycle.2 ∧ s.step.1.emulator = e' ∧
            ∀ n, ∃ t, t.emulator = e' ∧
              s.step.1.steps (fun o t => (o, t.emulator)) n =
                (t, .ok (List.replicate n (e.cycle.2, e'))))) := by
  intro e m e' m'
  have hview : m'.view = Reference.failedCycle m.view := Emulator.view_of_error h hr
  obtain ⟨hrest, hframe, -⟩ := Emulator.machine_of_error h hr
  refine ⟨⟨hview, hframe, hrest⟩, fun hne => ?_, fun hw => ?_⟩
  · have hdiff : ¬ Reference.word (Reference.failedCycle m.view) = Reference.word m.view := by
      rw [← hview, m'.word_view_eq, m.word_view_eq]
      exact fun he => hne (Word.ext he)
    obtain ⟨⟨hg, hk⟩, hle⟩ := Decidable.not_not.1 (mt (Reference.word_failedCycle m.view) hdiff)
    rw [m.word_view_eq, ← Word.toNat_kk] at hk
    have hpc : 0 ≤ m.regs.pc ∧ m.regs.pc < 65536 := h.pc
    change m.regs.i.toNat ≤ m.regs.pc.toNat + 1 at hle
    exact ⟨⟨hg, hk⟩, by omega⟩
  · have hcycle : e'.cycle = (e', e.cycle.2) := Emulator.cycle_of_failed h hr hw
    refine ⟨fun n => ?_, fun hq => ?_⟩
    · have hn := Emulator.cycles_of_cycle_eq hcycle n
      exact ⟨hn, by rw [hn, hcycle]⟩
    · have hb : e.Unbroken := Emulator.ending_ne_broken h
      have hb' : e'.Unbroken := Emulator.ending_ne_broken (Emulator.inRange_cycle h)
      have hrun : e'.running = false := congrArg Emulator.running hrest
      have he : s.told.countEnd.emulator = e' := by
        rw [emulator_countEnd (s.emulator_told ▸ hrun), emulator_told]
      rw [step_of_quiet hq hb]
      refine ⟨rfl, he, fun n => ?_⟩
      have hq' := (hq.told hb).of_sameHost s.told.sameHost_countEnd
      have hsteps := steps_of_cycle_eq hq' (he ▸ hb') (he ▸ hrun) (he ▸ hcycle) n
      rwa [he] at hsteps

/-- A store to the last address of memory on, tried four times. -/
theorem retry_of_error_store :
    let e := ((Emulator.new {}).loadRom [0x60, 0x07, 0xAF, 0xFF, 0xF1, 0x55]).cycle.1.cycle.1
    let s : Session := { emulator := e, listener := .deaf, journal := .empty none }
    let e' := e.cycle.1
    ((s.emulator.machine.regs.InRange ∧ ∃ r, s.emulator.cycle.2.error = some r) ∧ s.Quiet ∧
        e'.machine.word = e.machine.word) ∧
      e.machine.mem.peek 4095 = 0 ∧ e'.machine.mem.peek 4095 = 7 ∧
      ∃ t, t.emulator = e' ∧
        s.step.1.steps (fun o t => (o, t.emulator)) 3 =
          (t, .ok (List.replicate 3 (e.cycle.2, e'))) := by
  have h₀ : ((Emulator.new {}).loadRom [0x60, 0x07, 0xAF, 0xFF, 0xF1, 0x55]).machine.regs.InRange :=
    Registers.InRange.initial _
  have h := Emulator.inRange_cycle (Emulator.inRange_cycle h₀)
  have hrun :
      let e := ((Emulator.new {}).loadRom [0x60, 0x07, 0xAF, 0xFF, 0xF1, 0x55]).cycle.1.cycle.1
      e.cycle.2.error.isSome ∧ e.cycle.1.machine.word = e.machine.word ∧
        e.machine.mem.peek 4095 = 0 ∧ e.cycle.1.machine.mem.peek 4095 = 7 := by
    decide +kernel
  generalize ((Emulator.new {}).loadRom [0x60, 0x07, 0xAF, 0xFF, 0xF1, 0x55]).cycle.1.cycle.1 = e
    at h hrun ⊢
  intro e s e'
  obtain ⟨hsome, hw, hbefore, hafter⟩ := hrun
  obtain ⟨r, hr⟩ := Option.isSome_iff_exists.1 hsome
  have hq : s.Quiet := quiet_of_passive ⟨fun _ => rfl, rfl⟩
  obtain ⟨-, -, hstays⟩ := retry_of_error s h hr
  exact ⟨⟨⟨h, r, hr⟩, hq, hw⟩, hbefore, hafter, ((hstays hw).2 hq).2.2 3⟩

/-- A store that overwrites its own second byte, in the last of memory, fails in another way the
next time. -/
example :
    let m := Machine.new none none
    let e := { Emulator.new {} with
      machine := { m with
        regs := { m.regs with pc := 0xFFE, i := 0xFFF }
        mem := m.mem.place 0xFFE [0xF1, 0x55] } }
    e.cycle.2.error.map Report.kind = some .badAddress ∧
      e.cycle.1.cycle.2.error.map Report.kind = some .undefined := by
  decide +kernel

end Session

end ChipEight
