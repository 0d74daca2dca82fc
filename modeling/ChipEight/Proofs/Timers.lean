import ChipEight.Proofs.Chronicle
import ChipEight.Proofs.PowerOn
import ChipEight.Proofs.Targets

/-!
# What the timers show

A `Timer` is one of the two. It is set by an instruction of its own and counts down with every cycle
that succeeds, the cycle that sets it included, unless the sound timer is told not to tick. What it
shows is what is left of the latest value it was set to (`Emulator.timers_count_down`); a cycle that
fails changes neither timer.
-/

namespace ChipEight

inductive Timer where
  | delay
  | sound

namespace Timer

variable {t : Timer} {i : Instr} {m : Machine}

/-- What the timer shows. -/
def value (t : Timer) (r : Registers) : Int :=
  match t with
  | delay => r.delay
  | sound => r.sound

/-- Whether the timer counts down at all. -/
def ticks (t : Timer) (withSound : Bool) : Bool :=
  match t with
  | delay => true
  | sound => withSound

/-- What is left of a value after `n` cycles that have succeeded. -/
def left (ticking : Bool) (v : Int) (n : Nat) : Int := if ticking then max 0 (v - n) else v

/-- The register whose value an instruction sets the timer to, if it does. -/
def register? (t : Timer) (i : Instr) : Option Reg :=
  match t, i with
  | delay, .setDelay x => some x
  | sound, .setSound x => some x
  | _, _ => none

/-- What the next cycle sets the timer to, if it does. -/
def set? (t : Timer) (m : Machine) : Option Int := (m.next?.bind t.register?).map m.v

theorem left_zero {b : Bool} {v : Int} (h : 0 ≤ v) : left b v 0 = v := by
  cases b
  · rfl
  · simp only [left, ↓reduceIte]; omega

theorem left_left (b : Bool) (v : Int) (n k : Nat) : left b (left b v n) k = left b v (n + k) := by
  cases b
  · rfl
  · simp only [left, ↓reduceIte]; omega

theorem lowered_eq {v : Int} (h : 0 ≤ v) : Registers.lowered v = left true v 1 := by
  simp only [Registers.lowered, left, ↓reduceIte]
  split <;> omega

theorem value_nonneg (t : Timer) {r : Registers} (h : r.InRange) : 0 ≤ t.value r := by
  cases t with
  | delay => exact h.delay.1
  | sound => exact h.sound.1

/-- The end of a cycle that succeeds is one count. -/
theorem value_advance (t : Timer) (h : m.regs.InRange) (flow : Flow) (b : Bool) :
    t.value (m.advance flow b).regs = left (t.ticks b) (t.value m.regs) 1 := by
  cases t with
  | delay => exact lowered_eq h.delay.1
  | sound =>
    cases b with
    | false => rfl
    | true => exact lowered_eq h.sound.1

/-- Only the instruction for it sets a timer. -/
theorem value_exec (t : Timer) (i : Instr) (m : Machine) :
    t.value (i.exec m).1.regs = ((t.register? i).map m.v).getD (t.value m.regs) := by
  cases hx : t.register? i with
  | none =>
    have hkept : Registers.KeptBy (t.value · = t.value m.regs) i :=
      { setV := fun _ _ h => by cases t <;> exact h
        setIndex := fun _ h => by cases t <;> exact h
        pushed := fun _ _ h => by cases t <;> exact h
        popped := fun _ h => by cases t <;> exact h
        setDelay := by
          rintro r x rfl h
          cases t with
          | delay => cases hx
          | sound => exact h
        setSound := by
          rintro r x rfl h
          cases t with
          | delay => exact h
          | sound => cases hx }
    exact hkept.exec rfl
  | some x =>
    unfold register? at hx
    split at hx <;> cases hx <;> rfl

theorem register?_of_fault {r : Registers} {f : Fault} (hf : i.fault? r = some f) (t : Timer) :
    t.register? i = none := by
  unfold register?
  split <;> first | cases hf | rfl

end Timer

namespace Emulator

variable {e : Emulator} {depth : Option Int}

/-- A cycle succeeds if nothing keeps its instruction from being carried out. -/
theorem done_of_next? (h : e.machine.regs.InRange) {i : Instr} (hi : e.machine.next? = some i)
    (hf : i.fault? e.machine.regs = none) : e.cycle.2.ending = .done := by
  obtain ⟨flow, hx⟩ := Instr.exec_of_no_fault h hf
  obtain ⟨w, hc⟩ := cycle_of_next? hi (Prod.ext rfl hx)
  rw [hc]

theorem value_of_fail (h : e.machine.regs.InRange) (hd : e.cycle.2.ending ≠ .done) (t : Timer) :
    t.value e.cycle.1.machine.regs = t.value e.machine.regs := by
  have hc := cycled_cycle h
  generalize e.cycle = c at hd hc ⊢
  cases hc with
  | unfetched | undefined => rfl
  | @fault w i f r hpc hw hi hf =>
    show t.value (i.exec e.machine).1.regs = _
    rw [t.value_exec, Timer.register?_of_fault hf]
    rfl
  | done => exact absurd rfl hd

theorem value_of_done (h : e.machine.regs.InRange) (hd : e.cycle.2.ending = .done) (t : Timer) :
    t.value e.cycle.1.machine.regs =
      Timer.left (t.ticks e.decrementSound)
        ((t.set? e.machine).getD (t.value e.machine.regs)) 1 := by
  have hc := cycled_cycle h
  generalize e.cycle = c at hd hc ⊢
  cases hc with
  | unfetched | undefined | fault => cases hd
  | @done w i flow hpc hw hi hf hx =>
    have hset : t.set? e.machine = (t.register? i).map e.machine.v := by
      rw [Timer.set?, Machine.next?_of_fetch hw, hi]
      rfl
    rw [hset, ← t.value_exec]
    exact t.value_advance (Registers.stable_inRange.exec h i) flow _

/-- An instruction that can be carried out and does not set the timer is one count of it. -/
theorem value_of_next? (h : e.machine.regs.InRange) {i : Instr} (hi : e.machine.next? = some i)
    (hf : i.fault? e.machine.regs = none) {t : Timer} (ht : t.register? i = none) :
    t.value e.cycle.1.machine.regs =
      Timer.left (t.ticks e.decrementSound) (t.value e.machine.regs) 1 := by
  have hnone : t.set? e.machine = none := by rw [Timer.set?, hi, Option.bind_some, ht]; rfl
  rw [value_of_done h (done_of_next? h hi hf), hnone]
  rfl

theorem happening?_of_done (hd : e.cycle.2.ending = .done) :
    e.happening? (.control .step) = some .succeeded := by
  rw [happening?, hd]

theorem happening?_of_failed {r : Report} (hd : e.cycle.2.ending = .failed r) :
    e.happening? (.control .step) = some (.failed r) := by
  rw [happening?, hd]

theorem count_happening? {m : Move} (hm : m.isCycle = false) :
    (e.happening? m).toList.count .succeeded = 0 := by
  rcases m with c | _
  · cases c with
    | step => cases hm
    | _ => rfl
  · rfl

/-- While a timer is not set, cycles that succeed count it down and nothing else touches it. -/
theorem value_moves (t : Timer) (hwf : e.WellFormed depth) {ms : List Move}
    (hms : ∀ m ∈ ms, m.isPowerOn = false) (hset : e.EachBegins (t.set? · = none) ms) :
    t.value (e.moves ms).machine.regs =
      Timer.left (t.ticks e.decrementSound) (t.value e.machine.regs)
        ((e.chronicle ms).count .succeeded) := by
  induction ms generalizing e with
  | nil => exact (Timer.left_zero (t.value_nonneg hwf.regs.toInRange)).symm
  | cons m ms ih =>
    obtain ⟨hm, hms⟩ := List.forall_mem_cons.1 hms
    have hr := hwf.regs.toInRange
    have hmove : t.value (e.move m).machine.regs =
        Timer.left (t.ticks e.decrementSound) (t.value e.machine.regs)
          ((e.happening? m).toList.count .succeeded) := by
      cases hc : m.isCycle with
      | false =>
        rw [regs_move hc hm, count_happening? hc, Timer.left_zero (t.value_nonneg hr)]
      | true =>
        have hnone := hset.1 hc
        obtain rfl := Move.isCycle_iff.1 hc
        cases hend : e.cycle.2.ending with
        | done =>
          have hvalue := value_of_done hr hend t
          rw [hnone] at hvalue
          rw [happening?_of_done hend]
          exact hvalue
        | failed r =>
          have hvalue := value_of_fail hr (by rw [hend]; nofun) t
          rw [happening?_of_failed hend]
          exact hvalue.trans (Timer.left_zero (t.value_nonneg hr)).symm
        | broken p => exact absurd hend (ending_ne_broken hr p)
    show t.value ((e.move m).moves ms).machine.regs = _
    rw [ih (wellFormed_move m hwf) hms hset.2, hmove, decrementSound_move, Timer.left_left,
      chronicle, List.count_append]

/-- From the cycle on that sets a timer, it shows what is left of that. -/
theorem value_moves_of_set (t : Timer) (hwf : e.WellFormed depth) {v : Int}
    (hv : t.set? e.machine = some v) {ms : List Move} (hms : ∀ m ∈ ms, m.isPowerOn = false)
    (hset : e.cycle.1.EachBegins (t.set? · = none) ms) :
    t.value (e.moves (.control .step :: ms)).machine.regs =
      Timer.left (t.ticks e.decrementSound) v
        ((e.chronicle (.control .step :: ms)).count .succeeded) := by
  have hr := hwf.regs.toInRange
  have hd : e.cycle.2.ending = .done := by
    obtain ⟨x, hx, -⟩ := Option.map_eq_some_iff.1 hv
    obtain ⟨i, hi, hix⟩ := Option.bind_eq_some_iff.1 hx
    refine done_of_next? hr hi ?_
    cases hf : i.fault? e.machine.regs with
    | none => rfl
    | some f => rw [Timer.register?_of_fault hf] at hix; cases hix
  have hvalue := value_of_done hr hd t
  rw [hv, Option.getD_some] at hvalue
  have hmoves := value_moves t (wellFormed_cycle hwf) hms hset
  rw [hvalue, decrementSound_cycle, Timer.left_left] at hmoves
  rw [chronicle, happening?_of_done hd, List.count_append]
  exact hmoves

theorem v_of_readDelay (h : e.machine.regs.InRange) {x : Reg}
    (hi : e.machine.next? = some (.readDelay x)) :
    e.cycle.1.machine.v x = e.machine.regs.delay := by
  obtain ⟨w, hc⟩ := cycle_of_next? hi rfl
  rw [hc]
  exact (e.machine.regs.get_setV_of_mem x h.delay x).trans (if_pos rfl)

/-- The timers count cycles, whatever has been done to the emulator before and whatever else is done
to it meanwhile, short of switching the machine off. A timer shows what is left, after the cycles
that have succeeded since, of the latest value that it was set to, the cycle that set it counted in,
or of what it showed at the beginning. A cycle that fails does not count, one that waits for a key
does, and reading the delay timer comes before the count of that cycle. -/
theorem timers_count_down (o : Options) (source : Twister) :
    let start := (Emulator.new o).withMachine fun m => { m with source }
    (∀ l threshold as, let s := (Session.new o l threshold).withSource source
      (s.acts as).emulator = start.moves (s.actsMoves as)) ∧
    ∀ ms, let e := start.moves ms
      (∀ (t : Timer) ns, (∀ m ∈ ns, m.isPowerOn = false) →
        let shown := t.value (e.moves ns).machine.regs
        let left := Timer.left (t.ticks o.decrementSound)
        (e.EachBegins (t.set? · = none) ns →
          shown = left (t.value e.machine.regs) ((e.chronicle ns).count .succeeded)) ∧
        ∀ ns₁ ns₂ v, ns = ns₁ ++ .control .step :: ns₂ →
          let e₁ := e.moves ns₁
          t.set? e₁.machine = some v → e₁.cycle.1.EachBegins (t.set? · = none) ns₂ →
          shown = left v ((e₁.chronicle (.control .step :: ns₂)).count .succeeded)) ∧
      (e.cycle.2.ending ≠ .done → ∀ t : Timer,
        t.value e.cycle.1.machine.regs = t.value e.machine.regs) ∧
      (∀ x, e.machine.next? = some (.awaitKey x) → e.cycle.2.ending = .done ∧ ∀ t : Timer,
        t.value e.cycle.1.machine.regs =
          Timer.left (t.ticks o.decrementSound) (t.value e.machine.regs) 1) ∧
      ∀ x, e.machine.next? = some (.readDelay x) → e.cycle.2.ending = .done ∧
        e.cycle.1.machine.v x = e.machine.regs.delay ∧
        e.cycle.1.machine.regs.delay = max 0 (e.machine.regs.delay - 1) := by
  intro start
  refine ⟨fun l threshold as => Session.emulator_acts _ as, fun ms => ?_⟩
  intro e
  have hwf : e.WellFormed o.stackDepth := wellFormed_moves (wellFormed_initial rfl) ms
  have hr := hwf.regs.toInRange
  have hsound : e.decrementSound = o.decrementSound := decrementSound_moves start ms
  rw [← hsound]
  refine ⟨fun t ns hns => ⟨fun hset => ?_, fun ns₁ ns₂ v hsplit => ?_⟩,
    fun hd t => value_of_fail hr hd t,
    fun x hi => ⟨done_of_next? hr hi rfl, fun t => value_of_next? hr hi rfl (by cases t <;> rfl)⟩,
    fun x hi => ⟨done_of_next? hr hi rfl, v_of_readDelay hr hi,
      value_of_next? (t := .delay) hr hi rfl rfl⟩⟩
  · exact value_moves t hwf hns hset
  · intro e₁ hv hset
    subst hsplit
    have hns₂ : ∀ m ∈ ns₂, m.isPowerOn = false := fun m hm =>
      hns m (List.mem_append_right _ (List.mem_cons_of_mem _ hm))
    rw [moves_append, ← decrementSound_moves e ns₁]
    exact value_moves_of_set t (wellFormed_moves hwf ns₁) hv hns₂ hset

/-- The cycle that sets the timer counts, and so does the one that reads it, but only afterwards. -/
example :
    let e := (Emulator.new {}).loadRom [0x60, 0x03, 0xF0, 0x15, 0xF1, 0x07]
    let e' := e.moves [.control .step, .control .step, .control .step]
    e'.machine.v 1 = 2 ∧ e'.machine.regs.delay = 1 := by
  decide +kernel

end Emulator

end ChipEight
