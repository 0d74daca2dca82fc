import ChipEight.Proofs.Controls
import Mathlib.Data.List.DropRight

/-!
# What the key latch holds

What the latch holds follows from what has happened, without any machine (`Emulator.keys_moves`).
The key counts as pressed if that was the latest word on it since a cycle last ended or the machine
was switched on, and its code is the latest one since the machine was switched on.

A cycle that waits for a key begins the wait anew while the key is not pressed. Nothing but the
timers and the count of cycles goes on meanwhile (`Emulator.waited_moves`). Once the key is pressed
the cycle takes its code and releases it, so the next wait is for another press.
-/

namespace ChipEight

namespace Move

/-- Whether the key is pressed after a move, if the move says so. -/
def pressed? : Move → Option Bool
  | .control (.pressKey _) => some true
  | .control .releaseKey => some false
  | .control (.setPressed pressed) => some pressed
  | _ => none

/-- The code of the key after a move, if the move gives one. -/
def code? : Move → Option Int
  | .control (.pressKey code) => some code
  | .control (.setKey code) => some code
  | _ => none

def isPowerOn : Move → Bool
  | .control .powerOn => true
  | _ => false

/-- The program that runs stays the same, and what has become of it apart from a cycle. -/
def goesOn (m : Move) : Bool := m.isCycle || m.peripheral

/-- The latest that moves tell. -/
def latest {α : Type} (tells : Move → Option α) (ms : List Move) : Option α :=
  (ms.filterMap tells).getLast?

/-- The moves since the machine was last switched on. -/
def sincePowerOn (ms : List Move) : List Move := ms.rtakeWhile fun m => !m.isPowerOn

/-- The moves since a cycle last ended or the machine was last switched on. -/
def sinceCycle (ms : List Move) : List Move :=
  ms.rtakeWhile fun m => !(m.isPowerOn || m.isCycle)

theorem latest_nil {α : Type} (tells : Move → Option α) : latest tells [] = none := rfl

theorem latest_concat {α : Type} (tells : Move → Option α) (ms : List Move) (m : Move) :
    latest tells (ms ++ [m]) = (tells m).or (latest tells ms) := by
  cases h : tells m <;> simp [latest, List.filterMap_append, h]

theorem sincePowerOn_concat (ms : List Move) (m : Move) :
    sincePowerOn (ms ++ [m]) = if m.isPowerOn then [] else sincePowerOn ms ++ [m] := by
  rw [sincePowerOn, List.rtakeWhile_concat]
  cases m.isPowerOn <;> rfl

theorem sinceCycle_concat (ms : List Move) (m : Move) :
    sinceCycle (ms ++ [m]) = if m.isPowerOn || m.isCycle then [] else sinceCycle ms ++ [m] := by
  rw [sinceCycle, List.rtakeWhile_concat]
  cases m.isPowerOn || m.isCycle <;> rfl

theorem sincePowerOn_eq_self {ms : List Move} (h : ∀ m ∈ ms, m.isPowerOn = false) :
    sincePowerOn ms = ms :=
  List.rtakeWhile_eq_self_iff.2 fun m hm => by rw [h m hm]; rfl

theorem isPowerOn_iff {m : Move} : m.isPowerOn ↔ m = .control .powerOn := by
  refine ⟨fun h => ?_, by rintro rfl; rfl⟩
  unfold isPowerOn at h
  split at h
  · rfl
  · cases h

theorem isPowerOn_of_goesOn {m : Move} (h : m.goesOn) : m.isPowerOn = false := by
  rw [← Bool.not_eq_true, isPowerOn_iff]
  rintro rfl
  cases h

theorem code?_of_isPowerOn {m : Move} (h : m.isPowerOn) : m.code? = none := by
  rw [isPowerOn_iff.1 h]
  rfl

theorem pressed?_of_ends {m : Move} (h : m.isPowerOn || m.isCycle) : m.pressed? = none := by
  rcases Bool.or_eq_true_iff.1 h with h | h
  · rw [isPowerOn_iff.1 h]
    rfl
  · rw [isCycle_iff.1 h]
    rfl

end Move

namespace Emulator

variable {e : Emulator} {ms : List Move}

open Move (latest sincePowerOn sinceCycle)

/-- Switching the machine on forgets all about the key, a cycle only that it is pressed. -/
theorem keys_move (e : Emulator) (m : Move) :
    (e.move m).machine.keys =
      ⟨(m.code?.map UInt8.ofInt).getD (if m.isPowerOn then 0 else e.machine.keys.code),
        m.pressed?.getD (!(m.isPowerOn || m.isCycle) && e.machine.keys.pressed)⟩ := by
  rcases m with c | _
  · cases c with
    | step => exact keys_cycle e
    | setClock hz => simp only [move, obey, setClock]; split <;> rfl
    | loadFile path file =>
      show (e.machine.loadFile file).keys = _
      unfold Machine.loadFile
      split <;> rfl
    | _ => rfl
  · rfl

/-- By induction from the end, where the latest moves are. -/
theorem keys_moves (e : Emulator) (ms : List Move) :
    (e.moves ms).machine.keys =
      ⟨((latest Move.code? (sincePowerOn ms)).map UInt8.ofInt).getD
          (if ms.any Move.isPowerOn then 0 else e.machine.keys.code),
        (latest Move.pressed? (sinceCycle ms)).getD
          (!ms.any (fun m => m.isPowerOn || m.isCycle) && e.machine.keys.pressed)⟩ := by
  induction ms using List.reverseRecOn with
  | nil => rfl
  | append_singleton ms m ih =>
    rw [moves_append, Move.sincePowerOn_concat, Move.sinceCycle_concat, List.any_append,
      List.any_append]
    show ((e.moves ms).move m).machine.keys = _
    rw [keys_move, ih]
    refine KeyLatch.ext ?_ ?_
    · cases hm : m.isPowerOn with
      | true => simp [Move.code?_of_isPowerOn hm, Move.latest_nil, hm]
      | false => cases hc : m.code? <;> simp [Move.latest_concat, hm, hc]
    · cases hm : m.isPowerOn || m.isCycle with
      | true => simp [Move.pressed?_of_ends hm, Move.latest_nil, hm]
      | false => cases hp : m.pressed? <;> simp [Move.latest_concat, hm, hp]

theorem keys_moves_initial (h : e.machine.keys = .initial) (ms : List Move) :
    ((e.moves ms).machine.keys.pressed ↔ latest Move.pressed? (sinceCycle ms) = some true) ∧
      (e.moves ms).machine.keys.code =
        UInt8.ofInt ((latest Move.code? (sincePowerOn ms)).getD 0) := by
  rw [keys_moves, h]
  refine ⟨?_, ?_⟩
  · cases latest Move.pressed? (sinceCycle ms) <;> simp [KeyLatch.initial]
  · cases latest Move.code? (sincePowerOn ms) with
    | none => simp [KeyLatch.initial]; rfl
    | some code => rfl

theorem code_moves (hms : ∀ m ∈ ms, m.goesOn) :
    (e.moves ms).machine.keys.code =
      ((latest Move.code? ms).map UInt8.ofInt).getD e.machine.keys.code := by
  have hon (m : Move) (hm : m ∈ ms) := Move.isPowerOn_of_goesOn (hms m hm)
  have hany : ms.any Move.isPowerOn = false := by simpa using hon
  rw [keys_moves, Move.sincePowerOn_eq_self hon, hany]
  rfl

end Emulator

/-! ### Waiting -/

namespace Emulator

variable {e e' e'' : Emulator} {x : Reg} {ns : List Move}

open Move (latest sincePowerOn sinceCycle)

/-- Nothing but the timers, the count of cycles and the latch has moved, whether the emulator runs
or has halted, and how fast, apart. -/
structure WaitedTo (e e' : Emulator) : Prop where
  machine : e'.machine =
    { e.machine with
      regs := { e.machine.regs with
        delay := e'.machine.regs.delay, sound := e'.machine.regs.sound }
      keys := e'.machine.keys }
  lastError : e'.lastError = e.lastError

namespace WaitedTo

theorem refl (e : Emulator) : e.WaitedTo e := ⟨rfl, rfl⟩

theorem trans (h : e.WaitedTo e') (h' : e'.WaitedTo e'') : e.WaitedTo e'' :=
  ⟨by rw [h'.machine, h.machine], h'.lastError.trans h.lastError⟩

theorem of_aligned (h : e.Aligned e') : e.WaitedTo e' := by
  refine ⟨Machine.ext ?_ h.machine.mem h.machine.screen rfl h.machine.source, h.lastError⟩
  rw [h.machine.regs]

theorem next?_eq (h : e.WaitedTo e') : e'.machine.next? = e.machine.next? := by
  rw [h.machine]
  rfl

theorem pc (h : e.WaitedTo e') : e'.machine.regs.pc = e.machine.regs.pc := by rw [h.machine]

theorem v (h : e.WaitedTo e') (y : Reg) : e'.machine.v y = e.machine.v y := by
  rw [h.machine]
  rfl

end WaitedTo

section
variable (h : e.machine.next? = some (.awaitKey x))
include h

theorem waitedTo_cycle (hp : e.machine.keys.pressed = false) :
    e.WaitedTo e.cycle.1 ∧ e.cycle.1.steps = e.steps + 1 := by
  obtain ⟨-, -, -, hpc⟩ := Machine.exists_fetch_of_next? h
  have hx : (Instr.awaitKey x).exec e.machine = (e.machine, .ok (.jump e.machine.regs.pc)) := by
    rw [Instr.exec, hp]
    rfl
  have hsize : memorySize = 4096 := rfl
  have hjump : e.machine.regs.pc % 65536 = e.machine.regs.pc := by omega
  obtain ⟨w, hc⟩ := cycle_of_next? h hx
  rw [hc]
  refine ⟨⟨Machine.ext ?_ rfl rfl rfl rfl, rfl⟩, rfl⟩
  show Registers.tick { e.machine.regs with pc := e.machine.regs.pc % 65536 } _ = _
  rw [hjump]
  rfl

/-- The wait is over. -/
theorem taken_cycle (hp : e.machine.keys.pressed) :
    (∀ y, e.cycle.1.machine.v y =
        if y = x then (e.machine.keys.code.toNat : Int) else e.machine.v y) ∧
      e.cycle.1.machine.regs.pc = e.machine.regs.pc + 2 := by
  obtain ⟨-, -, -, hpc⟩ := Machine.exists_fetch_of_next? h
  have hx : (Instr.awaitKey x).exec e.machine =
      (e.machine.setV x e.machine.keys.code.toNat, .ok .next) := by
    rw [Instr.exec, hp]
    rfl
  have hcode := e.machine.keys.code.toNat_lt
  have hsize : memorySize = 4096 := rfl
  obtain ⟨w, hc⟩ := cycle_of_next? h hx
  rw [hc]
  refine ⟨fun y => ?_, ?_⟩
  · exact e.machine.regs.get_setV_of_mem x (by omega) y
  · show (e.machine.regs.pc + 2) % 65536 = _
    omega

/-- The wait goes on through all cycles that begin without a pressed key. -/
theorem waited_moves (hns : ∀ m ∈ ns, m.goesOn)
    (hp : e.EachBegins (·.keys.pressed = false) ns) :
    e.WaitedTo (e.moves ns) ∧ (e.moves ns).steps = e.steps + ns.countP Move.isCycle := by
  induction ns generalizing e with
  | nil => exact ⟨.refl e, rfl⟩
  | cons m ns ih =>
    obtain ⟨hm, hns⟩ := List.forall_mem_cons.1 hns
    have hmove : e.WaitedTo (e.move m) ∧
        (e.move m).steps = e.steps + if m.isCycle then 1 else 0 := by
      cases hc : m.isCycle with
      | true =>
        have hcycle := waitedTo_cycle h (hp.1 hc)
        obtain rfl := Move.isCycle_iff.1 hc
        exact hcycle
      | false =>
        rw [Move.goesOn, hc, Bool.false_or] at hm
        have halign := aligned_of_peripheral hm e
        exact ⟨.of_aligned halign, halign.steps⟩
    obtain ⟨hwaited, hsteps⟩ := ih (hmove.1.next?_eq.trans h) hns hp.2
    refine ⟨hmove.1.trans hwaited, ?_⟩
    show ((e.move m).moves ns).steps = _
    rw [hsteps, hmove.2, List.countP_cons]
    omega

end

/-- Only what presses the key makes a cycle begin with it pressed. -/
theorem eachBegins_of_released (h : e.machine.keys.pressed = false)
    (hns : ∀ m ∈ ns, m.pressed? ≠ some true) : e.EachBegins (·.keys.pressed = false) ns := by
  induction ns generalizing e with
  | nil => trivial
  | cons m ns ih =>
    obtain ⟨hm, hns⟩ := List.forall_mem_cons.1 hns
    refine ⟨fun _ => h, ih ?_ hns⟩
    rw [keys_move, h, Bool.and_false]
    cases hp : m.pressed? with
    | none => rfl
    | some b =>
      cases b with
      | false => rfl
      | true => exact absurd hp hm

/-- A key that is pressed is seen by one cycle, and by that with the code that was given last: a
cycle begins with a pressed key exactly if that was the latest word on it since the cycle before it
and since the machine was switched on. While a key is waited for and none is pressed, nothing but
the timers and the count of cycles moves. The first cycle with a pressed key takes its code, goes on
and releases it, so another wait is for another press. -/
theorem key_seen_once (o : Options) (source : Twister) :
    let start := (Emulator.new o).withMachine fun m => { m with source }
    (∀ ms, let keys := (start.moves ms).machine.keys
      (keys.pressed ↔ latest Move.pressed? (sinceCycle ms) = some true) ∧
        keys.code = UInt8.ofInt ((latest Move.code? (sincePowerOn ms)).getD 0)) ∧
      ∀ (e : Emulator) x ns, e.machine.next? = some (.awaitKey x) →
        (∀ m ∈ ns, m.goesOn) → e.EachBegins (·.keys.pressed = false) ns →
        let e' := e.moves ns
        let f := e'.cycle.1
        let code := ((latest Move.code? ns).map UInt8.ofInt).getD e.machine.keys.code
        (e.WaitedTo e' ∧ e'.steps = e.steps + ns.countP Move.isCycle) ∧
          (e'.machine.keys.pressed →
            (∀ y, f.machine.v y = if y = x then (code.toNat : Int) else e.machine.v y) ∧
            f.machine.regs.pc = e.machine.regs.pc + 2 ∧ f.machine.keys.pressed = false ∧
            ∀ y ns', f.machine.next? = some (.awaitKey y) →
              (∀ m ∈ ns', m.goesOn) → (∀ m ∈ ns', m.pressed? ≠ some true) →
              f.WaitedTo (f.moves ns')) := by
  refine ⟨keys_moves_initial rfl, fun e x ns h hns hp => ?_⟩
  intro e' f code
  obtain ⟨hwaited, hsteps⟩ := waited_moves h hns hp
  refine ⟨⟨hwaited, hsteps⟩, fun hpressed => ?_⟩
  obtain ⟨hv, hpc⟩ := taken_cycle (hwaited.next?_eq.trans h) hpressed
  have hreleased : f.machine.keys.pressed = false := congrArg KeyLatch.pressed (keys_cycle e')
  refine ⟨fun y => ?_, hpc.trans (by rw [hwaited.pc]), hreleased, fun y ns' h' hns' hp' =>
    (waited_moves h' hns' (eachBegins_of_released hreleased hp')).1⟩
  rw [hv, code_moves hns, hwaited.v]

/-- Two keys are waited for. Codes are set before the first press and after it. -/
theorem key_seen_once_first :
    let e := (Emulator.new {}).loadRom [0xF0, 0x0A, 0xF1, 0x0A]
    let ns := [.control .step, .control (.setKey 7), .control .step, .control (.pressKey 0x105)]
    let f := (e.moves ns).cycle.1
    let ns' := [.control (.setKey 9), .control .step]
    (e.machine.next? = some (.awaitKey 0) ∧ (∀ m ∈ ns, m.goesOn) ∧
        e.EachBegins (·.keys.pressed = false) ns ∧ (e.moves ns).machine.keys.pressed ∧
        f.machine.next? = some (.awaitKey 1) ∧ (∀ m ∈ ns', m.goesOn) ∧
        ∀ m ∈ ns', m.pressed? ≠ some true) ∧
      (e.moves ns).steps = 2 ∧ f.machine.v 0 = 5 ∧ f.machine.regs.pc = 0x202 ∧
      f.WaitedTo (f.moves ns') := by
  intro e ns f ns'
  have hrun : e.machine.next? = some (.awaitKey 0) ∧ e.EachBegins (·.keys.pressed = false) ns ∧
      (e.moves ns).machine.keys.pressed ∧ f.machine.next? = some (.awaitKey 1) := by
    decide +kernel
  obtain ⟨h, hp, hpressed, h'⟩ := hrun
  have hns : ∀ m ∈ ns, m.goesOn := by decide
  have hns' : ∀ m ∈ ns', m.goesOn := by decide
  have hp' : ∀ m ∈ ns', m.pressed? ≠ some true := by decide
  obtain ⟨-, hwait⟩ := key_seen_once {} (.seeded 0)
  obtain ⟨⟨-, hsteps⟩, htaken⟩ := hwait e 0 ns h hns hp
  obtain ⟨hv, hpc, -, hnext⟩ := htaken hpressed
  refine ⟨⟨h, hns, hp, hpressed, h', hns', hp'⟩, ?_, ?_, ?_, hnext 1 ns' h' hns' hp'⟩
  · rw [hsteps]; decide +kernel
  · rw [hv]; decide +kernel
  · rw [hpc]; decide +kernel

end Emulator

end ChipEight
