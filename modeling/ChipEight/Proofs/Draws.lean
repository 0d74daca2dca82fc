import ChipEight.Proofs.Latch

/-!
# Random bytes in order

Nothing but an instruction that puts a random byte into a register takes a byte from the source, and
it takes one, also where its mask lets nothing pass (`Instr.source_exec`). So the bytes come in the
order in which such instructions are carried out, and depend on the seed alone, whatever else is
done to the emulator (`Emulator.bytes_in_order`).
-/

namespace ChipEight

namespace Twister

/-- The source after `n` numbers. -/
def skip : Nat → Twister → Twister
  | 0, t => t
  | n + 1, t => skip n t.next.2

/-- The number that comes after `n` others. -/
def number (t : Twister) (n : Nat) : UInt32 := (skip n t).next.1

/-- The source after `n` random bytes. -/
def after : Nat → Twister → Twister
  | 0, t => t
  | n + 1, t => after n t.byte.2

/-- The random byte that comes after `n` others. -/
def nth (t : Twister) (n : Nat) : UInt8 := (after n t).byte.1

theorem after_succ (n : Nat) (t : Twister) : after (n + 1) t = (after n t).byte.2 := by
  induction n generalizing t with
  | zero => rfl
  | succ n ih => exact ih t.byte.2

theorem after_add (n k : Nat) (t : Twister) : after (n + k) t = after k (after n t) := by
  induction n generalizing t with
  | zero => rw [Nat.zero_add]; rfl
  | succ n ih => rw [Nat.succ_add]; exact ih t.byte.2

/-- Numbers whose top nine bits do not fit into a byte are passed over. -/
theorem byteWithin_eq {tries n : Nat} {t : Twister} (hn : n < tries)
    (hfit : t.number n >>> 23 < 256) (hover : ∀ k < n, ¬ t.number k >>> 23 < 256) :
    byteWithin tries t = ((t.number n >>> 23).toUInt8, skip (n + 1) t) := by
  induction tries generalizing n t with
  | zero => cases hn
  | succ tries ih =>
    unfold byteWithin
    cases n with
    | zero => exact if_pos hfit
    | succ n =>
      have hfirst : ¬ t.next.1 >>> 23 < 256 := hover 0 n.succ_pos
      refine (if_neg hfirst).trans ?_
      exact ih (Nat.lt_of_succ_lt_succ hn) hfit fun k hk => hover (k + 1) (Nat.succ_lt_succ hk)

end Twister

/-- The instruction takes a random byte, whether or not its mask lets something of it pass. -/
def Instr.takesByte : Instr → Bool
  | random _ _ => true
  | _ => false

/-- The next cycle takes a random byte. -/
def Machine.takesByte (m : Machine) : Bool := m.next?.any Instr.takesByte

/-- The source after an instruction, also if it fails. -/
theorem Instr.source_exec (i : Instr) (m : Machine) :
    (i.exec m).1.source = if i.takesByte then m.source.byte.2 else m.source := by
  cases i with
  | random => rw [exec, Machine.goOn_fst, Machine.setRandom_eq]; rfl
  | skipIfByte | skipUnlessByte | skipIfEqual | skipUnlessEqual | skipIfKey | skipUnlessKey =>
    rw [exec, Machine.skipIf_fst]; rfl
  | storeDecimal | store => rw [exec, Machine.storeAtIndex_fst]; rfl
  | load => rw [exec, Machine.loadFromIndex_fst, Machine.setFrom_eq]; rfl
  | ret => simp only [exec]; split <;> rfl
  | call => simp only [exec]; split <;> rfl
  | awaitKey => simp only [exec]; split <;> rfl
  | draw =>
    simp only [exec]
    split
    · rfl
    · rw [Machine.drawRows_eq]; split <;> rfl
  | _ => rfl

theorem Machine.source_attempt (m : Machine) :
    (m.attempt m.regs.pc).1.source = if m.takesByte then m.source.byte.2 else m.source := by
  have hfetch : m.mem.readWord m.regs.pc = m.fetch := rfl
  rw [attempt, hfetch]
  cases hw : m.fetch with
  | error f => rw [takesByte, next?, hw]; rfl
  | ok w =>
    rw [takesByte, next?_of_fetch hw]
    simp only [Word.exec]
    cases Instr.ofWord? w with
    | none => rfl
    | some i => exact i.source_exec m

namespace Emulator

variable {e : Emulator}

theorem source_cycle (e : Emulator) :
    e.cycle.1.machine.source =
      if e.machine.takesByte then e.machine.source.byte.2 else e.machine.source := by
  have h := e.machine.source_attempt
  obtain ⟨m, running, halted, steps, clockHz, lastError, decrementSound⟩ := e
  unfold cycle
  simp only at h ⊢
  rw [← h]
  generalize m.attempt m.regs.pc = r
  obtain ⟨m', w, (f | p) | flow⟩ := r <;> rfl

theorem source_move (e : Emulator) (m : Move) :
    (e.move m).machine.source =
      if m.isCycle && e.machine.takesByte then e.machine.source.byte.2 else e.machine.source := by
  rcases m with c | _
  · cases c with
    | step => exact e.source_cycle
    | setClock hz => simp only [move, obey, setClock]; split <;> rfl
    | loadFile path file =>
      show (e.machine.loadFile file).source = _
      unfold Machine.loadFile
      split <;> rfl
    | _ => rfl
  · rfl

/-- How many random bytes are taken in the course of some moves. -/
def bytesTaken : Emulator → List Move → Nat
  | _, [] => 0
  | e, m :: ms => (if m.isCycle && e.machine.takesByte then 1 else 0) + (e.move m).bytesTaken ms

theorem source_moves (e : Emulator) (ms : List Move) :
    (e.moves ms).machine.source = Twister.after (e.bytesTaken ms) e.machine.source := by
  induction ms generalizing e with
  | nil => rfl
  | cons m ms ih =>
    show ((e.move m).moves ms).machine.source = _
    rw [ih, source_move, bytesTaken, Twister.after_add]
    split <;> rfl

/-- An instruction for it puts a random byte, masked, into its register and into no other. -/
theorem cycle_of_random {x : Reg} {mask : UInt8} (hi : e.machine.next? = some (.random x mask)) :
    e.cycle.2.ending = .done ∧ ∀ y, e.cycle.1.machine.v y =
      if y = x then ((e.machine.source.byte.1 &&& mask).toNat : Int) else e.machine.v y := by
  obtain ⟨w, hc⟩ := cycle_of_next? hi rfl
  rw [hc]
  refine ⟨rfl, fun y => ?_⟩
  have hbyte := (e.machine.source.byte.1 &&& mask).toNat_lt
  rw [Machine.setRandom_eq]
  exact e.machine.regs.get_setV_of_mem x (by omega) y

/-- Random bytes come in the order of the seed, whatever is done to an emulator that has one. After
`n` instructions that take one, the next gets the byte that comes after `n` others from the seed,
masked. Nothing else that can happen to an emulator moves the source. A byte is the top nine bits of
the first number for which they fit. -/
theorem bytes_in_order (o : Options) (seed : Int) :
    let o := { o with seed := some seed }
    let start := Emulator.new o
    (∀ l threshold as, let s := Session.new o l threshold
      (s.acts as).emulator = start.moves (s.actsMoves as)) ∧
    (∀ ms, let e := start.moves ms
      let n := start.bytesTaken ms
      e.machine.source = Twister.after n (.seeded seed) ∧
        ∀ x mask, e.machine.next? = some (.random x mask) →
          e.cycle.2.ending = .done ∧
          e.cycle.1.machine.source = Twister.after (n + 1) (.seeded seed) ∧
          ∀ y, e.cycle.1.machine.v y =
            if y = x then (((Twister.seeded seed).nth n &&& mask).toNat : Int)
            else e.machine.v y) ∧
    (∀ (e : Emulator) m, (m.isCycle && e.machine.takesByte) = false →
      (e.move m).machine.source = e.machine.source) ∧
    ∀ (t : Twister) n, n < 19938 → t.number n >>> 23 < 256 →
      (∀ k < n, ¬ t.number k >>> 23 < 256) →
      t.byte = ((t.number n >>> 23).toUInt8, Twister.skip (n + 1) t) := by
  intro o start
  refine ⟨fun l threshold as => Session.emulator_acts _ as, fun ms => ?_,
    fun e m hm => by rw [source_move, hm]; rfl, fun t n hn => Twister.byteWithin_eq hn⟩
  intro e n
  have hsource : e.machine.source = Twister.after n (.seeded seed) := start.source_moves ms
  refine ⟨hsource, fun x mask hi => ?_⟩
  obtain ⟨hdone, hv⟩ := cycle_of_random hi
  rw [hsource] at hv
  have htakes : e.machine.takesByte = true := by rw [Machine.takesByte, hi]; rfl
  refine ⟨hdone, ?_, hv⟩
  rw [source_cycle, htakes, hsource, Twister.after_succ]
  rfl

end Emulator

end ChipEight
