import ChipEight.Proofs.Moves

/-!
# Machines stay well formed

Whatever is done to a session from outside, and whatever its host does when told of a cycle, the
registers of its machine stay in range and the stack within its limit (`wellFormed_acts`). So the
only things that can go wrong with an instruction are the faults that a cycle reports, and no cycle
is ever broken off without a report.
-/

namespace ChipEight

/-- The parts of a machine have the sizes that they are to have. -/
structure Machine.Sized (m : Machine) : Prop where
  registers : m.regs.v.toList.length = 16
  memory : m.mem.toList.length = 4096 ∧ ∀ b ∈ m.mem.toList, b.toNat < 256
  screen : m.screen.rows.length = 32 ∧ ∀ row ∈ m.screen.rows, row.length = 64
  key : m.keys.code.toNat < 256

theorem Machine.sized (m : Machine) : m.Sized where
  registers := m.regs.v.length_toList
  memory := ⟨m.mem.bytes.length_toList, fun b _ => b.toNat_lt⟩
  screen := by
    refine ⟨by simp [Screen.rows], fun row hrow => ?_⟩
    obtain ⟨r, rfl⟩ := List.mem_ofFn.1 hrow
    simp
  key := m.keys.code.toNat_lt

/-- Every fault is of a kind that a cycle reports. -/
theorem Fault.runtime_mem_ancestors (f : Fault) : Kind.runtime ∈ f.kind.ancestors := by
  cases f <;> simp [kind, Kind.ancestors]

/-- With registers in range, a word either is carried out or has a fault. -/
theorem Word.exists_fault_of_exec {m : Machine} (h : m.regs.InRange) {w : Word} {b : Breakdown}
    (hb : (w.exec m).2 = .error b) : ∃ f, b = .fault f := by
  unfold exec at hb
  split at hb
  · next i _ =>
    have hends := Instr.endsBy_exec h i
    rw [hb] at hends
    cases hf : i.fault? m.regs with
    | some f => rw [hf] at hends; exact ⟨f, Except.error.inj hends⟩
    | none => rw [hf] at hends; obtain ⟨_, hx⟩ := hends; cases hx
  · exact ⟨_, (Except.error.inj hb).symm⟩

namespace Emulator

/-- The registers are well formed, and the stack's limit is the given one. -/
structure WellFormed (e : Emulator) (depth : Option Int) : Prop where
  regs : e.machine.regs.WellFormed
  depth_eq : e.machine.regs.depth = depth

variable {e : Emulator} {depth : Option Int}

theorem wellFormed_initial (h : e.machine.regs = .initial depth Memory.programStart) :
    e.WellFormed depth := by
  refine ⟨⟨h ▸ Registers.InRange.initial depth, fun d _ => ?_⟩, by rw [h]; rfl⟩
  rw [h]
  exact Int.le_max_left 0 d

theorem WellFormed.of_regs_eq (h : e.WellFormed depth) {e' : Emulator}
    (hr : e'.machine.regs = e.machine.regs) : e'.WellFormed depth :=
  ⟨hr ▸ h.regs, hr ▸ h.depth_eq⟩

theorem wellFormed_cycle (h : e.WellFormed depth) : e.cycle.1.WellFormed depth := by
  have hstack := stable_cycle (Registers.stable_fits.and (Registers.stable_depth depth))
    (fun _ h => h) (fun _ h => h) h.regs.toInRange ⟨h.regs.fits, h.depth_eq⟩
  exact ⟨⟨inRange_cycle h.regs.toInRange, hstack.1⟩, hstack.2⟩

theorem regs_loadFile (m : Machine) (file : Option (List UInt8)) :
    (m.loadFile file).regs = m.regs := by
  unfold Machine.loadFile; split <;> rfl

theorem wellFormed_move (m : Move) (h : e.WellFormed depth) : (e.move m).WellFormed depth := by
  cases m with
  | giveUp => exact h.of_regs_eq rfl
  | control c =>
    cases c with
    | step => exact wellFormed_cycle h
    | powerOn => exact wellFormed_initial (by rw [← h.depth_eq]; rfl)
    | loadFile path file => exact h.of_regs_eq (regs_loadFile _ file)
    | setClock hz =>
      refine h.of_regs_eq ?_
      simp only [move, obey, setClock]
      split <;> rfl
    | _ => exact h.of_regs_eq rfl

theorem wellFormed_moves (h : e.WellFormed depth) (ms : List Move) :
    (e.moves ms).WellFormed depth :=
  moves_induction (P := fun e => e.WellFormed depth) (fun _ m => wellFormed_move m) h ms

end Emulator

namespace Session

variable {depth : Option Int} {s t : Session}

theorem Reaches.wellFormed (h : s.Reaches t) (hs : s.emulator.WellFormed depth) :
    t.emulator.WellFormed depth := by
  obtain ⟨ms, hms⟩ := h
  rw [hms]
  exact Emulator.wellFormed_moves hs ms

/-- The machine of a new session stays well formed, whatever is done to the session and wherever its
random bytes come from. So a word can only have a fault, which a cycle reports, and no operation is
broken off for any other reason than that the host failed. -/
theorem wellFormed_acts (o : Options) (l : Listener) (threshold : Option Level) (source : Twister)
    (as : List Act) :
    let s := ((Session.new o l threshold).withSource source).acts as
    let m := s.emulator.machine
    (m.Sized ∧ m.regs.WellFormed ∧ m.regs.depth = o.stackDepth) ∧
      (∀ (w : Word) b, (w.exec m).2 = .error b →
        ∃ f, b = .fault f ∧ Fault.Kind.runtime ∈ f.kind.ancestors) ∧
      ∀ c p, (s.perform c).2 ≠ .error (.breakdown p) := by
  intro s m
  have hs : s.emulator.WellFormed o.stackDepth :=
    (reaches_acts _ as).wellFormed (Emulator.wellFormed_initial rfl)
  refine ⟨⟨m.sized, hs.regs, hs.depth_eq⟩, fun w b hb => ?_, fun c p hp => ?_⟩
  · obtain ⟨f, rfl⟩ := Word.exists_fault_of_exec hs.regs.toInRange hb
    exact ⟨f, rfl, f.runtime_mem_ancestors⟩
  · obtain ⟨t, ht, hbroken⟩ := (reachesResult_perform s c).broken p hp
    exact Emulator.ending_ne_broken (ht.wellFormed hs).regs.toInRange p hbroken

end Session

end ChipEight
