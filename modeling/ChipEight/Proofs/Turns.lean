import ChipEight.Session

/-!
# How a step goes

`Session.Stepped` lists the ways in which a step goes: its cycle is broken off, the host fails on
seeing the frame, what the host does at the end is interrupted, or all of it is done. In the last
two cases the host has heard of all of the cycle before it does anything (`Session.told`). With a
host that has nothing left to do (`Session.Quiet`) there is no more to a step than its cycle and
what the host hears of it (`Session.step_of_quiet`).
-/

namespace ChipEight

theorem Listener.fails_hear (l : Listener) (n : Notice) : (l.hear n).fails = l.fails := by
  unfold hear; split <;> rfl

theorem Listener.script_hear (l : Listener) (n : Notice) : (l.hear n).script = l.script := by
  unfold hear; split <;> rfl

/-- The next cycle does not break down without a report. -/
def Emulator.Unbroken (e : Emulator) : Prop := ∀ p, e.cycle.2.ending ≠ .broken p

namespace Session

variable {s t : Session}

/-- The host has heard the same, and has seen as many frames and ends of cycles. -/
structure SameHost (s t : Session) : Prop where
  listener : t.listener = s.listener
  frames : t.frames = s.frames
  ends : t.ends = s.ends

theorem SameHost.symm (h : s.SameHost t) : t.SameHost s :=
  ⟨h.listener.symm, h.frames.symm, h.ends.symm⟩

theorem SameHost.trans {u : Session} (h : s.SameHost t) (h' : t.SameHost u) : s.SameHost u :=
  ⟨h'.listener.trans h.listener, h'.frames.trans h.frames, h'.ends.trans h.ends⟩

/-- The host fails at the next frame. -/
def FailsNext (s : Session) : Prop := s.listener.fails (s.frames + 1)

instance : Decidable s.FailsNext := inferInstanceAs (Decidable (_ = _))

/-- The host pauses the emulator when the cycle that has ended is counted. -/
def stops (s : Session) : Bool :=
  s.task.any fun t => t.left ≤ 1 ∨ t.failed ∨ ¬ s.emulator.running

/-- The session after a cycle of which the host has heard up to the frame. -/
def shown (s : Session) : Session := (s.cycle.1.tellError s.cycle.2).showFrame.1

/-- The session after a cycle of which the host has heard all. -/
def told (s : Session) : Session := s.shown.tellEnd s.cycle.2

/-! ### What the parts of a step leave alone -/

section
variable (s : Session)

theorem emulator_cycle : s.cycle.1.emulator = s.emulator.cycle.1 := rfl

theorem cycle_snd : s.cycle.2 = s.emulator.cycle.2 := rfl

theorem emulator_tellError (o : Outcome) : (s.tellError o).emulator = s.emulator := by
  unfold tellError; split <;> rfl

theorem frames_tellError (o : Outcome) : (s.tellError o).frames = s.frames := by
  unfold tellError; split <;> rfl

theorem ends_tellError (o : Outcome) : (s.tellError o).ends = s.ends := by
  unfold tellError; split <;> rfl

theorem fails_tellError (o : Outcome) : (s.tellError o).listener.fails = s.listener.fails := by
  unfold tellError
  split
  · exact Listener.fails_hear _ _
  · rfl

theorem emulator_showFrame : s.showFrame.1.emulator = s.emulator := rfl

theorem frames_showFrame : s.showFrame.1.frames = s.frames + 1 := rfl

theorem ends_showFrame : s.showFrame.1.ends = s.ends := rfl

theorem emulator_tellEnd (o : Outcome) : (s.tellEnd o).emulator = s.emulator := rfl

theorem frames_tellEnd (o : Outcome) : (s.tellEnd o).frames = s.frames := rfl

theorem ends_tellEnd (o : Outcome) : (s.tellEnd o).ends = s.ends + 1 := rfl

theorem emulator_shown : s.shown.emulator = s.emulator.cycle.1 := by
  rw [shown, emulator_showFrame, emulator_tellError, emulator_cycle]

theorem emulator_told : s.told.emulator = s.emulator.cycle.1 := by
  rw [told, emulator_tellEnd, emulator_shown]

theorem frames_shown : s.shown.frames = s.frames + 1 := by
  rw [shown, frames_showFrame, frames_tellError]
  rfl

theorem frames_told : s.told.frames = s.frames + 1 := by rw [told, frames_tellEnd, frames_shown]

theorem ends_shown : s.shown.ends = s.ends := by
  rw [shown, ends_showFrame, ends_tellError]
  rfl

theorem ends_told : s.told.ends = s.ends + 1 := by rw [told, ends_tellEnd, ends_shown]

theorem emulator_stop : s.stop.emulator = s.emulator.pause := by
  simp only [stop]
  split <;> rfl

theorem sameHost_stop : s.SameHost s.stop := by
  simp only [stop]
  split <;> exact ⟨rfl, rfl, rfl⟩

theorem sameHost_countEnd : s.SameHost s.countEnd := by
  unfold countEnd
  split
  · exact ⟨rfl, rfl, rfl⟩
  · split
    · split
      · exact ⟨rfl, rfl, rfl⟩
      · obtain ⟨hlistener, hframes, hends⟩ := sameHost_stop { s with task := none }
        exact ⟨hlistener, hframes, hends⟩
    · exact ⟨rfl, rfl, rfl⟩

theorem emulator_countEnd_eq :
    s.countEnd.emulator = if s.stops then s.emulator.pause else s.emulator := by
  unfold countEnd stops
  cases s.task with
  | none => rfl
  | some t =>
    simp only [Option.any_some, decide_eq_true_eq]
    split
    · split
      · rfl
      · exact emulator_stop _
    · rfl

/-- A cycle that has ended may make the host pause the emulator, and that is all. -/
theorem countEnd_cases :
    s.countEnd.emulator = s.emulator ∨ s.countEnd.emulator = s.emulator.pause := by
  rw [emulator_countEnd_eq]
  split
  · exact .inr rfl
  · exact .inl rfl

theorem machine_countEnd : s.countEnd.emulator.machine = s.emulator.machine := by
  rw [emulator_countEnd_eq]
  split <;> rfl

/-- Running the cycle and telling of its failure does not change on which frames the host fails. -/
theorem failsNext_tellError : (s.cycle.1.tellError s.cycle.2).FailsNext ↔ s.FailsNext := by
  unfold FailsNext
  rw [fails_tellError, frames_tellError]
  exact Iff.rfl

end

theorem showFrame_of_failsNext (h : s.FailsNext) : s.showFrame = (s.showFrame.1, .error .host) := by
  unfold FailsNext at h
  rw [← Listener.fails_hear s.listener (.frame s.emulator.machine.screen)] at h
  exact Prod.ext rfl (if_pos h)

theorem showFrame_of_not_failsNext (h : ¬ s.FailsNext) : s.showFrame = (s.showFrame.1, .ok ()) := by
  unfold FailsNext at h
  rw [← Listener.fails_hear s.listener (.frame s.emulator.machine.screen)] at h
  exact Prod.ext rfl (if_neg h)

/-! ### Steps -/

/-- The ways in which a step goes, and its result. -/
inductive Stepped (atEnd : Session → Session × Except Interruption Unit) (s : Session) :
    Session × Except Interruption Outcome → Prop
  | broken {p : Misplaced} (hb : s.emulator.cycle.2.ending = .broken p) :
      Stepped atEnd s (s.cycle.1, .error (.breakdown p))
  /-- The host fails on seeing the frame. -/
  | cut (hb : s.emulator.Unbroken) (hf : s.FailsNext) : Stepped atEnd s (s.shown, .error .host)
  /-- What the host does at the end is interrupted. -/
  | stopped {t : Session} {x : Interruption} (hb : s.emulator.Unbroken) (hf : ¬ s.FailsNext)
      (ha : atEnd s.told = (t, .error x)) : Stepped atEnd s (t, .error x)
  | done {t : Session} (hb : s.emulator.Unbroken) (hf : ¬ s.FailsNext)
      (ha : atEnd s.told = (t, .ok ())) : Stepped atEnd s (t.countEnd, .ok s.emulator.cycle.2)

theorem stepped_stepThen (atEnd : Session → Session × Except Interruption Unit) (s : Session) :
    s.Stepped atEnd (s.stepThen atEnd) := by
  have hfails := failsNext_tellError s
  unfold stepThen
  cases ho : s.cycle.2.ending with
  | broken p => simp only [ho]; exact .broken ho
  | _ =>
    have hb : s.emulator.Unbroken := fun p hp => nomatch ho.symm.trans hp
    simp only [ho]
    by_cases hf : s.FailsNext
    · rw [showFrame_of_failsNext (hfails.2 hf)]
      exact .cut hb hf
    · rw [showFrame_of_not_failsNext (mt hfails.1 hf)]
      cases ha : atEnd s.told with
      | mk t x =>
        have ha' : atEnd ((s.cycle.1.tellError s.cycle.2).showFrame.1.tellEnd s.cycle.2) = (t, x) :=
          ha
        cases x with
        | error x => simp only [ha']; exact .stopped hb hf ha
        | ok u => simp only [ha']; exact .done hb hf ha

section
variable (hb : s.emulator.Unbroken) (atEnd : Session → Session × Except Interruption Unit)
include hb

theorem stepThen_of_failsNext (hf : s.FailsNext) : s.stepThen atEnd = (s.shown, .error .host) := by
  have h := stepped_stepThen atEnd s
  generalize s.stepThen atEnd = r at h ⊢
  cases h with
  | broken hb' => exact absurd hb' (hb _)
  | cut => rfl
  | stopped _ hf' | done _ hf' => exact absurd hf hf'

theorem stepThen_of_not_failsNext (hf : ¬ s.FailsNext) :
    s.stepThen atEnd =
      match atEnd s.told with
      | (t, .error x) => (t, .error x)
      | (t, .ok ()) => (t.countEnd, .ok s.emulator.cycle.2) := by
  have h := stepped_stepThen atEnd s
  generalize s.stepThen atEnd = r at h ⊢
  cases h with
  | broken hb' => exact absurd hb' (hb _)
  | cut _ hf' => exact absurd hf' hf
  | stopped _ _ ha | done _ _ ha => rw [ha]

end

/-- The host will not fail any more, and has no cue left. -/
structure Quiet (s : Session) : Prop where
  steady : ∀ k, s.frames < k → s.listener.fails k = false
  idle : ∀ c ∈ s.listener.script, c.atEnd ≤ s.ends

theorem follow_of_idle {cues : List Cue} (h : ∀ c ∈ cues, c.atEnd ≠ s.ends) :
    follow cues s = (s, .ok ()) := by
  induction cues with
  | nil => rfl
  | cons c cs ih =>
    rw [follow, if_neg (h c List.mem_cons_self)]
    exact ih fun d hd => h d (List.mem_cons_of_mem _ hd)

theorem step_of_idle (hi : ∀ c ∈ s.listener.script, c.atEnd ≤ s.ends) (hb : s.emulator.Unbroken)
    (hf : ¬ s.FailsNext) : s.step = (s.told.countEnd, .ok s.emulator.cycle.2) := by
  have ha : follow s.listener.script s.told = (s.told, .ok ()) :=
    follow_of_idle fun c hc he => by
      have := hi c hc
      rw [he, ends_told] at this
      omega
  rw [step, stepThen_of_not_failsNext hb _ hf, ha]

/-- With a quiet host a step is its cycle, of which the host hears all. -/
theorem step_of_quiet (hq : s.Quiet) (hb : s.emulator.Unbroken) :
    s.step = (s.told.countEnd, .ok s.emulator.cycle.2) :=
  step_of_idle hq.idle hb (by simp [FailsNext, hq.steady _ (Nat.lt_succ_self _)])

theorem Quiet.of_sameHost (hq : s.Quiet) (h : s.SameHost t) : t.Quiet := by
  refine ⟨?_, ?_⟩ <;> rw [h.listener]
  · rw [h.frames]; exact hq.steady
  · rw [h.ends]; exact hq.idle

end Session

end ChipEight
