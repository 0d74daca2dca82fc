import ChipEight.Proofs.PowerOn

/-!
# The worker

A worker that goes on until `n` cycles have ended does what `n` steps do, up to the first that fails
or is interrupted (`Session.workLoop_ends`); only whether the emulator runs and has halted is the
worker's own. The flags make no difference to a cycle (`Emulator.cycle_withFlags`), so it does not
matter either how they were before.

This takes a pause between the cycles. If the frequency is too high for it to be worked out, the
worker is gone after its first cycle, and nobody stops the emulator (`Session.workLoop_unpaced`).
-/

namespace ChipEight

namespace Emulator

variable {e : Emulator}

def withFlags (e : Emulator) (running halted : Bool) : Emulator := { e with running, halted }

/-- A cycle halts the emulator if it fails, and leaves the flags alone otherwise; they do not matter
to anything else. -/
theorem cycle_withFlags (e : Emulator) (running halted : Bool) :
    (e.withFlags running halted).cycle =
      (e.cycle.1.withFlags (running && e.cycle.2.error.isNone) (halted || e.cycle.2.error.isSome),
        e.cycle.2) := by
  obtain ⟨m, running', halted', steps, clockHz, lastError, decrementSound⟩ := e
  unfold withFlags cycle
  simp only
  split <;> simp [Outcome.error]

theorem clockHz_cycle (e : Emulator) : e.cycle.1.clockHz = e.clockHz := by
  rw [cycle_fst]
  split <;> rfl

theorem block_withFlags (e : Emulator) (running halted cut : Bool) :
    (e.withFlags running halted).block cut = e.block cut := by
  simp only [block, cycle_withFlags]
  rfl

theorem cycles_withFlags (e : Emulator) (running halted : Bool) (n : Nat) :
    ∃ running' halted',
      (e.withFlags running halted).cycles n = (e.cycles n).withFlags running' halted' := by
  induction n generalizing e running halted with
  | zero => exact ⟨running, halted, rfl⟩
  | succ n ih =>
    simp only [cycles, cycle_withFlags]
    exact ih ..

end Emulator

namespace Session

variable {s t u : Session}

/-- Steps until one fails, `n` times at most. -/
def stepsUpTo : Nat → Session → Session × Except Interruption (Option Report)
  | 0, s => (s, .ok none)
  | n + 1, s =>
    match s.step with
    | (t, .error x) => (t, .error x)
    | (t, .ok o) =>
      match o.error with
      | some r => (t, .ok (some r))
      | none => t.stepsUpTo n

/-- A worker is at its turns and is to go on until `n` cycles have ended. -/
structure AtWork (s : Session) (n : Nat) (stay : Bool) : Prop where
  worker : s.worker = .busy false
  task : s.task = some ⟨n, false, stay⟩
  running : s.emulator.running

/-- The host does nothing at the ends that are still to come. -/
def Idle (s : Session) : Prop := ∀ c ∈ s.listener.script, c.atEnd ≤ s.ends

/-- The steps have ended with a failure or an interruption. -/
def halts : Except Interruption (Option Report) → Bool
  | .ok failure => failure.isSome
  | .error _ => true

theorem Idle.of_sameHost (hi : s.Idle) (h : s.SameHost t) : t.Idle := by
  unfold Idle
  rw [h.listener, h.ends]
  exact hi

theorem Idle.told (hi : s.Idle) (hb : s.emulator.Unbroken) : s.told.Idle := by
  intro c hc
  rw [listener_told s hb, Listener.script_foldl_hear] at hc
  have := hi c hc
  rw [ends_told]
  omega

theorem task_showFrame (s : Session) : s.showFrame.1.task = s.task := rfl

theorem task_tellEnd (s : Session) (o : Outcome) : (s.tellEnd o).task = s.task := rfl

theorem task_told (s : Session) :
    s.told.task = if s.emulator.cycle.2.error.isSome then s.task.map Task.fail else s.task := by
  rw [told, task_tellEnd, shown, task_showFrame, tellError, cycle_snd]
  cases s.emulator.cycle.2.error <;> rfl

theorem worker_showFrame (s : Session) : s.showFrame.1.worker = s.worker := rfl

theorem worker_tellEnd (s : Session) (o : Outcome) : (s.tellEnd o).worker = s.worker := rfl

theorem worker_told (s : Session) : s.told.worker = s.worker := by
  rw [told, worker_tellEnd, shown, worker_showFrame, tellError]
  split <;> rfl

theorem AtWork.countEnd_told {n : Nat} {stay : Bool} (h : s.AtWork (n + 2) stay)
    (hok : s.emulator.cycle.2.error = none) (hr : s.told.emulator.running) :
    s.told.countEnd.AtWork (n + 1) stay := by
  have htask : s.told.task = some ⟨(n + 2 : Nat), false, stay⟩ := by
    rw [task_told, hok]
    exact h.task
  have hcount : s.told.countEnd = { s.told with task := some ⟨(n + 1 : Nat), false, stay⟩ } := by
    unfold countEnd
    rw [htask]
    simp only
    rw [if_neg (by simp [hr]; omega), show ((n + 2 : Nat) : Int) - 1 = (n + 1 : Nat) by omega]
  rw [hcount]
  exact ⟨s.worker_told.trans h.worker, rfl, hr⟩

/-- Of the emulators only the flags may differ, and these are the given ones in `s`. -/
structure Matches (u s : Session) (running halted : Bool) : Prop where
  host : u.SameHost s
  emulator : s.emulator = u.emulator.withFlags running halted

namespace Matches

variable {running halted : Bool} (h : u.Matches s running halted)
include h

theorem cycle_eq :
    s.emulator.cycle =
      (u.emulator.cycle.1.withFlags (running && u.emulator.cycle.2.error.isNone)
        (halted || u.emulator.cycle.2.error.isSome), u.emulator.cycle.2) := by
  rw [h.emulator, Emulator.cycle_withFlags]

theorem unbroken (hb : u.emulator.Unbroken) : s.emulator.Unbroken := by
  rw [Emulator.Unbroken, h.cycle_eq]
  exact hb

theorem block (cut : Bool) : s.emulator.block cut = u.emulator.block cut := by
  rw [h.emulator, Emulator.block_withFlags]

theorem failsNext_iff : s.FailsNext ↔ u.FailsNext := by
  rw [FailsNext, FailsNext, h.host.listener, h.host.frames]

theorem shown (hb : u.emulator.Unbroken) :
    u.shown.Matches s.shown (running && u.emulator.cycle.2.error.isNone)
      (halted || u.emulator.cycle.2.error.isSome) := by
  refine ⟨⟨?_, ?_, ?_⟩, ?_⟩
  · rw [listener_shown s (h.unbroken hb), listener_shown u hb, h.block, h.host.listener]
  · rw [frames_shown, frames_shown, h.host.frames]
  · rw [ends_shown, ends_shown, h.host.ends]
  · rw [emulator_shown, emulator_shown, h.cycle_eq]

theorem told (hb : u.emulator.Unbroken) :
    u.told.Matches s.told (running && u.emulator.cycle.2.error.isNone)
      (halted || u.emulator.cycle.2.error.isSome) := by
  refine ⟨⟨?_, ?_, ?_⟩, ?_⟩
  · rw [listener_told s (h.unbroken hb), listener_told u hb, h.block, h.host.listener]
  · rw [frames_told, frames_told, h.host.frames]
  · rw [ends_told, ends_told, h.host.ends]
  · rw [emulator_told, emulator_told, h.cycle_eq]

theorem countEnd_left : u.countEnd.Matches s running halted := by
  refine ⟨u.sameHost_countEnd.symm.trans h.host, h.emulator.trans ?_⟩
  rw [emulator_countEnd_eq]
  split <;> rfl

/-- To what only changes the flags of `s`. -/
theorem right (hhost : s.SameHost t) {running' halted' : Bool}
    (he : t.emulator = s.emulator.withFlags running' halted') : u.Matches t running' halted' := by
  refine ⟨h.host.trans hhost, ?_⟩
  rw [he, h.emulator]
  rfl

theorem withWorker (worker : Worker) : u.Matches { s with worker } running halted :=
  ⟨⟨h.host.listener, h.host.frames, h.host.ends⟩, h.emulator⟩

end Matches

/-- Once the emulator does not run, a worker has nothing more to do. -/
theorem Matches.workLoop {halted : Bool} (h : u.Matches s false halted) (n : Nat) :
    u.Matches (workLoop n s) false halted := by
  have hpaused : s.emulator.running = false := by rw [h.emulator]; rfl
  obtain ⟨hhost, he⟩ := workLoop_of_paused hpaused n
  exact h.right hhost (he.trans (by rw [h.emulator]; rfl))

theorem emulator_countEnd_told (s : Session) :
    s.told.countEnd.emulator =
      s.emulator.cycle.1.withFlags s.told.countEnd.emulator.running s.emulator.cycle.1.halted := by
  rw [← emulator_told]
  rcases s.told.countEnd_cases with h | h
  · rw [h]
    rfl
  · rw [h]
    rfl

theorem inRange_countEnd_told (h : s.emulator.machine.regs.InRange) :
    s.told.countEnd.emulator.machine.regs.InRange := by
  rw [emulator_countEnd_told]
  exact Emulator.inRange_cycle h

theorem clockHz_countEnd_told (s : Session) :
    s.told.countEnd.emulator.clockHz = s.emulator.clockHz := by
  rw [emulator_countEnd_told]
  exact s.emulator.clockHz_cycle

theorem cycles_countEnd_told (s : Session) (n : Nat) : ∃ running halted,
    s.told.countEnd.emulator.cycles n = (s.emulator.cycles (n + 1)).withFlags running halted := by
  rw [emulator_countEnd_told]
  exact s.emulator.cycle.1.cycles_withFlags ..

theorem fails_countEnd_told (hb : s.emulator.Unbroken) (n : Nat) :
    s.told.countEnd.listener.fails (s.told.countEnd.frames + n) =
      s.listener.fails (s.frames + (n + 1)) := by
  obtain ⟨hlistener, hframes, -⟩ := s.told.sameHost_countEnd
  rw [hlistener, hframes, frames_told, listener_told s hb, Listener.fails_foldl_hear,
    Nat.add_assoc, Nat.add_comm 1 n]

section
variable {n : Nat} {stay : Bool}

/-- One turn of a worker that is at work. -/
theorem workLoop_turn (hw : s.AtWork n stay) (hi : s.Idle) (hb : s.emulator.Unbroken) (m : Nat) :
    workLoop (m + 1) s =
      if s.FailsNext then workLoop m s.shown.giveUp
      else if paceLimit ≤ s.emulator.clockHz then { s.told.countEnd with worker := .absent }
      else workLoop m s.told.countEnd := by
  rw [workLoop, hw.worker, hw.running]
  by_cases hf : s.FailsNext
  · rw [if_pos hf, step_of_failsNext hb hf]
    rfl
  · rw [if_neg hf, step_of_idle hi hb hf, ← clockHz_countEnd_told]
    rfl

variable (h : u.Matches s true false)
include h

/-- The host stops the worker after the last cycle and after one that has failed. -/
theorem Matches.stops_told (hw : s.AtWork (n + 1) stay) :
    s.told.stops = !(u.emulator.cycle.2.error.isNone && 0 < n) := by
  rw [stops, task_told, emulator_told, h.cycle_eq, hw.task]
  cases u.emulator.cycle.2.error with
  | some r => simp [Task.fail]
  | none =>
    rcases n with _ | n
    · rfl
    · show decide (((n + 1 + 1 : Nat) : Int) ≤ 1 ∨ false = true ∨ ¬ true = true) = false
      rw [decide_eq_false_iff_not]
      rintro (hleft | hfailed | hpaused)
      · omega
      · cases hfailed
      · exact hpaused rfl

theorem Matches.counted (hw : s.AtWork (n + 1) stay) (hb : u.emulator.Unbroken) :
    u.told.countEnd.Matches s.told.countEnd (u.emulator.cycle.2.error.isNone && 0 < n)
      u.emulator.cycle.2.error.isSome := by
  have htold := h.told hb
  refine htold.countEnd_left.right s.told.sameHost_countEnd ?_
  rw [emulator_countEnd_eq, h.stops_told hw, htold.emulator]
  cases u.emulator.cycle.2.error with
  | some r => rfl
  | none => by_cases hn : 0 < n <;> simp only [hn] <;> rfl

/-- A worker that is to go on until `n` cycles have ended does as many steps, up to the first that
fails or is interrupted. By induction on `n`, both going through the same cycles. Without a pause to
go through the worker is gone after a cycle, but a single one is all it has to do. -/
theorem workLoop_ends (hn : 0 < n) (hw : s.AtWork n stay) (hi : u.Idle)
    (hr : u.emulator.machine.regs.InRange)
    (hpace : u.emulator.clockHz < paceLimit ∨ n = 1 ∨ u.FailsNext) :
    (u.stepsUpTo n).1.Matches (workLoop (n + 1) s) false (halts (u.stepsUpTo n).2) := by
  induction n generalizing s u with
  | zero => cases hn
  | succ n ih =>
    have hb : u.emulator.Unbroken := Emulator.ending_ne_broken hr
    rw [workLoop_turn hw (hi.of_sameHost h.host) (h.unbroken hb)]
    by_cases hf : u.FailsNext
    · rw [if_pos (h.failsNext_iff.2 hf), stepsUpTo, step_of_failsNext hb hf]
      have hgaveUp : u.shown.Matches s.shown.giveUp false true := by
        refine (h.shown hb).right ?_ ?_
        · exact ⟨rfl, rfl, rfl⟩
        · rfl
      exact hgaveUp.workLoop _
    · have hcounted := h.counted hw hb
      rw [if_neg (mt h.failsNext_iff.1 hf), stepsUpTo, step_of_idle hi hb hf]
      cases herror : u.emulator.cycle.2.error with
      | some r =>
        rw [herror] at hcounted
        simp only [herror]
        split
        · exact hcounted.withWorker _
        · exact hcounted.workLoop _
      | none =>
        rw [herror] at hcounted
        simp only [herror]
        rcases n with _ | n
        · split
          · exact hcounted.withWorker _
          · exact hcounted.workLoop _
        · have hclock : u.emulator.clockHz < paceLimit :=
            hpace.resolve_right (not_or_intro (by omega) hf)
          have hclock' : s.emulator.clockHz < paceLimit := by rw [h.emulator]; exact hclock
          have hrunning : s.told.emulator.running := by
            rw [(h.told hb).emulator, herror]
            rfl
          rw [if_neg (Int.not_le.2 hclock')]
          refine ih hcounted (Nat.succ_pos n) (hw.countEnd_told ?_ hrunning)
            ((hi.told hb).of_sameHost u.told.sameHost_countEnd) (inRange_countEnd_told hr)
            (.inl (u.clockHz_countEnd_told ▸ hclock))
          rw [h.cycle_eq]
          exact herror

/-- Without a pause to go through the worker is gone after its first cycle. Unless that was the last
or has failed, the emulator goes on running. -/
theorem workLoop_unpaced (hw : s.AtWork (n + 1) stay) (hi : u.Idle) (hb : u.emulator.Unbroken)
    (hf : ¬ u.FailsNext) (hpace : paceLimit ≤ u.emulator.clockHz) (m : Nat) :
    u.told.countEnd.Matches (workLoop (m + 1) s) (u.emulator.cycle.2.error.isNone && 0 < n)
        u.emulator.cycle.2.error.isSome ∧
      (workLoop (m + 1) s).worker = .absent := by
  have hpace' : paceLimit ≤ s.emulator.clockHz := by rw [h.emulator]; exact hpace
  rw [workLoop_turn hw (hi.of_sameHost h.host) (h.unbroken hb),
    if_neg (mt h.failsNext_iff.1 hf), if_pos hpace']
  exact ⟨(h.counted hw hb).withWorker _, rfl⟩

end

theorem atWork_employ {n : Int} (hn : 1 ≤ n) (stay : Bool) :
    (s.employ n stay).AtWork n.toNat stay := by
  refine ⟨rfl, ?_, rfl⟩
  rw [Int.toNat_of_nonneg (by omega)]
  rfl

theorem work_matches {n : Int} (hn : 1 ≤ n) (stay : Bool) (hi : s.Idle)
    (hr : s.emulator.machine.regs.InRange)
    (hpace : s.emulator.clockHz < paceLimit ∨ n = 1 ∨ s.FailsNext) :
    (s.stepsUpTo n.toNat).1.Matches (s.work n stay) false (halts (s.stepsUpTo n.toNat).2) := by
  obtain ⟨hstart, he⟩ := s.sameHost_employ n stay
  obtain ⟨hhost, last, -, hlast⟩ := s.work_cases n stay
  have hloop := workLoop_ends ⟨hstart, he⟩ (by omega) (atWork_employ hn stay) hi hr
    (hpace.imp_right (.imp_left (by omega)))
  rw [turns, Int.max_eq_right hn] at hhost hlast
  rcases hlast with ⟨-, hend⟩ | ⟨-, hend⟩
  · exact hloop.right hhost (hend.trans (by rw [hloop.emulator]; rfl))
  · exact hloop.right hhost (hend.trans (by rw [hloop.emulator]; rfl))

theorem work_unpaced {n : Int} (hn : 1 < n) (stay : Bool) (hi : s.Idle)
    (hb : s.emulator.Unbroken) (hf : ¬ s.FailsNext) (hpace : paceLimit ≤ s.emulator.clockHz) :
    s.told.countEnd.Matches (s.work n stay) s.emulator.cycle.2.error.isNone
        s.emulator.cycle.2.error.isSome ∧
      (s.work n stay).worker = .absent := by
  obtain ⟨k, hk⟩ : ∃ k, n.toNat = k + 1 := Nat.exists_eq_add_one_of_ne_zero (by omega)
  have hw : (s.employ n stay).AtWork (k + 1) stay := hk ▸ atWork_employ (by omega) stay
  obtain ⟨hstart, he⟩ := s.sameHost_employ n stay
  obtain ⟨hloop, habsent⟩ :=
    workLoop_unpaced ⟨hstart, he⟩ hw hi hb hf hpace (max 1 n).toNat
  have hwork : s.work n stay = { workLoop (turns n) (s.employ n stay) with task := none } :=
    if_pos (.inr habsent)
  have hlast : (s.emulator.cycle.2.error.isNone && decide (0 < k)) =
      s.emulator.cycle.2.error.isNone := by
    rw [decide_eq_true (by omega), Bool.and_true]
  rw [hlast] at hloop
  rw [hwork]
  exact ⟨⟨⟨hloop.host.listener, hloop.host.frames, hloop.host.ends⟩, hloop.emulator⟩, habsent⟩

/-! ### Steps -/

theorem stepsUpTo_of_quiet (hq : u.Quiet) (hr : u.emulator.machine.regs.InRange) (n : Nat) :
    ∃ failure, (u.stepsUpTo n).2 = .ok failure := by
  induction n generalizing u with
  | zero => exact ⟨none, rfl⟩
  | succ n ih =>
    have hb : u.emulator.Unbroken := Emulator.ending_ne_broken hr
    rw [stepsUpTo, step_of_quiet hq hb]
    cases herror : u.emulator.cycle.2.error with
    | some r => simp only [herror]; exact ⟨some r, rfl⟩
    | none =>
      simp only [herror]
      exact ih ((hq.told hb).of_sameHost u.told.sameHost_countEnd) (inRange_countEnd_told hr)

/-- The first cycle on whose frame the host fails is the last, and is done. -/
theorem stepsUpTo_of_fails {j n : Nat} (hj : j < n) (hi : u.Idle)
    (hr : u.emulator.machine.regs.InRange) (hfail : u.listener.fails (u.frames + (j + 1)))
    (hok : ∀ i < j, u.listener.fails (u.frames + (i + 1)) = false ∧
      (u.emulator.cycles i).cycle.2.error = none) :
    (u.stepsUpTo n).2 = .error .host ∧ (u.stepsUpTo n).1.frames = u.frames + (j + 1) ∧
      ∃ running halted, (u.stepsUpTo n).1.emulator =
        (u.emulator.cycles (j + 1)).withFlags running halted := by
  obtain ⟨n, rfl⟩ := Nat.exists_eq_succ_of_ne_zero (Nat.ne_of_gt (Nat.zero_lt_of_lt hj))
  have hb : u.emulator.Unbroken := Emulator.ending_ne_broken hr
  induction j generalizing u n with
  | zero =>
    rw [stepsUpTo, step_of_failsNext hb hfail]
    refine ⟨rfl, u.frames_shown, u.emulator.cycle.1.running, u.emulator.cycle.1.halted, ?_⟩
    show u.shown.emulator = _
    rw [emulator_shown]
    rfl
  | succ j ih =>
    obtain ⟨hsteady, herror⟩ : u.listener.fails (u.frames + 1) = false ∧
        u.emulator.cycle.2.error = none := hok 0 (Nat.succ_pos j)
    have hf : ¬ u.FailsNext := Bool.eq_false_iff.1 hsteady
    have hok' (i : Nat) (hij : i < j) :
        u.told.countEnd.listener.fails (u.told.countEnd.frames + (i + 1)) = false ∧
          (u.told.countEnd.emulator.cycles i).cycle.2.error = none := by
      obtain ⟨running, halted, hcycles⟩ := u.cycles_countEnd_told i
      rw [fails_countEnd_told hb, hcycles, Emulator.cycle_withFlags]
      exact hok (i + 1) (Nat.succ_lt_succ hij)
    obtain ⟨n, rfl⟩ := Nat.exists_eq_succ_of_ne_zero (Nat.ne_of_gt (Nat.zero_lt_of_lt
      (Nat.lt_of_succ_lt_succ hj)))
    obtain ⟨hresult, hcount, running, halted, hend⟩ := ih
      ((hi.told hb).of_sameHost u.told.sameHost_countEnd) (inRange_countEnd_told hr)
      (by rw [fails_countEnd_told hb]; exact hfail) hok' n (Nat.lt_of_succ_lt_succ hj)
      (Emulator.ending_ne_broken (inRange_countEnd_told hr))
    rw [stepsUpTo, step_of_idle hi hb hf]
    simp only [herror]
    refine ⟨hresult, ?_, ?_⟩
    · rw [hcount, u.told.sameHost_countEnd.frames, frames_told]
      omega
    · obtain ⟨running', halted', hcycles⟩ := u.cycles_countEnd_told (j + 1)
      rw [hend, hcycles]
      exact ⟨running, halted, rfl⟩

/-- A worker that is to go on until `n` cycles have ended does what the steps do up to the first
that fails, `n` at most: the host is told the same, the machine, the count and the last error end up
the same. In the end the emulator is halted if a cycle has failed and paused otherwise, whether it
had halted before or not. If the host fails on the frame of one of these cycles, the worker has run
the cycles up to that one, and the emulator is halted.

The frequency must not be too high for the pause between cycles to be worked out, unless there is no
more than one. Otherwise the worker is gone after its first cycle, and the emulator goes on running
if that has not failed. -/
theorem work_agrees_steps (o : Options) (l : Listener) (threshold : Option Level)
    (source : Twister) (as : List Act) {n : Int} (hn : 1 ≤ n) (stay : Bool) :
    let s := ((Session.new o l threshold).withSource source).acts as
    let u := s.stepsUpTo n.toNat
    let t := s.work n stay
    (s.emulator.clockHz < paceLimit ∨ n = 1 ∨ s.FailsNext →
      (s.Quiet → ∃ failure, u.2 = .ok failure ∧ u.1.SameHost t ∧
        t.emulator = u.1.emulator.withFlags false failure.isSome ∧
        t.emulator.status = if failure.isSome then .halted else .paused) ∧
      ∀ j < n.toNat, s.Idle → s.listener.fails (s.frames + (j + 1)) →
        (∀ i < j, s.listener.fails (s.frames + (i + 1)) = false ∧
          (s.emulator.cycles i).cycle.2.error = none) →
        t.emulator = (s.emulator.cycles (j + 1)).withFlags false true ∧
          t.frames = s.frames + (j + 1)) ∧
      (paceLimit ≤ s.emulator.clockHz → 1 < n → s.Idle → ¬ s.FailsNext →
        let c := s.emulator.cycle
        s.step.1.SameHost t ∧ t.worker = .absent ∧
          t.emulator = c.1.withFlags c.2.error.isNone c.2.error.isSome) := by
  intro s u t
  have hr : s.emulator.machine.regs.InRange :=
    ((reaches_acts _ as).wellFormed (Emulator.wellFormed_initial rfl)).regs.toInRange
  refine ⟨fun hpace => ⟨fun hq => ?_, fun j hj hi hfail hok => ?_⟩, fun hpace hn' hi hf => ?_⟩
  · obtain ⟨failure, hresult⟩ := stepsUpTo_of_quiet hq hr n.toNat
    obtain ⟨hhost, he⟩ := work_matches hn stay hq.idle hr hpace
    have he' : t.emulator = u.1.emulator.withFlags false failure.isSome := by
      rw [hresult] at he
      cases failure <;> exact he
    refine ⟨failure, hresult, hhost, he', ?_⟩
    rw [he']
    rfl
  · obtain ⟨hhost, he⟩ := work_matches hn stay hi hr hpace
    obtain ⟨hresult, hframes, running, halted, hcycles⟩ := stepsUpTo_of_fails hj hi hr hfail hok
    rw [hresult, hcycles] at he
    exact ⟨he, hhost.frames.trans hframes⟩
  · intro c
    have hb : s.emulator.Unbroken := Emulator.ending_ne_broken hr
    obtain ⟨⟨hhost, he⟩, habsent⟩ := work_unpaced hn' stay hi hb hf hpace
    rw [step_of_idle hi hb hf]
    refine ⟨hhost, habsent, he.trans ?_⟩
    rw [emulator_countEnd_told]
    rfl

/-- The second cycle fails, after which the worker is to run again. The host fails on the frame of
the second cycle of another session. -/
theorem work_agrees_steps_return :
    let rom := [0x60, 0x07, 0x00, 0xEE]
    let s := ((Session.new {} (.acting none []) none).withSource (.seeded 1)).acts
      [.control (.loadRom rom), .work 5 false]
    let s' := ((Session.new {} (.acting (some 2) []) none).withSource (.seeded 1)).acts
      [.control (.loadRom rom)]
    ((1 : Int) ≤ 3 ∧ s.emulator.clockHz < paceLimit ∧ s.Quiet ∧ s'.Idle) ∧
      (s.emulator.status = .halted ∧ (s.work 3 true).emulator.status = .halted ∧
        (s.stepsUpTo 3).1.SameHost (s.work 3 true)) ∧
      (s'.work 3 true).emulator = (s'.emulator.cycles 2).withFlags false true := by
  intro rom s s'
  have hn : (1 : Int) ≤ 3 := by decide
  have hq : s.Quiet := quiet_of_passive (passive_acts ⟨fun _ => rfl, rfl⟩ _)
  have hi : s'.Idle := nofun
  obtain ⟨hhalted, hpace, hhalts⟩ :
      s.emulator.status = .halted ∧ s.emulator.clockHz < paceLimit ∧
        halts (s.stepsUpTo 3).2 := by decide +kernel
  obtain ⟨hpace', hok⟩ :
      s'.emulator.clockHz < paceLimit ∧
        ∀ i < 1, s'.listener.fails (s'.frames + (i + 1)) = false ∧
          (s'.emulator.cycles i).cycle.2.error = none := by decide +kernel
  obtain ⟨hagrees, -⟩ := work_agrees_steps {} (.acting none []) none (.seeded 1)
    [.control (.loadRom rom), .work 5 false] hn true
  obtain ⟨hagrees', -⟩ := work_agrees_steps {} (.acting (some 2) []) none (.seeded 1)
    [.control (.loadRom rom)] hn true
  obtain ⟨failure, hresult, hhost, -, hstatus⟩ := (hagrees (.inl hpace)).1 hq
  have hresult : (s.stepsUpTo 3).2 = .ok failure := hresult
  have hfailure : failure.isSome := by rw [hresult] at hhalts; exact hhalts
  rw [if_pos hfailure] at hstatus
  obtain ⟨hend, -⟩ := (hagrees' (.inl hpace')).2 1 (by decide) hi rfl hok
  exact ⟨⟨hn, hpace, hq, hi⟩, ⟨hhalted, hstatus, hhost⟩, hend⟩

/-- At a frequency that is too high a worker runs one cycle of two and leaves the emulator running,
where two steps leave it paused. -/
theorem work_of_high_frequency :
    let s := (Session.new {} (.acting none []) none).acts
      [.control (.setClock (Int.ofNat (Nat.pow 2 1024))), .control (.loadRom [0x12, 0x00])]
    let u := s.stepsUpTo 2
    let t := s.work 2 true
    (s.Quiet ∧ halts u.2 = false) ∧
      (u.1.emulator.steps = 2 ∧ u.1.emulator.status = .paused ∧ u.1.heard.length = 6) ∧
      t.emulator.steps = 1 ∧ t.emulator.status = .running ∧ t.heard.length = 3 := by
  intro s u t
  have hq : s.Quiet := quiet_of_passive (passive_acts ⟨fun _ => rfl, rfl⟩ _)
  obtain ⟨hhalts, hsteps, hwork⟩ : halts u.2 = false ∧
      (u.1.emulator.steps = 2 ∧ u.1.emulator.status = .paused ∧ u.1.heard.length = 6) ∧
        t.emulator.steps = 1 ∧ t.emulator.status = .running ∧ t.heard.length = 3 := by
    decide +kernel
  exact ⟨⟨hq, hhalts⟩, hsteps, hwork⟩

end Session

end ChipEight
