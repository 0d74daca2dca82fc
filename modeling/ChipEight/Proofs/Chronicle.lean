import ChipEight.Proofs.Notices
import Mathlib.Data.List.DropRight

/-!
# What the flags and counters tell

Whether an emulator has halted, how many steps it has counted, its last error and its frequency
follow from what has happened to it (`Emulator.Chronicled`). Each move keeps up with the chronicle
(`Emulator.Chronicled.move`), and so does all that is done to a session, whatever its host does
meanwhile (`Session.chronicled_acts`). That the worker gives up is a thing that happens as well: it
does so exactly if the host fails.
-/

namespace ChipEight

/-- What a move comes to, as far as flags and counters keep it. -/
inductive Happening where
  | poweredOn
  | started
  | succeeded
  | failed (r : Report)
  | gaveUp
  | clockSet (hz : Int)
  deriving DecidableEq

namespace Happening

/-- Whether the emulator has halted from then on, where that changes. -/
def halts? : Happening → Option Bool
  | poweredOn => some false
  | started => some false
  | failed _ => some true
  | gaveUp => some true
  | _ => none

def report? : Happening → Option Report
  | failed r => some r
  | _ => none

/-- A frequency that is not positive does not count. -/
def clock? : Happening → Option Int
  | clockSet hz => if 0 < hz then some hz else none
  | _ => none

variable {α : Type} {tells : Happening → Option α} {hs : List Happening} {h : Happening}

/-- The latest that is told by what has happened. -/
def latest (tells : Happening → Option α) (hs : List Happening) : Option α :=
  (hs.filterMap tells).getLast?

/-- What has happened since the machine was last switched on. -/
def sincePowerOn (hs : List Happening) : List Happening := hs.rtakeWhile (· ≠ poweredOn)

theorem latest_concat : latest tells (hs ++ [h]) = (tells h).or (latest tells hs) := by
  cases ht : tells h <;> simp [latest, List.filterMap_append, ht]

theorem sincePowerOn_concat_poweredOn : sincePowerOn (hs ++ [poweredOn]) = [] := by
  simp [sincePowerOn]

theorem sincePowerOn_concat (hne : h ≠ poweredOn) :
    sincePowerOn (hs ++ [h]) = sincePowerOn hs ++ [h] := by
  simp [sincePowerOn, hne]

end Happening

namespace Emulator

open Happening (halts? report? clock? latest sincePowerOn)

variable {o : Options} {hs : List Happening} {e e' : Emulator}

def happening? (e : Emulator) : Move → Option Happening
  | .control .powerOn => some .poweredOn
  | .control .start => some .started
  | .control (.setClock hz) => some (.clockSet hz)
  | .control .step =>
    match e.cycle.2.ending with
    | .done => some .succeeded
    | .failed r => some (.failed r)
    | .broken _ => none
  | .giveUp => some .gaveUp
  | _ => none

/-- What happens to an emulator by moves, in order. -/
def chronicle : Emulator → List Move → List Happening
  | _, [] => []
  | e, m :: ms => (e.happening? m).toList ++ (e.move m).chronicle ms

/-- The flags and counters of an emulator that was set up by some options tell what has happened. -/
structure Chronicled (o : Options) (hs : List Happening) (e : Emulator) : Prop where
  exclusive : ¬ (e.running ∧ e.halted)
  halted : e.status = .halted ↔ latest halts? hs = some true
  steps : e.steps = (sincePowerOn hs).count .succeeded
  lastError : e.lastError = latest report? (sincePowerOn hs)
  clock_pos : 1 ≤ e.clockHz
  clock : e.clockHz = (latest clock? hs).getD (if 0 < o.clockHz then o.clockHz else 500)

theorem status_eq_halted_iff : e.status = .halted ↔ e.halted := by
  unfold status
  rcases e.halted with _ | _
  · rcases e.running with _ | _ <;> simp
  · simp

namespace Chronicled

theorem new (o : Options) : (Emulator.new o).Chronicled o [] where
  exclusive := by simp [Emulator.new]
  halted := by simp [status_eq_halted_iff, Emulator.new, latest]
  steps := rfl
  lastError := rfl
  clock_pos := by
    simp only [Emulator.new]
    split <;> omega
  clock := rfl

/-- What the flags and counters do not keep may happen, and the emulator may be paused. -/
theorem of_eq (h : e.Chronicled o hs) (hrun : e'.running → e.running)
    (hhalted : e'.halted = e.halted) (hsteps : e'.steps = e.steps)
    (herror : e'.lastError = e.lastError) (hclock : e'.clockHz = e.clockHz) :
    e'.Chronicled o hs where
  exclusive := fun ⟨hr, hh⟩ => h.exclusive ⟨hrun hr, hhalted ▸ hh⟩
  halted := by rw [← h.halted, status_eq_halted_iff, status_eq_halted_iff, hhalted]
  steps := hsteps.trans h.steps
  lastError := herror.trans h.lastError
  clock_pos := hclock ▸ h.clock_pos
  clock := hclock.trans h.clock

theorem powerOn (h : e.Chronicled o hs) : e.powerOn.Chronicled o (hs ++ [.poweredOn]) where
  exclusive := by simp [Emulator.powerOn]
  halted := by simp [status_eq_halted_iff, Emulator.powerOn, Happening.latest_concat, halts?]
  steps := by rw [Happening.sincePowerOn_concat_poweredOn]; rfl
  lastError := by rw [Happening.sincePowerOn_concat_poweredOn]; rfl
  clock_pos := h.clock_pos
  clock := by
    rw [Happening.latest_concat]
    exact h.clock

theorem setClock (h : e.Chronicled o hs) (hz : Int) :
    (e.setClock hz).Chronicled o (hs ++ [.clockSet hz]) := by
  have hsince : sincePowerOn (hs ++ [.clockSet hz]) = sincePowerOn hs ++ [.clockSet hz] :=
    Happening.sincePowerOn_concat nofun
  unfold Emulator.setClock
  refine ⟨?_, ?_, ?_, ?_, ?_, ?_⟩
  · split <;> exact h.exclusive
  · rw [Happening.latest_concat]
    split <;> exact h.halted
  · rw [hsince, List.count_append]
    split <;> exact h.steps
  · rw [hsince, Happening.latest_concat]
    split <;> exact h.lastError
  · split
    · exact h.clock_pos
    · exact Int.not_le.1 ‹_›
  · rw [Happening.latest_concat, clock?]
    split
    · rw [if_neg (by omega)]
      exact h.clock
    · rw [if_pos (by omega)]
      rfl

/-- A halt, by a failed cycle or because the worker gave up, or a start. -/
theorem flagged (h : e.Chronicled o hs) {x : Happening} {halted : Bool}
    (hx : halts? x = some halted) (hne : x ≠ .poweredOn) (hhalted : e'.halted = halted)
    (hrun : e'.running → halted = false) (hsteps : e'.steps = e.steps)
    (herror : e'.lastError = (report? x).or e.lastError) (hclock : e'.clockHz = e.clockHz) :
    e'.Chronicled o (hs ++ [x]) where
  exclusive := by
    rintro ⟨hr, hh⟩
    rw [hhalted, hrun hr] at hh
    cases hh
  halted := by rw [status_eq_halted_iff, hhalted, Happening.latest_concat, hx]; simp
  steps := by
    have hcount : List.count Happening.succeeded [x] = 0 := by cases x <;> cases hx <;> rfl
    rw [Happening.sincePowerOn_concat hne, List.count_append, hcount, hsteps, h.steps]
    rfl
  lastError := by
    rw [Happening.sincePowerOn_concat hne, Happening.latest_concat, herror, h.lastError]
  clock_pos := hclock ▸ h.clock_pos
  clock := by
    have hnone : clock? x = none := by cases x <;> cases hx <;> rfl
    rw [Happening.latest_concat, hnone, hclock, h.clock]
    rfl

theorem succeeded (h : e.Chronicled o hs) (m : Machine) :
    Chronicled o (hs ++ [.succeeded]) { e with machine := m, steps := e.steps + 1 } := by
  have hsince : sincePowerOn (hs ++ [.succeeded]) = sincePowerOn hs ++ [.succeeded] :=
    Happening.sincePowerOn_concat nofun
  refine ⟨h.exclusive, ?_, ?_, ?_, h.clock_pos, ?_⟩
  · rw [Happening.latest_concat]
    exact h.halted
  · rw [hsince, List.count_append, ← h.steps]
    rfl
  · rw [hsince, Happening.latest_concat]
    exact h.lastError
  · rw [Happening.latest_concat]
    exact h.clock

theorem cycle (h : e.Chronicled o hs) :
    e.cycle.1.Chronicled o (hs ++ (e.happening? (.control .step)).toList) := by
  have he := e.cycle_fst
  unfold happening?
  cases hend : e.cycle.2.ending with
  | done =>
    rw [hend] at he
    rw [he]
    exact h.succeeded _
  | failed r =>
    rw [hend] at he
    rw [he]
    exact h.flagged (x := .failed r) rfl nofun rfl nofun rfl rfl rfl
  | broken p =>
    rw [hend] at he
    rw [he, Option.toList_none, List.append_nil]
    exact h.of_eq id rfl rfl rfl rfl

theorem move (h : e.Chronicled o hs) (m : Move) :
    (e.move m).Chronicled o (hs ++ (e.happening? m).toList) := by
  rcases m with c | _
  · cases c with
    | step => exact h.cycle
    | powerOn => exact h.powerOn
    | setClock hz => exact h.setClock hz
    | start => exact h.flagged (x := .started) rfl nofun rfl (fun _ => rfl) rfl rfl rfl
    | pause | stop =>
      rw [happening?, Option.toList_none, List.append_nil]
      · exact h.of_eq nofun rfl rfl rfl rfl
      all_goals nofun
    | _ =>
      rw [happening?, Option.toList_none, List.append_nil]
      · exact h.of_eq id rfl rfl rfl rfl
      all_goals nofun
  · exact h.flagged (x := .gaveUp) rfl nofun rfl nofun rfl rfl rfl

/-- By induction on the moves, each of which keeps up with the chronicle. -/
theorem moves (h : e.Chronicled o hs) (ms : List Move) :
    (e.moves ms).Chronicled o (hs ++ e.chronicle ms) := by
  induction ms generalizing e hs with
  | nil => rwa [chronicle, List.append_nil]
  | cons m ms ih =>
    rw [chronicle, ← List.append_assoc]
    exact ih (h.move m)

end Chronicled

end Emulator

namespace Session

variable {depth : Option Int} {s t u : Session}

/-! ### The worker giving up -/

theorem course_giveUp : Course fun _ ms _ _ => Move.giveUp ∉ ms where
  still _ _ := List.not_mem_nil
  obeyed c _ _ _ := by simp
  broken _ := by simp
  cut _ _ := by simp
  told _ _ := by simp
  trans h h' := by simp [h, h']

theorem step_ne_breakdown (hs : s.emulator.WellFormed depth) (p : Misplaced) :
    interruption? s.step.2 ≠ some (.breakdown p) := by
  intro hp
  obtain ⟨t, ht, hb⟩ := (course_reachesResult.step s).2 p hp
  exact Emulator.ending_ne_broken (ht.wellFormed hs).regs.toInRange p hb

/-- The worker gives up among some moves exactly if the host fails. -/
structure GivesUp (s : Session) (ms : List Move) (t : Session) : Prop where
  movesTo : s.MovesTo ms t
  giveUp_iff : .giveUp ∈ ms ↔ s.Fails ms t

namespace GivesUp

theorem of_eq (hhost : s.SameHost t) (he : t.emulator = s.emulator) : s.GivesUp [] t :=
  ⟨.of_eq hhost he, iff_of_false List.not_mem_nil (Fails.not_nil hhost.frames)⟩

theorem of_control {c : Control} (hc : c ≠ .step) (hraises : c.raises = false)
    (hhost : s.SameHost t) (he : t.emulator = s.emulator.obey c) : s.GivesUp [.control c] t := by
  refine ⟨.of_control hc hhost he, iff_of_false (by simp) ?_⟩
  rw [← Fails.control_iff c hhost.frames, raised?, hraises]
  simp

theorem trans {ms ns : List Move} (h : s.GivesUp ms t) (h' : t.GivesUp ns u) :
    s.GivesUp (ms ++ ns) u := by
  refine ⟨h.movesTo.trans h'.movesTo, ?_⟩
  rw [List.mem_append, h.giveUp_iff, h'.giveUp_iff, Fails.append_iff h.movesTo h'.movesTo]

end GivesUp

theorem movesTo_workLoop (n : Nat) (s : Session) : s.MovesTo (s.workLoopMoves n) (workLoop n s) :=
  Course.workLoop course_movesTo (.of_move (by simp)) n s

/-- By induction on the number of turns. The worker goes on with cycles only if the host has not
failed so far. -/
theorem givesUp_workLoop (hs : s.emulator.WellFormed depth) (n : Nat) :
    s.GivesUp (s.workLoopMoves n) (workLoop n s) := by
  induction n generalizing s with
  | zero => exact .of_eq ⟨rfl, rfl, rfl⟩ rfl
  | succ n ih =>
    obtain ⟨hmovesTo, hfails⟩ := course_fails.step s
    have hnot := course_giveUp.step s
    have hbreak := step_ne_breakdown hs
    have hwf : s.step.1.emulator.WellFormed depth :=
      Reaches.wellFormed ⟨_, course_moves.step s⟩ hs
    unfold workLoopMoves workLoop
    split
    · exact .of_eq ⟨rfl, rfl, rfl⟩ rfl
    · split
      · exact .of_eq ⟨rfl, rfl, rfl⟩ rfl
      · generalize s.step = r at hmovesTo hfails hbreak hwf ⊢
        rcases r with ⟨t, x | outcome⟩
        · rcases x with _ | p
          · have hgaveUp : t.MovesTo [.giveUp] t.giveUp :=
              .of_move (by simp) ⟨rfl, rfl, rfl⟩ rfl
            have hrest := hgaveUp.trans (movesTo_workLoop n t.giveUp)
            exact ⟨hmovesTo.trans hrest, iff_of_true (by simp)
              ((Fails.append_iff hmovesTo hrest).2 (.inl (hfails.1 rfl)))⟩
          · exact absurd rfl (hbreak p)
        · have hstep : s.GivesUp s.ownStepMoves t :=
            ⟨hmovesTo, iff_of_false hnot (mt hfails.2 (by simp [interruption?]))⟩
          simp only
          split
          · exact hstep.trans (.of_eq ⟨rfl, rfl, rfl⟩ rfl)
          · exact hstep.trans (ih hwf)

theorem givesUp_work (hs : s.emulator.WellFormed depth) (n : Int) (stay : Bool) :
    s.GivesUp (s.actMoves (.work n stay)) (s.work n stay) := by
  obtain ⟨hstart, he⟩ := s.sameHost_employ n stay
  obtain ⟨hhost, last, hmoves, hlast⟩ := s.work_cases n stay
  have hwf : (s.employ n stay).emulator.WellFormed depth := hs.of_regs_eq (by rw [he]; rfl)
  have hstarted := GivesUp.of_control (c := .start) nofun rfl hstart he
  rw [hmoves]
  refine hstarted.trans ((givesUp_workLoop hwf (turns n)).trans ?_)
  rcases hlast with ⟨rfl, hend⟩ | ⟨rfl, hend⟩
  · exact .of_eq hhost hend
  · exact .of_control (c := .stop) nofun rfl hhost hend

/-- The flags and counters of an emulator tell what has happened to it, at any moment and whatever
has been done to its session. It never both runs and has halted. It has halted if the latest
thing of that sort was a failed cycle or the worker giving up, and not if it was a start or
switching the machine on. The steps are the cycles that have succeeded since the machine was last
switched on, and the last error is the report of the latest that has failed. The frequency is the
latest positive one. Nothing but a worker gives up, and it does so if the host fails meanwhile. -/
theorem chronicled_acts (o : Options) (l : Listener) (threshold : Option Level)
    (source : Twister) :
    let s := (Session.new o l threshold).withSource source
    (∀ ms, (s.emulator.moves ms).Chronicled o (s.emulator.chronicle ms)) ∧
      ∀ as, let t := s.acts as
        (t.emulator = s.emulator.moves (s.actsMoves as) ∧
            t.emulator.Chronicled o (s.emulator.chronicle (s.actsMoves as))) ∧
          (∀ c, .giveUp ∉ t.actMoves (.control c)) ∧
          ∀ n stay, .giveUp ∈ t.actMoves (.work n stay) ↔
            t.Fails (t.actMoves (.work n stay)) (t.work n stay) := by
  intro s
  have hnew : s.emulator.Chronicled o [] := (Emulator.Chronicled.new o).of_eq id rfl rfl rfl rfl
  have hmoves (ms : List Move) := hnew.moves ms
  refine ⟨hmoves, fun as => ?_⟩
  intro t
  have ht : t.emulator = s.emulator.moves (s.actsMoves as) := emulator_acts s as
  have hwf : t.emulator.WellFormed o.stackDepth :=
    (reaches_acts s as).wellFormed (Emulator.wellFormed_initial rfl)
  exact ⟨⟨ht, ht ▸ hmoves _⟩, course_giveUp.perform t,
    fun n stay => (givesUp_work hwf n stay).giveUp_iff⟩

/-- The host starts the emulator again when told of a failed cycle, and sets a frequency. -/
example :
    let s := Session.new {} (.acting none [⟨1, [.start, .setClock 60, .setClock 0]⟩]) none
    let e := (s.acts [.control (.loadRom [0x00, 0x01]), .control .step]).emulator
    e.status = .running ∧ e.lastError.isSome ∧ e.steps = 0 ∧ e.clockHz = 60 := by
  decide +kernel

end Session

end ChipEight
