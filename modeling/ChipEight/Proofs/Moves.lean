import ChipEight.Proofs.Cycle
import ChipEight.Proofs.Turns

/-!
# What can happen to an emulator

A host may use the controls while it is told of a cycle, so one operation on a session can set off
any number of cycles and controls. Seen from the emulator what happens is a sequence of `Move`s,
each a control or the worker giving up; `Session.actsMoves` and what it is made of say which, in the
order in which they happen. `Session.Course` says of a relation between a session, its moves and
what has become of it that it keeps up with each of them and can be put together; it then holds
across every operation (`Session.Course.perform`, `Session.Course.acts`).

`Session.ReachesResult` says that something done to a session comes down to moves of its emulator,
and that a cycle was broken off without a report only if that happened to the emulator on the way.
Every operation is of that kind (`Session.reachesResult_perform`), so what all moves keep is kept by
every sequence of operations.
-/

namespace ChipEight

/-- What a control does to an emulator on its own; a step is one cycle. -/
def Emulator.obey (e : Emulator) : Control → Emulator
  | .pressKey code => e.withKeys (·.press code)
  | .releaseKey => e.withKeys .release
  | .setKey code => e.withKeys (·.setCode code)
  | .setPressed pressed => e.withKeys (·.setPressed pressed)
  | .start => e.start
  | .pause => e.pause
  | .setClock hz => e.setClock hz
  | .stop => e.pause
  | .powerOn => e.powerOn
  | .loadRom rom => e.loadRom rom
  | .loadFile _ file => e.loadFile file
  | .step => e.cycle.1

/-- The least that happens to an emulator. -/
inductive Move where
  | control (c : Control)
  /-- The worker gives up because of an interruption. -/
  | giveUp

/-- Whether a move is a control that fails because there is no such file. -/
def Move.raises : Move → Bool
  | .control c => c.raises
  | .giveUp => false

namespace Emulator

def move (e : Emulator) : Move → Emulator
  | .control c => e.obey c
  | .giveUp => { e with running := false, halted := true }

def moves (e : Emulator) (ms : List Move) : Emulator := ms.foldl move e

theorem moves_append (e : Emulator) (ms ns : List Move) :
    e.moves (ms ++ ns) = (e.moves ms).moves ns :=
  List.foldl_append

/-- What every move keeps is kept by all of them. -/
theorem moves_induction {P : Emulator → Prop} (h : ∀ e m, P e → P (e.move m)) {e : Emulator}
    (he : P e) (ms : List Move) : P (e.moves ms) := by
  induction ms generalizing e with
  | nil => exact he
  | cons m ms ih => exact ih (h e m he)

end Emulator

/-- What can be done to a session from outside. -/
inductive Act where
  | control (c : Control)
  /-- A worker runs until `n` cycles have ended, and then stays if told so. -/
  | work (n : Int) (stay : Bool)

namespace Session

/-- Does something to a session. One who is told of an interruption may go on all the same. -/
def act (s : Session) : Act → Session
  | .control c => (s.perform c).1
  | .work n stay => s.work n stay

def acts (s : Session) (as : List Act) : Session := as.foldl act s

/-- The same session, but its machine draws random bytes from a given source. -/
def withSource (s : Session) (source : Twister) : Session :=
  s.onEmulator (·.withMachine fun m => { m with source })

/-! ### The course of an operation -/

/-- The interruption that something done to a session has ended with, if it has. -/
def interruption? {α : Type} : Except Interruption α → Option Interruption
  | .ok _ => none
  | .error x => some x

/-- How a control other than a step ends what goes on when the host uses it meanwhile. -/
def raised? (c : Control) : Option Interruption := if c.raises then some .host else none

/-- Any control but a step acts on the emulator alone. -/
theorem control_of_ne_step (s : Session)
    (step : Session → Session × Except Interruption Outcome) {c : Control} (hc : c ≠ .step) :
    ∃ t, s.control step c = (t, .ok ()) ∧ s.SameHost t ∧ t.emulator = s.emulator.obey c := by
  cases c with
  | step => exact absurd rfl hc
  | stop =>
    obtain ⟨hlistener, hframes, hends⟩ := s.sameHost_stop
    exact ⟨_, rfl, ⟨hlistener, hframes, hends⟩, s.emulator_stop⟩
  | _ => exact ⟨_, rfl, ⟨rfl, rfl, rfl⟩, rfl⟩

/-! #### The moves of an operation -/

/-- The moves of a step after which the host does what has the moves `inner`. A step that is cut off
is its cycle alone; after one that is not the host may pause the emulator. -/
def stepMoves (atEnd : Session → Session × Except Interruption Unit) (inner : Session → List Move)
    (s : Session) : List Move :=
  .control .step ::
    match s.emulator.cycle.2.ending with
    | .broken _ => []
    | _ =>
      if s.FailsNext then []
      else
        inner s.told ++
          match atEnd s.told with
          | (t, .ok ()) => if t.stops then [.control .pause] else []
          | (_, .error _) => []

def controlMoves (inner : Session → List Move) (s : Session) : Control → List Move
  | .step => inner s
  | c => [.control c]

def controlsMoves (step : Session → Session × Except Interruption Outcome)
    (inner : Session → List Move) : Session → List Control → List Move
  | _, [] => []
  | s, c :: cs =>
    s.controlMoves inner c ++
      match s.control step c with
      | (t, .ok ()) => if c.raises then [] else controlsMoves step inner t cs
      | (_, .error _) => []

def followMoves : List Cue → Session → List Move
  | [], _ => []
  | c :: cs, s =>
    if c.atEnd = s.ends then
      s.controlsMoves (stepThen (follow cs)) (stepMoves (follow cs) (followMoves cs)) c.controls
    else followMoves cs s

def ownStepMoves (s : Session) : List Move :=
  s.stepMoves (follow s.listener.script) (followMoves s.listener.script)

def performMoves (s : Session) (c : Control) : List Move := s.controlMoves ownStepMoves c

def workLoopMoves : Nat → Session → List Move
  | 0, _ => []
  | n + 1, s =>
    if s.worker.stopping then []
    else if !s.emulator.running then []
    else
      s.ownStepMoves ++
        match s.step with
        | (t, .error _) => .giveUp :: workLoopMoves n t.giveUp
        | (t, .ok _) => if paceLimit ≤ t.emulator.clockHz then [] else workLoopMoves n t

def actMoves (s : Session) : Act → List Move
  | .control c => s.performMoves c
  | .work n stay =>
    .control .start :: ((s.employ n stay).workLoopMoves (turns n) ++
      if stay ∨ (workLoop (turns n) (s.employ n stay)).worker = .absent then []
      else [.control .stop])

/-- All that the emulator goes through while things are done to its session, in order. -/
def actsMoves : Session → List Act → List Move
  | _, [] => []
  | s, a :: as => s.actMoves a ++ (s.act a).actsMoves as

theorem stepMoves_of_unbroken {s : Session} (hb : s.emulator.Unbroken)
    (atEnd : Session → Session × Except Interruption Unit) (inner : Session → List Move) :
    s.stepMoves atEnd inner =
      .control .step ::
        if s.FailsNext then []
        else
          inner s.told ++
            match atEnd s.told with
            | (t, .ok ()) => if t.stops then [.control .pause] else []
            | (_, .error _) => [] := by
  unfold stepMoves
  split
  · next p hp => exact absurd hp (hb p)
  · rfl

theorem controlMoves_of_ne_step {s : Session} {c : Control} (hc : c ≠ .step)
    (inner : Session → List Move) : s.controlMoves inner c = [.control c] := by
  cases c with
  | step => exact absurd rfl hc
  | _ => rfl

theorem sameHost_employ (s : Session) (n : Int) (stay : Bool) :
    s.SameHost (s.employ n stay) ∧ (s.employ n stay).emulator = s.emulator.start := by
  simp only [employ]
  split <;> exact ⟨⟨rfl, rfl, rfl⟩, rfl⟩

/-- While the emulator does not run, a worker only stops or waits. -/
theorem workLoop_of_paused {s : Session} (h : s.emulator.running = false) (n : Nat) :
    s.SameHost (workLoop n s) ∧ (workLoop n s).emulator = s.emulator := by
  cases n with
  | zero => exact ⟨⟨rfl, rfl, rfl⟩, rfl⟩
  | succ n =>
    rw [workLoop, h]
    split <;> exact ⟨⟨rfl, rfl, rfl⟩, rfl⟩

/-- After its turns the worker is left alone or stopped. -/
theorem work_cases (s : Session) (n : Int) (stay : Bool) :
    let t := workLoop (turns n) (s.employ n stay)
    t.SameHost (s.work n stay) ∧ ∃ last,
      s.actMoves (.work n stay) =
          .control .start :: ((s.employ n stay).workLoopMoves (turns n) ++ last) ∧
        (last = [] ∧ (s.work n stay).emulator = t.emulator ∨
          last = [.control .stop] ∧ (s.work n stay).emulator = t.emulator.pause) := by
  intro t
  by_cases hleft : stay ∨ t.worker = .absent
  · have hwork : s.work n stay = { t with task := none } := if_pos hleft
    rw [hwork]
    refine ⟨⟨rfl, rfl, rfl⟩, [], ?_, .inl ⟨rfl, rfl⟩⟩
    rw [actMoves, if_pos hleft]
  · have hwork : s.work n stay = { t with task := none }.stop := if_neg hleft
    obtain ⟨hlistener, hframes, hends⟩ := sameHost_stop { t with task := none }
    rw [hwork]
    refine ⟨⟨hlistener, hframes, hends⟩, [.control .stop], ?_, .inr ⟨rfl, emulator_stop _⟩⟩
    rw [actMoves, if_neg hleft]

/-! #### The course of an operation -/

/-- A relation between a session, the moves that it has gone through, what has become of it, and the
interruption that this has ended with, which holds of every single thing that can happen and of one
thing after another. -/
structure Course (C : Session → List Move → Session → Option Interruption → Prop) : Prop where
  still : ∀ {s t}, s.SameHost t → t.emulator = s.emulator → C s [] t none
  obeyed : ∀ {s t} (c : Control), c ≠ .step → s.SameHost t → t.emulator = s.emulator.obey c →
    C s [.control c] t (raised? c)
  broken : ∀ {s p}, s.emulator.cycle.2.ending = .broken p →
    C s [.control .step] s.cycle.1 (some (.breakdown p))
  cut : ∀ {s}, s.emulator.Unbroken → s.FailsNext → C s [.control .step] s.shown (some .host)
  told : ∀ {s}, s.emulator.Unbroken → ¬ s.FailsNext → C s [.control .step] s.told none
  trans : ∀ {s t u ms ns x}, C s ms t none → C t ns u x → C s (ms ++ ns) u x

namespace Course

variable {C : Session → List Move → Session → Option Interruption → Prop} (hC : Course C)
include hC

theorem countEnd (s : Session) :
    C s (if s.stops then [.control .pause] else []) s.countEnd none := by
  have he := s.emulator_countEnd_eq
  split
  · next h => exact hC.obeyed .pause nofun s.sameHost_countEnd (he.trans (if_pos h))
  · next h => exact hC.still s.sameHost_countEnd (he.trans (if_neg h))

theorem stepThen {atEnd : Session → Session × Except Interruption Unit}
    {inner : Session → List Move}
    (hEnd : ∀ t : Session, C t (inner t) (atEnd t).1 (interruption? (atEnd t).2)) (s : Session) :
    C s (s.stepMoves atEnd inner) (s.stepThen atEnd).1 (interruption? (s.stepThen atEnd).2) := by
  have h := stepped_stepThen atEnd s
  generalize s.stepThen atEnd = r at h ⊢
  cases h with
  | broken hb =>
    rw [stepMoves, hb]
    exact hC.broken hb
  | cut hb hf =>
    rw [stepMoves_of_unbroken hb, if_pos hf]
    exact hC.cut hb hf
  | stopped hb hf ha =>
    have hatEnd := hEnd s.told
    rw [stepMoves_of_unbroken hb, if_neg hf, ha, List.append_nil]
    rw [ha] at hatEnd
    exact hC.trans (hC.told hb hf) hatEnd
  | done hb hf ha =>
    have hatEnd := hEnd s.told
    rw [stepMoves_of_unbroken hb, if_neg hf, ha]
    rw [ha] at hatEnd
    exact hC.trans (hC.told hb hf) (hC.trans hatEnd (hC.countEnd _))

section
variable {step : Session → Session × Except Interruption Outcome} {inner : Session → List Move}
  (hstep : ∀ t : Session, C t (inner t) (step t).1 (interruption? (step t).2))
include hstep

theorem control (s : Session) (c : Control) :
    C s (s.controlMoves inner c) (s.control step c).1
      ((interruption? (s.control step c).2).or (raised? c)) := by
  by_cases hc : c = .step
  · subst hc
    have h := hstep s
    simp only [Session.control, controlMoves]
    generalize step s = r at h ⊢
    obtain ⟨t, x | o⟩ := r <;> exact h
  · obtain ⟨t, ht, hhost, he⟩ := s.control_of_ne_step step hc
    rw [ht, controlMoves_of_ne_step hc]
    exact hC.obeyed c hc hhost he

theorem controls (s : Session) (cs : List Control) :
    C s (s.controlsMoves step inner cs) (s.controls step cs).1
      (interruption? (s.controls step cs).2) := by
  induction cs generalizing s with
  | nil => exact hC.still ⟨rfl, rfl, rfl⟩ rfl
  | cons c cs ih =>
    have h := hC.control hstep s c
    simp only [Session.controls, controlsMoves]
    generalize s.control step c = r at h ⊢
    obtain ⟨t, x | ⟨⟩⟩ := r
    · rw [List.append_nil]
      exact h
    · unfold raised? at h
      simp only
      split at h
      · next hc =>
        rw [if_pos hc, if_pos hc, List.append_nil]
        exact h
      · next hc =>
        rw [if_neg hc, if_neg hc]
        exact hC.trans h (ih t)

end

/-- By induction on the cues, since cycles run at an end have only later cues. -/
theorem follow (cues : List Cue) (s : Session) :
    C s (followMoves cues s) (follow cues s).1 (interruption? (follow cues s).2) := by
  induction cues generalizing s with
  | nil => exact hC.still ⟨rfl, rfl, rfl⟩ rfl
  | cons c cs ih =>
    unfold Session.follow followMoves
    split
    · exact hC.controls (hC.stepThen ih) s c.controls
    · exact ih s

theorem step (s : Session) : C s s.ownStepMoves s.step.1 (interruption? s.step.2) :=
  hC.stepThen (hC.follow _) s

end Course

section
variable {R : Session → List Move → Session → Prop} (hR : Course fun s ms t _ => R s ms t)
include hR

theorem Course.perform (s : Session) (c : Control) : R s (s.performMoves c) (s.perform c).1 :=
  hR.control hR.step s c

variable (hgiveUp : ∀ {s t : Session}, s.SameHost t → t.emulator = s.emulator.move .giveUp →
  R s [.giveUp] t)
include hgiveUp

theorem Course.workLoop (n : Nat) (s : Session) : R s (s.workLoopMoves n) (workLoop n s) := by
  induction n generalizing s with
  | zero => exact hR.still ⟨rfl, rfl, rfl⟩ rfl
  | succ n ih =>
    have hstep := hR.step s
    unfold Session.workLoop workLoopMoves
    split
    · exact hR.still ⟨rfl, rfl, rfl⟩ rfl
    · split
      · exact hR.still ⟨rfl, rfl, rfl⟩ rfl
      · generalize s.step = r at hstep ⊢
        obtain ⟨t, x | o⟩ := r
        · have hgave : R t [.giveUp] t.giveUp := hgiveUp ⟨rfl, rfl, rfl⟩ rfl
          exact hR.trans (x := none) hstep (hR.trans (x := none) hgave (ih t.giveUp))
        · refine hR.trans (x := none) hstep ?_
          simp only
          split
          · exact hR.still ⟨rfl, rfl, rfl⟩ rfl
          · exact ih t

/-- A worker first starts the emulator; then come its turns, and the host may stop it. -/
theorem Course.work (s : Session) (n : Int) (stay : Bool) :
    R s (s.actMoves (.work n stay)) (s.work n stay) := by
  obtain ⟨hstart, he⟩ := s.sameHost_employ n stay
  obtain ⟨hhost, last, hmoves, hlast⟩ := s.work_cases n stay
  rw [hmoves]
  refine hR.trans (x := none) (hR.obeyed .start nofun hstart he) ?_
  refine hR.trans (x := none) (Course.workLoop hR hgiveUp (turns n) (s.employ n stay)) ?_
  rcases hlast with ⟨rfl, hend⟩ | ⟨rfl, hend⟩
  · exact hR.still hhost hend
  · exact hR.obeyed .stop nofun hhost hend

theorem Course.act (s : Session) (a : Act) : R s (s.actMoves a) (s.act a) := by
  cases a with
  | control c => exact hR.perform s c
  | work n stay => exact Course.work hR hgiveUp s n stay

theorem Course.acts (s : Session) (as : List Act) : R s (s.actsMoves as) (s.acts as) := by
  induction as generalizing s with
  | nil => exact hR.still ⟨rfl, rfl, rfl⟩ rfl
  | cons a as ih => exact hR.trans (x := none) (Course.act hR hgiveUp s a) (ih _)

end

/-! ### Down to moves -/

/-- The emulator of a session has come there by moves. -/
def Reaches (s t : Session) : Prop := ∃ ms, t.emulator = s.emulator.moves ms

theorem Reaches.refl (s : Session) : s.Reaches s := ⟨[], rfl⟩

/-- What has come of a session by moves of its emulator, and if a cycle was broken off without a
report, then some moves led to an emulator whose next cycle does that. -/
structure ReachesResult {α : Type} (s : Session) (r : Session × Except Interruption α) : Prop where
  reaches : s.Reaches r.1
  broken : ∀ p, r.2 = .error (.breakdown p) →
    ∃ t : Session, s.Reaches t ∧ t.emulator.cycle.2.ending = .broken p

theorem course_moves : Course fun s ms t _ => t.emulator = s.emulator.moves ms where
  still _ he := he
  obeyed _ _ _ he := he
  broken _ := rfl
  cut _ _ := emulator_shown _
  told _ _ := emulator_told _
  trans h h' := by rw [h', h, Emulator.moves_append]

theorem course_reachesResult :
    Course fun s ms t x => t.emulator = s.emulator.moves ms ∧ ∀ p, x = some (.breakdown p) →
      ∃ u : Session, s.Reaches u ∧ u.emulator.cycle.2.ending = .broken p where
  still hhost he := ⟨course_moves.still hhost he, nofun⟩
  obeyed c hc hhost he := by
    refine ⟨course_moves.obeyed c hc hhost he, fun p hp => ?_⟩
    unfold raised? at hp
    split at hp <;> cases hp
  broken {s _} hb := ⟨course_moves.broken hb, fun _ hp => ⟨s, .refl s, by cases hp; exact hb⟩⟩
  cut hb hf := ⟨course_moves.cut hb hf, nofun⟩
  told hb hf := ⟨course_moves.told hb hf, nofun⟩
  trans {s t} _ ms _ _ h h' := by
    refine ⟨course_moves.trans (x := none) h.1 h'.1, fun p hp => ?_⟩
    obtain ⟨u, ⟨ns, hns⟩, hb⟩ := h'.2 p hp
    exact ⟨u, ⟨ms ++ ns, course_moves.trans (x := none) h.1 hns⟩, hb⟩

/-- Whatever control is used, it comes down to moves of the emulator. -/
theorem reachesResult_perform (s : Session) (c : Control) : s.ReachesResult (s.perform c) := by
  by_cases hc : c = .step
  · subst hc
    obtain ⟨hmoves, hbroken⟩ := course_reachesResult.step s
    rw [perform, control]
    generalize s.step = r at hmoves hbroken ⊢
    obtain ⟨t, x | o⟩ := r
    · exact ⟨⟨_, hmoves⟩, fun p hp => hbroken p (by cases hp; rfl)⟩
    · exact ⟨⟨_, hmoves⟩, nofun⟩
  · obtain ⟨t, ht, -, he⟩ := s.control_of_ne_step step hc
    rw [perform, ht]
    exact ⟨⟨[.control c], he⟩, nofun⟩

theorem emulator_acts (s : Session) (as : List Act) :
    (s.acts as).emulator = s.emulator.moves (s.actsMoves as) :=
  course_moves.acts (fun _ he => he) s as

theorem reaches_acts (s : Session) (as : List Act) : s.Reaches (s.acts as) :=
  ⟨_, s.emulator_acts as⟩

end Session

end ChipEight
