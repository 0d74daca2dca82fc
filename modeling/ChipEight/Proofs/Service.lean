import ChipEight.Proofs.Handling
import ChipEight.Proofs.PowerOn

/-!
# Stepping and running

The service runs a program in two ways: put in its place and stepped in the session, which has been
there all along, or run on a new machine. `Web.step_agrees_run` says that the answers agree,
whatever has been asked of the session before. Whatever that was, the session still has a host that
only listens and an emulator that is set up by default (`Web.Serving`), and that is all that loading
a program leaves of it.
-/

namespace ChipEight

/-- No random byte shows in the cycles of a run of at most `n`, up to the first that fails. -/
def Emulator.CertainRun : Nat → Emulator → Prop
  | 0, _ => True
  | n + 1, e => e.machine.draws = false ∧ (e.cycle.2.error = none → e.cycle.1.CertainRun n)

/-- An emulator that neither runs nor has halted halts if the cycle fails, and keeps the report. -/
theorem Emulator.flags_cycle {e : Emulator} (h : e.machine.regs.InRange) (hrun : e.running = false)
    (hhalted : e.halted = false) (herror : e.lastError = none) :
    e.cycle.1.running = false ∧ e.cycle.1.halted = e.cycle.2.error.isSome ∧
      e.cycle.1.lastError = e.cycle.2.error := by
  have hc := cycled_cycle h
  generalize e.cycle = c at hc ⊢
  cases hc with
  | done => exact ⟨hrun, hhalted, herror⟩
  | unfetched | undefined | fault => exact ⟨rfl, rfl, rfl⟩

namespace Web

inductive Event where
  | request (q : Request)
  /-- The worker runs a cycle meanwhile. -/
  | cycle

def meet (s : Session) : Event → Session
  | .request q => (handle s q).1
  | .cycle => s.step.1

def meetAll (s : Session) (es : List Event) : Session := es.foldl meet s

/-- The host of the session only listens, and its emulator is set up by default. -/
structure Serving (s : Session) : Prop where
  passive : s.listener.Passive
  wellFormed : s.emulator.WellFormed (some 16)
  sound : s.emulator.decrementSound = true

namespace Serving

variable {s t : Session}

theorem of_movesTo (hs : Serving s) {ms : List Move} (h : s.MovesTo ms t) : Serving t := by
  refine ⟨h.passive hs.passive, ?_, ?_⟩ <;> rw [h.emulator]
  · exact Emulator.wellFormed_moves hs.wellFormed ms
  · exact (Emulator.decrementSound_moves _ ms).trans hs.sound

theorem of_eq (hs : Serving s) (hhost : s.SameHost t) (he : t.emulator = s.emulator) : Serving t :=
  hs.of_movesTo (.of_eq hhost he)

theorem of_control (hs : Serving s) {c : Control} (hc : c ≠ .step) (hhost : s.SameHost t)
    (he : t.emulator = s.emulator.obey c) : Serving t :=
  hs.of_movesTo (.of_control hc hhost he)

theorem step (hs : Serving s) : Serving s.step.1 :=
  hs.of_movesTo (Session.course_movesTo.step s)

theorem forget (hs : Serving s) : Serving (forget s) :=
  ⟨⟨hs.passive.steady, hs.passive.idle⟩, hs.wellFormed, hs.sound⟩

theorem restart (hs : Serving s) : Serving (restart s) :=
  have hpause : Serving (s.onEmulator .pause) :=
    hs.of_control (c := .pause) nofun ⟨rfl, rfl, rfl⟩ rfl
  hpause.of_control (c := .powerOn) nofun ⟨rfl, rfl, rfl⟩ rfl

theorem runCycles (hs : Serving s) (n : Nat) : Serving (runCycles n s) := by
  induction n generalizing s with
  | zero => exact hs
  | succ n ih =>
    have hstep := hs.step
    unfold Web.runCycles
    generalize s.step = r at hstep ⊢
    obtain ⟨t, x | o⟩ := r
    · exact hstep
    · simp only
      split
      · exact hstep
      · exact ih hstep

theorem handled {q : Request} {r : Session × Response} (hs : Serving s) (h : Handled s q r) :
    Serving r.1 := by
  cases h with
  | rejected | state => exact hs
  | @rom rom =>
    have hload : Serving ((Web.restart s).loadRom rom) :=
      hs.restart.of_control (c := .loadRom rom) nofun ⟨rfl, rfl, rfl⟩ rfl
    exact hload.forget.of_eq ⟨rfl, rfl, rfl⟩ rfl
  | @step n => exact hs.runCycles n.toNat
  | start => exact hs.of_control (c := .start) nofun ⟨rfl, rfl, rfl⟩ rfl
  | pause => exact hs.of_control (c := .pause) nofun ⟨rfl, rfl, rfl⟩ rfl
  | reset => exact hs.restart.forget
  | @key code pressed =>
    have hcode : Serving (s.onKeys (·.setCode code)) :=
      hs.of_control (c := .setKey code) nofun ⟨rfl, rfl, rfl⟩ rfl
    exact hcode.of_control (c := .setPressed pressed) nofun ⟨rfl, rfl, rfl⟩ rfl
  | @clock hz => exact hs.of_control (c := .setClock hz) nofun ⟨rfl, rfl, rfl⟩ rfl
  | events => exact hs.forget
  | run => exact hs.of_eq ⟨rfl, rfl, rfl⟩ rfl

theorem handle (hs : Serving s) (q : Request) : Serving (handle s q).1 :=
  hs.handled (handled_handle s q)

theorem meetAll (threshold : Option Level) (source : Twister) (es : List Event) :
    Serving (meetAll ((newSession threshold).withSource source) es) := by
  have hnew : Serving ((newSession threshold).withSource source) :=
    ⟨⟨fun _ => rfl, rfl⟩, Emulator.wellFormed_initial rfl, rfl⟩
  generalize (newSession threshold).withSource source = s at hnew
  induction es generalizing s with
  | nil => exact hnew
  | cons e es ih =>
    refine ih _ ?_
    cases e with
    | request q => exact hnew.handle q
    | cycle => exact hnew.step

end Serving

/-! ### In step with a run -/

variable {s : Session} {e : Emulator}

/-- The session does not run, and is in step with an emulator that has failed with an error or has
not failed. -/
structure InStep (s : Session) (e : Emulator) (error : Option Report) : Prop where
  serving : Serving s
  alike : e.Alike s.emulator
  paused : s.emulator.running = false
  halted : s.emulator.halted = error.isSome
  lastError : s.emulator.lastError = error

namespace InStep

theorem step (h : InStep s e none) (hd : e.machine.draws = false) :
    s.step.2 = .ok e.cycle.2 ∧ InStep s.step.1 e.cycle.1 e.cycle.2.error := by
  have hr := h.serving.wellFormed.regs.toInRange
  have hr' : e.machine.regs.InRange := h.alike.machine.regs ▸ hr
  obtain ⟨halike, hout⟩ := h.alike.cycle hr' hd
  obtain ⟨hpaused, hhalted, herror⟩ := Emulator.flags_cycle hr h.paused h.halted h.lastError
  have hserving := h.serving.step
  have hstep := Session.step_of_quiet (Session.quiet_of_passive h.serving.passive)
    (Emulator.ending_ne_broken hr)
  have he : s.told.countEnd.emulator = s.emulator.cycle.1 := by
    rw [Session.emulator_countEnd, Session.emulator_told]
    rw [Session.emulator_told]
    exact hpaused
  rw [hstep] at hserving ⊢
  rw [hout] at hhalted herror
  exact ⟨congrArg Except.ok hout, hserving, he ▸ halike, he ▸ hpaused, he ▸ hhalted, he ▸ herror⟩

/-- Both go on up to the first cycle that fails. -/
theorem runCycles {n : Nat} (h : InStep s e none) (hc : e.CertainRun n) (traced : Bool)
    (j : Journal) (trace : Array Outcome) :
    InStep (runCycles n s) (Batch.loop traced n e j trace).1
      (Batch.loop traced n e j trace).2.2.2 := by
  induction n generalizing s e j trace with
  | zero => exact h
  | succ n ih =>
    obtain ⟨hresult, hin⟩ := h.step hc.1
    have hrest := hc.2
    unfold Web.runCycles Batch.loop
    -- The session looks for an error, the run at how the cycle ended; both stop at the same.
    generalize s.step = r at hresult hin ⊢
    obtain ⟨t, _⟩ := r
    obtain rfl := hresult
    have hr : e.machine.regs.InRange :=
      h.alike.machine.regs ▸ h.serving.wellFormed.regs.toInRange
    obtain ⟨hending, herror⟩ | ⟨r, hending, herror⟩ := Emulator.ending_cases hr
    · rw [herror] at hin
      simp only [hending, herror]
      exact ih hin (hrest herror) _ _
    · rw [herror] at hin
      simp only [hending, herror]
      exact hin

end InStep

/-! ### Answers -/

/-- The state of a session is what has come of a run. -/
structure Agrees (v : View) (r : RunResult) : Prop where
  regs : v.regs = r.regs
  frame : v.frame = r.frame
  steps : v.steps = r.steps
  error : v.error = r.error
  halted : v.status = .halted ↔ r.status = "error"
  paused : v.status = .paused ↔ r.status = "ok"

/-- The document of a state says the same as that of a run; an error that is null in the one is
missing in the other. -/
structure DocumentsAgree (state run : Json) : Prop where
  registers : state.member? "registers" = run.member? "final_state"
  frame : state.member? "frame" = run.member? "frame"
  steps : state.member? "steps_executed" = run.member? "steps_executed"
  error : state.member? "error" = some ((run.member? "error").getD .null)
  halted : state.member? "status" = some (.ofString "halted") ↔
    run.member? "status" = some (.ofString "error")
  paused : state.member? "status" = some (.ofString "paused") ↔
    run.member? "status" = some (.ofString "ok")

theorem ofString_inj {a b : String} : some (Json.ofString a) = some (Json.ofString b) ↔ a = b := by
  simp [Json.ofString]

theorem Agrees.documents {v : View} {r : RunResult} (h : Agrees v r) :
    DocumentsAgree v.document r.document := by
  have hname : ∀ s : Status,
      (s.name = "halted" ↔ s = .halted) ∧ (s.name = "paused" ↔ s = .paused) := by
    intro s
    cases s <;> decide
  have hstate : v.document.member? "status" = some (.ofString v.status.name) := rfl
  have hrun : r.document.member? "status" = some (.ofString r.status) := rfl
  refine ⟨congrArg (fun d : Registers => some d.document) h.regs,
    congrArg (fun f => some (Json.strs f)) h.frame, congrArg (fun n => some (Json.nat n)) h.steps,
    ?_, ?_, ?_⟩
  · have hstate : v.document.member? "error" = some (.orNull Report.document r.error) := by
      rw [← h.error]
      rfl
    rw [hstate, RunResult.document]
    cases r.error with
    | none => rfl
    | some e => rfl
  · rw [hstate, hrun, ofString_inj, ofString_inj, (hname v.status).1, h.halted]
  · rw [hstate, hrun, ofString_inj, ofString_inj, (hname v.status).2, h.paused]

theorem InStep.agrees {error : Option Report} (h : InStep s e error) (trace : List Outcome) :
    Agrees (.of s.emulator) ⟨e.steps, e.machine.regs, e.machine.screen.picture, trace, error⟩ := by
  refine ⟨h.alike.machine.regs, congrArg Screen.picture h.alike.machine.screen, h.alike.steps,
    h.lastError, ?_, ?_⟩ <;>
  simp only [View.of, Emulator.status, h.halted, h.paused, RunResult.status] <;>
  cases error <;> simp

/-! ### Requests -/

variable {q : Request} {rom : List UInt8} {n : Int}

theorem handle_rom (h : q.ForRom rom) (s : Session) :
    handle s q = showState ((forget ((restart s).loadRom rom)).note [.romReceived rom.length]) := by
  obtain ⟨haction, t, ht, hbytes⟩ := h
  simp only [handle, haction, act, withForm, ht, withRom, hbytes]

theorem handle_steps (h : q.ForSteps n) (s : Session) :
    handle s q = showState (runCycles n.toNat s) := by
  obtain ⟨haction, hform⟩ := h
  simp only [handle, haction, act, withForm, hform]

theorem handle_run {o : Options} (h : q.ForRun rom n o) (s : Session) :
    (handle s q).2 = .result (Batch.run rom (some n) o s.journal).1 := by
  obtain ⟨haction, t, ht, hbytes⟩ := h
  simp only [handle, haction, act, withForm, ht, withRom, hbytes]

/-- A program in its place is in step with one on a new machine, whatever the session was before. -/
theorem Serving.inStep_rom (hs : Serving s) (h : q.ForRom rom) :
    InStep (Web.handle s q).1 ((Emulator.new {}).loadRom rom) none := by
  have hserving := hs.handle q
  rw [handle_rom h] at hserving ⊢
  have hnew := s.emulator.pause.powerOn_eq_new (o := {}) hs.wellFormed.depth_eq hs.sound
  have halike : (Emulator.new {}).Alike s.emulator.pause.powerOn := by
    rw [hnew]
    exact Emulator.alike_with _ _ _ _
  exact ⟨hserving, halike.loadRom rom, rfl, rfl, rfl⟩

/-- Whatever has been asked of the session before, a program that is put in its place and then
stepped through comes to the same as a run of it on a new machine with the options that go without
saying, as long as no random byte shows. What the worker does is over when a request is met: a cycle
that is still under way as the program comes in is left out. -/
theorem step_agrees_run (threshold : Option Level) (source : Twister) (es : List Event)
    (hrom : rom.length ≤ programRoom) (hn : 1 ≤ n ∧ n ≤ 100000)
    (hc : ((Emulator.new {}).loadRom rom).CertainRun n.toNat) :
    ((romRequest rom).ForRom rom ∧ (stepRequest n).ForSteps n ∧
        (runRequest rom n).ForRun rom n {}) ∧
      ∀ q₁ q₂ q₃, q₁.ForRom rom → q₂.ForSteps n → q₃.ForRun rom n {} → ∀ s',
        let s := meetAll ((newSession threshold).withSource source) es
        ∃ v r, (handle (handle s q₁).1 q₂).2 = .state v ∧ (handle s' q₃).2 = .result r ∧
          Agrees v r ∧ DocumentsAgree v.document r.document := by
  refine ⟨⟨Request.forRom_romRequest hrom, Request.forSteps_stepRequest hn,
    Request.forRun_runRequest hrom ⟨hn.1, by omega⟩⟩, fun q₁ q₂ q₃ h₁ h₂ h₃ s' => ?_⟩
  intro s
  have hstart := (Serving.meetAll threshold source es).inStep_rom h₁
  have hend := hstart.runCycles hc false (s'.journal.addAll (RomLoad.of rom).entries) #[]
  have hagrees := hend.agrees (Batch.loop false n.toNat ((Emulator.new {}).loadRom rom)
    (s'.journal.addAll (RomLoad.of rom).entries) #[]).2.2.1.toList
  refine ⟨_, _, ?_, handle_run h₃ s', hagrees, hagrees.documents⟩
  rw [handle_steps h₂]
  rfl

/-- A program whose third cycle fails, after a program, a key and a cycle of the worker. -/
theorem step_agrees_run_return :
    let rom : List UInt8 := [0x60, 0x2A, 0xA3, 0x00, 0x00, 0xEE]
    let es := [.request (romRequest [0xF5, 0x0A]), .request ⟨"POST", "/api/start", .bytes .empty⟩,
      .request ⟨"POST", "/api/key", .json (.record [("key", .int 7)])⟩, .cycle]
    let s := meetAll ((newSession none).withSource (.seeded 1)) es
    ((1 ≤ (5 : Int) ∧ (5 : Int) ≤ 100000) ∧ ((Emulator.new {}).loadRom rom).CertainRun 5) ∧
      ∃ v r, (handle (handle s (romRequest rom)).1 (stepRequest 5)).2 = .state v ∧
        (handle s (runRequest rom 5)).2 = .result r ∧ Agrees v r := by
  intro rom es s
  have hc : ((Emulator.new {}).loadRom rom).CertainRun 5 := by
    refine ⟨?_, fun _ => ⟨?_, fun _ => ⟨?_, fun h => absurd h ?_⟩⟩⟩ <;> decide +kernel
  have hn : 1 ≤ (5 : Int) ∧ (5 : Int) ≤ 100000 := by decide
  have hrom : rom.length ≤ programRoom := by decide
  obtain ⟨⟨h₁, h₂, h₃⟩, hall⟩ := step_agrees_run none (.seeded 1) es hrom hn hc
  obtain ⟨v, r, hv, hr, hagrees, -⟩ := hall _ _ _ h₁ h₂ h₃ s
  exact ⟨⟨hn, hc⟩, v, r, hv, hr, hagrees⟩

end Web

end ChipEight
