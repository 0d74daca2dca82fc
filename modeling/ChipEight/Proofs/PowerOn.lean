import ChipEight.Proofs.Chance
import ChipEight.Proofs.Obstacle

/-!
# Switching off and on

A machine that has been switched off and on is as good as new: of all that has happened to it only
the source of its random bytes is left (`Emulator.powerOn_eq_new`). From then on sessions that are
set up alike stay in step, whatever has been done to them before, as long as no random byte shows
and their hosts do nothing on their own (`Session.powerOn_erases`).
-/

namespace ChipEight

/-- Of a machine nothing but the limit of the stack and the source survives. -/
theorem Machine.powerOn_eq (m m' : Machine) (h : m.regs.depth = m'.regs.depth) :
    m.powerOn = { m'.powerOn with source := m.source } := by
  have hmem : m.mem.clear = m'.mem.clear := rfl
  have hscreen : m.screen.clear = m'.screen.clear := rfl
  rw [powerOn, powerOn, Registers.reset, Registers.reset, h, hmem, hscreen]

namespace Emulator

variable {e e' : Emulator}

theorem decrementSound_cycle (e : Emulator) : e.cycle.1.decrementSound = e.decrementSound := by
  rw [cycle_fst]
  split <;> rfl

theorem decrementSound_move (e : Emulator) (m : Move) :
    (e.move m).decrementSound = e.decrementSound := by
  cases m with
  | giveUp => rfl
  | control c =>
    cases c with
    | step => exact decrementSound_cycle e
    | setClock hz => simp only [move, obey, setClock]; split <;> rfl
    | _ => rfl

theorem decrementSound_moves (e : Emulator) (ms : List Move) :
    (e.moves ms).decrementSound = e.decrementSound :=
  moves_induction (P := fun e' => e'.decrementSound = e.decrementSound)
    (fun e' m h => (e'.decrementSound_move m).trans h) rfl ms

/-- Of an emulator that is set up by some options, switching it off and on leaves nothing but
whether it runs and how fast, and the source of its random bytes. -/
theorem powerOn_eq_new {o : Options} (hdepth : e.machine.regs.depth = o.stackDepth)
    (hsound : e.decrementSound = o.decrementSound) :
    e.powerOn =
      { Emulator.new o with
        machine := { (Emulator.new o).machine with source := e.machine.source }
        running := e.running
        clockHz := e.clockHz } := by
  have hm : e.machine.powerOn =
      { Machine.new o.stackDepth o.seed with source := e.machine.source } :=
    e.machine.powerOn_eq ⟨.initial o.stackDepth Memory.programStart, .blank _, .blank _ _,
      .initial, .seeded (o.seed.getD 0)⟩ hdepth
  rw [powerOn, hm, hsound]
  rfl

/-- To a host that never fails, it does not matter how many frames it has seen. -/
theorem tale_never (e : Emulator) (k k' : Nat) (ms : List Move) :
    e.tale (fun _ => false) k ms = e.tale (fun _ => false) k' ms := by
  induction ms generalizing e k k' with
  | nil => rfl
  | cons m ms ih =>
    have hheard : e.heardOf (fun _ => false) k m = e.heardOf (fun _ => false) k' m := by
      cases m with
      | giveUp => rfl
      | control c => cases c <;> rfl
    rw [tale, tale, hheard, ih]

end Emulator

namespace Session

variable {s : Session}

/-- However a session is used, its emulator stays well formed and set up as it was. -/
theorem keeps_acts (o : Options) (l : Listener) (threshold : Option Level) (source : Twister)
    (as : List Act) :
    let s := ((Session.new o l threshold).withSource source).acts as
    s.emulator.WellFormed o.stackDepth ∧ s.emulator.decrementSound = o.decrementSound := by
  refine ⟨(reaches_acts _ as).wellFormed (Emulator.wellFormed_initial rfl), ?_⟩
  rw [emulator_acts, Emulator.decrementSound_moves]
  rfl

/-! ### Hosts that do nothing on their own -/

def resultOf (s : Session) : Control → List (Except Interruption Outcome)
  | .step => [s.step.2]
  | _ => []

/-- What the steps among some controls result in. -/
def results : Session → List Control → List (Except Interruption Outcome)
  | _, [] => []
  | s, c :: cs => s.resultOf c ++ (s.perform c).1.results cs

theorem resultOf_of_ne_step {c : Control} (h : c ≠ .step) : s.resultOf c = [] := by
  cases c with
  | step => exact absurd rfl h
  | _ => rfl

/-- A passive host stays passive, whatever it hears. -/
theorem MovesTo.passive {t : Session} {ms : List Move} (h : s.MovesTo ms t)
    (hl : s.listener.Passive) : t.listener.Passive := by
  rw [h.listener]
  refine ⟨fun k => ?_, (Listener.script_foldl_hear _ _).trans hl.idle⟩
  rw [Listener.fails_foldl_hear]
  exact hl.steady k

theorem passive_acts (hl : s.listener.Passive) (as : List Act) : (s.acts as).listener.Passive :=
  (movesTo_acts s as).passive hl

theorem Quiet.powerOn (hq : s.Quiet) : (s.perform .powerOn).1.Quiet :=
  hq.of_sameHost ⟨rfl, rfl, rfl⟩

theorem Quiet.told (hq : s.Quiet) (hb : s.emulator.Unbroken) : s.told.Quiet := by
  have hlistener := listener_told s hb
  refine ⟨fun k hk => ?_, fun c hc => ?_⟩
  · rw [hlistener, Listener.fails_foldl_hear]
    rw [frames_told] at hk
    exact hq.steady k (Nat.lt_of_succ_lt hk)
  · rw [hlistener, Listener.script_foldl_hear] at hc
    have := hq.idle c hc
    rw [ends_told]
    omega

/-- With a quiet host a control does to the emulator what it does on its own, but for a pause. -/
theorem quiet_perform (hq : s.Quiet) (hb : s.emulator.Unbroken) (c : Control) :
    (s.perform c).1.Quiet ∧ (s.emulator.obey c).Alike (s.perform c).1.emulator ∧
      s.resultOf c = (s.emulator.outcomeOf (.control c)).map .ok ∧
      (s.perform c).1.listener =
        (s.emulator.heardOf (fun _ => false) 0 (.control c)).foldl Listener.hear s.listener := by
  by_cases hc : c = .step
  · subst hc
    have hstep := step_of_quiet hq hb
    have hperform : (s.perform .step).1 = s.told.countEnd := by
      rw [perform, control, hstep]
    have hhost := s.told.sameHost_countEnd
    rw [hperform]
    refine ⟨(hq.told hb).of_sameHost hhost, ?_, ?_, ?_⟩
    · rw [Emulator.obey, ← s.emulator_told]
      refine s.told.countEnd_cases.elim (fun h => h ▸ .refl _) fun h => ?_
      rw [h]
      exact Emulator.alike_pause _
    · rw [resultOf, hstep]
      rfl
    · rw [hhost.listener]
      exact listener_told s hb
  · obtain ⟨t, ht, hhost, he⟩ := s.control_of_ne_step step hc
    have hm : Move.control c ≠ .control .step := fun h => hc (Move.control.inj h)
    rw [perform, ht, resultOf_of_ne_step hc, Emulator.outcomeOf_of_ne_step hm,
      Emulator.heardOf_of_ne_step hm]
    exact ⟨hq.of_sameHost hhost, he ▸ .refl _, rfl, hhost.listener⟩

/-- A session with a quiet host stays in step with any emulator like its own. The worker may pause
the one and not the other, so they need not stay equal. -/
theorem quiet_acts {depth : Option Int} {e : Emulator} (hq : s.Quiet) (h : e.Alike s.emulator)
    (hwf : e.WellFormed depth) {cs : List Control} (hc : e.Certain (cs.map .control)) :
    (e.moves (cs.map .control)).Alike (s.acts (cs.map .control)).emulator ∧
      s.results cs = (e.outcomes (cs.map .control)).map .ok ∧
      (s.acts (cs.map .control)).listener =
        (e.tale (fun _ => false) 0 (cs.map .control)).foldl Listener.hear s.listener := by
  induction cs generalizing s e with
  | nil => exact ⟨h, rfl, rfl⟩
  | cons c cs ih =>
    have hr : s.emulator.machine.regs.InRange := h.machine.regs ▸ hwf.regs.toInRange
    obtain ⟨hmove, hout, hheard⟩ := h.move hwf.regs.toInRange hc.1
    obtain ⟨hq', he, hresult, hlistener⟩ := quiet_perform hq (Emulator.ending_ne_broken hr) c
    obtain ⟨hrest, hresults, hlisteners⟩ :=
      ih hq' (hmove.trans he) (Emulator.wellFormed_move _ hwf) hc.2
    refine ⟨hrest, ?_, ?_⟩
    · rw [results, hresult, hresults, hout, ← List.map_append]
      rfl
    · have htale := e.move (.control c) |>.tale_never
        (0 + frameCount (e.heardOf (fun _ => false) 0 (.control c))) 0 (cs.map .control)
      show ((s.perform c).1.acts (cs.map .control)).listener = _
      rw [hlisteners, hlistener, hheard, List.map_cons, Emulator.tale, htale, List.foldl_append]

/-- Whatever has been done to two sessions that are set up alike, switching them off and on makes
both as good as new, but for whether they run and how fast, and where in their sources of random
bytes they are. As long as no random byte shows, cycles then come to the same on both, whatever is
done to them. If their hosts do nothing on their own, so does every use of the controls, and the
hosts are told the same. -/
theorem powerOn_erases (o o' : Options) (l l' : Listener) (threshold threshold' : Option Level)
    (source source' : Twister) (as as' : List Act) (hdepth : o'.stackDepth = o.stackDepth)
    (hsound : o'.decrementSound = o.decrementSound) :
    let s := ((Session.new o l threshold).withSource source).acts as
    let t := (s.perform .powerOn).1
    let t' := ((((Session.new o' l' threshold').withSource source').acts as').perform .powerOn).1
    let e := t.emulator
    let e' := t'.emulator
    (e = { Emulator.new o with
        machine := { (Emulator.new o).machine with source := s.emulator.machine.source }
        running := s.emulator.running
        clockHz := s.emulator.clockHz }) ∧
      (∀ ms, e.Certain ms → (e.moves ms).Alike (e'.moves ms) ∧ e'.outcomes ms = e.outcomes ms ∧
        ∀ fail k, e'.tale fail k ms = e.tale fail k ms) ∧
      ∀ cs, t.Quiet → t'.Quiet → e.Certain (cs.map .control) →
        let u := t.acts (cs.map .control)
        let u' := t'.acts (cs.map .control)
        let os := e.outcomes (cs.map .control)
        let ns := e.tale (fun _ => false) 0 (cs.map .control)
        u.emulator.Alike u'.emulator ∧
          (t.results cs = os.map .ok ∧ t'.results cs = os.map .ok) ∧
          u.listener = ns.foldl Listener.hear t.listener ∧
          u'.listener = ns.foldl Listener.hear t'.listener := by
  intro s t t' e e'
  obtain ⟨hwf, hs⟩ := keeps_acts o l threshold source as
  obtain ⟨hwf', hs'⟩ := keeps_acts o' l' threshold' source' as'
  have he : e.WellFormed o.stackDepth := Emulator.wellFormed_move (.control .powerOn) hwf
  have halike : e.Alike e' :=
    Emulator.alike_powerOn (hwf'.depth_eq.trans (hdepth.trans hwf.depth_eq.symm))
      (hs'.trans (hsound.trans hs.symm))
  refine ⟨Emulator.powerOn_eq_new hwf.depth_eq hs, fun ms => halike.moves he,
    fun cs hq hq' hc => ?_⟩
  obtain ⟨hu, hresults, hheard⟩ := quiet_acts hq (.refl e) he hc
  obtain ⟨hu', hresults', hheard'⟩ := quiet_acts hq' halike he hc
  exact ⟨hu.symm.trans hu', ⟨hresults, hresults'⟩, hheard, hheard'⟩

/-- A machine on which a store has failed half-way, and a new one with another seed. -/
theorem powerOn_erases_torn :
    let t := ((((Session.new {} .deaf none).withSource (.seeded 0)).acts
      [.control (.loadRom [0x60, 0x07, 0xAF, 0xFF, 0xF1, 0x55]), .control .step, .control .step,
        .control .step]).perform .powerOn).1
    let t' := ((((Session.new { seed := some 7 } .deaf none).withSource (.seeded 7)).acts
      []).perform .powerOn).1
    let cs := [.loadRom [0xF0, 0x0A, 0xC1, 0x00], .step, .pressKey 5, .step, .step]
    (t.Quiet ∧ t'.Quiet ∧ t.emulator.Certain (cs.map .control)) ∧
      (t.acts (cs.map .control)).emulator.Alike (t'.acts (cs.map .control)).emulator ∧
      t'.results cs = t.results cs := by
  intro t t' cs
  have hq : t.Quiet := (quiet_of_passive (passive_acts ⟨fun _ => rfl, rfl⟩ _)).powerOn
  have hq' : t'.Quiet := (quiet_of_passive (passive_acts ⟨fun _ => rfl, rfl⟩ _)).powerOn
  have hc : t.emulator.Certain (cs.map .control) := by
    refine ⟨nofun, fun _ => ?_, nofun, fun _ => ?_, fun _ => ?_, trivial⟩ <;> decide +kernel
  obtain ⟨-, -, hcs⟩ := powerOn_erases {} { seed := some 7 } .deaf .deaf none none (.seeded 0)
    (.seeded 7) [.control (.loadRom [0x60, 0x07, 0xAF, 0xFF, 0xF1, 0x55]), .control .step,
      .control .step, .control .step] [] rfl rfl
  obtain ⟨halike, ⟨hresults, hresults'⟩, -⟩ := hcs cs hq hq' hc
  exact ⟨⟨hq, hq', hc⟩, halike, hresults'.trans hresults.symm⟩

end Session

end ChipEight
