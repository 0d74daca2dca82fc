import ChipEight.Proofs.WellFormed

/-!
# What a host is told

Of a cycle the host is told by one block of notices, `Emulator.block`: the message if it failed, the
screen, the registers and the number of steps, all as they are after the cycle; the block is cut off
behind the screen if the host fails on seeing it. `Emulator.tale` puts the blocks of a sequence of
moves one after the other; moves that are no cycles add nothing.

Of the moves that the emulator goes through while things are done to its session the host hears the
tale (`Session.MovesTo`, `Session.movesTo_acts`). A host that keeps all it hears has therefore heard
exactly that, and a step is interrupted exactly if the host fails meanwhile (`Session.heard_acts`),
on seeing a frame or by a control (`Session.Fails`).
-/

namespace ChipEight

def frameCount (ns : List Notice) : Nat := ns.countP fun n => n.topic = .frame

theorem frameCount_append (ns ns' : List Notice) :
    frameCount (ns ++ ns') = frameCount ns + frameCount ns' :=
  List.countP_append

namespace Emulator

/-- What the host hears of the next cycle. If it fails on seeing the frame, it hears no more of it.
A cycle that is broken off is not heard of. -/
def block (e : Emulator) (cut : Bool) : List Notice :=
  let m := e.cycle.1.machine
  let rest (steps : Nat) : List Notice :=
    if cut then [] else [.registers m.snapshot, .cycleEnd steps]
  match e.cycle.2.ending with
  | .done => .frame m.screen :: rest (e.steps + 1)
  | .failed r => .log r.message :: .frame m.screen :: rest e.steps
  | .broken _ => []

/-- What the host hears of a move, if it has seen `k` frames and fails on those in `fails`. -/
def heardOf (fails : Nat → Bool) (k : Nat) (e : Emulator) : Move → List Notice
  | .control .step => e.block (fails (k + 1))
  | _ => []

def tale (fails : Nat → Bool) : Nat → Emulator → List Move → List Notice
  | _, _, [] => []
  | k, e, m :: ms =>
    e.heardOf fails k m ++ tale fails (k + frameCount (e.heardOf fails k m)) (e.move m) ms

variable {e : Emulator} {fails : Nat → Bool} {k : Nat}

theorem heardOf_of_ne_step {m : Move} (h : m ≠ .control .step) : e.heardOf fails k m = [] := by
  cases m with
  | giveUp => rfl
  | control c =>
    cases c with
    | step => exact absurd rfl h
    | _ => rfl

theorem tale_singleton (m : Move) : tale fails k e [m] = e.heardOf fails k m :=
  List.append_nil _

theorem tale_append (ms ns : List Move) :
    tale fails k e (ms ++ ns) =
      tale fails k e ms ++ tale fails (k + frameCount (tale fails k e ms)) (e.moves ms) ns := by
  induction ms generalizing k e with
  | nil => rfl
  | cons m ms ih =>
    simp only [List.cons_append, tale, ih, List.append_assoc, frameCount_append, Nat.add_assoc]
    rfl

/-- A successful cycle is counted, a failed one is not and leaves its report. -/
theorem ending_cycle (h : e.machine.regs.InRange) :
    match e.cycle.2.ending with
    | .done => e.cycle.1.steps = e.steps + 1
    | .failed r => e.cycle.1.steps = e.steps ∧ e.cycle.1.lastError = some r
    | .broken _ => False := by
  have hc := cycled_cycle h
  generalize e.cycle = c at hc ⊢
  cases hc with
  | done => rfl
  | unfetched | undefined | fault => exact ⟨rfl, rfl⟩

theorem step_cycle (e : Emulator) :
    e.cycle.2.step = match e.cycle.2.ending with
      | .done => e.steps + 1
      | _ => e.steps := by
  obtain ⟨m, running, halted, steps, clockHz, lastError, decrementSound⟩ := e
  unfold cycle
  simp only
  split <;> rfl

theorem frameCount_block (h : e.Unbroken) (cut : Bool) : frameCount (e.block cut) = 1 := by
  unfold block
  cases he : e.cycle.2.ending with
  | broken p => exact absurd he (h p)
  | _ => cases cut <;> rfl

/-- What a host is told of a cycle shows of the emulator the count, and the machine afterwards. -/
theorem block_congr {e' : Emulator} (hout : e'.cycle.2 = e.cycle.2) (hsteps : e'.steps = e.steps)
    (hregs : e'.cycle.1.machine.regs = e.cycle.1.machine.regs)
    (hmem : e'.cycle.1.machine.mem = e.cycle.1.machine.mem)
    (hscreen : e'.cycle.1.machine.screen = e.cycle.1.machine.screen) (cut : Bool) :
    e'.block cut = e.block cut := by
  simp only [block, Machine.snapshot, hout, hsteps, hregs, hmem, hscreen]

theorem block_of_broken {p : Misplaced} (h : e.cycle.2.ending = .broken p) (cut : Bool) :
    e.block cut = [] := by
  unfold block
  rw [h]

end Emulator

namespace Listener

variable (l : Listener) (ns : List Notice)

theorem fails_foldl_hear : (ns.foldl hear l).fails = l.fails := by
  induction ns generalizing l with
  | nil => rfl
  | cons n ns ih => exact (ih _).trans (l.fails_hear n)

theorem script_foldl_hear : (ns.foldl hear l).script = l.script := by
  induction ns generalizing l with
  | nil => rfl
  | cons n ns ih => exact (ih _).trans (l.script_hear n)

/-- A host that hears of everything and never loses what it has heard. -/
structure Records (l : Listener) : Prop where
  topics : l.topics = everything
  capacity : l.inbox.capacity ≤ 0

variable {l}

theorem Records.hear_eq (h : l.Records) (n : Notice) :
    l.hear n = { l with inbox := { l.inbox with items := l.inbox.items.push n } } := by
  have hfull : l.inbox.isFull = false := by
    have := h.capacity
    simp only [Mailbox.isFull, Bool.and_eq_false_iff, decide_eq_false_iff_not]
    omega
  rw [hear, h.topics, if_pos (mem_everything _), Mailbox.put, hfull]
  rfl

theorem Records.hear (h : l.Records) (n : Notice) : (l.hear n).Records := by
  rw [h.hear_eq]
  exact ⟨h.topics, h.capacity⟩

theorem Records.items_foldl_hear (h : l.Records) :
    (ns.foldl Listener.hear l).inbox.items.toList = l.inbox.items.toList ++ ns := by
  induction ns generalizing l with
  | nil => exact (List.append_nil _).symm
  | cons n ns ih =>
    rw [List.foldl_cons, ih (h.hear n), h.hear_eq, Array.toList_push, List.append_assoc]
    rfl

end Listener

namespace Session

variable {s t u : Session}

def heard (s : Session) : List Notice := s.listener.inbox.items.toList

/-- What the host of a session hears of moves of its emulator. -/
def tale (s : Session) (ms : List Move) : List Notice :=
  s.emulator.tale s.listener.fails s.frames ms

/-- What has become of a session by moves of its emulator: the host has heard the tale of them. -/
structure MovesTo (s : Session) (ms : List Move) (t : Session) : Prop where
  emulator : t.emulator = s.emulator.moves ms
  listener : t.listener = (s.tale ms).foldl Listener.hear s.listener
  frames : t.frames = s.frames + frameCount (s.tale ms)

namespace MovesTo

theorem fails {ms : List Move} (h : s.MovesTo ms t) : t.listener.fails = s.listener.fails := by
  rw [h.listener]
  exact Listener.fails_foldl_hear _ _

theorem frames_le {ms : List Move} (h : s.MovesTo ms t) : s.frames ≤ t.frames :=
  h.frames ▸ Nat.le_add_right _ _

theorem of_eq (hhost : s.SameHost t) (he : t.emulator = s.emulator) : s.MovesTo [] t :=
  ⟨he, hhost.listener, hhost.frames⟩

theorem of_move {m : Move} (hm : m ≠ .control .step) (hhost : s.SameHost t)
    (he : t.emulator = s.emulator.move m) : s.MovesTo [m] t := by
  have htale : s.tale [m] = [] :=
    (Emulator.tale_singleton m).trans (Emulator.heardOf_of_ne_step hm)
  refine ⟨he, ?_, ?_⟩ <;> rw [htale]
  · exact hhost.listener
  · exact hhost.frames

theorem of_control {c : Control} (hc : c ≠ .step) (hhost : s.SameHost t)
    (he : t.emulator = s.emulator.obey c) : s.MovesTo [.control c] t :=
  of_move (fun h => hc (Move.control.inj h)) hhost he

theorem heard {ms : List Move} (h : s.MovesTo ms t) (hs : s.listener.Records) :
    t.heard = s.heard ++ s.tale ms := by
  rw [Session.heard, h.listener, hs.items_foldl_hear]
  rfl

theorem trans {ms ns : List Move} (h : s.MovesTo ms t) (h' : t.MovesTo ns u) :
    s.MovesTo (ms ++ ns) u := by
  have htale : s.tale (ms ++ ns) = s.tale ms ++ t.tale ns := by
    simp only [tale, Emulator.tale_append, h.fails, h.emulator]
    rw [h.frames]
    rfl
  refine ⟨?_, ?_, ?_⟩
  · rw [h'.emulator, h.emulator, Emulator.moves_append]
  · rw [h'.listener, h.listener, htale, List.foldl_append]
  · rw [h'.frames, h.frames, htale, frameCount_append, Nat.add_assoc]

end MovesTo

/-! ### Cycles -/

theorem listener_shown (s : Session) (hb : s.emulator.Unbroken) :
    s.shown.listener = (s.emulator.block true).foldl Listener.hear s.listener := by
  have hshown : s.shown.listener =
      (s.cycle.1.tellError s.cycle.2).listener.hear (.frame s.emulator.cycle.1.machine.screen) := by
    rw [← s.emulator_shown]
    rfl
  rw [hshown, tellError, Outcome.error, Emulator.block, s.cycle_snd]
  cases he : s.emulator.cycle.2.ending with
  | broken p => exact absurd he (hb p)
  | done => rfl
  | failed r => rfl

theorem listener_told (s : Session) (hb : s.emulator.Unbroken) :
    s.told.listener = (s.emulator.block false).foldl Listener.hear s.listener := by
  have htold : s.told.listener =
      (s.shown.listener.hear (.registers s.emulator.cycle.1.machine.snapshot)).hear
        (.cycleEnd s.emulator.cycle.2.step) := by
    rw [← s.emulator_shown]
    rfl
  rw [htold, listener_shown s hb, Emulator.step_cycle, Emulator.block, Emulator.block]
  cases he : s.emulator.cycle.2.ending with
  | broken p => exact absurd he (hb p)
  | done => rfl
  | failed r => rfl

theorem tale_step (s : Session) :
    s.tale [.control .step] = s.emulator.block (s.listener.fails (s.frames + 1)) :=
  Emulator.tale_singleton _

theorem movesTo_shown (hb : s.emulator.Unbroken) (hf : s.FailsNext) :
    s.MovesTo [.control .step] s.shown := by
  have htale : s.tale [.control .step] = s.emulator.block true := by
    rw [tale_step, show s.listener.fails (s.frames + 1) = true from hf]
  refine ⟨s.emulator_shown, ?_, ?_⟩ <;> rw [htale]
  · exact listener_shown s hb
  · rw [Emulator.frameCount_block hb, frames_shown]

theorem movesTo_told (hb : s.emulator.Unbroken) (hf : ¬ s.FailsNext) :
    s.MovesTo [.control .step] s.told := by
  have htale : s.tale [.control .step] = s.emulator.block false := by
    rw [tale_step, Bool.eq_false_iff.2 hf]
  refine ⟨s.emulator_told, ?_, ?_⟩ <;> rw [htale]
  · exact listener_told s hb
  · rw [Emulator.frameCount_block hb, frames_told]

theorem movesTo_broken {p : Misplaced} (hb : s.emulator.cycle.2.ending = .broken p) :
    s.MovesTo [.control .step] s.cycle.1 := by
  have htale : s.tale [.control .step] = [] := by rw [tale_step, Emulator.block_of_broken hb]
  refine ⟨rfl, ?_, ?_⟩ <;> rw [htale] <;> rfl

/-! ### Operations -/

theorem course_movesTo : Course fun s ms t _ => s.MovesTo ms t where
  still := .of_eq
  obeyed _ := .of_control
  broken := movesTo_broken
  cut := movesTo_shown
  told := movesTo_told
  trans := .trans

/-- The host hears the tale of what the emulator goes through, whatever is done to its session. -/
theorem movesTo_acts (s : Session) (as : List Act) : s.MovesTo (s.actsMoves as) (s.acts as) :=
  course_movesTo.acts (fun hhost he => .of_move nofun hhost he) s as

/-! ### Interruptions -/

/-- A frame on which the host fails has been shown between two sessions. -/
def FailedBy (s t : Session) : Prop := ∃ k, s.listener.fails k ∧ s.frames < k ∧ k ≤ t.frames

namespace FailedBy

theorem of_frames_eq (h : t.frames = s.frames) : ¬ s.FailedBy t := by
  rintro ⟨k, -, hlt, hle⟩
  omega

/-- Of one frame. -/
theorem of_frames_succ (h : t.frames = s.frames + 1) : s.FailedBy t ↔ s.FailsNext := by
  refine ⟨fun ⟨k, hk, hlt, hle⟩ => ?_, fun hf => ⟨s.frames + 1, hf, by omega, by omega⟩⟩
  obtain rfl : k = s.frames + 1 := by omega
  exact hk

theorem trans {ms ns : List Move} (h : s.MovesTo ms t) (h' : t.MovesTo ns u) :
    s.FailedBy u ↔ s.FailedBy t ∨ t.FailedBy u := by
  have hst := h.frames_le
  have htu := h'.frames_le
  simp only [FailedBy, h.fails]
  constructor
  · rintro ⟨k, hk, hlt, hle⟩
    by_cases hkt : k ≤ t.frames
    · exact .inl ⟨k, hk, hlt, hkt⟩
    · exact .inr ⟨k, hk, by omega, hle⟩
  · rintro (⟨k, hk, hlt, hle⟩ | ⟨k, hk, hlt, hle⟩)
    · exact ⟨k, hk, hlt, by omega⟩
    · exact ⟨k, hk, by omega, hle⟩

end FailedBy

/-- The host fails, because of a frame or of a control that it uses. -/
def Fails (s : Session) (ms : List Move) (t : Session) : Prop :=
  s.FailedBy t ∨ ∃ m ∈ ms, m.raises

namespace Fails

theorem not_nil (h : t.frames = s.frames) : ¬ s.Fails [] t := by
  simp [Fails, FailedBy.of_frames_eq h]

theorem step_iff : s.Fails [.control .step] t ↔ s.FailedBy t := by
  simp [Fails, Move.raises, Control.raises]

theorem control_iff (c : Control) (h : t.frames = s.frames) :
    raised? c = some .host ↔ s.Fails [.control c] t := by
  simp [raised?, Fails, FailedBy.of_frames_eq h, Move.raises]

theorem append_iff {ms ns : List Move} (h : s.MovesTo ms t) (h' : t.MovesTo ns u) :
    s.Fails (ms ++ ns) u ↔ s.Fails ms t ∨ t.Fails ns u := by
  simp only [Fails, FailedBy.trans h h', List.mem_append, or_and_right, exists_or]
  exact or_or_or_comm

end Fails

/-- The host interrupts what is done exactly if it fails. -/
theorem course_fails : Course fun s ms t x => s.MovesTo ms t ∧ (x = some .host ↔ s.Fails ms t) where
  still hhost he :=
    ⟨.of_eq hhost he, iff_of_false nofun (Fails.not_nil hhost.frames)⟩
  obeyed c hc hhost he := ⟨.of_control hc hhost he, Fails.control_iff c hhost.frames⟩
  broken hb :=
    ⟨movesTo_broken hb, iff_of_false nofun (mt Fails.step_iff.1 (FailedBy.of_frames_eq rfl))⟩
  cut {s} hb hf :=
    ⟨movesTo_shown hb hf,
      iff_of_true rfl (Fails.step_iff.2 ((FailedBy.of_frames_succ s.frames_shown).2 hf))⟩
  told {s} hb hf :=
    ⟨movesTo_told hb hf, iff_of_false nofun
      (mt Fails.step_iff.1 (mt (FailedBy.of_frames_succ s.frames_told).1 hf))⟩
  trans h h' := by
    obtain ⟨hms, hst⟩ := h
    obtain ⟨hns, htu⟩ := h'
    -- It goes on only if nothing was interrupted so far, and then the host has not failed yet.
    have hnot := mt hst.2 nofun
    exact ⟨hms.trans hns, htu.trans ((Fails.append_iff hms hns).trans (or_iff_right hnot)).symm⟩

/-- If the host fails at the next frame, a step ends with it; what its cycle has done stays done. -/
theorem step_of_failsNext (hb : s.emulator.Unbroken) (hf : s.FailsNext) :
    s.step = (s.shown, .error .host) :=
  stepThen_of_failsNext hb _ hf

/-- A cycle that the host runs at the end of another is told of after it. -/
example :
    let s := Session.new {} (.acting none [⟨1, [.step]⟩]) none
    (s.act (.control .step)).heard.map Notice.topic =
      [.frame, .registers, .cycleEnd, .frame, .registers, .cycleEnd] := by
  decide +kernel

end Session

end ChipEight
