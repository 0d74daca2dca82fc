import ChipEight.Proofs.Controls

/-!
# Controls do not interfere

Of a sequence of moves `Move.program` keeps those that do something to the program. As long as no
cycle looks at the key latch the others make no difference but to the latch, the flags and the clock
(`Emulator.aligned_moves`): neither to what becomes of the program nor to what a host is told.

What a host does on its own, and where it fails, depends on how many frames and ends of cycles it
has seen, and on nothing else. So on two sessions that are `Abreast` in this the same operation
comes down to the same program (`Session.uniform_step`), and peripheral controls keep them abreast.
-/

namespace ChipEight

/-- The moves that do something to the program. -/
def Move.program (ms : List Move) : List Move := ms.filter fun m => !m.peripheral

theorem Move.program_append (ms ns : List Move) :
    program (ms ++ ns) = program ms ++ program ns :=
  List.filter_append ..

theorem Move.program_eq_nil {ms : List Move} (h : ∀ m ∈ ms, m.peripheral) : program ms = [] :=
  List.filter_eq_nil_iff.2 fun m hm => by simp [h m hm]

namespace Machine.Aligned

variable {m m' : Machine} (h : m.Aligned m')
include h

theorem loadRom (rom : List UInt8) : (m.loadRom rom).Aligned (m'.loadRom rom) :=
  ⟨h.regs, congrArg (Memory.place · _ rom) h.mem, h.screen, h.source⟩

theorem loadFile (file : Option (List UInt8)) : (m.loadFile file).Aligned (m'.loadFile file) := by
  unfold Machine.loadFile
  split
  · exact h.loadRom _
  · exact h

end Machine.Aligned

namespace Emulator

variable {e e' : Emulator} {ms ms' : List Move}

open Move (program)

/-- No cycle among some moves looks at the key latch. -/
def Keyless (e : Emulator) (ms : List Move) : Prop := e.EachBegins (·.readsKey = false) ms

instance : Decidable (e.Keyless ms) := EachBegins.decidable _ e ms

namespace Aligned

theorem next?_eq (h : e.Aligned e') : e'.machine.next? = e.machine.next? := by
  rw [h.machine.eq_setKeys]
  rfl

theorem readsKey_eq (h : e.Aligned e') : e'.machine.readsKey = e.machine.readsKey :=
  congrArg (·.any Instr.readsKey) h.next?_eq

theorem withMachine (h : e.Aligned e') {f : Machine → Machine}
    (hf : (f e.machine).Aligned (f e'.machine)) : (e.withMachine f).Aligned (e'.withMachine f) :=
  ⟨hf, h.steps, h.lastError, h.decrementSound⟩

theorem powerOn (h : e.Aligned e') : e.powerOn.Aligned e'.powerOn :=
  ⟨⟨congrArg (fun r : Registers => r.reset Memory.programStart) h.machine.regs, rfl, rfl,
    h.machine.source⟩, rfl, rfl, h.decrementSound⟩

/-- What does something to the program does the same, unless it is a cycle that looks at the
latch. -/
theorem move (h : e.Aligned e') {m : Move} (hm : m.peripheral = false)
    (hkey : m.isCycle → e.machine.readsKey = false) :
    (e.move m).Aligned (e'.move m) ∧ ∀ fail k, e'.heardOf fail k m = e.heardOf fail k m := by
  rcases m with c | _
  · cases c with
    | step =>
      obtain ⟨hcycle, hout⟩ := h.cycle (.inr (hkey rfl))
      exact ⟨hcycle, fun fail k => block_congr hout h.steps hcycle.machine.regs hcycle.machine.mem
        hcycle.machine.screen _⟩
    | powerOn => exact ⟨h.powerOn, fun _ _ => rfl⟩
    | loadRom rom =>
      exact ⟨h.withMachine (f := (·.loadRom rom)) (h.machine.loadRom rom), fun _ _ => rfl⟩
    | loadFile path file =>
      exact ⟨h.withMachine (f := (·.loadFile file)) (h.machine.loadFile file), fun _ _ => rfl⟩
    | _ => cases hm
  · cases hm

end Aligned

/-- Left without its peripheral moves, a run comes to the same. -/
theorem Aligned.purge (h : e.Aligned e') (ms : List Move) :
    (e.Keyless ms ↔ e'.Keyless (program ms)) ∧
      (e.Keyless ms → (e.moves ms).Aligned (e'.moves (program ms)) ∧
        ∀ fail k, e'.tale fail k (program ms) = e.tale fail k ms) := by
  induction ms generalizing e e' with
  | nil => exact ⟨Iff.rfl, fun _ => ⟨h, fun _ _ => rfl⟩⟩
  | cons m ms ih =>
    cases hm : m.peripheral with
    | true =>
      have hprogram : program (m :: ms) = program ms := List.filter_cons_of_neg (by simp [hm])
      have hne := Move.ne_step_of_peripheral hm
      have hcycle : ¬ m.isCycle := mt Move.isCycle_iff.1 hne
      obtain ⟨hkeyless, hrest⟩ := ih ((aligned_of_peripheral hm e).symm.trans h)
      rw [hprogram]
      refine ⟨⟨fun hk => hkeyless.1 hk.2, fun hk => ⟨fun hc => absurd hc hcycle, hkeyless.2 hk⟩⟩,
        fun hk => ?_⟩
      obtain ⟨haligned, htale⟩ := hrest hk.2
      refine ⟨haligned, fun fail k => ?_⟩
      rw [tale, heardOf_of_ne_step hne, htale]
      rfl
    | false =>
      have hprogram : program (m :: ms) = m :: program ms :=
        List.filter_cons_of_pos (by simp [hm])
      rw [hprogram]
      by_cases hkey : m.isCycle → e.machine.readsKey = false
      · obtain ⟨hmove, hheard⟩ := h.move hm hkey
        obtain ⟨hkeyless, hrest⟩ := ih hmove
        have hkey' : m.isCycle → e'.machine.readsKey = false := fun hc =>
          h.readsKey_eq.trans (hkey hc)
        refine ⟨⟨fun hk => ⟨hkey', hkeyless.1 hk.2⟩, fun hk => ⟨hkey, hkeyless.2 hk.2⟩⟩,
          fun hk => ?_⟩
        obtain ⟨haligned, htale⟩ := hrest hk.2
        refine ⟨haligned, fun fail k => ?_⟩
        rw [tale, tale, hheard, htale]
      · have hkey' : ¬ (m.isCycle → e'.machine.readsKey = false) := fun hk =>
          hkey fun hc => h.readsKey_eq.symm.trans (hk hc)
        exact ⟨⟨fun hk => absurd hk.1 hkey, fun hk => absurd hk.1 hkey'⟩,
          fun hk => absurd hk.1 hkey⟩

/-- Runs with the same program come to the same. -/
theorem aligned_moves (hms : program ms' = program ms) (hk : e.Keyless ms) :
    e.Keyless ms' ∧ (e.moves ms).Aligned (e.moves ms') ∧
      ∀ fail k, e.tale fail k ms' = e.tale fail k ms := by
  obtain ⟨hkeyless, hrest⟩ := (Aligned.refl e).purge ms
  obtain ⟨hkeyless', hrest'⟩ := (Aligned.refl e).purge ms'
  rw [hms] at hkeyless' hrest'
  have hk' := hkeyless'.2 (hkeyless.1 hk)
  obtain ⟨haligned, htale⟩ := hrest hk
  obtain ⟨haligned', htale'⟩ := hrest' hk'
  exact ⟨hk', haligned.trans haligned'.symm,
    fun fail k => (htale' fail k).symm.trans (htale fail k)⟩

end Emulator

namespace Session

variable {s t s' t' : Session} {depth : Option Int}

open Move (program)

/-- The hosts do the same from here on. -/
structure Abreast (depth : Option Int) (s t : Session) : Prop where
  fails : t.listener.fails = s.listener.fails
  script : t.listener.script = s.listener.script
  frames : t.frames = s.frames
  ends : t.ends = s.ends
  left : s.emulator.WellFormed depth
  right : t.emulator.WellFormed depth

namespace Abreast

theorem failsNext_iff (h : Abreast depth s t) : t.FailsNext ↔ s.FailsNext := by
  rw [FailsNext, FailsNext, h.fails, h.frames]

theorem refl (h : s.emulator.WellFormed depth) : Abreast depth s s := ⟨rfl, rfl, rfl, rfl, h, h⟩

theorem of_sameHost (h : Abreast depth s t) (hs : s.SameHost s') (ht : t.SameHost t')
    (hs' : s'.emulator.WellFormed depth) (ht' : t'.emulator.WellFormed depth) :
    Abreast depth s' t' := by
  refine ⟨?_, ?_, ?_, ?_, hs', ht'⟩
  · rw [hs.listener, ht.listener, h.fails]
  · rw [hs.listener, ht.listener, h.script]
  · rw [hs.frames, ht.frames, h.frames]
  · rw [hs.ends, ht.ends, h.ends]

theorem unbroken (h : Abreast depth s t) : s.emulator.Unbroken ∧ t.emulator.Unbroken :=
  ⟨Emulator.ending_ne_broken h.left.regs.toInRange,
    Emulator.ending_ne_broken h.right.regs.toInRange⟩

theorem shown (h : Abreast depth s t) : Abreast depth s.shown t.shown := by
  obtain ⟨hs, ht⟩ := h.unbroken
  refine ⟨?_, ?_, ?_, ?_, ?_, ?_⟩
  · rw [listener_shown s hs, listener_shown t ht, Listener.fails_foldl_hear,
      Listener.fails_foldl_hear, h.fails]
  · rw [listener_shown s hs, listener_shown t ht, Listener.script_foldl_hear,
      Listener.script_foldl_hear, h.script]
  · rw [frames_shown, frames_shown, h.frames]
  · rw [ends_shown, ends_shown, h.ends]
  · rw [emulator_shown]
    exact Emulator.wellFormed_cycle h.left
  · rw [emulator_shown]
    exact Emulator.wellFormed_cycle h.right

theorem told (h : Abreast depth s t) : Abreast depth s.told t.told := by
  have hshown := h.shown
  refine ⟨?_, ?_, ?_, ?_, hshown.left, hshown.right⟩
  · rw [listener_told s h.unbroken.1, listener_told t h.unbroken.2, Listener.fails_foldl_hear,
      Listener.fails_foldl_hear, h.fails]
  · rw [listener_told s h.unbroken.1, listener_told t h.unbroken.2, Listener.script_foldl_hear,
      Listener.script_foldl_hear, h.script]
  · rw [frames_told, frames_told, h.frames]
  · rw [ends_told, ends_told, h.ends]

theorem countEnd (h : Abreast depth s t) : Abreast depth s.countEnd t.countEnd := by
  refine h.of_sameHost s.sameHost_countEnd t.sameHost_countEnd (h.left.of_regs_eq ?_)
    (h.right.of_regs_eq ?_)
  · rw [machine_countEnd]
  · rw [machine_countEnd]

end Abreast

/-- Something done to two sessions has gone through moves with the same program and left them
abreast, with the same interruption. -/
structure Parallel {α : Type} (depth : Option Int) (r r' : Session × Except Interruption α)
    (ms ms' : List Move) : Prop where
  abreast : Abreast depth r.1 r'.1
  interruption : interruption? r'.2 = interruption? r.2
  program : program ms' = program ms

/-- What is done goes the same way on all sessions that are abreast. -/
def Uniform {α : Type} (depth : Option Int) (f : Session → Session × Except Interruption α)
    (moves : Session → List Move) : Prop :=
  ∀ s t, Abreast depth s t → Parallel depth (f s) (f t) (moves s) (moves t)

theorem program_step (ms : List Move) :
    program (.control .step :: ms) = .control .step :: program ms :=
  rfl

theorem program_pause (s : Session) : program (if s.stops then [.control .pause] else []) = [] := by
  split <;> rfl

theorem Uniform.stepThen {atEnd : Session → Session × Except Interruption Unit}
    {inner : Session → List Move} (hEnd : Uniform depth atEnd inner) :
    Uniform depth (stepThen atEnd) (stepMoves atEnd inner) := by
  intro s t h
  obtain ⟨hs, ht⟩ := h.unbroken
  rw [stepMoves_of_unbroken hs, stepMoves_of_unbroken ht]
  by_cases hf : s.FailsNext
  · have hf' := h.failsNext_iff.2 hf
    rw [stepThen_of_failsNext hs _ hf, stepThen_of_failsNext ht _ hf', if_pos hf, if_pos hf']
    exact ⟨h.shown, rfl, rfl⟩
  · have hf' := mt h.failsNext_iff.1 hf
    have hend := hEnd _ _ h.told
    rw [stepThen_of_not_failsNext hs _ hf, stepThen_of_not_failsNext ht _ hf', if_neg hf,
      if_neg hf']
    generalize atEnd s.told = r, atEnd t.told = r' at hend ⊢
    obtain ⟨u, x | ⟨⟩⟩ := r <;> obtain ⟨u', x' | ⟨⟩⟩ := r' <;>
      obtain ⟨habreast, hint, hprogram⟩ := hend
    · refine ⟨habreast, hint, ?_⟩
      rw [program_step, program_step, List.append_nil, List.append_nil, hprogram]
    · cases hint
    · cases hint
    · refine ⟨habreast.countEnd, rfl, ?_⟩
      rw [program_step, program_step, Move.program_append, Move.program_append, hprogram,
        program_pause, program_pause]

section
variable {step : Session → Session × Except Interruption Outcome} {inner : Session → List Move}
  (hstep : Uniform depth step inner)
include hstep

theorem Uniform.control (h : Abreast depth s t) (c : Control) :
    Parallel depth (s.control step c) (t.control step c) (s.controlMoves inner c)
      (t.controlMoves inner c) := by
  by_cases hc : c = .step
  · subst hc
    have hresult := hstep s t h
    simp only [Session.control]
    generalize step s = r, step t = r' at hresult ⊢
    obtain ⟨u, x | o⟩ := r <;> obtain ⟨u', x' | o'⟩ := r' <;>
      obtain ⟨habreast, hint, hprogram⟩ := hresult
    · exact ⟨habreast, hint, hprogram⟩
    · cases hint
    · cases hint
    · exact ⟨habreast, rfl, hprogram⟩
  · obtain ⟨s', hs, hhost, he⟩ := s.control_of_ne_step step hc
    obtain ⟨t', ht, hhost', he'⟩ := t.control_of_ne_step step hc
    rw [hs, ht, controlMoves_of_ne_step hc, controlMoves_of_ne_step hc]
    exact ⟨h.of_sameHost hhost hhost' (he ▸ Emulator.wellFormed_move (.control c) h.left)
      (he' ▸ Emulator.wellFormed_move (.control c) h.right), rfl, rfl⟩

theorem Uniform.controls (h : Abreast depth s t) (cs : List Control) :
    Parallel depth (s.controls step cs) (t.controls step cs) (s.controlsMoves step inner cs)
      (t.controlsMoves step inner cs) := by
  induction cs generalizing s t with
  | nil => exact ⟨h, rfl, rfl⟩
  | cons c cs ih =>
    have hresult := Uniform.control hstep h c
    simp only [Session.controls, controlsMoves]
    generalize s.control step c = r, t.control step c = r' at hresult ⊢
    obtain ⟨u, x | ⟨⟩⟩ := r <;> obtain ⟨u', x' | ⟨⟩⟩ := r' <;>
      obtain ⟨habreast, hint, hprogram⟩ := hresult
    · exact ⟨habreast, hint, by simpa using hprogram⟩
    · cases hint
    · cases hint
    · simp only
      split
      · exact ⟨habreast, rfl, by simpa using hprogram⟩
      · obtain ⟨habreast', hint', hprogram'⟩ := ih habreast
        refine ⟨habreast', hint', ?_⟩
        simp only [Move.program_append, hprogram, hprogram']

end

theorem Uniform.follow (cues : List Cue) : Uniform depth (follow cues) (followMoves cues) := by
  induction cues with
  | nil => exact fun s t h => ⟨h, rfl, rfl⟩
  | cons c cs ih =>
    intro s t h
    simp only [Session.follow, followMoves, h.ends]
    split
    · exact Uniform.controls (Uniform.stepThen ih) h c.controls
    · exact ih s t h

theorem uniform_step : Uniform depth step ownStepMoves := by
  intro s t h
  rw [step, step, ownStepMoves, ownStepMoves, h.script]
  exact Uniform.stepThen (Uniform.follow _) s t h

/-! ### Rounds -/

/-- Some controls and then a step. -/
def round (cs : List Control) : List Act := cs.map .control ++ [.control .step]

def rounds (css : List (List Control)) : List Act := css.flatMap round

theorem acts_append (s : Session) (as bs : List Act) : s.acts (as ++ bs) = (s.acts as).acts bs :=
  List.foldl_append

theorem actsMoves_append (s : Session) (as bs : List Act) :
    s.actsMoves (as ++ bs) = s.actsMoves as ++ (s.acts as).actsMoves bs := by
  induction as generalizing s with
  | nil => rfl
  | cons a as ih =>
    rw [List.cons_append, actsMoves, actsMoves, ih, List.append_assoc]
    rfl

theorem acts_of_peripheral {cs : List Control} (hcs : ∀ c ∈ cs, c.peripheral) (s : Session) :
    s.SameHost (s.acts (cs.map .control)) ∧ program (s.actsMoves (cs.map .control)) = [] := by
  induction cs generalizing s with
  | nil => exact ⟨⟨rfl, rfl, rfl⟩, rfl⟩
  | cons c cs ih =>
    obtain ⟨hc, hcs⟩ := List.forall_mem_cons.1 hcs
    have hne : c ≠ .step := by rintro rfl; cases hc
    obtain ⟨t, ht, hhost, -⟩ := s.control_of_ne_step step hne
    have hact : s.act (.control c) = t := congrArg Prod.fst ht
    obtain ⟨hrest, hprogram⟩ := ih hcs t
    have hmove : s.actMoves (.control c) = [.control c] := controlMoves_of_ne_step hne _
    refine ⟨?_, ?_⟩
    · show s.SameHost ((s.act (.control c)).acts (cs.map .control))
      rw [hact]
      exact hhost.trans hrest
    · rw [List.map_cons, actsMoves, hact, hmove, Move.program_append, hprogram, List.append_nil]
      exact Move.program_eq_nil fun m hm => by rw [List.mem_singleton.1 hm]; exact hc

/-- A round with other controls goes the same way. -/
theorem Abreast.round {cs cs' : List Control} (h : Abreast depth s t)
    (hcs : ∀ c ∈ cs, c.peripheral) (hcs' : ∀ c ∈ cs', c.peripheral) :
    Abreast depth (s.acts (round cs)) (t.acts (round cs')) ∧
      program (t.actsMoves (round cs')) = program (s.actsMoves (round cs)) := by
  obtain ⟨hhost, hnil⟩ := acts_of_peripheral hcs s
  obtain ⟨hhost', hnil'⟩ := acts_of_peripheral hcs' t
  have hstep := Uniform.control uniform_step (h.of_sameHost hhost hhost'
    ((s.reaches_acts _).wellFormed h.left) ((t.reaches_acts _).wellFormed h.right)) .step
  refine ⟨?_, ?_⟩
  · rw [Session.round, Session.round, acts_append, acts_append]
    exact hstep.abreast
  · simp only [Session.round, actsMoves_append, Move.program_append, hnil, hnil', actsMoves,
      List.append_nil]
    exact hstep.program

theorem Abreast.rounds {css css' : List (List Control)} (h : Abreast depth s t)
    (hlen : css'.length = css.length) (hcss : ∀ cs ∈ css, ∀ c ∈ cs, c.peripheral)
    (hcss' : ∀ cs ∈ css', ∀ c ∈ cs, c.peripheral) :
    program (t.actsMoves (rounds css')) = program (s.actsMoves (rounds css)) := by
  induction css generalizing css' s t with
  | nil => rw [List.eq_nil_of_length_eq_zero hlen]; rfl
  | cons cs css ih =>
    rcases css' with _ | ⟨cs', css'⟩
    · cases hlen
    · obtain ⟨hcs, hcss⟩ := List.forall_mem_cons.1 hcss
      obtain ⟨hcs', hcss'⟩ := List.forall_mem_cons.1 hcss'
      obtain ⟨hnext, hprogram⟩ := h.round hcs hcs'
      simp only [Session.rounds, List.flatMap_cons, actsMoves_append, Move.program_append, hprogram]
      exact congrArg _ (ih hnext (Nat.succ.inj hlen) hcss hcss')

/-- Whatever a host does to the key latch, the clock and the flags between the cycles makes no
difference, as long as no cycle looks at the latch. From wherever a session has come to, two runs
with as many steps and any such controls before each of them then come to the same after every step:
all but the latch, the clock and the flags is equal, and the host has been told the same. If no
cycle of the one run looks at the latch, then none of the other does. -/
theorem aligned_rounds (o : Options) (l : Listener) (threshold : Option Level) (source : Twister)
    (as : List Act) {css css' : List (List Control)} (hlen : css'.length = css.length)
    (hcss : ∀ cs ∈ css, ∀ c ∈ cs, c.peripheral) (hcss' : ∀ cs ∈ css', ∀ c ∈ cs, c.peripheral) :
    let s := ((Session.new o l threshold).withSource source).acts as
    s.emulator.Keyless (s.actsMoves (rounds css)) →
      s.emulator.Keyless (s.actsMoves (rounds css')) ∧
        ∀ k, let t := s.acts (rounds (css.take k))
          let t' := s.acts (rounds (css'.take k))
          t.emulator.Aligned t'.emulator ∧ t'.listener = t.listener ∧
            s.tale (s.actsMoves (rounds (css'.take k))) =
              s.tale (s.actsMoves (rounds (css.take k))) := by
  intro s hk
  have hs : s.emulator.WellFormed o.stackDepth :=
    (reaches_acts _ as).wellFormed (Emulator.wellFormed_initial rfl)
  refine ⟨?_, fun k => ?_⟩
  · exact (Emulator.aligned_moves ((Abreast.refl hs).rounds hlen hcss hcss') hk).1
  · intro t t'
    have hlen' : (css'.take k).length = (css.take k).length := by simp [hlen]
    have hprogram := (Abreast.refl hs).rounds hlen'
      (fun cs h => hcss cs (List.mem_of_mem_take h)) fun cs h => hcss' cs (List.mem_of_mem_take h)
    have htake : rounds css = rounds (css.take k) ++ rounds (css.drop k) := by
      rw [Session.rounds, Session.rounds, Session.rounds, ← List.flatMap_append,
        List.take_append_drop]
    rw [htake, actsMoves_append] at hk
    have hk := (Emulator.eachBegins_append.1 hk).1
    obtain ⟨-, haligned, htale⟩ := Emulator.aligned_moves hprogram hk
    have htale' := htale s.listener.fails s.frames
    refine ⟨?_, ?_, htale'⟩
    · rw [s.emulator_acts, s.emulator_acts]
      exact haligned
    · rw [(s.movesTo_acts _).listener, (s.movesTo_acts _).listener]
      exact congrArg (·.foldl Listener.hear s.listener) htale'

/-- The host runs a third cycle at the end of the second, and the fourth fails. -/
theorem aligned_rounds_return :
    let s := ((Session.new {} (.acting none [⟨2, [.pressKey 1, .step]⟩]) none).withSource
      (.seeded 1)).acts [.control (.loadRom [0x60, 0x05, 0x71, 0x03, 0xD0, 0x11, 0x00, 0xEE])]
    let css := [[], [.pressKey 3], []]
    let css' := [[.start, .setKey 9], [.stop], [.setClock 7, .pressKey 2, .pause]]
    (css'.length = css.length ∧ (∀ cs ∈ css, ∀ c ∈ cs, c.peripheral) ∧
        (∀ cs ∈ css', ∀ c ∈ cs, c.peripheral) ∧ s.emulator.Keyless (s.actsMoves (rounds css))) ∧
      s.emulator.Keyless (s.actsMoves (rounds css')) ∧
        (s.acts (rounds css)).emulator.Aligned (s.acts (rounds css')).emulator := by
  intro s css css'
  have hlen : css'.length = css.length := rfl
  have hcss : ∀ cs ∈ css, ∀ c ∈ cs, c.peripheral := by simp [css, Control.peripheral]
  have hcss' : ∀ cs ∈ css', ∀ c ∈ cs, c.peripheral := by simp [css', Control.peripheral]
  have hk : s.emulator.Keyless (s.actsMoves (rounds css)) := by decide +kernel
  obtain ⟨hk', hall⟩ := aligned_rounds {} (.acting none [⟨2, [.pressKey 1, .step]⟩]) none
    (.seeded 1) [.control (.loadRom [0x60, 0x05, 0x71, 0x03, 0xD0, 0x11, 0x00, 0xEE])] hlen hcss
    hcss' hk
  exact ⟨⟨hlen, hcss, hcss', hk⟩, hk', (hall 3).1⟩

end Session

end ChipEight
