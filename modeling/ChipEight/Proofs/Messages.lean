import ChipEight.Proofs.Handling
import ChipEight.Proofs.Mailbox
import ChipEight.Proofs.Runs
import ChipEight.Proofs.Service
import ChipEight.Proofs.Worker

/-!
# Messages of failed cycles

The host of the service's session holds the messages of failed cycles until they are fetched or the
session is wiped. `Web.mails` is what a history comes to for them, event by event, and
`Web.waiting` the messages that are left at its end. The host holds the latest 1024 of those
(`Web.Collecting.meetAll`), and that is what a request for the messages is answered with
(`Web.events_meetAll`).
-/

namespace ChipEight

/-! ### Hosts that collect messages -/

/-- The host hears messages alone and holds the latest of some. -/
structure Listener.Collects (l : Listener) (ts : List Text) : Prop where
  topics : l.topics = [.log]
  capacity : l.inbox.capacity = Web.messageLimit
  items : l.inbox.items.toList = (ts.map .log).rtake 1024

def Report.text (r : Report) : Text := r.message

namespace Listener.Collects

variable {l : Listener} {ts : List Text} {e : Emulator}

theorem hear_log (h : l.Collects ts) (t : Text) : (l.hear (.log t)).Collects (ts ++ [t]) := by
  have hput := Mailbox.toList_put (n := 1023) h.capacity h.items (.log t)
  have hmem : (Notice.log t).topic ∈ l.topics := by
    rw [h.topics]
    exact List.mem_singleton_self _
  rw [hear, if_pos hmem]
  refine ⟨h.topics, ?_, ?_⟩
  · exact (Mailbox.capacity_put ..).trans h.capacity
  · rw [hput, List.map_append]
    rfl

/-- Other notices are not heard. -/
theorem foldl_of_ne_log (h : l.Collects ts) {ns : List Notice} (hns : ∀ n ∈ ns, n.topic ≠ .log) :
    ns.foldl hear l = l := by
  induction ns with
  | nil => rfl
  | cons n ns ih =>
    have hn : n.topic ∉ l.topics := by
      rw [h.topics, List.mem_singleton]
      exact hns n List.mem_cons_self
    rw [List.foldl_cons, hear, if_neg hn]
    exact ih fun n' hn' => hns n' (List.mem_cons_of_mem _ hn')

/-- Of a cycle the host takes the message, if it fails. -/
theorem block (h : l.Collects ts) (hb : e.Unbroken) :
    ((e.block false).foldl hear l).Collects (ts ++ (e.cycle.2.error.map Report.text).toList) := by
  unfold Emulator.block Outcome.error
  cases he : e.cycle.2.ending with
  | broken p => exact absurd he (hb p)
  | done =>
    simp only [Option.map_none, Option.toList_none, List.append_nil]
    rw [h.foldl_of_ne_log]
    · exact h
    · simp [Notice.topic]
  | failed r =>
    have hr := h.hear_log r.message
    rw [List.foldl_cons, hr.foldl_of_ne_log]
    · exact hr
    · simp [Notice.topic]

end Listener.Collects

namespace Web

open Emulator (RunsTo)

/-! ### Sessions that collect messages -/

/-- The session serves, no worker has anything to do in it, and its host holds messages. -/
structure Collecting (s : Session) (ts : List Text) : Prop where
  serving : Serving s
  idle : s.task = none
  collects : s.listener.Collects ts

namespace Collecting

variable {s t : Session} {ts : List Text}

theorem of_eq (h : Collecting s ts) (ht : Serving t) (htask : t.task = s.task)
    (hl : t.listener = s.listener) : Collecting t ts :=
  ⟨ht, htask.trans h.idle, hl ▸ h.collects⟩

theorem forget (h : Collecting s ts) : Collecting (forget s) [] :=
  ⟨h.serving.forget, h.idle, h.collects.topics, h.collects.capacity, rfl⟩

/-- A step is its cycle, and the message is kept if that fails. -/
theorem step (h : Collecting s ts) :
    s.step = (s.told, .ok s.emulator.cycle.2) ∧
      Collecting s.told (ts ++ (s.emulator.cycle.2.error.map Report.text).toList) := by
  have hb : s.emulator.Unbroken := Emulator.ending_ne_broken h.serving.wellFormed.regs.toInRange
  have hidle : s.told.task = none := by
    rw [Session.task_told, h.idle]
    exact ite_self _
  have hcount : s.told.countEnd = s.told := by
    rw [Session.countEnd, hidle]
  have hstep := Session.step_of_quiet (Session.quiet_of_passive h.serving.passive) hb
  rw [hcount] at hstep
  have hserving := h.serving.step
  rw [hstep] at hserving
  refine ⟨hstep, hserving, hidle, ?_⟩
  rw [Session.listener_told s hb]
  exact h.collects.block hb

/-- Of several cycles up to the first that fails, its message is kept. -/
theorem runCycles {e e' : Emulator} {n : Nat} {os : List Outcome} {error : Option Report}
    (hrun : e.RunsTo n os error e') (h : Collecting s ts) (he : s.emulator = e) :
    (runCycles n s).emulator = e' ∧
      Collecting (runCycles n s) (ts ++ (error.map Report.text).toList) := by
  induction hrun generalizing s ts with
  | stop =>
    rw [Option.map_none, Option.toList_none, List.append_nil]
    exact ⟨he, h⟩
  | @fail e n r hf =>
    subst he
    obtain ⟨hstep, hcollecting⟩ := h.step
    have herror : s.emulator.cycle.2.error = some r := by rw [Outcome.error, hf]
    rw [herror] at hcollecting
    simp only [Web.runCycles, hstep, herror, Option.isSome_some, ↓reduceIte]
    exact ⟨s.emulator_told, hcollecting⟩
  | next hd _ ih =>
    subst he
    obtain ⟨hstep, hcollecting⟩ := h.step
    have herror : s.emulator.cycle.2.error = none := by rw [Outcome.error, hd]
    rw [herror, Option.map_none, Option.toList_none, List.append_nil] at hcollecting
    simp only [Web.runCycles, hstep, herror, Option.isSome_none, Bool.false_eq_true, ↓reduceIte]
    exact ih hcollecting s.emulator_told

end Collecting

/-! ### What a history comes to -/

/-- What happens to the messages that wait. -/
inductive Mail where
  /-- A cycle has failed, and its message is to be fetched. -/
  | message (r : Report)
  /-- They are fetched, or forgotten. -/
  | emptied
  deriving DecidableEq

def Mail.text? : Mail → Option Text
  | message r => some r.text
  | emptied => none

/-- The messages since they were last fetched or forgotten. -/
def waiting (ms : List Mail) : List Text := (ms.rtakeWhile (· ≠ .emptied)).filterMap Mail.text?

theorem waiting_concat_emptied (ms : List Mail) : waiting (ms ++ [.emptied]) = [] := by
  simp [waiting]

theorem waiting_append_message (ms : List Mail) (error : Option Report) :
    waiting (ms ++ (error.map .message).toList) =
      waiting ms ++ (error.map Report.text).toList := by
  cases error with
  | none => simp
  | some r => simp [waiting, Mail.text?]

end Web

/-- The report of the first of some cycles that fails. -/
def Emulator.failure? : Nat → Emulator → Option Report
  | 0, _ => none
  | n + 1, e => e.cycle.2.error.or (e.cycle.1.failure? n)

theorem Emulator.RunsTo.failure?_eq {e e' : Emulator} {n : Nat} {os : List Outcome}
    {error : Option Report} (h : e.RunsTo n os error e') : e.failure? n = error := by
  induction h with
  | stop => rfl
  | fail hf => simp [Emulator.failure?, Outcome.error, hf]
  | next hd _ ih => simp [Emulator.failure?, Outcome.error, hd, ih]

namespace Web

/-- What a request with that response comes to for the messages. It counts only if it is accepted;
one for steps asks for cycles up to the first that fails. -/
def Request.mail? (q : Request) (s : Session) (r : Response) : Option Mail :=
  if r.status = 200 then
    match q.action with
    | .ok .step =>
      match fill stepForm q.body with
      | .ok n => (s.emulator.failure? n.toNat).map .message
      | .error _ => none
    | .ok .rom => some .emptied
    | .ok .reset => some .emptied
    | .ok .events => some .emptied
    | _ => none
  else none

def mail? (s : Session) : Event → Option Mail
  | .request q => q.mail? s (handle s q).2
  | .cycle => s.emulator.cycle.2.error.map .message

def mails : Session → List Event → List Mail
  | _, [] => []
  | s, e :: es => (mail? s e).toList ++ mails (meet s e) es

variable {s : Session}

theorem mails_concat (s : Session) (es : List Event) (e : Event) :
    mails s (es ++ [e]) = mails s es ++ (mail? (meetAll s es) e).toList := by
  induction es generalizing s with
  | nil => simp [mails, meetAll]
  | cons e' es ih =>
    rw [List.cons_append, mails, mails, ih, List.append_assoc]
    rfl

section
variable {q : Request} {r : Response} (h : r.status = 200)
include h

theorem mail?_of_forSteps {n : Int} (hq : q.ForSteps n) :
    q.mail? s r = (s.emulator.failure? n.toNat).map .message := by
  obtain ⟨ha, hform⟩ := hq
  simp only [Request.mail?, h, ha, hform, ↓reduceIte]

theorem mail?_of_emptying (ha : q.action ∈ [.ok .rom, .ok .reset, .ok .events]) :
    q.mail? s r = some .emptied := by
  simp only [List.mem_cons, List.not_mem_nil, or_false] at ha
  rcases ha with ha | ha | ha <;> simp only [Request.mail?, h, ha, ↓reduceIte]

end

namespace Collecting

variable {ms : List Mail} {q : Request} {r : Session × Response}

/-- The messages after a request, however it is handled. -/
theorem handled (h : Collecting s (waiting ms)) (hh : Handled s q r) :
    Collecting r.1 (waiting (ms ++ (q.mail? s r.2).toList)) := by
  have hs := h.serving.handled hh
  cases hh with
  | rejected r => simpa [Request.mail?, status_rejected_ne] using h
  | @step n hq =>
    obtain ⟨os, error, e', hrun⟩ :=
      Emulator.exists_runsTo h.serving.wellFormed.regs.toInRange n.toNat
    rw [mail?_of_forSteps rfl hq, hrun.failure?_eq, waiting_append_message]
    exact (h.runCycles hrun rfl).2
  | rom hq =>
    rw [mail?_of_emptying rfl (by simp [hq.1]), Option.toList_some, waiting_concat_emptied]
    exact h.forget.of_eq hs rfl rfl
  | reset ha | events ha =>
    rw [mail?_of_emptying rfl (by simp [ha]), Option.toList_some, waiting_concat_emptied]
    exact h.forget.of_eq hs rfl rfl
  | start ha | pause ha | key ha | clock ha | state ha | run ha =>
    have hmail : ∀ r : Response, q.mail? s r = none := by
      intro r
      simp [Request.mail?, ha]
    rw [hmail, Option.toList_none, List.append_nil]
    exact h.of_eq hs rfl rfl

/-- An event does to the messages what is said of it. -/
theorem meet (h : Collecting s (waiting ms)) (e : Event) :
    Collecting (meet s e) (waiting (ms ++ (mail? s e).toList)) := by
  cases e with
  | request q => exact h.handled (handled_handle s q)
  | cycle =>
    obtain ⟨hstep, hcollecting⟩ := h.step
    rw [Web.mail?, waiting_append_message, Web.meet, hstep]
    exact hcollecting

theorem meetAll (h : Collecting s []) (es : List Event) :
    Collecting (meetAll s es) (waiting (mails s es)) := by
  induction es using List.reverseRecOn with
  | nil => exact h
  | append_singleton es e ih =>
    rw [mails_concat, Web.meetAll, List.foldl_concat]
    exact ih.meet e

end Collecting

theorem collecting_newSession (threshold : Option Level) (source : Twister) :
    Collecting ((newSession threshold).withSource source) [] :=
  ⟨Serving.meetAll threshold source [], rfl, ⟨rfl, rfl, rfl⟩⟩

theorem messages_rtake (ts : List Text) (n : Nat) :
    messages ((ts.map .log).rtake n) = ts.rtake n := by
  have hlog : (ts.map Notice.log).rtake n = (ts.rtake n).map .log := by
    rw [List.rtake, List.rtake, List.length_map, List.map_drop]
  rw [hlog, messages, List.filterMap_map]
  exact List.filterMap_some

/-- Steps fail twice, before and after a run that fails as well and a request that is rejected. -/
example :
    let rom : List UInt8 := [0x60, 0x2A, 0x00, 0x01]
    let es := [.request (romRequest rom), .request (stepRequest 5), .request (runRequest rom 5),
      .request (stepRequest 0), .request (stepRequest 1)]
    waiting (mails (newSession none) es) =
      [.whole "Unknown command 0001", .whole "Unknown command 0001"] := by
  decide +kernel

end Web

end ChipEight
