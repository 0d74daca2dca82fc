import ChipEight.Proofs.Requests
import ChipEight.Web.Service

/-!
# How requests are handled

`Web.Handled` lists what a request can come to: it is rejected and nothing is done, or it has an
action, and a form where one is needed, and the action is carried out. Every request comes to one of
these (`Web.handled_handle`).
-/

namespace ChipEight.Web

/-- The ways in which a request is handled, what becomes of the session, and the response. -/
inductive Handled (s : Session) (q : Request) : Session × Response → Prop
  | rejected (r : Rejection) : Handled s q (s, .rejected r)
  | rom {rom : List UInt8} (h : q.ForRom rom) :
      Handled s q
        (showState ((forget ((restart s).loadRom rom)).note [.romReceived rom.length]))
  | step {n : Int} (h : q.ForSteps n) : Handled s q (showState (runCycles n.toNat s))
  | start (h : q.action = .ok .start) : Handled s q (showState (s.onEmulator .start))
  | pause (h : q.action = .ok .pause) : Handled s q (showState (s.onEmulator .pause))
  | reset (h : q.action = .ok .reset) : Handled s q (showState (forget (restart s)))
  | key {code : Int} {pressed : Bool} (h : q.action = .ok .key) :
      Handled s q (showState (s.onKeys fun k => (k.setCode code).setPressed pressed))
  | clock {hz : Int} (h : q.action = .ok .clock) (hform : fill clockForm q.body = .ok hz) :
      Handled s q (showState (s.setClock hz))
  | state (h : q.action = .ok .state) : Handled s q (showState s)
  | events (h : q.action = .ok .events) :
      Handled s q (forget s, .events (messages s.listener.inbox.items.toList))
  | run {rom : List UInt8} {steps : Option Int} {o : Options} (h : q.action = .ok .run) :
      Handled s q
        ({ s with journal := (Batch.run rom steps o s.journal).2 },
          .result (Batch.run rom steps o s.journal).1)

theorem status_rejected_ne (r : Rejection) : (Response.rejected r).status ≠ 200 := by
  cases r with
  | refused r => cases r <;> decide
  | moved => decide
  | invalid cs => exact Nat.succ_ne_succ_iff.2 (by decide)

section
variable {s : Session} {q : Request}

theorem handled_withForm {α : Type} {form : Form α} {use : α → Session × Response}
    (huse : ∀ a, fill form q.body = .ok a → Handled s q (use a)) :
    Handled s q (withForm s form q.body use) := by
  unfold withForm
  split
  · next a ha => exact huse a ha
  · exact .rejected _

theorem handled_withRom {t : RomText} {use : List UInt8 → Session × Response}
    (huse : ∀ rom, t.bytes = .ok rom → Handled s q (use rom)) : Handled s q (withRom s t use) := by
  unfold withRom
  split
  · next rom hrom => exact huse rom hrom
  · exact .rejected _

end

theorem handled_handle (s : Session) (q : Request) : Handled s q (handle s q) := by
  unfold handle
  cases ha : q.action with
  | error r => exact .rejected r
  | ok a =>
    cases a with
    | rom =>
      refine handled_withForm fun t ht => handled_withRom fun rom hrom => ?_
      exact .rom ⟨ha, t, ht, hrom⟩
    | step => exact handled_withForm fun n hn => .step ⟨ha, hn⟩
    | start => exact .start ha
    | pause => exact .pause ha
    | reset => exact .reset ha
    | key => exact handled_withForm fun _ _ => .key ha
    | clock => exact handled_withForm fun hz hhz => .clock ha hhz
    | state => exact .state ha
    | events => exact .events ha
    | run => exact handled_withForm fun order _ => handled_withRom fun rom _ => .run ha

end ChipEight.Web
