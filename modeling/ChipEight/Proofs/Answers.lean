import ChipEight.Proofs.Messages

/-!
# Answers

A request that is rejected leaves the session as it is. One that is accepted is answered with a
document, and the documents that tell of the session, its messages and runs can always be sent
(`Web.Handled.sendable`): they hold no numbers but integers, no text with half a surrogate pair, and
few arrays and objects in each other. So what cannot be sent was rejected, and has changed nothing
either (`Web.handle_rejected`).
-/

namespace ChipEight

namespace Json

/-- A value does not keep a document from being sent, with room for so many arrays and objects in
each other. -/
structure Sendable (room : Nat) (v : Json) : Prop where
  writable : v.unwritable? room = none
  whole : ∀ g : Gauge, g.run = none → (v.write Gauge.sink g).run = none

variable {room : Nat} {v : Json} {vs : List Json} {ms : List (Text × Json)}

theorem Sendable.flaw?_eq (h : Sendable room v) : v.flaw? room = none := by
  rw [flaw?, h.writable, h.whole .empty rfl]
  rfl

theorem sendable_null : Sendable room .null := ⟨rfl, fun _ hg => hg⟩

theorem sendable_int (z : Int) : Sendable room (.int z) := ⟨rfl, fun _ hg => hg⟩

theorem sendable_str (s : String) : Sendable room (.str s) := ⟨rfl, fun _ hg => hg⟩

theorem sendable_orNull {α : Type} {f : α → Json} (h : ∀ a, Sendable room (f a)) (a? : Option α) :
    Sendable room (.orNull f a?) := by
  cases a? with
  | none => exact sendable_null
  | some a => exact h a

/-! ### Arrays -/

theorem unwritableItem?_eq_none (h : ∀ v ∈ vs, Sendable room v) :
    unwritableItem? room vs = none := by
  induction vs with
  | nil => rfl
  | cons v vs ih =>
    rw [unwritableItem?, (h v List.mem_cons_self).writable]
    exact ih fun v' hv' => h v' (List.mem_cons_of_mem _ hv')

theorem run_writeItems (h : ∀ v ∈ vs, Sendable room v) {g : Gauge} (hg : g.run = none) :
    (writeItems Gauge.sink g vs).run = none := by
  induction vs generalizing g with
  | nil => rwa [writeItems]
  | cons v vs ih =>
    have hv := (h v List.mem_cons_self).whole (Gauge.sink.text g ",") hg
    rw [writeItems]
    exact ih (fun v' hv' => h v' (List.mem_cons_of_mem _ hv')) hv

theorem sendable_arr (h : ∀ v ∈ vs, Sendable room v) : Sendable (room + 1) (.arr vs) := by
  refine ⟨by rw [unwritable?, unwritableItem?_eq_none h], fun g hg => ?_⟩
  cases vs with
  | nil => rwa [write]
  | cons v vs =>
    have hv := (h v List.mem_cons_self).whole (Gauge.sink.text g "[") hg
    have hvs := run_writeItems (fun v' hv' => h v' (List.mem_cons_of_mem _ hv')) hv
    rw [write]
    exact hvs

/-! ### Objects -/

/-- A key is written as it stands, and its value can be sent. -/
def SendableMember (room : Nat) (m : Text × Json) : Prop :=
  (∃ s : String, m.1 = s) ∧ Sendable room m.2

theorem unwritableMember?_eq_none (h : ∀ m ∈ ms, SendableMember room m) :
    unwritableMember? room ms = none := by
  induction ms with
  | nil => rfl
  | cons m ms ih =>
    rw [unwritableMember?, (h m List.mem_cons_self).2.writable]
    exact ih fun m' hm' => h m' (List.mem_cons_of_mem _ hm')

theorem SendableMember.run {m : Text × Json} (h : SendableMember room m) {g : Gauge}
    (hg : g.run = none) :
    (write Gauge.sink (Gauge.sink.text (writeText Gauge.sink g m.1) ":") m.2).run = none := by
  obtain ⟨⟨s, hs⟩, hv⟩ := h
  rw [hs]
  exact hv.whole _ hg

theorem run_writeMembers (h : ∀ m ∈ ms, SendableMember room m) {g : Gauge} (hg : g.run = none) :
    (writeMembers Gauge.sink g ms).run = none := by
  induction ms generalizing g with
  | nil => rwa [writeMembers]
  | cons m ms ih =>
    have hm := (h m List.mem_cons_self).run (g := Gauge.sink.text g ",") hg
    rw [writeMembers]
    exact ih (fun m' hm' => h m' (List.mem_cons_of_mem _ hm')) hm

theorem sendable_obj (h : ∀ m ∈ ms, SendableMember room m) : Sendable (room + 1) (.obj ms) := by
  refine ⟨by rw [unwritable?, unwritableMember?_eq_none h], fun g hg => ?_⟩
  cases ms with
  | nil => rwa [write]
  | cons m ms =>
    have hm := (h m List.mem_cons_self).run (g := Gauge.sink.text g "\x7b") hg
    have hms := run_writeMembers (fun m' hm' => h m' (List.mem_cons_of_mem _ hm')) hm
    rw [write]
    exact hms

theorem sendable_record {ms : List (String × Json)} (h : ∀ m ∈ ms, Sendable room m.2) :
    Sendable (room + 1) (.record ms) := by
  refine sendable_obj fun m hm => ?_
  obtain ⟨m', hm', rfl⟩ := List.mem_map.1 hm
  exact ⟨⟨m'.1, rfl⟩, h m' hm'⟩

theorem sendable_ints (zs : List Int) : Sendable (room + 1) (.ints zs) := by
  refine sendable_arr fun v hv => ?_
  obtain ⟨z, -, rfl⟩ := List.mem_map.1 hv
  exact sendable_int z

theorem sendable_strs (ss : List String) : Sendable (room + 1) (.strs ss) := by
  refine sendable_arr fun v hv => ?_
  obtain ⟨s, -, rfl⟩ := List.mem_map.1 hv
  exact sendable_str s

end Json

open Json

/-! ### Documents -/

variable {room : Nat}

theorem Registers.sendable_document (r : Registers) : Sendable (room + 2) r.document := by
  refine sendable_record ?_
  simp only [Registers.members, List.forall_mem_cons]
  exact ⟨sendable_ints _, sendable_int _, sendable_int _, sendable_ints _, sendable_int _,
    sendable_int _, nofun⟩

theorem Report.sendable_document (r : Report) : Sendable (room + 1) r.document := by
  refine sendable_record ?_
  simp only [List.forall_mem_cons]
  refine ⟨sendable_str _, sendable_str _, sendable_int _, ?_, nofun⟩
  cases r.opcode with
  | none => exact sendable_null
  | some s => exact sendable_str s

theorem Outcome.sendable_document (o : Outcome) : Sendable (room + 1) o.document := by
  refine sendable_record ?_
  simp only [Outcome.members, List.forall_mem_cons]
  exact ⟨sendable_int _, sendable_int _, sendable_orNull sendable_str _, sendable_str _, nofun⟩

theorem RunResult.sendable_document (r : RunResult) : Sendable (room + 3) r.document := by
  have htrace : Sendable (room + 2) (.arr (r.trace.map Outcome.document)) := by
    refine sendable_arr fun v hv => ?_
    obtain ⟨o, -, rfl⟩ := List.mem_map.1 hv
    exact o.sendable_document
  refine sendable_record ?_
  simp only [List.forall_mem_append, List.forall_mem_cons]
  refine ⟨⟨sendable_str _, sendable_int _, r.regs.sendable_document, sendable_strs _, htrace,
    nofun⟩, ?_⟩
  cases r.error with
  | none => nofun
  | some e =>
    simp only [List.forall_mem_cons]
    exact ⟨e.sendable_document, nofun⟩

namespace Web

theorem View.sendable_document (v : View) : Sendable (room + 3) v.document := by
  refine sendable_record ?_
  simp only [List.forall_mem_cons]
  exact ⟨sendable_str _, sendable_int _, sendable_int _, v.regs.sendable_document,
    sendable_strs _, sendable_orNull Report.sendable_document _, nofun⟩

theorem sendable_messages {ts : List Text} (h : ∀ t ∈ ts, ∃ s : String, t = s) :
    Sendable (room + 2) (.record [("log", .arr (ts.map .str))]) := by
  have hlog : Sendable (room + 1) (.arr (ts.map .str)) := by
    refine sendable_arr fun v hv => ?_
    obtain ⟨t, ht, rfl⟩ := List.mem_map.1 hv
    obtain ⟨s, rfl⟩ := h t ht
    exact sendable_str s
  refine sendable_record ?_
  simp only [List.forall_mem_cons]
  exact ⟨hlog, nofun⟩

/-! ### Answers -/

theorem Response.sent_eq {r : Response} {d : Json} (hd : r.document? = some d)
    (h : Sendable Response.documentRoom d) : r.sent = .ok (some d) := by
  rw [sent, hd, Option.bind_some, h.flaw?_eq]

theorem sendable_refused (r : Refusal) :
    Sendable (room + 1) (detail (.str r.message)) := by
  refine sendable_record ?_
  simp only [List.forall_mem_cons]
  exact ⟨sendable_str _, nofun⟩

/-- The messages that a session holds are texts of characters. -/
def Legible (s : Session) : Prop :=
  ∀ t ∈ messages s.listener.inbox.items.toList, ∃ m : String, t = m

theorem legible_meetAll (threshold : Option Level) (source : Twister) (es : List Event) :
    Legible (meetAll ((newSession threshold).withSource source) es) := by
  have h := (collecting_newSession threshold source).meetAll es
  intro t ht
  rw [h.collects.items, messages_rtake] at ht
  obtain ⟨m, -, hm⟩ := List.mem_filterMap.1 (List.mem_of_mem_drop ht)
  cases m with
  | message r => exact ⟨r.message, (Option.some.inj hm).symm⟩
  | emptied => cases hm

namespace Handled

variable {s : Session} {q : Request} {r : Session × Response}

theorem eq_of_status_ne (h : Handled s q r) (hr : r.2.status ≠ 200) : r.1 = s := by
  cases h with
  | rejected => rfl
  | _ => exact absurd rfl hr

theorem sendable (h : Handled s q r) (hs : Legible s) (hr : r.2.status = 200) :
    ∃ d, r.2.document? = some d ∧ Sendable Response.documentRoom d := by
  have hstate (v : View) : Sendable Response.documentRoom v.document :=
    View.sendable_document v
  cases h with
  | rejected r => exact absurd hr (status_rejected_ne r)
  | run => exact ⟨_, rfl, RunResult.sendable_document _⟩
  | events => exact ⟨_, rfl, sendable_messages hs⟩
  | _ => exact ⟨_, rfl, hstate _⟩

end Handled

/-- A request that is rejected leaves all of the session as it is, whatever the session is. So does
a look at its state, and a run on a machine of its own changes the journal alone. In service an
answer that cannot be sent is a rejection, so that leaves the session as it is as well. -/
theorem handle_rejected (s : Session) (q : Request) :
    let t := (handle s q).1
    let r := (handle s q).2
    (r.status ≠ 200 → t = s) ∧
      (q.action = .ok .state → t = s) ∧
      (q.action = .ok .run → t = { s with journal := t.journal }) ∧
      ∀ threshold source es, s = meetAll ((newSession threshold).withSource source) es →
        ∀ f, r.sent = .error f → t = s := by
  intro t r
  have h := handled_handle s q
  refine ⟨h.eq_of_status_ne, fun ha => ?_, fun ha => ?_, fun threshold source es hs f hf => ?_⟩
  · show (handle s q).1 = s
    rw [handle, ha]
    rfl
  · show (handle s q).1 = { s with journal := (handle s q).1.journal }
    generalize handle s q = r at h
    cases h with
    | rejected | run | state => rfl
    | rom hq | step hq => cases ha.symm.trans hq.1
    | start ha' | pause ha' | reset ha' | key ha' | clock ha' | events ha' =>
      cases ha.symm.trans ha'
  · refine h.eq_of_status_ne fun hstatus => ?_
    obtain ⟨d, hd, hsendable⟩ := h.sendable (hs ▸ legible_meetAll threshold source es) hstatus
    have hsent : r.sent = .ok (some d) := by
      rw [Response.sent, hd, Option.bind_some, hsendable.flaw?_eq]
    rw [hsent] at hf
    cases hf

/-- A value that is not a number is given back in a rejection that cannot be sent. -/
example :
    let q : Request := ⟨"POST", "/api/rom", .json (.record [("hex", .notANumber)])⟩
    let r := (handle (newSession none) q).2
    r.status = 422 ∧ r.document?.bind (Json.flaw? Response.documentRoom) = some .notFinite := by
  decide +kernel

end Web

end ChipEight
