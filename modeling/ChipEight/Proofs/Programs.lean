import ChipEight.Proofs.Answers

/-!
# Programs in two encodings

A program may be sent in hexadecimal or in base64, and nothing depends on which of the two it is
(`Web.encodings_agree`). One that fits is in memory as a whole then, with zeros behind it; one that
does not is refused, so that nothing is ever cut off.
-/

namespace ChipEight

namespace Machine

/-- There are zeros where programs go when the machine has just been switched on. -/
theorem drop_powerOn (m : Machine) {n : Nat} (h : Memory.programStart ≤ n) :
    m.powerOn.mem.toList.drop n = List.replicate (memorySize - n) 0 := by
  have hfont : Memory.fontStart + Memory.font.length ≤ Memory.programStart := by decide
  rw [Memory.drop_toList, List.eq_replicate_iff]
  refine ⟨by simp, fun b hb => ?_⟩
  obtain ⟨k, -, rfl⟩ := List.mem_map.1 hb
  exact Memory.peek_loadFont m.mem (by omega)

/-- A program that fits is in memory as a whole, and zeros are behind it. -/
theorem drop_loadRom (m : Machine) {rom : List UInt8} (h : rom.length ≤ programRoom) :
    (m.powerOn.loadRom rom).mem.toList.drop Memory.programStart =
      rom ++ List.replicate (programRoom - rom.length) 0 := by
  have hfits : Memory.programStart + rom.length ≤ memorySize := by
    have hroom : Memory.programStart + programRoom = memorySize := by decide
    omega
  calc (m.powerOn.loadRom rom).mem.toList.drop Memory.programStart
      = rom ++ m.powerOn.mem.toList.drop (Memory.programStart + rom.length) :=
        Memory.drop_place m.powerOn.mem hfits
    _ = rom ++ List.replicate (programRoom - rom.length) 0 := by
        rw [m.drop_powerOn (Nat.le_add_right ..), Nat.sub_add_eq]

end Machine

namespace Json

variable {key key' : String} {v : Json} {more : List (Text × Json)}

theorem member?_cons_self : (obj ((.whole key, v) :: more)).member? key = some v := by
  simp [member?]

theorem member?_cons_of_ne (h : key ≠ key') :
    (obj ((.whole key, v) :: more)).member? key' = (obj more).member? key' := by
  simp [member?, h]

theorem member?_eq_none (h : ∀ m ∈ more, m.1 ≠ .whole key) : (obj more).member? key = none := by
  simpa [member?] using h

end Json

namespace Web

/-! ### Forms -/

section
variable {place : List String} {key key' text : String} {more : List (Text × Json)} {t : RomText}

theorem optional_text_cons_self :
    Form.optional key none (orNull Web.text) place (.obj ((.whole key, .ofString text) :: more)) =
      .ok (some text) := by
  rw [Form.optional, Json.member?_cons_self]
  rfl

theorem optional_text_cons_of_ne (h : key ≠ key') (hmore : ∀ m ∈ more, m.1 ≠ .whole key') :
    Form.optional key' none (orNull Web.text) place (.obj ((.whole key, .ofString text) :: more)) =
      .ok none := by
  rw [Form.optional, Json.member?_cons_of_ne h, Json.member?_eq_none hmore]

theorem romForm_hex (hmore : ∀ m ∈ more, m.1 ≠ .whole "base64") :
    romForm place (.obj ((.whole "hex", .ofString text) :: more)) = .ok ⟨some text, none⟩ := by
  rw [romForm, Form.map, Form.both_of_ok optional_text_cons_self
    (optional_text_cons_of_ne (by decide) hmore)]
  rfl

theorem romForm_base64 (hmore : ∀ m ∈ more, m.1 ≠ .whole "hex") :
    romForm place (.obj ((.whole "base64", .ofString text) :: more)) = .ok ⟨none, some text⟩ := by
  rw [romForm, Form.map, Form.both_of_ok (optional_text_cons_of_ne (by decide) hmore)
    optional_text_cons_self]
  rfl

/-- What a run needs besides its program. -/
def termsForm : Form (Option Int × Option Options) :=
  (Form.optional "steps" none (orNull (between 1 1000000))).both
    (Form.optionalObject "options" optionsForm)

theorem termsForm_cons (hkey : key ≠ "steps" ∧ key ≠ "options") (v : Json) :
    termsForm place (.obj ((.whole key, v) :: more)) = termsForm place (.obj more) := by
  simp only [termsForm, Form.both, Form.optional, Form.optionalObject,
    Json.member?_cons_of_ne hkey.1, Json.member?_cons_of_ne hkey.2]

/-- The terms of a run are read from the other members alone. -/
theorem runForm_eq (hkey : key ≠ "steps" ∧ key ≠ "options")
    (ht : romForm place (.obj ((.whole key, .ofString text) :: more)) = .ok t) :
    runForm place (.obj ((.whole key, .ofString text) :: more)) =
      (termsForm.map fun (steps, options) => ⟨t, steps, options.getD {}⟩) place (.obj more) := by
  have hterms : termsForm place (.obj ((.whole key, .ofString text) :: more)) =
      termsForm place (.obj more) := termsForm_cons hkey _
  rw [runForm, Form.map, Form.map, Form.both, ht, ← termsForm, hterms]
  cases termsForm place (.obj more) with
  | error cs => rfl
  | ok terms => rfl

end

/-! ### Requests -/

/-- A request that posts a text under a key, and other members. -/
def posting (path key text : String) (more : List (Text × Json)) : Request :=
  ⟨"POST", path, .json (.obj ((.whole key, .ofString text) :: more))⟩

section
variable {key key' text text' : String} {more : List (Text × Json)} {t t' : RomText}
  {rom : List UInt8}

theorem handle_posting_rom (ht : romForm ["body"] (.obj [(.whole key, .ofString text)]) = .ok t)
    (hbytes : t.bytes = if programRoom < rom.length then .error .romTooLarge else .ok rom)
    (s : Session) :
    handle s (posting "/api/rom" key text []) =
      if programRoom < rom.length then reject s (.refused .romTooLarge)
      else showState ((forget ((restart s).loadRom rom)).note [.romReceived rom.length]) := by
  have haction : (posting "/api/rom" key text []).action = .ok .rom :=
    Request.action_of_atPath Request.atPath?_eq_some.1 rfl
  have hfill : fill romForm (posting "/api/rom" key text []).body = .ok t :=
    congrArg (Except.mapError Rejection.invalid) ht
  simp only [handle, haction, act, withForm, hfill, withRom, hbytes]
  by_cases h : programRoom < rom.length
  · rw [if_pos h, if_pos h]
  · rw [if_neg h, if_neg h]

theorem handle_posting_run (hkey : key ≠ "steps" ∧ key ≠ "options")
    (hkey' : key' ≠ "steps" ∧ key' ≠ "options")
    (ht : romForm ["body"] (.obj ((.whole key, .ofString text) :: more)) = .ok t)
    (ht' : romForm ["body"] (.obj ((.whole key', .ofString text') :: more)) = .ok t')
    (hbytes : t.bytes = t'.bytes) (s : Session) :
    handle s (posting "/api/run" key text more) = handle s (posting "/api/run" key' text' more) := by
  have haction (key text : String) : (posting "/api/run" key text more).action = .ok .run :=
    Request.action_of_atPath Request.atPath?_eq_some.2.2 rfl
  have hnest : (Json.obj ((.whole key, .ofString text) :: more)).nestsWithin bodyRoom =
      (Json.obj ((.whole key', .ofString text') :: more)).nestsWithin bodyRoom := rfl
  rw [handle, handle, haction, haction]
  simp only [act, withForm, posting, fill, fillFrom, hnest, runForm_eq hkey ht,
    runForm_eq hkey' ht', Form.map]
  by_cases hroom : (Json.obj ((.whole key', .ofString text') :: more)).nestsWithin bodyRoom
  · rw [if_pos hroom, if_pos hroom]
    cases termsForm ["body"] (.obj more) with
    | error cs => rfl
    | ok terms =>
      show withRom s t _ = withRom s t' _
      simp only [withRom, hbytes]
  · rw [if_neg hroom, if_neg hroom]

end

/-- A program that is sent in hexadecimal, with each digit in either case, and one that is sent in
base64 come to the same: the same answer, and the same session. If the program fits, it is in memory
as a whole and zeros are behind it; else the request is refused and the session stays as it is. A
run, with any other members in the request, has the same answer in both encodings as well. -/
theorem encodings_agree (s : Session) (rom : List UInt8) (text : String)
    (h : text.toList.map Char.toLower = HexBytes.encode rom) :
    let base64 := String.ofList (Base64.encode rom)
    let q := posting "/api/rom" "hex" text []
    let t := (handle s q).1
    let r := (handle s q).2
    handle s (posting "/api/rom" "base64" base64 []) = (t, r) ∧
      r.sent = .ok r.document? ∧
      (r.status = 200 ↔ rom.length ≤ 3584) ∧
      (rom.length ≤ 3584 →
        r = .state (.of t.emulator) ∧
          t.emulator.machine.mem.toList.drop 0x200 =
            rom ++ List.replicate (3584 - rom.length) 0) ∧
      (3584 < rom.length → r.status = 400 ∧ t = s) ∧
      ∀ more : List (Text × Json), (∀ m ∈ more, m.1 ≠ .whole "hex" ∧ m.1 ≠ .whole "base64") →
        handle s (posting "/api/run" "hex" text more) =
          handle s (posting "/api/run" "base64" base64 more) := by
  intro base64 q t r
  have hhex := RomText.bytes_of_hex h none
  have hbase64 := RomText.bytes_of_base64 rom
  have hq : handle s q = _ := handle_posting_rom (romForm_hex nofun) hhex s
  have hq' := handle_posting_rom (romForm_base64 nofun) hbase64 s
  have hrun : ∀ more : List (Text × Json),
      (∀ m ∈ more, m.1 ≠ .whole "hex" ∧ m.1 ≠ .whole "base64") →
        handle s (posting "/api/run" "hex" text more) =
          handle s (posting "/api/run" "base64" base64 more) := fun more hmore =>
    handle_posting_run (by decide) (by decide) (romForm_hex fun m hm => (hmore m hm).2)
      (romForm_base64 fun m hm => (hmore m hm).1) (hhex.trans hbase64.symm) s
  refine ⟨hq'.trans hq.symm, ?_⟩
  rcases Nat.lt_or_ge programRoom rom.length with hlarge | hfits
  · rw [if_pos hlarge] at hq
    have hr : r = .rejected (.refused .romTooLarge) := congrArg Prod.snd hq
    have ht : t = s := congrArg Prod.fst hq
    rw [hr]
    have hnot : ¬ rom.length ≤ 3584 := Nat.not_le.2 hlarge
    exact ⟨Response.sent_eq rfl (sendable_refused _), iff_of_false (by decide) hnot,
      fun hle => absurd hle hnot, fun _ => ⟨rfl, ht⟩, hrun⟩
  · rw [if_neg (Nat.not_lt.2 hfits)] at hq
    have ht : t.emulator = s.emulator.pause.powerOn.loadRom rom :=
      congrArg (fun p => p.1.emulator) hq
    have hr : r = .state (.of t.emulator) := by
      rw [ht]
      exact congrArg Prod.snd hq
    have hmem : t.emulator.machine.mem.toList.drop 0x200 =
        rom ++ List.replicate (3584 - rom.length) 0 := by
      rw [ht]
      exact s.emulator.machine.drop_loadRom hfits
    rw [hr]
    exact ⟨Response.sent_eq rfl (View.sendable_document _), iff_of_true rfl hfits,
      fun _ => ⟨rfl, hmem⟩, fun hlt => absurd hfits (Nat.not_le.2 hlt), hrun⟩

theorem encodings_agree_mixed :
    "6aA0".toList.map Char.toLower = HexBytes.encode [0x6A, 0xA0] ∧
      handle (newSession none) (posting "/api/rom" "base64" "aqA=" []) =
        handle (newSession none) (posting "/api/rom" "hex" "6aA0" []) :=
  ⟨by decide, (encodings_agree (newSession none) [0x6A, 0xA0] "6aA0" (by decide)).1⟩

end Web

end ChipEight
