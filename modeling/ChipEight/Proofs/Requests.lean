import ChipEight.Proofs.Encodings
import ChipEight.Web.Request

/-!
# What requests ask for

`Request.ForRom`, `Request.ForSteps` and `Request.ForRun` say of a request that it puts a program in
its place, asks for a number of cycles, or asks for a run of a program on a new machine. However
that is written, there is always a way to write it (`Request.forRom_romRequest` and what follows).
-/

namespace ChipEight

namespace Web

theorem between_int {low high z : Int} (h : low ≤ z ∧ z ≤ high) :
    between low high (.int z) = .ok z := by
  have hlow : ¬ z < low := by omega
  have hhigh : ¬ high < z := by omega
  simp only [between, atLeast, integer, bind, Except.bind, hlow, hhigh, ↓reduceIte]

theorem orNull_int {α : Type} {r : Reading α} {z : Int} {a : α} (h : r (.int z) = .ok a) :
    orNull r (.int z) = .ok (some a) := by
  rw [orNull, h]
  · rfl
  · nofun

namespace Form

variable {α β : Type} {place : List String} {j : Json}

theorem optional_of_member {name : String} {v : Json} {r : Reading α} {a : α}
    (hv : j.member? name = some v) (hr : r v = .ok a) (default : α) :
    optional name default r place j = .ok a := by
  simp only [optional, hv, hr]
  rfl

theorem both_of_ok {f : Form α} {g : Form β} {a : α} {b : β} (hf : f place j = .ok a)
    (hg : g place j = .ok b) : f.both g place j = .ok (a, b) := by
  simp only [both, hf, hg]

end Form

/-! ### Programs -/

namespace RomText

variable {rom : List UInt8}

theorem bytes_of_hex {text : String} (h : text.toList.map Char.toLower = HexBytes.encode rom)
    (base64 : Option Text) :
    (RomText.mk (some text) base64).bytes =
      if programRoom < rom.length then .error .romTooLarge else .ok rom := by
  simp only [bytes, Text.points, HexBytes.decode_of_toLower h]
  rfl

theorem bytes_of_base64 (rom : List UInt8) :
    (RomText.mk none (some (String.ofList (Base64.encode rom)))).bytes =
      if programRoom < rom.length then .error .romTooLarge else .ok rom := by
  simp only [bytes, Text.string?, Option.bind_some, String.toList_ofList, Base64.decode_encode]

end RomText

/-! ### Requests and how they are written -/

namespace Request

/-- Puts a program in its place. -/
def ForRom (q : Request) (rom : List UInt8) : Prop :=
  q.action = .ok .rom ∧ ∃ t, fill romForm q.body = .ok t ∧ t.bytes = .ok rom

/-- Asks for so many cycles. -/
def ForSteps (q : Request) (n : Int) : Prop := q.action = .ok .step ∧ fill stepForm q.body = .ok n

/-- Asks for a run of so many cycles, with options or without. -/
def ForRun (q : Request) (rom : List UInt8) (n : Int) (o : Options) : Prop :=
  q.action = .ok .run ∧ ∃ t, fill runForm q.body = .ok ⟨t, some n, o⟩ ∧ t.bytes = .ok rom

end Request

/-- The member for a program in hexadecimal. -/
def hexMember (rom : List UInt8) : String × Json :=
  ("hex", .ofString (String.ofList (HexBytes.encode rom)))

def romRequest (rom : List UInt8) : Request := ⟨"POST", "/api/rom", .json (.record [hexMember rom])⟩

def stepRequest (n : Int) : Request := ⟨"POST", "/api/step", .json (.record [("count", .int n)])⟩

def runRequest (rom : List UInt8) (n : Int) : Request :=
  ⟨"POST", "/api/run", .json (.record [hexMember rom, ("steps", .int n)])⟩

namespace Request

variable {rom : List UInt8} {n : Int}

theorem action_of_atPath {q : Request} {a : Action} (h : Action.atPath? q.path = some a)
    (hm : q.method = a.method) : q.action = .ok a := by
  simp only [action, h, hm, ↓reduceIte]

theorem atPath?_eq_some :
    Action.atPath? "/api/rom" = some .rom ∧ Action.atPath? "/api/step" = some .step ∧
      Action.atPath? "/api/run" = some .run := by
  decide +kernel

theorem bytes_hex (h : rom.length ≤ programRoom) :
    (RomText.mk (some (String.ofList (HexBytes.encode rom))) none).bytes = .ok rom := by
  have htext : (String.ofList (HexBytes.encode rom)).toList.map Char.toLower =
      HexBytes.encode rom := by
    rw [String.toList_ofList, HexBytes.toLower_encode]
  rw [RomText.bytes_of_hex htext, if_neg (Nat.not_lt.2 h)]

theorem forRom_romRequest (h : rom.length ≤ programRoom) : (romRequest rom).ForRom rom := by
  exact ⟨action_of_atPath atPath?_eq_some.1 rfl, _, rfl, bytes_hex h⟩

theorem forSteps_stepRequest (h : 1 ≤ n ∧ n ≤ 100000) : (stepRequest n).ForSteps n := by
  refine ⟨action_of_atPath atPath?_eq_some.2.1 rfl, ?_⟩
  have hform : stepForm ["body"] (.record [("count", .int n)]) = .ok n :=
    Form.optional_of_member rfl (between_int h) 1
  exact congrArg (Except.mapError Rejection.invalid) hform

theorem forRun_runRequest (h : rom.length ≤ programRoom) (hn : 1 ≤ n ∧ n ≤ 1000000) :
    (runRequest rom n).ForRun rom n {} := by
  refine ⟨action_of_atPath atPath?_eq_some.2.2 rfl, _, ?_, bytes_hex h⟩
  have hform : (romForm.both <| (Form.optional "steps" none (orNull (between 1 1000000))).both <|
      Form.optionalObject "options" optionsForm) ["body"]
        (.record [hexMember rom, ("steps", .int n)]) =
          .ok (⟨some (String.ofList (HexBytes.encode rom)), none⟩, some n, none) :=
    Form.both_of_ok rfl <| Form.both_of_ok
      (Form.optional_of_member rfl (orNull_int (between_int hn)) none) rfl
  have hrun : runForm ["body"] (.record [hexMember rom, ("steps", .int n)]) =
      .ok ⟨⟨some (String.ofList (HexBytes.encode rom)), none⟩, some n, {}⟩ := by
    rw [runForm, Form.map, hform]
    rfl
  exact congrArg (Except.mapError Rejection.invalid) hrun

end Request

end Web

end ChipEight
