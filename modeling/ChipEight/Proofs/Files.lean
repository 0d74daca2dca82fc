import ChipEight.Proofs.Memory
import ChipEight.Proofs.Requests

/-!
# Programs in files

A program in a file is loaded as any other program is, or not at all: it is refused where it would
be cut off, and also where it would take the last byte of memory (`Machine.loadFile_iff_written`).
So one size fits everywhere but in a file (`Machine.loadFile_of_full`).
-/

namespace ChipEight

variable {rom : List UInt8}

/-- A file is accepted if it leaves a byte of the room for programs free. -/
theorem FileLoad.of_some (rom : List UInt8) :
    FileLoad.of (some rom) =
      if rom.length < programRoom then .loaded rom.length else .refused rom.length := by
  have hiff : memorySize ≤ rom.length + Memory.programStart ↔ ¬ rom.length < programRoom := by
    have hroom : programRoom + Memory.programStart = memorySize := by decide
    omega
  unfold FileLoad.of
  simp only [hiff, ite_not]

theorem FileLoad.of_some_eq_loaded_iff :
    FileLoad.of (some rom) = .loaded rom.length ↔ rom.length < programRoom := by
  rw [of_some]
  split <;> simp [*]

namespace Machine

theorem load_programStart (m : Machine) (rom : List UInt8) :
    m.mem.load Memory.programStart rom =
      ((m.loadRom rom).mem, .ok (min rom.length programRoom)) := by
  have hholds : Memory.Holds memorySize (Memory.programStart : Int) := by decide
  rw [Memory.load, if_pos hholds]
  rfl

theorem load_eq_length_iff (m : Machine) :
    (m.mem.load Memory.programStart rom).2 = .ok rom.length ↔ rom.length ≤ programRoom := by
  rw [load_programStart, Except.ok.injEq]
  omega

theorem loadFile_some (m : Machine) (rom : List UInt8) :
    m.loadFile (some rom) = if rom.length < programRoom then m.loadRom rom else m := by
  unfold loadFile
  rw [FileLoad.of_some]
  by_cases h : rom.length < programRoom
  · simp only [h, if_true]
  · simp only [h, if_false]

theorem peek_powerOn (m : Machine) : m.powerOn.mem.peek Memory.programStart = 0 := by
  have hfont : Memory.fontStart + Memory.font.length ≤ Memory.programStart := by decide
  exact Memory.peek_loadFont m.mem hfont

theorem peek_loadRom (m : Machine) {b : UInt8} (bs : List UInt8) :
    (m.loadRom (b :: bs)).mem.peek Memory.programStart = b := by
  have hin : Memory.programStart ≤ Memory.programStart ∧
      Memory.programStart < Memory.programStart + (b :: bs).length ∧
      Memory.programStart < memorySize :=
    ⟨Nat.le_refl _, Nat.lt_add_of_pos_right (Nat.succ_pos _), by decide⟩
  unfold loadRom
  rw [Memory.peek_place, if_pos hin, Nat.sub_self, List.getD_cons_zero]

end Machine

theorem Web.RomText.bytes_eq_ok_iff :
    (RomText.mk none (some (String.ofList (Base64.encode rom)))).bytes = .ok rom ↔
      rom.length ≤ programRoom := by
  rw [bytes_of_base64]
  split <;> simp <;> omega

namespace Machine

/-- A program in a file is loaded exactly if it would be written as a whole, as a program that comes
over the web always is, and does not fill the room for programs up to the end. The machine is then
as after any other load of that program. If the program is refused, or if there is no file, nothing
happens to the machine. -/
theorem loadFile_iff_written (m : Machine) (rom : List UInt8) :
    (m.mem.load 0x200 rom).1 = (m.loadRom rom).mem ∧
      ((m.mem.load 0x200 rom).2 = .ok rom.length ↔ rom.length ≤ 4096 - 0x200) ∧
      ((Web.RomText.mk none (some (String.ofList (Base64.encode rom)))).bytes = .ok rom ↔
        rom.length ≤ 4096 - 0x200) ∧
      (FileLoad.of (some rom) = .loaded rom.length ↔
        (m.mem.load 0x200 rom).2 = .ok rom.length ∧ rom.length ≠ 4096 - 0x200) ∧
      (FileLoad.of (some rom) = .loaded rom.length ∧ m.loadFile (some rom) = m.loadRom rom ∨
        FileLoad.of (some rom) = .refused rom.length ∧ m.loadFile (some rom) = m) ∧
      FileLoad.of none = .missing ∧ m.loadFile none = m := by
  have hwhole : (m.mem.load 0x200 rom).2 = .ok rom.length ↔ rom.length ≤ 4096 - 0x200 :=
    m.load_eq_length_iff
  refine ⟨congrArg Prod.fst (m.load_programStart rom), hwhole, Web.RomText.bytes_eq_ok_iff, ?_, ?_,
    rfl, rfl⟩
  · rw [hwhole, FileLoad.of_some_eq_loaded_iff]
    exact Nat.lt_iff_le_and_ne
  · rw [FileLoad.of_some, m.loadFile_some]
    split
    · exact .inl ⟨rfl, rfl⟩
    · exact .inr ⟨rfl, rfl⟩

/-- A program that fills memory up to the end is written as a whole, but not from a file. -/
theorem loadFile_of_full :
    let rom : List UInt8 := List.replicate 3584 0x60
    let m := new none none
    rom.length ≤ 4096 - 0x200 ∧ (m.mem.load 0x200 rom).2 = .ok rom.length ∧
      FileLoad.of (some rom) = .refused rom.length ∧ m.loadFile (some rom) ≠ m.loadRom rom := by
  intro rom m
  have hlength : rom.length = programRoom := by rw [List.length_replicate]; rfl
  have hle : rom.length ≤ programRoom := Nat.le_of_eq hlength
  have hnot : ¬ rom.length < programRoom := Nat.not_lt.2 (Nat.le_of_eq hlength.symm)
  have hblank : m.mem.peek Memory.programStart = 0 := peek_powerOn _
  have hbyte : (m.loadRom rom).mem.peek Memory.programStart = 0x60 :=
    m.peek_loadRom (List.replicate 3583 0x60)
  refine ⟨hle, m.load_eq_length_iff.2 hle, ?_, fun h => ?_⟩
  · rw [FileLoad.of_some, if_neg hnot]
  · rw [m.loadFile_some, if_neg hnot] at h
    rw [← h, hblank] at hbyte
    cases hbyte

end Machine

end ChipEight
