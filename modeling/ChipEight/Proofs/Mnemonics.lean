import ChipEight.Proofs.Assembler
import ChipEight.Proofs.Exec

/-!
# What is written of a word

The text of a word says all that matters about it: words with the same text do the same to every
machine, and the text begins with question marks exactly if the word has no instruction
(`Word.exec_eq_of_description_eq`). The reason is that the line of an instruction can be assembled
again, and never begins with a question mark.
-/

namespace ChipEight

/-- A line begins with the name of an operation, which is made of letters. -/
theorem Instr.head?_chars_ne (i : Instr) : i.assembly.chars.head? ≠ some '?' := by
  intro h
  obtain ⟨cs, hcs⟩ := List.head?_eq_some_iff.1 h
  have hname := Assembly.takeWhile_chars i.blank_notMem_name
  rw [hcs, List.takeWhile_cons_of_pos (by decide)] at hname
  have hmem : '?' ∈ i.assembly.name.toList := hname ▸ List.mem_cons_self
  exact absurd (isUpper_of_mem_name hmem) (by decide)

namespace Word

variable {w w' : Word}

theorem chars_injective (h : w.chars = w'.chars) : w = w' := by
  have hval := congrArg Numeral.value h
  rw [chars, chars, Numeral.value_padded, Numeral.value_padded] at hval
  exact Word.ext hval

theorem undefined_iff (w : Word) (m : Machine) :
    (∃ f, (w.exec m).2 = .error (.fault f) ∧ f.kind = .undefined) ↔ Instr.ofWord? w = none := by
  unfold exec
  cases Instr.ofWord? w with
  | none => exact iff_of_true ⟨_, rfl, rfl⟩ rfl
  | some i => exact iff_of_false (fun ⟨_, h, hkind⟩ => Instr.kind_ne_undefined h hkind) nofun

theorem questioned_iff (w : Word) : "???".toList <+: w.describe ↔ Instr.ofWord? w = none := by
  unfold describe
  cases Instr.ofWord? w with
  | none => exact iff_of_true ⟨_, rfl⟩ rfl
  | some i =>
    refine iff_of_false (fun ⟨cs, hcs⟩ => i.head?_chars_ne ?_) nofun
    have hchars : "???".toList ++ cs = i.assembly.chars := hcs
    rw [← hchars]
    rfl

theorem exec_eq_of_describe_eq (h : w.describe = w'.describe) (m : Machine) :
    w.exec m = w'.exec m := by
  have hnone : Instr.ofWord? w = none ↔ Instr.ofWord? w' = none := by
    rw [← questioned_iff, ← questioned_iff, h]
  cases hi : Instr.ofWord? w with
  | none =>
    -- The machine is told which word it was, so here the digits in the text matter.
    have hi' := hnone.1 hi
    simp only [describe, hi, hi', List.cons.injEq, true_and] at h
    rw [chars_injective h]
  | some i =>
    obtain ⟨i', hi'⟩ := Option.ne_none_iff_exists'.1 (mt hnone.2 (hi ▸ nofun))
    simp only [describe, hi, hi'] at h
    have hread := congrArg Instr.assemble? h
    rw [Instr.assemble?_chars, Instr.assemble?_chars] at hread
    rw [exec, exec, hi, hi', hread]

/-- Words that are described alike do the same to every machine and end alike. A description begins
with question marks exactly if the word fails, on any machine, for want of an instruction. -/
theorem exec_eq_of_description_eq (z z' : Int) :
    ((ofInt z).description = (ofInt z').description →
      ∀ m : Machine, (ofInt z).exec m = (ofInt z').exec m) ∧
    ∀ m : Machine, "???".toList <+: (ofInt z).description.toList ↔
      ∃ f, ((ofInt z).exec m).2 = .error (.fault f) ∧ f.kind = .undefined := by
  refine ⟨fun h => exec_eq_of_describe_eq (String.ofList_injective h), fun m => ?_⟩
  rw [undefined_iff, ← questioned_iff, description]
  simp only [String.toList_ofList]

/-- A shift says nothing of its third digit, at which it does not look. -/
theorem exec_eq_of_description_eq_shift :
    (ofInt 0x8126).describe = "SHR V1".toList ∧
      (ofInt 0x8126).description = (ofInt (-0x7E5A)).description ∧
      ∀ m : Machine, (ofInt 0x8126).exec m = (ofInt (-0x7E5A)).exec m := by
  have htext : (ofInt 0x8126).describe = "SHR V1".toList := by decide +kernel
  have htext' : (ofInt (-0x7E5A)).describe = "SHR V1".toList := by decide +kernel
  have hdescription := congrArg String.ofList (htext.trans htext'.symm)
  exact ⟨htext, hdescription, (exec_eq_of_description_eq _ _).1 hdescription⟩

end Word

end ChipEight
