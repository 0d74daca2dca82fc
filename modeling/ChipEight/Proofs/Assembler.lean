import ChipEight.Instr.Assembly
import Mathlib.Algebra.Group.Nat.Defs
import Mathlib.Data.Fintype.Basic
import Mathlib.Tactic.FinCases

/-!
# Assembly lines are read again

A line that was written for an instruction can be assembled again: its numerals are read
(`Numeral.value_padded`), then its operands (`Operand.read?_chars`), then the line as a whole
(`Assembly.read?_chars`), and the line says which instruction it was (`Instr.assemble?_chars`). The
readers take no care of other lines.
-/

namespace ChipEight

namespace Numeral

/-- The number that hexadecimal digits stand for, the highest first. -/
def value (cs : List Char) : Nat := cs.foldl (fun n c => 16 * n + (digitValue? c).getD 0) 0

theorem digitValue?_digit {n : Nat} (h : n < 16) : digitValue? (digit n) = some n := by
  have hall : ∀ n : Fin 16, digitValue? (digit n) = some n.val := by decide
  exact hall ⟨n, h⟩

theorem value_concat (cs : List Char) (n : Nat) :
    value (cs ++ [digit (n % 16)]) = 16 * value cs + n % 16 := by
  rw [value, List.foldl_concat, digitValue?_digit (Nat.mod_lt _ (by decide))]
  rfl

theorem value_significant (n : Nat) : value (significant n) = n := by
  induction n using significant.induct with
  | case1 => rw [significant]; rfl
  | case2 n h ih => rw [significant, if_neg h, value_concat, ih, Nat.div_add_mod]

theorem value_padded (k n : Nat) : value (padded k n) = n := by
  induction k generalizing n with
  | zero => exact value_significant n
  | succ k ih => rw [padded, value_concat, ih, Nat.div_add_mod]

theorem length_padded {k n : Nat} (h : n < 16 ^ k) : (padded k n).length = k := by
  induction k generalizing n with
  | zero =>
    obtain rfl : n = 0 := by omega
    rw [padded, significant]; rfl
  | succ k ih =>
    rw [padded, List.length_append, ih (Nat.div_lt_of_lt_mul (by rwa [Nat.pow_succ'] at h))]
    rfl

theorem digit_ne_comma {n : Nat} (h : n < 16) : digit n ≠ ',' := by
  have hall : ∀ n : Fin 16, digit n ≠ ',' := by decide
  exact hall ⟨n, h⟩

theorem comma_notMem_significant (n : Nat) : ',' ∉ significant n := by
  induction n using significant.induct with
  | case1 => rw [significant]; nofun
  | case2 n h ih =>
    rw [significant, if_neg h, List.mem_append, List.mem_singleton, not_or]
    exact ⟨ih, (digit_ne_comma (Nat.mod_lt _ (by decide))).symm⟩

theorem comma_notMem_padded (k n : Nat) : ',' ∉ padded k n := by
  induction k generalizing n with
  | zero => exact comma_notMem_significant n
  | succ k ih =>
    rw [padded, List.mem_append, List.mem_singleton, not_or]
    exact ⟨ih _, (digit_ne_comma (Nat.mod_lt _ (by decide))).symm⟩

end Numeral

namespace Operand

/-- The last hexadecimal digit of a number. -/
def nibble (n : Nat) : Fin 16 := ⟨n % 16, Nat.mod_lt _ (by decide)⟩

theorem nibble_val (n : Fin 16) : nibble n.val = n := Fin.ext (Nat.mod_eq_of_lt n.isLt)

/-- Reads what is written for an operand. -/
def read? : List Char → Option Operand
  | 'V' :: cs => some (reg (nibble (Numeral.value cs)))
  | '0' :: 'x' :: cs =>
    if cs.length = 2 then some (byte (UInt8.ofNat (Numeral.value cs)))
    else some (target ⟨Numeral.value cs % 4096, Nat.mod_lt _ (by decide)⟩)
  | ['I'] => some index
  | ['[', 'I', ']'] => some atIndex
  | ['D', 'T'] => some delay
  | ['S', 'T'] => some sound
  | ['K'] => some key
  | ['F'] => some glyph
  | ['B'] => some decimal
  | [c] => (Numeral.digitValue? c).map fun n => count (nibble n)
  | [_, c] => (Numeral.digitValue? c).map fun n => count (nibble (10 + n))
  | _ => none

theorem read?_chars (o : Operand) : read? o.chars = some o := by
  cases o with
  | reg x =>
    have hread : read? (reg x).chars =
        some (reg (nibble (Numeral.value (Numeral.padded 1 x.val)))) := rfl
    rw [hread, Numeral.value_padded, nibble_val]
  | byte k =>
    have hread : read? (byte k).chars =
        if (Numeral.padded 2 k.toNat).length = 2 then
          some (byte (UInt8.ofNat (Numeral.value (Numeral.padded 2 k.toNat))))
        else _ := rfl
    rw [hread, if_pos (Numeral.length_padded k.toNat_lt), Numeral.value_padded, UInt8.ofNat_toNat]
  | target t =>
    have hread : read? (target t).chars =
        if (Numeral.padded 3 t.val).length = 2 then _
        else some (target ⟨Numeral.value (Numeral.padded 3 t.val) % 4096,
          Nat.mod_lt _ (by decide)⟩) := rfl
    have hlength : (Numeral.padded 3 t.val).length = 3 := Numeral.length_padded t.isLt
    have ht : (⟨t.val % 4096, Nat.mod_lt _ (by decide)⟩ : Target) = t :=
      Fin.ext (Nat.mod_eq_of_lt t.isLt)
    simp only [hread, hlength, Numeral.value_padded, ht]
    rfl
  | count n => fin_cases n <;> rfl
  | _ => rfl

theorem comma_notMem_chars (o : Operand) : ',' ∉ o.chars := by
  cases o with
  | reg x => exact List.not_mem_cons_of_ne_of_not_mem (by decide) (Numeral.comma_notMem_padded 1 _)
  | byte k =>
    refine List.not_mem_cons_of_ne_of_not_mem (by decide) ?_
    exact List.not_mem_cons_of_ne_of_not_mem (by decide) (Numeral.comma_notMem_padded 2 _)
  | target t =>
    refine List.not_mem_cons_of_ne_of_not_mem (by decide) ?_
    exact List.not_mem_cons_of_ne_of_not_mem (by decide) (Numeral.comma_notMem_padded 3 _)
  | count n => fin_cases n <;> decide
  | _ => decide

end Operand

namespace Assembly

/-- Operands set apart by commas, with a blank before each. -/
def operandField (os : List Operand) : List Char :=
  [','].intercalate (os.map fun o => ' ' :: o.chars)

theorem operandField_cons (o : Operand) (os : List Operand) :
    operandField (o :: os) = ' ' :: operandChars (o :: os) := by
  induction os generalizing o with
  | nil => simp [operandField, operandChars]
  | cons p os ih =>
    have hrest : operandField (o :: p :: os) = ' ' :: o.chars ++ ',' :: operandField (p :: os) := by
      simp [operandField, List.intercalate_cons_cons]
    rw [hrest, ih]
    rfl

theorem chars_eq (a : Assembly) : a.chars = a.name.toList ++ operandField a.operands := by
  obtain ⟨name, os⟩ := a
  cases os with
  | nil => exact (List.append_nil _).symm
  | cons o os => rw [operandField_cons]; rfl

theorem takeWhile_operandField (os : List Operand) :
    (operandField os).takeWhile (· != ' ') = [] := by
  cases os with
  | nil => rfl
  | cons o os => rw [operandField_cons]; rfl

theorem dropWhile_operandField (os : List Operand) :
    (operandField os).dropWhile (· != ' ') = operandField os := by
  cases os with
  | nil => rfl
  | cons o os => rw [operandField_cons]; rfl

def readOperands? : List Char → Option (List Operand)
  | [] => some []
  | cs => (cs.splitOn ',').mapM fun f => Operand.read? f.tail

theorem readOperands?_operandField (os : List Operand) :
    readOperands? (operandField os) = some os := by
  cases os with
  | nil => rfl
  | cons o os =>
    have hcomma : ∀ f ∈ (o :: os).map fun o => ' ' :: o.chars, ',' ∉ f := by
      simp [Operand.comma_notMem_chars]
    have hread : ((fun f : List Char => Operand.read? f.tail) ∘ fun o : Operand => ' ' :: o.chars) =
        fun o => pure (id o) := funext Operand.read?_chars
    have hcons : readOperands? (operandField (o :: os)) =
        ((operandField (o :: os)).splitOn ',').mapM fun f => Operand.read? f.tail := by
      rw [operandField_cons]; rfl
    rw [hcons, operandField, List.splitOn_intercalate ',' hcomma (List.cons_ne_nil _ _),
      List.mapM_map, hread, List.mapM_pure, List.map_id]
    rfl

section
variable {a : Assembly} (h : ' ' ∉ a.name.toList)
include h

theorem ne_blank_of_mem_name : ∀ c ∈ a.name.toList, (c != ' ') = true := fun _ hc =>
  bne_iff_ne.2 fun he => h (he ▸ hc)

theorem takeWhile_chars : a.chars.takeWhile (· != ' ') = a.name.toList := by
  rw [chars_eq, List.takeWhile_append_of_pos (ne_blank_of_mem_name h), takeWhile_operandField,
    List.append_nil]

theorem dropWhile_chars : a.chars.dropWhile (· != ' ') = operandField a.operands := by
  rw [chars_eq, List.dropWhile_append_of_pos (ne_blank_of_mem_name h), dropWhile_operandField]

end

/-- Reads a line: the name up to the first blank, and the operands behind it. -/
def read? (cs : List Char) : Option Assembly :=
  (readOperands? (cs.dropWhile (· != ' '))).map fun os =>
    ⟨String.ofList (cs.takeWhile (· != ' ')), os⟩

theorem read?_chars {a : Assembly} (h : ' ' ∉ a.name.toList) : read? a.chars = some a := by
  rw [read?, dropWhile_chars h, takeWhile_chars h, readOperands?_operandField, String.ofList_toList]
  rfl

/-- The instruction that a line writes. -/
def instr? (a : Assembly) : Option Instr :=
  match a.name, a.operands with
  | "CLS", [] => some .clear
  | "RET", [] => some .ret
  | "JP", [.target t] => some (.jump t)
  | "CALL", [.target t] => some (.call t)
  | "SE", [.reg x, .byte k] => some (.skipIfByte x k)
  | "SNE", [.reg x, .byte k] => some (.skipUnlessByte x k)
  | "SE", [.reg x, .reg y] => some (.skipIfEqual x y)
  | "LD", [.reg x, .byte k] => some (.loadByte x k)
  | "ADD", [.reg x, .byte k] => some (.addByte x k)
  | "LD", [.reg x, .reg y] => some (.copy x y)
  | "OR", [.reg x, .reg y] => some (.bitOr x y)
  | "AND", [.reg x, .reg y] => some (.bitAnd x y)
  | "XOR", [.reg x, .reg y] => some (.bitXor x y)
  | "ADD", [.reg x, .reg y] => some (.add x y)
  | "SUB", [.reg x, .reg y] => some (.sub x y)
  | "SHR", [.reg x] => some (.shiftRight x)
  | "SUBN", [.reg x, .reg y] => some (.subFrom x y)
  | "SHL", [.reg x] => some (.shiftLeft x)
  | "SNE", [.reg x, .reg y] => some (.skipUnlessEqual x y)
  | "LD", [.index, .target t] => some (.loadIndex t)
  | "JP", [.reg _, .target t] => some (.jumpOffset t)
  | "RND", [.reg x, .byte k] => some (.random x k)
  | "DRW", [.reg x, .reg y, .count n] => some (.draw x y n)
  | "SKP", [.reg x] => some (.skipIfKey x)
  | "SKNP", [.reg x] => some (.skipUnlessKey x)
  | "LD", [.reg x, .delay] => some (.readDelay x)
  | "LD", [.reg x, .key] => some (.awaitKey x)
  | "LD", [.delay, .reg x] => some (.setDelay x)
  | "LD", [.sound, .reg x] => some (.setSound x)
  | "ADD", [.index, .reg x] => some (.addIndex x)
  | "LD", [.glyph, .reg x] => some (.loadGlyph x)
  | "LD", [.decimal, .reg x] => some (.storeDecimal x)
  | "LD", [.atIndex, .reg x] => some (.store x)
  | "LD", [.reg x, .atIndex] => some (.load x)
  | _, _ => none

end Assembly

namespace Instr

theorem instr?_assembly (i : Instr) : i.assembly.instr? = some i := by
  cases i <;> rfl

/-- The name of an operation consists of capital letters. -/
theorem isUpper_name (i : Instr) : i.assembly.name.toList.all Char.isUpper = true := by
  cases i <;> dsimp only [assembly] <;> decide

theorem isUpper_of_mem_name {i : Instr} {c : Char} (h : c ∈ i.assembly.name.toList) :
    c.isUpper = true :=
  List.all_eq_true.1 i.isUpper_name c h

theorem blank_notMem_name (i : Instr) : ' ' ∉ i.assembly.name.toList := fun h =>
  absurd (isUpper_of_mem_name h) (by decide)

/-- Reads the line of an instruction. -/
def assemble? (cs : List Char) : Option Instr := (Assembly.read? cs).bind Assembly.instr?

theorem assemble?_chars (i : Instr) : assemble? i.assembly.chars = some i := by
  rw [assemble?, Assembly.read?_chars i.blank_notMem_name, Option.bind_some, instr?_assembly]

end Instr

end ChipEight
