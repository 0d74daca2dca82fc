import ChipEight.Proofs.Files
import Mathlib.Data.Int.Bitwise

/-!
# Programs as words

`Word.image` writes integers down as a program: of each the low sixteen bits, in two bytes, the high
one first. A machine that has loaded it fetches at each address the word that was written there
(`Machine.fetch_image`), as long as there is memory for it. The digits of a word are what masks and
shifts take out of it (`Word.digits_eq_masked`), and make up the word again (`Word.val_eq_digits`).
-/

namespace ChipEight

/-- To mask an integer is to take its remainder, also below zero. -/
theorem land_mask (z : Int) (n : Nat) : z.land ((2 ^ n - 1 : Nat) : Int) = z % 2 ^ n := by
  cases z with
  | ofNat m =>
    have h : Int.land (.ofNat m) ((2 ^ n - 1 : Nat) : Int) =
        ((m &&& (2 ^ n - 1) : Nat) : Int) := rfl
    rw [h, Nat.and_two_pow_sub_one_eq_mod]
    simp
  | negSucc m =>
    -- The bits of a negative integer are those of its complement, turned over.
    have h : Int.land (.negSucc m) ((2 ^ n - 1 : Nat) : Int) =
        (Nat.ldiff (2 ^ n - 1) m : Int) := rfl
    have hlt : m % 2 ^ n < 2 ^ n := Nat.mod_lt _ (Nat.two_pow_pos n)
    have hbits : Nat.ldiff (2 ^ n - 1) m = 2 ^ n - (m % 2 ^ n + 1) := by
      refine Nat.eq_of_testBit_eq fun i => ?_
      rw [Nat.testBit_ldiff, Nat.testBit_two_pow_sub_succ hlt, Nat.testBit_two_pow_sub_one,
        Nat.testBit_mod_two_pow]
      cases decide (i < n) <;> simp
    have hpow : (2 : Int) ^ n = ((2 ^ n : Nat) : Int) := (Nat.cast_pow 2 n).symm
    rw [h, hbits, hpow, Int.negSucc_emod _ (Int.natCast_pos.2 (Nat.two_pow_pos n))]
    omega

namespace Word

variable (w : Word) (z : Int)

theorem val_ofInt : ((ofInt z).val : Int) = z % 65536 :=
  Int.toNat_of_nonneg (Int.emod_nonneg z (by decide))

/-- A digit is what is left of a word that is masked and shifted. -/
theorem masked_shifted (v k : Nat) : (v &&& (15 <<< k)) >>> k = v / 2 ^ k % 16 := by
  rw [Nat.shiftRight_and_distrib, Nat.shiftLeft_shiftRight, Nat.shiftRight_eq_div_pow]
  exact Nat.and_two_pow_sub_one_eq_mod _ 4

theorem digits_eq_masked :
    w.group.val = (w.val &&& 0xF000) >>> 12 ∧ w.x.val = (w.val &&& 0x0F00) >>> 8 ∧
      w.y.val = (w.val &&& 0x00F0) >>> 4 ∧ w.n.val = w.val &&& 0x000F ∧
      w.nnn.val = w.val &&& 0x0FFF ∧ w.kk.toNat = w.val &&& 0x00FF := by
  have hgroup : w.val / 2 ^ 12 % 16 = w.val / 4096 := Nat.mod_eq_of_lt (by have := w.isLt; omega)
  have hkk : w.kk.toNat = w.val % 2 ^ 8 := Nat.mod_eq_of_lt (by omega)
  refine ⟨?_, (masked_shifted w.val 8).symm, (masked_shifted w.val 4).symm,
    (Nat.and_two_pow_sub_one_eq_mod w.val 4).symm, (Nat.and_two_pow_sub_one_eq_mod w.val 12).symm,
    ?_⟩
  · exact hgroup.symm.trans (masked_shifted w.val 12).symm
  · exact hkk.trans (Nat.and_two_pow_sub_one_eq_mod w.val 8).symm

theorem val_eq_digits :
    w.val = 4096 * w.group + 256 * w.x + 16 * w.y + w.n ∧ w.val = 4096 * w.group + w.nnn ∧
      w.nnn.val = 256 * w.x + w.kk.toNat ∧ w.kk.toNat = 16 * w.y + w.n := by
  simp only [group, x, y, n, nnn, kk, UInt8.toNat_ofNat']
  omega

/-! ### Images -/

/-- The low sixteen bits of an integer in two bytes, the high one first. -/
def bytes (z : Int) : List UInt8 :=
  [UInt8.ofInt (z % 65536 / 256), UInt8.ofInt (z % 65536 % 256)]

/-- The program that is made of the low sixteen bits of integers. -/
def image (zs : List Int) : List UInt8 := zs.flatMap bytes

theorem length_image (zs : List Int) : (image zs).length = 2 * zs.length := by
  induction zs with
  | nil => rfl
  | cons z zs ih =>
    rw [image, List.flatMap_cons, List.length_append, List.length_cons, ← image, ih]
    exact Nat.add_comm ..

/-- Each integer has its two bytes in the image, behind those of the integers before it. -/
theorem getElem?_image {zs : List Int} {k : Nat} {z : Int} (h : zs[k]? = some z) :
    (image zs)[2 * k]? = some (UInt8.ofInt (z % 65536 / 256)) ∧
      (image zs)[2 * k + 1]? = some (UInt8.ofInt (z % 65536 % 256)) := by
  induction zs generalizing k with
  | nil => cases h
  | cons z' zs ih =>
    cases k with
    | zero =>
      cases h
      exact ⟨rfl, rfl⟩
    | succ k => exact ih h

/-- The two bytes of an integer make up its word again. -/
theorem ofBytes_bytes (z : Int) :
    ofBytes (UInt8.ofInt (z % 65536 / 256)) (UInt8.ofInt (z % 65536 % 256)) = ofInt z := by
  have hhigh : 0 ≤ z % 65536 / 256 ∧ z % 65536 / 256 < 256 := by omega
  have hlow : 0 ≤ z % 65536 % 256 ∧ z % 65536 % 256 < 256 := by omega
  refine Word.ext ?_
  simp only [ofBytes, ofInt, toNat_ofInt hhigh, toNat_ofInt hlow]
  omega

theorem ofParts_toNat (high low : UInt8) : ofParts high.toNat low.toNat = ofBytes high low := by
  rw [ofParts, ofInt_toNat, ofInt_toNat]

end Word

namespace Machine

/-- The machine is about to fetch at an address. -/
def goTo (m : Machine) (a : Int) : Machine := { m with regs := { m.regs with pc := a } }

theorem fetch_goTo (m : Machine) {a : Nat} (h : a + 1 < memorySize) :
    (m.goTo a).fetch = .ok (.ofBytes (m.mem.peek a) (m.mem.peek (a + 1))) := by
  have hin : 0 ≤ (a : Int) ∧ (a : Int) + 1 < memorySize := by omega
  exact (m.mem.readWord_eq a).trans (if_pos hin)

/-- What is loaded is found behind the start of programs, as far as memory goes. -/
theorem peek_loadRom_of_getElem? (m : Machine) {rom : List UInt8} {j : Nat} {b : UInt8}
    (hb : rom[j]? = some b) (hj : j < programRoom) :
    (m.loadRom rom).mem.peek (Memory.programStart + j) = b := by
  have hsize : Memory.programStart + programRoom = memorySize := by decide
  obtain ⟨hlt, rfl⟩ := List.getElem?_eq_some_iff.1 hb
  rw [loadRom, Memory.peek_place, if_pos (by omega), Nat.add_sub_cancel_left,
    ← List.getElem_eq_getD]

/-- A program of words is written as far as there is room for it, and fetched as it was written: the
word at each address is that of the integer there, and is made of its two bytes. The word of any
integer is congruent to it, and its digits, which are what masks and shifts take out of it, make it
up again. -/
theorem fetch_image (m : Machine) (zs : List Int) :
    let rom := Word.image zs
    let m' := m.loadRom rom
    (m.mem.load 0x200 rom = (m'.mem, .ok (min (2 * zs.length) 3584)) ∧
      RomLoad.of rom = ⟨min (2 * zs.length) 3584, 2 * zs.length⟩) ∧
      (∀ k, 2 * k + 2 ≤ min (2 * zs.length) 3584 →
        ∃ z high low, zs[k]? = some z ∧ rom[2 * k]? = some high ∧ rom[2 * k + 1]? = some low ∧
          (m'.goTo (0x200 + 2 * k)).fetch = .ok (.ofInt z) ∧
          Word.ofParts high.toNat low.toNat = .ofInt z) ∧
      ∀ z : Int,
        let w := Word.ofInt z
        ((w.val : Int) = z.land 0xFFFF ∧ (w.val : Int) % 65536 = z % 65536) ∧
          (w.group.val = (w.val &&& 0xF000) >>> 12 ∧ w.x.val = (w.val &&& 0x0F00) >>> 8 ∧
            w.y.val = (w.val &&& 0x00F0) >>> 4 ∧ w.n.val = w.val &&& 0x000F ∧
            w.nnn.val = w.val &&& 0x0FFF ∧ w.kk.toNat = w.val &&& 0x00FF) ∧
          (w.val = 4096 * w.group + 256 * w.x + 16 * w.y + w.n ∧
            w.val = 4096 * w.group + w.nnn ∧ w.nnn.val = 256 * w.x + w.kk.toNat ∧
            w.kk.toNat = 16 * w.y + w.n) ∧
          w.group.val ≤ 15 ∧ w.x.val ≤ 15 ∧ w.y.val ≤ 15 ∧ w.n.val ≤ 15 := by
  intro rom m'
  have hlength : rom.length = 2 * zs.length := Word.length_image zs
  have hroom : programRoom = 3584 := by decide
  refine ⟨⟨?_, ?_⟩, fun k hk => ?_, fun z => ?_⟩
  · rw [← hlength, ← hroom]
    exact m.load_programStart rom
  · rw [RomLoad.of, hlength, hroom]
  · obtain ⟨z, hz⟩ : ∃ z, zs[k]? = some z := ⟨_, List.getElem?_eq_getElem (by omega)⟩
    obtain ⟨hhigh, hlow⟩ := Word.getElem?_image hz
    refine ⟨z, _, _, hz, hhigh, hlow, ?_, ?_⟩
    · have hfetch := m'.fetch_goTo (a := Memory.programStart + 2 * k)
        (by simp only [Memory.programStart, memorySize]; omega)
      rw [m.peek_loadRom_of_getElem? hhigh (by omega), Nat.add_assoc,
        m.peek_loadRom_of_getElem? hlow (by omega), Word.ofBytes_bytes] at hfetch
      exact hfetch
    · rw [Word.ofParts_toNat, Word.ofBytes_bytes]
  · intro w
    have hval : (w.val : Int) = z % 65536 := Word.val_ofInt z
    refine ⟨⟨hval.trans (land_mask z 16).symm, ?_⟩, w.digits_eq_masked, w.val_eq_digits, ?_⟩
    · rw [hval, Int.emod_emod]
    · exact ⟨Nat.le_of_lt_succ w.group.isLt, Nat.le_of_lt_succ w.x.isLt,
        Nat.le_of_lt_succ w.y.isLt, Nat.le_of_lt_succ w.n.isLt⟩

end Machine

end ChipEight
