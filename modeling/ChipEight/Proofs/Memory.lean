import ChipEight.Memory

/-!
# What moving a run of bytes does

`Memory.peek` is the byte at an address, and zero past the end. Moving `n` bytes from `a` on ends
with the fault `runFault size a n`, whichever way they are moved: there is none unless some byte
falls outside of memory, and then it names the first address that does. The bytes before that
address have been moved all the same (`readRun_fst`, `peek_storeRun`). A load moves those that fit
(`place_eq_storeRun`), and leaves what is behind them (`drop_place`).
-/

namespace ChipEight

theorem toNat_ofInt {z : Int} (h : 0 ≤ z ∧ z < 256) : (UInt8.ofInt z).toNat = z.toNat := by
  simp [UInt8.ofInt]; omega

theorem ofInt_toNat (b : UInt8) : UInt8.ofInt b.toNat = b := by
  have hb := b.toNat_lt
  have hmod : ((b.toNat : Int) % 2 ^ 8).toNat = b.toNat := by omega
  rw [UInt8.ofInt, hmod, UInt8.ofNat_toNat]

namespace Memory

variable {size : Nat} {m m' : Memory size} {a j n : Nat}

/-- The byte at an address, and zero past the end of memory. -/
def peek (m : Memory size) (a : Nat) : UInt8 := m.bytes[a]?.getD 0

theorem peek_of_lt (m : Memory size) (h : a < size) : m.peek a = m.bytes[a] := by
  simp [peek, h]

theorem peek_of_le (m : Memory size) (h : size ≤ a) : m.peek a = 0 := by
  simp [peek, h]

theorem ext_peek (h : ∀ a < size, m.peek a = m'.peek a) : m = m' := by
  refine Memory.ext (Vector.ext fun a ha => ?_)
  rw [← peek_of_lt m ha, ← peek_of_lt m' ha]
  exact h a ha

theorem holds_natCast : Holds size (a : Int) ↔ a < size := by
  unfold Holds; omega

theorem peek_put (m : Memory size) (h : Holds size (a : Int)) (b : UInt8) (j : Nat) :
    (m.put a h b).peek j = if j = a then b else m.peek j := by
  have ha := holds_natCast.1 h
  by_cases hj : j < size
  · rw [peek_of_lt _ hj, peek_of_lt m hj]
    simp only [put, Int.toNat_natCast, Vector.getElem_set, eq_comm]
  · have hne : j ≠ a := by omega
    rw [peek_of_le _ (Nat.le_of_not_lt hj), peek_of_le m (Nat.le_of_not_lt hj), if_neg hne]

theorem read_eq (m : Memory size) (a : Int) :
    m.read a = if Holds size a then .ok (m.peek a.toNat) else .error (.badAddress a) := by
  by_cases h : Holds size a
  · rw [if_pos h, read, dif_pos h, peek_of_lt m h.toNat_lt]
  · rw [if_neg h, read, dif_neg h]

theorem read_natCast (m : Memory size) (a : Nat) :
    m.read a = if a < size then .ok (m.peek a) else .error (.badAddress a) := by
  simp only [read_eq, holds_natCast, Int.toNat_natCast]

theorem readWord_eq (m : Memory size) (a : Int) :
    m.readWord a =
      if 0 ≤ a ∧ a + 1 < size then .ok (.ofBytes (m.peek a.toNat) (m.peek (a.toNat + 1)))
      else .error (.outOfProgram a) := by
  by_cases h : 0 ≤ a ∧ a + 1 < size
  · have hnext : a.toNat + 1 < size := by omega
    have hfirst : a.toNat < size := Nat.lt_of_succ_lt hnext
    rw [if_pos h, readWord, dif_pos h, peek_of_lt m hnext, peek_of_lt m hfirst]
  · rw [if_neg h, readWord, dif_neg h]

/-! ### Runs -/

/-- The fault that ends moving `n` bytes from `a` on. -/
def runFault (size a n : Nat) : Option Fault :=
  if n = 0 ∨ a + n ≤ size then none else some (.badAddress (max a size : Nat))

/-- The fault is the same as seen from the next address, after a byte that is in memory. -/
theorem runFault_succ (h : a < size) : runFault size a (n + 1) = runFault size (a + 1) n := by
  have hmax : max a size = max (a + 1) size := by omega
  have hiff : (n + 1 = 0 ∨ a + (n + 1) ≤ size) ↔ (n = 0 ∨ a + 1 + n ≤ size) := by omega
  simp only [runFault, hmax, hiff]

theorem runFault_of_le (h : size ≤ a) : runFault size a (n + 1) = some (.badAddress a) := by
  have hmax : max a size = a := by omega
  have hnot : ¬ (n + 1 = 0 ∨ a + (n + 1) ≤ size) := by omega
  simp only [runFault, hmax, hnot, ↓reduceIte]

theorem runFault_eq_none_iff : runFault size a n = none ↔ n = 0 ∨ a + n ≤ size := by
  unfold runFault; split <;> simp [*]

theorem readRun_snd (m : Memory size) (a n : Nat) : (m.readRun a n).2 = runFault size a n := by
  induction n generalizing a with
  | zero => rfl
  | succ n ih =>
    by_cases h : a < size
    · simp only [readRun, read_natCast, h, ↓reduceIte]
      rw [runFault_succ h, ← ih (a + 1)]
      rfl
    · simp only [readRun, read_natCast, h, ↓reduceIte]
      rw [runFault_of_le (Nat.le_of_not_lt h)]

theorem readRun_fst (m : Memory size) (a n : Nat) :
    (m.readRun a n).1 = (List.range (min n (size - a))).map fun k => m.peek (a + k) := by
  induction n generalizing a with
  | zero => simp [readRun]
  | succ n ih =>
    by_cases h : a < size
    · have hmin : min (n + 1) (size - a) = min n (size - (a + 1)) + 1 := by omega
      simp only [readRun, read_natCast, h, ↓reduceIte, hmin, List.range_succ_eq_map, List.map_cons,
        Nat.add_zero, List.map_map]
      have hih := ih (a + 1)
      rw [Int.natCast_add, Int.natCast_one] at hih
      rw [hih]
      congr 1
      refine List.map_congr_left fun k _ => ?_
      rw [Function.comp_apply, Nat.add_right_comm, Nat.add_assoc]
    · have hmin : min (n + 1) (size - a) = 0 := by omega
      simp only [readRun, read_natCast, h, ↓reduceIte, hmin, List.range_zero, List.map_nil]

theorem storeRun_snd (m : Memory size) (a : Nat) (bs : List UInt8) :
    (m.storeRun a bs).2 = runFault size a bs.length := by
  induction bs generalizing m a with
  | nil => rfl
  | cons b bs ih =>
    by_cases h : a < size
    · simp only [storeRun, holds_natCast.2 h, ↓reduceDIte, List.length_cons]
      rw [runFault_succ h]
      exact ih _ (a + 1)
    · simp only [storeRun, mt holds_natCast.1 h, ↓reduceDIte, List.length_cons]
      rw [runFault_of_le (Nat.le_of_not_lt h)]

/-- Every byte of the run whose address is in memory is stored, and no other address is touched. -/
theorem peek_storeRun (m : Memory size) (a : Nat) (bs : List UInt8) (j : Nat) :
    (m.storeRun a bs).1.peek j =
      if a ≤ j ∧ j < a + bs.length ∧ j < size then bs.getD (j - a) 0 else m.peek j := by
  induction bs generalizing m a with
  | nil =>
    have hnot : ¬ (a ≤ j ∧ j < a + 0 ∧ j < size) := by omega
    exact (if_neg hnot).symm
  | cons b bs ih =>
    by_cases h : a < size
    · have hstep : (m.storeRun a (b :: bs)).1 =
          ((m.put a (holds_natCast.2 h) b).storeRun ((a + 1 : Nat) : Int) bs).1 := by
        simp only [storeRun, holds_natCast.2 h, ↓reduceDIte, Int.natCast_add, Int.natCast_one]
      rw [hstep, ih, peek_put, List.length_cons]
      rcases Nat.lt_trichotomy j a with hj | rfl | hj
      · have h₁ : ¬ a + 1 ≤ j := by omega
        have h₂ : ¬ a ≤ j := by omega
        simp only [h₁, h₂, Nat.ne_of_lt hj, false_and, ↓reduceIte]
      · have h₁ : ¬ j + 1 ≤ j := by omega
        have h₂ : j < j + (bs.length + 1) := by omega
        simp [h, h₁]
      · have h₁ : a + 1 ≤ j ∧ j < a + 1 + bs.length ∧ j < size ↔
            a ≤ j ∧ j < a + (bs.length + 1) ∧ j < size := by omega
        have h₂ : j - a = j - (a + 1) + 1 := by omega
        simp only [h₁, h₂, Nat.ne_of_gt hj, ↓reduceIte, List.getD_cons_succ]
    · have h₁ : ¬ (a ≤ j ∧ j < a + (b :: bs).length ∧ j < size) := by omega
      rw [if_neg h₁]
      simp only [storeRun, mt holds_natCast.1 h, ↓reduceDIte]

/-- Reading bytes fails for an address, if it fails. -/
theorem kind_of_readRun {m : Memory size} {a : Int} {f : Fault} (h : (m.readRun a n).2 = some f) :
    f.kind = .badAddress := by
  induction n generalizing a with
  | zero => cases h
  | succ n ih =>
    simp only [readRun, read] at h
    split at h
    · next he => split at he <;> cases he; cases h; rfl
    · exact ih h

theorem kind_of_storeRun {m : Memory size} {a : Int} {bs : List UInt8} {f : Fault}
    (h : (m.storeRun a bs).2 = some f) : f.kind = .badAddress := by
  induction bs generalizing m a with
  | nil => cases h
  | cons b bs ih =>
    unfold storeRun at h
    split at h
    · exact ih h
    · cases h; rfl

/-! ### Loads -/

/-- A load stores what it does not cut off. -/
theorem place_eq_storeRun (m : Memory size) (a : Nat) (bs : List UInt8) :
    m.place a bs = (m.storeRun a bs).1 := by
  induction bs generalizing m a with
  | nil => rfl
  | cons b bs ih =>
    by_cases h : a < size
    · simp only [place, storeRun, holds_natCast.2 h, h, ↓reduceDIte]
      exact ih _ (a + 1)
    · simp only [place, storeRun, mt holds_natCast.1 h, h, ↓reduceDIte]

theorem peek_place (m : Memory size) (a : Nat) (bs : List UInt8) (j : Nat) :
    (m.place a bs).peek j =
      if a ≤ j ∧ j < a + bs.length ∧ j < size then bs.getD (j - a) 0 else m.peek j := by
  rw [place_eq_storeRun, peek_storeRun]

theorem peek_blank (size j : Nat) : (blank size).peek j = 0 := by
  by_cases h : j < size
  · rw [peek_of_lt _ h]
    exact Vector.getElem_replicate h
  · exact peek_of_le _ (Nat.le_of_not_lt h)

/-- Past the glyphs there is nothing in memory that has just been cleared. -/
theorem peek_loadFont (m : Memory size) (h : fontStart + font.length ≤ j) :
    m.clear.loadFont.1.peek j = 0 := by
  unfold loadFont load
  split
  · have hnot : ¬ (fontStart ≤ j ∧ j < fontStart + font.length ∧ j < size) := by omega
    rw [Int.toNat_natCast, peek_place, if_neg hnot]
    exact peek_blank size j
  · exact peek_blank size j

theorem drop_toList (m : Memory size) (a : Nat) :
    m.toList.drop a = (List.range (size - a)).map fun k => m.peek (a + k) := by
  refine List.ext_getElem (by simp [toList]) fun k hk _ => ?_
  have hlt : a + k < size := by
    rw [List.length_drop, toList, Vector.length_toList] at hk
    omega
  simp [toList, peek_of_lt m hlt]

/-- What is loaded stands in front of what was behind it. -/
theorem drop_place (m : Memory size) {bs : List UInt8} (h : a + bs.length ≤ size) :
    (m.place a bs).toList.drop a = bs ++ m.toList.drop (a + bs.length) := by
  have hsplit : size - a = bs.length + (size - (a + bs.length)) := by omega
  have hhead : ((List.range bs.length).map fun k => (m.place a bs).peek (a + k)) = bs := by
    refine List.ext_getElem (by simp) fun k _ hk => ?_
    have hin : a ≤ a + k ∧ a + k < a + bs.length ∧ a + k < size := by omega
    rw [List.getElem_map, List.getElem_range, peek_place, if_pos hin, Nat.add_sub_cancel_left,
      ← List.getElem_eq_getD]
  rw [drop_toList, drop_toList, hsplit, List.range_add, List.map_append, hhead, List.map_map]
  refine congrArg (bs ++ ·) (List.map_congr_left fun k _ => ?_)
  have hout : ¬ (a ≤ a + (bs.length + k) ∧ a + (bs.length + k) < a + bs.length ∧
      a + (bs.length + k) < size) := by omega
  rw [Function.comp_apply, peek_place, if_neg hout, Nat.add_assoc]

end Memory

end ChipEight
