import ChipEight.Proofs.Memory
import Mathlib.Data.List.Induction

/-!
# What memory holds

A memory is asked for one thing after the other, its `Access`es. What it holds at an address is the
low byte of the value that an access has placed there last, and zero if none has
(`Memory.peek_after`); what it answers follows from that (`Memory.contents_after`). An access that
is not allowed is refused and places nothing.
-/

namespace ChipEight.Memory

/-- What memory can be asked to do. -/
inductive Access where
  | read (a : Int)
  | write (a value : Int)
  | readWord (a : Int)
  | load (a : Int) (values : List Int)
  | loadFont
  | clear
  | copy (a length : Int)
  | snapshot

namespace Access

variable (size : Nat)

/-- Whether an access is one that memory of some size carries out. -/
def Allowed : Access → Prop
  | read a => Holds size a
  | write a _ => Holds size a
  | readWord a => 0 ≤ a ∧ a + 1 < size
  | load a values => Holds size a ∧ ∀ z ∈ values, 0 ≤ z ∧ z < 256
  | loadFont => fontStart < size
  | clear => True
  | copy a _ => Holds size a
  | snapshot => True

instance : (c : Access) → Decidable (c.Allowed size)
  | read a => inferInstanceAs (Decidable (Holds size a))
  | write a _ => inferInstanceAs (Decidable (Holds size a))
  | readWord _ => inferInstanceAs (Decidable (_ ∧ _))
  | load _ _ => inferInstanceAs (Decidable (_ ∧ _))
  | loadFont => inferInstanceAs (Decidable (_ < _))
  | clear => .isTrue trivial
  | copy a _ => inferInstanceAs (Decidable (Holds size a))
  | snapshot => .isTrue trivial

/-- The value that an access has for an address, if there is one. -/
def value? : Access → Nat → Option Int
  | write a value, j => if a = j then some value else none
  | load a values, j => if a ≤ j then values[j - a.toNat]? else none
  | loadFont, j => if fontStart ≤ j then font[j - fontStart]?.map fun b => (b.toNat : Int) else none
  | clear, _ => some 0
  | _, _ => none

/-- The value that an access places at an address. One that is not allowed places nothing. -/
def placed? (c : Access) (j : Nat) : Option Int := if c.Allowed size then c.value? j else none

/-- The value that some accesses have placed at an address last. -/
def latest? (cs : List Access) (j : Nat) : Option Int :=
  (cs.filterMap fun c => c.placed? size j).getLast?

theorem latest?_concat (cs : List Access) (c : Access) (j : Nat) :
    latest? size (cs ++ [c]) j = (c.placed? size j).or (latest? size cs j) := by
  cases h : c.placed? size j <;> simp [latest?, List.filterMap_append, h]

end Access

/-- What memory gives back. -/
inductive Answer where
  | done
  | byte (b : UInt8)
  | word (w : Word)
  | count (n : Nat)
  | bytes (bs : List UInt8)

variable {size : Nat}

/-- Memory stays as it is and gives back what it has been asked for. -/
def tell {α : Type} (m : Memory size) (f : α → Answer) (r : Except Fault α) :
    Memory size × Except LoadError Answer :=
  (m, (r.map f).mapError .fault)

def perform (m : Memory size) : Access → Memory size × Except LoadError Answer
  | .read a => m.tell .byte (m.read a)
  | .write a value =>
    match m.write a value with
    | .ok m' => (m', .ok .done)
    | .error f => (m, .error (.fault f))
  | .readWord a => m.tell .word (m.readWord a)
  | .load a values => ((m.loadInts a values).1, (m.loadInts a values).2.map .count)
  | .loadFont => (m.loadFont.1, (m.loadFont.2.map fun _ => .done).mapError .fault)
  | .clear => (m.clear, .ok .done)
  | .copy a length => m.tell .bytes (m.copy a length)
  | .snapshot => (m, .ok (.bytes m.toList))

/-- Memory of some size after accesses, carried out or not. -/
def after (size : Nat) (cs : List Access) : Memory size :=
  cs.foldl (fun m c => (m.perform c).1) (blank size)

/-! ### Single accesses -/

section
variable (m : Memory size) {a : Int} {j : Nat}

theorem loadInts_of_allowed {values : List Int} (h : (Access.load a values).Allowed size) :
    m.loadInts a values =
      (m.place a.toNat (values.map UInt8.ofInt), .ok (min values.length (size - a.toNat))) := by
  obtain ⟨ha, hvalues⟩ := h
  have hall : values.all fun z => 0 ≤ z && z < 256 := by
    rw [List.all_eq_true]
    intro z hz
    simpa using hvalues z hz
  rw [loadInts, if_neg (not_not_intro ha), if_pos hall, load, if_pos ha, List.length_map]

theorem loadInts_of_not_allowed {values : List Int} (h : ¬ (Access.load a values).Allowed size) :
    (m.loadInts a values).1 = m ∧ ∃ e, (m.loadInts a values).2 = .error e := by
  unfold loadInts
  split
  · exact ⟨rfl, _, rfl⟩
  · next ha =>
    split
    · next hall =>
      refine absurd ⟨Decidable.not_not.1 ha, fun z hz => ?_⟩ h
      simpa using List.all_eq_true.1 hall z hz
    · exact ⟨rfl, _, rfl⟩

theorem loadFont_of_lt (h : fontStart < size) :
    m.loadFont = (m.place fontStart font, .ok (min font.length (size - fontStart))) := by
  rw [loadFont, load, if_pos (holds_natCast.2 h), Int.toNat_natCast]

theorem loadFont_of_le (h : size ≤ fontStart) :
    m.loadFont = (m, .error (.badAddress fontStart)) := by
  rw [loadFont, load, if_neg (mt holds_natCast.1 (Nat.not_lt.2 h))]

/-- A copy of no negative length ends where it would without the end of memory, or there. -/
theorem copy_eq (h : Holds size a) {length : Int} (hn : 0 ≤ length) :
    m.copy a length =
      .ok ((List.range (min length.toNat (size - a.toNat))).map fun k => m.peek (a.toNat + k)) := by
  obtain ⟨ha, hlt⟩ := id h
  have hend : copyEnd size a length = a.toNat + min length.toNat (size - a.toNat) := by
    have hstop : ¬ a + length < 0 := by omega
    simp only [copyEnd, hstop, ↓reduceIte]
    omega
  have hsub : size - a.toNat - (size - a.toNat - min length.toNat (size - a.toNat)) =
      min length.toNat (size - a.toNat) := by omega
  rw [copy, if_pos h, hend, List.drop_take, Nat.add_sub_cancel_left]
  have hdrop := m.drop_toList a.toNat
  rw [toList] at hdrop
  rw [hdrop, ← List.map_take, List.take_range, Nat.min_eq_left (Nat.min_le_right ..)]

/-- A byte that is loaded for an address is in its place, if there is such a place. -/
theorem peek_place_eq (a : Nat) (bs : List UInt8) (h : j < size) :
    (m.place a bs).peek j = (if a ≤ j then bs[j - a]? else none).getD (m.peek j) := by
  rw [peek_place]
  by_cases hin : a ≤ j ∧ j < a + bs.length ∧ j < size
  · have hlt : j - a < bs.length := by omega
    rw [if_pos hin, if_pos hin.1, List.getElem?_eq_getElem hlt, ← List.getElem_eq_getD]
    rfl
  · rw [if_neg hin]
    split
    · have hle : bs.length ≤ j - a := by omega
      rw [List.getElem?_eq_none hle]
      rfl
    · rfl

/-- An access that is not allowed fails and leaves memory alone. -/
theorem perform_of_not_allowed {c : Access} (h : ¬ c.Allowed size) :
    (m.perform c).1 = m ∧ ∃ e, (m.perform c).2 = .error e := by
  cases c with
  | read a =>
    replace h : ¬ Holds size a := h
    rw [perform, read_eq, if_neg h]
    exact ⟨rfl, _, rfl⟩
  | write a value =>
    replace h : ¬ Holds size a := h
    rw [perform, write, store, dif_neg h]
    exact ⟨rfl, _, rfl⟩
  | readWord a =>
    replace h : ¬ (0 ≤ a ∧ a + 1 < size) := h
    rw [perform, readWord_eq, if_neg h]
    exact ⟨rfl, _, rfl⟩
  | load a values =>
    obtain ⟨hmem, e, he⟩ := m.loadInts_of_not_allowed h
    rw [perform, he]
    exact ⟨hmem, _, rfl⟩
  | loadFont =>
    rw [perform, m.loadFont_of_le (Nat.le_of_not_lt h)]
    exact ⟨rfl, _, rfl⟩
  | clear | snapshot => exact absurd trivial h
  | copy a length =>
    replace h : ¬ Holds size a := h
    rw [perform, copy, if_neg h]
    exact ⟨rfl, _, rfl⟩

theorem perform_of_allowed {c : Access} (h : c.Allowed size) : ∃ r, (m.perform c).2 = .ok r := by
  cases c with
  | read a =>
    replace h : Holds size a := h
    rw [perform, read_eq, if_pos h]
    exact ⟨_, rfl⟩
  | write a value =>
    replace h : Holds size a := h
    rw [perform, write, store, dif_pos h]
    exact ⟨_, rfl⟩
  | readWord a =>
    replace h : 0 ≤ a ∧ a + 1 < size := h
    rw [perform, readWord_eq, if_pos h]
    exact ⟨_, rfl⟩
  | load a values =>
    rw [perform, m.loadInts_of_allowed h]
    exact ⟨_, rfl⟩
  | loadFont =>
    rw [perform, m.loadFont_of_lt h]
    exact ⟨_, rfl⟩
  | clear | snapshot => exact ⟨_, rfl⟩
  | copy a length =>
    replace h : Holds size a := h
    rw [perform, copy, if_pos h]
    exact ⟨_, rfl⟩

/-- An access changes the bytes for which it places a value, to the low byte of that. -/
theorem peek_perform (c : Access) (h : j < size) :
    (m.perform c).1.peek j = ((c.placed? size j).map UInt8.ofInt).getD (m.peek j) := by
  by_cases hc : c.Allowed size
  · rw [Access.placed?, if_pos hc]
    cases c with
    | read | readWord | copy | snapshot => rfl
    | write a value =>
      replace hc : Holds size a := hc
      obtain ⟨k, rfl⟩ := Int.eq_ofNat_of_zero_le hc.1
      rw [perform, write, store, dif_pos hc, Access.value?]
      simp only [peek_put, Int.natCast_inj, eq_comm (a := k)]
      split <;> rfl
    | load a values =>
      obtain ⟨k, rfl⟩ := Int.eq_ofNat_of_zero_le hc.1.1
      rw [perform, m.loadInts_of_allowed hc, peek_place_eq _ _ _ h, Access.value?]
      simp only [Int.toNat_natCast, Int.ofNat_le, List.getElem?_map]
      split <;> rfl
    | loadFont =>
      rw [perform, m.loadFont_of_lt hc, peek_place_eq _ _ _ h, Access.value?]
      split
      · rw [Option.map_map]
        cases font[j - fontStart]? with
        | none => rfl
        | some b => exact (ofInt_toNat b).symm
      · rfl
    | clear => exact peek_blank size j
  · rw [Access.placed?, if_neg hc, (m.perform_of_not_allowed hc).1]
    rfl

end

/-! ### Accesses in a row -/

theorem after_concat (size : Nat) (cs : List Access) (c : Access) :
    after size (cs ++ [c]) = ((after size cs).perform c).1 := by
  rw [after, List.foldl_append]
  rfl

theorem peek_after (cs : List Access) {j : Nat} (h : j < size) :
    (after size cs).peek j = UInt8.ofInt ((Access.latest? size cs j).getD 0) := by
  induction cs using List.reverseRecOn with
  | nil => exact peek_blank size j
  | append_singleton cs c ih =>
    rw [after_concat, peek_perform _ _ h, Access.latest?_concat, ih]
    cases c.placed? size j <;> rfl

/-! ### Answers -/

section
variable (m : Memory size) {a : Int}

/-- A word is the two bytes that could be read in its place. -/
theorem readWord_cases (a : Int) :
    (a < 0 ∨ size ≤ a + 1) ∧ m.readWord a = .error (.outOfProgram a) ∨
      ∃ high low w, m.read a = .ok high ∧ m.read (a + 1) = .ok low ∧ m.readWord a = .ok w ∧
        w.val = 256 * high.toNat + low.toNat := by
  rw [readWord_eq]
  by_cases h : 0 ≤ a ∧ a + 1 < size
  · have hfirst : Holds size a := ⟨h.1, by omega⟩
    have hnext : Holds size (a + 1) := ⟨by omega, h.2⟩
    have hnat : (a + 1).toNat = a.toNat + 1 := by omega
    refine .inr ⟨m.peek a.toNat, m.peek (a.toNat + 1), _, ?_, ?_, if_pos h, rfl⟩
    · rw [read_eq, if_pos hfirst]
    · rw [read_eq, if_pos hnext, hnat]
  · exact .inl ⟨by omega, if_neg h⟩

/-- Bytes from an address on are those that could be read one after the other. -/
theorem map_peek_eq (h : 0 ≤ a) {n : Nat} (hn : a + n ≤ size) :
    (((List.range n).map fun k => m.peek (a.toNat + k)).map Except.ok : List (Except Fault UInt8)) =
      (List.range n).map fun k : Nat => m.read (a + k) := by
  rw [List.map_map]
  refine List.map_congr_left fun k hk => ?_
  have hlt := List.mem_range.1 hk
  have hholds : Holds size (a + k) := ⟨by omega, by omega⟩
  have hnat : (a + k).toNat = a.toNat + k := by omega
  rw [read_eq, if_pos hholds, hnat]
  rfl

theorem map_toList :
    (m.toList.map .ok : List (Except Fault UInt8)) =
      (List.range size).map fun k : Nat => m.read k := by
  have hlist := m.drop_toList 0
  have hread := m.map_peek_eq (Int.le_refl 0) (n := size) (by omega)
  rw [List.drop_zero, Nat.sub_zero] at hlist
  rw [hlist]
  simpa only [Int.toNat_zero, Int.zero_add] using hread

/-- A load puts each value that is not cut off in its place, and nothing anywhere else. -/
theorem read_loadInts {values : List Int} (h : (Access.load a values).Allowed size) :
    (∀ k < min values.length (size - a.toNat), ∃ b : UInt8,
      (m.loadInts a values).1.read (a + k) = .ok b ∧ values[k]? = some (b.toNat : Int)) ∧
    ∀ j : Int, j < a ∨ a + (min values.length (size - a.toNat) : Nat) ≤ j →
      (m.loadInts a values).1.read j = m.read j := by
  obtain ⟨hpos, hlt⟩ := h.1
  have hplace : ∀ j < size, (m.loadInts a values).1.peek j =
      (if a.toNat ≤ j then (values.map UInt8.ofInt)[j - a.toNat]? else none).getD (m.peek j) := by
    intro j hj
    rw [m.loadInts_of_allowed h, peek_place_eq _ _ _ hj]
  refine ⟨fun k hk => ?_, fun j hj => ?_⟩
  · have hholds : Holds size (a + k) := ⟨by omega, by omega⟩
    have hnat : (a + k).toNat = a.toNat + k := by omega
    have hlength : k < values.length := by omega
    have hvalue := h.2 _ (List.getElem_mem hlength)
    refine ⟨UInt8.ofInt values[k], ?_, ?_⟩
    · rw [read_eq, if_pos hholds, hplace _ hholds.toNat_lt, hnat, if_pos (Nat.le_add_right ..),
        Nat.add_sub_cancel_left, List.getElem?_map, List.getElem?_eq_getElem hlength]
      rfl
    · rw [List.getElem?_eq_getElem hlength, toNat_ofInt hvalue, Int.toNat_of_nonneg hvalue.1]
  · rw [read_eq, read_eq]
    by_cases hholds : Holds size j
    · obtain ⟨hj₀, hj₁⟩ := id hholds
      rw [if_pos hholds, if_pos hholds, hplace _ hholds.toNat_lt]
      split
      · have hle : values.length ≤ j.toNat - a.toNat := by omega
        rw [List.getElem?_eq_none (by rwa [List.length_map])]
        rfl
      · rfl
    · rw [if_neg hholds, if_neg hholds]

end

/-- Memory that has been asked for anything, in any order, still has all its bytes. It reads the low
byte of the value that was last placed at an address, and zero if none was, and a word as two such
bytes. A load of bytes places those that fit and changes nothing else, and a copy gives the bytes
that could be read, as far as there are any. An access fails exactly if it is not allowed, and then
it changes nothing. -/
theorem contents_after (size : Nat) (cs : List Access) :
    let m := after size cs
    (m.toList.length = size ∧
      (m.toList.map .ok : List (Except Fault UInt8)) =
        (List.range size).map fun k : Nat => m.read k) ∧
      (∀ a : Int, m.read a =
        if 0 ≤ a ∧ a < size then .ok (UInt8.ofInt ((Access.latest? size cs a.toNat).getD 0))
        else .error (.badAddress a)) ∧
      (∀ a : Int, (a < 0 ∨ size ≤ a + 1) ∧ m.readWord a = .error (.outOfProgram a) ∨
        ∃ high low w, m.read a = .ok high ∧ m.read (a + 1) = .ok low ∧ m.readWord a = .ok w ∧
          w.val = 256 * high.toNat + low.toNat) ∧
      (∀ (a : Int) values, 0 ≤ a ∧ a < size → (∀ z ∈ values, 0 ≤ z ∧ z < 256) →
        let n := min values.length (size - a.toNat)
        let m' := (m.loadInts a values).1
        (m.loadInts a values).2 = .ok n ∧
          (∀ k < n, ∃ b : UInt8, m'.read (a + k) = .ok b ∧ values[k]? = some (b.toNat : Int)) ∧
          ∀ j : Int, j < a ∨ a + n ≤ j → m'.read j = m.read j) ∧
      (∀ a length : Int, 0 ≤ a ∧ a < size → 0 ≤ length → ∃ bs, m.copy a length = .ok bs ∧
        (bs.map .ok : List (Except Fault UInt8)) =
          (List.range (min length.toNat (size - a.toNat))).map fun k : Nat => m.read (a + k)) ∧
      ∀ c : Access,
        (c.Allowed size → ∃ r, (m.perform c).2 = .ok r) ∧
        (¬ c.Allowed size → (m.perform c).1 = m ∧ ∃ e, (m.perform c).2 = .error e) := by
  intro m
  refine ⟨⟨m.bytes.length_toList, m.map_toList⟩, fun a => ?_, m.readWord_cases,
    fun a values ha hvalues => ?_, fun a length ha hn => ⟨_, m.copy_eq ha hn, ?_⟩,
    fun c => ⟨m.perform_of_allowed, m.perform_of_not_allowed⟩⟩
  · rw [read_eq]
    by_cases h : 0 ≤ a ∧ a < size
    · rw [if_pos h, ← peek_after cs (Holds.toNat_lt h)]
      exact if_pos h
    · rw [if_neg h]
      exact if_neg h
  · have h : (Access.load a values).Allowed size := ⟨ha, hvalues⟩
    exact ⟨congrArg Prod.snd (m.loadInts_of_allowed h), m.read_loadInts h⟩
  · exact m.map_peek_eq ha.1 (by omega)

end ChipEight.Memory
