import ChipEight.Text.Base64
import ChipEight.Text.HexBytes

/-!
# Bytes that are read again

What is written for some bytes stands for these bytes: in hexadecimal, whatever the case of each
digit (`HexBytes.decode_of_toLower`), and in base64 (`Base64.decode_encode`).
-/

namespace ChipEight

/-- A character is a capital letter, or it is in lower case already. -/
theorem toLower_eq_or (c : Char) : c.toLower = c ∨ ∃ k : Fin 26, c = Char.ofNat (65 + k) := by
  by_cases h : c.val ≥ 'A'.val ∧ c.val ≤ 'Z'.val
  · obtain ⟨hlow, hhigh⟩ := h
    have hlow : 65 ≤ c.toNat := UInt32.le_iff_toNat_le.1 hlow
    have hhigh : c.toNat ≤ 90 := UInt32.le_iff_toNat_le.1 hhigh
    refine .inr ⟨⟨c.toNat - 65, by omega⟩, ?_⟩
    rw [Nat.add_sub_cancel' hlow, Char.ofNat_toNat]
  · exact .inl (dif_neg h)

namespace HexBytes

variable {bs : List UInt8} {cs : List Char}

/-- A digit in either case is read, and is no blank. -/
theorem read_digit {c : Char} {n : Nat} (h : n < 16) (hc : c.toLower = digit n) :
    digit? (.char c) = some n ∧ isBlank (.char c) = false ∧ isAscii (.char c) = true := by
  have hlower : ∀ n : Fin 16, digit? (.char (digit n)) = some n.val ∧
      isBlank (.char (digit n)) = false ∧ isAscii (.char (digit n)) = true := by
    decide
  have hupper : ∀ k : Fin 26, ∀ n : Fin 16, (Char.ofNat (65 + k)).toLower = digit n →
      digit? (.char (Char.ofNat (65 + k))) = some n.val ∧
        isBlank (.char (Char.ofNat (65 + k))) = false ∧
        isAscii (.char (Char.ofNat (65 + k))) = true := by
    decide
  rcases toLower_eq_or c with heq | ⟨k, rfl⟩
  · rw [heq] at hc
    rw [hc]
    exact hlower ⟨n, h⟩
  · exact hupper k ⟨n, h⟩ hc

/-- What is written for a byte and more is two digits and what is written for the rest. -/
theorem exists_of_toLower_cons {b : UInt8} (h : cs.map Char.toLower = encode (b :: bs)) :
    ∃ c d ds, cs = c :: d :: ds ∧ c.toLower = digit (b.toNat / 16) ∧
      d.toLower = digit (b.toNat % 16) ∧ ds.map Char.toLower = encode bs := by
  obtain ⟨c, cs, rfl, hc, h⟩ := List.map_eq_cons_iff.1 h
  obtain ⟨d, ds, rfl, hd, h⟩ := List.map_eq_cons_iff.1 h
  exact ⟨c, d, ds, rfl, hc, hd, h⟩

theorem isAscii_of_toLower (h : cs.map Char.toLower = encode bs) :
    ∀ c ∈ cs, isAscii (.char c) = true := by
  induction bs generalizing cs with
  | nil =>
    rw [List.map_eq_nil_iff.1 h]
    nofun
  | cons b bs ih =>
    have hb := b.toNat_lt
    obtain ⟨c, d, ds, rfl, hc, hd, hds⟩ := exists_of_toLower_cons h
    simp only [List.forall_mem_cons]
    exact ⟨(read_digit (by omega) hc).2.2, (read_digit (by omega) hd).2.2, ih hds⟩

theorem decodeFrom_of_toLower (start : Nat) (h : cs.map Char.toLower = encode bs) :
    decodeFrom start (cs.map .char) = .ok bs := by
  induction bs generalizing start cs with
  | nil =>
    rw [List.map_eq_nil_iff.1 h]
    rfl
  | cons b bs ih =>
    have hb := b.toNat_lt
    obtain ⟨c, d, ds, rfl, hc, hd, hds⟩ := exists_of_toLower_cons h
    obtain ⟨hhigh, hblank, -⟩ := read_digit (by omega) hc
    obtain ⟨hlow, -, -⟩ := read_digit (by omega) hd
    have hbyte : UInt8.ofNat (16 * (b.toNat / 16) + b.toNat % 16) = b := by
      rw [Nat.div_add_mod, UInt8.ofNat_toNat]
    rw [List.map_cons, List.map_cons]
    unfold decodeFrom
    simp only [hblank, hhigh, hlow, ih _ hds, hbyte]
    rfl

/-- Bytes that are written in hexadecimal, with each digit in either case, are read again. -/
theorem decode_of_toLower (h : cs.map Char.toLower = encode bs) :
    decode (cs.map .char) = .ok bs := by
  have hascii : (cs.map Point.char).findIdx? (!isAscii ·) = none := by
    rw [List.findIdx?_eq_none_iff]
    intro p hp
    obtain ⟨c, hc, rfl⟩ := List.mem_map.1 hp
    rw [isAscii_of_toLower h c hc]
    rfl
  rw [decode, hascii]
  exact decodeFrom_of_toLower 0 h

theorem toLower_encode (bs : List UInt8) : (encode bs).map Char.toLower = encode bs := by
  have hdigit : ∀ n : Fin 16, (digit n).toLower = digit n := by decide
  induction bs with
  | nil => rfl
  | cons b bs ih =>
    have hb := b.toNat_lt
    rw [encode, List.map_cons, List.map_cons, ih]
    rw [hdigit ⟨b.toNat / 16, by omega⟩, hdigit ⟨b.toNat % 16, by omega⟩]

end HexBytes

namespace Base64

/-! ### Characters -/

theorem value?_symbol {n : Nat} (h : n < 64) : value? (symbol n) = some n := by
  have hall : ∀ n : Fin 64, value? (symbol n) = some n.val := by decide
  exact hall ⟨n, h⟩

/-- The alphabet in its order. -/
example : (List.range 64).map symbol =
    "ABCDEFGHIJKLMNOPQRSTUVWXYZabcdefghijklmnopqrstuvwxyz0123456789+/".toList := by
  decide

theorem ne_of_value? {c : Char} {n : Nat} (h : value? c = some n) : c ≠ '=' := by
  rintro rfl
  cases h

/-! ### Bytes of a group -/

theorem first_eq (a : UInt8) {x : Nat} (hx : x < 16) :
    first (a.toNat / 4) (16 * (a.toNat % 4) + x) = a := by
  have h : 4 * (a.toNat / 4) + (16 * (a.toNat % 4) + x) / 16 = a.toNat := by omega
  rw [first, h, UInt8.ofNat_toNat]

theorem second_eq (x : Nat) (b : UInt8) {y : Nat} (hy : y < 4) :
    second (16 * x + b.toNat / 16) (4 * (b.toNat % 16) + y) = b := by
  have hb := b.toNat_lt
  have h : 16 * ((16 * x + b.toNat / 16) % 16) + (4 * (b.toNat % 16) + y) / 4 = b.toNat := by omega
  rw [second, h, UInt8.ofNat_toNat]

theorem third_eq (y : Nat) (c : UInt8) : third (4 * y + c.toNat / 64) (c.toNat % 64) = c := by
  have hc := c.toNat_lt
  have h : 64 * ((4 * y + c.toNat / 64) % 4) + c.toNat % 64 = c.toNat := by omega
  rw [third, h, UInt8.ofNat_toNat]

/-! ### Groups -/

section
variable {a b c d : Char} {w x y z : Nat}

theorem groups_one (ha : value? a = some w) (hb : value? b = some x) :
    groups [a, b, '=', '='] = some [first w x] := by
  have hne := ne_of_value? ha
  rw [groups, ha, hb]
  exact hne

theorem groups_two (ha : value? a = some w) (hb : value? b = some x) (hc : value? c = some y) :
    groups [a, b, c, '='] = some [first w x, second x y] := by
  have hne := ne_of_value? ha
  have hne' := ne_of_value? hc
  rw [groups, ha, hb, hc]
  · exact hne
  · exact hne'

theorem groups_three (ha : value? a = some w) (hb : value? b = some x) (hc : value? c = some y)
    (hd : value? d = some z) (cs : List Char) :
    groups (a :: b :: c :: d :: cs) =
      (groups cs).map ([first w x, second x y, third y z] ++ ·) := by
  have hne := ne_of_value? ha
  have hne' := ne_of_value? hd
  rw [groups, ha, hb, hc, hd]
  · exact hne
  · exact fun _ h _ => hne' h
  · exact fun h _ => hne' h

end

theorem groups_encode : ∀ bs : List UInt8, groups (encode bs) = some bs
  | [] => rfl
  | [a] => by
    have ha := a.toNat_lt
    rw [encode, groups_one (value?_symbol (by omega)) (value?_symbol (by omega))]
    exact congrArg (some [·]) (first_eq a (x := 0) (by decide))
  | [a, b] => by
    have ha := a.toNat_lt
    have hb := b.toNat_lt
    have hsecond := second_eq (a.toNat % 4) b (y := 0) (by decide)
    rw [encode, groups_two (value?_symbol (by omega)) (value?_symbol (by omega))
      (value?_symbol (by omega)), first_eq a (by omega)]
    exact congrArg (some [a, ·]) hsecond
  | a :: b :: c :: bs => by
    have ha := a.toNat_lt
    have hb := b.toNat_lt
    have hc := c.toNat_lt
    rw [encode, groups_three (value?_symbol (by omega)) (value?_symbol (by omega))
      (value?_symbol (by omega)) (value?_symbol (by omega)), groups_encode bs,
      first_eq a (by omega), second_eq _ b (by omega), third_eq]
    rfl

/-- No text of some bytes begins with filling. -/
theorem head?_encode_ne (bs : List UInt8) : (encode bs).head? ≠ some '=' := by
  have hsymbol (a : UInt8) : symbol (a.toNat / 4) ≠ '=' := by
    have ha := a.toNat_lt
    exact ne_of_value? (value?_symbol (by omega))
  intro h
  match bs with
  | [] => cases h
  | [a] | [a, _] | a :: _ :: _ :: _ => exact hsymbol a (Option.some.inj h)

/-- Bytes that are written in base64 are read again. -/
theorem decode_encode (bs : List UInt8) : decode (encode bs) = some bs := by
  rw [decode, if_neg (head?_encode_ne bs), groups_encode]

/-- The last group may hold one byte or two. -/
example : encode [0x6A] = "ag==".toList ∧ encode [0x6A, 0x05] = "agU=".toList := by decide

end Base64

end ChipEight
