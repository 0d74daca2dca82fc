import ChipEight.Twister

/-!
# Seeding

Each pass of the seeding goes over the words of the state in order and gives each a new value, made
of its position, the new value of the word before it and its own (`Twister.along`). Position zero
is passed over: it repeats the last word. So a source whose seed fits into one word starts with a
list of words that is worked out from left to right (`Twister.seeded_eq`).
-/

namespace ChipEight.Twister

/-- Goes on with a word once it has been worked out. Otherwise the words pile up in one another. -/
def forced {α : Type} (w : UInt32) (use : UInt32 → α) : α :=
  match w.toNat with
  | 0 => use 0
  | n + 1 => use (UInt32.ofNat (n + 1))

theorem forced_eq {α : Type} (w : UInt32) (use : UInt32 → α) : forced w use = use w := by
  have hw : UInt32.ofNat w.toNat = w := UInt32.ofNat_toNat
  unfold forced
  split
  · next h => rw [← hw, h]; rfl
  · next n h => rw [← Nat.succ_eq_add_one, ← h, hw]

/-- The new values of some words from position `i` on, behind the new value `p`. -/
def along (h : Nat → UInt32 → UInt32 → UInt32) : Nat → UInt32 → List UInt32 → List UInt32
  | _, _, [] => []
  | i, p, w :: ws => forced (h i p w) fun v => v :: along h (i + 1) v ws

/-- A new value where the state is filled from its first word. -/
def grown (i : Nat) (p _ : UInt32) : UInt32 := 1812433253 * folded p + UInt32.ofNat i

/-- A new value where a key of one word is mixed in. -/
def keyed (k : UInt32) (_ : Nat) (p w : UInt32) : UInt32 :=
  (w ^^^ (folded p * 1664525)) + k + UInt32.ofNat 0

/-- A new value where the state is mixed without a key. -/
def unkeyed (i : Nat) (p w : UInt32) : UInt32 :=
  (w ^^^ (folded p * 1566083941)) - UInt32.ofNat i

/-- The words behind position zero after a round with a key of one word. -/
def keyedWords (k : UInt32) : List UInt32 :=
  along (keyed k) 1 19650218 (along grown 1 19650218 (List.replicate 623 0))

/-- The words of a source seeded with a key of one word. -/
def seedWords (k : UInt32) : List UInt32 :=
  let mixed := keyedWords k
  let v := keyed k 1 (mixed.getLastD 0) (mixed.headD 0)
  let rest := along unkeyed 2 v mixed.tail
  0x80000000 :: unkeyed 1 (rest.getLastD 0) v :: rest

/-- A loop over positions that gives each word the value that `h` makes. -/
def Mixes {α : Type} (h : Nat → UInt32 → UInt32 → UInt32)
    (mix : Nat → Nat → Vector UInt32 624 → α) : Prop :=
  ∀ n i s, mix (n + 1) i s =
    let (s, i) := wrapped (put s i (h i (pick s (i - 1)) (pick s i))) (i + 1)
    mix n i s

theorem mixes_mixKey (k : UInt32) : Mixes (keyed k) fun n i s => mixKey #[k] n i 0 s :=
  fun _ _ _ => rfl

theorem mixes_mixPlain : Mixes unkeyed mixPlain := fun _ _ _ => rfl

section
variable {h : Nat → UInt32 → UInt32 → UInt32}

theorem along_cons (i : Nat) (p w : UInt32) (ws : List UInt32) :
    along h i p (w :: ws) = h i p w :: along h (i + 1) (h i p w) ws :=
  forced_eq _ _

theorem length_along (i : Nat) (p : UInt32) (ws : List UInt32) :
    (along h i p ws).length = ws.length := by
  induction ws generalizing i p with
  | nil => rfl
  | cons w ws ih => rw [along_cons, List.length_cons, ih, List.length_cons]

theorem length_keyedWords (k : UInt32) : (keyedWords k).length = 623 := by
  rw [keyedWords, length_along, length_along, List.length_replicate]

theorem length_seedWords (k : UInt32) : (seedWords k).length = 624 := by
  rw [seedWords, List.length_cons, List.length_cons, length_along, List.length_tail,
    length_keyedWords]

/-! ### Words in their places -/

variable {s : Vector UInt32 624} {front ws : List UInt32} {p w : UInt32} {i : Nat}

theorem length_front (hs : s.toList = front ++ w :: ws) : front.length + ws.length = 623 := by
  have hlen := congrArg List.length hs
  rw [Vector.length_toList, List.length_append, List.length_cons] at hlen
  omega

theorem pick_eq (hs : s.toList = front ++ w :: ws) (hi : front.length = i) : pick s i = w := by
  subst hi
  have hmod : front.length % 624 = front.length :=
    Nat.mod_eq_of_lt (by have := length_front hs; omega)
  have hpick : s.toList[front.length]? = some (pick s front.length) := by
    simp only [pick, hmod]
    rw [Vector.getElem?_toList, Vector.getElem?_eq_getElem]
  rw [hs] at hpick
  simpa using hpick.symm

theorem toList_put (hs : s.toList = front ++ w :: ws) (hi : front.length = i) (v : UInt32) :
    (put s i v).toList = front ++ v :: ws := by
  subst hi
  have hmod : front.length % 624 = front.length :=
    Nat.mod_eq_of_lt (by have := length_front hs; omega)
  simp only [put, hmod, Vector.toList_set]
  simp [hs]

theorem toList_put_zero (s : Vector UInt32 624) (v : UInt32) :
    (put s 0 v).toList = s.toList.set 0 v :=
  Vector.toList_set ..

theorem toList_grow (hs : s.toList = front ++ p :: ws) (hi : front.length = i) :
    (grow ws.length (i + 1) s).toList = front ++ p :: along grown (i + 1) p ws := by
  induction ws generalizing front p s i with
  | nil => exact hs
  | cons w ws ih =>
    have hfront : (front ++ [p]).length = i + 1 := by simp [hi]
    have hs' : s.toList = (front ++ [p]) ++ w :: ws := by rw [hs, List.append_assoc]; rfl
    have hrest := ih (toList_put hs' hfront (grown (i + 1) p w)) hfront
    rw [List.append_assoc] at hrest
    rw [List.length_cons, grow, Nat.add_sub_cancel, pick_eq hs hi, along_cons]
    exact hrest

/-! ### Rounds -/

variable {α : Type} {mix : Nat → Nat → Vector UInt32 624 → α}

/-- The words behind a front get their new values in one round, after which position zero repeats
the last of them. -/
theorem Mixes.round (hmix : Mixes h mix) (hs : s.toList = front ++ p :: ws)
    (hi : front.length = i) (hws : ws ≠ []) (m : Nat) :
    ∃ t : Vector UInt32 624, mix (ws.length + m) (i + 1) s = mix m 1 t ∧
      t.toList =
        (front ++ p :: along h (i + 1) p ws).set 0 ((along h (i + 1) p ws).getLastD 0) := by
  induction ws generalizing front p s i with
  | nil => exact absurd rfl hws
  | cons w ws ih =>
    have hfront : (front ++ [p]).length = i + 1 := by simp [hi]
    have hs' : s.toList = (front ++ [p]) ++ w :: ws := by rw [hs, List.append_assoc]; rfl
    have hput := toList_put hs' hfront (h (i + 1) p w)
    have hlen := length_front hs'
    rw [List.length_cons, Nat.add_right_comm, hmix, Nat.add_sub_cancel, pick_eq hs hi,
      pick_eq hs' hfront, wrapped, along_cons]
    cases ws with
    | nil =>
      have hlast : i + 1 = 623 := by rw [← hfront]; exact hlen
      refine ⟨put (put s (i + 1) (h (i + 1) p w)) 0 (h (i + 1) p w), ?_, ?_⟩
      · rw [if_pos (by omega), pick_eq hput (hfront.trans hlast), List.length_nil, Nat.zero_add]
      · rw [toList_put_zero, hput, List.append_assoc]
        rfl
    | cons w' ws =>
      obtain ⟨t, hmixed, ht⟩ := ih hput hfront (List.cons_ne_nil _ _)
      refine ⟨t, ?_, ?_⟩
      · rw [if_neg (by simp at hlen; omega), ← hmixed]
      · rw [ht, List.append_assoc, along_cons (i + 1 + 1), List.getLastD_cons, List.getLastD_cons,
          List.getLastD_cons]
        rfl

/-- The word at position one comes next after a round. -/
theorem Mixes.first (hmix : Mixes h mix) (hs : s.toList = p :: w :: ws) :
    mix 1 1 s = mix 0 2 (put s 1 (h 1 p w)) ∧
      (put s 1 (h 1 p w)).toList = p :: h 1 p w :: ws := by
  have hs₀ : s.toList = [] ++ p :: w :: ws := hs
  have hs₁ : s.toList = [p] ++ w :: ws := hs
  have hpick₀ : pick s 0 = p := pick_eq hs₀ rfl
  have hpick₁ : pick s 1 = w := pick_eq hs₁ rfl
  refine ⟨?_, toList_put hs₁ rfl _⟩
  rw [hmix, Nat.sub_self, hpick₀, hpick₁, wrapped, if_neg (by decide)]

end

/-- The state after the pass with a key of one word. -/
theorem mixKey_grown (k : UInt32) :
    ∃ s, mixKey #[k] 624 1 0 (grow 623 1 (put (Vector.replicate 624 0) 0 19650218)) = (s, 2) ∧
      s.toList = (keyedWords k).getLastD 0 ::
        keyed k 1 ((keyedWords k).getLastD 0) ((keyedWords k).headD 0) :: (keyedWords k).tail := by
  have hzeros : (put (Vector.replicate 624 0) 0 19650218).toList =
      [] ++ 19650218 :: List.replicate 623 0 := by
    rw [toList_put_zero, Vector.toList_replicate]; rfl
  have hgrow := toList_grow hzeros List.length_nil
  have hlen : (along grown 1 19650218 (List.replicate 623 0)).length = 623 := by
    rw [length_along, List.length_replicate]
  obtain ⟨t, hround, ht⟩ := (mixes_mixKey k).round hgrow List.length_nil
    (List.ne_nil_of_length_eq_add_one hlen) 1
  obtain ⟨w, ws, hcons⟩ := List.exists_cons_of_length_eq_add_one (length_keyedWords k)
  have ht' : t.toList = (keyedWords k).getLastD 0 :: w :: ws := by rw [ht, ← hcons]; rfl
  obtain ⟨hfirst, hput⟩ := (mixes_mixKey k).first ht'
  rw [hlen, List.length_replicate] at hround
  refine ⟨_, hround.trans hfirst, ?_⟩
  rw [hput, hcons]
  rfl

/-- The state after the pass without a key. -/
theorem toList_mixPlain {s : Vector UInt32 624} {p v : UInt32} {ws : List UInt32}
    (hs : s.toList = p :: v :: ws) :
    let rest := along unkeyed 2 v ws
    (mixPlain 623 2 s).toList = rest.getLastD 0 :: unkeyed 1 (rest.getLastD 0) v :: rest := by
  have hs₁ : s.toList = [p] ++ v :: ws := hs
  have hlen : ws.length = 622 := by have := length_front hs₁; simp at this; omega
  obtain ⟨t, hround, ht⟩ := mixes_mixPlain.round hs₁ List.length_singleton
    (List.ne_nil_of_length_eq_add_one hlen) 1
  obtain ⟨hfirst, hput⟩ := mixes_mixPlain.first ht
  rw [hlen] at hround
  exact (congrArg Vector.toList (hround.trans hfirst)).trans hput

theorem toList_seeded {seed : Int} {k : UInt32} (hkey : key seed = #[k]) :
    (seeded seed).state.toList = seedWords k := by
  obtain ⟨s, hkeyed, hs⟩ := mixKey_grown k
  have hsize : max 624 (#[k] : Array UInt32).size = 624 := rfl
  simp only [seeded, hkey, hsize, hkeyed]
  rw [toList_put_zero, toList_mixPlain hs]
  rfl

/-- A source whose seed fits into one word starts with the words worked out from left to right, all
of them used. -/
theorem seeded_eq {seed : Int} {k : UInt32} (hkey : key seed = #[k]) :
    seeded seed = ⟨⟨(seedWords k).toArray, length_seedWords k⟩, 624⟩ :=
  congrArg (Twister.mk · 624) (Vector.toList_inj.mp (toList_seeded hkey))

set_option maxRecDepth 20000 in
/-- The first bytes that the generator is known to give after the seed 42. -/
example : (seeded 42).byte.1 = 57 ∧ (seeded 42).byte.2.byte.1 = 12 ∧
    (seeded 42).byte.2.byte.2.byte.1 = 140 ∧ (seeded 42).byte.2.byte.2.byte.2.byte.1 = 125 := by
  have hkey : key 42 = #[42] := by decide +kernel
  rw [seeded_eq hkey]
  decide +kernel

end ChipEight.Twister
