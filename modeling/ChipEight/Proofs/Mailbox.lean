import ChipEight.Notice
import Mathlib.Data.List.DropRight

/-!
# What mailboxes keep

A mailbox in which things are only put where there is room, and from which they are only taken out,
never holds more than its capacity (`Mailbox.Reached.bounded`). So to insist on something drops the
oldest thing at most (`Mailbox.insist?_eq`). What a host has been told comes to its mailbox in that
way, and of what it was told since the mailbox was last emptied the latest are in there, as many as
it can hold (`Listener.inbox_latest`).
-/

namespace ChipEight

namespace Mailbox

variable {α : Type} {b b' : Mailbox α} {a : α}

theorem toList_extract_one (b : Mailbox α) :
    (b.items.extract 1 b.items.size).toList = b.items.toList.drop 1 := by
  rw [Array.toList_extract, List.extract_eq_take_drop, List.take_of_length_le]
  rw [List.length_drop, Array.length_toList]

/-- A mailbox that holds the latest of some things goes on to do so. -/
theorem toList_put {as : List α} {n : Nat} (hc : b.capacity = (n + 1 : Nat))
    (h : b.items.toList = as.rtake (n + 1)) (a : α) :
    (b.put a).items.toList = (as ++ [a]).rtake (n + 1) := by
  have hsize : b.items.size = min as.length (n + 1) := by
    rw [← Array.length_toList, h, List.rtake, List.length_drop]
    omega
  rw [List.rtake_concat_succ, put]
  split
  · next hfull =>
    simp only [isFull, hc, Bool.and_eq_true, decide_eq_true_eq] at hfull
    have hlen : as.length - (n + 1) + 1 = as.length - n := by omega
    rw [Array.toList_push, toList_extract_one, h, List.rtake, List.rtake, List.drop_drop, hlen]
  · next hfull =>
    simp only [isFull, hc, Bool.and_eq_true, decide_eq_true_eq] at hfull
    have hlen : as.length - (n + 1) = as.length - n := by omega
    rw [Array.toList_push, h, List.rtake, List.rtake, hlen]

theorem toList_put_of_not_full (h : b.isFull = false) (a : α) :
    (b.put a).items.toList = b.items.toList ++ [a] := by
  simp only [put, h, Bool.false_eq_true, ↓reduceIte, Array.toList_push]

theorem capacity_put (b : Mailbox α) (a : α) : (b.put a).capacity = b.capacity := by
  unfold put
  split <;> rfl

/-- What a mailbox of that capacity holds of some things, if it was empty before them: as many of
the latest as it may, or all of them. -/
def latest (capacity : Int) (as : List α) : List α :=
  if 1 ≤ capacity then as.rtake capacity.toNat else as

theorem latest_nil (capacity : Int) : latest capacity ([] : List α) = [] := by
  rw [latest, List.rtake_nil, ite_self]

theorem toList_put_latest {as : List α} (h : b.items.toList = latest b.capacity as) (a : α) :
    (b.put a).items.toList = latest b.capacity (as ++ [a]) := by
  by_cases hpos : 1 ≤ b.capacity
  · obtain ⟨n, hn⟩ := Int.eq_ofNat_of_zero_le (show 0 ≤ b.capacity - 1 by omega)
    have hc : b.capacity = (n + 1 : Nat) := by omega
    rw [latest, if_pos hpos, hc, Int.toNat_natCast] at h ⊢
    exact toList_put hc h a
  · have hfull : b.isFull = false := by
      rw [isFull, decide_eq_false (by omega), Bool.false_and]
    rw [latest, if_neg hpos] at h ⊢
    rw [toList_put_of_not_full hfull, h]

/-! ### One by one -/

theorem take?_eq_none (h : b.items.toList = []) : b.take? = none := by
  have hitems : b.items = #[] := Array.toList_eq_nil_iff.1 h
  simp [take?, hitems]

theorem take?_eq_some {as : List α} (h : b.items.toList = a :: as) :
    b.take? = some (a, { b with items := as.toArray }) := by
  have hitems : b.items = (a :: as).toArray := Array.toList_inj.1 h
  simp [take?, hitems]

theorem takeAll_eq (b : Mailbox α) : b.takeAll = b.drain := by
  rw [drain]
  generalize h : b.items.toList = as
  induction as generalizing b with
  | nil =>
    have hitems : b.items = #[] := Array.toList_eq_nil_iff.1 h
    unfold takeAll
    split
    · next ht => rw [take?_eq_none h] at ht; cases ht
    · rw [← hitems]
  | cons a as ih =>
    unfold takeAll
    split
    · next ht =>
      rw [take?_eq_some h] at ht
      cases ht
      rw [ih _ rfl]
    · next ht => rw [take?_eq_some h] at ht; cases ht

theorem capacity_of_take? (h : b.take? = some (a, b')) : b'.capacity = b.capacity := by
  obtain ⟨_, -, heq⟩ := Option.map_eq_some_iff.1 h
  cases heq
  rfl

/-- There is no more in a mailbox than it may hold. -/
def Bounded (b : Mailbox α) : Prop := 0 < b.capacity → (b.items.size : Int) ≤ b.capacity

theorem offer?_eq_some (h : b.isFull = false) : b.offer? a = some (b.put a) := by
  rw [offer?, put, h]
  rfl

theorem isFull_of_offer? (h : b.offer? a = some b') :
    b.isFull = false ∧ b' = { b with items := b.items.push a } := by
  unfold offer? at h
  split at h
  · cases h
  · next hfull =>
    cases h
    exact ⟨Bool.not_eq_true _ ▸ hfull, rfl⟩

theorem insist?_of_not_full (h : b.isFull = false) (a : α) : b.insist? a = some ([], b.put a) := by
  unfold insist?
  rw [offer?_eq_some h]

/-- What has to go before something more is put in: the oldest, if there is no room. -/
def surplus (b : Mailbox α) : List α := if b.isFull then b.items.toList.take 1 else []

theorem length_surplus_le (b : Mailbox α) : b.surplus.length ≤ 1 := by
  unfold surplus
  split
  · exact List.length_take_le 1 _
  · exact Nat.zero_le 1

theorem surplus_append_put (b : Mailbox α) (a : α) :
    b.surplus ++ (b.put a).items.toList = b.items.toList ++ [a] := by
  cases hfull : b.isFull with
  | false =>
    rw [surplus, hfull]
    exact toList_put_of_not_full hfull a
  | true =>
    simp only [surplus, put, hfull, ↓reduceIte]
    rw [Array.toList_push, toList_extract_one, ← List.append_assoc, List.take_append_drop]

/-- To insist on something puts it in, and takes out no more than has to go. -/
theorem insist?_eq (h : b.Bounded) (a : α) : b.insist? a = some (b.surplus, b.put a) := by
  cases hfull : b.isFull with
  | false =>
    rw [surplus, hfull]
    exact insist?_of_not_full hfull a
  | true =>
    obtain ⟨hpos, hge⟩ : 0 < b.capacity ∧ b.capacity ≤ b.items.size := by
      simpa [isFull] using hfull
    have hle := h hpos
    obtain ⟨d, ds, hitems⟩ : ∃ d ds, b.items.toList = d :: ds := by
      refine List.exists_cons_of_ne_nil fun hnil => ?_
      have hsize : b.items.size = 0 := by rw [← Array.length_toList, hnil, List.length_nil]
      omega
    have hroom : ({ b with items := ds.toArray } : Mailbox α).isFull = false := by
      have hsize : b.items.size = ds.length + 1 := by
        rw [← Array.length_toList, hitems, List.length_cons]
      simp only [isFull, Bool.and_eq_false_iff, decide_eq_false_iff_not, List.size_toArray]
      omega
    have hput : ({ b with items := ds.toArray } : Mailbox α).put a = b.put a := by
      have harray : b.items = (d :: ds).toArray := Array.toList_inj.1 hitems
      simp [put, hroom, hfull, harray]
    unfold insist?
    rw [offer?, hfull]
    simp only [↓reduceIte]
    split
    · next ht =>
      rw [take?_eq_some hitems] at ht
      cases ht
      rw [insist?_of_not_full hroom, hput, surplus, hfull, hitems]
      rfl
    · next ht => rw [take?_eq_some hitems] at ht; cases ht

/-- What becomes of an empty mailbox by things that are put in where there is room, and by things
that are taken out. -/
inductive Reached (capacity : Int) : Mailbox α → Prop
  | empty : Reached capacity (.empty capacity)
  | offered {b b' : Mailbox α} {a : α} (h : Reached capacity b) (ho : b.offer? a = some b') :
      Reached capacity b'
  | taken {b b' : Mailbox α} {a : α} (h : Reached capacity b) (ht : b.take? = some (a, b')) :
      Reached capacity b'

namespace Reached

variable {capacity : Int}

theorem capacity_eq (h : b.Reached capacity) : b.capacity = capacity := by
  induction h with
  | empty => rfl
  | offered _ ho ih =>
    obtain ⟨-, rfl⟩ := isFull_of_offer? ho
    exact ih
  | taken _ ht ih => exact (capacity_of_take? ht).trans ih

theorem bounded (h : b.Reached capacity) : b.Bounded := by
  induction h with
  | empty => exact Int.le_of_lt
  | @offered b b' a _ ho ih =>
    obtain ⟨hfull, rfl⟩ := isFull_of_offer? ho
    intro (hpos : 0 < b.capacity)
    have hlt : (b.items.size : Int) < b.capacity := by
      simp only [isFull, Bool.and_eq_false_iff, decide_eq_false_iff_not] at hfull
      exact hfull.elim (absurd hpos) Int.not_le.1
    show ((b.items.push a).size : Int) ≤ b.capacity
    rw [Array.size_push]
    omega
  | @taken b b' a _ ht ih =>
    have hlt := size_lt_of_take? ht
    have hcapacity := capacity_of_take? ht
    intro hpos
    rw [hcapacity] at hpos ⊢
    have hle := ih hpos
    omega

/-- To insist on something is made of offers and takings. -/
theorem insisted {ds : List α} (h : b.Reached capacity) (hi : b.insist? a = some (ds, b')) :
    b'.Reached capacity := by
  fun_induction insist? b a generalizing ds b' with
  | case1 b b₁ ho =>
    cases hi
    exact h.offered ho
  | case2 b _ d b₁ ht ih =>
    obtain ⟨⟨ds₁, b₂⟩, hi₁, heq⟩ := Option.map_eq_some_iff.1 hi
    cases heq
    exact ih (h.taken ht) hi₁
  | case3 => cases hi

/-- So is to take out all there is. -/
theorem takeAll (h : b.Reached capacity) : b.takeAll.2.Reached capacity := by
  fun_induction Mailbox.takeAll b with
  | case1 b a b₁ ht as b₂ heq ih =>
    have hb := ih (h.taken ht)
    rw [heq] at hb
    exact hb
  | case2 => exact h

end Reached

end Mailbox

/-! ### Hosts that are told and look -/

/-- What happens to a host's mailbox. -/
inductive Dealing where
  | told (n : Notice)
  | drained

namespace Dealing

def notice? : Dealing → Option Notice
  | told n => some n
  | drained => none

/-- What has been told since the mailbox was last emptied. -/
def sinceDrained (ds : List Dealing) : List Notice :=
  (ds.rtakeWhile fun d => d.notice?.isSome).filterMap notice?

theorem sinceDrained_concat_told (ds : List Dealing) (n : Notice) :
    sinceDrained (ds ++ [told n]) = sinceDrained ds ++ [n] := by
  simp [sinceDrained, notice?]

theorem sinceDrained_concat_drained (ds : List Dealing) :
    sinceDrained (ds ++ [drained]) = [] := by
  simp [sinceDrained, notice?]

end Dealing

namespace Listener

def deal (l : Listener) : Dealing → Listener
  | .told n => l.hear n
  | .drained => { l with inbox := l.inbox.drain.2 }

/-- A host that hears everything, and what is in its mailbox. -/
structure Holding (l : Listener) (capacity : Int) (ns : List Notice) : Prop where
  topics : l.topics = everything
  reached : l.inbox.Reached capacity
  items : l.inbox.items.toList = Mailbox.latest capacity ns

namespace Holding

variable {l : Listener} {capacity : Int} {ns : List Notice}

theorem inbox_hear (h : l.Holding capacity ns) (n : Notice) :
    (l.hear n).inbox = l.inbox.put n := by
  rw [hear, h.topics, if_pos (mem_everything _)]

theorem told (h : l.Holding capacity ns) (n : Notice) :
    (l.hear n).Holding capacity (ns ++ [n]) := by
  have hinsist := Mailbox.insist?_eq h.reached.bounded n
  have hinbox := h.inbox_hear n
  refine ⟨?_, ?_, ?_⟩
  · rw [← h.topics, hear]
    split <;> rfl
  · rw [hinbox]
    exact h.reached.insisted hinsist
  · have hcapacity := h.reached.capacity_eq
    rw [hinbox, ← hcapacity]
    exact Mailbox.toList_put_latest (hcapacity ▸ h.items) n

theorem drained (h : l.Holding capacity ns) :
    (l.deal .drained).Holding capacity [] := by
  refine ⟨h.topics, ?_, ?_⟩
  · show l.inbox.drain.2.Reached capacity
    rw [← Mailbox.takeAll_eq]
    exact h.reached.takeAll
  · exact (Mailbox.latest_nil capacity).symm

/-- By induction from the end, where the mailbox has last been emptied. -/
theorem dealt (capacity : Int) (ds : List Dealing) :
    (ds.foldl deal (hearing everything capacity)).Holding capacity (Dealing.sinceDrained ds) := by
  induction ds using List.reverseRecOn with
  | nil => exact ⟨rfl, .empty, (Mailbox.latest_nil capacity).symm⟩
  | append_singleton ds d ih =>
    rw [List.foldl_append, List.foldl_cons, List.foldl_nil]
    cases d with
    | told n =>
      rw [Dealing.sinceDrained_concat_told]
      exact ih.told n
    | drained =>
      rw [Dealing.sinceDrained_concat_drained]
      exact ih.drained

end Holding

/-- To look into the mailbox of a host that hears everything, one thing after the other until there
is none, gives the latest of what it was told since it last looked, and empties it. The mailbox is
never above its capacity, also in between, and to tell the host something comes to an end and drops
the oldest at most. -/
theorem inbox_latest (capacity : Int) (ds : List Dealing) :
    let l := ds.foldl deal (hearing everything capacity)
    l.inbox.takeAll = (Mailbox.latest capacity (Dealing.sinceDrained ds), .empty capacity) ∧
      l.inbox.drain = l.inbox.takeAll ∧
      l.inbox.Reached capacity ∧
      (∀ b : Mailbox Notice, b.Reached capacity → 1 ≤ capacity → (b.items.size : Int) ≤ capacity) ∧
      ∀ n : Notice, ∃ dropped,
        l.inbox.insist? n = some (dropped, (l.hear n).inbox) ∧ dropped.length ≤ 1 ∧
          dropped ++ (l.hear n).inbox.items.toList = l.inbox.items.toList ++ [n] := by
  intro l
  have h : l.Holding capacity (Dealing.sinceDrained ds) := .dealt capacity ds
  have hcapacity : l.inbox.capacity = capacity := h.reached.capacity_eq
  refine ⟨?_, (Mailbox.takeAll_eq l.inbox).symm, h.reached, fun b hb hpos => ?_, fun n => ?_⟩
  · rw [Mailbox.takeAll_eq, Mailbox.drain, h.items, hcapacity]
    rfl
  · have hle := hb.bounded
    rw [Mailbox.Bounded, hb.capacity_eq] at hle
    exact hle (by omega)
  · rw [h.inbox_hear]
    exact ⟨l.inbox.surplus, Mailbox.insist?_eq h.reached.bounded n, l.inbox.length_surplus_le,
      l.inbox.surplus_append_put n⟩

example :
    let told := [1, 2, 3].map fun k => Dealing.told (.cycleEnd k)
    (told.foldl deal (hearing everything 2)).inbox.drain.1 = [.cycleEnd 2, .cycleEnd 3] := by
  rfl

end Listener

end ChipEight
