import ChipEight.Instr.Exec
import ChipEight.Proofs.Memory
import ChipEight.Proofs.Registers
import ChipEight.Proofs.Sprite

/-!
# What an instruction does

Whatever holds of the registers and survives the changes that an instruction can make holds after
it, however it ends (`Registers.KeptBy.exec`). Whether an instruction can be carried out depends on
the registers alone: `Instr.fault?` is the reason why not, and with registers in range there is no
other (`Instr.exec_of_fault`, `Instr.exec_of_no_fault`).
-/

namespace ChipEight

namespace Machine

variable (m : Machine)

@[simp] theorem goOn_fst : m.goOn.1 = m := rfl

@[simp] theorem skipIf_fst (c : Bool) : (m.skipIf c).1 = m := by cases c <;> rfl

@[simp] theorem finish_fst (f : Option Fault) : (m.finish f).1 = m := by cases f <;> rfl

theorem skipIf_snd (c : Bool) :
    (m.skipIf c).2 = .ok (if c then .jump (m.regs.pc + 4) else .next) := by
  cases c <;> rfl

theorem finish_snd (m' : Machine) (f : Option Fault) : (m.finish f).2 = (m'.finish f).2 := by
  cases f <;> rfl

theorem storeAtIndex_fst (bs : List UInt8) :
    (m.storeAtIndex bs).1 = { m with mem := (m.mem.storeRun m.regs.i bs).1 } :=
  finish_fst _ _

theorem storeAtIndex_snd (bs : List UInt8) :
    (m.storeAtIndex bs).2 = (m.finish (m.mem.storeRun m.regs.i bs).2).2 :=
  finish_snd _ _ _

theorem loadFromIndex_fst (n : Nat) :
    (m.loadFromIndex n).1 = setFrom 0 (m.mem.readRun m.regs.i n).1 m :=
  finish_fst _ _

theorem loadFromIndex_snd (n : Nat) :
    (m.loadFromIndex n).2 = (m.finish (m.mem.readRun m.regs.i n).2).2 :=
  finish_snd _ _ _

theorem drawRows_eq (x y : Reg) (rows : List UInt8) :
    m.drawRows x y rows =
      match m.screen.draw (m.v x) (m.v y) (rows.map fun b => (b.toNat : Int)) with
      | (screen, .ok hit) =>
        { m with regs := m.regs.setFlag (if hit then 1 else 0), screen := screen }.goOn
      | (screen, .error e) => ({ m with screen := screen }, .error (.noPixel e)) :=
  rfl

/-- The draw is taken as it is: nothing about a random byte follows from how it comes about. -/
theorem setRandom_eq (x : Reg) (mask : UInt8) :
    m.setRandom x mask =
      { m with
        regs := m.regs.setV x (m.source.byte.1 &&& mask).toNat
        source := m.source.byte.2 } := by
  obtain ⟨regs, mem, screen, keys, source⟩ := m
  simp only [setRandom]

/-- Putting bytes into registers changes nothing but general registers. -/
theorem setFrom_eq (k : Nat) (bs : List UInt8) :
    setFrom k bs m = { m with regs := { m.regs with v := (setFrom k bs m).regs.v } } := by
  induction bs generalizing k m with
  | nil => rfl
  | cons b bs ih =>
    unfold setFrom
    split
    · rw [ih]; rfl
    · rfl

theorem v_setFrom (k : Nat) (bs : List UInt8) (x : Reg) :
    (setFrom k bs m).v x =
      if k ≤ x.val ∧ x.val < k + bs.length then ((bs.getD (x.val - k) 0).toNat : Int)
      else m.v x := by
  induction bs generalizing k m with
  | nil =>
    have hnot : ¬ (k ≤ x.val ∧ x.val < k + 0) := by omega
    exact (if_neg hnot).symm
  | cons b bs ih =>
    have hx := x.isLt
    have hb := b.toNat_lt
    unfold setFrom
    split
    · next hk =>
      rw [ih, List.length_cons]
      rcases Nat.lt_trichotomy x.val k with hlt | heq | hgt
      · have h₁ : ¬ k + 1 ≤ x.val := by omega
        have h₂ : ¬ k ≤ x.val := by omega
        have h₃ : x ≠ ⟨k, hk⟩ := fun he => Nat.ne_of_lt hlt (congrArg Fin.val he)
        simp only [h₁, h₂, h₃, false_and, ↓reduceIte, v, setV, Registers.get_setV]
      · have h₁ : ¬ k + 1 ≤ x.val := by omega
        have h₂ : k ≤ x.val ∧ x.val < k + (bs.length + 1) := by omega
        have h₃ : x = ⟨k, hk⟩ := Fin.ext heq
        have h₄ : x.val - k = 0 := by omega
        simp only [h₁, h₂, and_self, false_and, ↓reduceIte, v, setV, Registers.get_setV, ← h₃, h₄,
          List.getD_cons_zero]
        omega
      · have h₁ : k + 1 ≤ x.val ∧ x.val < k + 1 + bs.length ↔
            k ≤ x.val ∧ x.val < k + (bs.length + 1) := by omega
        have h₂ : x.val - k = x.val - (k + 1) + 1 := by omega
        have h₃ : x ≠ ⟨k, hk⟩ := fun he => Nat.ne_of_gt hgt (congrArg Fin.val he)
        simp only [h₁, h₂, h₃, ↓reduceIte, List.getD_cons_succ, v, setV, Registers.get_setV]
    · have hnot : ¬ (k ≤ x.val ∧ x.val < k + (b :: bs).length) := by omega
      exact (if_neg hnot).symm

end Machine

/-! ### Registers -/

section
variable {P : Registers → Prop} {m : Machine}

theorem Machine.regs_setFrom (hP : ∀ {r} x z, P r → P (r.setV x z)) (h : P m.regs) (k : Nat)
    (bs : List UInt8) : P (setFrom k bs m).regs := by
  induction bs generalizing k m with
  | nil => exact h
  | cons b bs ih =>
    unfold setFrom
    split
    · exact ih (hP _ _ h) (k + 1)
    · exact h

theorem Machine.regs_drawRows (hP : ∀ {r} x z, P r → P (r.setV x z)) (h : P m.regs) (x y : Reg)
    (rows : List UInt8) : P (m.drawRows x y rows).1.regs := by
  rw [drawRows_eq]
  split
  · exact hP _ _ h
  · exact h

/-- An instruction keeps a property that survives the changes it can make, also if it fails. -/
theorem Registers.KeptBy.exec {i : Instr} (hP : KeptBy P i) (h : P m.regs) :
    P (i.exec m).1.regs := by
  cases i with
  | clear | jump | jumpOffset => exact h
  | skipIfByte | skipUnlessByte | skipIfEqual | skipUnlessEqual | skipIfKey | skipUnlessKey =>
    rw [Instr.exec, Machine.skipIf_fst]; exact h
  | loadByte | addByte | copy | bitOr | bitAnd | bitXor | readDelay =>
    exact hP.setV _ _ h
  | random => rw [Instr.exec, Machine.goOn_fst, Machine.setRandom_eq]; exact hP.setV _ _ h
  | add | sub | shiftRight | subFrom | shiftLeft => exact hP.setV _ _ (hP.setV _ _ h)
  | loadIndex | addIndex | loadGlyph => exact hP.setIndex _ h
  | setDelay => exact hP.setDelay rfl h
  | setSound => exact hP.setSound rfl h
  | storeDecimal | store => rw [Instr.exec, Machine.storeAtIndex_fst]; exact h
  | load => rw [Instr.exec, Machine.loadFromIndex_fst]; exact Machine.regs_setFrom hP.setV h _ _
  | ret =>
    simp only [Instr.exec]
    split
    · exact h
    · exact hP.popped rfl h
  | call =>
    simp only [Instr.exec]
    split
    · exact h
    · exact hP.pushed rfl ‹_› h
  | awaitKey =>
    simp only [Instr.exec]
    split
    · exact hP.setV _ _ h
    · exact h
  | draw =>
    simp only [Instr.exec]
    split
    · exact h
    · exact Machine.regs_drawRows hP.setV h _ _ _

theorem Registers.Stable.exec (hP : Stable P) (h : P m.regs) (i : Instr) : P (i.exec m).1.regs :=
  (hP.keptBy i).exec h

end

/-! ### Faults -/

/-- How an instruction ends if `f` is the reason, if any, why it cannot be carried out. -/
def EndsBy (r : Except Breakdown Flow) (f : Option Fault) : Prop :=
  match f with
  | some f => r = .error (.fault f)
  | none => ∃ flow, r = .ok flow

/-- Why an instruction cannot be carried out, if it cannot. -/
def Instr.fault? (i : Instr) (r : Registers) : Option Fault :=
  match i with
  | ret => if r.stack.size = 0 then some .stackEmpty else none
  | call _ => r.full?.map .stackFull
  | draw _ _ n => Memory.runFault memorySize r.i.toNat n.val
  | storeDecimal _ => Memory.runFault memorySize r.i.toNat 3
  | store x => Memory.runFault memorySize r.i.toNat (x.val + 1)
  | load x => Memory.runFault memorySize r.i.toNat (x.val + 1)
  | _ => none

theorem length_storedRegs (r : Registers) (x : Reg) :
    ((r.v.toList.take (x.val + 1)).map UInt8.ofInt).length = x.val + 1 := by
  have := x.isLt
  rw [List.length_map, List.length_take, Vector.length_toList]
  omega

theorem getD_storedRegs (r : Registers) {x y : Reg} (h : y ≤ x) :
    ((r.v.toList.take (x.val + 1)).map UInt8.ofInt).getD y.val 0 = UInt8.ofInt (r.v.get y) := by
  have hlen : y.val < r.v.toList.length := by
    rw [Vector.length_toList]
    exact y.isLt
  rw [List.getD_eq_getElem?_getD, List.getElem?_map,
    List.getElem?_take_of_lt (Nat.lt_succ_of_le h), List.getElem?_eq_getElem hlen]
  rfl

namespace Machine

theorem endsBy_finish (m : Machine) (f : Option Fault) : EndsBy (m.finish f).2 f := by
  cases f with
  | none => exact ⟨.next, rfl⟩
  | some f => rfl

variable {m : Machine} (h : m.regs.InRange)
include h

theorem storeRun_index_snd (bs : List UInt8) :
    (m.mem.storeRun m.regs.i bs).2 = Memory.runFault memorySize m.regs.i.toNat bs.length := by
  rw [← Memory.storeRun_snd m.mem, Int.toNat_of_nonneg h.i.1]

theorem peek_storeRun_index (bs : List UInt8) (a : Nat) :
    (m.mem.storeRun m.regs.i bs).1.peek a =
      if m.regs.i.toNat ≤ a ∧ a < m.regs.i.toNat + bs.length ∧ a < memorySize then
        bs.getD (a - m.regs.i.toNat) 0
      else m.mem.peek a := by
  rw [← Memory.peek_storeRun m.mem, Int.toNat_of_nonneg h.i.1]

theorem readRun_index_snd (n : Nat) :
    (m.mem.readRun m.regs.i n).2 = Memory.runFault memorySize m.regs.i.toNat n := by
  rw [← Memory.readRun_snd m.mem, Int.toNat_of_nonneg h.i.1]

theorem readRun_index_fst (n : Nat) :
    (m.mem.readRun m.regs.i n).1 =
      (List.range (min n (memorySize - m.regs.i.toNat))).map fun k =>
        m.mem.peek (m.regs.i.toNat + k) := by
  rw [← Memory.readRun_fst m.mem, Int.toNat_of_nonneg h.i.1]

theorem endsBy_storeAtIndex (bs : List UInt8) :
    EndsBy (m.storeAtIndex bs).2 (Memory.runFault memorySize m.regs.i.toNat bs.length) := by
  rw [storeAtIndex_snd, storeRun_index_snd h]
  exact m.endsBy_finish _

theorem endsBy_loadFromIndex (n : Nat) :
    EndsBy (m.loadFromIndex n).2 (Memory.runFault memorySize m.regs.i.toNat n) := by
  rw [loadFromIndex_snd, readRun_index_snd h]
  exact m.endsBy_finish _

/-- General registers that hold bytes have no negative coordinates, so there is always a pixel. -/
theorem drawRows_snd (x y : Reg) (rows : List UInt8) : (m.drawRows x y rows).2 = .ok .next := by
  obtain ⟨hit, hd⟩ : ∃ hit, (m.screen.draw (m.v x) (m.v y) (rows.map fun b => (b.toNat : Int))).2 =
      .ok hit := m.screen.exists_draw (h.v x).1 (h.v y).1 _
  rw [drawRows_eq]
  split
  · rfl
  · next heq => rw [heq] at hd; cases hd

end Machine

/-- With registers in range, `fault?` is the only reason for which an instruction fails. -/
theorem Instr.endsBy_exec {m : Machine} (h : m.regs.InRange) (i : Instr) :
    EndsBy (i.exec m).2 (i.fault? m.regs) := by
  cases i with
  | ret =>
    cases hb : m.regs.stack.back? with
    | none =>
      have hs : m.regs.stack.size = 0 := by simpa using hb
      simp only [exec, hb, fault?, hs]
      rfl
    | some a =>
      have hs : m.regs.stack.size ≠ 0 := fun hs => by simp [Array.size_eq_zero_iff.1 hs] at hb
      simp only [exec, hb, fault?, hs]
      exact ⟨_, rfl⟩
  | call t =>
    cases hd : m.regs.full? with
    | none => simp only [exec, hd, fault?]; exact ⟨_, rfl⟩
    | some d => simp only [exec, hd, fault?]; rfl
  | draw x y n =>
    have hs := Machine.readRun_index_snd h n.val
    simp only [exec, fault?, ← hs]
    split
    · next heq => rw [heq]; rfl
    · next heq => rw [heq]; exact ⟨_, Machine.drawRows_snd h _ _ _⟩
  | storeDecimal x => exact Machine.endsBy_storeAtIndex h (decimalDigits (m.v x))
  | store x =>
    rw [fault?, ← length_storedRegs m.regs x]
    exact Machine.endsBy_storeAtIndex h _
  | load x => exact Machine.endsBy_loadFromIndex h _
  | skipIfByte | skipUnlessByte | skipIfEqual | skipUnlessEqual | skipIfKey | skipUnlessKey =>
    exact ⟨_, Machine.skipIf_snd _ _⟩
  | awaitKey => simp only [exec]; split <;> exact ⟨_, rfl⟩
  | _ => exact ⟨_, rfl⟩

theorem Instr.exec_of_fault {m : Machine} (h : m.regs.InRange) {i : Instr} {f : Fault}
    (hf : i.fault? m.regs = some f) : (i.exec m).2 = .error (.fault f) := by
  have := endsBy_exec h i
  rwa [hf] at this

theorem Instr.exec_of_no_fault {m : Machine} (h : m.regs.InRange) {i : Instr}
    (hf : i.fault? m.regs = none) : ∃ flow, (i.exec m).2 = .ok flow := by
  have := endsBy_exec h i
  rwa [hf] at this

theorem Machine.eq_some_of_finish {m : Machine} {f : Option Fault} {g : Fault}
    (h : (m.finish f).2 = .error (.fault g)) : f = some g := by
  cases f with
  | none => cases h
  | some f => cases h; rfl

/-- Whatever the registers hold, an instruction does not fail for want of an instruction. -/
theorem Instr.kind_ne_undefined {i : Instr} {m : Machine} {f : Fault}
    (h : (i.exec m).2 = .error (.fault f)) : f.kind ≠ .undefined := by
  cases i with
  | ret =>
    simp only [exec] at h
    split at h <;> cases h
    nofun
  | call =>
    simp only [exec] at h
    split at h <;> cases h
    nofun
  | draw =>
    simp only [exec] at h
    split at h
    · next heq =>
      cases h
      rw [Memory.kind_of_readRun (congrArg Prod.snd heq)]
      nofun
    · rw [Machine.drawRows_eq] at h
      split at h <;> cases h
  | storeDecimal | store =>
    rw [exec, Machine.storeAtIndex_snd] at h
    rw [Memory.kind_of_storeRun (Machine.eq_some_of_finish h)]
    nofun
  | load =>
    rw [exec, Machine.loadFromIndex_snd] at h
    rw [Memory.kind_of_readRun (Machine.eq_some_of_finish h)]
    nofun
  | skipIfByte | skipUnlessByte | skipIfEqual | skipUnlessEqual | skipIfKey | skipUnlessKey =>
    rw [exec, Machine.skipIf_snd] at h
    cases h
  | awaitKey =>
    simp only [exec] at h
    split at h <;> cases h
  | _ => cases h

end ChipEight
