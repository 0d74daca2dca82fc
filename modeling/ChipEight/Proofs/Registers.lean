import ChipEight.Registers

/-!
# Registers in range

`Registers.InRange` says that every register holds what its size allows, a byte or sixteen bits, and
`Registers.WellFormed` that the stack is no deeper than its limit as well. `Registers.Stable` says
that a property survives each of the changes that instructions are made of, so that an invariant is
checked once for each change and not once for each instruction. `Registers.KeptBy` says it of the
changes that a given instruction can make.
-/

namespace ChipEight.Registers

/-- Every register holds a byte or sixteen bits, whichever is its size. -/
structure InRange (r : Registers) : Prop where
  v : ∀ x, 0 ≤ r.v.get x ∧ r.v.get x < 256
  i : 0 ≤ r.i ∧ r.i < 65536
  pc : 0 ≤ r.pc ∧ r.pc < 65536
  stack : ∀ a ∈ r.stack, 0 ≤ a ∧ a < 65536
  delay : 0 ≤ r.delay ∧ r.delay < 256
  sound : 0 ≤ r.sound ∧ r.sound < 256

/-- In range, and with no more return addresses than there may be. -/
structure WellFormed (r : Registers) : Prop extends InRange r where
  fits : ∀ d, r.depth = some d → (r.stack.size : Int) ≤ max 0 d

theorem get_put (r : Registers) (x : Reg) (z : Int) (y : Reg) :
    (r.put x z).v.get y = if y = x then z else r.v.get y := by
  by_cases h : y = x
  · subst h
    simp only [↓reduceIte]
    exact Vector.getElem_set_self _
  · have hv : x.val ≠ y.val := fun hv => h (Fin.ext hv.symm)
    simp only [h, ↓reduceIte]
    exact Vector.getElem_set_ne x.isLt y.isLt hv

theorem get_setV (r : Registers) (x : Reg) (z : Int) (y : Reg) :
    (r.setV x z).v.get y = if y = x then z % 256 else r.v.get y :=
  r.get_put x (z % 256) y

theorem get_setV_of_mem (r : Registers) (x : Reg) {z : Int} (hz : 0 ≤ z ∧ z < 256) (y : Reg) :
    (r.setV x z).v.get y = if y = x then z else r.v.get y := by
  rw [get_setV, Int.emod_eq_of_lt hz.1 hz.2]

theorem mem_of_mem_popped {r : Registers} {a : Int} (h : a ∈ r.popped.stack) : a ∈ r.stack := by
  have h' : a ∈ r.stack.toList.dropLast := by simpa [popped] using h.val
  exact Array.mem_toList_iff.1 ((List.dropLast_sublist _).subset h')

theorem full?_eq_none_iff (r : Registers) :
    r.full? = none ↔ ∀ d, r.depth = some d → (r.stack.size : Int) < d := by
  simp [full?, Option.filter_eq_none_iff]

namespace InRange

variable {r : Registers}

theorem initial (depth : Option Int) : (Registers.initial depth Memory.programStart).InRange where
  v x := by simp [Registers.initial, Vector.get]
  i := by simp [Registers.initial]
  pc := by simp [Registers.initial, Memory.programStart]
  stack := by simp [Registers.initial]
  delay := by simp [Registers.initial]
  sound := by simp [Registers.initial]

theorem setV (h : r.InRange) (x : Reg) (z : Int) : (r.setV x z).InRange :=
  { h with
    v := fun y => by
      rw [get_setV]
      split
      · omega
      · exact h.v y }

theorem setIndex (h : r.InRange) (z : Int) : (r.setIndex z).InRange :=
  { h with i := by simp only [Registers.setIndex]; omega }

theorem pushed (h : r.InRange) (a : Int) : (r.pushed a).InRange :=
  { h with
    stack := fun b hb => by
      rcases Array.mem_push.1 hb with hb | rfl
      · exact h.stack b hb
      · omega }

theorem popped (h : r.InRange) : r.popped.InRange :=
  { h with stack := fun a ha => h.stack a (mem_of_mem_popped ha) }

theorem withDelay (h : r.InRange) {t : Int} (ht : 0 ≤ t ∧ t < 256) :
    { r with delay := t }.InRange :=
  { h with delay := ht }

theorem withSound (h : r.InRange) {t : Int} (ht : 0 ≤ t ∧ t < 256) :
    { r with sound := t }.InRange :=
  { h with sound := ht }

theorem withPc (h : r.InRange) {a : Int} (ha : 0 ≤ a ∧ a < 65536) : { r with pc := a }.InRange :=
  { h with pc := ha }

theorem lowered {t : Int} (ht : 0 ≤ t ∧ t < 256) : 0 ≤ lowered t ∧ Registers.lowered t < 256 := by
  unfold Registers.lowered; split <;> omega

theorem tick (h : r.InRange) (withSound : Bool) : (r.tick withSound).InRange :=
  { h with
    delay := lowered h.delay
    sound := by
      cases withSound
      · exact h.sound
      · exact lowered h.sound }

end InRange

/-- Whether a property of the registers survives every change that instructions are made of. A call
puts the address of the next instruction on a stack that has room for it. -/
structure Stable (P : Registers → Prop) : Prop where
  setV : ∀ {r} x z, P r → P (r.setV x z)
  setIndex : ∀ {r} z, P r → P (r.setIndex z)
  pushed : ∀ {r}, r.full? = none → P r → P (r.pushed (r.pc + 2))
  popped : ∀ {r}, P r → P r.popped
  setDelay : ∀ {r} (x : Reg), P r → P { r with delay := r.v.get x }
  setSound : ∀ {r} (x : Reg), P r → P { r with sound := r.v.get x }

/-- Whether a property of the registers survives every change that an instruction can make. Only
calls and returns change the stack, and only the instructions for it set a timer. -/
structure KeptBy (P : Registers → Prop) (i : Instr) : Prop where
  setV : ∀ {r} x z, P r → P (r.setV x z)
  setIndex : ∀ {r} z, P r → P (r.setIndex z)
  pushed : ∀ {r t}, i = .call t → r.full? = none → P r → P (r.pushed (r.pc + 2))
  popped : ∀ {r}, i = .ret → P r → P r.popped
  setDelay : ∀ {r x}, i = .setDelay x → P r → P { r with delay := r.v.get x }
  setSound : ∀ {r x}, i = .setSound x → P r → P { r with sound := r.v.get x }

theorem Stable.keptBy {P : Registers → Prop} (hP : Stable P) (i : Instr) : KeptBy P i where
  setV := hP.setV
  setIndex := hP.setIndex
  pushed _ := hP.pushed
  popped _ := hP.popped
  setDelay {_ x} _ := hP.setDelay x
  setSound {_ x} _ := hP.setSound x

theorem stable_inRange : Stable InRange where
  setV x z h := h.setV x z
  setIndex z h := h.setIndex z
  pushed _ h := h.pushed _
  popped h := h.popped
  setDelay x h := h.withDelay (h.v x)
  setSound x h := h.withSound (h.v x)

/-- Calls put nothing on a stack that is as deep as it may be. -/
theorem stable_fits : Stable fun r => ∀ d, r.depth = some d → (r.stack.size : Int) ≤ max 0 d where
  setV _ _ h := h
  setIndex _ h := h
  pushed {r} hf _ d hd := by
    have hlt := r.full?_eq_none_iff.1 hf d hd
    simp only [Registers.pushed, Array.size_push]
    omega
  popped {r} h d hd := by
    have hle := h d hd
    simp only [Registers.popped, Array.size_pop]
    omega
  setDelay _ h := h
  setSound _ h := h

theorem Stable.and {P Q : Registers → Prop} (hP : Stable P) (hQ : Stable Q) :
    Stable fun r => P r ∧ Q r where
  setV x z h := ⟨hP.setV x z h.1, hQ.setV x z h.2⟩
  setIndex z h := ⟨hP.setIndex z h.1, hQ.setIndex z h.2⟩
  pushed hf h := ⟨hP.pushed hf h.1, hQ.pushed hf h.2⟩
  popped h := ⟨hP.popped h.1, hQ.popped h.2⟩
  setDelay x h := ⟨hP.setDelay x h.1, hQ.setDelay x h.2⟩
  setSound x h := ⟨hP.setSound x h.1, hQ.setSound x h.2⟩

theorem stable_pc (a : Int) : Stable fun r => r.pc = a where
  setV _ _ h := h
  setIndex _ h := h
  pushed _ h := h
  popped h := h
  setDelay _ h := h
  setSound _ h := h

theorem stable_depth (d : Option Int) : Stable fun r => r.depth = d where
  setV _ _ h := h
  setIndex _ h := h
  pushed _ h := h
  popped h := h
  setDelay _ h := h
  setSound _ h := h

end ChipEight.Registers
