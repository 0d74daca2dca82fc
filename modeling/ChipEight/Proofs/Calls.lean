import ChipEight.Proofs.Moves

/-!
# Calls come back

Apart from a call, which puts one address on top of the stack, and a return, which takes one away,
no instruction touches the stack (`Instr.stack_exec_eq`). So what a call has put there stays until
the stack is as short again as before the call, and only a return can make it so, which then goes on
behind the call (`Emulator.return_of_call`). What runs in between does not matter, and neither does
what the host does as long as it does not switch the machine off.
-/

namespace ChipEight

/-- Only calls and returns touch the stack, whether or not an instruction fails. -/
theorem Instr.stack_exec_eq {i : Instr} (hret : i ≠ .ret) (hcall : ∀ t, i ≠ .call t) (m : Machine) :
    (i.exec m).1.regs.stack = m.regs.stack := by
  have hkept : Registers.KeptBy (·.stack = m.regs.stack) i :=
    { setV := fun _ _ h => h
      setIndex := fun _ h => h
      pushed := fun ht => absurd ht (hcall _)
      popped := fun ht => absurd ht hret
      setDelay := fun _ h => h
      setSound := fun _ h => h }
  exact hkept.exec rfl

namespace Emulator

variable {e e' : Emulator} {k : Nat} {t : Target}

/-- How a cycle that succeeds changes the stack and, where it does, the program counter. -/
inductive StackMoved (e : Emulator) (r : Registers) : Prop
  | kept (h : r.stack = e.machine.regs.stack)
  | pushed {t : Target} (hi : e.machine.next? = some (.call t))
      (h : r.stack = e.machine.regs.stack.push (e.machine.regs.pc + 2))
  | popped {a : Int} (hi : e.machine.next? = some .ret) (h : e.machine.regs.stack = r.stack.push a)
      (hpc : r.pc = a % 65536)

/-- A call that succeeds has been fetched, so the address behind it needs no cutting to its size. -/
theorem stack_of_call (h : e.machine.regs.InRange) (hi : e.machine.next? = some (.call t))
    (hok : e.cycle.2.error = none) :
    e.cycle.1.machine.regs.stack = e.machine.regs.stack.push (e.machine.regs.pc + 2) := by
  have hpc₀ := h.pc.1
  have hc := cycled_cycle h
  generalize e.cycle = c at hok hc ⊢
  cases hc with
  | unfetched | undefined | fault => cases hok
  | @done w i flow hpc hw hi' hf hx =>
    cases (hi'.symm.trans (Machine.next?_of_fetch hw).symm).trans hi
    have hfull : e.machine.regs.full? = none := Option.map_eq_none_iff.1 hf
    have hmod : (e.machine.regs.pc + 2) % 65536 = e.machine.regs.pc + 2 := by
      have hsize : memorySize = 4096 := rfl
      omega
    simp only [done, Instr.exec, hfull, Machine.jump, Machine.advance, Registers.tick,
      Registers.pushed, hmod]

/-- A return that succeeds goes on at the address that was on top. -/
theorem stack_of_ret (h : e.machine.regs.InRange) (hi : e.machine.next? = some .ret)
    (hok : e.cycle.2.error = none) :
    ∃ a, e.machine.regs.stack = e.cycle.1.machine.regs.stack.push a ∧
      e.cycle.1.machine.regs.pc = a % 65536 := by
  have hc := cycled_cycle h
  generalize e.cycle = c at hok hc ⊢
  cases hc with
  | unfetched | undefined | fault => cases hok
  | @done w i flow hpc hw hi' hf hx =>
    cases (hi'.symm.trans (Machine.next?_of_fetch hw).symm).trans hi
    cases hb : e.machine.regs.stack.back? with
    | none => simp only [Instr.exec, hb] at hx; cases hx
    | some a =>
      obtain ⟨as, has⟩ : ∃ as : Array Int, e.machine.regs.stack = as.push a :=
        Array.back?_eq_some_iff.1 hb
      simp only [Instr.exec, hb] at hx
      cases hx
      have hdone : (e.done (Instr.ret.exec e.machine).1 (.jump a)).machine =
          { e.machine with regs := e.machine.regs.popped }.advance (.jump a) e.decrementSound := by
        simp only [Emulator.done, Instr.exec, hb, Machine.jump]
      rw [hdone]
      refine ⟨a, has.trans ?_, rfl⟩
      show as.push a = e.machine.regs.stack.pop.push a
      rw [has, Array.pop_push]

theorem stackMoved_cycle (h : e.machine.regs.InRange) (hok : e.cycle.2.error = none) :
    e.StackMoved e.cycle.1.machine.regs := by
  by_cases hcall : ∃ t, e.machine.next? = some (.call t)
  · obtain ⟨t, ht⟩ := hcall
    exact .pushed ht (stack_of_call h ht hok)
  by_cases hret : e.machine.next? = some .ret
  · obtain ⟨a, hstack, hpc⟩ := stack_of_ret h hret hok
    exact .popped hret hstack hpc
  have hc := cycled_cycle h
  generalize e.cycle = c at hok hc ⊢
  cases hc with
  | unfetched | undefined | fault => cases hok
  | @done w i flow hpc hw hi hf hx =>
    have hnext : e.machine.next? = some i := (Machine.next?_of_fetch hw).trans hi
    exact .kept (Instr.stack_exec_eq (fun hi => hret (hi ▸ hnext))
      (fun t ht => hcall ⟨t, ht ▸ hnext⟩) e.machine)

/-- From `e` the emulator has come to `e'` by cycles that succeed and leave more than `k` return
addresses, and by whatever the host did in between short of switching the machine off. -/
inductive Inside (k : Nat) (e : Emulator) : Emulator → Prop
  | refl : Inside k e e
  | cycle {e' : Emulator} (h : Inside k e e') (hok : e'.cycle.2.error = none)
      (hk : k < e'.cycle.1.machine.regs.stack.size) : Inside k e e'.cycle.1
  | host {e' : Emulator} {c : Control} (h : Inside k e e') (hstep : c ≠ .step)
      (hoff : c ≠ .powerOn) : Inside k e (e'.obey c)

theorem regs_obey {c : Control} (hstep : c ≠ .step) (hoff : c ≠ .powerOn) (e : Emulator) :
    (e.obey c).machine.regs = e.machine.regs := by
  cases c with
  | step => exact absurd rfl hstep
  | powerOn => exact absurd rfl hoff
  | loadFile path file =>
    show (e.machine.loadFile file).regs = _
    unfold Machine.loadFile
    split <;> rfl
  | setClock hz => simp only [obey, setClock]; split <;> rfl
  | _ => rfl

/-- What is at the bottom of the stack stays there while the stack is long enough for it. -/
theorem Inside.stack {l : List Int} (hd : Inside k e e') (h : e.machine.regs.InRange)
    (hl : l <+: e.machine.regs.stack.toList) (hlen : l.length = k + 1) :
    e'.machine.regs.InRange ∧ l <+: e'.machine.regs.stack.toList := by
  induction hd with
  | refl => exact ⟨h, hl⟩
  | host _ hstep hoff ih => rw [regs_obey hstep hoff]; exact ih
  | @cycle e' _ hok hk ih =>
    obtain ⟨hr, hl'⟩ := ih
    refine ⟨inRange_cycle hr, ?_⟩
    have hm := stackMoved_cycle hr hok
    generalize e'.cycle.1.machine.regs = r at hk hm ⊢
    cases hm with
    | kept hkept => rwa [hkept]
    | pushed _ hpushed =>
      rw [hpushed, Array.toList_push]
      exact hl'.trans (List.prefix_append _ _)
    | popped _ hpopped =>
      rw [hpopped, Array.toList_push] at hl'
      refine List.prefix_of_prefix_length_le hl' (List.prefix_append _ _) ?_
      rw [hlen, Array.length_toList]
      exact hk

/-- After a call, let all cycles leave the stack longer than it was before, and one more cycle leave
it as long as it was. The word of that cycle is a return, which goes on behind the call, and the
stack holds what it held before. -/
theorem return_of_call (h : e.machine.regs.InRange) (hcall : e.machine.next? = some (.call t))
    (hok : e.cycle.2.error = none) (hd : Inside e.machine.regs.stack.size e.cycle.1 e')
    (hok' : e'.cycle.2.error = none)
    (hsize : e'.cycle.1.machine.regs.stack.size = e.machine.regs.stack.size) :
    e'.machine.next? = some .ret ∧ e'.cycle.1.machine.regs.pc = e.machine.regs.pc + 2 ∧
      e'.cycle.1.machine.regs.stack = e.machine.regs.stack := by
  have hpushed := stack_of_call h hcall hok
  have hrange := inRange_cycle h
  obtain ⟨hr, hl⟩ := hd.stack hrange List.prefix_rfl
    (by rw [hpushed, Array.length_toList, Array.size_push])
  obtain ⟨hlow, hhigh⟩ := hrange.stack (e.machine.regs.pc + 2) (hpushed ▸ Array.mem_push_self)
  rw [hpushed, Array.toList_push] at hl
  have hlong := hl.length_le
  rw [List.length_append, List.length_singleton, Array.length_toList, Array.length_toList] at hlong
  have hm := stackMoved_cycle hr hok'
  generalize e'.cycle.1.machine.regs = r at hsize hm ⊢
  cases hm with
  | kept hkept => rw [hkept] at hsize; omega
  | pushed _ hp => rw [hp, Array.size_push] at hsize; omega
  | @popped a hi hp hpc =>
    -- The stack before the return is as long as its known beginning, so it is just that.
    have hsize' : e'.machine.regs.stack.size = e.machine.regs.stack.size + 1 := by
      rw [hp, Array.size_push, hsize]
    have heq := hl.eq_of_length (by simp [hsize'])
    rw [hp, Array.toList_push] at heq
    obtain ⟨hstack, ha⟩ := List.append_inj' heq rfl
    obtain rfl : e.machine.regs.pc + 2 = a := List.singleton_inj.1 ha
    exact ⟨hi, by rw [hpc]; omega, (Array.ext' hstack).symm⟩

/-- A call within a call: the first return goes on in the outer one, the second behind it. -/
theorem return_of_call_nested :
    let e := (Emulator.new {}).loadRom [0x22, 0x04, 0x12, 0x02, 0x22, 0x08, 0x00, 0xEE, 0x00, 0xEE]
    let e' := e.cycle.1.cycle.1.cycle.1
    (e.machine.regs.InRange ∧ e.machine.next? = some (.call 0x204) ∧
      Inside e.machine.regs.stack.size e.cycle.1 e') ∧
      e'.machine.next? = some .ret ∧ e'.cycle.1.machine.regs.pc = e.machine.regs.pc + 2 ∧
      e'.cycle.1.machine.regs.stack = e.machine.regs.stack := by
  intro e e'
  have h : e.machine.regs.InRange := Registers.InRange.initial _
  have hrun : e.machine.next? = some (.call 0x204) ∧ e.cycle.2.error = none ∧
      e.cycle.1.cycle.2.error = none ∧ e.cycle.1.cycle.1.cycle.2.error = none ∧
      e'.cycle.2.error = none ∧
      e.machine.regs.stack.size < e.cycle.1.cycle.1.machine.regs.stack.size ∧
      e.machine.regs.stack.size < e'.machine.regs.stack.size ∧
      e'.cycle.1.machine.regs.stack.size = e.machine.regs.stack.size := by
    decide +kernel
  clear_value e
  obtain ⟨hcall, hok₀, hok₁, hok₂, hok₃, hk₁, hk₂, hsize⟩ := hrun
  have hd : Inside e.machine.regs.stack.size e.cycle.1 e' := .cycle (.cycle .refl hok₁ hk₁) hok₂ hk₂
  exact ⟨⟨h, hcall, hd⟩, return_of_call h hcall hok₀ hd hok₃ hsize⟩

end Emulator

end ChipEight
