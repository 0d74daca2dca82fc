import ChipEight.Batch
import ChipEight.Document
import ChipEight.Proofs.Notices
import ChipEight.Proofs.Obstacle

/-!
# Batch runs

`Emulator.RunsTo` says what cycles come to that are run up to a number or the first that fails: what
came of those that succeeded, the report of the one that failed, and the emulator in the end. There
is just one way in which they can go (`Emulator.RunsTo.unique`), a run may be continued where it has
ended (`Emulator.RunsTo.append`), and one that has failed does not change any more
(`Emulator.RunsTo.failed`). A batch run is read off such a run (`Batch.run_eq`), so one for more
cycles extends one for fewer (`Batch.run_extends`).
-/

namespace ChipEight

namespace Emulator

variable {e e' e'' : Emulator} {m n : Nat} {os os' : List Outcome} {error error' : Option Report}

/-- Cycles up to a number or the first that fails. -/
inductive RunsTo : Emulator → Nat → List Outcome → Option Report → Emulator → Prop
  | stop (e : Emulator) : RunsTo e 0 [] none e
  | fail {e : Emulator} {n : Nat} {r : Report} (h : e.cycle.2.ending = .failed r) :
      RunsTo e (n + 1) [] (some r) e.cycle.1
  | next {e e' : Emulator} {n : Nat} {os : List Outcome} {error : Option Report}
      (h : e.cycle.2.ending = .done) (rest : RunsTo e.cycle.1 n os error e') :
      RunsTo e (n + 1) (e.cycle.2 :: os) error e'

theorem exists_runsTo (h : e.machine.regs.InRange) (n : Nat) :
    ∃ os error e', e.RunsTo n os error e' := by
  induction n generalizing e with
  | zero => exact ⟨[], none, e, .stop e⟩
  | succ n ih =>
    rcases ending_cases h with ⟨hdone, -⟩ | ⟨r, hfailed, -⟩
    · obtain ⟨os, error, e', hrest⟩ := ih (inRange_cycle h)
      exact ⟨_, error, e', .next hdone hrest⟩
    · exact ⟨[], some r, _, .fail hfailed⟩

theorem outcome_of_done (hr : e.machine.regs.InRange) (hd : e.cycle.2.ending = .done) :
    e.cycle.2 = ⟨e.steps + 1, e.machine.regs.pc, some e.machine.word, .done⟩ := by
  have hfetch := Machine.fetch_eq hr
  have hc := cycled_cycle hr
  generalize e.cycle = c at hc hd ⊢
  cases hc with
  | unfetched | undefined | fault => cases hd
  | done hpc hw =>
    rw [if_pos hpc] at hfetch
    cases hw.symm.trans hfetch
    rfl

namespace RunsTo

theorem unique (h : e.RunsTo n os error e') (h' : e.RunsTo n os' error' e'') :
    os' = os ∧ error' = error ∧ e'' = e' := by
  induction h generalizing os' with
  | stop => cases h'; exact ⟨rfl, rfl, rfl⟩
  | fail hf =>
    cases h' with
    | fail hf' => cases hf.symm.trans hf'; exact ⟨rfl, rfl, rfl⟩
    | next hd => cases hf.symm.trans hd
  | next hd _ ih =>
    cases h' with
    | fail hf => cases hf.symm.trans hd
    | next _ hrest =>
      obtain ⟨rfl, herror, he⟩ := ih hrest
      exact ⟨rfl, herror, he⟩

theorem append (h : e.RunsTo m os none e') (h' : e'.RunsTo n os' error e'') :
    e.RunsTo (m + n) (os ++ os') error e'' := by
  generalize hnone : none = error₀ at h
  induction h with
  | stop => rw [Nat.zero_add]; exact h'
  | fail => cases hnone
  | next hd _ ih => rw [Nat.succ_add]; exact .next hd (ih h' hnone)

/-- However many cycles more it might have run. -/
theorem failed {r : Report} (h : e.RunsTo m os (some r) e') (n : Nat) :
    e.RunsTo (m + n) os (some r) e' := by
  generalize hsome : some r = error at h
  induction h with
  | stop => cases hsome
  | fail hf => rw [Nat.succ_add]; exact .fail hf
  | next hd _ ih => rw [Nat.succ_add]; exact .next hd (ih hsome)

theorem length_eq_iff (h : e.RunsTo n os error e') : os.length = n ↔ error = none := by
  induction h with
  | stop => simp
  | fail => simp
  | next _ _ ih => simpa using ih

theorem steps_eq (h : e.RunsTo n os error e') (hr : e.machine.regs.InRange) :
    e'.steps = e.steps + os.length := by
  induction h with
  | stop => rfl
  | @fail e n r hf =>
    have hend := ending_cycle hr
    rw [hf] at hend
    exact hend.1
  | @next e e' n os error hd _ ih =>
    have hend := ending_cycle hr
    rw [hd] at hend
    rw [ih (inRange_cycle hr), hend, List.length_cons]
    omega

theorem inRange (h : e.RunsTo n os error e') (hr : e.machine.regs.InRange) :
    e'.machine.regs.InRange := by
  induction h with
  | stop => exact hr
  | fail => exact inRange_cycle hr
  | next _ _ ih => exact ih (inRange_cycle hr)

/-- Each cycle but one that fails has its row: what it fetched, from where, and which it was. -/
theorem getElem_eq (h : e.RunsTo n os error e') (hr : e.machine.regs.InRange) {i : Nat}
    (hi : i < os.length) :
    os[i] = ⟨e.steps + i + 1, (e.cycles i).machine.regs.pc, some (e.cycles i).machine.word,
      .done⟩ := by
  induction h generalizing i with
  | stop | fail => cases hi
  | @next e e' n os error hd _ ih =>
    have hrow := outcome_of_done hr hd
    rcases i with _ | i
    · exact hrow
    · have hend := ending_cycle hr
      rw [hd] at hend
      have hrest := ih (inRange_cycle hr) (Nat.lt_of_succ_lt_succ hi)
      rw [hend, show e.steps + 1 + i + 1 = e.steps + (i + 1) + 1 by omega] at hrest
      exact hrest

end RunsTo

end Emulator

/-! ### Pictures -/

namespace Screen

variable {width height : Int} (s : Screen width height)

def symbol (lit : Bool) : Char := if lit then '#' else '.'

theorem picture_eq :
    s.picture = List.ofFn fun r => String.ofList (List.ofFn fun c => symbol (s.lit (cell r c))) := by
  have hrow (r : Fin height.toNat) :
      (List.ofFn fun c => s.lit (cell r c)).map symbol =
        List.ofFn fun c => symbol (s.lit (cell r c)) := by
    rw [List.map_ofFn]
    rfl
  rw [picture, rows, List.map_ofFn]
  exact congrArg List.ofFn (funext fun r => congrArg String.ofList (hrow r))

theorem length_picture : s.picture.length = height.toNat := by
  rw [picture_eq, List.length_ofFn]

theorem getElem_picture (r : Fin height.toNat) (c : Fin width.toNat) :
    (s.picture[r.val]?.bind fun row => row.toList[c.val]?) = some (symbol (s.lit (cell r c))) := by
  rw [picture_eq, List.getElem?_ofFn, dif_pos r.isLt, Option.bind_some, String.toList_ofList,
    List.getElem?_ofFn, dif_pos c.isLt]

end Screen

/-- The frame is a picture of the screen, 32 rows of 64 symbols, and shows exactly its lit
pixels. -/
structure Depicts (frame : List String) (s : Screen 64 32) : Prop where
  height : frame.length = 32
  width : ∀ row ∈ frame, row.length = 64
  symbol : ∀ (x : Fin 64) (y : Fin 32), (frame[y.val]?.bind fun row => row.toList[x.val]?) =
    some (if s.lit (Screen.cell y x) then '#' else '.')

theorem depicts_picture (s : Screen 64 32) : Depicts s.picture s := by
  refine ⟨s.length_picture, fun row hrow => ?_, fun x y => s.getElem_picture y x⟩
  rw [Screen.picture_eq] at hrow
  obtain ⟨r, rfl⟩ := List.mem_ofFn.1 hrow
  rw [String.length_ofList, List.length_ofFn]
  rfl

/-! ### Results -/

/-- What a batch run hands out of the emulator in the end, what came of the cycles and an error. -/
def RunResult.ofRun (traced : Bool) (e : Emulator) (os : List Outcome) (error : Option Report) :
    RunResult :=
  ⟨e.steps, e.machine.regs, e.machine.screen.picture, if traced then os else [], error⟩

namespace RunResult

variable {r : RunResult}

theorem status_eq_ok_iff : r.status = "ok" ↔ r.error = none := by
  rw [status]
  cases r.error <;> simp

theorem status_eq_error_iff : r.status = "error" ↔ r.error ≠ none := by
  rw [status]
  cases r.error <;> simp

end RunResult

namespace Batch

variable {e e' : Emulator} {n : Nat} {os : List Outcome} {error : Option Report}

theorem loop_eq (h : e.RunsTo n os error e') (traced : Bool) (j : Journal) (trace : Array Outcome) :
    (loop traced n e j trace).1 = e' ∧
      (loop traced n e j trace).2.2.1.toList = trace.toList ++ (if traced then os else []) ∧
      (loop traced n e j trace).2.2.2 = error := by
  induction h generalizing j trace with
  | stop => exact ⟨rfl, by simp [loop], rfl⟩
  | fail hf =>
    simp only [loop, hf]
    simp
  | next hd _ ih =>
    simp only [loop, hd]
    obtain ⟨he, htrace, herror⟩ := ih (j.addAll _) (if traced then trace.push _ else trace)
    refine ⟨he, htrace.trans ?_, herror⟩
    cases traced <;> simp

variable {rom : List UInt8} {o : Options}

theorem run_eq {k : Int} (h : ((Emulator.new o).loadRom rom).RunsTo k.toNat os error e)
    (j : Journal) : (run rom (some k) o j).1 = .ofRun o.trace e os error := by
  obtain ⟨he, htrace, herror⟩ := loop_eq h o.trace (j.addAll (RomLoad.of rom).entries) #[]
  unfold run RunResult.ofRun
  simp only [Option.getD_some, he, herror, htrace]
  simp

/-- What the result of a run of at most `k` cycles says of the run. The rows of the trace are the
cycles that have succeeded, each with the word that was in memory when it began. -/
structure Accounts (traced : Bool) (start : Emulator) (k : Int) (r : RunResult) : Prop where
  run : ∃ os e, start.RunsTo k.toNat os r.error e ∧ r = .ofRun traced e os r.error ∧
    Depicts r.frame e.machine.screen
  steps : r.status = "ok" ↔ (r.steps : Int) = max k 0
  error : r.status = "ok" ↔ r.error = none
  rows : traced → r.trace.length = r.steps
  row : ∀ i (hi : i < r.trace.length), r.trace[i] =
    ⟨i + 1, (start.cycles i).machine.regs.pc, some (start.cycles i).machine.word, .done⟩

/-- The result of a run that has not failed, and that of another which goes on where it has ended
for `n` more cycles or up to the first that fails. -/
structure Continues (traced : Bool) (start : Emulator) (m n : Nat) (r r' : RunResult) : Prop where
  status : r.status = "ok"
  steps : r.steps = m
  trace : r.trace <+: r'.trace
  run : ∃ os e os' error e', start.RunsTo m os none e ∧ r = .ofRun traced e os none ∧
    e.RunsTo n os' error e' ∧ r' = .ofRun traced e' (os ++ os') error

section
variable (rom : List UInt8) (o : Options) (j : Journal)

theorem exists_run (k : Int) :
    ∃ os error e, ((Emulator.new o).loadRom rom).RunsTo k.toNat os error e ∧
      (run rom (some k) o j).1 = .ofRun o.trace e os error := by
  obtain ⟨os, error, e, h⟩ := Emulator.exists_runsTo
    (e := (Emulator.new o).loadRom rom) (Registers.InRange.initial _) k.toNat
  exact ⟨os, error, e, h, run_eq h j⟩

theorem accounts_run (k : Int) :
    Accounts o.trace ((Emulator.new o).loadRom rom) k (run rom (some k) o j).1 := by
  obtain ⟨os, error, e, h, hresult⟩ := exists_run rom o j k
  have hr : ((Emulator.new o).loadRom rom).machine.regs.InRange := Registers.InRange.initial _
  have hsteps : e.steps = os.length := (h.steps_eq hr).trans (Nat.zero_add _)
  rw [hresult]
  refine ⟨⟨os, e, h, rfl, depicts_picture _⟩, ?_, RunResult.status_eq_ok_iff, fun htraced => ?_,
    fun i hi => ?_⟩
  · rw [RunResult.status_eq_ok_iff]
    show error = none ↔ (e.steps : Int) = max k 0
    rw [← h.length_eq_iff, hsteps]
    omega
  · show (if o.trace then os else []).length = e.steps
    rw [if_pos htraced, hsteps]
  · by_cases htraced : o.trace
    · have htrace : (RunResult.ofRun o.trace e os error).trace = os := if_pos htraced
      have hstart : ((Emulator.new o).loadRom rom).steps = 0 := rfl
      rw [List.getElem_of_eq htrace hi, h.getElem_eq hr, hstart, Nat.zero_add]
    · have htrace : (RunResult.ofRun o.trace e os error).trace = [] := if_neg htraced
      rw [htrace] at hi
      cases hi

variable {m n : Int} (hmn : m ≤ n)
include hmn

/-- What has failed within `m` cycles has failed in the same way within `n`. -/
theorem run_of_error (herror : (run rom (some m) o j).1.status = "error") :
    (run rom (some n) o j).1 = (run rom (some m) o j).1 := by
  obtain ⟨os, error, e, hm, hresult⟩ := exists_run rom o j m
  rw [hresult, RunResult.status_eq_error_iff] at herror
  obtain ⟨r, rfl⟩ := Option.ne_none_iff_exists'.1 herror
  have hn := hm.failed (n.toNat - m.toNat)
  rw [show m.toNat + (n.toNat - m.toNat) = n.toNat by omega] at hn
  rw [hresult, run_eq hn]

theorem continues_run (hok : (run rom (some m) o j).1.status ≠ "error") :
    Continues o.trace ((Emulator.new o).loadRom rom) m.toNat (n.toNat - m.toNat)
      (run rom (some m) o j).1 (run rom (some n) o j).1 := by
  obtain ⟨os, error, e, hm, hresult⟩ := exists_run rom o j m
  rw [hresult, Ne, RunResult.status_eq_error_iff, Classical.not_not] at hok
  obtain rfl : error = none := hok
  have hr : ((Emulator.new o).loadRom rom).machine.regs.InRange := Registers.InRange.initial _
  have hsteps : e.steps = os.length := (hm.steps_eq hr).trans (Nat.zero_add _)
  obtain ⟨os', error', e', hrest⟩ := Emulator.exists_runsTo (hm.inRange hr) (n.toNat - m.toNat)
  have hn := hm.append hrest
  rw [show m.toNat + (n.toNat - m.toNat) = n.toNat by omega] at hn
  rw [hresult, run_eq hn]
  refine ⟨rfl, hsteps.trans (hm.length_eq_iff.2 rfl), ?_,
    os, e, os', error', e', hm, rfl, hrest, rfl⟩
  show (if o.trace then os else []) <+: if o.trace then os ++ os' else []
  split
  · exact List.prefix_append ..
  · exact List.prefix_rfl

end

/-- A run for more cycles extends one for fewer: once it has failed nothing changes any more, and
otherwise it goes on where it has ended. Counts below zero count as zero. -/
theorem run_extends (rom : List UInt8) (o : Options) (seed : Int) (j : Journal) {m n : Int}
    (hmn : m ≤ n) :
    let o := { o with seed := some seed }
    let start := (Emulator.new o).loadRom rom
    let result (k : Int) := (run rom (some k) o j).1
    ((result m).status = "error" → result n = result m) ∧
      ((result m).status ≠ "error" →
        Continues o.trace start m.toNat (n.toNat - m.toNat) (result m) (result n)) ∧
      ∀ k, Accounts o.trace start k (result k) := by
  intro o start result
  exact ⟨run_of_error rom o j hmn, continues_run rom o j hmn, accounts_run rom o j⟩

/-- Three cycles of a program that writes over its fourth word, and up to its fifth, which fails. -/
theorem run_extends_overwritten :
    let rom := [0x60, 0x70, 0xA2, 0x06, 0xF0, 0x55, 0x00, 0x05, 0x00, 0xEE]
    let o : Options := { trace := true, seed := some 1 }
    let start := (Emulator.new o).loadRom rom
    let result (k : Int) := (run rom (some k) o (.empty none)).1
    ((3 : Int) ≤ 9 ∧ (result 3).status ≠ "error" ∧ (result 9).status = "error") ∧
      Continues true start 3 6 (result 3) (result 9) ∧ result 12 = result 9 ∧
      Accounts true start 9 (result 9) := by
  intro rom o start result
  have hok : (result 3).status ≠ "error" := by decide +kernel
  have herror : (result 9).status = "error" := by decide +kernel
  obtain ⟨-, hcontinues, haccounts⟩ :=
    run_extends rom { trace := true } 1 (.empty none) (show (3 : Int) ≤ 9 by decide)
  obtain ⟨hsame, -⟩ :=
    run_extends rom { trace := true } 1 (.empty none) (show (9 : Int) ≤ 12 by decide)
  exact ⟨⟨by decide, hok, herror⟩, hcontinues hok, hsame herror, haccounts 9⟩

/-- A count below zero is not made up for. -/
theorem run_below_zero :
    let rom := [0x60, 0x07]
    let o : Options := { seed := some 0 }
    let start := (Emulator.new o).loadRom rom
    let result (k : Int) := (run rom (some k) o (.empty none)).1
    ((-1 : Int) ≤ 0 ∧ (result (-1)).status = "ok") ∧
      ¬ Continues o.trace start (-1 : Int).toNat (0 - -1 : Int).toNat (result (-1)) (result 0) := by
  intro rom o start result
  refine ⟨by decide +kernel, ?_⟩
  rintro ⟨-, -, -, os, e, os', error, e', hm, -, hrest, hn⟩
  have hr : start.machine.regs.InRange := Registers.InRange.initial _
  obtain ⟨hdone, hsteps⟩ :
      start.cycle.2.error.isNone ∧ (result 0).steps ≠ start.cycle.1.steps := by decide +kernel
  obtain ⟨-, -, rfl⟩ := (Emulator.RunsTo.stop start).unique hm
  rcases Emulator.ending_cases hr with ⟨hending, -⟩ | ⟨r, -, herror⟩
  · obtain ⟨-, -, rfl⟩ := (Emulator.RunsTo.next hending (.stop _)).unique hrest
    exact hsteps (congrArg RunResult.steps hn)
  · rw [herror] at hdone
    cases hdone

end Batch

end ChipEight
