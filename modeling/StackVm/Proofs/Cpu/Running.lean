import StackVm.Proofs.Cpu.Halting
import StackVm.Proofs.Cpu.View

/-! # Runs are repeated steps

A run looks for a halt before each instruction and once more when its budget is
used up.  `Runs` says the same step by step.  So a run stops at the first halted
state or after its whole budget, and a run that is cut in two goes on where its
first part has stopped.
-/

namespace StackVm

/-- The two kinds of fault have no message in common: one ends in `program`, the other in `words`. -/
theorem CpuFault.message_ne (pc place address : UInt16) (size : Nat) :
    (outsideRam place address size).message ≠ (outsideProgram pc).message := by
  have hprogram : (outsideProgram pc).message.toList.getLast? = some 'm' := by
    rw [message, String.toList_append, List.getLast?_append]
    rfl
  have hwords : (outsideRam place address size).message.toList.getLast? = some 's' := by
    rw [message, String.toList_append, List.getLast?_append]
    rfl
  intro hmessage
  rw [hmessage, hprogram] at hwords
  exact absurd hwords (by decide)

namespace Cpu

variable {cpu next : Cpu} {fault : CpuFault} {budget : Nat}

/-! ## Steps -/

/-- The next instruction needs the cell at the address register, and memory has none. -/
def Overreaches (cpu : Cpu) : Prop :=
  ∃ word, cpu.rom[cpu.pc.toNat]? = some word ∧ isCompute word = true ∧
    (readsMemory word = true ∨ writesMemory word = true) ∧ cpu.ram.size ≤ cpu.a.toNat

/-- A step fails outside of the program, or because it needs a cell outside of memory. -/
theorem fault?_eq_some_iff :
    cpu.fault? = some fault ↔
      cpu.rom.size ≤ cpu.pc.toNat ∧ fault = .outsideProgram cpu.pc ∨
        cpu.Overreaches ∧ fault = .outsideRam cpu.pc cpu.a cpu.ram.size := by
  unfold fault? fetch? Overreaches
  cases hword : cpu.rom[cpu.pc.toNat]? with
  | none =>
      have hle := Array.getElem?_eq_none_iff.1 hword
      constructor
      · rintro ⟨⟩
        exact .inl ⟨hle, rfl⟩
      · rintro (⟨-, rfl⟩ | ⟨⟨word, ⟨⟩, -⟩, -⟩)
        rfl
  | some word =>
      have hlt : ¬ cpu.rom.size ≤ cpu.pc.toNat := by
        rw [← Array.getElem?_eq_none_iff, hword]
        exact Option.some_ne_none word
      have hneeds : (∃ other, some word = some other ∧ isCompute other = true ∧
          (readsMemory other = true ∨ writesMemory other = true) ∧
            cpu.ram.size ≤ cpu.a.toNat) ↔
          (isCompute word && (readsMemory word || writesMemory word) &&
            decide (cpu.ram.size ≤ cpu.a.toNat)) = true := by
        simp [and_assoc]
      simp only [hneeds, hlt, false_and, false_or]
      split
      · next hneed => simp [hneed, eq_comm]
      · next hneed => simp [hneed]

theorem steps_succ_of_step (h : cpu.step = .ok next) (count : Nat) :
    steps (count + 1) cpu = steps count next := by
  obtain ⟨hfault, rfl⟩ := step_eq_ok_iff.1 h
  exact steps_succ_of_none hfault count

/-! ## Runs, step by step -/

/-- A run after some instructions that were executed before it. -/
def Run.after (done : Nat) (run : Run) : Run :=
  { run with cycles := done + run.cycles }

@[simp] theorem Run.cpu_after (done : Nat) (run : Run) : (run.after done).cpu = run.cpu := rfl

@[simp] theorem Run.cycles_after (done : Nat) (run : Run) :
    (run.after done).cycles = done + run.cycles := rfl

theorem Run.after_after (m n : Nat) (run : Run) : (run.after n).after m = run.after (m + n) := by
  rw [after, after, after, Nat.add_assoc]

/-- No instruction of a run failed. -/
def Run.Returns (run : Run) : Prop :=
  ∀ fault, run.ending ≠ .fault fault

/-- The runs of at most `budget` instructions. -/
inductive Runs : Nat → Cpu → Run → Prop where
  | halted {cpu : Cpu} (budget : Nat) (h : cpu.halted = true) : Runs budget cpu ⟨cpu, 0, .halted⟩
  | limit {cpu : Cpu} (h : cpu.halted = false) : Runs 0 cpu ⟨cpu, 0, .limit⟩
  | fault {cpu : Cpu} {fault : CpuFault} (budget : Nat) (h : cpu.halted = false)
      (hstep : cpu.step = .error fault) : Runs (budget + 1) cpu ⟨cpu, 0, .fault fault⟩
  | step {cpu next : Cpu} {budget : Nat} {run : Run} (h : cpu.halted = false)
      (hstep : cpu.step = .ok next) (hrest : Runs budget next run) :
      Runs (budget + 1) cpu (run.after 1)

theorem runFrom_eq (done budget : Nat) (cpu : Cpu) :
    runFrom done budget cpu = (cpu.run budget).after done := by
  unfold run
  induction budget generalizing done cpu with
  | zero => rfl
  | succ budget ih =>
      unfold runFrom
      split
      · rfl
      · split
        · rfl
        · rw [ih (done + 1), ih (0 + 1), Run.after_after]

theorem run_succ_of_step (h : cpu.halted = false) (hstep : cpu.step = .ok next) (budget : Nat) :
    cpu.run (budget + 1) = (next.run budget).after 1 := by
  obtain ⟨hfault, rfl⟩ := step_eq_ok_iff.1 hstep
  rw [← runFrom_eq]
  simp only [run, runFrom, h, perform_of_none hfault, Bool.false_eq_true, if_false, Nat.zero_add]

theorem run_of_fault (h : cpu.halted = false) (hstep : cpu.step = .error fault) (budget : Nat) :
    cpu.run (budget + 1) = ⟨cpu, 0, .fault fault⟩ := by
  simp only [run, runFrom, h, perform_of_fault (step_eq_error_iff.1 hstep), Bool.false_eq_true,
    if_false]

/-- The run of a processor goes step by step. -/
theorem runs_run (budget : Nat) (cpu : Cpu) : Runs budget cpu (cpu.run budget) := by
  induction budget generalizing cpu with
  | zero =>
      cases h : cpu.halted with
      | true =>
          rw [run_of_halted h]
          exact .halted 0 h
      | false =>
          simp only [run, runFrom, h]
          exact .limit h
  | succ budget ih =>
      cases h : cpu.halted with
      | true =>
          rw [run_of_halted h]
          exact .halted _ h
      | false =>
          cases hstep : cpu.step with
          | error fault =>
              rw [run_of_fault h hstep]
              exact .fault budget h hstep
          | ok next =>
              rw [run_succ_of_step h hstep]
              exact .step h hstep (ih next)

namespace Runs

variable {run : Run}

/-- Nothing else is a run. -/
theorem eq_run (h : Runs budget cpu run) : cpu.run budget = run := by
  induction h with
  | halted budget hhalted => exact run_of_halted hhalted budget
  | limit hhalted => simp only [Cpu.run, runFrom, hhalted]; rfl
  | fault budget hhalted hstep => exact run_of_fault hhalted hstep budget
  | step hhalted hstep _ ih => rw [run_succ_of_step hhalted hstep, ih]

/-- The cycles of a run are successful steps. -/
theorem steps (h : Runs budget cpu run) : Cpu.steps run.cycles cpu = (run.cpu, none) := by
  induction h with
  | halted | limit | fault => rfl
  | step hhalted hstep _ ih =>
      rw [Run.cycles_after, Nat.add_comm, steps_succ_of_step hstep, ih, Run.cpu_after]

theorem cycles_le (h : Runs budget cpu run) : run.cycles ≤ budget := by
  induction h with
  | halted | limit | fault => exact Nat.zero_le _
  | step _ _ _ ih =>
      rw [Run.cycles_after]
      omega

/-- A run executes nothing past a halt. -/
theorem running (h : Runs budget cpu run) {earlier : Nat} (hearlier : earlier < run.cycles) :
    (Cpu.steps earlier cpu).1.halted = false := by
  induction h generalizing earlier with
  | halted | limit | fault => exact absurd hearlier (Nat.not_lt_zero _)
  | step hhalted hstep _ ih =>
      rw [Run.cycles_after] at hearlier
      cases earlier with
      | zero => exact hhalted
      | succ earlier =>
          rw [steps_succ_of_step hstep]
          exact ih (by omega)

theorem halted_iff (h : Runs budget cpu run) :
    run.ending = .halted ↔ run.cpu.halted = true := by
  induction h with
  | halted _ hhalted => simp [hhalted]
  | limit hhalted | fault _ hhalted _ => simp [hhalted]
  | step _ _ _ ih => exact ih

theorem cycles_of_limit (h : Runs budget cpu run) (hending : run.ending = .limit) :
    run.cycles = budget := by
  induction h with
  | halted | fault => cases hending
  | limit => rfl
  | step _ _ _ ih =>
      rw [Run.cycles_after, ih hending, Nat.add_comm]

/-- A run fails where its next step does, with cycles to spare. -/
theorem step_of_fault (h : Runs budget cpu run) (hending : run.ending = .fault fault) :
    run.cpu.step = .error fault ∧ run.cpu.halted = false ∧ run.cycles < budget := by
  induction h with
  | halted | limit => cases hending
  | fault budget hhalted hstep =>
      cases hending
      exact ⟨hstep, hhalted, Nat.succ_pos budget⟩
  | step _ _ _ ih =>
      obtain ⟨hstep, hhalted, hlt⟩ := ih hending
      refine ⟨hstep, hhalted, ?_⟩
      rw [Run.cycles_after]
      omega

/-- A run goes on where one with a smaller budget has returned. -/
theorem append {more : Nat} {rest : Run} (h : Runs budget cpu run) (hreturns : run.Returns)
    (hrest : Runs more run.cpu rest) : Runs (budget + more) cpu (rest.after run.cycles) := by
  induction h with
  | halted budget hhalted =>
      rw [← hrest.eq_run, run_of_halted hhalted]
      exact .halted _ hhalted
  | limit =>
      rw [Nat.zero_add, Run.after, Nat.zero_add]
      exact hrest
  | fault => exact absurd rfl (hreturns _)
  | step hhalted hstep _ ih =>
      have hnext := Runs.step hhalted hstep (ih hreturns hrest)
      rw [Run.after_after] at hnext
      rw [Nat.succ_add]
      exact hnext

theorem append_of_fault (h : Runs budget cpu run) (hending : run.ending = .fault fault)
    (more : Nat) : Runs (budget + more) cpu run := by
  induction h with
  | halted | limit => cases hending
  | fault budget hhalted hstep =>
      rw [Nat.succ_add]
      exact .fault _ hhalted hstep
  | step hhalted hstep _ ih =>
      rw [Nat.succ_add]
      exact .step hhalted hstep (ih hending)

/-- A run fails at a cell outside of memory: a program counter outside of the program is a halt. -/
theorem exists_outsideRam (h : Runs budget cpu run) (hending : run.ending = .fault fault) :
    ∃ pc address size, fault = .outsideRam pc address size := by
  obtain ⟨hstep, hhalted, -⟩ := h.step_of_fault hending
  rcases fault?_eq_some_iff.1 (step_eq_error_iff.1 hstep) with ⟨houtside, -⟩ | ⟨-, hfault⟩
  · have hpast := Cpu.halted_iff.2 (.inl houtside)
    rw [hhalted] at hpast
    cases hpast
  · exact ⟨_, _, _, hfault⟩

end Runs

/-! ## Runs that are cut in two -/

/-- A number of steps that a run with a budget takes: to the first halted state, or all of them. -/
structure StopsAfter (cpu : Cpu) (budget count : Nat) : Prop where
  le : count ≤ budget
  running : ∀ earlier < count, (steps earlier cpu).1.halted = false
  stopped : (steps count cpu).1.halted = true ∨ count = budget

theorem Runs.stopsAfter {run : Run} (h : Runs budget cpu run) (hreturns : run.Returns) :
    cpu.StopsAfter budget run.cycles := by
  refine ⟨h.cycles_le, fun _ hearlier => h.running hearlier, ?_⟩
  rw [h.steps]
  cases hending : run.ending with
  | halted => exact .inl (h.halted_iff.1 hending)
  | limit => exact .inr (h.cycles_of_limit hending)
  | fault fault => exact absurd hending (hreturns fault)

/--
A run that returns has executed exactly its cycles, up to the first halted state or its whole
budget, and reports a halt if and only if its last state is halted.  A run that fails has executed
exactly its cycles too, and fails where the next step does, before a halt and with budget to spare.
A run with the budgets of two runs, one after the other, has the outcome of the second and the
cycles of both, or that of the first if the first fails.  No run fails because the program counter
is outside of the program.
-/
theorem run_resumes (cpu : Cpu) (m n : Nat) :
    ((cpu.run m).Returns →
        steps (cpu.run m).cycles cpu = ((cpu.run m).cpu, none) ∧
          cpu.StopsAfter m (cpu.run m).cycles ∧
          ((cpu.run m).ending = .halted ↔ (cpu.run m).cpu.halted = true)) ∧
      (∀ fault, (cpu.run m).ending = .fault fault →
        steps (cpu.run m).cycles cpu = ((cpu.run m).cpu, none) ∧
          (cpu.run m).cpu.step = .error fault ∧ (cpu.run m).cpu.halted = false ∧
          (cpu.run m).cycles < m ∧
          ∀ earlier < (cpu.run m).cycles, (steps earlier cpu).1.halted = false) ∧
      ((cpu.run m).Returns →
        cpu.run (m + n) = ((cpu.run m).cpu.run n).after (cpu.run m).cycles) ∧
      (∀ fault, (cpu.run m).ending = .fault fault → cpu.run (m + n) = cpu.run m) ∧
      ∀ fault pc, (cpu.run m).ending = .fault fault →
        fault ≠ .outsideProgram pc ∧ fault.message ≠ (CpuFault.outsideProgram pc).message := by
  have hruns := runs_run m cpu
  refine ⟨fun hreturns => ⟨hruns.steps, hruns.stopsAfter hreturns, hruns.halted_iff⟩, ?_,
    fun hreturns => (hruns.append hreturns (runs_run n _)).eq_run,
    fun fault hending => (hruns.append_of_fault hending n).eq_run, ?_⟩
  · intro fault hending
    obtain ⟨hstep, hhalted, hlt⟩ := hruns.step_of_fault hending
    exact ⟨hruns.steps, hstep, hhalted, hlt, fun _ hearlier => hruns.running hearlier⟩
  · intro fault pc hending
    obtain ⟨place, address, size, rfl⟩ := hruns.exists_outsideRam hending
    exact ⟨CpuFault.noConfusion, CpuFault.message_ne pc place address size⟩

namespace Sample

/-- `@7`, `D=A` -/
def loading : Cpu :=
  .start [0x0007, 0xec10] 4

/-- `@5`, `M=0`, with no cell at this address -/
def storing : Cpu :=
  .start [0x0005, 0xea88] 4

theorem resumes_loading_storing :
    ((loading.run 1).Returns ∧ (loading.run 1).ending = .limit ∧
        loading.StopsAfter 1 (loading.run 1).cycles ∧
        loading.run (1 + 5) = ((loading.run 1).cpu.run 5).after (loading.run 1).cycles ∧
        (loading.run (1 + 5)).cycles = 2 ∧ (loading.run (1 + 5)).ending = .halted) ∧
      (storing.run 3).ending = .fault (.outsideRam 1 5 4) ∧
        steps 1 storing = ((storing.run 3).cpu, none) ∧
        (storing.run 3).cpu.step = .error (.outsideRam 1 5 4) ∧
        (storing.run 3).cpu.halted = false ∧ storing.run (3 + 2) = storing.run 3 := by
  have hreturns : (loading.run 1).Returns := by
    rintro fault ⟨⟩
  have hfault : (storing.run 3).ending = .fault (.outsideRam 1 5 4) := rfl
  obtain ⟨hstops, -, hresumes, -⟩ := run_resumes loading 1 5
  obtain ⟨-, hfails, -, hsame, -⟩ := run_resumes storing 3 2
  obtain ⟨hsteps, hstep, hhalted, -⟩ := hfails _ hfault
  exact ⟨⟨hreturns, rfl, (hstops hreturns).2.1, hresumes hreturns, rfl, rfl⟩, hfault, hsteps, hstep,
    hhalted, hsame _ hfault⟩

end Sample

end Cpu

end StackVm
