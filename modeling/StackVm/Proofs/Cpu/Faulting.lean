import StackVm.Proofs.Cpu.Running

/-! # Faults change nothing

A fault leaves the processor as it was before the instruction.  So a run that fails leaves it where
its successful steps have led, and calling for the instruction again fails in the same way.
-/

namespace StackVm

namespace Cpu

variable {cpu : Cpu}

theorem Run.told_eq_error_iff {run : Run} {fault : CpuFault} {last : Cpu} :
    run.told = .error fault last ↔ run.ending = .fault fault ∧ run.cpu = last := by
  unfold told
  cases run.ending <;> simp

/-! ## Trying again -/

/-- Set some cells, one after the other. -/
def pokes (cpu : Cpu) (cells : List (UInt16 × UInt16)) : Cpu :=
  cells.foldl (fun cpu cell => cpu.poke cell.1 cell.2) cpu

theorem pokes_append (cpu : Cpu) (xs ys : List (UInt16 × UInt16)) :
    cpu.pokes (xs ++ ys) = (cpu.pokes xs).pokes ys :=
  List.foldl_append

/-- Call for an instruction again and again, and set some cells before each call. -/
def retries : List (List (UInt16 × UInt16)) → Cpu → Cpu × List (Option CpuFault)
  | [], cpu => (cpu, [])
  | cells :: rest, cpu =>
      match perform (cpu.pokes cells) with
      | .ok _ next => ((retries rest next).1, none :: (retries rest next).2)
      | .error fault next => ((retries rest next).1, some fault :: (retries rest next).2)

/-- Faults do not depend on what memory holds. -/
theorem fault?_poke (cpu : Cpu) (address value : UInt16) :
    (cpu.poke address value).fault? = cpu.fault? := by
  simp only [fault?, fetch?, poke, Array.size_setIfInBounds]

theorem fault?_pokes (cpu : Cpu) (cells : List (UInt16 × UInt16)) :
    (cpu.pokes cells).fault? = cpu.fault? := by
  induction cells generalizing cpu with
  | nil => rfl
  | cons cell rest ih => exact (ih (cpu.poke cell.1 cell.2)).trans (cpu.fault?_poke _ _)

theorem retries_of_fault {fault : CpuFault} (h : cpu.fault? = some fault)
    (rounds : List (List (UInt16 × UInt16))) :
    retries rounds cpu = (cpu.pokes rounds.flatten, List.replicate rounds.length (some fault)) := by
  induction rounds generalizing cpu with
  | nil => rfl
  | cons cells rest ih =>
      have hpoked : (cpu.pokes cells).fault? = some fault := by
        rw [fault?_pokes, h]
      have hperform := perform_eq_error_iff.2 ⟨rfl, step_eq_error_iff.2 hpoked⟩
      unfold retries
      rw [hperform, List.flatten_cons, pokes_append, List.length_cons, List.replicate_succ]
      simp only [ih hpoked]

/--
An instruction fails if and only if the program counter is outside of the program,
or the word there computes and needs the cell at an address that memory does not
have.  It then leaves the processor as it was.  So a run that fails leaves the
processor where its successful steps have led, before an instruction that fails
again, and every further call for the instruction fails with the same fault, whatever
is poked in between.
-/
theorem fault_changes_nothing (cpu : Cpu) :
    ((∃ fault after, perform cpu = .error fault after) ↔
        cpu.rom.size ≤ cpu.pc.toNat ∨ cpu.Overreaches) ∧
      (∀ fault after, perform cpu = .error fault after → after = cpu ∧ cpu.step = .error fault) ∧
      (∀ after, perform cpu = .ok () after → cpu.step = .ok after) ∧
      (∀ budget fault last, performRun budget cpu = .error fault last →
        ∃ count < budget, cpu.run budget = ⟨last, count, .fault fault⟩ ∧
          steps count cpu = (last, none) ∧ perform last = .error fault last) ∧
      (∀ budget last count fault, cpu.run budget = ⟨last, count, .fault fault⟩ →
        count < budget ∧ steps count cpu = (last, none) ∧ perform last = .error fault last ∧
          performRun budget cpu = .error fault last) ∧
      ∀ fault after, perform cpu = .error fault after → ∀ rounds,
        retries rounds cpu =
          (cpu.pokes rounds.flatten, List.replicate rounds.length (some fault)) := by
  have hrun : ∀ budget last count fault, cpu.run budget = ⟨last, count, .fault fault⟩ →
      count < budget ∧ steps count cpu = (last, none) ∧ perform last = .error fault last := by
    intro budget last count fault h
    have hruns := runs_run budget cpu
    rw [h] at hruns
    obtain ⟨hstep, -, hlt⟩ := hruns.step_of_fault rfl
    exact ⟨hlt, hruns.steps, perform_eq_error_iff.2 ⟨rfl, hstep⟩⟩
  refine ⟨⟨?_, ?_⟩, fun fault after => perform_eq_error_iff.1, fun after => perform_eq_ok_iff.1,
    ?_, ?_, ?_⟩
  · rintro ⟨fault, after, hfails⟩
    have hfault := step_eq_error_iff.1 (perform_eq_error_iff.1 hfails).2
    exact (fault?_eq_some_iff.1 hfault).imp And.left And.left
  · rintro (houtside | hreach)
    · have hfault := fault?_eq_some_iff.2 (.inl ⟨houtside, rfl⟩)
      exact ⟨_, _, perform_eq_error_iff.2 ⟨rfl, step_eq_error_iff.2 hfault⟩⟩
    · have hfault := fault?_eq_some_iff.2 (.inr ⟨hreach, rfl⟩)
      exact ⟨_, _, perform_eq_error_iff.2 ⟨rfl, step_eq_error_iff.2 hfault⟩⟩
  · intro budget fault last hfails
    obtain ⟨hending, rfl⟩ := Run.told_eq_error_iff.1 hfails
    have h : cpu.run budget = ⟨(cpu.run budget).cpu, (cpu.run budget).cycles, .fault fault⟩ := by
      rw [← hending]
    obtain ⟨hlt, hrest⟩ := hrun _ _ _ _ h
    exact ⟨_, hlt, h, hrest⟩
  · intro budget last count fault h
    obtain ⟨hlt, hsteps, hperform⟩ := hrun budget last count fault h
    exact ⟨hlt, hsteps, hperform, Run.told_eq_error_iff.2 ⟨by rw [h], by rw [h]⟩⟩
  · intro fault after hfails rounds
    exact retries_of_fault (step_eq_error_iff.1 (perform_eq_error_iff.1 hfails).2) rounds

end Cpu

end StackVm
