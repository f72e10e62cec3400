import StackVm.Proofs.Cpu.Instruction

/-! # Halted processors

A run reports a halt when the program counter has left the program, or when the
two words from there on load their own address and jump to it.  The second is a
test of two words only: it looks neither at what the jump computes nor at whether
it reads memory.  Whatever they are, the processor never leaves the two words again.
-/

namespace StackVm

namespace Cpu

variable {cpu last : Cpu} {word mask value : UInt16}

/-! ## The words of a loop -/

/-- The bits under a mask say what the bits under a smaller mask are. -/
theorem and_of_and {smaller : UInt16} (h : word &&& mask = value)
    (hmask : mask &&& smaller = smaller) : word &&& smaller = value &&& smaller := by
  rw [← h, UInt16.and_assoc, hmask]

theorem clear_of_clear {smaller : UInt16} (h : clear word mask = true)
    (hmask : mask &&& smaller = smaller) : clear word smaller = true := by
  unfold clear at h ⊢
  rw [beq_iff_eq] at h ⊢
  rw [and_of_and h hmask, UInt16.zero_and]

/-- A word with all three jump bits jumps, whatever it computes. -/
theorem jumps_of_all_bits (h : word &&& 0b111 = 0b111) (out : UInt16) :
    jumps word out = true := by
  have hnegative : clear word 0b100 = false := by
    rw [clear, and_of_and h (by decide)]
    decide
  have hzero : clear word 0b010 = false := by
    rw [clear, and_of_and h (by decide)]
    decide
  have hpositive : clear word 0b001 = false := by
    rw [clear, and_of_and h (by decide)]
    decide
  unfold jumps
  rw [hnegative, hzero, hpositive]
  by_cases hout : out = 0
  · simp [hout]
  · by_cases hsign : 0x8000 ≤ out
    · simp [hsign]
    · simp [hsign, hout]

/-- A word that jumps always and stores nothing. -/
structure JumpsOnly (word : UInt16) : Prop where
  isCompute : isCompute word = true
  always : word &&& 0b111 = 0b111
  stores : clear word 0b111000 = true

namespace JumpsOnly

theorem writesMemory (h : JumpsOnly word) : writesMemory word = false := by
  rw [Cpu.writesMemory, clear_of_clear h.stores (by decide), Bool.not_true]

/-- Such a word sets the program counter and nothing else, unless it reads a cell outside of memory. -/
theorem step_eq (h : JumpsOnly word) (hfetch : cpu.fetch? = some word) :
    cpu.step =
      if readsMemory word = true ∧ cpu.ram.size ≤ cpu.a.toNat then
        .error (.outsideRam cpu.pc cpu.a cpu.ram.size)
      else
        .ok { cpu with pc := cpu.a } := by
  have hexecute : cpu.execute word = { cpu with pc := cpu.a } := by
    rw [execute, if_pos h.isCompute, compute, clear_of_clear h.stores (by decide),
      clear_of_clear h.stores (by decide), h.writesMemory, jumps_of_all_bits h.always]
    rfl
  by_cases hfault : readsMemory word = true ∧ cpu.ram.size ≤ cpu.a.toNat
  · rw [if_pos hfault, step_eq_error_iff]
    simp [fault?, hfetch, h.isCompute, hfault]
  · rw [if_neg hfault, step_eq_ok_iff]
    simp only [fault?, advance, hfetch, h.isCompute, h.writesMemory, hexecute, Bool.true_and,
      Bool.or_false, Bool.and_eq_true, decide_eq_true_eq, hfault, if_false, and_self]

end JumpsOnly

/-- The test for a loop: a load of the program counter, and then such a jump. -/
theorem spinning_iff :
    cpu.spinning = true ↔
      cpu.pc < 0x8000 ∧ cpu.rom[cpu.pc.toNat]? = some cpu.pc ∧
        ∃ jump, cpu.rom[cpu.pc.toNat + 1]? = some jump ∧ JumpsOnly jump := by
  unfold spinning
  cases htarget : cpu.rom[cpu.pc.toNat]? with
  | none => simp
  | some target =>
      cases hjump : cpu.rom[cpu.pc.toNat + 1]? with
      | none => simp
      | some jump =>
          simp only [Bool.and_eq_true, Bool.not_eq_true', beq_iff_eq, isCompute_eq_false_iff,
            Option.some.injEq, exists_eq_left']
          constructor
          · rintro ⟨⟨⟨⟨hload, rfl⟩, hcompute⟩, halways⟩, hstores⟩
            exact ⟨hload, rfl, hcompute, halways, hstores⟩
          · rintro ⟨hload, rfl, hcompute, halways, hstores⟩
            exact ⟨⟨⟨⟨hload, rfl⟩, hcompute⟩, halways⟩, hstores⟩

/-! ## Steps inside of a loop -/

/-- A processor in the loop that `last` spins in: only its address register may differ. -/
structure Spins (last cpu : Cpu) : Prop where
  rom : cpu.rom = last.rom
  ram : cpu.ram = last.ram
  d : cpu.d = last.d
  place : cpu.pc = last.pc ∨ cpu.pc.toNat = last.pc.toNat + 1 ∧ cpu.a = last.pc

namespace Spins

theorem refl (last : Cpu) : Spins last last :=
  ⟨rfl, rfl, rfl, .inl rfl⟩

/-- One step leads from the load to the jump, or back. -/
theorem step (h : Spins last cpu) (hspinning : last.spinning = true) {next : Cpu}
    (hstep : cpu.step = .ok next) : Spins last next := by
  obtain ⟨hlt, hload, jump, hjump, honly⟩ := spinning_iff.1 hspinning
  rcases h.place with hpc | ⟨hpc, ha⟩
  · have hfetch : cpu.fetch? = some last.pc := by
      rw [fetch?, h.rom, hpc, hload]
    have hnat : last.pc.toNat < 32768 := UInt16.lt_iff_toNat_lt.1 hlt
    have hnext : (cpu.pc + 1).toNat = last.pc.toNat + 1 := by
      rw [UInt16.toNat_add, hpc]
      exact Nat.mod_eq_of_lt (by simp; omega)
    rw [step_load hfetch hlt] at hstep
    cases hstep
    exact ⟨h.rom, h.ram, h.d, .inr ⟨hnext, rfl⟩⟩
  · have hfetch : cpu.fetch? = some jump := by
      rw [fetch?, h.rom, hpc, hjump]
    rw [honly.step_eq hfetch] at hstep
    split at hstep
    · cases hstep
    · cases hstep
      exact ⟨h.rom, h.ram, h.d, .inl ha⟩

/-- The jump may read memory, but only at the address of the loop. -/
theorem exists_step (h : Spins last cpu) (hspinning : last.spinning = true)
    (hsize : 32768 ≤ last.ram.size) : ∃ next, cpu.step = .ok next := by
  obtain ⟨hlt, hload, jump, hjump, honly⟩ := spinning_iff.1 hspinning
  rcases h.place with hpc | ⟨hpc, ha⟩
  · have hfetch : cpu.fetch? = some last.pc := by
      rw [fetch?, h.rom, hpc, hload]
    exact ⟨_, step_load hfetch hlt⟩
  · have hfetch : cpu.fetch? = some jump := by
      rw [fetch?, h.rom, hpc, hjump]
    have hnat : last.pc.toNat < 32768 := UInt16.lt_iff_toNat_lt.1 hlt
    have hinside : ¬ cpu.ram.size ≤ cpu.a.toNat := by
      rw [h.ram, ha]
      omega
    rw [honly.step_eq hfetch, if_neg fun hfault => hinside hfault.2]
    exact ⟨_, rfl⟩

end Spins

/-- Call for one instruction after the other, past faults: the last state, and the fault of each call. -/
def attempts : Nat → Cpu → Cpu × List (Option CpuFault)
  | 0, cpu => (cpu, [])
  | count + 1, cpu =>
      match perform cpu with
      | .ok _ next => ((attempts count next).1, none :: (attempts count next).2)
      | .error fault next => ((attempts count next).1, some fault :: (attempts count next).2)

theorem Spins.attempts (h : Spins last cpu) (hspinning : last.spinning = true) (count : Nat) :
    Spins last (attempts count cpu).1 ∧
      (32768 ≤ last.ram.size → (attempts count cpu).2 = List.replicate count none) := by
  induction count generalizing cpu with
  | zero => exact ⟨h, fun _ => rfl⟩
  | succ count ih =>
      unfold Cpu.attempts
      cases hstep : cpu.step with
      | ok next =>
          obtain ⟨hlast, hnone⟩ := ih (h.step hspinning hstep)
          rw [perform_eq_ok_iff.2 hstep]
          exact ⟨hlast, fun hsize => congrArg (none :: ·) (hnone hsize)⟩
      | error fault =>
          rw [perform_eq_error_iff.2 ⟨rfl, hstep⟩]
          refine ⟨(ih h).1, fun hsize => ?_⟩
          obtain ⟨next, hnext⟩ := h.exists_step hspinning hsize
          rw [hnext] at hstep
          cases hstep

theorem attempts_of_outside (h : cpu.rom.size ≤ cpu.pc.toNat) (count : Nat) :
    attempts count cpu = (cpu, List.replicate count (some (.outsideProgram cpu.pc))) := by
  have hfetch : cpu.fetch? = none := by
    rw [fetch?, Array.getElem?_eq_none_iff]
    exact h
  have hfault : cpu.fault? = some (.outsideProgram cpu.pc) := by
    simp only [fault?, hfetch]
  induction count with
  | zero => rfl
  | succ count ih =>
      simp only [attempts, perform_of_fault hfault, ih]
      rfl

/-! ## Runs -/

theorem run_of_halted (h : cpu.halted = true) (budget : Nat) :
    cpu.run budget = ⟨cpu, 0, .halted⟩ := by
  unfold run
  cases budget <;> simp [runFrom, h]

/-- A run that reports a halt ends in a halted state. -/
theorem halted_of_runFrom {done budget cycles : Nat}
    (h : runFrom done budget cpu = ⟨last, cycles, .halted⟩) : last.halted = true := by
  induction budget generalizing done cpu with
  | zero =>
      unfold runFrom at h
      by_cases hhalted : cpu.halted = true
      · rw [if_pos hhalted] at h
        cases h
        exact hhalted
      · rw [if_neg hhalted] at h
        cases h
  | succ budget ih =>
      unfold runFrom at h
      by_cases hhalted : cpu.halted = true
      · rw [if_pos hhalted] at h
        cases h
        exact hhalted
      · rw [if_neg hhalted] at h
        cases hperform : perform cpu with
        | error fault last =>
            rw [hperform] at h
            cases h
        | ok _ next =>
            rw [hperform] at h
            exact ih h

theorem rom_advance (cpu : Cpu) : cpu.advance.rom = cpu.rom := by
  unfold advance
  split
  · rfl
  · unfold execute
    split <;> rfl

theorem rom_runFrom (done budget : Nat) (cpu : Cpu) :
    (runFrom done budget cpu).cpu.rom = cpu.rom := by
  induction budget generalizing done cpu with
  | zero => rfl
  | succ budget ih =>
      unfold runFrom
      split
      · rfl
      · cases hfault : cpu.fault? with
        | some fault => rw [perform_of_fault hfault]
        | none =>
            rw [perform_of_none hfault]
            exact (ih _ _).trans (rom_advance cpu)

theorem halted_iff :
    cpu.halted = true ↔ cpu.rom.size ≤ cpu.pc.toNat ∨ cpu.spinning = true := by
  simp [halted]

/--
A halt is final.  Past the program every step fails and changes nothing.  A spinning processor
stays at its two words with the same data register and memory, and no step fails unless the memory
is smaller than the addresses that a load can carry.  Every later run stops at once.
-/
theorem halt_final {budget cycles : Nat} (h : cpu.run budget = ⟨last, cycles, .halted⟩) :
    (last.rom.size ≤ last.pc.toNat ∨ last.spinning = true) ∧
      (last.rom.size ≤ last.pc.toNat → ∀ count, attempts count last =
        (last, List.replicate count (some (.outsideProgram last.pc)))) ∧
      (last.spinning = true → ∀ count,
        ((attempts count last).1.pc.toNat = last.pc.toNat ∨
            (attempts count last).1.pc.toNat = last.pc.toNat + 1) ∧
          (attempts count last).1.d = last.d ∧ (attempts count last).1.ram = last.ram ∧
          (32768 ≤ last.ram.size → (attempts count last).2 = List.replicate count none)) ∧
      ∀ later, last.run later = ⟨last, 0, .halted⟩ := by
  have hhalted : last.halted = true := halted_of_runFrom h
  refine ⟨halted_iff.1 hhalted, attempts_of_outside, ?_, run_of_halted hhalted⟩
  intro hspinning count
  obtain ⟨hspins, hnone⟩ := (Spins.refl last).attempts hspinning count
  exact ⟨hspins.place.imp (congrArg UInt16.toNat) And.left, hspins.d, hspins.ram, hnone⟩

namespace Sample

/-- A program that waits at its third word, in a jump that reads memory. -/
def waiting : Cpu :=
  .start [1, 0xec10, 2, 0xfc07] 32768

def waited : Cpu :=
  { waiting with a := 1, d := 1, pc := 2 }

theorem halt_waiting :
    waiting.run 10 = ⟨waited, 2, .halted⟩ ∧ readsMemory 0xfc07 = true ∧
      (∀ count, ((attempts count waited).1.pc.toNat = 2 ∨
          (attempts count waited).1.pc.toNat = 3) ∧
        (attempts count waited).1.d = 1 ∧
        (attempts count waited).2 = List.replicate count none) ∧
      ∀ later, waited.run later = ⟨waited, 0, .halted⟩ := by
  have hrun : waiting.run 10 = ⟨waited, 2, .halted⟩ := rfl
  obtain ⟨-, -, hspins, hlater⟩ := halt_final hrun
  refine ⟨hrun, by decide, fun count => ?_, hlater⟩
  obtain ⟨hplace, hd, -, hnone⟩ := hspins rfl count
  refine ⟨hplace, hd, hnone ?_⟩
  simp [waited, waiting, start]

end Sample

end Cpu

end StackVm
