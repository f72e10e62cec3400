import StackVm.Cpu
import StackVm.Proofs.Staged

/-! # Instructions are executed whole

The stages of an instruction make up one effect.  A fault undoes nothing; still an
instruction is executed whole or not at all, because the check of a store comes
before all that the instruction changes, and a read changes nothing.
-/

namespace StackVm

namespace Cpu

open Staged

/-- Why the next instruction cannot be executed, if it cannot. -/
def fault? (cpu : Cpu) : Option CpuFault :=
  match cpu.fetch? with
  | none => some (.outsideProgram cpu.pc)
  | some word =>
      if isCompute word && (readsMemory word || writesMemory word) &&
          cpu.ram.size ≤ cpu.a.toNat then
        some (.outsideRam cpu.pc cpu.a cpu.ram.size)
      else
        none

/-- The value that a computing instruction computes. -/
def output (cpu : Cpu) (word : UInt16) : UInt16 :=
  alu word cpu.d (if readsMemory word then cpu.peek cpu.a else cpu.a)

/-- The effect of a computing instruction. -/
def compute (cpu : Cpu) (word : UInt16) : Cpu where
  rom := cpu.rom
  ram := if writesMemory word then cpu.ram.setIfInBounds cpu.a.toNat (cpu.output word) else cpu.ram
  a := if clear word 0x0020 then cpu.a else cpu.output word
  d := if clear word 0x0010 then cpu.d else cpu.output word
  pc := if jumps word (cpu.output word) then cpu.a else cpu.pc + 1

def execute (cpu : Cpu) (word : UInt16) : Cpu :=
  if isCompute word then cpu.compute word
  else { cpu with a := word, pc := cpu.pc + 1 }

/-- The state after the next instruction, which is assumed to have no fault. -/
def advance (cpu : Cpu) : Cpu :=
  match cpu.fetch? with
  | none => cpu
  | some word => cpu.execute word

variable {cpu next : Cpu} {fault : CpuFault} {word address out : UInt16}

/-! ## Stages -/

theorem checkCell_of_lt (h : address.toNat < cpu.ram.size) :
    checkCell address cpu = .ok () cpu := by
  unfold checkCell
  rw [get_bind, if_neg (Nat.not_le.2 h)]
  rfl

theorem checkCell_of_le (h : cpu.ram.size ≤ address.toNat) :
    checkCell address cpu = .error (.outsideRam cpu.pc address cpu.ram.size) cpu := by
  unfold checkCell
  rw [get_bind, if_pos h]
  rfl

theorem readOperand_of_lt (h : readsMemory word = true → cpu.a.toNat < cpu.ram.size) :
    readOperand word cpu = .ok (if readsMemory word then cpu.peek cpu.a else cpu.a) cpu := by
  unfold readOperand
  rw [get_bind]
  by_cases hreads : readsMemory word = true
  · rw [if_pos hreads, if_pos hreads, bind_of_ok (checkCell_of_lt (h hreads))]
    rfl
  · rw [if_neg hreads, if_neg hreads]
    rfl

theorem readOperand_of_le (hreads : readsMemory word = true) (h : cpu.ram.size ≤ cpu.a.toNat) :
    readOperand word cpu = .error (.outsideRam cpu.pc cpu.a cpu.ram.size) cpu := by
  unfold readOperand
  rw [get_bind, if_pos hreads, bind_of_error (checkCell_of_le h)]

theorem storeCell_of_lt (h : writesMemory word = true → address.toNat < cpu.ram.size) :
    storeCell word address out cpu =
      .ok () (if writesMemory word then cpu.poke address out else cpu) := by
  unfold storeCell
  by_cases hwrites : writesMemory word = true
  · rw [if_pos hwrites, if_pos hwrites, bind_of_ok (checkCell_of_lt (h hwrites))]
    rfl
  · rw [if_neg hwrites, if_neg hwrites]
    rfl

theorem storeCell_of_le (hwrites : writesMemory word = true)
    (h : cpu.ram.size ≤ address.toNat) :
    storeCell word address out cpu = .error (.outsideRam cpu.pc address cpu.ram.size) cpu := by
  unfold storeCell
  rw [if_pos hwrites, bind_of_error (checkCell_of_le h)]

/-- The stages after the check of a store make up the effect of the instruction. -/
theorem performCompute_of_lt
    (h : readsMemory word = true ∨ writesMemory word = true → cpu.a.toNat < cpu.ram.size) :
    performCompute word cpu = .ok () (cpu.compute word) := by
  unfold performCompute
  rw [bind_of_ok (readOperand_of_lt fun hreads => h (.inl hreads)), get_bind, get_bind]
  change (storeCell word cpu.a (cpu.output word) >>= _) cpu = _
  rw [bind_of_ok (storeCell_of_lt fun hwrites => h (.inr hwrites))]
  unfold compute storeA storeD
  cases writesMemory word <;> cases clear word 0x0020 <;> cases clear word 0x0010 <;> rfl

theorem performCompute_of_le (huses : readsMemory word = true ∨ writesMemory word = true)
    (h : cpu.ram.size ≤ cpu.a.toNat) :
    performCompute word cpu = .error (.outsideRam cpu.pc cpu.a cpu.ram.size) cpu := by
  unfold performCompute
  by_cases hreads : readsMemory word = true
  · rw [bind_of_error (readOperand_of_le hreads h)]
  · rw [bind_of_ok (readOperand_of_lt fun hread => absurd hread hreads), get_bind, get_bind,
      bind_of_error (storeCell_of_le (huses.resolve_left hreads) h)]

/-! ## Instructions -/

/-- An instruction that cannot be executed leaves the processor as it was. -/
theorem perform_of_fault (h : cpu.fault? = some fault) : perform cpu = .error fault cpu := by
  unfold fault? at h
  unfold perform
  rw [get_bind]
  cases hfetch : cpu.fetch? with
  | none =>
      rw [hfetch] at h
      cases h
      rfl
  | some word =>
      simp only [hfetch, Option.ite_none_right_eq_some, Bool.and_eq_true, Bool.or_eq_true,
        decide_eq_true_eq, Option.some.injEq] at h
      obtain ⟨⟨⟨hcompute, huses⟩, hsize⟩, rfl⟩ := h
      simp only [hcompute, if_true]
      exact performCompute_of_le huses hsize

theorem perform_of_none (h : cpu.fault? = none) : perform cpu = .ok () cpu.advance := by
  unfold fault? at h
  unfold perform advance
  rw [get_bind]
  cases hfetch : cpu.fetch? with
  | none =>
      rw [hfetch] at h
      cases h
  | some word =>
      simp only [hfetch, ite_eq_right_iff, Bool.and_eq_true, Bool.or_eq_true, decide_eq_true_eq,
        reduceCtorEq, imp_false, not_and, Nat.not_le] at h
      simp only [execute]
      by_cases hcompute : isCompute word = true
      · rw [if_pos hcompute, if_pos hcompute]
        exact performCompute_of_lt fun huses => h ⟨hcompute, huses⟩
      · rw [if_neg hcompute, if_neg hcompute]
        rfl

theorem step_eq_ok_iff : cpu.step = .ok next ↔ cpu.fault? = none ∧ cpu.advance = next := by
  unfold step
  cases h : cpu.fault? with
  | none => simp [perform_of_none h]
  | some fault => simp [perform_of_fault h]

theorem step_eq_error_iff : cpu.step = .error fault ↔ cpu.fault? = some fault := by
  unfold step
  cases h : cpu.fault? with
  | none => simp [perform_of_none h]
  | some fault => simp [perform_of_fault h]

theorem perform_eq_error_iff {after : Cpu} :
    perform cpu = .error fault after ↔ after = cpu ∧ cpu.step = .error fault := by
  rw [step_eq_error_iff]
  cases h : cpu.fault? with
  | none => simp [perform_of_none h]
  | some other =>
      simp only [perform_of_fault h, EStateM.Result.error.injEq, Option.some.injEq]
      rw [and_comm, @eq_comm _ cpu]

theorem perform_eq_ok_iff : perform cpu = .ok () next ↔ cpu.step = .ok next := by
  rw [step_eq_ok_iff]
  cases h : cpu.fault? <;> simp [perform_of_none, perform_of_fault, h]

theorem steps_succ_of_none (h : cpu.fault? = none) (count : Nat) :
    steps (count + 1) cpu = steps count cpu.advance := by
  simp only [steps, perform_of_none h]

theorem steps_succ_of_fault (h : cpu.fault? = some fault) (count : Nat) :
    steps (count + 1) cpu = (cpu, some fault) := by
  simp only [steps, perform_of_fault h]

end Cpu

end StackVm
