import StackVm.Proofs.Asm.Resolution
import StackVm.Proofs.Cpu.Instruction
import StackVm.Proofs.Vm

/-! # Codes on the processor

What the processor does at the word of a code, read off the letters of the
code.  A computation is an expression over the registers and the memory cell; a
load leaves its address behind, as long as the address fits beside the bit that
tells loads from computations.
-/

namespace StackVm

open Asm Text

/-! ## Computations -/

namespace Cpu

/-- The value that a letter of an expression stands for. -/
def letter? (cpu : Cpu) : Char → Option UInt16
  | '0' => some 0
  | '1' => some 1
  | 'A' => some cpu.a
  | 'D' => some cpu.d
  | 'M' => some (cpu.peek cpu.a)
  | _ => none

/-- The value of an expression of one operation at most. -/
def evaluate? (cpu : Cpu) : List Char → Option UInt16
  | [x] => cpu.letter? x
  | ['!', x] => (cpu.letter? x).map (~~~ ·)
  | ['-', x] => (cpu.letter? x).map (- ·)
  | [x, '+', y] => return (← cpu.letter? x) + (← cpu.letter? y)
  | [x, '-', y] => return (← cpu.letter? x) - (← cpu.letter? y)
  | [x, '&', y] => return (← cpu.letter? x) &&& (← cpu.letter? y)
  | [x, '|', y] => return (← cpu.letter? x) ||| (← cpu.letter? y)
  | _ => none

/-- A computation has the value of the expression that spells it. -/
theorem evaluate?_eq_value (cpu : Cpu) {text : String} {comp : Comp}
    (h : Comp.ofText? text = some comp) :
    cpu.evaluate? text.toList = some (comp.value cpu.d (cpu.operand comp)) := by
  rcases Comp.ofText?_eq_some_iff.1 h with rfl | halias
  · cases comp with
    | it y | not y | neg y | succ y | pred y | add y | sub y | subD y | and y | or y =>
        cases y <;> rfl
    | _ => rfl
  · revert halias
    cases comp with
    | succD =>
        rintro ⟨⟩
        exact congrArg some (UInt16.add_comm _ _)
    | succ y | add y =>
        cases y <;>
          · rintro ⟨⟩
            exact congrArg some (UInt16.add_comm _ _)
    | and y =>
        cases y <;>
          · rintro ⟨⟩
            exact congrArg some (UInt16.and_comm _ _)
    | or y =>
        cases y <;>
          · rintro ⟨⟩
            exact congrArg some (UInt16.or_comm _ _)
    | _ => rintro ⟨⟩

end Cpu

namespace Asm

theorem Comp.operand?_eq_some_m_iff {text : String} {comp : Comp} (h : ofText? text = some comp) :
    comp.operand? = some .m ↔ 'M' ∈ text.toList := by
  rcases ofText?_eq_some_iff.1 h with rfl | halias
  · cases comp with
    | it y | not y | neg y | succ y | pred y | add y | sub y | subD y | and y | or y =>
        cases y <;> decide
    | _ => decide
  · revert halias
    cases comp with
    | succ y | add y | and y | or y => cases y <;> rintro ⟨⟩ <;> decide
    | _ => rintro ⟨⟩ <;> decide

theorem Dest.mem_toList_iff {text : String} {dest : Dest} (h : ofText? text = some dest) :
    ('A' ∈ text.toList ↔ dest.a = true) ∧ ('D' ∈ text.toList ↔ dest.d = true) ∧
      ('M' ∈ text.toList ↔ dest.m = true) := by
  have hmem : ∀ letter ∈ letters, letter ∈ text.toList ↔ dest.has letter = true := by
    intro letter hletter
    rw [(ofText?_eq_some_iff.1 h).2.2 letter hletter, List.contains_iff_mem]
  refine ⟨(hmem 'A' (by decide)).trans ?_, (hmem 'D' (by decide)).trans ?_,
    (hmem 'M' (by decide)).trans ?_⟩ <;> simp [has]

/-- The condition that a jump's text puts on a signed number. -/
def Jump.Condition (text : String) (value : Int) : Prop :=
  match text with
  | "JGT" => 0 < value
  | "JEQ" => value = 0
  | "JGE" => 0 ≤ value
  | "JLT" => value < 0
  | "JNE" => value ≠ 0
  | "JLE" => value ≤ 0
  | "JMP" => True
  | _ => False

theorem Jump.holds_iff (jump : Jump) (out : UInt16) :
    jump.holds out = true ↔ Condition jump.text (signed out) := by
  have hlt : out < 0x8000 ↔ out.toNat < 32768 := UInt16.lt_iff_toNat_lt
  have hle : 0x8000 ≤ out ↔ 32768 ≤ out.toNat := UInt16.le_iff_toNat_le
  have hzero : out = 0 ↔ out.toNat = 0 := UInt16.toNat_inj.symm
  have hsigned := signed_eq out
  have hbound := out.toNat_lt
  cases jump with
  | never => simp [holds, Condition, text]
  | always => simp [holds, Condition, text]
  | gt =>
      change (decide (out < 0x8000) && out != 0) = true ↔ 0 < signed out
      simp only [Bool.and_eq_true, decide_eq_true_iff, bne_iff_ne, ne_eq, hlt, hzero]
      split at hsigned <;> omega
  | eq =>
      change (out == 0) = true ↔ signed out = 0
      simp only [beq_iff_eq, hzero]
      split at hsigned <;> omega
  | ge =>
      change decide (out < 0x8000) = true ↔ 0 ≤ signed out
      simp only [decide_eq_true_iff, hlt]
      split at hsigned <;> omega
  | lt =>
      change decide (0x8000 ≤ out) = true ↔ signed out < 0
      simp only [decide_eq_true_iff, hle]
      split at hsigned <;> omega
  | ne =>
      change (out != 0) = true ↔ signed out ≠ 0
      simp only [bne_iff_ne, ne_eq, hzero]
      split at hsigned <;> omega
  | le =>
      change (decide (0x8000 ≤ out) || out == 0) = true ↔ signed out ≤ 0
      simp only [Bool.or_eq_true, decide_eq_true_iff, beq_iff_eq, hle, hzero]
      split at hsigned <;> omega

end Asm

namespace Cpu

/-- What a computation leaves behind, by the letters of its destination and the text of its jump. -/
structure Performs (cpu : Cpu) (dest jump : String) (out : UInt16) (next : Cpu) : Prop where
  rom : next.rom = cpu.rom
  a : next.a = if 'A' ∈ dest.toList then out else cpu.a
  d : next.d = if 'D' ∈ dest.toList then out else cpu.d
  ram : ∀ address, next.ram[address]? =
    if 'M' ∈ dest.toList ∧ address = cpu.a.toNat then some out else cpu.ram[address]?
  jumps : Jump.Condition jump (signed out) → next.pc = cpu.a
  goesOn : ¬ Jump.Condition jump (signed out) → next.pc = cpu.pc + 1

variable {cpu : Cpu} {dest jump : String} {d : Dest} {c : Comp} {j : Jump}

theorem performs_computed (hdest : Dest.ofText? dest = some d) (hjump : Jump.ofText? jump = some j)
    (hmemory : d.m = true → cpu.a.toNat < cpu.ram.size) :
    cpu.Performs dest jump (c.value cpu.d (cpu.operand c)) (cpu.computed d c j) := by
  obtain ⟨ha, hd, hm⟩ := Dest.mem_toList_iff hdest
  have hjumps := Jump.holds_iff j (c.value cpu.d (cpu.operand c))
  rw [← Jump.ofText?_eq_some_iff.1 hjump] at hjumps
  refine ⟨rfl, ?_, ?_, ?_, ?_, ?_⟩
  · simp only [computed, ha]
  · simp only [computed, hd]
  · intro address
    simp only [hm]
    cases hstore : d.m with
    | false => simp [computed, hstore]
    | true =>
        have hlt := hmemory hstore
        simp only [computed, hstore, if_true, true_and, Array.getElem?_setIfInBounds, hlt]
        simp only [eq_comm]
  · intro hcondition
    simp only [computed, hjumps.2 hcondition, if_true]
  · intro hcondition
    simp only [computed, if_neg (mt hjumps.1 hcondition)]

end Cpu

namespace Asm

section

variable {machine : Machine} {text : String} {program : Program} {index : Nat} {code : List Char}
  {cpu : Cpu}

/-- The code at an index and the word that a processor finds there. -/
theorem exists_word_of_code (h : assemble machine text = .ok program)
    (hcode : (instructionCodes (codesOf text))[index]? = some code) :
    ∃ instruction resolve, Says machine.maxConstant code instruction ∧
      program.words[index]? = some (instruction.word resolve) := by
  obtain ⟨layout, instructions, -, hreads, rfl⟩ := assemble_eq_ok_iff.1 h
  obtain ⟨instruction, hinstruction, hmeaning⟩ := hreads.2 index code hcode
  have hword := getElem?_words_link machine layout instructions index
  rw [hinstruction] at hword
  exact ⟨instruction, _, hmeaning, hword⟩

/-- At the word of a computation, the processor does what the letters of its code say. -/
theorem step_follows_mnemonic (h : assemble machine text = .ok program)
    (hcode : (instructionCodes (codesOf text))[index]? = some code)
    (hcompute : code.head? ≠ some '@') (hrom : cpu.rom = program.words.toArray)
    (hpc : cpu.pc.toNat = index) :
    ∃ dest comp jump out, Spells dest comp jump code ∧ cpu.evaluate? comp.toList = some out ∧
      ((∃ fault, cpu.step = .error fault) ↔
        ('M' ∈ comp.toList ∨ 'M' ∈ dest.toList) ∧ cpu.ram.size ≤ cpu.a.toNat) ∧
      ∀ next, cpu.step = .ok next → cpu.Performs dest jump out next := by
  obtain ⟨instruction, resolve, hmeaning, hword⟩ := exists_word_of_code h hcode
  cases hmeaning with
  | constant => exact absurd rfl hcompute
  | symbol => exact absurd rfl hcompute
  | @compute code dest comp jump d c j hspells hdest hcomp hjump =>
      have hfetch : cpu.fetch? = some ((Instruction.compute d c j).word resolve) := by
        rw [Cpu.fetch?, hrom, hpc, List.getElem?_toArray, hword]
      have huses : (Instruction.compute d c j).usesMemory = true ↔
          'M' ∈ comp.toList ∨ 'M' ∈ dest.toList := by
        rw [← Comp.operand?_eq_some_m_iff hcomp, (Dest.mem_toList_iff hdest).2.2]
        simp [Instruction.usesMemory]
      have hfault := Cpu.fault?_compute resolve d c j hfetch
      refine ⟨dest, comp, jump, _, hspells, cpu.evaluate?_eq_value hcomp, ?_, ?_⟩
      · simp only [← huses, Cpu.step_eq_error_iff, hfault]
        split <;> simp_all
      · intro next hnext
        have hmemory : (Instruction.compute d c j).usesMemory = true →
            cpu.a.toNat < cpu.ram.size := by
          intro huse
          refine Nat.lt_of_not_le fun hle => ?_
          rw [Cpu.step_eq_ok_iff, hfault, if_pos ⟨huse, hle⟩] at hnext
          cases hnext.1
        rw [Cpu.step_compute resolve d c j hfetch hmemory] at hnext
        cases hnext
        refine Cpu.performs_computed hdest hjump fun hstore => hmemory ?_
        simp [Instruction.usesMemory, hstore]

end

namespace Sample

/-- A computation with a second spelling, two destinations out of order and a jump. -/
def counting : String :=
  "@5\nMA = 1+M ; JNE\n"

/-- A processor that comes to the computation. -/
def counter (program : Program) : Cpu :=
  ⟨program.words.toArray, Array.replicate 8 3, 5, 0, 1⟩

theorem counting_follows_mnemonic :
    ∃ program, assemble Machine.hack counting = .ok program ∧
      ∃ dest comp jump out, Spells dest comp jump "MA=1+M;JNE".toList ∧
        (counter program).evaluate? comp.toList = some out ∧
        ((∃ fault, (counter program).step = .error fault) ↔
          ('M' ∈ comp.toList ∨ 'M' ∈ dest.toList) ∧
            (counter program).ram.size ≤ (counter program).a.toNat) ∧
        ∀ next, (counter program).step = .ok next →
          (counter program).Performs dest jump out next := by
  have hok : (assemble Machine.hack counting).toOption.isSome = true := by
    decide +kernel
  have hcode : (instructionCodes (codesOf counting))[1]? = some "MA=1+M;JNE".toList := by
    decide +kernel
  cases h : assemble Machine.hack counting with
  | error fault =>
      rw [h] at hok
      cases hok
  | ok program =>
      exact ⟨program, rfl, step_follows_mnemonic h hcode (by decide) rfl rfl⟩

end Sample

end Asm

/-! ## Loads -/

namespace Cpu

/-- From zero inputs, the arithmetic unit computes no other values. -/
theorem alu_zero_mem (word : UInt16) : alu word 0 0 ∈ [0, 1, 0xfffe, 0xffff] := by
  unfold alu
  cases clear word 0x0800 <;> cases clear word 0x0400 <;> cases clear word 0x0200 <;>
    cases clear word 0x0100 <;> cases clear word 0x0080 <;> cases clear word 0x0040 <;> decide

/-- A computation does not load its own word into the address register of an empty processor. -/
theorem step_ne_load {cpu : Cpu} {word : UInt16} (hfetch : cpu.fetch? = some word)
    (hcompute : isCompute word = true) (hram : cpu.ram = #[]) (ha : cpu.a = 0) (hd : cpu.d = 0)
    {next : Cpu} (hnext : cpu.step = .ok next) : next.a ≠ word := by
  intro hword
  by_cases hmemory : (readsMemory word || writesMemory word) = true
  · have hfault : cpu.fault? = some (.outsideRam cpu.pc cpu.a cpu.ram.size) := by
      simp [fault?, hfetch, hcompute, hmemory, hram]
    rw [step_eq_error_iff.2 hfault] at hnext
    cases hnext
  · rw [Bool.not_eq_true, Bool.or_eq_false_iff] at hmemory
    have hfault : cpu.fault? = none := by
      simp [fault?, hfetch, hcompute, hmemory]
    obtain ⟨-, rfl⟩ := step_eq_ok_iff.1 hnext
    have hout : cpu.output word ∈ [0, 1, 0xfffe, 0xffff] := by
      simpa [output, hmemory.1, ha, hd] using alu_zero_mem word
    have ha' : cpu.advance.a = if clear word 0x0020 then 0 else cpu.output word := by
      simp only [advance, hfetch, execute, hcompute, if_true, compute, ha]
    rw [← hword, ha'] at hmemory hcompute
    have hall : [0, 1, 0xfffe, 0xffff].all (fun out => !isCompute out || readsMemory out) =
        true := by
      decide
    split at hcompute
    · cases hcompute
    · next hclear =>
        rw [if_neg hclear] at hmemory
        have hout := List.all_eq_true.1 hall _ hout
        rw [hcompute, hmemory.1] at hout
        cases hout

end Cpu

namespace Asm

/-- A symbol whose address needs all sixteen bits. -/
inductive OutOfReach (machine : Machine) (codes : List (List Char)) (operand : List Char) :
    Prop where
  | label {before after : List (List Char)} (hdigit : startsWithDigit operand = false)
      (hdefined : codes = before ++ labelCode (String.ofList operand) :: after)
      (hfar : 32768 ≤ (instructionCodes before).length)
  | free {before after : List String} (hdigit : startsWithDigit operand = false)
      (hused : freeSymbols codes = before ++ String.ofList operand :: after)
      (hfirst : String.ofList operand ∉ before)
      (hfar : 32768 ≤ machine.variableBase.toNat + before.eraseDups.length)

section

variable {machine : Machine} {text : String} {codes : List (List Char)} {program : Program}
  {index : Nat} {operand : List Char} {word : UInt16}

theorem OutOfReach.exists_resolves (h : OutOfReach machine codes operand)
    (hlength : (instructionCodes codes).length ≤ maxWord)
    (hroom : machine.variableBase.toNat + (freeSymbols codes).eraseDups.length ≤ maxWord) :
    startsWithDigit operand = false ∧
      ∃ address, Resolves machine codes (String.ofList operand) address ∧ 0x8000 ≤ address := by
  cases h with
  | @label before after hdigit hdefined hfar =>
      have hle : (instructionCodes before).length ≤ maxWord := by
        rw [hdefined, instructionCodes, List.filter_append, List.length_append] at hlength
        exact Nat.le_trans (Nat.le_add_right _ _) hlength
      have haddress := UInt16.toNat_ofNat_of_lt' (Nat.lt_succ_of_le hle)
      refine ⟨hdigit, _, .label hdefined haddress, ?_⟩
      rw [UInt16.le_iff_toNat_le, haddress]
      exact hfar
  | @free before after hdigit hused hfirst hfar =>
      have hget := getElem?_eraseDups_eq_some_iff.2 ⟨before, after, hused, hfirst, rfl⟩
      have hlt := (List.getElem?_eq_some_iff.1 hget).1
      have haddress := UInt16.toNat_ofNat_of_lt' (Nat.lt_succ_of_le (Nat.le_trans
        (Nat.add_le_add_left (Nat.le_of_lt hlt) machine.variableBase.toNat) hroom))
      refine ⟨hdigit, _, .free hused hfirst haddress, ?_⟩
      rw [UInt16.le_iff_toNat_le, haddress]
      exact hfar

/-- Only labels and variables can be out of reach, when constants are not. -/
theorem outOfReach_of_le (hmax : machine.maxConstant < 0x8000) (hcodes : WellFormed machine codes)
    (hmem : '@' :: operand ∈ codes) (hencodes : Encodes machine codes ('@' :: operand) word)
    (hle : 0x8000 ≤ word) : OutOfReach machine codes operand := by
  rw [UInt16.le_iff_toNat_le] at hle
  rw [UInt16.lt_iff_toNat_lt] at hmax
  cases hencodes with
  | constant hdigit hvalue =>
      have hlimit := (hcodes.constants operand hmem hdigit).2
      rw [← hvalue] at hlimit
      exact absurd (Nat.le_trans hle hlimit) (Nat.not_le.2 hmax)
  | symbol hdigit hresolves =>
      cases hresolves with
      | predefined hentry =>
          have hlow : ∀ entry ∈ predefined, entry.2.toNat < 32768 := by
            decide
          exact absurd (hlow _ hentry) (Nat.not_lt.2 hle)
      | label hdefined haddress => exact .label hdigit hdefined (haddress ▸ hle)
      | free hused hfirst haddress => exact .free hdigit hused hfirst (haddress ▸ hle)
  | compute hspells hdest hcomp =>
      exact absurd rfl (hspells.head?_ne (Dest.all_isPart_of_ofText? hdest)
        (Comp.all_isPart_of_ofText? hcomp))

theorem Encodes.not_outOfReach (hencodes : Encodes machine codes ('@' :: operand) word)
    (hresolved : Resolved machine codes program) (hlt : word < 0x8000)
    (hlength : (instructionCodes codes).length ≤ maxWord)
    (hroom : machine.variableBase.toNat + (freeSymbols codes).eraseDups.length ≤ maxWord) :
    ¬ OutOfReach machine codes operand := by
  intro hfar
  obtain ⟨hdigit, address, hresolves, hle⟩ := hfar.exists_resolves hlength hroom
  cases hencodes with
  | constant hdigit' =>
      rw [hdigit] at hdigit'
      cases hdigit'
  | symbol _ hword =>
      have haddress := (hresolved.address? _ _).2 hresolves
      rw [(hresolved.address? _ _).2 hword, Option.some.injEq] at haddress
      rw [← haddress] at hle
      exact absurd hlt (UInt16.not_lt.2 hle)
  | compute hspells hdest hcomp =>
      exact absurd rfl (hspells.head?_ne (Dest.all_isPart_of_ofText? hdest)
        (Comp.all_isPart_of_ofText? hcomp))

/-- Every processor loads a word if and only if the word is no computation. -/
theorem forall_step_load_iff (hword : program.words[index]? = some word)
    (hindex : index ≤ maxWord) :
    (∀ cpu : Cpu, cpu.rom = program.words.toArray → cpu.pc.toNat = index →
      cpu.step = .ok { cpu with a := word, pc := cpu.pc + 1 }) ↔ word < 0x8000 := by
  have hfetch : ∀ {cpu : Cpu}, cpu.rom = program.words.toArray → cpu.pc.toNat = index →
      cpu.fetch? = some word := by
    intro cpu hrom hpc
    rw [Cpu.fetch?, hrom, hpc, List.getElem?_toArray, hword]
  constructor
  · intro h
    have hpc : (UInt16.ofNat index).toNat = index :=
      UInt16.toNat_ofNat_of_lt' (Nat.lt_succ_of_le hindex)
    have hstep := h ⟨program.words.toArray, #[], 0, 0, UInt16.ofNat index⟩ rfl hpc
    rw [← Cpu.isCompute_eq_false_iff]
    refine Bool.eq_false_iff.2 fun hcompute => ?_
    exact Cpu.step_ne_load (hfetch rfl hpc) hcompute rfl rfl rfl hstep rfl
  · intro hlt cpu hrom hpc
    exact Cpu.step_load (hfetch hrom hpc) hlt

/-- A load leaves the value of its operand in the address register, unless the operand is a label
behind 32768 instructions or a variable behind 32752 others. -/
theorem load_survives_iff
    (hroom : Machine.hack.variableBase.toNat + (freeSymbols (codesOf text)).eraseDups.length ≤
      maxWord)
    (h : assemble Machine.hack text = .ok program)
    (hcode : (instructionCodes (codesOf text))[index]? = some ('@' :: operand)) :
    ∃ word, program.words[index]? = some word ∧
      Encodes Machine.hack (codesOf text) ('@' :: operand) word ∧
      (word < 0x8000 ↔ ¬ OutOfReach Machine.hack (codesOf text) operand) ∧
      ((∀ cpu : Cpu, cpu.rom = program.words.toArray → cpu.pc.toNat = index →
        cpu.step = .ok { cpu with a := word, pc := cpu.pc + 1 }) ↔ word < 0x8000) := by
  have hcodes := exists_assemble_eq_ok_iff.1 ⟨program, h⟩
  have hresolved := resolved_of_assemble hroom h
  obtain ⟨word, hword, hencodes⟩ := hresolved.words index _ hcode
  have hmem := (mem_instructionCodes.1 (List.mem_of_getElem? hcode)).1
  have hindex : index ≤ maxWord :=
    Nat.le_trans (Nat.le_of_lt (List.getElem?_eq_some_iff.1 hcode).1) hcodes.room
  refine ⟨word, hword, hencodes, ⟨?_, ?_⟩, forall_step_load_iff hword hindex⟩
  · exact fun hlt => hencodes.not_outOfReach hresolved hlt hcodes.room hroom
  · intro hnear
    refine UInt16.not_le.1 fun hle => hnear ?_
    exact outOfReach_of_le (by decide) hcodes hmem hencodes hle

end

namespace Sample

/-- A load of a label that a number of other instructions come before. -/
def distant (count : Nat) : String :=
  render ("@X" :: (List.replicate count "0" ++ ["(X)"]))

theorem codesOf_distant (count : Nat) :
    codesOf (distant count) = (['@', 'X'] :: List.replicate count ['0']) ++ [labelCode "X"] := by
  have hlines : ∀ text ∈ "@X" :: (List.replicate count "0" ++ ["(X)"]), '\n' ∉ text.toList := by
    simp only [List.mem_cons, List.mem_append, List.mem_replicate, List.not_mem_nil, or_false]
    rintro text (rfl | ⟨-, rfl⟩ | rfl) <;> decide
  have hload : codeOf "@X".toList = ['@', 'X'] := by decide
  have hzero : codeOf "0".toList = ['0'] := by decide
  have hlabel : codeOf "(X)".toList = labelCode "X" := by decide
  rw [codesOf, distant, lines_render hlines]
  simp only [List.map_cons, List.map_append, List.map_replicate, List.map_nil, hload, hzero, hlabel]
  rw [List.cons_append, List.filter_eq_self]
  simp only [List.mem_cons, List.mem_append, List.mem_replicate, List.not_mem_nil, or_false]
  rintro code (rfl | ⟨-, rfl⟩ | rfl) <;> decide

theorem instructionCodes_before_distant (count : Nat) :
    instructionCodes (['@', 'X'] :: List.replicate count ['0']) =
      ['@', 'X'] :: List.replicate count ['0'] := by
  rw [instructionCodes, List.filter_eq_self]
  simp only [List.mem_cons, List.mem_replicate]
  rintro code (rfl | ⟨-, rfl⟩) <;> decide

theorem instructionCodes_distant (count : Nat) :
    instructionCodes (codesOf (distant count)) = ['@', 'X'] :: List.replicate count ['0'] := by
  rw [codesOf_distant, instructionCodes, List.filter_append]
  exact (List.append_nil _).trans (instructionCodes_before_distant count)

theorem labelNames_distant (count : Nat) : labelNames (codesOf (distant count)) = ["X"] := by
  have hzeros : (List.replicate count ['0']).filterMap labelName? = [] := by
    rw [List.filterMap_eq_nil_iff]
    intro code hcode
    rw [List.eq_of_mem_replicate hcode]
    rfl
  rw [codesOf_distant, List.cons_append, labelNames_cons_code (by decide), labelNames,
    List.filterMap_append, hzeros]
  rfl

theorem freeSymbols_distant (count : Nat) : freeSymbols (codesOf (distant count)) = [] := by
  have hzeros : (List.replicate count ['0']).filterMap loadedSymbol? = [] := by
    rw [List.filterMap_eq_nil_iff]
    intro code hcode
    rw [List.eq_of_mem_replicate hcode]
    rfl
  have hloaded : (codesOf (distant count)).filterMap loadedSymbol? = ["X"] := by
    rw [codesOf_distant, List.filterMap_append, List.filterMap_cons, hzeros]
    rfl
  rw [freeSymbols, hloaded, labelNames_distant]
  rfl

theorem wellFormed_distant {count : Nat} (hcount : count < maxWord) :
    WellFormed Machine.hack (codesOf (distant count)) where
  closed := by
    rw [codesOf_distant]
    simp only [List.mem_cons, List.mem_append, List.mem_replicate, List.not_mem_nil, or_false]
    rintro code ((rfl | ⟨-, rfl⟩) | rfl) <;> decide
  distinct := by
    rw [labelNames_distant]
    decide
  fresh := by
    rw [labelNames_distant]
    decide
  room := by
    rw [instructionCodes_distant, List.length_cons, List.length_replicate]
    exact hcount
  constants := by
    rw [codesOf_distant]
    simp only [List.mem_cons, List.mem_append, List.mem_replicate, List.not_mem_nil, or_false]
    rintro operand ((⟨⟨⟩⟩ | ⟨-, ⟨⟩⟩) | ⟨⟨⟩⟩)
    decide
  computations := by
    rw [instructionCodes_distant]
    intro code hcode hload
    rcases List.mem_cons.1 hcode with rfl | hcode
    · exact absurd rfl hload
    · rw [List.eq_of_mem_replicate hcode]
      exact ⟨.comp "0", ⟨List.nodup_nil, nofun⟩, ⟨.zero, .inl rfl⟩, ⟨.never, rfl⟩⟩

/-- A label behind 32768 instructions is lost to the processor. -/
theorem load_lost_distant :
    ∃ program word, assemble Machine.hack (distant 32767) = .ok program ∧
      program.words[0]? = some word ∧
      Encodes Machine.hack (codesOf (distant 32767)) ['@', 'X'] word ∧ 0x8000 ≤ word ∧
      ¬ ∀ cpu : Cpu, cpu.rom = program.words.toArray → cpu.pc.toNat = 0 →
        cpu.step = .ok { cpu with a := word, pc := cpu.pc + 1 } := by
  obtain ⟨program, h⟩ :=
    exists_assemble_eq_ok_iff.2 (wellFormed_distant (show 32767 < maxWord by decide))
  have hroom : Machine.hack.variableBase.toNat +
      (freeSymbols (codesOf (distant 32767))).eraseDups.length ≤ maxWord := by
    rw [freeSymbols_distant]
    decide
  have hcode : (instructionCodes (codesOf (distant 32767)))[0]? = some ['@', 'X'] := by
    rw [instructionCodes_distant]
    rfl
  obtain ⟨word, hword, hencodes, hreach, hsteps⟩ := load_survives_iff hroom h hcode
  have hfar : OutOfReach Machine.hack (codesOf (distant 32767)) ['X'] := by
    refine .label rfl (codesOf_distant 32767) (Nat.le_of_eq ?_)
    rw [instructionCodes_before_distant, List.length_cons, List.length_replicate]
  have hle : ¬ word < 0x8000 := fun hlt => hreach.1 hlt hfar
  exact ⟨program, word, h, hword, hencodes, UInt16.not_lt.1 hle, fun hall => hle (hsteps.1 hall)⟩

end Sample

end Asm

end StackVm
