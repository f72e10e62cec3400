import StackVm.Proofs.Simulation

/-! # Comparisons

The machine has no comparing instruction.  The code of `eq`, `gt` and `lt`
subtracts the value on top from the one below and looks at the sign of the
difference, so equality is exact and the order is right as long as the
difference fits in a word.
-/

namespace StackVm

open Asm Text

/-! ## Signs of differences -/

/-- A number that a signed word can hold. -/
def FitsWord (number : Int) : Prop :=
  -32768 ≤ number ∧ number ≤ 32767

theorem fitsWord_signed (word : UInt16) : FitsWord (signed word) := by
  have hlt : word.toNat < 65536 := word.toNat_lt
  rw [signed_eq, FitsWord]
  split <;> omega

theorem signed_inj {x y : UInt16} : signed x = signed y ↔ x = y := by
  refine ⟨fun h => ?_, congrArg signed⟩
  rw [signed_eq, signed_eq] at h
  have hx : x.toNat < 65536 := x.toNat_lt
  have hy : y.toNat < 65536 := y.toNat_lt
  apply UInt16.toNat_inj.1
  split at h <;> split at h <;> omega

/-- Subtraction wraps around. -/
theorem signed_sub_emod (x y : UInt16) :
    signed (x - y) % 65536 = (signed x - signed y) % 65536 := by
  have hsub : (x - y).toNat = (65536 - y.toNat + x.toNat) % 65536 := UInt16.toNat_sub x y
  have hy : y.toNat < 65536 := y.toNat_lt
  rw [signed_eq, signed_eq x, signed_eq y, hsub]
  split <;> split <;> split <;> omega

/-- A difference that does not fit in a word has the wrong sign. -/
theorem signed_sub_cases (x y : UInt16) :
    signed (x - y) = signed x - signed y ∧ FitsWord (signed x - signed y) ∨
      signed (x - y) < 0 ∧ 32767 < signed x - signed y ∨
      0 < signed (x - y) ∧ signed x - signed y < -32768 := by
  obtain ⟨hx, hx'⟩ := fitsWord_signed x
  obtain ⟨hy, hy'⟩ := fitsWord_signed y
  obtain ⟨hd, hd'⟩ := fitsWord_signed (x - y)
  have hwrap := signed_sub_emod x y
  rw [FitsWord]
  omega

/--
What a comparison of the value `x` below with the value `y` on top answers.  It
is right about equality, and about order unless the difference does not fit.
-/
structure ArithOp.Compares (op : ArithOp) (x y answer : UInt16) : Prop where
  isFlag : answer = 0xffff ∨ answer = 0
  eq : op = .eq → (answer = 0xffff ↔ x = y)
  gt : op = .gt → ((answer = 0xffff ↔ signed x > signed y) ↔ FitsWord (signed x - signed y))
  lt : op = .lt → ((answer = 0xffff ↔ signed x < signed y) ↔ FitsWord (signed x - signed y))

theorem ArithOp.flag_eq_iff {p : Prop} [Decidable p] : flag p = 0xffff ↔ p := by
  by_cases hp : p <;> simp [flag, hp]

theorem ArithOp.isFlag_flag (p : Prop) [Decidable p] : flag p = 0xffff ∨ flag p = 0 := by
  by_cases hp : p <;> simp [flag, hp]

theorem ArithOp.compares_result {op : ArithOp} {condition : Jump}
    (hop : op.condition? = some condition) (x y : UInt16) : op.Compares x y (op.result x y) := by
  have hcases := signed_sub_cases x y
  have hinj : signed x = signed y ↔ x = y := signed_inj
  refine ⟨?_, ?_, ?_, ?_⟩
  · cases op with
    | eq | gt | lt => exact isFlag_flag _
    | _ => cases hop
  · rintro rfl
    rw [result, flag_eq_iff, ← hinj]
    omega
  · rintro rfl
    rw [result, flag_eq_iff]
    rw [FitsWord] at hcases ⊢
    omega
  · rintro rfl
    rw [result, flag_eq_iff]
    rw [FitsWord] at hcases ⊢
    omega

/-! ## The code of a comparison -/

theorem Code.legible_comparison (limit : UInt16) (condition : Jump) {trueLabel endLabel : String}
    (htrue : IsName trueLabel) (hend : IsName endLabel) :
    ∀ line ∈ Code.comparison condition trueLabel endLabel, line.Legible limit := by
  have hload : ∀ {name : String}, IsName name → (Code.load name).Legible limit :=
    fun hname => ⟨hname.isOneLine, hname.notNumber⟩
  have hsp : (Code.load "SP").Legible limit := hload (isName_of_mem_registerNames (by decide))
  have hassign : ∀ dest comp, (Code.assign dest comp).Legible limit := fun _ _ => trivial
  have hjumpIf : ∀ comp jump, (Code.jumpIf comp jump).Legible limit := fun _ _ => trivial
  have hlabel : ∀ {name : String}, IsName name → (Line.label name).Legible limit :=
    fun hname => hname.isOneLine
  simp [comparison, popD, unary, jumpTo, hsp, hassign, hjumpIf, hload htrue, hload hend,
    hlabel htrue, hlabel hend]

theorem Lowering.arith_of_condition {lowering : Lowering} {op : ArithOp} {condition : Jump}
    (hop : op.condition? = some condition) :
    (lowering.arith op).1 = Code.comparison condition (lowering.freshLabel .isTrue 1)
      (lowering.freshLabel .isEnd 2) := by
  cases op <;> cases hop <;> rfl

/--
The code of a comparison, wherever it stands in a text that assembles to less
than 32768 words, replaces the two topmost values by the answer and changes no
other cell.  The run stays inside of the code until it leaves it at its end.
-/
theorem Lowering.comparison_runs {lowering next : Lowering} {op : ArithOp} {span : Span}
    {code : Code} {machine : Machine} {before : List String} {after : String} {program : Program}
    {cpu : Cpu} (hop : op ∈ [ArithOp.eq, ArithOp.gt, ArithOp.lt])
    (hcode : lowering.command ⟨.arith op, span⟩ = .ok (code, next))
    (hassemble : assemble machine (render (before ++ code.map Line.text) ++ after) = .ok program)
    (hlength : program.words.length < 32768) (hrom : cpu.rom = program.words.toArray)
    (hsize : cpu.ram.size = 32768) (hpc : cpu.pc.toNat = instructionCount (render before))
    (htop : Ram.IsStackCell (cpu.peek 0 - 1)) (hbelow : Ram.IsStackCell (cpu.peek 0 - 2)) :
    ∃ count last answer,
      Cpu.steps count cpu = (last, none) ∧
        (∀ address ∈ Cpu.addresses count cpu,
          cpu.pc.toNat ≤ address ∧ address < cpu.pc.toNat + Code.size code) ∧
        last.pc.toNat = cpu.pc.toNat + Code.size code ∧
        last.rom = cpu.rom ∧ last.ram.size = cpu.ram.size ∧
        last.peek = (Ram.set cpu.peek 0 (cpu.peek 0 - 1)).set (cpu.peek 0 - 2) answer ∧
        op.Compares (cpu.peek (cpu.peek 0 - 2)) (cpu.peek (cpu.peek 0 - 1)) answer := by
  obtain ⟨condition, hcondition⟩ : ∃ condition, op.condition? = some condition := by
    simp only [List.mem_cons, List.not_mem_nil, or_false] at hop
    rcases hop with rfl | rfl | rfl <;> exact ⟨_, rfl⟩
  obtain rfl : (lowering.arith op).1 = code := by
    rw [Lowering.command_eq_answer] at hcode
    cases hcode
    rfl
  rw [arith_of_condition hcondition] at hassemble ⊢
  have hplaced := placed_of_assemble (Code.legible_comparison machine.maxConstant condition
    (.generatedLabel _ _) (.generatedLabel _ _)) hassemble
  rw [← hpc] at hplaced
  have hend : cpu.pc.toNat + 15 ≤ program.words.length := hplaced.size_le (Nat.succ_pos 14)
  have hcrosses := Code.crosses_comparison hplaced (by omega) htop hbelow
  rw [ArithOp.result_of_condition hcondition] at hcrosses
  obtain ⟨a, d, visited, hpasses, hsublist, -⟩ := hcrosses cpu.a cpu.d
  obtain ⟨last, hsteps, hvisited, hlast⟩ :=
    hpasses cpu ⟨hrom, by omega, hsize, rfl, rfl, rfl, rfl⟩
  refine ⟨visited.length, last, _, hsteps, ?_, hlast.pc, ?_, ?_, hlast.ram,
    ArithOp.compares_result hcondition _ _⟩
  · intro address haddress
    rw [hvisited] at haddress
    exact List.mem_range'_1.1 (hsublist.subset haddress)
  · rw [hlast.rom, hrom]
  · rw [hlast.ramSize, hsize]

namespace Sample

/-- A unit that asks whether 32767 is greater than -1. -/
def comparingUnit : SourceUnit where
  name := "Main"
  source := Text.render ["push constant 32767", "push constant 1", "neg", "gt", "pop temp 0"]

def comparingBefore : Code :=
  Code.push (.immediate 32767) ++ Code.push (.immediate 1) ++ Code.unary (.neg .m)

def comparingCode : Code :=
  (options.lowering.arith .gt).1

def comparingAfter : Code :=
  Code.pop "R13" (.fixed 5)

def comparingLines : Code :=
  comparingBefore ++ comparingCode ++ comparingAfter

def comparingProgram : Program :=
  programOf .hack comparingLines

theorem render_comparingLines :
    render (comparingLines.map Line.text) =
      render (comparingBefore.map Line.text ++ comparingCode.map Line.text) ++
        render (comparingAfter.map Line.text) := by
  rw [comparingLines, List.map_append, List.map_append, render_append]

theorem compileUnits_comparingUnit :
    compileUnits options [comparingUnit] = .ok (render (comparingLines.map Line.text)) :=
  toOption_eq_some_iff.1 (by decide +kernel)

/-- The processor before the comparison. -/
def comparing : Cpu :=
  .holding comparingProgram.words 15
    (((Ram.set (fun _ => 0) 0 258).set 256 32767).set 257 0xffff)

theorem rom_comparing : comparing.rom = comparingProgram.words.toArray :=
  Cpu.rom_holding _ _ _

theorem peek_comparing : comparing.peek = fun cell => if cell < 0x8000 then
    (((Ram.set (fun _ => 0) 0 258).set 256 32767).set 257 0xffff) cell else 0 :=
  Cpu.peek_holding _ _ _

/-- The difference of 32767 and -1 does not fit in a word, so 32767 is not found to be greater. -/
theorem comparison_overflows :
    compileUnits options [comparingUnit] = .ok (render (comparingLines.map Line.text)) ∧
      assemble .hack (render (comparingLines.map Line.text)) = .ok comparingProgram ∧
      comparingProgram.words.length < 32768 ∧
      ∃ count last, Cpu.steps count comparing = (last, none) ∧ last.pc.toNat = 30 ∧
        last.peek 0 = 257 ∧ last.peek 256 = 0 := by
  have hassemble : assemble .hack (render (comparingLines.map Line.text)) =
      .ok comparingProgram := by
    obtain ⟨layout, hassembled⟩ : ∃ layout, Assembled .hack {} comparingLines layout
        comparingProgram := assembled_programOf (by decide +kernel) (by decide +kernel)
    exact hassembled.assemble_render_eq_ok (by decide +kernel)
  have hlength : comparingProgram.words.length < 32768 := by
    decide +kernel
  have hcode : options.lowering.command ⟨.arith .gt, ⟨4, 40, 42⟩⟩ =
      .ok (comparingCode, { options.lowering with labels := 2 }) := rfl
  have hpc : comparing.pc.toNat = instructionCount (render (comparingBefore.map Line.text)) := by
    decide +kernel
  have hhosted := hassemble
  rw [render_comparingLines] at hhosted
  obtain ⟨count, last, answer, hsteps, -, hend, -, -, hlast, hcompares⟩ :=
    Lowering.comparison_runs (by decide) hcode hhosted hlength rom_comparing
      (Cpu.size_holding _ _ _) hpc (by rw [peek_comparing]; decide) (by rw [peek_comparing]; decide)
  rw [peek_comparing] at hlast hcompares
  have hanswer : answer = 0 := by
    refine hcompares.isFlag.resolve_left fun htrue => ?_
    have hfits := (hcompares.gt rfl).1 ⟨fun _ => by decide, fun _ => htrue⟩
    exact absurd hfits.2 (by decide)
  refine ⟨compileUnits_comparingUnit, hassemble, hlength, count, last, hsteps, hend, ?_, ?_⟩
  · rw [hlast, Ram.set_other _ _ (by decide), Ram.set_same]
    decide
  · rw [hlast, hanswer]
    exact Ram.set_same _ _ _

end Sample

end StackVm
