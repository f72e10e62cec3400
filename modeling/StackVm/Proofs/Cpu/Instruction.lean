import StackVm.Asm.Instruction
import StackVm.Proofs.Cpu.Whole

/-! # What one instruction does

The bits of an encoded instruction select the computation, the destinations
and the jump that its parts name.  The arithmetic unit is followed bit by bit
here and nowhere else: later proofs use `step_load` and `step_compute`.
-/

namespace StackVm

namespace Asm

/-- The value of a computation, given the data register and the operand. -/
def Comp.value (comp : Comp) (d y : UInt16) : UInt16 :=
  match comp with
  | .zero => 0
  | .one => 1
  | .minusOne => 0xffff
  | .d => d
  | .notD => ~~~d
  | .negD => -d
  | .succD => d + 1
  | .predD => d - 1
  | .it _ => y
  | .not _ => ~~~y
  | .neg _ => -y
  | .succ _ => y + 1
  | .pred _ => y - 1
  | .add _ => d + y
  | .sub _ => d - y
  | .subD _ => y - d
  | .and _ => d &&& y
  | .or _ => d ||| y

/-- Whether a value, read as a signed number, meets a jump condition. -/
def Jump.holds (jump : Jump) (out : UInt16) : Bool :=
  match jump with
  | .never => false
  | .gt => out < 0x8000 && out != 0
  | .eq => out == 0
  | .ge => out < 0x8000
  | .lt => 0x8000 ≤ out
  | .ne => out != 0
  | .le => 0x8000 ≤ out || out == 0
  | .always => true

/-- Whether an instruction reads or stores the memory cell. -/
def Instruction.usesMemory : Instruction → Bool
  | .load _ => false
  | .compute dest comp _ => comp.operand? == some .m || dest.m

end Asm

namespace Cpu

open Asm

/-! ## The bits of a computing instruction -/

theorem clear_or (x y mask : UInt16) :
    clear (x ||| y) mask = (clear x mask && clear y mask) := by
  have hand : (x ||| y) &&& mask = (x &&& mask) ||| (y &&& mask) :=
    UInt16.toBitVec_inj.1 BitVec.and_or_distrib_right
  have hzero : (x ||| y) &&& mask = 0 ↔ x &&& mask = 0 ∧ y &&& mask = 0 := by
    rw [hand, UInt16.or_eq_zero_iff]
  rw [Bool.eq_iff_iff, Bool.and_eq_true]
  simpa only [clear, beq_iff_eq] using hzero

variable (resolve : String → UInt16) (dest : Dest) (comp : Comp) (jump : Jump)

theorem clear_word (mask : UInt16) :
    clear ((Instruction.compute dest comp jump).word resolve) mask =
      (clear 0xe000 mask && clear (comp.bits <<< 6) mask && clear (dest.bits <<< 3) mask &&
        clear jump.bits mask) := by
  simp only [Instruction.word, clear_or]

/-- Seven bits select the computation, and no other part of the word reaches them. -/
theorem clear_word_comp (mask : UInt16) (h : mask ∈ [0x1000, 0x0800, 0x0400, 0x0200, 0x0100,
      0x0080, 0x0040]) :
    clear ((Instruction.compute dest comp jump).word resolve) mask =
      clear (comp.bits <<< 6) mask := by
  have hrest : [0x1000, 0x0800, 0x0400, 0x0200, 0x0100, 0x0080, 0x0040].all (fun mask =>
      clear 0xe000 mask && clear (dest.bits <<< 3) mask && clear jump.bits mask) = true := by
    obtain ⟨a, d, m⟩ := dest
    cases a <;> cases d <;> cases m <;> cases jump <;> decide
  have hmask := List.all_eq_true.1 hrest mask h
  simp only [Bool.and_eq_true] at hmask
  simp [clear_word, hmask]

theorem clear_word_dest (mask : UInt16) (h : mask ∈ [0x0020, 0x0010, 0x0008]) :
    clear ((Instruction.compute dest comp jump).word resolve) mask =
      clear (dest.bits <<< 3) mask := by
  have hcomp : [0x0020, 0x0010, 0x0008].all (clear (comp.bits <<< 6)) = true := by
    cases comp with
    | it y | not y | neg y | succ y | pred y | add y | sub y | subD y | and y | or y =>
        cases y <;> decide
    | _ => decide
  have hrest : [0x0020, 0x0010, 0x0008].all (fun mask =>
      clear 0xe000 mask && clear jump.bits mask) = true := by
    cases jump <;> decide
  have hmask := List.all_eq_true.1 hrest mask h
  simp only [Bool.and_eq_true] at hmask
  simp [clear_word, hmask, List.all_eq_true.1 hcomp mask h]

theorem clear_word_jump (mask : UInt16) (h : mask ∈ [0b100, 0b010, 0b001]) :
    clear ((Instruction.compute dest comp jump).word resolve) mask = clear jump.bits mask := by
  have hcomp : [0b100, 0b010, 0b001].all (clear (comp.bits <<< 6)) = true := by
    cases comp with
    | it y | not y | neg y | succ y | pred y | add y | sub y | subD y | and y | or y =>
        cases y <;> decide
    | _ => decide
  have hrest : [0b100, 0b010, 0b001].all (fun mask =>
      clear 0xe000 mask && clear (dest.bits <<< 3) mask) = true := by
    obtain ⟨a, d, m⟩ := dest
    cases a <;> cases d <;> cases m <;> decide
  have hmask := List.all_eq_true.1 hrest mask h
  simp only [Bool.and_eq_true] at hmask
  simp [clear_word, hmask, List.all_eq_true.1 hcomp mask h]

theorem isCompute_word :
    isCompute ((Instruction.compute dest comp jump).word resolve) = true := by
  have htop : clear 0xe000 0x8000 = false := by decide
  simp [isCompute, clear_word, htop]

theorem readsMemory_word :
    readsMemory ((Instruction.compute dest comp jump).word resolve) =
      (comp.operand? == some .m) := by
  rw [readsMemory, clear_word_comp resolve dest comp jump _ (by decide)]
  cases comp with
  | it y | not y | neg y | succ y | pred y | add y | sub y | subD y | and y | or y =>
      cases y <;> decide
  | _ => decide

theorem writesMemory_word :
    writesMemory ((Instruction.compute dest comp jump).word resolve) = dest.m := by
  rw [writesMemory, clear_word_dest resolve dest comp jump _ (by decide)]
  obtain ⟨a, d, m⟩ := dest
  cases a <;> cases d <;> cases m <;> decide

theorem clear_word_a :
    clear ((Instruction.compute dest comp jump).word resolve) 0x0020 = !dest.a := by
  rw [clear_word_dest resolve dest comp jump _ (by decide)]
  obtain ⟨a, d, m⟩ := dest
  cases a <;> cases d <;> cases m <;> decide

theorem clear_word_d :
    clear ((Instruction.compute dest comp jump).word resolve) 0x0010 = !dest.d := by
  rw [clear_word_dest resolve dest comp jump _ (by decide)]
  obtain ⟨a, d, m⟩ := dest
  cases a <;> cases d <;> cases m <;> decide

/-- The control bits of a computation make the arithmetic unit compute its value. -/
theorem alu_word (d y : UInt16) :
    alu ((Instruction.compute dest comp jump).word resolve) d y = comp.value d y := by
  have hbit := clear_word_comp resolve dest comp jump
  simp only [alu, hbit _ (show (0x0800 : UInt16) ∈ _ by decide),
    hbit _ (show (0x0400 : UInt16) ∈ _ by decide), hbit _ (show (0x0200 : UInt16) ∈ _ by decide),
    hbit _ (show (0x0100 : UInt16) ∈ _ by decide), hbit _ (show (0x0080 : UInt16) ∈ _ by decide),
    hbit _ (show (0x0040 : UInt16) ∈ _ by decide)]
  have hor : ~~~(~~~d &&& ~~~y) = d ||| y := by
    rw [UInt16.not_eq_comm]
    exact UInt16.toBitVec_inj.1 (BitVec.not_or (x := d.toBitVec) (y := y.toBitVec)).symm
  -- The goals below show the six control bits as the operations that they switch on.
  cases comp with
  | zero =>
      change (0 : UInt16) + 0 = 0
      decide
  | one =>
      change ~~~(~~~0 + ~~~0) = (1 : UInt16)
      decide
  | minusOne =>
      change ~~~0 + 0 = (0xffff : UInt16)
      decide
  | d =>
      change d &&& ~~~0 = d
      simp
  | notD =>
      change ~~~(d &&& ~~~0) = ~~~d
      simp
  | negD =>
      change ~~~(d + ~~~0) = -d
      simp only [UInt16.not_eq_neg_sub]
      grind
  | succD =>
      change ~~~(~~~d + ~~~0) = d + 1
      simp only [UInt16.not_eq_neg_sub]
      grind
  | predD =>
      change d + ~~~0 = d - 1
      simp only [UInt16.not_eq_neg_sub]
      grind
  | it z =>
      cases z <;> change ~~~0 &&& y = y <;> simp
  | not z =>
      cases z <;> change ~~~(~~~0 &&& y) = ~~~y <;> simp
  | neg z =>
      cases z <;> change ~~~(~~~0 + y) = -y <;> simp only [UInt16.not_eq_neg_sub] <;> grind
  | succ z =>
      cases z <;> change ~~~(~~~0 + ~~~y) = y + 1 <;> simp only [UInt16.not_eq_neg_sub] <;> grind
  | pred z =>
      cases z <;> change ~~~0 + y = y - 1 <;> simp only [UInt16.not_eq_neg_sub] <;> grind
  | add z | and z =>
      cases z <;> rfl
  | sub z =>
      cases z <;> change ~~~(~~~d + y) = d - y <;> simp only [UInt16.not_eq_neg_sub] <;> grind
  | subD z =>
      cases z <;> change ~~~(d + ~~~y) = y - d <;> simp only [UInt16.not_eq_neg_sub] <;> grind
  | or z =>
      cases z <;> exact hor

theorem jumps_word (out : UInt16) :
    jumps ((Instruction.compute dest comp jump).word resolve) out = jump.holds out := by
  have hbit := clear_word_jump resolve dest comp jump
  simp only [jumps, hbit _ (show (0b100 : UInt16) ∈ _ by decide),
    hbit _ (show (0b010 : UInt16) ∈ _ by decide), hbit _ (show (0b001 : UInt16) ∈ _ by decide)]
  have hlt : decide (out < 0x8000) = !decide (0x8000 ≤ out) := by
    simp [← UInt16.not_le]
  have hzero : out = 0 → decide (0x8000 ≤ out) = false := by
    rintro rfl
    decide
  generalize hneg : decide (0x8000 ≤ out) = negative at hlt hzero ⊢
  cases jump with
  | never => rfl
  | gt =>
      change (!negative && out != 0) = (decide (out < 0x8000) && out != 0)
      rw [hlt]
  | eq =>
      change ((out == 0) || false) = (out == 0)
      simp
  | ge =>
      change ((out == 0) || (!negative && out != 0)) = decide (out < 0x8000)
      by_cases h : out = 0
      · simp [h, hzero h]
      · have hne : (out == 0) = false := by simpa using h
        simp [hlt, bne, hne]
  | lt =>
      change (negative || false || false) = decide (0x8000 ≤ out)
      simp [hneg]
  | ne =>
      change (negative || false || (!negative && out != 0)) = (out != 0)
      by_cases h : out = 0 <;> cases negative <;> simp_all
  | le =>
      change (negative || out == 0 || false) = (decide (0x8000 ≤ out) || out == 0)
      simp [hneg]
  | always =>
      change (negative || out == 0 || (!negative && out != 0)) = true
      by_cases h : out = 0 <;> cases negative <;> simp [h]

/-! ## One step -/

/-- The operand of a computation: the cell at the address register, or that register. -/
def operand (cpu : Cpu) (comp : Comp) : UInt16 :=
  if comp.operand? == some .m then cpu.peek cpu.a else cpu.a

/-- The effect of a computing instruction, by its parts. -/
def computed (cpu : Cpu) (dest : Dest) (comp : Comp) (jump : Jump) : Cpu :=
  let out := comp.value cpu.d (cpu.operand comp)
  { rom := cpu.rom
    ram := if dest.m then cpu.ram.setIfInBounds cpu.a.toNat out else cpu.ram
    a := if dest.a then out else cpu.a
    d := if dest.d then out else cpu.d
    pc := if jump.holds out then cpu.a else cpu.pc + 1 }

theorem compute_word (cpu : Cpu) :
    cpu.compute ((Instruction.compute dest comp jump).word resolve) =
      cpu.computed dest comp jump := by
  have hout : cpu.output ((Instruction.compute dest comp jump).word resolve) =
      comp.value cpu.d (cpu.operand comp) := by
    rw [output, alu_word, readsMemory_word, operand]
  unfold compute computed
  rw [hout]
  simp only [writesMemory_word, clear_word_a, clear_word_d, jumps_word]
  obtain ⟨a, d, m⟩ := dest
  cases a <;> cases d <;> rfl

theorem fault?_compute {cpu : Cpu}
    (hfetch : cpu.fetch? = some ((Instruction.compute dest comp jump).word resolve)) :
    cpu.fault? =
      if (Instruction.compute dest comp jump).usesMemory ∧ cpu.ram.size ≤ cpu.a.toNat then
        some (.outsideRam cpu.pc cpu.a cpu.ram.size)
      else
        none := by
  rw [fault?, hfetch]
  simp only [isCompute_word, readsMemory_word, writesMemory_word, Instruction.usesMemory]
  simp

/-- A computing instruction does what its parts say, unless it needs a cell outside of memory. -/
theorem step_compute {cpu : Cpu}
    (hfetch : cpu.fetch? = some ((Instruction.compute dest comp jump).word resolve))
    (hmemory : (Instruction.compute dest comp jump).usesMemory = true →
      cpu.a.toNat < cpu.ram.size) :
    cpu.step = .ok (cpu.computed dest comp jump) := by
  have hfault : cpu.fault? = none := by
    rw [fault?_compute resolve dest comp jump hfetch, if_neg]
    rintro ⟨huse, hsize⟩
    have := hmemory huse
    omega
  refine step_eq_ok_iff.2 ⟨hfault, ?_⟩
  simp only [advance, hfetch, execute, isCompute_word, compute_word, if_true]

omit resolve dest comp jump in
theorem isCompute_eq_false_iff {word : UInt16} : isCompute word = false ↔ word < 0x8000 := by
  have htop : word.toBitVec.getLsbD 15 = decide (32768 ≤ word.toNat) := by
    rw [← BitVec.msb_eq_getLsbD_last word.toBitVec, BitVec.msb_eq_decide]
    rfl
  have hand : (word &&& 0x8000).toBitVec =
      if word.toBitVec.getLsbD 15 then BitVec.twoPow 16 15 else 0#16 :=
    BitVec.and_twoPow word.toBitVec 15
  rw [isCompute, clear, Bool.not_eq_false', beq_iff_eq, ← UInt16.toBitVec_inj, hand, htop,
    UInt16.lt_iff_toNat_lt]
  by_cases hle : 32768 ≤ word.toNat
  · simp only [hle, decide_true, if_true]
    exact ⟨fun h => absurd h (by decide), fun h => absurd h (Nat.not_lt.2 hle)⟩
  · simp only [hle, decide_false]
    exact ⟨fun _ => Nat.lt_of_not_le hle, fun _ => rfl⟩

omit resolve dest comp jump in
theorem step_load {cpu : Cpu} {value : UInt16} (hfetch : cpu.fetch? = some value)
    (hvalue : value < 0x8000) :
    cpu.step = .ok { cpu with a := value, pc := cpu.pc + 1 } := by
  have hclear := isCompute_eq_false_iff.2 hvalue
  have hfault : cpu.fault? = none := by
    simp [fault?, hfetch, hclear]
  refine step_eq_ok_iff.2 ⟨hfault, ?_⟩
  simp [advance, hfetch, execute, hclear]

end Cpu

end StackVm
