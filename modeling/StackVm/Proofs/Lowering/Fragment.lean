import StackVm.Machine
import StackVm.Proofs.Cpu.View

/-! # What the fragments of code do

Each fragment that commands are put together from takes a processor from one
view to another, through the instructions of the fragment.  Stack cells lie above
the registers, so a push or a pop never changes a register other than the stack
pointer.
-/

namespace StackVm

open Asm

/-! ## Registers -/

/-- The cell that a pointer is kept in. -/
def Pointer.register : Pointer → UInt16
  | .lcl => 1
  | .arg => 2
  | .this => 3
  | .that => 4

theorem Pointer.toNat_register_lt (pointer : Pointer) : pointer.register.toNat < 16 := by
  cases pointer <;> decide

theorem Pointer.register_ne_zero (pointer : Pointer) : pointer.register ≠ 0 := by
  cases pointer <;> decide

theorem Pointer.register_lt (pointer : Pointer) : pointer.register < 0x8000 := by
  cases pointer <;> decide

theorem Ram.IsStackCell.lt {address : UInt16} (h : IsStackCell address) : address < 0x8000 := by
  have hle := h.2
  rw [UInt16.lt_iff_toNat_lt]
  change address.toNat < 32768
  omega

namespace Asm.Program

variable (program : Program)

theorem resolve_predefined {name : String} {address : UInt16}
    (h : predefined.lookup (squeezed name) = some address) : program.resolve name = address := by
  simp [resolve, Program.address?, Symbols.address?, h]

@[simp] theorem resolve_sp : program.resolve "SP" = 0 :=
  resolve_predefined program (by decide)

@[simp] theorem resolve_pointer (pointer : Pointer) :
    program.resolve pointer.name = pointer.register := by
  cases pointer <;> exact resolve_predefined program (by decide)

@[simp] theorem resolve_lcl : program.resolve "LCL" = 1 :=
  resolve_pointer program .lcl

@[simp] theorem resolve_arg : program.resolve "ARG" = 2 :=
  resolve_pointer program .arg

@[simp] theorem resolve_popScratch : program.resolve "R13" = 13 :=
  resolve_predefined program (by decide)

@[simp] theorem resolve_frameScratch : program.resolve "R14" = 14 :=
  resolve_predefined program (by decide)

@[simp] theorem resolve_returnScratch : program.resolve "R15" = 15 :=
  resolve_predefined program (by decide)

end Asm.Program

namespace Code

open View

variable {program : Program} {pc : Nat} {a d : UInt16} {ram : Ram}

/-! ## Stack -/

theorem passes_pushD (hcode : Placed program pc pushD) (h : Ram.IsStackCell (ram 0)) :
    Passes program ⟨pc, a, d, ram⟩ (List.range' pc 4) ⟨pc + 4, ram 0, d, ram.push d⟩ := by
  have hlt := h.lt
  apply Follows.passes hcode
  · simp [pushD, toM, toA, output, Comp.operand?, Comp.value, hlt]
  · simp [pushD, toM, toA, output, Comp.operand?, Comp.value, Ram.push]

theorem passes_popD (hcode : Placed program pc popD) (h : Ram.IsStackCell (ram 0 - 1)) :
    Passes program ⟨pc, a, d, ram⟩ (List.range' pc 3) ⟨pc + 3, ram 0 - 1, ram.top, ram.drop⟩ := by
  have hlt := h.lt
  have hne : ram 0 - 1 ≠ 0 := h.ne (by decide)
  apply Follows.passes hcode
  · simp [popD, toAM, toD, output, Comp.operand?, Comp.value, hlt]
  · simp [popD, toAM, toD, output, Comp.operand?, Comp.value, Ram.top, Ram.drop,
      Ram.set_other _ _ hne]

theorem passes_store (d : UInt16) (ram : Ram) {comp : Comp}
    (hcode : Placed program pc [assign toM comp]) (ha : a < 0x8000) :
    Passes program ⟨pc, a, d, ram⟩ (List.range' pc 1)
      ⟨pc + 1, a, d,
        ram.set a (comp.value d (if comp.operand? == some .m then ram a else a))⟩ := by
  apply Follows.passes hcode
  · simp [ha]
  · simp [toM, output]

/-- The two topmost values become one; the upper one is in the data register. -/
theorem passes_binary {comp : Comp} (hcode : Placed program pc (binary comp))
    (hoperand : comp.operand? = some .m) (htop : Ram.IsStackCell (ram 0 - 1))
    (hsecond : Ram.IsStackCell (ram 0 - 2)) :
    Passes program ⟨pc, a, d, ram⟩ (List.range' pc 5)
      ⟨pc + 5, ram 0 - 2, ram.top,
        ram.drop.set (ram 0 - 2) (comp.value ram.top (ram (ram 0 - 2)))⟩ := by
  have hne : ram 0 - 2 ≠ 0 := hsecond.ne (by decide)
  have hsub : ram 0 - 1 - 1 = ram 0 - 2 := by grind
  have hsplit : Placed program (pc + 3) ([assign toA (.pred .a)] ++ [assign toM comp]) :=
    hcode.right
  have hstore := passes_store ram.top ram.drop hsplit.right hsecond.lt
  rw [hoperand, Ram.drop_other _ hne] at hstore
  refine (passes_popD hcode.left htop).extend (.extend ?_ hstore)
  apply Follows.passes hsplit.left
  · simp [toA, Comp.operand?]
  · simp [toA, output, Comp.operand?, Comp.value, hsub]

theorem passes_unary {comp : Comp} (hcode : Placed program pc (unary comp))
    (htop : Ram.IsStackCell (ram 0 - 1)) :
    Passes program ⟨pc, a, d, ram⟩ (List.range' pc 3)
      ⟨pc + 3, ram 0 - 1, d,
        ram.set (ram 0 - 1)
          (comp.value d (if comp.operand? == some .m then ram.top else ram 0 - 1))⟩ := by
  have hsplit : Placed program pc ([load "SP", assign toA (.pred .m)] ++ [assign toM comp]) :=
    hcode
  refine .extend ?_ (passes_store d ram hsplit.right htop.lt)
  apply Follows.passes hsplit.left
  · simp [toA, Comp.operand?]
  · simp [toA, output, Comp.operand?, Comp.value]

/-! ## Jumps -/

theorem passes_jumpIf (a d : UInt16) (ram : Ram) {comp : Comp} {jump : Jump}
    (hcode : Placed program pc [jumpIf comp jump]) (hoperand : comp.operand? = none) :
    Passes program ⟨pc, a, d, ram⟩ (List.range' pc 1)
      ⟨if jump.holds (comp.value d a) then a.toNat else pc + 1, a, d, ram⟩ := by
  have hpermits : (View.mk pc a d ram).Permits program (.compute {} comp jump) := by
    simp [Permits, Instruction.usesMemory, hoperand]
  simpa [exec, output, hoperand] using passes_exec hcode.1 hpermits

theorem passes_load {name : String} (hcode : Placed program pc [load name])
    (hname : program.resolve name < 0x8000) :
    Passes program ⟨pc, a, d, ram⟩ (List.range' pc 1) ⟨pc + 1, program.resolve name, d, ram⟩ :=
  Follows.passes hcode (by simpa) (by simp)

theorem passes_jumpTo (a d : UInt16) (ram : Ram) {name : String}
    (hcode : Placed program pc (jumpTo name)) (hname : program.resolve name < 0x8000) :
    Passes program ⟨pc, a, d, ram⟩ (List.range' pc 2)
      ⟨(program.resolve name).toNat, program.resolve name, d, ram⟩ := by
  have hsplit : Placed program pc ([load name] ++ [jumpIf .zero .always]) := hcode
  have hjump := passes_jumpIf (program.resolve name) d ram hsplit.right rfl
  simp only [Jump.holds, ↓reduceIte] at hjump
  exact (passes_load hsplit.left hname).extend hjump

theorem crosses_jumpTo {name : String} (hcode : Placed program pc (jumpTo name))
    (hname : program.resolve name < 0x8000) :
    Crosses program pc 2 ram (program.resolve name).toNat ram :=
  Crosses.of_passes fun a d => ⟨_, _, passes_jumpTo a d ram hcode hname⟩

/-- A popped value decides whether to jump. -/
theorem crosses_jumpUnlessZero {name : String} (hcode : Placed program pc (jumpUnlessZero name))
    (htop : Ram.IsStackCell (ram 0 - 1)) (hname : program.resolve name < 0x8000) :
    Crosses program pc 5 ram
      (if ram.top = 0 then pc + 5 else (program.resolve name).toNat) ram.drop := by
  have hsplit : Placed program (pc + 3) ([load name] ++ [jumpIf .d .ne]) := hcode.right
  have hjump := passes_jumpIf (program.resolve name) ram.top ram.drop hsplit.right rfl
  simp only [Jump.holds, Comp.value, bne_iff_ne, ne_eq, ite_not] at hjump
  exact Crosses.of_passes fun a d =>
    ⟨_, _, (passes_popD hcode.left htop).extend ((passes_load hsplit.left hname).extend hjump)⟩

/-! ## Comparisons -/

/-- The value that a comparison leaves on the stack. -/
def truth (condition : Bool) : UInt16 :=
  if condition then 0xffff else 0

/--
A comparison replaces the two topmost values by the truth of a condition on
their difference.  Both branches end at the address after the code.
-/
theorem crosses_comparison {condition : Jump} {trueLabel endLabel : String}
    (hcode : Placed program pc (comparison condition trueLabel endLabel))
    (hend : pc + 15 ≤ 32767) (htop : Ram.IsStackCell (ram 0 - 1))
    (hsecond : Ram.IsStackCell (ram 0 - 2)) :
    Crosses program pc 15 ram (pc + 15)
      (ram.drop.set (ram 0 - 2) (truth (condition.holds (ram (ram 0 - 2) - ram.top)))) := by
  have hne : ram 0 - 2 ≠ 0 := hsecond.ne (by decide)
  have hsub : ram 0 - 1 - 1 = ram 0 - 2 := by grind
  have hcell : ram.drop 0 - 1 = ram 0 - 2 := by rw [Ram.drop_sp, hsub]
  have hstack : Ram.IsStackCell (ram.drop 0 - 1) := by rwa [hcell]
  have hendLabel : Placed program (pc + 15) [.label endLabel] := hcode.right
  have hminusOne : Placed program (pc + 12) (unary .minusOne) := hcode.left.right
  have htrueLabel : Placed program (pc + 12) [.label trueLabel] := hcode.left.left.right
  have hjumpTo : Placed program (pc + 10) (jumpTo endLabel) := hcode.left.left.left.right
  have hzero : Placed program (pc + 7) (unary .zero) := hcode.left.left.left.left.right
  have hbranch : Placed program pc (popD ++ ([assign toA (.pred .a), assign toD (.subD .m),
      load trueLabel] ++ [jumpIf .d condition])) := hcode.left.left.left.left.left
  have htrue := program.toNat_resolve htrueLabel.1 (by omega)
  have hexit := program.toNat_resolve hendLabel.1 hend
  have htrueLt := program.resolve_lt htrueLabel.1 (by omega)
  intro a d
  have hdifference : Passes program ⟨pc, a, d, ram⟩ (List.range' pc 6)
      ⟨pc + 6, program.resolve trueLabel, ram (ram 0 - 2) - ram.top, ram.drop⟩ := by
    refine (passes_popD hbranch.left htop).extend (Follows.passes hbranch.right.left ?_ ?_)
    · simp [toA, toD, output, Comp.operand?, Comp.value, hsub, hsecond.lt, htrueLt]
    · simp [toA, toD, output, Comp.operand?, Comp.value, hsub, Ram.drop_other _ hne]
  have hjump := passes_jumpIf (program.resolve trueLabel) (ram (ram 0 - 2) - ram.top) ram.drop
    hbranch.right.right rfl
  have hcompared : Passes program ⟨pc, a, d, ram⟩ (List.range' pc 7)
      ⟨if condition.holds (ram (ram 0 - 2) - ram.top) then pc + 12 else pc + 7,
        program.resolve trueLabel, ram (ram 0 - 2) - ram.top, ram.drop⟩ := by
    rw [← htrue]
    exact hdifference.extend hjump
  cases hholds : condition.holds (ram (ram 0 - 2) - ram.top) with
  | true =>
      have hstore := passes_unary (a := program.resolve trueLabel)
        (d := ram (ram 0 - 2) - ram.top) hminusOne hstack
      rw [if_pos hholds] at hcompared
      rw [hcell] at hstore
      refine ⟨_, _, _, hcompared.trans hstore, ?_, by simp⟩
      rw [show 15 = 7 + (5 + 3) from rfl, ← List.range'_append_1, ← List.range'_append_1]
      exact (List.Sublist.refl _).append (List.sublist_append_right _ _)
  | false =>
      have hstore := passes_unary (a := program.resolve trueLabel)
        (d := ram (ram 0 - 2) - ram.top) hzero hstack
      have hleave := passes_jumpTo (ram 0 - 2) (ram (ram 0 - 2) - ram.top)
        (ram.drop.set (ram 0 - 2) 0) hjumpTo (program.resolve_lt hendLabel.1 hend)
      rw [if_neg (by simp [hholds])] at hcompared
      rw [hcell] at hstore
      rw [hexit] at hleave
      refine ⟨_, _, _, hcompared.extend (hstore.extend hleave), ?_, by simp⟩
      exact List.range'_sublist_right.2 (by decide)

end Code

/-! ## Segments -/

namespace Place

/-- The address of a place's cell; for an immediate value, that value. -/
def address (program : Program) (ram : Ram) : Place → UInt16
  | .immediate value => value
  | .symbol name => program.resolve name
  | .fixed address => address
  | .offset base index => ram base.register + index

def value (program : Program) (ram : Ram) : Place → UInt16
  | .immediate value => value
  | place => ram (place.address program ram)

/-- The numbers that the code for a place loads are addresses, and its cell is in memory. -/
def Valid (program : Program) (ram : Ram) (place : Place) : Prop :=
  place.address program ram < 0x8000 ∧ ∀ base index, place = .offset base index → index < 0x8000

end Place

namespace Code

open View

variable {program : Program} {pc : Nat} {a d : UInt16} {ram : Ram}

theorem passes_valueToD {place : Place} (hcode : Placed program pc (valueToD place))
    (hvalid : place.Valid program ram) :
    Passes program ⟨pc, a, d, ram⟩ (List.range' pc (Code.size (valueToD place)))
      ⟨pc + Code.size (valueToD place), place.address program ram, place.value program ram,
        ram⟩ := by
  obtain ⟨haddress, hindex⟩ := hvalid
  cases place with
  | offset base index =>
      have hlt : index < 0x8000 := hindex base index rfl
      have hbase := base.register_lt
      rw [Place.address] at haddress
      apply Follows.passes hcode
      · simp [valueToD, toD, toA, output, Comp.operand?, Comp.value, hlt, hbase, haddress]
      · simp [valueToD, toD, toA, output, Comp.operand?, Comp.value, Place.value, Place.address]
  | _ =>
      rw [Place.address] at haddress
      apply Follows.passes hcode
      · simp [valueToD, toD, Comp.operand?, haddress]
      · simp [valueToD, toD, output, Comp.operand?, Comp.value, Place.value, Place.address]

theorem passes_addressToD {place : Place} (hcode : Placed program pc (addressToD place))
    (hvalid : place.Valid program ram) :
    ∃ a', Passes program ⟨pc, a, d, ram⟩ (List.range' pc (Code.size (addressToD place)))
      ⟨pc + Code.size (addressToD place), a', place.address program ram, ram⟩ := by
  obtain ⟨haddress, hindex⟩ := hvalid
  cases place with
  | offset base index =>
      have hlt : index < 0x8000 := hindex base index rfl
      have hbase := base.register_lt
      refine ⟨index, Follows.passes hcode ?_ ?_⟩
      · simp [addressToD, toD, Comp.operand?, hlt, hbase]
      · simp [addressToD, toD, output, Comp.operand?, Comp.value, Place.address]
  | immediate address | fixed address =>
      rw [Place.address] at haddress
      refine ⟨address, Follows.passes hcode ?_ ?_⟩
      · simp [addressToD, toD, Comp.operand?, haddress]
      · simp [addressToD, toD, output, Comp.operand?, Comp.value, Place.address]
  | symbol name =>
      rw [Place.address] at haddress
      refine ⟨program.resolve name, Follows.passes hcode ?_ ?_⟩
      · simp [addressToD, toD, Comp.operand?, haddress]
      · simp [addressToD, toD, output, Comp.operand?, Comp.value, Place.address]

theorem crosses_push {place : Place} (hcode : Placed program pc (push place))
    (hvalid : place.Valid program ram) (hsp : Ram.IsStackCell (ram 0)) :
    Crosses program pc (Code.size (push place)) ram (pc + Code.size (push place))
      (ram.push (place.value program ram)) := by
  rw [push, size_append, ← Nat.add_assoc]
  exact Crosses.of_passes fun a d =>
    ⟨_, _, (passes_valueToD hcode.left hvalid).extend (passes_pushD hcode.right hsp)⟩

/--
The value on top goes to the address in the data register, by way of a scratch
register.  The popped cell is no register, so this does not change what is
popped.
-/
theorem passes_popTo {target : UInt16}
    (hcode : Placed program pc ([load "R13", assign toM .d] ++ (popD ++
      [load "R13", assign toA (.it .m), assign toM .d])))
    (htarget : target < 0x8000) (htop : Ram.IsStackCell (ram 0 - 1)) :
    Passes program ⟨pc, a, target, ram⟩ (List.range' pc 8)
      ⟨pc + 8, target, ram.top, (ram.set 13 target).drop.set target ram.top⟩ := by
  have hsp : ram.set 13 target 0 = ram 0 := Ram.set_other _ _ (by decide)
  have hvalue : (ram.set 13 target).top = ram.top :=
    Ram.top_set target htop (by decide) (by decide)
  have hscratch : (ram.set 13 target).drop 13 = target := by
    rw [Ram.drop_other _ (by decide), Ram.set_same]
  have hpark : Passes program ⟨pc, a, target, ram⟩ (List.range' pc 2)
      ⟨pc + 2, 13, target, ram.set 13 target⟩ := by
    apply Follows.passes hcode.left
    · simp
    · simp [toM, output, Comp.value]
  have hpop : Passes program ⟨pc + 2, 13, target, ram.set 13 target⟩ (List.range' (pc + 2) 3)
      ⟨pc + 5, ram 0 - 1, ram.top, (ram.set 13 target).drop⟩ := by
    rw [← hvalue, ← hsp]
    exact passes_popD hcode.right.left (by rwa [hsp])
  refine hpark.extend (hpop.extend (Follows.passes hcode.right.right ?_ ?_))
  · simp [toA, output, Comp.operand?, Comp.value, hscratch, htarget]
  · simp [toA, toM, output, Comp.operand?, Comp.value, hscratch]

theorem crosses_pop {place : Place} (hcode : Placed program pc (pop "R13" place))
    (hvalid : place.Valid program ram) (htop : Ram.IsStackCell (ram 0 - 1)) :
    Crosses program pc (Code.size (pop "R13" place)) ram (pc + Code.size (pop "R13" place))
      ((ram.set 13 (place.address program ram)).drop.set (place.address program ram)
        ram.top) := by
  have hsplit : pop "R13" place = addressToD place ++ ([load "R13", assign toM .d] ++ (popD ++
      [load "R13", assign toA (.it .m), assign toM .d])) := by
    simp [pop]
  rw [hsplit] at hcode
  rw [hsplit, size_append, ← Nat.add_assoc]
  refine Crosses.of_passes fun a d => ?_
  obtain ⟨a', haddress⟩ := passes_addressToD (a := a) (d := d) hcode.left hvalid
  exact ⟨_, _, haddress.extend (passes_popTo hcode.right hvalid.1 htop)⟩

end Code

end StackVm
