import StackVm.Proofs.Lowering.Trace
import StackVm.Proofs.Names

/-! # The symbols of lowered code

Which names the code of a command defines, and which it refers to besides the
registers.
-/

namespace StackVm

open Asm

def registerNames : List String :=
  ["SP", "LCL", "ARG", "THIS", "THAT", "R13", "R14", "R15"]

theorem isName_of_mem_registerNames {name : String} (h : name ∈ registerNames) : IsName name := by
  apply IsName.of_isSymbol
  revert name
  decide

/-- The names that code defines, in order. -/
def Code.labels (code : Code) : List String :=
  code.filterMap fun
    | .label name => some name
    | _ => none

namespace Lowering

/-- The names that the code of a command defines. -/
def labelsOf (lowering : Lowering) : Command → List String
  | .arith .eq => [lowering.freshLabel .isTrue 1, lowering.freshLabel .isEnd 2]
  | .arith .gt => [lowering.freshLabel .isTrue 1, lowering.freshLabel .isEnd 2]
  | .arith .lt => [lowering.freshLabel .isTrue 1, lowering.freshLabel .isEnd 2]
  | .label name => [lowering.scopedLabel name]
  | .function name _ => [name]
  | .call _ _ => [lowering.freshLabel .ret 1]
  | _ => []

/-- The names besides registers that the code of a command refers to. -/
def symbolsOf (lowering : Lowering) : Command → List String
  | .arith .eq => [lowering.freshLabel .isTrue 1, lowering.freshLabel .isEnd 2]
  | .arith .gt => [lowering.freshLabel .isTrue 1, lowering.freshLabel .isEnd 2]
  | .arith .lt => [lowering.freshLabel .isTrue 1, lowering.freshLabel .isEnd 2]
  | .push .statics index => [lowering.staticSymbol index]
  | .pop .statics index => [lowering.staticSymbol index]
  | .goto name => [lowering.scopedLabel name]
  | .ifGoto name => [lowering.scopedLabel name]
  | .call name _ => [name, lowering.freshLabel .ret 1]
  | _ => []

end Lowering

/-- A line of code that defines or uses only some names, and loads small constants only. -/
inductive Asm.Line.Within (defined used : List String) : Line → Prop where
  | compute (dest : Dest) (comp : Comp) (jump : Jump) :
      Within defined used (.code (.compute dest comp jump))
  | constant {value : UInt16} (h : value ≤ 32767) : Within defined used (Code.loadConstant value)
  | register {name : String} (h : name ∈ registerNames) : Within defined used (Code.load name)
  | symbol {name : String} (h : name ∈ used) : Within defined used (Code.load name)
  | label {name : String} (h : name ∈ defined) : Within defined used (.label name)

theorem Asm.Line.Within.legible {defined used : List String} {line : Line}
    (h : line.Within defined used) (hdefined : ∀ name ∈ defined, IsName name)
    (hused : ∀ name ∈ used, IsName name) : line.Legible 32767 := by
  have hload : ∀ {name : String}, IsName name → (Code.load name).Legible 32767 :=
    fun hname => ⟨hname.isOneLine, hname.notNumber⟩
  cases h with
  | compute dest comp jump => trivial
  | constant hle => exact hle
  | register hname => exact hload (isName_of_mem_registerNames hname)
  | symbol hname => exact hload (hused _ hname)
  | label hname => exact (hdefined _ hname).isOneLine

namespace Code

/-- All lines of a code define or use only some names. -/
def Within (defined used : List String) (code : Code) : Prop :=
  ∀ line ∈ code, line.Within defined used

variable {defined used : List String}

@[simp] theorem within_nil : Within defined used [] := by
  simp [Within]

@[simp] theorem within_cons (line : Line) (code : Code) :
    Within defined used (line :: code) ↔
      line.Within defined used ∧ Within defined used code := by
  simp [Within]

@[simp] theorem within_append (xs ys : Code) :
    Within defined used (xs ++ ys) ↔ Within defined used xs ∧ Within defined used ys := by
  simp [Within, or_imp, forall_and]

@[simp] theorem within_assign (dest : Dest) (comp : Comp) :
    (assign dest comp).Within defined used :=
  .compute dest comp .never

@[simp] theorem within_jumpIf (comp : Comp) (jump : Jump) :
    (jumpIf comp jump).Within defined used :=
  .compute {} comp jump

@[simp] theorem within_sp : (load "SP").Within defined used :=
  .register (by decide)

@[simp] theorem within_pointer (pointer : Pointer) :
    (load pointer.name).Within defined used :=
  .register (by cases pointer <;> decide)

@[simp] theorem within_lcl : (load "LCL").Within defined used :=
  within_pointer .lcl

@[simp] theorem within_arg : (load "ARG").Within defined used :=
  within_pointer .arg

@[simp] theorem within_pushD : Within defined used pushD := by
  simp [pushD]

@[simp] theorem within_popD : Within defined used popD := by
  simp [popD]

@[simp] theorem within_unary (comp : Comp) : Within defined used (unary comp) := by
  simp [unary]

@[simp] theorem within_binary (comp : Comp) : Within defined used (binary comp) := by
  simp [binary]

@[simp] theorem within_savePointer (pointer : Pointer) :
    Within defined used (savePointer pointer) := by
  simp [savePointer]

theorem within_jumpTo {name : String} (h : name ∈ used) :
    Within defined used (jumpTo name) := by
  simp [jumpTo, Line.Within.symbol h]

theorem within_jumpUnlessZero {name : String} (h : name ∈ used) :
    Within defined used (jumpUnlessZero name) := by
  simp [jumpUnlessZero, Line.Within.symbol h]

theorem within_comparison (condition : Jump) (trueLabel endLabel : String) :
    Within [trueLabel, endLabel] [trueLabel, endLabel]
      (comparison condition trueLabel endLabel) := by
  have htrue : trueLabel ∈ [trueLabel, endLabel] := by simp
  have hend : endLabel ∈ [trueLabel, endLabel] := by simp
  simp [comparison, within_jumpTo hend, Line.Within.symbol htrue, Line.Within.label htrue,
    Line.Within.label hend]

/-- The constants of a place can be loaded, and its symbol is among the given ones. -/
def PlaceWithin (used : List String) : Place → Prop
  | .immediate value => value ≤ 32767
  | .symbol name => name ∈ used
  | .fixed address => address ≤ 32767
  | .offset _ index => index ≤ 32767

theorem within_valueToD {place : Place} (h : PlaceWithin used place) :
    Within defined used (valueToD place) := by
  cases place with
  | symbol name => simp [valueToD, Line.Within.symbol h]
  | immediate value | fixed address | offset base index =>
      simp [valueToD, Line.Within.constant h]

theorem within_addressToD {place : Place} (h : PlaceWithin used place) :
    Within defined used (addressToD place) := by
  cases place with
  | symbol name => simp [addressToD, Line.Within.symbol h]
  | immediate value | fixed address | offset base index =>
      simp [addressToD, Line.Within.constant h]

theorem within_push {place : Place} (h : PlaceWithin used place) :
    Within defined used (push place) := by
  simp [push, within_valueToD h]

theorem within_pop {scratch : String} {place : Place} (hscratch : scratch ∈ registerNames)
    (h : PlaceWithin used place) : Within defined used (pop scratch place) := by
  simp [pop, within_addressToD h, Line.Within.register hscratch]

theorem within_function {name : String} (h : name ∈ defined) (locals : Nat) :
    Within defined used (function name locals) := by
  have hzero : PlaceWithin used (.immediate 0) := show (0 : UInt16) ≤ 32767 by decide
  have hzeros : Within defined used (zeros locals) := by
    intro line hline
    obtain ⟨code, hcode, hline⟩ := List.mem_flatten.1 hline
    rw [(List.mem_replicate.1 hcode).2] at hline
    exact within_push hzero line hline
  simp [function, label, Line.Within.label h, hzeros]

theorem within_call {returnLabel name : String} {args : UInt16}
    (hargs : args + frameSize ≤ 32767) :
    Within [returnLabel] [name, returnLabel] (call returnLabel name args) := by
  have hreturn : returnLabel ∈ [name, returnLabel] := by simp
  have hname : name ∈ [name, returnLabel] := by simp
  have hlabel : returnLabel ∈ [returnLabel] := by simp
  simp [call, label, Pointer.saved, within_jumpTo hname, Line.Within.symbol hreturn,
    Line.Within.label hlabel, Line.Within.constant hargs]

theorem within_restorePointer {frame : String} (hframe : frame ∈ registerNames)
    (pointer : Pointer) {depth : UInt16} (hdepth : depth ≤ 32767) :
    Within defined used (restorePointer frame pointer depth) := by
  simp [restorePointer, Line.Within.register hframe, Line.Within.constant hdepth]

theorem within_ret {popScratch frame returnAddress : String}
    (hscratch : popScratch ∈ registerNames) (hframe : frame ∈ registerNames)
    (hreturn : returnAddress ∈ registerNames) :
    Within defined used (ret popScratch frame returnAddress) := by
  have hsize : frameSize ≤ 32767 := by decide
  have hargument : PlaceWithin used (.offset .arg 0) := show (0 : UInt16) ≤ 32767 by decide
  have hrestore : ∀ pointer : Pointer, ∀ depth ≤ 32767,
      Within defined used (restorePointer frame pointer depth) :=
    fun pointer _ => within_restorePointer hframe pointer
  simp [ret, within_pop hscratch hargument, Line.Within.register hframe,
    Line.Within.register hreturn, Line.Within.constant hsize, hrestore]

theorem within_bootstrap {sp : UInt16} (hsp : sp ≤ 32767) (entry : String) :
    Within defined [entry] (bootstrap sp entry) := by
  have hentry : entry ∈ [entry] := by simp
  simp [bootstrap, within_jumpTo hentry, Line.Within.constant hsp]

/-! ## Labels -/

@[simp] theorem labels_nil : labels [] = [] := rfl

@[simp] theorem labels_cons_label (name : String) (code : Code) :
    labels (.label name :: code) = name :: labels code := rfl

@[simp] theorem labels_cons_code (instruction : Instruction) (code : Code) :
    labels (.code instruction :: code) = labels code := rfl

@[simp] theorem labels_append (xs ys : Code) : labels (xs ++ ys) = labels xs ++ labels ys := by
  simp [labels]

theorem labels_push (place : Place) : labels (push place) = [] := by
  cases place <;> rfl

theorem labels_pop (scratch : String) (place : Place) : labels (pop scratch place) = [] := by
  cases place <;> rfl

theorem labels_function (name : String) (locals : Nat) :
    labels (function name locals) = [name] := by
  have hzeros : labels (zeros locals) = [] := by
    induction locals with
    | zero => rfl
    | succ locals ih => simp [zeros_succ, labels_push, ih]
  simp [function, label, hzeros]

end Code

namespace Lowering

variable {lowering : Lowering} {command : Command} {code : Code}

/-- A sum of words is small if the sum of the numbers is. -/
theorem add_le_of_toNat {x y : UInt16} (h : x.toNat + y.toNat ≤ 32767) : x + y ≤ 32767 := by
  rw [UInt16.le_iff_toNat_le, UInt16.toNat_add]
  change (x.toNat + y.toNat) % 65536 ≤ 32767
  omega

theorem placeWithin_of_hasPlace {index : UInt16} {segment : Segment} {place : Place}
    (hmachine : lowering.machine = .hack) (h : lowering.HasPlace index segment place)
    (hconstant : segment = .constants → index ≤ 32767) (used : List String)
    (hstatic : segment = .statics → lowering.staticSymbol index ∈ used) :
    Code.PlaceWithin used place := by
  cases h with
  | immediate => exact hconstant rfl
  | symbol => exact hstatic rfl
  | temp hlt =>
      rw [hmachine]
      apply add_le_of_toNat
      change 5 + index.toNat ≤ 32767
      have hnat : index.toNat < 8 := UInt16.lt_iff_toNat_lt.1 hlt
      omega
  | pointer hlt =>
      rw [hmachine]
      apply add_le_of_toNat
      change 3 + index.toNat ≤ 32767
      have hnat : index.toNat < 2 := UInt16.lt_iff_toNat_lt.1 hlt
      omega
  | offset hbase hle =>
      rw [hmachine] at hle
      exact hle

theorem toNat_le_of_acceptsCall {args : UInt16} (hmachine : lowering.machine = .hack)
    (h : lowering.acceptsCall args = true) : args.toNat + 5 ≤ 32767 := by
  simpa [acceptsCall, hmachine, Code.frameSize, Machine.hack] using h

/-- The code of a command names nothing but registers and the command's own names. -/
theorem Lowers.within (h : lowering.Lowers command code) (hmachine : lowering.machine = .hack) :
    Code.Within (lowering.labelsOf command) (lowering.symbolsOf command) code := by
  cases h with
  | arith op =>
      cases op with
      | eq | gt | lt => exact Code.within_comparison _ _ _
      | neg | not => exact Code.within_unary _
      | _ => exact Code.within_binary _
  | push hplace =>
      obtain ⟨hplace, hconstant⟩ := hasPlace_of_pushPlace hplace
      rw [hmachine] at hconstant
      refine Code.within_push (placeWithin_of_hasPlace hmachine hplace hconstant _ ?_)
      rintro rfl
      simp [symbolsOf]
  | pop hplace =>
      obtain ⟨hplace, hne⟩ := hasPlace_of_popPlace hplace
      rw [hmachine]
      refine Code.within_pop (by decide)
        (placeWithin_of_hasPlace hmachine hplace (fun h => absurd h hne) _ ?_)
      rintro rfl
      simp [symbolsOf]
  | label name => simp [Code.label, labelsOf, Line.Within.label]
  | goto name => exact Code.within_jumpTo (by simp [symbolsOf])
  | ifGoto name => exact Code.within_jumpUnlessZero (by simp [symbolsOf])
  | function name locals => exact Code.within_function (by simp [labelsOf]) _
  | call name haccepts =>
      exact Code.within_call (add_le_of_toNat (toNat_le_of_acceptsCall hmachine haccepts))
  | ret =>
      rw [hmachine]
      exact Code.within_ret (by decide) (by decide) (by decide)

/-- The names that the code of a command defines. -/
theorem Lowers.labels_eq (h : lowering.Lowers command code) :
    Code.labels code = lowering.labelsOf command := by
  cases h with
  | arith op => cases op <;> rfl
  | push hplace => exact Code.labels_push _
  | pop hplace => exact Code.labels_pop _ _
  | function name locals => exact Code.labels_function _ _
  | _ => rfl

end Lowering

end StackVm
