import StackVm.Proofs.Lowering.Frame
import StackVm.Proofs.Program

/-! # The processor follows the reference machine

From the address of a command, with the command's stack cells above the
registers and its segment cell inside of memory, the code of the command takes
the processor to the memory and the address that the reference machine goes to.
Only the scratch registers of `pop` and `return` differ.
-/

namespace StackVm

open Asm

/-! ## Arithmetic -/

/-- The jump that decides a comparison. -/
def ArithOp.condition? : ArithOp → Option Jump
  | .eq => some .eq
  | .gt => some .gt
  | .lt => some .lt
  | _ => none

theorem truth_eq_flag {condition : Bool} {p : Prop} [Decidable p] (h : condition = true ↔ p) :
    Code.truth condition = ArithOp.flag p := by
  by_cases hp : p
  · simp [Code.truth, ArithOp.flag, hp, h.2 hp]
  · simp [Code.truth, ArithOp.flag, hp, mt h.1 hp]

theorem ArithOp.result_of_condition {op : ArithOp} {condition : Jump}
    (h : op.condition? = some condition) (below top : UInt16) :
    Code.truth (condition.holds (below - top)) = op.result below top := by
  have hlt : below - top < 0x8000 ↔ (below - top).toNat < 32768 := UInt16.lt_iff_toNat_lt
  have hle : 0x8000 ≤ below - top ↔ 32768 ≤ (below - top).toNat := UInt16.le_iff_toNat_le
  have hzero : below - top = 0 ↔ (below - top).toNat = 0 := UInt16.toNat_inj.symm
  have hsigned := signed_eq (below - top)
  have hbound : (below - top).toNat < 65536 := (below - top).toNat_lt
  cases op with
  | eq =>
      cases h
      apply truth_eq_flag
      simp only [Jump.holds, beq_iff_eq, hzero]
      split at hsigned <;> omega
  | gt =>
      cases h
      apply truth_eq_flag
      simp only [Jump.holds, Bool.and_eq_true, decide_eq_true_eq, bne_iff_ne, ne_eq, hlt, hzero]
      split at hsigned <;> omega
  | lt =>
      cases h
      apply truth_eq_flag
      simp only [Jump.holds, decide_eq_true_eq, hle]
      split at hsigned <;> omega
  | _ => cases h

section

variable {program : Program} {pc : Nat} {ram : Ram} {op : ArithOp}

theorem crosses_arith_binary {comp : Comp} (hcode : Placed program pc (Code.binary comp))
    (hcells : ∀ cell ∈ Vm.stackCells (.arith op) ram, Ram.IsStackCell cell)
    (harity : op.arity = 2) (hoperand : comp.operand? = some .m)
    (hresult : ∀ below top, comp.value top below = op.result below top) :
    Crosses program pc 5 ram (pc + 5) (ram.arith op) := by
  have htop := hcells (ram 0 - 1) (by simp [Vm.stackCells, harity])
  have hsecond := hcells (ram 0 - 2) (by simp [Vm.stackCells, harity])
  rw [Ram.arith, if_neg (by simp [harity]), ← hresult]
  exact Crosses.of_passes fun a d => ⟨_, _, Code.passes_binary hcode hoperand htop hsecond⟩

theorem crosses_arith_unary {comp : Comp} (hcode : Placed program pc (Code.unary comp))
    (hcells : ∀ cell ∈ Vm.stackCells (.arith op) ram, Ram.IsStackCell cell)
    (harity : op.arity = 1) (hoperand : comp.operand? = some .m)
    (hresult : ∀ d top, comp.value d top = op.result 0 top) :
    Crosses program pc 3 ram (pc + 3) (ram.arith op) := by
  have htop := hcells (ram 0 - 1) (by simp [Vm.stackCells, harity])
  refine Crosses.of_passes fun a d => ?_
  have hpasses := Code.passes_unary (a := a) (d := d) hcode htop
  rw [hoperand, if_pos (by decide), hresult] at hpasses
  rw [Ram.arith, if_pos harity]
  exact ⟨_, _, hpasses⟩

theorem crosses_arith_comparison {condition : Jump} {trueLabel endLabel : String}
    (hcode : Placed program pc (Code.comparison condition trueLabel endLabel))
    (hend : pc + 15 ≤ 32767)
    (hcells : ∀ cell ∈ Vm.stackCells (.arith op) ram, Ram.IsStackCell cell)
    (harity : op.arity = 2) (hcondition : op.condition? = some condition) :
    Crosses program pc 15 ram (pc + 15) (ram.arith op) := by
  have htop := hcells (ram 0 - 1) (by simp [Vm.stackCells, harity])
  have hsecond := hcells (ram 0 - 2) (by simp [Vm.stackCells, harity])
  have hcrosses := Code.crosses_comparison hcode hend htop hsecond
  rw [ArithOp.result_of_condition hcondition] at hcrosses
  rwa [Ram.arith, if_neg (by simp [harity])]

/-- The code of an operation replaces the operands by the result. -/
theorem Lowering.crosses_arith {lowering : Lowering}
    (hcode : Placed program pc (lowering.arith op).1)
    (hend : pc + Code.size (lowering.arith op).1 ≤ 32767)
    (hcells : ∀ cell ∈ Vm.stackCells (.arith op) ram, Ram.IsStackCell cell) :
    Crosses program pc (Code.size (lowering.arith op).1) ram
      (pc + Code.size (lowering.arith op).1) (ram.arith op) := by
  cases op with
  | add => exact crosses_arith_binary hcode hcells rfl rfl fun x y => UInt16.add_comm y x
  | sub => exact crosses_arith_binary hcode hcells rfl rfl fun _ _ => rfl
  | and => exact crosses_arith_binary hcode hcells rfl rfl fun x y => UInt16.and_comm y x
  | or => exact crosses_arith_binary hcode hcells rfl rfl fun x y => UInt16.or_comm y x
  | neg => exact crosses_arith_unary hcode hcells rfl rfl fun _ _ => rfl
  | not => exact crosses_arith_unary hcode hcells rfl rfl fun _ _ => rfl
  | eq => exact crosses_arith_comparison hcode hend hcells rfl rfl
  | gt => exact crosses_arith_comparison hcode hend hcells rfl rfl
  | lt => exact crosses_arith_comparison hcode hend hcells rfl rfl

end

/-! ## Addresses -/

def Scope.symbol : Scope → String → String
  | .function name => functionLabel name
  | .unit name => unitLabel name

theorem Lowering.scopedLabel_eq {lowering : Lowering} {site : Site}
    (hunit : lowering.unit = site.unit) (hfunction : lowering.function = site.function)
    (name : String) : lowering.scopedLabel name = site.scope.symbol name := by
  cases h : site.function <;> simp [scopedLabel, Site.scope, hunit, hfunction, h, Scope.symbol]

/--
The reference machine of a linked program.  A static variable lies at the
address that the assembler gave to its symbol.
-/
def Vm.ofProgram (options : Options) (units : List SourceUnit) (program : Program) : Vm where
  sites := Site.ofUnits units
  start := options.commandAddress units program
  staticCell unit index := program.resolve (unit ++ "." ++ index.toNat.repr)

theorem Site.exists_of_declaresFunction {site : Site} {name : String}
    (h : site.declaresFunction name = true) :
    ∃ locals, site.command = .function name locals := by
  unfold declaresFunction at h
  split at h
  · next other locals hcommand =>
      obtain rfl : other = name := by simpa using h
      exact ⟨locals, hcommand⟩
  · cases h

namespace Linked

variable {options : Options} {units : List SourceUnit} {program : Program}

theorem start_le (h : Linked options units program) (position : Nat) :
    (Vm.ofProgram options units program).start position ≤ 32767 := by
  have hlength := h.length_le
  simp only [Vm.ofProgram, Options.commandAddress]
  omega

theorem exists_labelAt (h : Linked options units program) {site : Site} {name : String}
    (hsite : site ∈ Site.ofUnits units)
    (hjump : site.command = .goto name ∨ site.command = .ifGoto name) :
    ∃ target, (Vm.ofProgram options units program).labelAt? site.scope name = some target := by
  have hdeclared := h.declared site hsite
  rw [← Option.isSome_iff_exists, Vm.labelAt?, List.findIdx?_isSome]
  rcases hjump with hjump | hjump <;>
    simpa [Site.targetDeclared, hjump, Vm.ofProgram] using hdeclared

theorem exists_functionAt (h : Linked options units program) {site : Site} {name : String}
    {args : UInt16} (hsite : site ∈ Site.ofUnits units) (hcall : site.command = .call name args) :
    ∃ target, (Vm.ofProgram options units program).functionAt? name = some target := by
  have hdeclared := h.declared site hsite
  rw [← Option.isSome_iff_exists, Vm.functionAt?, List.findIdx?_isSome]
  simpa [Site.targetDeclared, hcall, Vm.ofProgram] using hdeclared

/-- The symbol of a label has the address of the command that declares it. -/
theorem address?_label (h : Linked options units program) {scope : Scope} {name : String}
    {target : Nat}
    (htarget : (Vm.ofProgram options units program).labelAt? scope name = some target) :
    program.address? (scope.symbol name) =
      some (UInt16.ofNat ((Vm.ofProgram options units program).start target)) := by
  obtain ⟨hlt, hdeclares, -⟩ := List.findIdx?_eq_some_iff_getElem.1 htarget
  obtain ⟨lowering, code, hcode⟩ := h.wellNamed.exists_hasCode h.yields (List.getElem?_eq_getElem hlt)
  rw [Site.declaresLabel, Bool.and_eq_true, beq_iff_eq, beq_iff_eq] at hdeclares
  have hplaced := hcode.placed
  have hlowers := hcode.lowers
  rw [show _ = Command.label name from hdeclares.2] at hlowers
  cases hlowers
  rw [← show _ = scope from hdeclares.1, ← Lowering.scopedLabel_eq hcode.unit hcode.function]
  exact hplaced.1

theorem address?_function (h : Linked options units program) {name : String} {target : Nat}
    (htarget : (Vm.ofProgram options units program).functionAt? name = some target) :
    program.address? name =
      some (UInt16.ofNat ((Vm.ofProgram options units program).start target)) := by
  obtain ⟨hlt, hdeclares, -⟩ := List.findIdx?_eq_some_iff_getElem.1 htarget
  obtain ⟨lowering, code, hcode⟩ := h.wellNamed.exists_hasCode h.yields (List.getElem?_eq_getElem hlt)
  obtain ⟨locals, hfunction⟩ := Site.exists_of_declaresFunction hdeclares
  have hplaced := hcode.placed
  have hlowers := hcode.lowers
  rw [show _ = Command.function name locals from hfunction] at hlowers
  cases hlowers
  exact hplaced.1

end Linked

/-! ## Segments -/

section

variable {lowering : Lowering} {index : UInt16} {segment : Segment} {place : Place}
  (options : Options) (units : List SourceUnit) {program : Program} {ram : Ram}

theorem Lowering.HasPlace.address_eq (h : lowering.HasPlace index segment place)
    (hmachine : lowering.machine = .hack) :
    place.address program ram =
      (Vm.ofProgram options units program).cell lowering.unit ram segment index := by
  cases h with
  | immediate => rfl
  | symbol => rfl
  | temp hlt | pointer hlt =>
      rw [hmachine]
      rfl
  | offset hbase hle =>
      cases segment <;> cases hbase <;> rfl

theorem Lowering.HasPlace.value_eq (h : lowering.HasPlace index segment place)
    (hmachine : lowering.machine = .hack) :
    place.value program ram =
      (Vm.ofProgram options units program).operand lowering.unit ram segment index := by
  cases h with
  | immediate => rfl
  | symbol => rfl
  | temp hlt | pointer hlt =>
      rw [hmachine]
      rfl
  | offset hbase hle =>
      cases segment <;> cases hbase <;> rfl

theorem Lowering.HasPlace.valid (h : lowering.HasPlace index segment place)
    (hmachine : lowering.machine = .hack) (haddress : place.address program ram < 0x8000) :
    place.Valid program ram := by
  refine ⟨haddress, ?_⟩
  rintro base offset rfl
  cases h with
  | offset hbase hle =>
      rw [hmachine] at hle
      exact UInt16.lt_of_le_of_lt hle (by decide)

end

theorem Ram.parkReturn_other (ram : Ram) {cell : UInt16} (h : cell ∉ [13, 14, 15]) :
    ram.parkReturn cell = ram cell := by
  simp only [List.mem_cons, List.not_mem_nil, or_false, not_or] at h
  rw [parkReturn, set_other _ _ h.1, set_other _ _ h.2.2, set_other _ _ h.2.1]

theorem Ram.parkReturn_stack {ram : Ram} {cell : UInt16} (h : IsStackCell cell) :
    ram.parkReturn cell = ram cell := by
  apply ram.parkReturn_other
  simp only [List.mem_cons, List.not_mem_nil, or_false, not_or]
  exact ⟨h.ne (by decide), h.ne (by decide), h.ne (by decide)⟩

/-- No segment depends on the scratch registers. -/
theorem Vm.cell_set (vm : Vm) (unit : String) (ram : Ram) (segment : Segment)
    (index : UInt16) {register : UInt16} (value : UInt16) (h : 5 ≤ register.toNat) :
    vm.cell unit (ram.set register value) segment index = vm.cell unit ram segment index := by
  have hne : ∀ cell : UInt16, cell.toNat < 5 → cell ≠ register := by
    rintro cell hcell rfl
    omega
  cases segment with
  | locals => rw [cell, Ram.set_other _ _ (hne 1 (by decide)), cell]
  | arguments => rw [cell, Ram.set_other _ _ (hne 2 (by decide)), cell]
  | this => rw [cell, Ram.set_other _ _ (hne 3 (by decide)), cell]
  | that => rw [cell, Ram.set_other _ _ (hne 4 (by decide)), cell]
  | _ => rfl

/-! ## Commands -/

namespace Linked

variable {options : Options} {units : List SourceUnit} {program : Program}

section

variable {position : Nat} {unit : String} {function : Option String} {lowering : Lowering}
  {code : Code} {ram : Ram}

theorem crosses_push {segment : Segment} {index : UInt16} {place : Place}
    (hplace : lowering.pushPlace segment index = .ok place) (hmachine : lowering.machine = .hack)
    {pc : Nat} (hcode : Placed program pc (Code.push place))
    (hadmits : (Vm.ofProgram options units program).Admits
      ⟨lowering.unit, function, .push segment index⟩ ram) :
    Crosses program pc (Code.size (Code.push place)) ram (pc + Code.size (Code.push place))
      (ram.push ((Vm.ofProgram options units program).operand lowering.unit ram segment index)) := by
  obtain ⟨hhas, hconstant⟩ := Lowering.hasPlace_of_pushPlace hplace
  have haddress : place.address program ram < 0x8000 := by
    by_cases hsegment : segment = .constants
    · have hle := hconstant hsegment
      rw [hmachine] at hle
      subst hsegment
      cases hhas with
      | immediate => exact UInt16.lt_of_le_of_lt hle (by decide)
      | offset hbase => cases hbase
    · rw [hhas.address_eq options units hmachine]
      exact hadmits.segment _ (by simp [Vm.segmentCell?, hsegment])
  rw [← hhas.value_eq options units hmachine]
  exact Code.crosses_push hcode (hhas.valid hmachine haddress)
    (hadmits.stack _ (by simp [Vm.stackCells]))

theorem crosses_pop {segment : Segment} {index : UInt16} {place : Place}
    (hplace : lowering.popPlace segment index = .ok place) (hmachine : lowering.machine = .hack)
    {pc : Nat} (hcode : Placed program pc (Code.pop "R13" place))
    (hadmits : (Vm.ofProgram options units program).Admits
      ⟨lowering.unit, function, .pop segment index⟩ ram) :
    let cell := (Vm.ofProgram options units program).cell lowering.unit ram segment index
    Crosses program pc (Code.size (Code.pop "R13" place)) ram
      (pc + Code.size (Code.pop "R13" place))
      ((ram.set 13 cell).drop.set cell ram.top) := by
  obtain ⟨hhas, -⟩ := Lowering.hasPlace_of_popPlace hplace
  have haddress : place.address program ram < 0x8000 := by
    rw [hhas.address_eq options units hmachine]
    exact hadmits.segment _ (by simp [Vm.segmentCell?])
  intro cell
  rw [show cell = _ from (hhas.address_eq options units hmachine).symm]
  exact Code.crosses_pop hcode (hhas.valid hmachine haddress)
    (hadmits.stack _ (by simp [Vm.stackCells]))

end

/--
The code of a command goes where the reference machine goes, if the command
starts with its scratch registers already written.
-/
theorem crosses_command (h : Linked options units program) {position : Nat} {site : Site}
    {ram : Ram} (hsite : (Site.ofUnits units)[position]? = some site)
    (hadmits : (Vm.ofProgram options units program).Admits site ram) :
    ∃ address after,
      (Vm.ofProgram options units program).next? position
        ((Vm.ofProgram options units program).parked site ram) = some (address, after) ∧
      Crosses program ((Vm.ofProgram options units program).start position)
        ((Vm.ofProgram options units program).start (position + 1) -
          (Vm.ofProgram options units program).start position) ram address after := by
  obtain ⟨lowering, code, hcode⟩ := h.wellNamed.exists_hasCode h.yields hsite
  have hmem := List.mem_of_getElem? hsite
  obtain ⟨unit, function, command⟩ := site
  obtain ⟨hunit, hfunction, hmachine, hlowers, -, hplaced, hnext⟩ := hcode
  obtain rfl : lowering.unit = unit := hunit
  have hafter : (Vm.ofProgram options units program).start (position + 1) =
      (Vm.ofProgram options units program).start position + Code.size code := hnext
  have hsize : (Vm.ofProgram options units program).start (position + 1) -
      (Vm.ofProgram options units program).start position = Code.size code := by
    omega
  have hend := h.start_le (position + 1)
  have hscoped : ∀ name, lowering.scopedLabel name =
      (Site.mk lowering.unit function command).scope.symbol name :=
    Lowering.scopedLabel_eq rfl hfunction
  have hget : (Vm.ofProgram options units program).sites[position]? =
      some ⟨lowering.unit, function, command⟩ := hsite
  rw [Vm.next?_of_site hget, hsize]
  cases hlowers with
  | arith op =>
      rw [hafter] at hend ⊢
      exact ⟨_, _, rfl, Lowering.crosses_arith hplaced hend hadmits.stack⟩
  | push hplace =>
      rw [hafter]
      exact ⟨_, _, rfl, crosses_push hplace hmachine hplaced hadmits⟩
  | pop hplace =>
      rw [hmachine] at hplaced hafter ⊢
      rw [hafter]
      refine ⟨_, _, rfl, ?_⟩
      have hpop := crosses_pop hplace hmachine hplaced hadmits
      have htop : Ram.IsStackCell (ram 0 - 1) := hadmits.stack _ (by simp [Vm.stackCells])
      simp only [Vm.parked, Vm.cell_set _ _ _ _ _ _ (show 5 ≤ (13 : UInt16).toNat by decide)]
      rw [Ram.top_set _ htop (by decide) (by decide)]
      exact hpop
  | label name =>
      rw [hafter]
      exact ⟨_, _, rfl, Crosses.refl _ _ _⟩
  | goto name =>
      obtain ⟨target, htarget⟩ := h.exists_labelAt hmem (.inl rfl)
      have haddress := h.address?_label htarget
      rw [← hscoped] at haddress
      refine ⟨(Vm.ofProgram options units program).start target, ram, ?_, ?_⟩
      · simp only [Vm.effect?, htarget, Option.map_some, Vm.parked]
      · rw [← program.toNat_resolve haddress (h.start_le target)]
        exact Code.crosses_jumpTo hplaced (program.resolve_lt haddress (h.start_le target))
  | ifGoto name =>
      obtain ⟨target, htarget⟩ := h.exists_labelAt hmem (.inr rfl)
      have haddress := h.address?_label htarget
      rw [← hscoped] at haddress
      have htop : Ram.IsStackCell (ram 0 - 1) := hadmits.stack _ (by simp [Vm.stackCells])
      refine ⟨if ram.top = 0 then (Vm.ofProgram options units program).start (position + 1)
        else (Vm.ofProgram options units program).start target, ram.drop, ?_, ?_⟩
      · simp only [Vm.effect?, htarget, Option.map_some, Vm.parked]
        rfl
      · rw [← program.toNat_resolve haddress (h.start_le target), hafter]
        exact Code.crosses_jumpUnlessZero hplaced htop
          (program.resolve_lt haddress (h.start_le target))
  | function name locals =>
      rw [hafter]
      refine ⟨_, _, rfl, Code.crosses_function hplaced fun i hi => hadmits.stack _ ?_⟩
      exact List.mem_map.2 ⟨i, List.mem_range.2 hi, rfl⟩
  | @call name args haccepts =>
      obtain ⟨target, htarget⟩ := h.exists_functionAt hmem rfl
      have haddress := h.address?_function htarget
      have hargs : args + Code.frameSize ≤ 32767 :=
        Lowering.add_le_of_toNat (Lowering.toNat_le_of_acceptsCall hmachine haccepts)
      refine ⟨(Vm.ofProgram options units program).start target,
        ram.enter (UInt16.ofNat ((Vm.ofProgram options units program).start (position + 1))) args,
        ?_, ?_⟩
      · simp only [Vm.effect?, htarget, Option.map_some, Vm.parked]
      · rw [hafter] at hend ⊢
        rw [← program.toNat_resolve haddress (h.start_le target)]
        refine Code.crosses_call hplaced hend (UInt16.lt_of_le_of_lt hargs (by decide))
          (program.resolve_lt haddress (h.start_le target)) fun i hi => hadmits.stack _ ?_
        exact List.mem_map.2 ⟨i, List.mem_range.2 hi, rfl⟩
  | ret =>
      rw [hmachine] at hplaced
      obtain ⟨hframe, hreturn⟩ := hadmits.result rfl
      have hcells : ∀ i ∈ [1, 2, 3, 4, 5], Ram.IsStackCell (ram 1 - i) := fun i hi =>
        hadmits.stack _ (List.mem_cons_of_mem _ (List.mem_map.2 ⟨i, hi, rfl⟩))
      have haddress : ram.parkReturn (ram 1 - 5) = ram (ram 1 - 5) :=
        Ram.parkReturn_stack (hcells 5 (by decide))
      refine ⟨(ram (ram 1 - 5)).toNat, ram.parkReturn.leave, ?_, ?_⟩
      · rw [← haddress]
        rfl
      · exact Code.crosses_ret hplaced (hadmits.stack _ List.mem_cons_self) hcells
          (hadmits.segment _ rfl) hframe hreturn

theorem executes_command (h : Linked options units program) {position : Nat} {site : Site}
    {ram : Ram} (hsite : (Site.ofUnits units)[position]? = some site)
    (hadmits : (Vm.ofProgram options units program).Admits site ram) :
    ∃ address after,
      (Vm.ofProgram options units program).next? position
        ((Vm.ofProgram options units program).parked site ram) = some (address, after) ∧
      Executes program ((Vm.ofProgram options units program).start position) ram address after := by
  obtain ⟨address, after, hnext, hcrosses⟩ := h.crosses_command hsite hadmits
  exact ⟨address, after, hnext, hcrosses.executes⟩

theorem toNat_ofNat_start (h : Linked options units program) (position : Nat) :
    (UInt16.ofNat ((Vm.ofProgram options units program).start position)).toNat =
      (Vm.ofProgram options units program).start position := by
  have hle := h.start_le position
  rw [UInt16.toNat_ofNat']
  exact Nat.mod_eq_of_lt (by omega)

theorem toNat_pc_holding (h : Linked options units program) (position : Nat) (ram : Ram) :
    (Cpu.holding program.words
        (UInt16.ofNat ((Vm.ofProgram options units program).start position)) ram).pc.toNat =
      (Vm.ofProgram options units program).start position := by
  rw [Cpu.pc_holding, h.toNat_ofNat_start]

end Linked

/-! ## Scratch registers -/

/-- The registers in which a command keeps intermediate addresses. -/
def Vm.scratch : Command → List UInt16
  | .pop _ _ => [13]
  | .ret => [13, 14, 15]
  | _ => []

/-- The cells whose contents after a command do not depend on its scratch registers. -/
def Vm.Defined (vm : Vm) (site : Site) (ram : Ram) (cell : UInt16) : Prop :=
  cell ∉ scratch site.command ∨ vm.segmentCell? site ram = some cell

namespace Ram

theorem Agree.restore {cells : UInt16 → Prop} {x y : Ram} {frame : UInt16} (h : Agree cells x y)
    (hframe : ∀ i ∈ [1, 2, 3, 4, 5], cells (frame - i)) :
    Agree cells (x.restore frame) (y.restore frame) := by
  rw [Ram.restore, Ram.restore, h _ (hframe 1 (by decide)), h _ (hframe 2 (by decide)),
    h _ (hframe 3 (by decide)), h _ (hframe 4 (by decide))]
  exact (((h.set _ _).set _ _).set _ _).set _ _

/-- A return leaves the same memory whatever its scratch registers hold, except for these. -/
theorem agree_leave_parkReturn {ram : Ram} (htop : IsStackCell (ram 0 - 1))
    (hframe : ∀ i ∈ [1, 2, 3, 4, 5], IsStackCell (ram 1 - i)) :
    Agree (fun cell => cell ∉ [13, 14, 15] ∨ ram 2 = cell) ram.parkReturn.leave ram.leave := by
  have hvalue : ram.parkReturn.top = ram.top := parkReturn_stack htop
  have hscratch : ∀ {cell : UInt16}, IsStackCell cell → cell ∉ [13, 14, 15] := by
    intro cell hcell
    simp only [List.mem_cons, List.not_mem_nil, or_false, not_or]
    exact ⟨hcell.ne (by decide), hcell.ne (by decide), hcell.ne (by decide)⟩
  have hparked : Agree (fun cell => cell ∉ [13, 14, 15]) ram.parkReturn ram :=
    fun _ hcell => parkReturn_other _ hcell
  have hstored := (hparked.drop (by decide)).store (ram 2) ram.top
  have hgiven : Agree (fun cell => cell ∉ [13, 14, 15] ∨ ram 2 = cell)
      ram.parkReturn.giveResult ram.giveResult := by
    have hbase : ram.parkReturn 2 = ram 2 := rfl
    simp only [giveResult, hbase, hvalue]
    rw [hstored 2 (.inl (by decide))]
    exact hstored.set _ _
  exact hgiven.restore fun i hi => .inl (hscratch (hframe i hi))

end Ram

/-- What a command does outside of its scratch registers does not depend on them. -/
theorem Vm.effect?_parked {vm : Vm} {site : Site} {ram after : Ram} {next address : Nat}
    (hadmits : vm.Admits site ram)
    (h : vm.effect? site next (vm.parked site ram) = some (address, after)) :
    ∃ plain, vm.effect? site next ram = some (address, plain) ∧
      Ram.Agree (vm.Defined site ram) after plain := by
  obtain ⟨unit, function, command⟩ := site
  cases command with
  | pop segment index =>
      have htop : Ram.IsStackCell (ram 0 - 1) := hadmits.stack _ (by simp [stackCells])
      simp only [effect?, parked, cell_set _ _ _ _ _ _ (show 5 ≤ (13 : UInt16).toNat by decide),
        Ram.top_set _ htop (show (13 : UInt16) ≠ 0 by decide) (by decide)] at h
      cases h
      have hparked : Ram.Agree (fun other => other ∉ [13])
          (ram.set 13 (vm.cell unit ram segment index)) ram := by
        intro other hother
        exact Ram.set_other _ _ (by simpa using hother)
      refine ⟨_, rfl, ?_⟩
      have hstored := (hparked.drop (by decide)).store (vm.cell unit ram segment index) ram.top
      intro other hother
      exact hstored other (hother.imp id Option.some.inj)
  | ret =>
      have hcells : ∀ i ∈ [1, 2, 3, 4, 5], Ram.IsStackCell (ram 1 - i) := fun i hi =>
        hadmits.stack _ (List.mem_cons_of_mem _ (List.mem_map.2 ⟨i, hi, rfl⟩))
      have haddress : ram.parkReturn (ram 1 - 5) = ram (ram 1 - 5) :=
        Ram.parkReturn_stack (hcells 5 (by decide))
      have hagree := Ram.agree_leave_parkReturn (hadmits.stack _ List.mem_cons_self) hcells
      have hresult : some ((ram (ram 1 - 5)).toNat, ram.parkReturn.leave) =
          some (address, after) := by
        rw [← haddress]
        exact h
      cases hresult
      refine ⟨_, rfl, fun other hother => ?_⟩
      exact hagree other (hother.imp id Option.some.inj)
  | _ => exact ⟨after, h, fun _ _ => rfl⟩

/-! ## Simulation -/

/--
The processor follows the reference machine: from the first instruction of any
command that the memory admits, it comes without a fault to the instruction at
which the reference machine goes on, with the same memory but for the command's
scratch registers.
-/
theorem Linked.simulates_command {options : Options} {units : List SourceUnit}
    {program : Program} (h : Linked options units program) {position : Nat} {site : Site}
    {cpu : Cpu} (hsite : (Site.ofUnits units)[position]? = some site)
    (hrom : cpu.rom = program.words.toArray) (hsize : cpu.ram.size = 32768)
    (hpc : cpu.pc.toNat = (Vm.ofProgram options units program).start position)
    (hadmits : (Vm.ofProgram options units program).Admits site cpu.peek) :
    ∃ address after count next,
      (Vm.ofProgram options units program).next? position cpu.peek = some (address, after) ∧
        Cpu.steps count cpu = (next, none) ∧
        next.rom = cpu.rom ∧ next.ram.size = 32768 ∧ next.pc.toNat = address ∧
        Ram.Agree ((Vm.ofProgram options units program).Defined site cpu.peek)
          next.peek after := by
  obtain ⟨address, parked, hparked, hexecutes⟩ := h.executes_command hsite hadmits
  have hget : (Vm.ofProgram options units program).sites[position]? = some site := hsite
  rw [Vm.next?_of_site hget] at hparked
  obtain ⟨after, heffect, hagree⟩ := Vm.effect?_parked hadmits hparked
  obtain ⟨a, d, hreaches⟩ := hexecutes cpu.a cpu.d
  obtain ⟨count, next, hsteps, hshows⟩ :=
    hreaches cpu ⟨hrom, h.length_le, hsize, hpc, rfl, rfl, rfl⟩
  refine ⟨address, after, count, next, ?_, hsteps, ?_, hshows.ramSize, hshows.pc, ?_⟩
  · rw [Vm.next?_of_site hget, heffect]
  · rw [hshows.rom, hrom]
  · rw [hshows.ram]
    exact hagree

/-! ## A sample program -/

namespace Sample

/-- A unit that calls a function, which has another one add its argument to itself. -/
def unit : SourceUnit where
  name := "Main"
  source := Text.render ["call two 1", "label end", "goto end",
    "function two 0", "push argument 0", "push argument 0", "call sum 2", "return",
    "function sum 0", "push argument 0", "push argument 1", "add", "return"]

def options : Options :=
  { bootstrap := .never }

def commands : List (Located Command) :=
  [⟨.call "two" 1, ⟨1, 0, 10⟩⟩, ⟨.label "end", ⟨2, 11, 20⟩⟩, ⟨.goto "end", ⟨3, 21, 29⟩⟩,
    ⟨.function "two" 0, ⟨4, 30, 44⟩⟩, ⟨.push .arguments 0, ⟨5, 45, 60⟩⟩,
    ⟨.push .arguments 0, ⟨6, 61, 76⟩⟩, ⟨.call "sum" 2, ⟨7, 77, 87⟩⟩, ⟨.ret, ⟨8, 88, 94⟩⟩,
    ⟨.function "sum" 0, ⟨9, 95, 109⟩⟩, ⟨.push .arguments 0, ⟨10, 110, 125⟩⟩,
    ⟨.push .arguments 1, ⟨11, 126, 141⟩⟩, ⟨.arith .add, ⟨12, 142, 145⟩⟩, ⟨.ret, ⟨13, 146, 152⟩⟩]

def parts : Parts :=
  [(unit, commands)]

def lines : Code :=
  (parts.blocks options).flatMap (Block.lines false)

def program : Program :=
  programOf .hack lines

theorem reads : ∀ part ∈ parts, part.1.Reads part.2 := by
  decide +kernel

theorem sites_eq : Site.ofUnits [unit] =
    Site.ofCommands unit.name none (commands.map (·.value)) :=
  (Parts.ofUnits_units reads).trans (List.append_nil _)

theorem linked : Linked options [unit] program := by
  have hbuilt : Built options [unit] program ∧ Placed program 0 lines :=
    Parts.built reads rfl rfl rfl (by decide +kernel) rfl (by decide +kernel) (by decide +kernel)
      (by decide +kernel) (by decide +kernel) (by decide)
  exact ⟨hbuilt.1, List.forall_mem_singleton.2 (by decide)⟩

/-- A processor before the function returns: the result is on top of an empty frame. -/
def returning : Cpu :=
  .holding program.words (UInt16.ofNat ((Vm.ofProgram options [unit] program).start 7))
    ((((Ram.set (fun _ => 0) 0 263).set 1 262).set 2 256).set 262 42)

/-- The return of the sample program gives the result to the caller. -/
theorem simulates_return :
    Linked options [unit] program ∧
      (Vm.ofProgram options [unit] program).Admits ⟨"Main", some "two", .ret⟩
        returning.peek ∧
      ∃ count next, Cpu.steps count returning = (next, none) ∧ next.pc.toNat = 0 ∧
        next.peek 0 = 257 ∧ next.peek 256 = 42 := by
  have hsite : (Site.ofUnits [unit])[7]? = some ⟨"Main", some "two", .ret⟩ := by
    rw [sites_eq]
    rfl
  have hadmits : (Vm.ofProgram options [unit] program).Admits
      ⟨"Main", some "two", .ret⟩ returning.peek := by
    rw [returning, Cpu.peek_holding]
    refine ⟨?_, ?_, fun _ => by decide⟩
    · exact Ram.forall_isStackCell (by decide)
    · rintro cell ⟨⟩
      decide
  obtain ⟨address, after, count, next, hnext, hsteps, -, -, haddress, hagree⟩ :=
    linked.simulates_command hsite (Cpu.rom_holding _ _ _) (Cpu.size_holding _ _ _)
      (linked.toNat_pc_holding 7 _) hadmits
  have hget : (Vm.ofProgram options [unit] program).sites[7]? =
      some ⟨"Main", some "two", .ret⟩ := by
    rw [Vm.ofProgram, hsite]
  rw [Vm.next?_of_site hget, Cpu.peek_holding] at hnext
  cases hnext
  refine ⟨linked, hadmits, count, next, hsteps, haddress, ?_, ?_⟩
  · rw [hagree 0 (.inl (by decide))]
    decide
  · rw [hagree 256 (.inl (by decide))]
    decide

end Sample

end StackVm
