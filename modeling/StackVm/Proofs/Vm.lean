import StackVm.Command
import StackVm.Compile
import StackVm.Cpu
import StackVm.Proofs.Memory

/-! # The reference machine

What commands mean, without any assembly: a command at a position of the
program changes data memory and goes on at the address of another command.
Labels are found by their scope and name, functions by their name.  Registers
are the cells 0 to 4: the stack pointer, then the bases of `local`, `argument`,
`this` and `that`.
-/

namespace StackVm

theorem signed_eq (word : UInt16) :
    signed word = if word.toNat < 32768 then (word.toNat : Int) else (word.toNat : Int) - 65536 := by
  rw [signed, BitVec.toInt_eq_toNat_cond]
  change (if 2 * word.toNat < 65536 then (word.toNat : Int) else (word.toNat : Int) - 65536) = _
  split <;> split <;> omega

namespace ArithOp

/-- All ones if a proposition holds, else zero. -/
def flag (p : Prop) [Decidable p] : UInt16 :=
  if p then 0xffff else 0

/-- The result of an operation, from the value below and the value on top. -/
def result (op : ArithOp) (below top : UInt16) : UInt16 :=
  match op with
  | add => below + top
  | sub => below - top
  | and => below &&& top
  | or => below ||| top
  | eq => flag (signed (below - top) = 0)
  | gt => flag (0 < signed (below - top))
  | lt => flag (signed (below - top) < 0)
  | neg => -top
  | not => ~~~top

end ArithOp

namespace Ram

/-- Replace the operands on top of the stack by the result of an operation. -/
def arith (ram : Ram) (op : ArithOp) : Ram :=
  if op.arity = 1 then ram.set (ram 0 - 1) (op.result 0 ram.top)
  else ram.drop.set (ram 0 - 2) (op.result (ram (ram 0 - 2)) ram.top)

/-- Push a number of zeros. -/
def pushZeros (ram : Ram) : Nat → Ram
  | 0 => ram
  | count + 1 => (ram.push 0).pushZeros count

/-- Push the return address and the four pointers of the caller. -/
def pushFrame (ram : Ram) (returnAddress : UInt16) : Ram :=
  ((((ram.push returnAddress).push (ram 1)).push (ram 2)).push (ram 3)).push (ram 4)

/-- Enter a callee: `ARG` points to the arguments and `LCL` to the cell after the frame. -/
def enter (ram : Ram) (returnAddress args : UInt16) : Ram :=
  let framed := ram.pushFrame returnAddress
  (framed.set 2 (framed 0 - args - 5)).set 1 (framed 0)

/-- Replace the arguments of a callee by its topmost value. -/
def giveResult (ram : Ram) : Ram :=
  let stored := ram.drop.set (ram 2) ram.top
  stored.set 0 (stored 2 + 1)

/-- Restore the pointers from the frame that ends at an address. -/
def restore (ram : Ram) (frame : UInt16) : Ram :=
  (((ram.set 4 (ram (frame - 1))).set 3 (ram (frame - 2))).set 2 (ram (frame - 3))).set 1
    (ram (frame - 4))

/-- Leave a callee, whose frame ends where its locals begin. -/
def leave (ram : Ram) : Ram :=
  ram.giveResult.restore (ram 1)

/-- Memory with the registers in which a return keeps intermediate addresses. -/
def parkReturn (ram : Ram) : Ram :=
  ((ram.set 14 (ram 1)).set 15 (ram (ram 1 - 5))).set 13 (ram 2)

end Ram

/-- The commands of a unit, past faults. -/
def SourceUnit.commands (unit : SourceUnit) : List (Located Command) :=
  (Source.items unit.name unit.source).filterMap Except.toOption

/-- The part of a program in which a label is known. -/
inductive Scope where
  | function (name : String)
  | unit (name : String)
  deriving DecidableEq, Repr

/-- A command with the unit and the function that it stands in. -/
structure Site where
  unit : String
  function : Option String
  command : Command
  deriving DecidableEq, Repr

namespace Site

/-- The scope of the labels that a command names. -/
def scope (site : Site) : Scope :=
  match site.function with
  | some name => .function name
  | none => .unit site.unit

/-- The function that commands stand in after a given command. -/
def functionAfter (function : Option String) : Command → Option String
  | .function name _ => some name
  | _ => function

/-- Consecutive commands of a unit, the first of which stands in a given function. -/
def ofCommands (unit : String) (function : Option String) : List Command → List Site
  | [] => []
  | command :: rest =>
      ⟨unit, function, command⟩ :: ofCommands unit (functionAfter function command) rest

/-- The commands of all units in order. -/
def ofUnits (units : List SourceUnit) : List Site :=
  units.flatMap fun unit => ofCommands unit.name none (unit.commands.map (·.value))

/-- Whether a command declares a label in a scope. -/
def declaresLabel (scope : Scope) (name : String) (site : Site) : Bool :=
  site.scope == scope && site.command == .label name

/-- Whether a command declares a function. -/
def declaresFunction (name : String) (site : Site) : Bool :=
  match site.command with
  | .function other _ => other == name
  | _ => false

/-- Whether the label or the function that a command names is declared. -/
def targetDeclared (sites : List Site) (site : Site) : Bool :=
  match site.command with
  | .goto name => sites.any (declaresLabel site.scope name)
  | .ifGoto name => sites.any (declaresLabel site.scope name)
  | .call name _ => sites.any (declaresFunction name)
  | _ => true

end Site

/-- A machine for the commands of one program. -/
structure Vm where
  sites : List Site
  /-- The address of the code for the command at a position. -/
  start : Nat → Nat
  /-- The cell of a unit's static variable. -/
  staticCell : String → UInt16 → UInt16

namespace Vm

def labelAt? (vm : Vm) (scope : Scope) (name : String) : Option Nat :=
  vm.sites.findIdx? (Site.declaresLabel scope name)

def functionAt? (vm : Vm) (name : String) : Option Nat :=
  vm.sites.findIdx? (Site.declaresFunction name)

/-- The cell of a segment; for a constant, which has none, its value. -/
def cell (vm : Vm) (unit : String) (ram : Ram) (segment : Segment) (index : UInt16) : UInt16 :=
  match segment with
  | .locals => ram 1 + index
  | .arguments => ram 2 + index
  | .this => ram 3 + index
  | .that => ram 4 + index
  | .temps => 5 + index
  | .pointers => 3 + index
  | .statics => vm.staticCell unit index
  | .constants => index

/-- The value that a push brings to the stack. -/
def operand (vm : Vm) (unit : String) (ram : Ram) (segment : Segment) (index : UInt16) : UInt16 :=
  if segment = .constants then index else ram (vm.cell unit ram segment index)

/--
The effect of a command: the address to go on at, and data memory.  There is
none if the command's target is not declared.
-/
def effect? (vm : Vm) (site : Site) (after : Nat) (ram : Ram) : Option (Nat × Ram) :=
  match site.command with
  | .arith op => some (after, ram.arith op)
  | .push segment index => some (after, ram.push (vm.operand site.unit ram segment index))
  | .pop segment index =>
      some (after, ram.drop.set (vm.cell site.unit ram segment index) ram.top)
  | .label _ => some (after, ram)
  | .goto name => (vm.labelAt? site.scope name).map fun target => (vm.start target, ram)
  | .ifGoto name =>
      (vm.labelAt? site.scope name).map fun target =>
        (if ram.top = 0 then after else vm.start target, ram.drop)
  | .function _ locals => some (after, ram.pushZeros locals.toNat)
  | .call name args =>
      (vm.functionAt? name).map fun target =>
        (vm.start target, ram.enter (UInt16.ofNat after) args)
  | .ret => some ((ram (ram 1 - 5)).toNat, ram.leave)

/-- One step of the machine from the command at a position. -/
def next? (vm : Vm) (position : Nat) (ram : Ram) : Option (Nat × Ram) := do
  let site ← vm.sites[position]?
  vm.effect? site (vm.start (position + 1)) ram

theorem next?_of_site {vm : Vm} {position : Nat} {site : Site}
    (hsite : vm.sites[position]? = some site) (ram : Ram) :
    vm.next? position ram = vm.effect? site (vm.start (position + 1)) ram := by
  simp [next?, hsite]

/-- The cells of the stack that a command reads or writes. -/
def stackCells (command : Command) (ram : Ram) : List UInt16 :=
  match command with
  | .arith op => if op.arity = 1 then [ram 0 - 1] else [ram 0 - 1, ram 0 - 2]
  | .push _ _ => [ram 0]
  | .pop _ _ => [ram 0 - 1]
  | .ifGoto _ => [ram 0 - 1]
  | .label _ => []
  | .goto _ => []
  | .function _ locals => (List.range locals.toNat).map fun i => ram 0 + UInt16.ofNat i
  | .call _ _ => (List.range 5).map fun i => ram 0 + UInt16.ofNat i
  | .ret => (ram 0 - 1) :: [1, 2, 3, 4, 5].map fun i => ram 1 - i

/-- The cell that a command reaches through a segment; a return stores to `argument 0`. -/
def segmentCell? (vm : Vm) (site : Site) (ram : Ram) : Option UInt16 :=
  match site.command with
  | .push segment index =>
      if segment = .constants then none else some (vm.cell site.unit ram segment index)
  | .pop segment index => some (vm.cell site.unit ram segment index)
  | .ret => some (ram 2)
  | _ => none

/-- The stack cells of a command lie on the stack, and its segment cell lies in memory. -/
structure Admits (vm : Vm) (site : Site) (ram : Ram) : Prop where
  stack : ∀ cell ∈ stackCells site.command ram, Ram.IsStackCell cell
  segment : ∀ cell, vm.segmentCell? site ram = some cell → cell < 0x8000
  /-- A return keeps the frame and its return address in two registers. -/
  result : site.command = .ret → ram 2 ≠ 14 ∧ ram 2 ≠ 15

/-- Memory with the registers in which a command keeps intermediate addresses. -/
def parked (vm : Vm) (site : Site) (ram : Ram) : Ram :=
  match site.command with
  | .pop segment index => ram.set 13 (vm.cell site.unit ram segment index)
  | .ret => ram.parkReturn
  | _ => ram

end Vm

/-- An operation lowers the stack pointer by one less than the number of its operands. -/
theorem Ram.arith_sp {ram : Ram} {op : ArithOp}
    (hcells : ∀ cell ∈ Vm.stackCells (.arith op) ram, IsStackCell cell) :
    ram.arith op 0 = if op.arity = 1 then ram 0 else ram 0 - 1 := by
  by_cases harity : op.arity = 1
  · have hcell := hcells (ram 0 - 1) (by simp [Vm.stackCells, harity])
    rw [arith, if_pos harity, if_pos harity, set_other _ _ (Ne.symm (hcell.ne (by decide)))]
  · have hcell := hcells (ram 0 - 2) (by simp [Vm.stackCells, harity])
    rw [arith, if_neg harity, if_neg harity, set_other _ _ (Ne.symm (hcell.ne (by decide))),
      drop_sp]

end StackVm
