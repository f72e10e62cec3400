/-!
# Machine layout

The addresses, register names and limits that lowering, assembling and running
a program rely on.
-/

namespace StackVm

/-- Layout of a target machine. -/
structure Machine where
  /-- Short name, as options give it. -/
  name : String
  /-- Name for people. -/
  displayName : String
  /-- First address of the stack. -/
  stackBase : UInt16
  /-- Cells that the bootstrap leaves free above the stack's base. -/
  bootstrapReserve : UInt16
  /-- Address of the first `temp` cell. -/
  tempBase : UInt16
  /-- Address of the first `pointer` cell. -/
  pointerBase : UInt16
  /-- Register for the address that `pop` stores to. -/
  popScratch : String
  /-- Register for the frame's address during `return`. -/
  frameScratch : String
  /-- Register for the return address during `return`. -/
  returnScratch : String
  /-- Address of the first assembler variable. -/
  variableBase : UInt16
  /-- Largest value that an address load carries. -/
  maxConstant : UInt16
  /-- Number of words of data memory. -/
  ramSize : Nat
  /-- Extension of output files, without its dot. -/
  outputExtension : String
  deriving DecidableEq, Repr

namespace Machine

/-- The standard 16-bit machine. -/
def hack : Machine where
  name := "hack"
  displayName := "Hack"
  stackBase := 256
  bootstrapReserve := 5
  tempBase := 5
  pointerBase := 3
  popScratch := "R13"
  frameScratch := "R14"
  returnScratch := "R15"
  variableBase := 16
  maxConstant := 32767
  ramSize := 32768
  outputExtension := "asm"

def named? (name : String) : Option Machine :=
  if name = "hack" then some hack else none

/--
The stack pointer that the bootstrap sets: the stack's base plus the reserved
cells, when an address load can carry it.
-/
def initialSp? (machine : Machine) : Option UInt16 :=
  if machine.stackBase.toNat + machine.bootstrapReserve.toNat ≤ machine.maxConstant.toNat then
    some (machine.stackBase + machine.bootstrapReserve)
  else
    none

theorem initialSp?_hack : hack.initialSp? = some 261 := by decide

end Machine

/-- When the output starts with the bootstrap. -/
inductive Bootstrap where
  /-- For whole programs only. -/
  | auto
  | always
  | never
  deriving DecidableEq, Repr, Inhabited

namespace Bootstrap

def ofWord? : String → Option Bootstrap
  | "auto" => some auto
  | "always" => some always
  | "never" => some never
  | _ => none

/-- Whether the policy asks for the bootstrap, given whether the input is a whole program. -/
def enabled (policy : Bootstrap) (wholeProgram : Bool) : Bool :=
  match policy with
  | auto => wholeProgram
  | always => true
  | never => false

end Bootstrap

structure Options where
  /-- Name of the target. -/
  target : String := "hack"
  /-- Layout of the target machine. -/
  machine : Machine := Machine.hack
  /-- When to start with the bootstrap. -/
  bootstrap : Bootstrap := .auto
  /-- The function that the bootstrap jumps to. -/
  entry : String := "Sys.init"
  /-- Whether a comment names the command before its code. -/
  annotate : Bool := false
  deriving DecidableEq, Repr

end StackVm
