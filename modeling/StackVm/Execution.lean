import StackVm.Asm.Program
import StackVm.Cpu

/-!
# Running assembled programs

A run starts with chosen words in data memory.  What it leaves there is read
as a stack machine: the stack pointer, the segment pointers and the topmost
values of the stack.
-/

namespace StackVm

structure Runner where
  machine : Machine
  /-- Words set before the first instruction, in order. -/
  presets : List (UInt16 × UInt16) := []
  deriving Repr

inductive RunFault where
  | assembly (fault : Asm.LineFault)
  | cpu (fault : CpuFault)
  deriving DecidableEq, Repr

def RunFault.message : RunFault → String
  | assembly fault => fault.message
  | cpu fault => fault.message

structure Execution where
  cpu : Cpu
  /-- Number of instructions executed. -/
  cycles : Nat
  /-- Whether the program came to its end. -/
  halted : Bool
  deriving Repr

namespace Runner

def preset (runner : Runner) (address value : UInt16) : Runner :=
  { runner with presets := runner.presets ++ [(address, value)] }

/-- Set the stack pointer and the segment pointers, for code without the bootstrap. -/
def frame (runner : Runner) (sp lcl arg this that : UInt16) : Runner :=
  ((((runner.preset 0 sp).preset 1 lcl).preset 2 arg).preset 3 this).preset 4 that

def load (runner : Runner) (program : Asm.Program) : Cpu :=
  runner.presets.foldl (fun cpu word => cpu.poke word.1 word.2)
    (Cpu.start program.words runner.machine.ramSize)

def runProgram (runner : Runner) (program : Asm.Program) (budget : Nat) :
    Except RunFault Execution :=
  match Cpu.performRun budget (runner.load program) with
  | .error fault _ => .error (.cpu fault)
  | .ok (cycles, halted) cpu => .ok ⟨cpu, cycles, halted⟩

def run (runner : Runner) (text : String) (budget : Nat) : Except RunFault Execution :=
  match Asm.assemble runner.machine text with
  | .error fault => .error (.assembly fault)
  | .ok program => runner.runProgram program budget

end Runner

namespace Execution

/-- The word at an address of data memory; zero outside of it. -/
def peek (execution : Execution) (address : UInt16) : UInt16 :=
  execution.cpu.peek address

def sp (execution : Execution) : UInt16 :=
  execution.peek 0

/-- The segment pointers, in the order `LCL`, `ARG`, `THIS`, `THAT`. -/
def pointers (execution : Execution) : List UInt16 :=
  [execution.peek 1, execution.peek 2, execution.peek 3, execution.peek 4]

/--
The topmost values of the stack, the top first; values end at address zero.

The requested number is cut to its low 16 bits, so a request for more than
65535 values gives fewer than the stack may have.
-/
def stackTop (execution : Execution) (count : Nat) : List UInt16 :=
  (List.range (min (count % 65536) execution.sp.toNat)).map fun depth =>
    execution.peek (execution.sp - 1 - UInt16.ofNat depth)

end Execution

end StackVm
