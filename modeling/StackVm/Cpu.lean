/-!
# The processor

A processor of 16-bit words with an address register, a data register and a
program counter.  Instruction memory is read only; data memory has a fixed
number of words.  An instruction that cannot be executed changes nothing.
-/

namespace StackVm

/-- A word read as a signed number. -/
def signed (word : UInt16) : Int :=
  word.toBitVec.toInt

structure Cpu where
  rom : Array UInt16
  ram : Array UInt16
  a : UInt16 := 0
  d : UInt16 := 0
  pc : UInt16 := 0
  deriving DecidableEq, Repr

inductive CpuFault where
  | outsideProgram (pc : UInt16)
  | outsideRam (pc address : UInt16) (size : Nat)
  deriving DecidableEq, Repr

def CpuFault.message : CpuFault → String
  | outsideProgram pc => s!"pc {pc.toNat} outside program"
  | outsideRam pc address size =>
      s!"pc {pc.toNat}: memory access at {address.toNat} outside RAM of {size} words"

namespace Cpu

/-- A processor before its first instruction, with all data memory zero. -/
def start (words : List UInt16) (ramSize : Nat) : Cpu where
  rom := words.toArray
  ram := Array.replicate ramSize 0

/-- The word at an address of data memory; zero outside of it. -/
def peek (cpu : Cpu) (address : UInt16) : UInt16 :=
  cpu.ram.getD address.toNat 0

/-- Set the word at an address of data memory; nothing happens outside of it. -/
def poke (cpu : Cpu) (address value : UInt16) : Cpu :=
  { cpu with ram := cpu.ram.setIfInBounds address.toNat value }

/-- Whether all bits of a mask are clear in a word. -/
def clear (word mask : UInt16) : Bool :=
  word &&& mask == 0

def isCompute (word : UInt16) : Bool :=
  !clear word 0x8000

def readsMemory (word : UInt16) : Bool :=
  !clear word 0x1000

def writesMemory (word : UInt16) : Bool :=
  !clear word 0x0008

/-- An input of the arithmetic unit: zeroed, then complemented, as two bits say. -/
def prepare (value : UInt16) (zero complement : Bool) : UInt16 :=
  let value := if zero then 0 else value
  if complement then ~~~value else value

/-- The arithmetic unit; its six control bits stand in bits 6 to 11 of the word. -/
def alu (word x y : UInt16) : UInt16 :=
  let x := prepare x (!clear word 0x0800) (!clear word 0x0400)
  let y := prepare y (!clear word 0x0200) (!clear word 0x0100)
  let out := if clear word 0x0080 then x &&& y else x + y
  if clear word 0x0040 then out else ~~~out

/-- Whether an instruction jumps, given the value that it computes. -/
def jumps (word out : UInt16) : Bool :=
  let negative := 0x8000 ≤ out
  (!clear word 0b100 && negative) || (!clear word 0b010 && out == 0) ||
    (!clear word 0b001 && !negative && out != 0)

def fetch? (cpu : Cpu) : Option UInt16 :=
  cpu.rom[cpu.pc.toNat]?

/-- Work on a processor.  A fault leaves the processor as it is at that moment. -/
abbrev Work := EStateM CpuFault Cpu

def checkCell (address : UInt16) : Work Unit := do
  let cpu ← get
  if cpu.ram.size ≤ address.toNat then
    throw (.outsideRam cpu.pc address cpu.ram.size)

def readOperand (word : UInt16) : Work UInt16 := do
  let address := (← get).a
  if readsMemory word then
    checkCell address
    return (← get).peek address
  else
    return address

def storeCell (word address out : UInt16) : Work Unit := do
  if writesMemory word then
    checkCell address
    modify fun cpu => cpu.poke address out

def storeA (word out : UInt16) : Work Unit :=
  modify fun cpu => if clear word 0x0020 then cpu else { cpu with a := out }

def storeD (word out : UInt16) : Work Unit :=
  modify fun cpu => if clear word 0x0010 then cpu else { cpu with d := out }

def branch (word address out : UInt16) : Work Unit :=
  modify fun cpu => { cpu with pc := if jumps word out then address else cpu.pc + 1 }

def performCompute (word : UInt16) : Work Unit := do
  let operand ← readOperand word
  let out := alu word (← get).d operand
  let address := (← get).a
  storeCell word address out
  storeA word out
  storeD word out
  branch word address out

/-- Execute the next instruction, stage by stage. -/
def perform : Work Unit := do
  let cpu ← get
  match cpu.fetch? with
  | none => throw (.outsideProgram cpu.pc)
  | some word =>
      if isCompute word then
        performCompute word
      else
        modify fun cpu => { cpu with a := word }
        modify fun cpu => { cpu with pc := cpu.pc + 1 }

def step (cpu : Cpu) : Except CpuFault Cpu :=
  match perform cpu with
  | .error fault _ => .error fault
  | .ok _ next => .ok next

/-- Whether the program loads its own address and then jumps there, for ever. -/
def spinning (cpu : Cpu) : Bool :=
  match cpu.rom[cpu.pc.toNat]?, cpu.rom[cpu.pc.toNat + 1]? with
  | some target, some jump =>
      !isCompute target && target == cpu.pc && isCompute jump &&
        jump &&& 0b111 == 0b111 && clear jump 0b111000
  | _, _ => false

/-- Whether a program has come to its end: past its last word, or spinning. -/
def halted (cpu : Cpu) : Bool :=
  cpu.rom.size ≤ cpu.pc.toNat || cpu.spinning

inductive Ending where
  | halted
  /-- All cycles were used up. -/
  | limit
  | fault (reason : CpuFault)
  deriving DecidableEq, Repr

/-- A finished run: the last state, the number of instructions, and why it stopped. -/
structure Run where
  cpu : Cpu
  cycles : Nat
  ending : Ending
  deriving Repr

/-- What a run tells its caller, and the processor that it leaves. -/
def Run.told (run : Run) : EStateM.Result CpuFault Cpu (Nat × Bool) :=
  match run.ending with
  | .halted => .ok (run.cycles, true) run.cpu
  | .limit => .ok (run.cycles, false) run.cpu
  | .fault fault => .error fault run.cpu

/-- Run for at most `budget` instructions more, after `done` instructions. -/
def runFrom (done : Nat) : Nat → Cpu → Run
  | 0, cpu => ⟨cpu, done, if cpu.halted then .halted else .limit⟩
  | budget + 1, cpu =>
      if cpu.halted then ⟨cpu, done, .halted⟩
      else
        match perform cpu with
        | .error fault last => ⟨last, done, .fault fault⟩
        | .ok _ next => runFrom (done + 1) budget next

/-- Run until the program halts or faults, for at most `budget` instructions. -/
def run (cpu : Cpu) (budget : Nat) : Run :=
  runFrom 0 budget cpu

/-- The same, as work that gives the number of instructions and whether the program halted. -/
def performRun (budget : Nat) : Work (Nat × Bool) :=
  fun cpu => (cpu.run budget).told

/-- Execute at most `count` instructions, up to the first fault. -/
def steps : Nat → Cpu → Cpu × Option CpuFault
  | 0, cpu => (cpu, none)
  | count + 1, cpu =>
      match perform cpu with
      | .error fault last => (last, some fault)
      | .ok _ next => steps count next

end Cpu

end StackVm
