import StackVm.Asm.Instruction

/-!
# Code for stack-machine commands

The lines of assembly for each kind of command, as functions of the names and
addresses that they use.  The register `SP` holds the address one past the top
of the stack; four pointer registers hold the bases of segments.

A call lays its frame between the arguments and the locals of the callee:

```text
  ARG -> argument 0 .. argument n-1
         return address
         saved LCL, saved ARG, saved THIS, saved THAT
  LCL -> local 0 .. local k-1
  SP  -> working stack
```
-/

namespace StackVm

/-- Lines of assembly. -/
abbrev Code := List Asm.Line

/-- A register that holds the base of a segment. -/
inductive Pointer where
  | lcl
  | arg
  | this
  | that
  deriving DecidableEq, Repr, Inhabited

namespace Pointer

def name : Pointer → String
  | lcl => "LCL"
  | arg => "ARG"
  | this => "THIS"
  | that => "THAT"

/-- The pointers in the order in which a call saves them. -/
def saved : List Pointer :=
  [lcl, arg, this, that]

end Pointer

/-- Where a cell of a segment is. -/
inductive Place where
  /-- No cell: the value itself. -/
  | immediate (value : UInt16)
  /-- The cell of an assembler variable. -/
  | symbol (name : String)
  /-- The cell at a known address. -/
  | fixed (address : UInt16)
  /-- The cell at an offset from a pointer. -/
  | offset (base : Pointer) (index : UInt16)
  deriving DecidableEq, Repr

/-- Why a label was generated. -/
inductive LabelPurpose where
  /-- Where a comparison stores true. -/
  | isTrue
  /-- Where a comparison ends. -/
  | isEnd
  /-- Where a call returns to. -/
  | ret
  deriving DecidableEq, Repr, Inhabited

def LabelPurpose.word : LabelPurpose → String
  | isTrue => "true"
  | isEnd => "end"
  | ret => "ret"

def generatedLabel (purpose : LabelPurpose) (number : Nat) : String :=
  "$" ++ purpose.word ++ "." ++ number.repr

namespace Code

open Asm

def load (name : String) : Line :=
  .code (.load (.symbol name))

def loadConstant (value : UInt16) : Line :=
  .code (.load (.constant value))

def assign (dest : Dest) (comp : Comp) : Line :=
  .code (.compute dest comp .never)

def jumpIf (comp : Comp) (jump : Jump) : Line :=
  .code (.compute {} comp jump)

def toA : Dest := { a := true }

def toD : Dest := { d := true }

def toM : Dest := { m := true }

def toAM : Dest := { a := true, m := true }

def pushD : Code :=
  [load "SP", assign toM (.succ .m), assign toA (.pred .m), assign toM .d]

/-- Pop into the data register; the address register is left at the popped cell. -/
def popD : Code :=
  [load "SP", assign toAM (.pred .m), assign toD (.it .m)]

/-- Replace the two topmost values; the upper one is in the data register. -/
def binary (comp : Comp) : Code :=
  popD ++ [assign toA (.pred .a), assign toM comp]

def unary (comp : Comp) : Code :=
  [load "SP", assign toA (.pred .m), assign toM comp]

def jumpTo (name : String) : Code :=
  [load name, jumpIf .zero .always]

/-- Replace the two topmost values by the truth of a condition on the sign of their difference. -/
def comparison (condition : Jump) (trueLabel endLabel : String) : Code :=
  popD ++ [assign toA (.pred .a), assign toD (.subD .m), load trueLabel, jumpIf .d condition] ++
    unary .zero ++ jumpTo endLabel ++
    [.label trueLabel] ++ unary .minusOne ++ [.label endLabel]

/-- Bring the value at a place into the data register. -/
def valueToD : Place → Code
  | .immediate value => [loadConstant value, assign toD (.it .a)]
  | .symbol name => [load name, assign toD (.it .m)]
  | .fixed address => [loadConstant address, assign toD (.it .m)]
  | .offset base index =>
      [load base.name, assign toD (.it .m), loadConstant index, assign toA (.add .a),
        assign toD (.it .m)]

def addressToD : Place → Code
  | .immediate value => [loadConstant value, assign toD (.it .a)]
  | .symbol name => [load name, assign toD (.it .a)]
  | .fixed address => [loadConstant address, assign toD (.it .a)]
  | .offset base index =>
      [load base.name, assign toD (.it .m), loadConstant index, assign toD (.add .a)]

def push (place : Place) : Code :=
  valueToD place ++ pushD

/--
Pop into a place.

The address waits in a scratch register, because reading the popped value needs
both registers of the machine.
-/
def pop (scratch : String) (place : Place) : Code :=
  addressToD place ++ [load scratch, assign toM .d] ++ popD ++
    [load scratch, assign toA (.it .m), assign toM .d]

def label (name : String) : Code :=
  [.label name]

/-- Pop a value and jump to a symbol unless the value is zero. -/
def jumpUnlessZero (name : String) : Code :=
  popD ++ [load name, jumpIf .d .ne]

/-- Cells that a call pushes on top of the arguments. -/
def frameSize : UInt16 := 5

def savePointer (pointer : Pointer) : Code :=
  [load pointer.name, assign toD (.it .m)] ++ pushD

/-- Call a function: push the frame, set the callee's pointers, and jump. -/
def call (returnLabel name : String) (args : UInt16) : Code :=
  [load returnLabel, assign toD (.it .a)] ++ pushD ++
    Pointer.saved.flatMap savePointer ++
    [load "SP", assign toD (.it .m), loadConstant (args + frameSize), assign toD (.sub .a),
      load "ARG", assign toM .d] ++
    [load "SP", assign toD (.it .m), load "LCL", assign toM .d] ++
    jumpTo name ++ label returnLabel

/-- Restore a pointer from the cell that lies `depth` below the frame's end. -/
def restorePointer (frame : String) (pointer : Pointer) (depth : UInt16) : Code :=
  [load frame, assign toD (.it .m), loadConstant depth, assign toA (.sub .a),
    assign toD (.it .m), load pointer.name, assign toM .d]

/-- Keep the end of the frame and the return address in scratch registers. -/
def readFrame (frame returnAddress : String) : Code :=
  [load "LCL", assign toD (.it .m), load frame, assign toM .d,
    loadConstant frameSize, assign toA (.sub .a), assign toD (.it .m), load returnAddress,
    assign toM .d]

/-- Drop the callee's cells, restore the caller's pointers and jump back. -/
def leaveFrame (frame returnAddress : String) : Code :=
  [load "ARG", assign toD (.succ .m), load "SP", assign toM .d] ++
    restorePointer frame .that 1 ++ restorePointer frame .this 2 ++
    restorePointer frame .arg 3 ++ restorePointer frame .lcl 4 ++
    [load returnAddress, assign toA (.it .m), jumpIf .zero .always]

/-- Start a program: set the stack pointer and jump to the entry function. -/
def bootstrap (sp : UInt16) (entry : String) : Code :=
  [loadConstant sp, assign toD (.it .a), load "SP", assign toM .d] ++ jumpTo entry

end Code

end StackVm
