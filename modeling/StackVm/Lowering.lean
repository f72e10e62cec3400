import StackVm.Error
import StackVm.Lowering.Code
import StackVm.Machine

/-!
# Lowering commands to assembly

One lowering serves a whole program: it knows the current unit and function,
which scope names, and how many labels it has generated.  An emitter lowers a
command step by step: it puts out lines, opens functions and takes labels as it
goes, and a failure undoes nothing of that.
-/

namespace StackVm

/-- The symbol of a label outside every function. -/
def unitLabel (unit label : String) : String :=
  unit ++ "$$" ++ label

/-- The symbol of a label inside a function. -/
def functionLabel (function label : String) : String :=
  function ++ "$" ++ label

structure Lowering where
  machine : Machine
  unit : String := ""
  /-- The current function, if one has been opened in the unit. -/
  function : Option String := none
  /-- Number of labels generated so far, counted in 32 bits. -/
  labels : UInt32 := 0
  deriving DecidableEq, Repr

namespace Lowering

def ofOptions (options : Options) : Except Error Lowering :=
  if options.target = "hack" then .ok { machine := options.machine }
  else .error (.unknownTarget options.target)

/-- Start a source unit, outside every function. -/
def setUnit (lowering : Lowering) (unit : String) : Lowering :=
  { lowering with unit, function := none }

def scopedLabel (lowering : Lowering) (label : String) : String :=
  match lowering.function with
  | some function => functionLabel function label
  | none => unitLabel lowering.unit label

def staticSymbol (lowering : Lowering) (index : UInt16) : String :=
  lowering.unit ++ "." ++ index.toNat.repr

/-- The place of a segment's cell, if the segment has the cell and an offset can be loaded. -/
def place (lowering : Lowering) (segment : Segment) (index : UInt16) :
    Except SegmentFault Place :=
  match segment with
  | .constants => .ok (.immediate index)
  | .statics => .ok (.symbol (lowering.staticSymbol index))
  | .temps => cell Segment.tempCount lowering.machine.tempBase
  | .pointers => cell Segment.pointerCount lowering.machine.pointerBase
  | .locals => offset .lcl
  | .arguments => offset .arg
  | .this => offset .this
  | .that => offset .that
where
  cell (size base : UInt16) : Except SegmentFault Place :=
    if index < size then .ok (.fixed (base + index)) else .error (.outOfRange index size)
  offset (base : Pointer) : Except SegmentFault Place :=
    if index ≤ lowering.machine.maxConstant then .ok (.offset base index)
    else .error (.offsetTooLarge index lowering.machine.maxConstant)

/-- Whether the arguments of a call and its frame fit in an offset. -/
def acceptsCall (lowering : Lowering) (args : UInt16) : Bool :=
  args.toNat + Code.frameSize.toNat ≤ lowering.machine.maxConstant.toNat

def maxArguments (lowering : Lowering) : UInt16 :=
  UInt16.ofNat (lowering.machine.maxConstant.toNat - Code.frameSize.toNat)

def bootstrap (lowering : Lowering) (entry : String) : Except Error Code :=
  match lowering.machine.initialSp? with
  | some sp => .ok (Code.bootstrap sp entry)
  | none =>
      .error (.config lowering.machine.name
        (.stackPointerTooLarge lowering.machine.stackBase lowering.machine.bootstrapReserve
          lowering.machine.maxConstant))

end Lowering

/-- A lowering and the lines that it has put out. -/
structure Emitter where
  lowering : Lowering
  out : Array Asm.Line := #[]
  deriving DecidableEq, Repr

namespace Emitter

/-- Work on an emitter.  A failure leaves the emitter as it is at that moment. -/
abbrev Work := EStateM Error Emitter

def emit (code : Code) : Work Unit :=
  modify fun emitter => { emitter with out := emitter.out ++ code }

/-- Take the next label; after the last of 32 bits comes zero. -/
def takeLabel (purpose : LabelPurpose) : Work String := do
  modify fun emitter =>
    { emitter with lowering := { emitter.lowering with labels := emitter.lowering.labels + 1 } }
  return generatedLabel purpose (← get).lowering.labels.toNat

def openFunction (name : String) : Work Unit :=
  modify fun emitter => { emitter with lowering := { emitter.lowering with function := some name } }

def refuse {α : Type} (span : Span) (segment : Segment) (fault : SegmentFault) : Work α := do
  throw (.invalidSegment (← get).lowering.unit span segment.word fault)

def locate (segment : Segment) (index : UInt16) (span : Span) : Work Place := do
  match (← get).lowering.place segment index with
  | .ok place => return place
  | .error fault => refuse span segment fault

def push (segment : Segment) (index : UInt16) (span : Span) : Work Unit := do
  let place ← locate segment index span
  let limit := (← get).lowering.machine.maxConstant
  if segment = .constants ∧ limit < index then
    refuse span segment (.constantTooLarge index limit)
  else
    emit (Code.push place)

def pop (segment : Segment) (index : UInt16) (span : Span) : Work Unit := do
  let place ← locate segment index span
  if segment = .constants then
    refuse span segment .constantTarget
  else
    emit (Code.pop (← get).lowering.machine.popScratch place)

def comparison (condition : Asm.Jump) : Work Unit := do
  let trueLabel ← takeLabel .isTrue
  let endLabel ← takeLabel .isEnd
  emit (Code.comparison condition trueLabel endLabel)

def arith : ArithOp → Work Unit
  | .add => emit (Code.binary (.add .m))
  | .sub => emit (Code.binary (.subD .m))
  | .and => emit (Code.binary (.and .m))
  | .or => emit (Code.binary (.or .m))
  | .neg => emit (Code.unary (.neg .m))
  | .not => emit (Code.unary (.not .m))
  | .eq => comparison .eq
  | .gt => comparison .gt
  | .lt => comparison .lt

def pushZeros (span : Span) : Nat → Work Unit
  | 0 => return
  | count + 1 => do
      push .constants 0 span
      pushZeros span count

def function (name : String) (locals : UInt16) (span : Span) : Work Unit := do
  openFunction name
  emit (Code.label name)
  pushZeros span locals.toNat

def call (name : String) (args : UInt16) (span : Span) : Work Unit := do
  let lowering := (← get).lowering
  if lowering.acceptsCall args then
    let returnLabel ← takeLabel .ret
    emit (Code.call returnLabel name args)
  else
    throw (.malformedCommand lowering.unit span
      (.tooManyArguments name args lowering.maxArguments))

/--
Return from a function.  The return address is read before the result is
stored: without arguments both use the same cell.
-/
def ret (span : Span) : Work Unit := do
  let machine := (← get).lowering.machine
  emit (Code.readFrame machine.frameScratch machine.returnScratch)
  pop .arguments 0 span
  emit (Code.leaveFrame machine.frameScratch machine.returnScratch)

def command (command : Located Command) : Work Unit := do
  match command.value with
  | .arith op => arith op
  | .push segment index => push segment index command.span
  | .pop segment index => pop segment index command.span
  | .label name => emit (Code.label ((← get).lowering.scopedLabel name))
  | .goto name => emit (Code.jumpTo ((← get).lowering.scopedLabel name))
  | .ifGoto name => emit (Code.jumpUnlessZero ((← get).lowering.scopedLabel name))
  | .function name locals => function name locals command.span
  | .call name args => call name args command.span
  | .ret => ret command.span

def bootstrap (entry : String) : Work Unit := do
  match (← get).lowering.bootstrap entry with
  | .ok code => emit code
  | .error error => throw error

end Emitter

namespace Lowering

/-- Lower one command: its code, and the lowering after it. -/
def command (lowering : Lowering) (command : Located Command) :
    Except Error (Code × Lowering) :=
  match Emitter.command command ⟨lowering, #[]⟩ with
  | .ok _ after => .ok (after.out.toList, after.lowering)
  | .error error _ => .error error

/--
Lower consecutive commands up to the first that is refused.

The result is the code of all commands, or the first error; the lowering is the
one that the last command leaves.
-/
def commands (lowering : Lowering) (commands : List (Located Command)) :
    Except Error Code × Lowering :=
  match commands.forM Emitter.command ⟨lowering, #[]⟩ with
  | .ok _ after => (.ok after.out.toList, after.lowering)
  | .error error after => (.error error, after.lowering)

def unitCommands (lowering : Lowering) (unit : String) (commands : List (Located Command)) :
    Except Error Code × Lowering :=
  (lowering.setUnit unit).commands commands

end Lowering

end StackVm
