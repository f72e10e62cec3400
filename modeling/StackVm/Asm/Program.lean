import StackVm.Asm.Instruction
import StackVm.Machine
import StackVm.Text.Blank
import StackVm.Text.Decimal
import StackVm.Text.Line

/-!
# Assembled programs

Assembling takes two passes over the code of a text.  The first gives each
label the number of instructions before it.  The second reads the instructions;
symbols that are neither predefined nor labels become variables, numbered by
their first use.
-/

namespace StackVm

namespace Asm

inductive Fault where
  | unterminatedLabel (code : String)
  | duplicateSymbol (name : String)
  | programTooLong
  | invalidConstant (operand : String)
  | badDest (text : String)
  | badComp (text : String)
  | badJump (text : String)
  deriving DecidableEq, Repr

def Fault.message : Fault → String
  | unterminatedLabel code => s!"unterminated label '{code}'"
  | duplicateSymbol name => s!"duplicate symbol '{name}'"
  | programTooLong => "program exceeds instruction memory"
  | invalidConstant operand => s!"invalid constant '{operand}'"
  | badDest text => s!"bad dest '{text}'"
  | badComp text => s!"bad comp '{text}'"
  | badJump text => s!"bad jump '{text}'"

/-- A fault and the number of its line, counted from one. -/
structure LineFault where
  line : Nat
  fault : Fault
  deriving DecidableEq, Repr

def LineFault.message (error : LineFault) : String :=
  s!"asm line {error.line}: {error.fault.message}"

/-- The code of one line: its text before `//`, without blanks. -/
def codeOf (line : List Char) : List Char :=
  (Text.beforeComment line).filter fun c => !Text.isBlank c

structure CodeLine where
  number : Nat
  code : List Char
  deriving DecidableEq, Repr

def codeLines (text : String) : List CodeLine :=
  ((Text.lines text.toList).zipIdx 1).filterMap fun line =>
    match codeOf line.1 with
    | [] => none
    | code => some ⟨line.2, code⟩

def CodeLine.isLabel (line : CodeLine) : Bool :=
  line.code.head? == some '('

def labelName? : List Char → Option String
  | '(' :: rest =>
      if rest.getLast? = some ')' then some (String.ofList rest.dropLast) else none
  | _ => none

def predefined : List (String × UInt16) :=
  [("SP", 0), ("LCL", 1), ("ARG", 2), ("THIS", 3), ("THAT", 4),
    ("SCREEN", 16384), ("KBD", 24576),
    ("R0", 0), ("R1", 1), ("R2", 2), ("R3", 3), ("R4", 4), ("R5", 5), ("R6", 6), ("R7", 7),
    ("R8", 8), ("R9", 9), ("R10", 10), ("R11", 11), ("R12", 12), ("R13", 13), ("R14", 14),
    ("R15", 15)]

/-- The labels met so far, the latest first, and the number of instructions so far. -/
structure Layout where
  labels : List (String × UInt16) := []
  size : Nat := 0
  deriving Repr

namespace Layout

def address? (layout : Layout) (name : String) : Option UInt16 :=
  predefined.lookup name <|> layout.labels.lookup name

def add (layout : Layout) (line : CodeLine) : Except LineFault Layout :=
  if line.isLabel then
    match labelName? line.code with
    | none => .error ⟨line.number, .unterminatedLabel (String.ofList line.code)⟩
    | some name =>
        if (layout.address? name).isSome then .error ⟨line.number, .duplicateSymbol name⟩
        else .ok { layout with labels := (name, UInt16.ofNat layout.size) :: layout.labels }
  else if layout.size < Text.maxWord then
    .ok { layout with size := layout.size + 1 }
  else
    .error ⟨line.number, .programTooLong⟩

def addAll (layout : Layout) : List CodeLine → Except LineFault Layout
  | [] => .ok layout
  | line :: rest =>
      match layout.add line with
      | .error fault => .error fault
      | .ok next => next.addAll rest

end Layout

/-- Read what follows `@`: a constant if it starts with a digit, else a symbol. -/
def readAddress (limit : UInt16) (operand : List Char) : Except Fault Address :=
  if operand.head?.any Char.isDigit then
    match Text.readDigits? limit.toNat operand with
    | some value => .ok (.constant (UInt16.ofNat value))
    | none => .error (.invalidConstant (String.ofList operand))
  else
    .ok (.symbol (String.ofList operand))

/-- Split at the first occurrence of a character, which is dropped. -/
def splitFirst? (mark : Char) (cs : List Char) : Option (List Char × List Char) :=
  match cs.dropWhile (· != mark) with
  | [] => none
  | _ :: after => some (cs.takeWhile (· != mark), after)

def computeParts (code : List Char) : String × String × String :=
  let (dest, rest) := (splitFirst? '=' code).getD ([], code)
  let (comp, jump) := (splitFirst? ';' rest).getD (rest, [])
  (String.ofList dest, String.ofList comp, String.ofList jump)

def readInstruction (limit : UInt16) (code : List Char) : Except Fault Instruction :=
  match code with
  | '@' :: operand => (readAddress limit operand).map .load
  | _ =>
      let (dest, comp, jump) := computeParts code
      match Dest.ofText? dest, Comp.ofText? comp, Jump.ofText? jump with
      | none, _, _ => .error (.badDest dest)
      | _, none, _ => .error (.badComp comp)
      | _, _, none => .error (.badJump jump)
      | some d, some c, some j => .ok (.compute d c j)

def CodeLine.read (limit : UInt16) (line : CodeLine) : Except LineFault Instruction :=
  (readInstruction limit line.code).mapError (⟨line.number, ·⟩)

/-- Labels, and the variables met so far in the order of their first use. -/
structure Symbols where
  labels : List (String × UInt16)
  allocated : List (String × UInt16) := []
  /-- The address of the next new variable. -/
  nextVariable : UInt16
  deriving Repr

namespace Symbols

/-- The address of a symbol: predefined, else a label, else a variable. -/
def address? (symbols : Symbols) (name : String) : Option UInt16 :=
  predefined.lookup name <|> symbols.labels.lookup name <|> symbols.allocated.lookup name

/-- The address of a symbol, which becomes a variable if it has none yet. -/
def resolve (symbols : Symbols) (name : String) : UInt16 × Symbols :=
  match symbols.address? name with
  | some address => (address, symbols)
  | none =>
      (symbols.nextVariable,
        { symbols with
          allocated := symbols.allocated ++ [(name, symbols.nextVariable)]
          nextVariable := symbols.nextVariable + 1 })

/-- The symbols that the program itself introduces, with their addresses. -/
def own (symbols : Symbols) : List (String × UInt16) :=
  symbols.labels ++ symbols.allocated

/-- Symbols with their addresses, ordered by name. -/
def listing (symbols : Symbols) (withPredefined : Bool) : List (String × UInt16) :=
  (if withPredefined then predefined ++ symbols.own else symbols.own).mergeSort
    fun x y => decide (x.1 ≤ y.1)

end Symbols

structure Encoding where
  symbols : Symbols
  words : Array UInt16 := #[]
  deriving Repr

namespace Encoding

def put (encoding : Encoding) (instruction : Instruction) : Encoding :=
  match instruction.symbol? with
  | some name =>
      let (address, symbols) := encoding.symbols.resolve name
      ⟨symbols, encoding.words.push (instruction.word fun _ => address)⟩
  | none => { encoding with words := encoding.words.push (instruction.word fun _ => 0) }

/-- Encode one more line of code; a label has no word. -/
def add (limit : UInt16) (encoding : Encoding) (line : CodeLine) : Except LineFault Encoding :=
  if line.isLabel then .ok encoding else (line.read limit).map encoding.put

end Encoding

/-- Machine words and the symbols that they were resolved with. -/
structure Program where
  words : List UInt16
  symbols : Symbols
  deriving Repr

def assemble (machine : Machine) (text : String) : Except LineFault Program := do
  let code := codeLines text
  let layout ← Layout.addAll {} code
  let encoding ← code.foldlM (Encoding.add machine.maxConstant)
    { symbols := { labels := layout.labels, nextVariable := machine.variableBase } }
  return { words := encoding.words.toList, symbols := encoding.symbols }

end Asm

end StackVm
