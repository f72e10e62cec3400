import StackVm.Error
import StackVm.Source.Line
import StackVm.Text.Decimal

/-!
# Commands of a source text

Each line with words gives one item: the command that the words spell, or the
first fault among verb, number of operands, and operands from left to right.
-/

namespace StackVm

namespace Source

/-- A character that may open a symbol: an ASCII letter, `_`, `.` or `:`. -/
def isSymbolStart (c : Char) : Bool :=
  c.isAlpha || c == '_' || c == '.' || c == ':'

/-- A character that may follow in a symbol: also a digit. -/
def isSymbolRest (c : Char) : Bool :=
  isSymbolStart c || c.isDigit

/--
The names that commands may carry.

The dollar sign is no symbol character, so that labels made by the lowering
never meet a name of the program.
-/
def isSymbol (text : String) : Bool :=
  match text.toList with
  | [] => false
  | c :: rest => isSymbolStart c && rest.all isSymbolRest

def readSegment (unit : String) (word : Word) : Except Error Segment :=
  match Segment.ofWord? word.text with
  | some segment => .ok segment
  | none => .error (.invalidSegment unit word.span word.text .unknownName)

def readNumber (unit : String) (word : Word) : Except Error UInt16 :=
  if word.text.toList.all Char.isDigit then
    match Text.readWord? word.text.toList with
    | some value => .ok value
    | none => .error (.malformedCommand unit word.span (.numberTooLarge word.text))
  else
    .error (.malformedCommand unit word.span (.notANumber word.text))

def readSymbol (unit : String) (word : Word) : Except Error String :=
  if isSymbol word.text then .ok word.text
  else .error (.malformedCommand unit word.span (.invalidSymbol word.text))

def operandCountError (unit : String) (line : Line) (verb : Verb) : Error :=
  .malformedCommand unit line.span
    (.operandCount line.first.text verb.operandCount line.rest.length)

/-- Read a verb's operands; the number of words is checked first. -/
def readOperands (unit : String) (line : Line) (verb : Verb) : Except Error Command :=
  match verb, line.rest with
  | .arith op, [] => .ok (.arith op)
  | .ret, [] => .ok .ret
  | .label, [name] => return .label (← readSymbol unit name)
  | .goto, [name] => return .goto (← readSymbol unit name)
  | .ifGoto, [name] => return .ifGoto (← readSymbol unit name)
  | .push, [segment, index] => return .push (← readSegment unit segment) (← readNumber unit index)
  | .pop, [segment, index] => return .pop (← readSegment unit segment) (← readNumber unit index)
  | .function, [name, locals] =>
      return .function (← readSymbol unit name) (← readNumber unit locals)
  | .call, [name, args] => return .call (← readSymbol unit name) (← readNumber unit args)
  | verb, _ => .error (operandCountError unit line verb)

def readCommand (unit : String) (line : Line) : Except Error Command :=
  match Verb.ofWord? line.first.text with
  | some verb => readOperands unit line verb
  | none =>
      .error (.malformedCommand unit line.first.span (.unknownVerb line.first.text))

/-- What one line of a unit gives: a command with its place, or a fault. -/
abbrev Item := Except Error (Located Command)

def item (unit : String) (line : Line) : Item :=
  (readCommand unit line).map fun command => ⟨command, line.span⟩

/-- The items of a source text, past faults. -/
def items (unit source : String) : List Item :=
  (lines source).map (item unit)

/-- The values of a list of results, or its first fault. -/
def collect {α : Type} : List (Except Error α) → Except Error (List α) :=
  List.mapM id

def commands (unit source : String) : Except Error (List (Located Command)) :=
  collect (items unit source)

end Source

end StackVm
