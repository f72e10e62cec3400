import StackVm.Files.Path
import StackVm.Machine
import StackVm.Text.Decimal

/-!
# Command-line arguments

An invocation names an action, an input and options.  Options may stand before
or after the input, and each may be given once.  A value follows its option as
the next argument, after `=`, or directly after a one-letter option; as the
next argument it cannot start with `-`, unless it is `-` alone.  The argument
`--` ends the options.  Arguments are read from left to right, so a request for
help counts as soon as it is reached, and what follows it does not.
-/

namespace StackVm

namespace CommandLine

inductive Action where
  | build
  | check
  | run
  deriving DecidableEq, Repr

def Action.ofWord? : String → Option Action
  | "build" => some build
  | "check" => some check
  | "run" => some run
  | _ => none

inductive Flag where
  | output
  | bootstrap
  | entry
  | annotate
  | target
  | cycles
  | rows
  deriving DecidableEq, Repr

namespace Flag

/-- The flag that a long option names, among those of an action. -/
def ofLong? : Action → String → Option Flag
  | .build, "output" => some output
  | .run, "cycles" => some cycles
  | .run, "show" => some rows
  | _, "bootstrap" => some bootstrap
  | _, "entry" => some entry
  | _, "annotate" => some annotate
  | _, "target" => some target
  | _, _ => none

def ofShort? : Action → Char → Option Flag
  | .build, 'o' => some output
  | _, _ => none

def takesValue : Flag → Bool
  | annotate => false
  | _ => true

end Flag

structure Arguments where
  input : Option Path := none
  output : Option Path := none
  bootstrap : Option Bootstrap := none
  entry : Option String := none
  annotate : Bool := false
  target : Option String := none
  /-- The largest number of instructions to run. -/
  cycles : Option Nat := none
  /-- The number of stack values to print. -/
  rows : Option Nat := none
  deriving DecidableEq, Repr

/-- The largest number that a count may be: that of 64 bits. -/
def maxCount : Nat := 18446744073709551615

def readCount? (text : String) : Option Nat :=
  Text.readUnsigned? maxCount text.toList

def readPath? (text : String) : Option Path :=
  if text.isEmpty then none else some ⟨text⟩

/-- Fill a place that is still empty. -/
def fill? {α : Type} (place value : Option α) : Option (Option α) :=
  match place, value with
  | none, some value => some (some value)
  | _, _ => none

namespace Arguments

def setValue? (arguments : Arguments) (flag : Flag) (value : String) : Option Arguments :=
  match flag with
  | .output => return { arguments with output := ← fill? arguments.output (readPath? value) }
  | .bootstrap =>
      return { arguments with bootstrap := ← fill? arguments.bootstrap (Bootstrap.ofWord? value) }
  | .entry => return { arguments with entry := ← fill? arguments.entry (some value) }
  | .target => return { arguments with target := ← fill? arguments.target (some value) }
  | .cycles => return { arguments with cycles := ← fill? arguments.cycles (readCount? value) }
  | .rows => return { arguments with rows := ← fill? arguments.rows (readCount? value) }
  | .annotate => none

def set? (arguments : Arguments) (flag : Flag) : Option Arguments :=
  match flag with
  | .annotate => if arguments.annotate then none else some { arguments with annotate := true }
  | _ => none

def setInput? (arguments : Arguments) (text : String) : Option Arguments :=
  return { arguments with input := ← fill? arguments.input (readPath? text) }

def setInputs? (arguments : Arguments) : List String → Option Arguments
  | [] => some arguments
  | text :: rest => (arguments.setInput? text).bind fun next => next.setInputs? rest

end Arguments

/-- What one argument says, seen on its own. -/
inductive Token where
  /-- The end of the options. -/
  | escape
  /-- A long option and the value after its `=`. -/
  | long (name : String) (value : Option String)
  /-- A one-letter option and the text after the letter. -/
  | short (letter : Char) (rest : List Char)
  | plain (text : String)
  deriving DecidableEq, Repr

def Token.ofText (text : String) : Token :=
  match text.toList with
  | ['-', '-'] => .escape
  | '-' :: '-' :: body =>
      match body.dropWhile (· != '=') with
      | [] => .long (String.ofList body) none
      | _ :: value =>
          .long (String.ofList (body.takeWhile (· != '='))) (some (String.ofList value))
  | '-' :: letter :: rest => .short letter rest
  | _ => .plain text

/-- Whether an argument asks for help; a letter does so whatever stands after it. -/
def Token.asksHelp : Token → Bool
  | .long "help" none => true
  | .short 'h' _ => true
  | _ => false

/-- The value directly after a one-letter option; an `=` ahead of it is dropped. -/
def attached? : List Char → Option String
  | [] => none
  | '=' :: value => some (String.ofList value)
  | value => some (String.ofList value)

/-- A flag, and the value that stands in the same argument. -/
def flag? (action : Action) : Token → Option (Flag × Option String)
  | .long name value => return (← Flag.ofLong? action name, value)
  | .short letter rest => return (← Flag.ofShort? action letter, attached? rest)
  | _ => none

inductive Invocation where
  | version
  | help
  | act (action : Action) (input : Path) (arguments : Arguments)
  deriving DecidableEq, Repr

/-- An action with all of its arguments; the input must be there. -/
def Arguments.finish? (arguments : Arguments) (action : Action) : Option Invocation :=
  arguments.input.map fun input => .act action input arguments

/-- Read the arguments after an action; `pending` is a flag that still waits for its value. -/
def readAction? (action : Action) (arguments : Arguments) (pending : Option Flag) :
    List String → Option Invocation
  | [] => if pending.isSome then none else arguments.finish? action
  | text :: rest =>
      match pending, Token.ofText text with
      | some flag, .plain value => do
          readAction? action (← arguments.setValue? flag value) none rest
      | some _, _ => none
      | none, .escape => do (← arguments.setInputs? rest).finish? action
      | none, .plain text => do
          readAction? action (← arguments.setInput? text) none rest
      | none, token =>
          if token.asksHelp then some .help
          else do
            let (flag, value) ← flag? action token
            match flag.takesValue, value with
            | true, some value => readAction? action (← arguments.setValue? flag value) none rest
            | true, none => readAction? action arguments (some flag) rest
            | false, some _ => none
            | false, none => readAction? action (← arguments.set? flag) none rest

/-- Read the arguments after the word `help`: at most one, which it is about. -/
def readHelp? : List String → Option Invocation
  | [] => some .help
  | [word] => if word = "help" ∨ (Action.ofWord? word).isSome then some .help else none
  | _ => none

/-- Read a whole command line; whatever is not understood is a usage error. -/
def Invocation.read? : List String → Option Invocation
  | [] => none
  | first :: rest =>
      match Token.ofText first with
      | .long "version" none => some .version
      | .short 'V' _ => some .version
      | .plain "help" => readHelp? rest
      | .plain word => do readAction? (← Action.ofWord? word) {} none rest
      | token => if token.asksHelp then some .help else none

end CommandLine

end StackVm
