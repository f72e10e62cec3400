/-!
# Stack-machine commands

The vocabulary of the source language: memory segments, arithmetic operations,
the verbs that open a command, and the commands themselves with their source
text and their effect on the stack.
-/

namespace StackVm

/-- A memory segment that `push` and `pop` address. -/
inductive Segment where
  /-- Cells above the address in `LCL`. -/
  | locals
  /-- Cells above the address in `ARG`. -/
  | arguments
  /-- Cells above the address in `THIS`. -/
  | this
  /-- Cells above the address in `THAT`. -/
  | that
  /-- No memory: the index is the value. -/
  | constants
  /-- One named cell for each index and source unit. -/
  | statics
  /-- Eight cells at a fixed address. -/
  | temps
  /-- The two cells that hold `THIS` and `THAT`. -/
  | pointers
  deriving DecidableEq, Repr, Inhabited

namespace Segment

/-- All segments, in the order in which messages list them. -/
def all : List Segment :=
  [locals, arguments, this, that, constants, statics, temps, pointers]

def word : Segment → String
  | locals => "local"
  | arguments => "argument"
  | this => "this"
  | that => "that"
  | constants => "constant"
  | statics => "static"
  | temps => "temp"
  | pointers => "pointer"

def ofWord? : String → Option Segment
  | "local" => some locals
  | "argument" => some arguments
  | "this" => some this
  | "that" => some that
  | "constant" => some constants
  | "static" => some statics
  | "temp" => some temps
  | "pointer" => some pointers
  | _ => none

@[simp] theorem ofWord?_word (segment : Segment) :
    ofWord? segment.word = some segment := by
  cases segment <;> rfl

def tempCount : UInt16 := 8

def pointerCount : UInt16 := 2

/-- Number of cells, for the segments that have a fixed number of them. -/
def size? : Segment → Option UInt16
  | temps => some tempCount
  | pointers => some pointerCount
  | _ => none

end Segment

/-- An operation on the topmost values of the stack. -/
inductive ArithOp where
  | add
  | sub
  | neg
  | eq
  | gt
  | lt
  | and
  | or
  | not
  deriving DecidableEq, Repr, Inhabited

namespace ArithOp

def word : ArithOp → String
  | add => "add"
  | sub => "sub"
  | neg => "neg"
  | eq => "eq"
  | gt => "gt"
  | lt => "lt"
  | and => "and"
  | or => "or"
  | not => "not"

def ofWord? : String → Option ArithOp
  | "add" => some add
  | "sub" => some sub
  | "neg" => some neg
  | "eq" => some eq
  | "gt" => some gt
  | "lt" => some lt
  | "and" => some and
  | "or" => some or
  | "not" => some not
  | _ => none

@[simp] theorem ofWord?_word (op : ArithOp) : ofWord? op.word = some op := by
  cases op <;> rfl

/-- Number of stack values that an operation consumes. -/
def arity : ArithOp → Nat
  | neg => 1
  | not => 1
  | _ => 2

end ArithOp

/-- What the first word of a command says. -/
inductive Verb where
  | arith (op : ArithOp)
  | push
  | pop
  | label
  | goto
  | ifGoto
  | function
  | call
  | ret
  deriving DecidableEq, Repr, Inhabited

namespace Verb

def word : Verb → String
  | arith op => op.word
  | push => "push"
  | pop => "pop"
  | label => "label"
  | goto => "goto"
  | ifGoto => "if-goto"
  | function => "function"
  | call => "call"
  | ret => "return"

def ofWord? : String → Option Verb
  | "push" => some push
  | "pop" => some pop
  | "label" => some label
  | "goto" => some goto
  | "if-goto" => some ifGoto
  | "function" => some function
  | "call" => some call
  | "return" => some ret
  | other => (ArithOp.ofWord? other).map arith

@[simp] theorem ofWord?_word (verb : Verb) : ofWord? verb.word = some verb := by
  cases verb with
  | arith op => cases op <;> rfl
  | _ => rfl

def operandCount : Verb → Nat
  | arith _ => 0
  | ret => 0
  | label => 1
  | goto => 1
  | ifGoto => 1
  | push => 2
  | pop => 2
  | function => 2
  | call => 2

end Verb

inductive Command where
  | arith (op : ArithOp)
  | push (segment : Segment) (index : UInt16)
  | pop (segment : Segment) (index : UInt16)
  | label (name : String)
  | goto (name : String)
  | ifGoto (name : String)
  | function (name : String) (locals : UInt16)
  | call (name : String) (args : UInt16)
  | ret
  deriving DecidableEq, Repr, Inhabited

namespace Command

def verb : Command → Verb
  | arith op => .arith op
  | push _ _ => .push
  | pop _ _ => .pop
  | label _ => .label
  | goto _ => .goto
  | ifGoto _ => .ifGoto
  | function _ _ => .function
  | call _ _ => .call
  | ret => .ret

def operands : Command → List String
  | arith _ => []
  | push segment index => [segment.word, index.toNat.repr]
  | pop segment index => [segment.word, index.toNat.repr]
  | label name => [name]
  | goto name => [name]
  | ifGoto name => [name]
  | function name locals => [name, locals.toNat.repr]
  | call name args => [name, args.toNat.repr]
  | ret => []

/-- The source text of a command: its words, one space between two. -/
def text (command : Command) : String :=
  " ".intercalate (command.verb.word :: command.operands)

/--
Change of the stack pointer that the code after a command sees.

A `call` is measured once the callee has returned.  A `return` leaves the
function, so that no code after it sees a change.
-/
def stackEffect : Command → Option Int
  | arith op => some (1 - op.arity)
  | push _ _ => some 1
  | pop _ _ => some (-1)
  | ifGoto _ => some (-1)
  | label _ => some 0
  | goto _ => some 0
  | function _ locals => some locals.toNat
  | call _ args => some (1 - args.toNat)
  | ret => none

/-- The name that a `label`, `goto` or `if-goto` carries. -/
def flowLabel? : Command → Option String
  | label name => some name
  | goto name => some name
  | ifGoto name => some name
  | _ => none

end Command

end StackVm
