/-!
# Assembly instructions

An instruction loads an address or computes a value.  This module holds the
parts of an instruction, the text that spells them, and the bits that encode
them.
-/

namespace StackVm

namespace Asm

/-- What the second input of the arithmetic unit is taken from. -/
inductive Operand where
  /-- The address register. -/
  | a
  /-- The memory cell that the address register names. -/
  | m
  deriving DecidableEq, Repr, Inhabited

/-- What an instruction computes from the data register and its operand. -/
inductive Comp where
  | zero
  | one
  | minusOne
  | d
  | notD
  | negD
  | succD
  | predD
  | it (y : Operand)
  | not (y : Operand)
  | neg (y : Operand)
  | succ (y : Operand)
  | pred (y : Operand)
  /-- The data register plus the operand. -/
  | add (y : Operand)
  /-- The data register minus the operand. -/
  | sub (y : Operand)
  /-- The operand minus the data register. -/
  | subD (y : Operand)
  | and (y : Operand)
  | or (y : Operand)
  deriving DecidableEq, Repr, Inhabited

namespace Comp

def text : Comp → String
  | zero => "0"
  | one => "1"
  | minusOne => "-1"
  | d => "D"
  | notD => "!D"
  | negD => "-D"
  | succD => "D+1"
  | predD => "D-1"
  | it .a => "A"
  | it .m => "M"
  | not .a => "!A"
  | not .m => "!M"
  | neg .a => "-A"
  | neg .m => "-M"
  | succ .a => "A+1"
  | succ .m => "M+1"
  | pred .a => "A-1"
  | pred .m => "M-1"
  | add .a => "D+A"
  | add .m => "D+M"
  | sub .a => "D-A"
  | sub .m => "D-M"
  | subD .a => "A-D"
  | subD .m => "M-D"
  | and .a => "D&A"
  | and .m => "D&M"
  | or .a => "D|A"
  | or .m => "D|M"

/-- The computation that a text spells; sums, `&` and `|` may be spelled either way round. -/
def ofText? : String → Option Comp
  | "0" => some zero
  | "1" => some one
  | "-1" => some minusOne
  | "D" => some d
  | "!D" => some notD
  | "-D" => some negD
  | "D+1" => some succD
  | "1+D" => some succD
  | "D-1" => some predD
  | "A" => some (it .a)
  | "M" => some (it .m)
  | "!A" => some (not .a)
  | "!M" => some (not .m)
  | "-A" => some (neg .a)
  | "-M" => some (neg .m)
  | "A+1" => some (succ .a)
  | "1+A" => some (succ .a)
  | "M+1" => some (succ .m)
  | "1+M" => some (succ .m)
  | "A-1" => some (pred .a)
  | "M-1" => some (pred .m)
  | "D+A" => some (add .a)
  | "A+D" => some (add .a)
  | "D+M" => some (add .m)
  | "M+D" => some (add .m)
  | "D-A" => some (sub .a)
  | "D-M" => some (sub .m)
  | "A-D" => some (subD .a)
  | "M-D" => some (subD .m)
  | "D&A" => some (and .a)
  | "A&D" => some (and .a)
  | "D&M" => some (and .m)
  | "M&D" => some (and .m)
  | "D|A" => some (or .a)
  | "A|D" => some (or .a)
  | "D|M" => some (or .m)
  | "M|D" => some (or .m)
  | _ => none

@[simp] theorem ofText?_text (comp : Comp) : ofText? comp.text = some comp := by
  cases comp with
  | it y => cases y <;> rfl
  | not y => cases y <;> rfl
  | neg y => cases y <;> rfl
  | succ y => cases y <;> rfl
  | pred y => cases y <;> rfl
  | add y => cases y <;> rfl
  | sub y => cases y <;> rfl
  | subD y => cases y <;> rfl
  | and y => cases y <;> rfl
  | or y => cases y <;> rfl
  | _ => rfl

def operand? : Comp → Option Operand
  | it y => some y
  | not y => some y
  | neg y => some y
  | succ y => some y
  | pred y => some y
  | add y => some y
  | sub y => some y
  | subD y => some y
  | and y => some y
  | or y => some y
  | _ => none

/-- The six control bits of the arithmetic unit. -/
def control : Comp → UInt16
  | zero => 0b101010
  | one => 0b111111
  | minusOne => 0b111010
  | d => 0b001100
  | notD => 0b001101
  | negD => 0b001111
  | succD => 0b011111
  | predD => 0b001110
  | it _ => 0b110000
  | not _ => 0b110001
  | neg _ => 0b110011
  | succ _ => 0b110111
  | pred _ => 0b110010
  | add _ => 0b000010
  | sub _ => 0b010011
  | subD _ => 0b000111
  | and _ => 0b000000
  | or _ => 0b010101

/-- The bits of a computation: one that selects memory, then the control bits. -/
def bits (comp : Comp) : UInt16 :=
  if comp.operand? = some .m then 0b1000000 ||| comp.control else comp.control

end Comp

/-- The places that receive a computed value. -/
structure Dest where
  a : Bool := false
  d : Bool := false
  m : Bool := false
  deriving DecidableEq, Repr, Inhabited

namespace Dest

def text (dest : Dest) : String :=
  (if dest.a then "A" else "") ++ (if dest.d then "D" else "") ++ (if dest.m then "M" else "")

/-- Add the place that a letter names, unless it is there already. -/
def insert? (dest : Dest) : Char → Option Dest
  | 'A' => if dest.a then none else some { dest with a := true }
  | 'D' => if dest.d then none else some { dest with d := true }
  | 'M' => if dest.m then none else some { dest with m := true }
  | _ => none

/-- The destination that letters name, each at most once and in any order. -/
def ofText? (text : String) : Option Dest :=
  text.toList.foldlM insert? {}

def bits (dest : Dest) : UInt16 :=
  (if dest.a then 0b100 else 0) ||| (if dest.d then 0b010 else 0) |||
    (if dest.m then 0b001 else 0)

end Dest

/-- When an instruction jumps, by the sign of the computed value. -/
inductive Jump where
  | never
  | gt
  | eq
  | ge
  | lt
  | ne
  | le
  | always
  deriving DecidableEq, Repr, Inhabited

namespace Jump

def text : Jump → String
  | never => ""
  | gt => "JGT"
  | eq => "JEQ"
  | ge => "JGE"
  | lt => "JLT"
  | ne => "JNE"
  | le => "JLE"
  | always => "JMP"

def ofText? : String → Option Jump
  | "" => some never
  | "JGT" => some gt
  | "JEQ" => some eq
  | "JGE" => some ge
  | "JLT" => some lt
  | "JNE" => some ne
  | "JLE" => some le
  | "JMP" => some always
  | _ => none

@[simp] theorem ofText?_text (jump : Jump) : ofText? jump.text = some jump := by
  cases jump <;> rfl

/-- The bits of a jump condition: negative, zero, positive. -/
def bits : Jump → UInt16
  | never => 0b000
  | gt => 0b001
  | eq => 0b010
  | ge => 0b011
  | lt => 0b100
  | ne => 0b101
  | le => 0b110
  | always => 0b111

end Jump

inductive Address where
  | constant (value : UInt16)
  | symbol (name : String)
  deriving DecidableEq, Repr

def Address.text : Address → String
  | .constant value => value.toNat.repr
  | .symbol name => name

inductive Instruction where
  | load (address : Address)
  | compute (dest : Dest) (comp : Comp) (jump : Jump)
  deriving DecidableEq, Repr

namespace Instruction

def text : Instruction → String
  | load address => "@" ++ address.text
  | compute dest comp jump =>
      (if dest = {} then "" else dest.text ++ "=") ++ comp.text ++
        (if jump = .never then "" else ";" ++ jump.text)

def symbol? : Instruction → Option String
  | load (.symbol name) => some name
  | _ => none

def word (resolve : String → UInt16) : Instruction → UInt16
  | load (.constant value) => value
  | load (.symbol name) => resolve name
  | compute dest comp jump =>
      (0xe000 : UInt16) ||| (comp.bits <<< 6) ||| (dest.bits <<< 3) ||| jump.bits

end Instruction

inductive Line where
  | comment (text : String)
  | label (name : String)
  | code (instruction : Instruction)
  deriving DecidableEq, Repr

/-- The text of a line, without its newline. -/
def Line.text : Line → String
  | .comment text => "// " ++ text
  | .label name => "(" ++ name ++ ")"
  | .code instruction => instruction.text

end Asm

end StackVm
