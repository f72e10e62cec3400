import StackVm.Command
import StackVm.Span

/-!
# Errors and diagnostics

Every failure is a cause: what was refused, where, and for which reason.  The
wording of all messages is in this module.
-/

namespace StackVm

inductive SegmentFault where
  /-- No segment has this name. -/
  | unknownName
  /-- The index passes the end of a segment of fixed size. -/
  | outOfRange (index size : UInt16)
  /-- The index is too large to load as an offset. -/
  | offsetTooLarge (index limit : UInt16)
  /-- The value is too large to load. -/
  | constantTooLarge (value limit : UInt16)
  /-- A value cannot be stored in a constant. -/
  | constantTarget
  deriving DecidableEq, Repr

inductive CommandFault where
  /-- The first word is no verb. -/
  | unknownVerb (word : String)
  /-- The verb takes another number of operands. -/
  | operandCount (word : String) (expected found : Nat)
  /-- The word has a character that is no digit. -/
  | notANumber (word : String)
  /-- The number does not fit in 16 bits. -/
  | numberTooLarge (word : String)
  /-- The word is no symbol. -/
  | invalidSymbol (word : String)
  /-- The arguments of a call do not fit below its frame. -/
  | tooManyArguments (function : String) (args limit : UInt16)
  deriving DecidableEq, Repr

inductive IoFault where
  | notFound
  | alreadyExists
  | notADirectory
  | isADirectory
  | nameTooLong
  /-- The path holds a NUL character. -/
  | nulInPath
  /-- The file is not UTF-8 text. -/
  | notText
  /-- The path leads to a file that holds no source unit. -/
  | notASource
  /-- The directory holds no source unit. -/
  | noSources
  /-- The sink takes no more bytes. -/
  | full
  /-- Any other reason, in the words of the system. -/
  | system (text : String)
  deriving DecidableEq, Repr

inductive ConfigFault where
  /-- The line is no assignment. -/
  | expectedAssignment (line : Nat)
  | bootstrapValue (found : String)
  | annotateValue (found : String)
  | stackBaseValue (found : String)
  /-- The project's stack base leaves no room for the reserved cells. -/
  | noRoom (base reserve limit : UInt16)
  /-- The first stack pointer is too large to load. -/
  | stackPointerTooLarge (base reserve limit : UInt16)
  deriving DecidableEq, Repr

/-- Everything that can end the work on a program. -/
inductive Error where
  | invalidSegment (unit : String) (span : Span) (segment : String) (reason : SegmentFault)
  | malformedCommand (unit : String) (span : Span) (reason : CommandFault)
  | io (path : String) (reason : IoFault)
  | config (path : String) (reason : ConfigFault)
  | unknownTarget (name : String)
  deriving DecidableEq, Repr

/-- The file extension of source units, without its dot. -/
def sourceExtension : String := "vm"

def SegmentFault.message : SegmentFault → String
  | unknownName => "unknown segment name"
  | outOfRange index size =>
      s!"index {index.toNat} out of range, segment has {size.toNat} cells"
  | offsetTooLarge index limit =>
      s!"index {index.toNat} exceeds the largest loadable offset {limit.toNat}"
  | constantTooLarge value limit =>
      s!"constant {value.toNat} exceeds the largest loadable value {limit.toNat}"
  | constantTarget => "cannot pop into the constant segment"

/-- The ending of a noun that is counted. -/
def pluralEnding (count : Nat) : String :=
  if count = 1 then "" else "s"

def CommandFault.message : CommandFault → String
  | unknownVerb word => s!"unknown command '{word}'"
  | operandCount word expected found =>
      s!"'{word}' expects {expected} operand{pluralEnding expected}, found {found}"
  | notANumber word => s!"expected a non-negative integer, found '{word}'"
  | numberTooLarge word => s!"integer '{word}' does not fit in 16 bits"
  | invalidSymbol word => s!"invalid symbol '{word}'"
  | tooManyArguments function args limit =>
      s!"call {function} passes {args.toNat} arguments, at most {limit.toNat} fit below the frame"

def IoFault.message : IoFault → String
  | notFound => "No such file or directory (os error 2)"
  | alreadyExists => "File exists (os error 17)"
  | notADirectory => "Not a directory (os error 20)"
  | isADirectory => "Is a directory (os error 21)"
  | nameTooLong => "File name too long (os error 36)"
  | nulInPath => "file name contained an unexpected NUL byte"
  | notText => "stream did not contain valid UTF-8"
  | notASource => s!"expected a .{sourceExtension} file or a directory"
  | noSources => s!"no .{sourceExtension} files found"
  | full => "disk full"
  | system text => text

def ConfigFault.message : ConfigFault → String
  | expectedAssignment line => s!"line {line}: expected 'key = value'"
  | bootstrapValue found =>
      s!"bootstrap must be \"auto\", \"always\" or \"never\", found {found}"
  | annotateValue found => s!"annotate must be a boolean, found {found}"
  | stackBaseValue found => s!"stack_base must be an integer, found {found}"
  | noRoom base reserve limit =>
      s!"stack_base {base.toNat} leaves no room for {reserve.toNat} reserved cells below {limit.toNat}"
  | stackPointerTooLarge base reserve limit =>
      s!"stack_base {base.toNat} plus {reserve.toNat} reserved cells exceeds the largest loadable value {limit.toNat}"

inductive Severity where
  | error
  | warning
  deriving DecidableEq, Repr

/-- A message about a place in a source unit. -/
structure Diagnostic where
  severity : Severity
  message : String
  span : Span
  notes : List String := []
  help : Option String := none
  deriving DecidableEq, Repr

namespace Error

def unit? : Error → Option String
  | invalidSegment unit _ _ _ => some unit
  | malformedCommand unit _ _ => some unit
  | _ => none

def span? : Error → Option Span
  | invalidSegment _ span _ _ => some span
  | malformedCommand _ span _ => some span
  | _ => none

/-- The message without its place. -/
def headline : Error → String
  | invalidSegment _ _ segment reason => s!"invalid segment '{segment}': {reason.message}"
  | malformedCommand _ _ reason => s!"malformed command: {reason.message}"
  | io path reason => s!"cannot access '{path}': {reason.message}"
  | config path reason => s!"{path}: {reason.message}"
  | unknownTarget name => s!"unknown target '{name}'"

/-- The message, after the unit and the line where they are known. -/
def message (error : Error) : String :=
  match error.unit?, error.span? with
  | some unit, some span =>
      if span.isAbsent then s!"{unit}: {error.headline}"
      else s!"{unit}:{span.line}: {error.headline}"
  | _, _ => error.headline

def help? : Error → Option String
  | invalidSegment _ _ _ _ =>
      some ("segments are: " ++ ", ".intercalate (Segment.all.map Segment.word))
  | unknownTarget _ => some "the only supported target is 'hack'"
  | _ => none

def diagnostic (error : Error) : Diagnostic where
  severity := .error
  message := error.headline
  span := error.span?.getD Span.absent
  help := error.help?

end Error

end StackVm
