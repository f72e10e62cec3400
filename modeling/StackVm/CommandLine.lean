import StackVm.CommandLine.Arguments
import StackVm.Execution
import StackVm.Input
import StackVm.Project
import StackVm.Source.Lint

/-!
# The command line

`build` compiles an input and writes the assembly, `check` only compiles it and
warns, and `run` compiles, assembles and runs it.  What is said about the work
comes back as notices; what is asked for comes back as output.
-/

namespace StackVm

namespace CommandLine

inductive Notice where
  /-- The work cannot go on. -/
  | failure (message : String)
  /-- A diagnostic about a source file. -/
  | diagnostic (file : Path) (found : Diagnostic)
  /-- An input was compiled without output. -/
  | accepted (input : Path) (commands : Nat)
  /-- Assembly was written. -/
  | written (units commands : Nat) (bootstrap : Bool) (output : Path)
  /-- A program came to its end. -/
  | halted (cycles : Nat)
  /-- A program was stopped before its end. -/
  | stopped (cycles : Nat)
  deriving DecidableEq, Repr

def severityWord : Severity → String
  | .error => "Error"
  | .warning => "Warning"

def Notice.text : Notice → String
  | failure message => s!"error: {message}"
  | diagnostic _ found => s!"{severityWord found.severity}: {found.message}"
  | accepted input commands => s!"OK: {input.text} ({commands} commands)"
  | written units commands bootstrap output =>
      let remark := if bootstrap then ", bootstrap" else ""
      s!"Translated {units} unit{pluralEnding units} ({commands} commands{remark}) -> {output.text}"
  | halted cycles => s!"Halted after {cycles} cycles"
  | stopped cycles => s!"warning: stopped at the {cycles} cycle limit without halting"

/-- The lines about a diagnostic after its first: its place, its notes and its help. -/
def diagnosticDetails (file : Path) (found : Diagnostic) : List String :=
  s!"  --> {file.text}:{found.span.line}" ::
    (found.notes.map fun note => s!"  note: {note}") ++
    found.help.toList.map fun help => s!"  help: {help}"

def Notice.lines (notice : Notice) : List String :=
  match notice with
  | diagnostic file found => notice.text :: diagnosticDetails file found
  | _ => [notice.text]

structure Outcome where
  exitCode : Nat := 0
  output : String := ""
  notices : List Notice := []
  deriving DecidableEq, Repr

/-- The notice about an error; it is a diagnostic where the error's place is in the input. -/
def errorNotice (input : Input) (error : Error) : Notice :=
  match error.unit?.bind input.file?, error.span? with
  | some file, some span =>
      if span.isAbsent then .failure error.message
      else .diagnostic file.path error.diagnostic
  | _, _ => .failure error.message

/-- The settings of an invocation: those of the project, and the arguments on top. -/
def resolveOptions (arguments : Arguments) (project : Option Project) : Options :=
  let options := (project.map fun project => project.apply {}).getD {}
  { options with
    target := arguments.target.getD options.target
    bootstrap := arguments.bootstrap.getD options.bootstrap
    entry := arguments.entry.getD options.entry
    annotate := arguments.annotate || options.annotate }

/-- The warnings about the files of an input; a file that cannot be parsed has none. -/
def warnings (input : Input) : List Notice :=
  input.files.flatMap fun file =>
    match Source.lint file.unit.name file.unit.source with
    | .ok found => found.map (.diagnostic file.path ·)
    | .error _ => []

/-- The output about a finished run: the pointers, and the topmost values of the stack. -/
def executionText (execution : Execution) (rows : Nat) : String :=
  let cell (address : UInt16) := (execution.peek address).toNat
  let stackLine (entry : UInt16 × Nat) :=
    s!"[SP-{entry.2}] = {entry.1.toNat} ({signed entry.1})\n"
  s!"SP   = {execution.sp.toNat}\n" ++
    s!"LCL  = {cell 1}  ARG = {cell 2}  THIS = {cell 3}  THAT = {cell 4}\n" ++
    String.join (((execution.stackTop rows).zipIdx 1).map stackLine)

def defaultCycles : Nat := 1000000

/-- The runner of a compiled input; without the bootstrap the stack starts at its base. -/
def runnerFor (options : Options) (bootstrap : Bool) : Runner :=
  if bootstrap then { machine := options.machine }
  else ({ machine := options.machine } : Runner).preset 0 options.machine.stackBase

section

variable {m : Type → Type} [Monad m] [FileSystem m]

/-- Work that a notice may end. -/
abbrev Task (m : Type → Type) (α : Type) := ExceptT Notice m α

def orNotice {α : Type} (notice : Error → Notice) (work : ExceptT Error m α) : Task m α :=
  ExceptT.mk (do return (← work.run).mapError notice)

def plainNotice (error : Error) : Notice :=
  .failure error.message

/-- The directory in which the search for an input's project file starts. -/
def searchStart (input : Input) : Path :=
  if input.isDirectory then input.path else input.path.parent?.getD ⟨"."⟩

def findProject (input : Input) : Task m (Option Project) := do
  match ← (Project.find (searchStart input) : m (Option Path)) with
  | none => return none
  | some path => return some (← orNotice plainNotice (Project.load path))

def build (input : Input) (project : Option Project) (options : Options) (arguments : Arguments) :
    Task m Outcome := do
  let compilation ← orNotice (errorNotice input) (input.compile options)
  let chosen := arguments.output <|> project.bind Project.outputPath?
  let compilation := { compilation with output := chosen.getD compilation.output }
  orNotice plainNotice compilation.write
  return { notices := [.written compilation.units.length compilation.commands
    compilation.bootstrap compilation.output] }

def check (input : Input) (options : Options) : Task m Outcome := do
  let commands ← orNotice (errorNotice input) (ExceptT.mk (pure (input.check options)))
  return { notices := warnings input ++ [.accepted input.path commands] }

def run (input : Input) (options : Options) (arguments : Arguments) : Task m Outcome := do
  let compilation ← orNotice (errorNotice input) (input.compile options)
  let budget := arguments.cycles.getD defaultCycles
  match (runnerFor options compilation.bootstrap).run compilation.asm budget with
  | .error fault => throw (.failure fault.message)
  | .ok execution =>
      let notice := if execution.halted then Notice.halted execution.cycles
        else Notice.stopped execution.cycles
      return { output := executionText execution (arguments.rows.getD 1), notices := [notice] }

def act (action : Action) (path : Path) (arguments : Arguments) : Task m Outcome := do
  let input ← orNotice plainNotice (Input.discover path)
  let project ← findProject input
  let options := resolveOptions arguments project
  match action with
  | .build => build input project options arguments
  | .check => check input options
  | .run => run input options arguments

def versionText : String := "vmlower 0.1.0\n"

def helpText : String :=
  "Usage: vmlower <COMMAND> [OPTIONS] <INPUT>\n\n" ++
  "Commands:\n" ++
  "  build  Compile a .vm file or directory to assembly\n" ++
  "  check  Parse and lower without writing output\n" ++
  "  run    Compile, assemble and simulate, then print the stack\n\n" ++
  "Options:\n" ++
  "  -o, --output <FILE>    Output file (build)\n" ++
  "      --cycles <N>       Stop after this many instructions (run)\n" ++
  "      --show <N>         Number of stack cells to print (run)\n" ++
  "      --bootstrap <WHEN> auto, always or never\n" ++
  "      --entry <NAME>     Function the bootstrap jumps to\n" ++
  "      --annotate         Write each command as a comment above its assembly\n" ++
  "      --target <NAME>    Target machine\n"

def perform (invocation : Invocation) : m Outcome := do
  match invocation with
  | .version => return { output := versionText }
  | .help => return { output := helpText }
  | .act action input arguments =>
      match ← (act action input arguments : Task m Outcome).run with
      | .ok outcome => return outcome
      | .error notice => return { exitCode := 1, notices := [notice] }

/-- Carry out a command line; a usage error has an exit code of its own. -/
def respond (arguments : List String) : m Outcome :=
  match Invocation.read? arguments with
  | none => return { exitCode := 2 }
  | some invocation => perform invocation

end

end CommandLine

end StackVm
