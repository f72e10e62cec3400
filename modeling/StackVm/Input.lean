import StackVm.Compile
import StackVm.Files.FileSystem

/-!
# Inputs and outputs

An input is a source file, or a directory with the source files directly in
it, in the order of their names.  A compilation knows its assembly and where
that goes.
-/

namespace StackVm

/-- A source unit and the file that it was read from. -/
structure SourceFile where
  path : Path
  unit : SourceUnit
  deriving DecidableEq, Repr

/-- The source units behind a path. -/
structure Input where
  path : Path
  files : List SourceFile
  isDirectory : Bool
  deriving DecidableEq, Repr

structure Compilation where
  output : Path
  asm : String
  /-- The names of the units in order. -/
  units : List String
  /-- Whether the assembly starts with the bootstrap. -/
  bootstrap : Bool
  /-- Number of commands. -/
  commands : Nat
  deriving DecidableEq, Repr

namespace Input

def units (input : Input) : List SourceUnit :=
  input.files.map SourceFile.unit

/-- The first file whose unit has a given name. -/
def file? (input : Input) (name : String) : Option SourceFile :=
  input.files.find? fun file => file.unit.name == name

def isSource (path : Path) : Bool :=
  path.extension? == some sourceExtension

def insertName (name : String) : List String → List String
  | [] => [name]
  | other :: rest =>
      if name ≤ other then name :: other :: rest else other :: insertName name rest

/-- Names in the order of their characters, which is also that of their bytes. -/
def sortNames (names : List String) : List String :=
  names.foldr insertName []

/-- Parse and lower an input without output: the number of commands. -/
def check (input : Input) (options : Options) : Except Error Nat :=
  checkUnits options (options.bootstrap.enabled input.isDirectory) input.units

section

variable {m : Type → Type} [Monad m] [FileSystem m]

/-- Read a source file; its unit is named after the file. -/
def load (path : Path) : ExceptT Error m SourceFile := do
  let source ← FileSystem.access path (FileSystem.read path)
  return { path, unit := { name := path.fileStem?.getD "", source } }

/-- The source files among the names in a directory, in the order of their names. -/
def sourceFiles (directory : Path) (names : List String) : m (List Path) := do
  let paths := (sortNames names).map fun name => directory.join ⟨name⟩
  (paths.filter isSource).filterM FileSystem.isFile

/-- The input that one source file makes. -/
def discoverFile (path : Path) : ExceptT Error m Input := do
  if isSource path then
    return { path, files := [← load path], isDirectory := false }
  else
    throw (.io path.text .notASource)

def discover (path : Path) : ExceptT Error m Input := do
  match ← FileSystem.access path (FileSystem.kind path) with
  | .file => discoverFile path
  | .other => discoverFile path
  | .directory =>
      let names ← FileSystem.access path (FileSystem.list path)
      let sources ← (sourceFiles path names : m (List Path))
      if sources.isEmpty then
        throw (.io path.text .noSources)
      else
        return { path, files := ← sources.mapM load, isDirectory := true }

/-- The name of an input directory, however it is written. -/
def directoryName (input : Input) : m String := do
  match input.path.fileName? with
  | some name => return String.ofList name
  | none => return (← FileSystem.rootedName? input.path).getD "out"

/-- Where output goes by default: beside a file, or into a directory under its name. -/
def defaultOutput (input : Input) (extension : String) : m Path := do
  if input.isDirectory then
    return input.path.join ⟨(← input.directoryName) ++ "." ++ extension⟩
  else
    return input.path.withExtension extension

def compile (input : Input) (options : Options) : ExceptT Error m Compilation := do
  let bootstrap := options.bootstrap.enabled input.isDirectory
  let (asm, commands) ← liftExcept (compileWith options bootstrap input.units)
  return {
    output := ← (input.defaultOutput options.machine.outputExtension : m Path)
    asm
    units := input.units.map SourceUnit.name
    bootstrap
    commands }
where
  /-- A result without effects. -/
  liftExcept {α : Type} (result : Except Error α) : ExceptT Error m α :=
    ExceptT.mk (pure result)

end

end Input

namespace Compilation

variable {m : Type → Type} [Monad m] [FileSystem m]

/-- Write the assembly to its place; missing directories above it are made. -/
def write (compilation : Compilation) : ExceptT Error m Unit := do
  let output := compilation.output
  match output.parent? with
  | none => pure ()
  | some parent => FileSystem.access output (FileSystem.ensureDirectories parent)
  FileSystem.access output (FileSystem.write output compilation.asm)

end Compilation

end StackVm
