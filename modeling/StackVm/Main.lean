import StackVm.CommandLine

/-!
# The program

Connects the command line to the files, the arguments and the standard streams
of the process.
-/

namespace StackVm

namespace Host

/-- The fault that a failed operation stands for. -/
def faultOf : IO.Error → IoFault
  | .noFileOrDirectory _ _ _ => .notFound
  | .alreadyExists _ _ _ => .alreadyExists
  | .inappropriateType _ 21 _ => .isADirectory
  | .inappropriateType _ _ _ => .notADirectory
  | .invalidArgument _ 36 _ => .nameTooLong
  | error => .system error.toString

/-- Carry out an operation and give its fault as a value. -/
def attempt {α : Type} (operation : IO α) : IO (Except IoFault α) := do
  try
    return .ok (← operation)
  catch error =>
    return .error (faultOf error)

/-- Carry out an operation on a path, unless the path is empty. -/
def attemptOn {α : Type} (path : Path) (operation : IO α) : IO (Except IoFault α) :=
  if path.text.isEmpty then return .error .notFound else attempt operation

def kind (path : Path) : IO (Except IoFault EntryKind) :=
  attemptOn path do
    let found ← ((← IO.currentDir) / path.text).metadata
    match found.type with
    | .dir => return .directory
    | .file => return .file
    | _ => return .other

def read (path : Path) : IO (Except IoFault String) := do
  match ← attemptOn path (IO.FS.readBinFile path.text) with
  | .error fault => return .error fault
  | .ok content =>
      match String.fromUTF8? content with
      | some text => return .ok text
      | none => return .error .notText

def list (path : Path) : IO (Except IoFault (List String)) :=
  attemptOn path do
    let entries ← ((← IO.currentDir) / path.text).readDir
    return (entries.map fun entry => entry.fileName).toList

/-- The last name of the path from the root that a path stands for. -/
def rootedName? (path : Path) : IO (Option String) := do
  match ← attempt (IO.FS.realPath path.text) with
  | .ok full => return full.fileName
  | .error _ => return none

instance : FileSystem IO where
  kind := kind
  read := read
  list := list
  makeDirectory path := attemptOn path (IO.FS.createDir path.text)
  write path text := attemptOn path (IO.FS.writeFile path.text text)
  rootedName? := rootedName?

end Host

end StackVm

open StackVm in
def main (arguments : List String) : IO UInt32 := do
  let outcome ← CommandLine.respond arguments
  for notice in outcome.notices do
    notice.lines.forM IO.eprintln
  if outcome.exitCode = 2 then
    IO.eprint CommandLine.helpText
  IO.print outcome.output
  return outcome.exitCode.toUInt32
