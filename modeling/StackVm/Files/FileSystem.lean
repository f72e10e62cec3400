import StackVm.Error
import StackVm.Files.Path

/-!
# File systems

What the program asks of files and directories.  The operations may fail; the
reason then comes back as a value.
-/

namespace StackVm

inductive EntryKind where
  | file
  | directory
  /-- A device, a pipe or a socket. -/
  | other
  deriving DecidableEq, Repr

/-- Access to files, in a monad of the caller's choice. -/
class FileSystem (m : Type → Type) where
  /-- What a path leads to; links are followed. -/
  kind : Path → m (Except IoFault EntryKind)
  /-- The text of a file. -/
  read : Path → m (Except IoFault String)
  /-- The names in a directory, in no particular order. -/
  list : Path → m (Except IoFault (List String))
  /-- Make a directory in a directory that is there. -/
  makeDirectory : Path → m (Except IoFault Unit)
  /-- Write a file, new or not, in a directory that is there. -/
  write : Path → String → m (Except IoFault Unit)
  /-- The last name of the path from the root that a path stands for. -/
  rootedName? : Path → m (Option String)

namespace FileSystem

variable {m : Type → Type} [Monad m] [FileSystem m]

/-- Use a file; a failure becomes an error that names the path. -/
def access {α : Type} (path : Path) (use : m (Except IoFault α)) : ExceptT Error m α := do
  match ← use with
  | .ok value => return value
  | .error fault => throw (.io path.text fault)

def isThere (path : Path) : m Bool := do
  return (← kind path).isOk

def isFile (path : Path) : m Bool := do
  match ← kind path with
  | .ok .file => return true
  | _ => return false

def isDirectory (path : Path) : m Bool := do
  match ← kind path with
  | .ok .directory => return true
  | _ => return false

/-- Make a directory unless it is there. -/
def ensureDirectory (path : Path) : m (Except IoFault Unit) := do
  match ← makeDirectory path with
  | .ok () => return .ok ()
  | .error fault => if ← isDirectory path then return .ok () else return .error fault

/--
Make a directory and the directories above it that are missing.

The paths go from the directory itself to the one furthest above it.
-/
def ensureChain : List Path → m (Except IoFault Unit)
  | [] => return .ok ()
  | path :: above => do
      match ← ensureDirectory path with
      | .error .notFound =>
          match ← ensureChain above with
          | .error fault => return .error fault
          | .ok () => ensureDirectory path
      | result => return result

def ensureDirectories (path : Path) : m (Except IoFault Unit) :=
  ensureChain (path.ancestors.filter fun path => !path.text.isEmpty)

end FileSystem

end StackVm
