import StackVm.Files.FileSystem
import StackVm.Machine
import StackVm.Text.Blank
import StackVm.Text.Decimal
import StackVm.Text.Line

/-!
# Project files

A project file holds settings as lines `key = value` in sections, with `#`
comments.  Of two assignments to a key the later counts; sections and keys that
have no meaning are passed over.
-/

namespace StackVm

/-- The settings of a project file; each may be missing. -/
structure Project where
  name : Option String := none
  entry : Option String := none
  /-- Where output goes, seen from the project's directory. -/
  output : Option Path := none
  bootstrap : Option Bootstrap := none
  annotate : Option Bool := none
  target : Option String := none
  stackBase : Option UInt16 := none
  /-- The directory that holds the project file. -/
  directory : Path := ⟨""⟩
  deriving DecidableEq, Repr

namespace Project

def fileName : Path := ⟨"vmlower.toml"⟩

inductive Line where
  /-- A comment, or nothing. -/
  | blank
  /-- The start of a section. -/
  | heading (name : String)
  /-- A key, and a value as it is written. -/
  | assignment (key raw : String)
  | other
  deriving DecidableEq, Repr

/-- The characters ahead of the first `#` that stands outside of quotes, if there is one. -/
def beforeHash? (quoted : Bool) : List Char → Option (List Char)
  | [] => none
  | c :: rest =>
      if c = '#' ∧ quoted = false then some []
      else (beforeHash? (if c = '"' then !quoted else quoted) rest).map (c :: ·)

/-- Drop a comment outside of quotes, and the blanks ahead of it. -/
def dropComment (value : List Char) : List Char :=
  match beforeHash? false value with
  | some kept => Text.trimEnd kept
  | none => value

def unquote (cs : List Char) : List Char :=
  Text.trimBy (· == '"') cs

/-- Read a line that has no blanks at its ends and is neither empty nor a comment. -/
def readAssignment (line : List Char) : Line :=
  match line.dropWhile (· != '=') with
  | [] => .other
  | _ :: value =>
      let key := unquote (Text.trim (line.takeWhile (· != '=')))
      .assignment (String.ofList key) (String.ofList (dropComment (Text.trim value)))

def readLine (line : List Char) : Line :=
  match Text.trim line with
  | [] => .blank
  | '#' :: _ => .blank
  | '[' :: rest =>
      if rest.getLast? = some ']' then .heading (String.ofList (Text.trim rest.dropLast))
      else readAssignment ('[' :: rest)
  | text => readAssignment text

def plain (raw : String) : String :=
  String.ofList (unquote raw.toList)

def readBool? : String → Option Bool
  | "true" => some true
  | "false" => some false
  | _ => none

def orFault {α : Type} (fault : ConfigFault) : Option α → Except ConfigFault α
  | some value => .ok value
  | none => .error fault

def assign (project : Project) (part key raw : String) : Except ConfigFault Project :=
  let value := plain raw
  match part, key with
  | "project", "name" => .ok { project with name := some value }
  | "project", "entry" => .ok { project with entry := some value }
  | "project", "output" => .ok { project with output := some ⟨value⟩ }
  | "project", "target" => .ok { project with target := some value }
  | "project", "bootstrap" => do
      let policy ← orFault (.bootstrapValue raw) (Bootstrap.ofWord? value)
      return { project with bootstrap := some policy }
  | "project", "annotate" => do
      let annotate ← orFault (.annotateValue raw) (readBool? value)
      return { project with annotate := some annotate }
  | "machine", "stack_base" => do
      let base ← orFault (.stackBaseValue raw) (Text.readUnsigned? Text.maxWord value.toList)
      return { project with stackBase := some (UInt16.ofNat base) }
  | _, _ => .ok project

structure Reading where
  project : Project
  part : String := ""
  deriving Repr

/-- Take one more line into account; lines are numbered from one. -/
def Reading.add (reading : Reading) (line : List Char × Nat) : Except ConfigFault Reading :=
  match readLine line.1 with
  | .blank => .ok reading
  | .heading name => .ok { reading with part := name }
  | .other => .error (.expectedAssignment line.2)
  | .assignment key raw => do
      return { reading with project := ← reading.project.assign reading.part key raw }

/-- The machine that a project asks for, before its own settings. -/
def machine (project : Project) : Machine :=
  (project.target.bind Machine.named?).getD Machine.hack

/-- Refuse a stack base that leaves no room for the cells that the bootstrap reserves. -/
def checkStackBase (project : Project) : Except ConfigFault Project :=
  match project.stackBase with
  | none => .ok project
  | some base =>
      let machine := { project.machine with stackBase := base }
      if machine.initialSp?.isSome then .ok project
      else .error (.noRoom base machine.bootstrapReserve machine.maxConstant)

def parse (directory : Path) (text : String) : Except ConfigFault Project := do
  let reading ← ((Text.lines text.toList).zipIdx 1).foldlM Reading.add
    { project := { directory } }
  reading.project.checkStackBase

def outputPath? (project : Project) : Option Path :=
  project.output.map project.directory.join

/-- The settings, with those of a project on top. -/
def apply (project : Project) (options : Options) : Options :=
  let machine := (project.target.bind Machine.named?).getD options.machine
  { target := project.target.getD options.target
    machine := { machine with stackBase := project.stackBase.getD machine.stackBase }
    bootstrap := project.bootstrap.getD options.bootstrap
    entry := project.entry.getD options.entry
    annotate := project.annotate.getD options.annotate }

/-- The project files that a search looks for: in a directory, in its path's parent, and so on. -/
def candidates (start : Path) : List Path :=
  start.ancestors.map fun directory => directory.join fileName

section

variable {m : Type → Type} [Monad m] [FileSystem m]

def load (path : Path) : ExceptT Error m Project := do
  let text ← FileSystem.access path (FileSystem.read path)
  match parse (path.parent?.getD ⟨"."⟩) text with
  | .ok project => return project
  | .error fault => throw (.config path.text fault)

/-- The first project file on the way from a directory, by the names of its path. -/
def find (start : Path) : m (Option Path) :=
  (candidates start).findM? FileSystem.isThere

end

end Project

end StackVm
