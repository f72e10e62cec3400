import StackVm.Files.FileSystem

/-!
# File trees

A file tree is a file system as a value.  Every directory and file is recorded
under the names that lead to it from the root.  Paths are followed name by
name: only a directory can be passed through, `.` stays where it is, and `..`
goes up.

An entry is what a name leads to.  Symbolic links are followed, so a link is
recorded as the directory or the file at its end.  Devices, pipes and sockets
are no files, and a tree has none of them.
-/

namespace StackVm

/-- A directory, or a file with its bytes. -/
inductive Entry where
  | directory
  | file (content : ByteArray)

namespace Entry

def kind : Entry → EntryKind
  | directory => .directory
  | file _ => .file

def isDirectory : Entry → Bool
  | directory => true
  | file _ => false

end Entry

/-- The entries below the root, by the names that lead to them, and the working directory. -/
structure FileTree where
  entries : List (List String × Entry)
  workingDirectory : List String

namespace FileTree

/-- A tree with nothing but an empty working directory below the root. -/
def fresh (name : String) : FileTree where
  entries := [([name], .directory)]
  workingDirectory := [name]

/-- The entry under given names; no names lead to the root. -/
def entry? (tree : FileTree) (names : List String) : Option Entry :=
  if names = [] then some .directory else tree.entries.lookup names

def hasDirectory (tree : FileTree) (names : List String) : Bool :=
  (tree.entry? names).any Entry.isDirectory

/-- Record an entry; one under the same names is replaced. -/
def insert (tree : FileTree) (names : List String) (entry : Entry) : FileTree :=
  if (tree.entries.lookup names).isSome then
    { tree with
      entries := tree.entries.map fun old => if old.1 = names then (names, entry) else old }
  else
    { tree with entries := tree.entries ++ [(names, entry)] }

/-- The longest name, in bytes. -/
def maxName : Nat := 255

/-- The longest path, in bytes. -/
def maxPath : Nat := 4095

def isTooLong (name : String) : Bool :=
  maxName < name.utf8ByteSize

def follow (tree : FileTree) (place : List String) (name : String) :
    Except IoFault (List String) :=
  if !tree.hasDirectory place then .error .notADirectory
  else if name = "." then .ok place
  else if name = ".." then .ok place.dropLast
  else if isTooLong name then .error .nameTooLong
  else if (tree.entry? (place ++ [name])).isSome then .ok (place ++ [name])
  else .error .notFound

def followAll (tree : FileTree) (place : List String) :
    List String → Except IoFault (List String)
  | [] => .ok place
  | name :: rest => do tree.followAll (← tree.follow place name) rest

def startOf (tree : FileTree) (path : Path) : List String :=
  if path.isAbsolute then [] else tree.workingDirectory

/-- The names in a path that can be followed. -/
def namesOf (path : Path) : Except IoFault (List String) :=
  if path.text.toList.contains '\x00' then .error .nulInPath
  else if path.text.isEmpty then .error .notFound
  else if maxPath < path.text.utf8ByteSize then .error .nameTooLong
  else .ok (((slashPieces path.text.toList).filter (· != [])).map String.ofList)

/-- The names from the root to the entry that a path leads to, and that entry. -/
def resolve (tree : FileTree) (path : Path) : Except IoFault (List String × Entry) := do
  let place ← tree.followAll (tree.startOf path) (← namesOf path)
  match tree.entry? place with
  | none => .error .notFound
  | some entry =>
      if path.endsInSlash && !entry.isDirectory then .error .notADirectory
      else .ok (place, entry)

/-- The directory in which a path's last name lies, and that name if it can name a new entry. -/
def resolveNew (tree : FileTree) (path : Path) :
    Except IoFault (List String × Option String) := do
  let names ← namesOf path
  let directory ← tree.followAll (tree.startOf path) names.dropLast
  if !tree.hasDirectory directory then .error .notADirectory
  else
    match names.getLast? with
    | none => .ok (directory, none)
    | some name =>
        if name = "." ∨ name = ".." then .ok (directory, none)
        else .ok (directory, some name)

def kind (tree : FileTree) (path : Path) : Except IoFault EntryKind :=
  (tree.resolve path).map fun found => found.2.kind

def read (tree : FileTree) (path : Path) : Except IoFault String := do
  match ← tree.resolve path with
  | (_, .directory) => .error .isADirectory
  | (_, .file content) =>
      match String.fromUTF8? content with
      | some text => .ok text
      | none => .error .notText

/-- The last name, if names are a directory's names and one more. -/
def childName? (directory names : List String) : Option String :=
  if names.dropLast = directory then names.getLast? else none

def list (tree : FileTree) (path : Path) : Except IoFault (List String) := do
  match ← tree.resolve path with
  | (_, .file _) => .error .notADirectory
  | (place, .directory) =>
      .ok (tree.entries.filterMap fun entry => childName? place entry.1)

def makeDirectory (tree : FileTree) (path : Path) : Except IoFault FileTree := do
  match ← tree.resolveNew path with
  | (_, none) => .error .alreadyExists
  | (directory, some name) =>
      if isTooLong name then .error .nameTooLong
      else if (tree.entry? (directory ++ [name])).isSome then .error .alreadyExists
      else .ok (tree.insert (directory ++ [name]) .directory)

/-- Write a file; a path that ends in a slash is refused before its last name is looked at. -/
def write (tree : FileTree) (path : Path) (content : ByteArray) : Except IoFault FileTree := do
  match ← tree.resolveNew path with
  | (_, none) => .error .isADirectory
  | (directory, some name) =>
      if path.endsInSlash || tree.hasDirectory (directory ++ [name]) then .error .isADirectory
      else if isTooLong name then .error .nameTooLong
      else .ok (tree.insert (directory ++ [name]) (.file content))

/-- The last name of the place that a path leads to. -/
def rootedName? (tree : FileTree) (path : Path) : Option String :=
  match tree.resolve path with
  | .ok (place, _) => place.getLast?
  | .error _ => none

/-- Take over a changed tree, or keep the tree and give the reason. -/
def update (change : FileTree → Except IoFault FileTree) : StateM FileTree (Except IoFault Unit) :=
  fun tree =>
    match change tree with
    | .ok next => (.ok (), next)
    | .error fault => (.error fault, tree)

instance : FileSystem (StateM FileTree) where
  kind path := fun tree => (tree.kind path, tree)
  read path := fun tree => (tree.read path, tree)
  list path := fun tree => (tree.list path, tree)
  makeDirectory path := update fun tree => tree.makeDirectory path
  write path text := update fun tree => tree.write path text.toUTF8
  rootedName? path := fun tree => (tree.rootedName? path, tree)

end FileTree

end StackVm
