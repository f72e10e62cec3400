import StackVm.Text.Line

/-!
# Paths

A path is kept as it was written.  Its names are what stands between slashes;
empty pieces count for nothing, and neither does `.` past the start.  Taking a
path apart by names never changes how the rest of it is written.
-/

namespace StackVm

def slashPieces (text : List Char) : List (List Char) :=
  Text.pieces (· == '/') text

def joinPieces (pieces : List (List Char)) : List Char :=
  List.intercalate ['/'] pieces

structure Path where
  text : String
  deriving DecidableEq, Repr, Inhabited

namespace Path

def isAbsolute (path : Path) : Bool :=
  path.text.toList.head? == some '/'

def endsInSlash (path : Path) : Bool :=
  path.text.toList.getLast? == some '/'

/-- How a path starts, `/` or `.` or with a name, and the pieces after that. -/
def parts (path : Path) : List Char × List (List Char) :=
  match path.text.toList with
  | '/' :: rest => (['/'], slashPieces rest)
  | ['.'] => (['.'], [])
  | '.' :: '/' :: rest => (['.'], slashPieces ('/' :: rest))
  | text => ([], slashPieces text)

/-- Whether a piece counts for nothing. -/
def isIdle (piece : List Char) : Bool :=
  piece == [] || piece == ['.']

/-- Drop the pieces at the end that count for nothing. -/
def dropIdle (pieces : List (List Char)) : List (List Char) :=
  (pieces.reverse.dropWhile isIdle).reverse

def ofParts (start : List Char) (pieces : List (List Char)) : Path :=
  ⟨String.ofList (start ++ joinPieces pieces)⟩

/-- The last name of a path, unless it is `..` or there is none. -/
def fileName? (path : Path) : Option (List Char) :=
  match (dropIdle path.parts.2).getLast? with
  | none => none
  | some name => if name = ['.', '.'] then none else some name

/-- The path without its last name; `.` alone lies in the empty path. -/
def parent? (path : Path) : Option Path :=
  match path.parts with
  | (start, pieces) =>
      match dropIdle pieces with
      | [] => if start = ['.'] then some ⟨""⟩ else none
      | named => some (ofParts start (dropIdle named.dropLast))

/-- A path, its parent, that one's parent, and so on, `fuel` at most. -/
def ancestorsWithin : Nat → Path → List Path
  | 0, _ => []
  | fuel + 1, path =>
      path :: (match path.parent? with
        | none => []
        | some parent => ancestorsWithin fuel parent)

/-- A path and everything above it, by names; a parent is shorter than its path. -/
def ancestors (path : Path) : List Path :=
  ancestorsWithin (path.text.length + 1) path

/-- The path that leads on from one path by another; an absolute path stands for itself. -/
def join (base path : Path) : Path :=
  if path.isAbsolute || base.text.isEmpty then path
  else if base.endsInSlash then ⟨base.text ++ path.text⟩
  else ⟨base.text ++ "/" ++ path.text⟩

/-- A name without its extension, and the extension; a leading dot starts no extension. -/
def splitName (name : List Char) : List Char × Option (List Char) :=
  match name.reverse.dropWhile (· != '.') with
  | [] => (name, none)
  | [_] => (name, none)
  | _ :: stem => (stem.reverse, some (name.reverse.takeWhile (· != '.')).reverse)

def fileStem? (path : Path) : Option String :=
  path.fileName?.map fun name => String.ofList (splitName name).1

def extension? (path : Path) : Option String :=
  (path.fileName?.bind fun name => (splitName name).2).map String.ofList

/-- Put an extension after the stem of the last name; an empty one removes the dot too. -/
def setExtension (path : Path) (extension : String) : Path :=
  match path.fileStem? with
  | none => path
  | some stem =>
      let suffix := if extension.isEmpty then "" else "." ++ extension
      let named := dropIdle path.parts.2
      ofParts path.parts.1 (named.dropLast ++ [(stem ++ suffix).toList])

/-- Exchange the extension: the old one is cut off the text, then the new one is set. -/
def withExtension (path : Path) (extension : String) : Path :=
  match path.extension? with
  | none => path.setExtension extension
  | some old =>
      let kept := path.text.toList.take (path.text.length - old.length)
      setExtension ⟨String.ofList kept⟩ extension

end Path

end StackVm
