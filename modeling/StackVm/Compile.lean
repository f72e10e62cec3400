import StackVm.Session
import StackVm.Source.Parse

/-!
# Compiling programs

A program is a list of source units.  Its commands are parsed and lowered in
order through one session, so that the first error in source order ends the
work.
-/

namespace StackVm

structure SourceUnit where
  name : String
  source : String
  deriving DecidableEq, Repr

namespace Session

variable {σ : Type} [Sink σ]

/-- Lower an item of a source text, or stop at its fault. -/
def item : Source.Item → Work σ Unit
  | .ok command => Session.command command
  | .error error => throw error

def source (unit : SourceUnit) : Work σ Unit := do
  setUnit unit.name
  (Source.items unit.name unit.source).forM item

def opening (bootstrap : Bool) (entry : String) : Work σ Unit :=
  if bootstrap then Session.bootstrap entry else return

end Session

/-- Compile units into a sink: the sink, and the number of commands. -/
def drive {σ : Type} [Sink σ] (sink : σ) (options : Options) (bootstrap : Bool)
    (units : List SourceUnit) : Except Error (σ × Nat) := do
  let session ← Session.start options sink
  let session ← session.after do
    Session.opening bootstrap options.entry
    units.forM Session.source
  let sink ← session.finish
  return (sink, session.commands)

/-- Compile units to a text: the text, and the number of commands. -/
def compileWith (options : Options) (bootstrap : Bool) (units : List SourceUnit) :
    Except Error (String × Nat) := do
  let (store, commands) ← drive ({} : Store) options bootstrap units
  return (store.text, commands)

def compileUnits (options : Options) (units : List SourceUnit) : Except Error String :=
  Prod.fst <$> compileWith options (options.bootstrap.enabled true) units

/-- Compile one unit, without the bootstrap. -/
def compileUnit (unit : SourceUnit) : Except Error String :=
  compileUnits { bootstrap := .never } [unit]

def checkUnits (options : Options) (bootstrap : Bool) (units : List SourceUnit) :
    Except Error Nat :=
  Prod.snd <$> drive ({} : Discard) options bootstrap units

end StackVm
