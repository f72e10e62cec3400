import StackVm.Lowering
import StackVm.Output.Writer

/-!
# Sessions

A session lowers the commands of a program one by one and writes their code to
a sink.  The lines of an operation wait until all of it has been lowered.  The
first failure is final: every later operation fails with it at once, and so
does the end of the session.
-/

namespace StackVm

/-- A lowering, the writer for its code, and what has happened so far. -/
structure Session (σ : Type) where
  lowering : Lowering
  writer : Writer σ
  /-- Whether a comment names the command before its code. -/
  annotate : Bool := false
  /-- The sink's name in errors. -/
  sinkName : String := "<output>"
  /-- The first failure. -/
  failure : Option Error := none
  /-- Lines of the current operation that are not yet written. -/
  pending : Array Asm.Line := #[]
  /-- Number of commands lowered so far. -/
  commands : Nat := 0
  deriving Repr

namespace Session

variable {σ : Type} [Sink σ]

/-- An operation on a session.  A failure leaves the session as it is at that moment. -/
abbrev Work (σ : Type) := EStateM Error (Session σ)

def start (options : Options) (sink : σ) : Except Error (Session σ) := do
  let lowering ← Lowering.ofOptions options
  return { lowering, writer := { sink }, annotate := options.annotate }

def check : Work σ Unit := do
  match (← get).failure with
  | some error => throw error
  | none => return

def fail (error : Error) : Work σ Unit := do
  modify fun session => { session with failure := session.failure.or (some error) }
  throw error

def remark (text : String) : Work σ Unit :=
  modify fun session =>
    if session.annotate then { session with pending := session.pending.push (.comment text) }
    else session

/-- Let the lowering put out lines behind the pending ones; if it fails, all of them are dropped. -/
def lower (work : Emitter.Work Unit) : Work σ Unit := do
  let session ← get
  match work ⟨session.lowering, session.pending⟩ with
  | .ok _ after =>
      modify fun session => { session with lowering := after.lowering, pending := after.out }
  | .error error after =>
      modify fun session => { session with lowering := after.lowering, pending := #[] }
      fail error

/-- Write the pending lines, up to the first that the sink refuses, and drop the others. -/
def writePending : Work σ Unit
  | ⟨lowering, writer, annotate, sinkName, failure, pending, commands⟩ =>
      match writer.writeLines (pending.toList.map Asm.Line.text) with
      | (writer, none) => .ok () ⟨lowering, writer, annotate, sinkName, failure, #[], commands⟩
      | (writer, some fault) =>
          fail (.io sinkName fault)
            ⟨lowering, writer, annotate, sinkName, failure, #[], commands⟩

def setUnit (unit : String) : Work σ Unit := do
  check
  modify fun session => { session with lowering := session.lowering.setUnit unit }

/-- Collect the lines of an operation, after a comment if comments are wanted. -/
def collect (comment : String) (work : Emitter.Work Unit) : Work σ Unit := do
  check
  remark comment
  lower work

def bootstrap (entry : String) : Work σ Unit := do
  collect ("bootstrap: " ++ entry) (Emitter.bootstrap entry)
  writePending

def command (command : Located Command) : Work σ Unit := do
  collect command.value.text (Emitter.command command)
  modify fun session => { session with commands := session.commands + 1 }
  writePending

def unit (name : String) (commands : List (Located Command)) : Work σ Unit := do
  setUnit name
  commands.forM command

/-- The session that an operation leaves if it succeeds. -/
def after (session : Session σ) (work : Work σ Unit) : Except Error (Session σ) :=
  match work session with
  | .ok _ next => .ok next
  | .error error _ => .error error

/-- End a session: pass on what is buffered and hand back the sink. -/
def finish (session : Session σ) : Except Error σ :=
  match session.failure with
  | some error => .error error
  | none =>
      match session.writer.flush with
      | (writer, none) => .ok writer.sink
      | (_, some fault) => .error (.io session.sinkName fault)

end Session

end StackVm
