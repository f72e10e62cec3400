import StackVm.Output.Sink

/-!
# Buffered writers

A writer gathers short texts in a buffer and passes them to its sink together.
A text that does not fit first sends the buffer on; a text as long as the whole
buffer goes to the sink directly.
-/

namespace StackVm

/-- A sink behind a buffer. -/
structure Writer (σ : Type) where
  sink : σ
  buffer : String := ""
  deriving DecidableEq, Repr

namespace Writer

variable {σ : Type} [Sink σ]

/-- Number of bytes that a buffer holds. -/
def capacity : Nat := 8192

/-- Number of bytes for which the buffer has room. -/
def spare (writer : Writer σ) : Nat :=
  capacity - writer.buffer.utf8ByteSize

/-- Pass the buffer to the sink; if the sink refuses it, the buffer stays as it is. -/
def flush (writer : Writer σ) : Writer σ × Option IoFault :=
  if writer.buffer.isEmpty then (writer, none)
  else
    match Sink.write writer.sink writer.buffer with
    | (sink, none) => (⟨sink, ""⟩, none)
    | (sink, some fault) => (⟨sink, writer.buffer⟩, some fault)

def reserve (writer : Writer σ) (size : Nat) : Writer σ × Option IoFault :=
  if size ≤ writer.spare then (writer, none) else writer.flush

/-- Put a text into the buffer, or pass it to the sink if it is as long as the buffer. -/
def accept (writer : Writer σ) (text : String) : Writer σ × Option IoFault :=
  match writer with
  | ⟨sink, buffer⟩ =>
      if text.utf8ByteSize < capacity then (⟨sink, buffer ++ text⟩, none)
      else
        match Sink.write sink text with
        | (sink, fault) => (⟨sink, buffer⟩, fault)

def write (writer : Writer σ) (text : String) : Writer σ × Option IoFault :=
  match writer.reserve text.utf8ByteSize with
  | (writer, some fault) => (writer, some fault)
  | (writer, none) => writer.accept text

/-- Write texts one after the other, up to the first that fails. -/
def writeAll (writer : Writer σ) : List String → Writer σ × Option IoFault
  | [] => (writer, none)
  | text :: rest =>
      match writer.write text with
      | (writer, some fault) => (writer, some fault)
      | (writer, none) => writer.writeAll rest

/-- Write lines; each is two writes, its text and its newline. -/
def writeLines (writer : Writer σ) (lines : List String) : Writer σ × Option IoFault :=
  writer.writeAll (lines.flatMap fun line => [line, "\n"])

end Writer

end StackVm
