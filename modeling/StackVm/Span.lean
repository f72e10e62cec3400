/-!
# Places in a source text

Lines count from one; offsets count bytes of UTF-8 from the start of the text.
-/

namespace StackVm

/-- The bytes from `start` up to `stop`, all on line `line`. -/
structure Span where
  line : Nat
  start : Nat
  stop : Nat
  deriving DecidableEq, Repr, Inhabited

namespace Span

/-- The span of something that stands in no source text. -/
def absent : Span := ⟨0, 0, 0⟩

/-- A span is absent when it names no line. -/
def isAbsent (span : Span) : Bool :=
  span.line == 0

/-- Move a span down by `lines` lines and right by `bytes` bytes. -/
def shift (lines bytes : Nat) (span : Span) : Span :=
  ⟨span.line + lines, span.start + bytes, span.stop + bytes⟩

end Span

structure Located (α : Type) where
  value : α
  span : Span
  deriving DecidableEq, Repr

end StackVm
