import StackVm.Span
import StackVm.Text.Blank
import StackVm.Text.Line

/-!
# Words of a source text

A source line is cut at its first `//`; its words are the maximal runs of
characters other than ASCII blanks.  Lines without a word are left out, yet
they count for line numbers.
-/

namespace StackVm

namespace Source

structure Word where
  text : String
  span : Span
  deriving DecidableEq, Repr

structure Line where
  first : Word
  rest : List Word
  deriving DecidableEq, Repr

def Line.words (line : Line) : List Word :=
  line.first :: line.rest

def Line.last (line : Line) : Word :=
  line.rest.getLast?.getD line.first

/-- The place from a line's first word to its last. -/
def Line.span (line : Line) : Span :=
  ⟨line.first.span.line, line.first.span.start, line.last.span.stop⟩

/--
The words among consecutive pieces of line `number`.

The first piece starts at byte `offset`, and one blank, which takes one byte,
stands between two pieces.
-/
def wordsAt (number offset : Nat) : List (List Char) → List Word
  | [] => []
  | piece :: others =>
      let stop := offset + Text.byteLength piece
      let following := wordsAt number (stop + 1) others
      if piece.isEmpty then following
      else ⟨String.ofList piece, ⟨number, offset, stop⟩⟩ :: following

/-- The words of the characters that start at byte `offset` of line `number`. -/
def words (number offset : Nat) (chars : List Char) : List Word :=
  wordsAt number offset (Text.pieces Text.isAsciiBlank chars)

/-- The line that starts at byte `offset`, unless it has no word. -/
def line? (number offset : Nat) (chars : List Char) : Option Line :=
  match words number offset (Text.beforeComment chars) with
  | [] => none
  | first :: rest => some ⟨first, rest⟩

/-- The lines with words among consecutive lines, the first of which has the given number and offset. -/
def linesFrom (number offset : Nat) : List (List Char) → List Line
  | [] => []
  | chars :: others =>
      let following := linesFrom (number + 1) (offset + Text.byteLength chars + 1) others
      match line? number offset chars with
      | none => following
      | some line => line :: following

def lines (source : String) : List Line :=
  linesFrom 1 0 (Text.lines source.toList)

end Source

end StackVm
