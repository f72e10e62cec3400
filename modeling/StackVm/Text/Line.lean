/-!
# Lines of a text

A text is a sequence of newline-terminated lines; its last line may lack the
newline.  A text that ends in a newline has no further, empty line after it.
-/

namespace StackVm

namespace Text

/-- The lines of a text, without their newlines. -/
def lines (text : List Char) : List (List Char) :=
  text.foldr
    (fun c rest =>
      if c = '\n' then [] :: rest
      else
        match rest with
        | [] => [[c]]
        | line :: others => (c :: line) :: others)
    []

@[simp] theorem lines_nil : lines [] = [] := rfl

@[simp] theorem lines_newline (rest : List Char) :
    lines ('\n' :: rest) = [] :: lines rest := by
  simp [lines]

theorem lines_cons {c : Char} (rest : List Char) (h : c ≠ '\n') :
    lines (c :: rest) =
      match lines rest with
      | [] => [[c]]
      | line :: others => (c :: line) :: others := by
  simp [lines, h]

/-- The pieces of a text between the characters that satisfy `isMark`. -/
def pieces (isMark : Char → Bool) (text : List Char) : List (List Char) :=
  text.foldr
    (fun c rest =>
      if isMark c then [] :: rest
      else
        match rest with
        | [] => [[c]]
        | piece :: others => (c :: piece) :: others)
    [[]]

@[simp] theorem pieces_nil (isMark : Char → Bool) : pieces isMark [] = [[]] := rfl

theorem pieces_mark {isMark : Char → Bool} {c : Char} (rest : List Char)
    (h : isMark c = true) : pieces isMark (c :: rest) = [] :: pieces isMark rest := by
  simp [pieces, h]

theorem pieces_cons {isMark : Char → Bool} {c : Char} (rest : List Char)
    (h : isMark c = false) :
    pieces isMark (c :: rest) =
      match pieces isMark rest with
      | [] => [[c]]
      | piece :: others => (c :: piece) :: others := by
  simp [pieces, h]

/-- The part of a line before its first `//`. -/
def beforeComment : List Char → List Char
  | [] => []
  | '/' :: '/' :: _ => []
  | c :: rest => c :: beforeComment rest

/-- Number of bytes that the characters take in UTF-8. -/
def byteLength (cs : List Char) : Nat :=
  cs.foldr (fun c size => c.utf8Size + size) 0

@[simp] theorem byteLength_nil : byteLength [] = 0 := rfl

@[simp] theorem byteLength_cons (c : Char) (cs : List Char) :
    byteLength (c :: cs) = c.utf8Size + byteLength cs := rfl

@[simp] theorem byteLength_append (xs ys : List Char) :
    byteLength (xs ++ ys) = byteLength xs + byteLength ys := by
  induction xs with
  | nil =>
      simp
  | cons c xs ih =>
      simp [ih, Nat.add_assoc]

end Text

end StackVm
