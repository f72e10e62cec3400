import StackVm.Proofs.Source.Grammar
import StackVm.Proofs.Source.Partition

/-! # Texts one behind the other

A newline leaves nothing open: no word, no comment, no command.  So a text behind
another that ends with a newline gives the items that it gives alone, and only their
places are others.
-/

namespace StackVm

/-! ## Moving places -/

/-- Move the place of a value. -/
def Located.shift {α : Type} (down right : Nat) (located : Located α) : Located α :=
  ⟨located.value, located.span.shift down right⟩

/-- Move the place that an error is about; all else of the error stays. -/
def Error.shift (down right : Nat) : Error → Error
  | .invalidSegment unit span segment reason =>
      .invalidSegment unit (span.shift down right) segment reason
  | .malformedCommand unit span reason =>
      .malformedCommand unit (span.shift down right) reason
  | .io path reason => .io path reason
  | .config path reason => .config path reason
  | .unknownTarget name => .unknownTarget name

/-- A place whose numbers all fit in 32 bits. -/
def Span.Fits (span : Span) : Prop :=
  span.line < 4294967296 ∧ span.start < 4294967296 ∧ span.stop < 4294967296

theorem Span.Locates.fits {span : Span} {source text : String} (h : span.Locates source text)
    (hsize : source.utf8ByteSize < 4294967296) : span.Fits := by
  have hline := h.line_le_stop
  have hstart := h.start_lt_stop
  have hstop := h.stop_le
  exact ⟨by omega, by omega, by omega⟩

namespace Source

def Word.shift (down right : Nat) (word : Word) : Word :=
  ⟨word.text, word.span.shift down right⟩

def Line.shift (down right : Nat) (line : Line) : Line :=
  ⟨line.first.shift down right, line.rest.map (Word.shift down right)⟩

/-- Move the place of an item, be it a command or a fault. -/
def Item.shift (down right : Nat) : Item → Item
  | .ok located => .ok (located.shift down right)
  | .error error => .error (error.shift down right)

def Item.span? : Item → Option Span
  | .ok located => some located.span
  | .error error => error.span?

variable {down right number offset : Nat} {unit : String} {error : Error}

theorem Line.map_text_shift (line : Line) :
    (line.shift down right).words.map Word.text = line.words.map Word.text := by
  simp [Line.words, Line.shift, Word.shift]

theorem Line.span_shift (line : Line) :
    (line.shift down right).span = line.span.shift down right := by
  obtain ⟨first, rest⟩ := line
  have hlast : (Line.mk first rest |>.shift down right).last =
      (Line.mk first rest).last.shift down right := by
    simp only [Line.last, Line.shift, List.getLast?_map]
    cases rest.getLast? <;> rfl
  rw [Line.span, hlast]
  rfl

/-! ## Lines -/

theorem wordsAt_shift (pieces : List (List Char)) :
    wordsAt (number + down) (offset + right) pieces =
      (wordsAt number offset pieces).map (Word.shift down right) := by
  induction pieces generalizing offset with
  | nil => rfl
  | cons piece others ih =>
      have hstop : offset + right + Text.byteLength piece =
          offset + Text.byteLength piece + right := Nat.add_right_comm _ _ _
      have hnext : offset + Text.byteLength piece + right + 1 =
          offset + Text.byteLength piece + 1 + right := Nat.add_right_comm _ _ _
      simp only [wordsAt, hstop, hnext, ih]
      split <;> rfl

theorem line?_shift (chars : List Char) :
    line? (number + down) (offset + right) chars =
      (line? number offset chars).map (Line.shift down right) := by
  rw [line?, line?, words, wordsAt_shift, ← words]
  cases words number offset (Text.beforeComment chars) <;> rfl

/-- The same lines of characters at another place give the same lines of words there. -/
theorem linesFrom_shift (texts : List (List Char)) :
    linesFrom (number + down) (offset + right) texts =
      (linesFrom number offset texts).map (Line.shift down right) := by
  induction texts generalizing number offset with
  | nil => rfl
  | cons chars others ih =>
      have hoffset : offset + right + Text.byteLength chars + 1 =
          offset + Text.byteLength chars + 1 + right := by omega
      rw [linesFrom_cons, linesFrom_cons, line?_shift, hoffset, Nat.add_right_comm number, ih,
        List.map_append]
      cases line? number offset chars <;> rfl

theorem lines_append {first : String} (h : Text.IsClosed first.toList) (second : String) :
    lines (first ++ second) = lines first ++
      (lines second).map (Line.shift (first.toList.count '\n') first.utf8ByteSize) := by
  rw [lines, String.toList_append, linesFrom_append h, linesFrom_shift, Text.byteLength_toList]
  rfl

/-! ## Items -/

theorem Operand.fault_shift (operand : Operand) (word : Word) :
    (operand.fault unit word).shift down right = operand.fault unit (word.shift down right) := by
  cases operand <;> rfl

theorem Operand.Fails.shift {operands : List Operand} {words : List Word}
    (h : Operand.Fails unit operands words error) :
    Operand.Fails unit operands (words.map (Word.shift down right)) (error.shift down right) := by
  induction h with
  | here hword =>
      rw [Operand.fault_shift]
      exact .here hword
  | later hword _ ih => exact .later hword ih

theorem Rejects.shift {line : Line} (h : Rejects unit line error) :
    Rejects unit (line.shift down right) (error.shift down right) := by
  have hlength : (line.shift down right).rest.length = line.rest.length := List.length_map _
  cases h with
  | verb hverb => exact @Rejects.verb unit (line.shift down right) hverb
  | count hverb hcount =>
      rw [← hlength] at hcount
      have hrejects := @Rejects.count unit (line.shift down right) _ hverb hcount
      rwa [Line.span_shift, hlength] at hrejects
  | operand hverb hcount hfails =>
      rw [← hlength] at hcount
      exact @Rejects.operand unit (line.shift down right) _ _ hverb hcount hfails.shift

theorem item_shift (line : Line) :
    item unit (line.shift down right) = (item unit line).shift down right := by
  cases hitem : item unit line with
  | ok located =>
      rw [item_eq_ok_iff] at hitem
      refine item_eq_ok_iff.2 ⟨?_, ?_⟩
      · rw [Line.map_text_shift]
        exact hitem.1
      · rw [Line.span_shift, ← hitem.2]
        rfl
  | error error => exact item_eq_error_iff.2 (item_eq_error_iff.1 hitem).shift

theorem items_append {first : String} (h : Text.IsClosed first.toList) (second : String) :
    items unit (first ++ second) = items unit first ++
      (items unit second).map (Item.shift (first.toList.count '\n') first.utf8ByteSize) := by
  rw [items, lines_append h, List.map_append, List.map_map, items, items, List.map_map]
  exact congrArg _ (List.map_congr_left fun line _ => item_shift line)

/-- The place of an item lies in the text that the item was read from. -/
theorem exists_locates_of_mem_items {source : String} {entry : Item}
    (h : entry ∈ items unit source) :
    ∃ span text, entry.span? = some span ∧ span.Locates source text := by
  obtain ⟨line, hline, rfl⟩ := List.mem_map.1 h
  obtain ⟨text, hmarks, hphrase⟩ := (marked_of_mem_lines hline).span
  have hspan := hmarks.locates hphrase
  cases hitem : item unit line with
  | ok located => exact ⟨_, _, congrArg some (item_eq_ok_iff.1 hitem).2, hspan⟩
  | error error =>
      rcases item_blames hitem with ⟨word, hword, hblamed⟩ | ⟨-, -, hwhole⟩
      · exact ⟨_, _, hblamed.span, locates_of_mem_lines hline word hword⟩
      · exact ⟨_, _, hwhole, hspan⟩

/-! ## Commands -/

section

variable {first second : String} {xs ys : List (Located Command)}

/-- The first fault of a closed text is that of every text that starts with it. -/
theorem commands_append_of_error (h : Text.IsClosed first.toList)
    (hfirst : commands unit first = .error error) :
    commands unit (first ++ second) = .error error := by
  obtain ⟨before, after, hitems⟩ := collect_eq_error_iff.1 hfirst
  refine collect_eq_error_iff.2 ⟨before, after ++
    (items unit second).map (Item.shift (first.toList.count '\n') first.utf8ByteSize), ?_⟩
  rw [items_append h, hitems, List.append_assoc]
  rfl

theorem commands_append_of_ok (h : Text.IsClosed first.toList)
    (hfirst : commands unit first = .ok xs) (hsecond : commands unit second = .ok ys) :
    commands unit (first ++ second) =
      .ok (xs ++ ys.map (Located.shift (first.toList.count '\n') first.utf8ByteSize)) := by
  refine collect_eq_ok_iff.2 ?_
  rw [items_append h, collect_eq_ok_iff.1 hfirst, collect_eq_ok_iff.1 hsecond, List.map_append,
    List.map_map, List.map_map]
  rfl

theorem commands_append_of_ok_of_error (h : Text.IsClosed first.toList)
    (hfirst : commands unit first = .ok xs) (hsecond : commands unit second = .error error) :
    commands unit (first ++ second) =
      .error (error.shift (first.toList.count '\n') first.utf8ByteSize) := by
  obtain ⟨before, after, hitems⟩ := collect_eq_error_iff.1 hsecond
  refine collect_eq_error_iff.2
    ⟨xs ++ before.map (Located.shift (first.toList.count '\n') first.utf8ByteSize),
      after.map (Item.shift (first.toList.count '\n') first.utf8ByteSize), ?_⟩
  rw [items_append h, collect_eq_ok_iff.1 hfirst, hitems, List.map_append, List.map_append,
    List.map_map, List.map_map, List.append_assoc]
  rfl

/-- Two texts have all their commands together if and only if each of them has. -/
theorem exists_commands_append_iff (h : Text.IsClosed first.toList) :
    (∃ all, commands unit (first ++ second) = .ok all) ↔
      (∃ xs, commands unit first = .ok xs) ∧ ∃ ys, commands unit second = .ok ys := by
  constructor
  · rintro ⟨all, hall⟩
    cases hfirst : commands unit first with
    | error error =>
        rw [commands_append_of_error h hfirst] at hall
        cases hall
    | ok xs =>
        cases hsecond : commands unit second with
        | error error =>
            rw [commands_append_of_ok_of_error h hfirst hsecond] at hall
            cases hall
        | ok ys => exact ⟨⟨xs, rfl⟩, ys, rfl⟩
  · rintro ⟨⟨xs, hfirst⟩, ys, hsecond⟩
    exact ⟨_, commands_append_of_ok h hfirst hsecond⟩

/--
Behind a closed text, another gives the lines and items that it gives alone, moved down by the
newlines and right by the bytes of the first; no place needs more than 32 bits if the bytes of both
are so few.  Both are read together if and only if each is read alone.  Otherwise the fault is that
of the first, or that of the second, moved, if the first has none.
-/
theorem items_of_joined (unit : String) (h : Text.IsClosed first.toList)
    (hsize : (first ++ second).utf8ByteSize < 4294967296) :
    lines (first ++ second) = lines first ++
        (lines second).map (Line.shift (first.toList.count '\n') first.utf8ByteSize) ∧
      items unit (first ++ second) = items unit first ++
        (items unit second).map (Item.shift (first.toList.count '\n') first.utf8ByteSize) ∧
      (∀ entry ∈ items unit (first ++ second), ∃ span, entry.span? = some span ∧ span.Fits) ∧
      ((∃ all, commands unit (first ++ second) = .ok all) ↔
        (∃ xs, commands unit first = .ok xs) ∧ ∃ ys, commands unit second = .ok ys) ∧
      (∀ error, commands unit first = .error error →
        commands unit (first ++ second) = .error error) ∧
      ∀ xs, commands unit first = .ok xs →
        (∀ ys, commands unit second = .ok ys → commands unit (first ++ second) =
          .ok (xs ++ ys.map (Located.shift (first.toList.count '\n') first.utf8ByteSize))) ∧
        ∀ error, commands unit second = .error error → commands unit (first ++ second) =
          .error (error.shift (first.toList.count '\n') first.utf8ByteSize) := by
  refine ⟨lines_append h second, items_append h second, ?_, exists_commands_append_iff h, ?_, ?_⟩
  · intro entry hentry
    obtain ⟨span, text, hspan, hlocates⟩ := exists_locates_of_mem_items hentry
    exact ⟨span, hspan, hlocates.fits hsize⟩
  · exact fun error hfirst => commands_append_of_error h hfirst
  · intro xs hfirst
    exact ⟨fun ys hsecond => commands_append_of_ok h hfirst hsecond,
      fun error hsecond => commands_append_of_ok_of_error h hfirst hsecond⟩

end

namespace Sample

/-- A comment with characters of two bytes, a blank line, and a command. -/
def opening : String := "// größe\n\r\n\tgoto a // über\n"

/-- A command, a word that is no verb, and a last line without its newline. -/
def closing : String := "add\n frob 1\npush heap 2"

theorem joined_closing :
    Text.IsClosed opening.toList ∧ (opening ++ closing).utf8ByteSize < 4294967296 ∧
      items "Main" (opening ++ closing) =
        [.ok ⟨.goto "a", ⟨3, 14, 20⟩⟩, .ok ⟨.arith .add, ⟨4, 30, 33⟩⟩,
          .error (.malformedCommand "Main" ⟨5, 35, 39⟩ (.unknownVerb "frob")),
          .error (.invalidSegment "Main" ⟨6, 47, 51⟩ "heap" .unknownName)] ∧
      commands "Main" (opening ++ closing) =
        .error (.malformedCommand "Main" ⟨5, 35, 39⟩ (.unknownVerb "frob")) := by
  have hclosed : Text.IsClosed opening.toList := by
    rintro c ⟨⟩
    rfl
  have hsize : (opening ++ closing).utf8ByteSize < 4294967296 := by decide
  obtain ⟨-, hitems, -, -, -, hfault⟩ := items_of_joined "Main" hclosed hsize
  have hopening : commands "Main" opening = .ok [⟨.goto "a", ⟨3, 14, 20⟩⟩] := rfl
  have hclosing : commands "Main" closing =
      .error (.malformedCommand "Main" ⟨2, 5, 9⟩ (.unknownVerb "frob")) := rfl
  refine ⟨hclosed, hsize, ?_, ?_⟩
  · rw [hitems]
    rfl
  · rw [(hfault _ hopening).2 _ hclosing]
    rfl

end Sample

end Source

end StackVm
