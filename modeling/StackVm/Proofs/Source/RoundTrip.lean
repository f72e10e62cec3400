import StackVm.Proofs.Asm.Linking
import StackVm.Proofs.Source.Words

/-! # Commands that are read back

The text of a command that stands on a line of its own is read as that command, and
its span is that of the text, whatever blanks stand before it and whatever comment
stands after it.
-/

namespace StackVm

namespace Text

/-- Lines with newlines between them, and one after the last if the text is closed. -/
def joinLines (closed : Bool) : List String → String
  | [] => ""
  | [last] => if closed then last ++ "\n" else last
  | line :: next :: rest => line ++ "\n" ++ joinLines closed (next :: rest)

theorem joinLines_cons (closed : Bool) (line : String) (rest : List String) :
    joinLines closed (line :: rest) = line ++ "\n" ++ joinLines closed rest ∨
      rest = [] ∧ joinLines closed (line :: rest) = line := by
  cases rest with
  | cons next rest => exact .inl rfl
  | nil =>
      cases closed with
      | false => exact .inr ⟨rfl, rfl⟩
      | true => exact .inl String.append_empty.symm

theorem lines_of_not_mem {cs : List Char} (h : '\n' ∉ cs) (hne : cs ≠ []) : lines cs = [cs] := by
  induction cs with
  | nil => exact absurd rfl hne
  | cons c cs ih =>
      obtain ⟨hc, hcs⟩ : '\n' ≠ c ∧ '\n' ∉ cs := by simpa using h
      rw [lines_cons _ hc.symm]
      cases cs with
      | nil => rfl
      | cons d cs => rw [ih hcs (by simp)]

end Text

/-- The bytes of a text that a span covers. -/
def Span.slice (span : Span) (source : String) : ByteArray :=
  source.toByteArray.extract span.start span.stop

theorem Span.slice_append {span : Span} {prior text later : String}
    (hstart : span.start = prior.utf8ByteSize)
    (hstop : span.stop = prior.utf8ByteSize + text.utf8ByteSize) :
    span.slice (prior ++ text ++ later) = text.toByteArray := by
  have hprior : prior.utf8ByteSize = prior.toByteArray.size := String.size_toByteArray.symm
  have htext : text.utf8ByteSize = text.toByteArray.size := String.size_toByteArray.symm
  rw [slice, hstart, hstop, hprior, htext, String.toByteArray_append, String.toByteArray_append,
    ByteArray.extract_append, ByteArray.extract_append_eq_right rfl rfl, ← ByteArray.size_append,
    Nat.sub_self]
  rw [ByteArray.extract_eq_empty_iff.2 (by simp), ByteArray.append_empty]

theorem Command.utf8ByteSize_text_pos (command : Command) : 0 < command.text.utf8ByteSize := by
  have hverb : 0 < command.verb.word.utf8ByteSize := by
    cases command.verb with
    | arith op => cases op <;> decide
    | _ => decide
  rw [text]
  cases command.operands with
  | nil => rwa [String.intercalate_singleton]
  | cons operand rest =>
      rw [String.intercalate_cons_cons, String.utf8ByteSize_append, String.utf8ByteSize_append]
      omega

namespace Source

open Text

/-! ## Commands -/

section

variable (unit : String) (span : Span)

theorem readSegment_word (segment : Segment) :
    readSegment unit ⟨segment.word, span⟩ = .ok segment := by
  simp [readSegment]

theorem readNumber_repr (value : UInt16) :
    readNumber unit ⟨value.toNat.repr, span⟩ = .ok value := by
  have hle : value.toNat ≤ maxWord := Nat.le_of_lt_succ value.toNat_lt
  rw [readNumber, if_pos (all_isDigit_repr _), readWord?, readDigits?_repr hle, Option.map_some,
    UInt16.ofNat_toNat]

theorem readSymbol_of_isSymbol {name : String} (h : isSymbol name = true) :
    readSymbol unit ⟨name, span⟩ = .ok name := by
  simp [readSymbol, h]

end

/-- The line that a command's words make up. -/
def commandLine (number offset : Nat) (command : Command) : Line :=
  ⟨⟨command.verb.word, ⟨number, offset, offset + command.verb.word.utf8ByteSize⟩⟩,
    placed number (offset + command.verb.word.utf8ByteSize + 1) command.operands⟩

variable {number offset : Nat}

theorem readCommand_commandLine {command : Command}
    (h : ∀ name ∈ command.names, isSymbol name = true) (unit : String) :
    readCommand unit (commandLine number offset command) = .ok command := by
  have hverb : readCommand unit (commandLine number offset command) =
      readOperands unit (commandLine number offset command) command.verb := by
    simp [readCommand, commandLine]
  rw [hverb]
  cases command with
  | arith op => rfl
  | ret => rfl
  | push segment index | pop segment index =>
      simp only [readOperands, commandLine, Command.verb, Command.operands, placed,
        readSegment_word, readNumber_repr]
      rfl
  | label name | goto name | ifGoto name =>
      have hname := h name (by simp [Command.names])
      simp only [readOperands, commandLine, Command.verb, Command.operands, placed,
        readSymbol_of_isSymbol _ _ hname]
      rfl
  | function name count | call name count =>
      have hname := h name (by simp [Command.names])
      simp only [readOperands, commandLine, Command.verb, Command.operands, placed,
        readSymbol_of_isSymbol _ _ hname, readNumber_repr]
      rfl

theorem item_commandLine {command : Command}
    (h : ∀ name ∈ command.names, isSymbol name = true) (unit : String) :
    item unit (commandLine number offset command) =
      .ok ⟨command, ⟨number, offset, offset + command.text.utf8ByteSize⟩⟩ := by
  rw [item, readCommand_commandLine h, commandLine, span_placed]
  rfl

/-! ## Rows -/

/-- A command on a line of its own, with blanks before it and blanks and a comment after it. -/
structure Row where
  command : Command
  indent : String := ""
  gap : String := ""
  comment : Option String := none
  names : command.names.all isSymbol = true
  indent_blank : indent.toList.all isAsciiBlank = true
  gap_blank : gap.toList.all isAsciiBlank = true
  gap_line : '\n' ∉ gap.toList
  comment_line : '\n' ∉ (comment.getD "").toList

namespace Row

/-- The comment of a row with its mark. -/
def remark (row : Row) : String :=
  match row.comment with
  | none => ""
  | some text => "//" ++ text

/-- A row without the blanks before its command. -/
def body (row : Row) : String :=
  row.command.text ++ row.gap ++ row.remark

def text (row : Row) : String :=
  row.indent ++ row.body

/-- Number of line feeds among the blanks before a command. -/
def feeds (row : Row) : Nat :=
  row.indent.toList.count '\n'

/-- The commands of rows with their places, the first row at the given line and byte. -/
def located (number offset : Nat) : List Row → List (Located Command)
  | [] => []
  | row :: rest =>
      ⟨row.command, ⟨number + row.feeds, offset + row.indent.utf8ByteSize,
        offset + row.indent.utf8ByteSize + row.command.text.utf8ByteSize⟩⟩ ::
          located (number + row.feeds + 1) (offset + row.text.utf8ByteSize + 1) rest

variable (row : Row)

theorem isSymbol_of_mem_names : ∀ name ∈ row.command.names, isSymbol name = true :=
  List.all_eq_true.1 row.names

theorem newline_not_mem_body : '\n' ∉ row.body.toList := by
  have hremark : '\n' ∉ row.remark.toList := by
    have hcomment := row.comment_line
    cases h : row.comment with
    | none => simp [remark, h]
    | some text => simpa [remark, h] using hcomment
  simp only [body, String.toList_append, List.mem_append, not_or]
  exact ⟨⟨Command.newline_not_mem_text row.isSymbol_of_mem_names, row.gap_line⟩, hremark⟩

theorem beforeComment_body :
    beforeComment row.body.toList = row.command.text.toList ++ row.gap.toList := by
  have hslash : '/' ∉ row.command.text.toList ++ row.gap.toList := by
    rw [List.mem_append, not_or]
    refine ⟨Command.not_mem_text row.isSymbol_of_mem_names (by decide) (by decide), fun h => ?_⟩
    exact ne_slash_of_isAsciiBlank (List.all_eq_true.1 row.gap_blank _ h) rfl
  have hremark : beforeComment row.remark.toList = [] := by
    cases h : row.comment <;> simp [remark, h, beforeComment]
  rw [body, String.toList_append, String.toList_append, beforeComment_of_not_mem hslash, hremark,
    List.append_nil]

theorem line?_body :
    line? number offset row.body.toList = some (commandLine number offset row.command) := by
  have hwords : words number offset (row.command.text.toList ++ row.gap.toList) =
      placed number offset (row.command.verb.word :: row.command.operands) :=
    words_intercalate (fun _ htext => isWord_of_mem_words row.isSymbol_of_mem_names htext)
      (List.all_eq_true.1 row.gap_blank)
  rw [line?, beforeComment_body, hwords]
  rfl

theorem body_ne_nil : row.body.toList ≠ [] := by
  intro h
  have hline : line? 0 0 row.body.toList = some _ := row.line?_body
  rw [h] at hline
  cases hline

/-- A row gives the line of its command, wherever the text goes on. -/
theorem linesFrom_row {tail : List Char} {others : List (List Char)}
    (htail : Text.lines (row.body.toList ++ tail) = row.body.toList :: others) :
    linesFrom number offset (Text.lines (row.text.toList ++ tail)) =
      commandLine (number + row.feeds) (offset + row.indent.utf8ByteSize) row.command ::
        linesFrom (number + row.feeds + 1) (offset + row.text.utf8ByteSize + 1) others := by
  rw [text, String.toList_append, List.append_assoc,
    linesFrom_blanks (List.all_eq_true.1 row.indent_blank), htail]
  simp only [linesFrom, line?_body, byteLength_toList]
  rw [String.utf8ByteSize_append, Nat.add_assoc offset]
  rfl

theorem map_item_linesFrom (unit : String) (closed : Bool) (rows : List Row) :
    (linesFrom number offset (Text.lines (joinLines closed (rows.map text)).toList)).map
        (item unit) =
      (located number offset rows).map .ok := by
  induction rows generalizing number offset with
  | nil => rfl
  | cons row rest ih =>
      have hitem : item unit (commandLine (number + row.feeds)
          (offset + row.indent.utf8ByteSize) row.command) = .ok _ :=
        item_commandLine row.isSymbol_of_mem_names unit
      rcases joinLines_cons closed row.text (rest.map text) with hcons | ⟨hnil, hcons⟩
      · have hnewline : (row.text ++ "\n" ++ joinLines closed (rest.map text)).toList =
            row.text.toList ++ '\n' :: (joinLines closed (rest.map text)).toList := by
          simp
        rw [List.map_cons, hcons, hnewline,
          row.linesFrom_row (lines_append_newline row.newline_not_mem_body _), List.map_cons, ih,
          hitem]
        rfl
      · have hrest : rest = [] := List.map_eq_nil_iff.1 hnil
        have hlines := lines_of_not_mem row.newline_not_mem_body row.body_ne_nil
        rw [List.map_cons, hcons, ← List.append_nil row.text.toList,
          row.linesFrom_row (by rw [List.append_nil, hlines]), List.map_cons, hitem, hrest]
        rfl

theorem commands_joinLines (unit : String) (closed : Bool) (rows : List Row) :
    commands unit (joinLines closed (rows.map text)) = .ok (located 1 0 rows) := by
  rw [commands, collect, Asm.mapM_eq_ok_iff, List.map_id]
  exact map_item_linesFrom unit closed rows

/-! ## Places -/

theorem map_value_located (rows : List Row) :
    (located number offset rows).map (·.value) = rows.map (·.command) := by
  induction rows generalizing number offset with
  | nil => rfl
  | cons row rest ih => rw [located, List.map_cons, List.map_cons, ih]

theorem line_located {rows : List Row} {k : Nat} {entry : Located Command}
    (h : (located number offset rows)[k]? = some entry) :
    entry.span.line =
      number + k + ((rows.take (k + 1)).flatMap fun row => row.indent.toList).count '\n' := by
  induction rows generalizing number offset k with
  | nil => cases h
  | cons row rest ih =>
      rw [List.take_succ_cons, List.flatMap_cons, List.count_append]
      cases k with
      | zero =>
          cases h
          simp [feeds]
      | succ k =>
          rw [ih h, feeds]
          omega

/-- A row's command stands in the text where its span says. -/
theorem exists_split_of_mem_located (closed : Bool) {rows : List Row} {before : String}
    {entry : Located Command} (h : entry ∈ located number before.utf8ByteSize rows) :
    ∃ prior later,
      before ++ joinLines closed (rows.map text) = prior ++ entry.value.text ++ later ∧
        entry.span.start = prior.utf8ByteSize ∧
        entry.span.stop = prior.utf8ByteSize + entry.value.text.utf8ByteSize := by
  induction rows generalizing number before with
  | nil => cases h
  | cons row rest ih =>
      rcases List.mem_cons.1 h with rfl | h
      · obtain ⟨tail, htail⟩ : ∃ tail, joinLines closed ((row :: rest).map text) =
            row.text ++ tail := by
          rcases joinLines_cons closed row.text (rest.map text) with hcons | ⟨-, hcons⟩
          · exact ⟨_, hcons.trans String.append_assoc⟩
          · exact ⟨"", hcons.trans String.append_empty.symm⟩
        refine ⟨before ++ row.indent, row.gap ++ row.remark ++ tail, ?_, ?_, ?_⟩
        · rw [htail, text, body]
          simp only [String.append_assoc]
        · rw [String.utf8ByteSize_append]
        · rw [String.utf8ByteSize_append]
      · have hcons : joinLines closed ((row :: rest).map text) =
            row.text ++ "\n" ++ joinLines closed (rest.map text) := by
          rcases joinLines_cons closed row.text (rest.map text) with hcons | ⟨hnil, -⟩
          · exact hcons
          · rw [List.map_eq_nil_iff.1 hnil] at h
            cases h
        have hbytes : before.utf8ByteSize + row.text.utf8ByteSize + 1 =
            (before ++ row.text ++ "\n").utf8ByteSize := by
          rw [String.utf8ByteSize_append, String.utf8ByteSize_append]
          rfl
        rw [hbytes] at h
        obtain ⟨prior, later, hsplit, hplace⟩ := ih h
        refine ⟨prior, later, ?_, hplace⟩
        rw [hcons, ← hsplit]
        simp only [String.append_assoc]

theorem line_le_stop {rows : List Row} {entry : Located Command}
    (hplace : number ≤ offset + 1) (h : entry ∈ located number offset rows) :
    entry.span.line ≤ entry.span.stop := by
  induction rows generalizing number offset with
  | nil => cases h
  | cons row rest ih =>
      have hfeeds : row.feeds ≤ row.indent.utf8ByteSize :=
        Nat.le_trans List.count_le_length (length_le_utf8ByteSize row.indent)
      have htext := row.command.utf8ByteSize_text_pos
      have hrow : row.indent.utf8ByteSize ≤ row.text.utf8ByteSize := by
        rw [text, String.utf8ByteSize_append]
        omega
      rcases List.mem_cons.1 h with rfl | h
      · simp only
        omega
      · exact ih (by omega) h

/--
The `k`-th command of a text of rows stands on its own line and spans its text.

Its line number counts the rows up to it and the line feeds before their commands.  No number of
its span is larger than the text.
-/
structure Stands (source : String) (rows : List Row) (k : Nat) (entry : Located Command) :
    Prop where
  line : entry.span.line =
    k + 1 + ((rows.take (k + 1)).flatMap fun row => row.indent.toList).count '\n'
  slice : entry.span.slice source = entry.value.text.toByteArray
  line_le : entry.span.line ≤ entry.span.stop
  stop_le : entry.span.stop ≤ source.utf8ByteSize

theorem stands_located (closed : Bool) {rows : List Row} {k : Nat} {entry : Located Command}
    (h : (located 1 0 rows)[k]? = some entry) :
    Stands (joinLines closed (rows.map text)) rows k entry := by
  have hmem : entry ∈ located 1 "".utf8ByteSize rows := List.mem_of_getElem? h
  obtain ⟨prior, later, hsplit, hstart, hstop⟩ := exists_split_of_mem_located closed hmem
  rw [String.empty_append] at hsplit
  refine ⟨?_, ?_, line_le_stop (Nat.le_refl 1) hmem, ?_⟩
  · rw [line_located h, Nat.add_comm 1 k]
  · rw [hsplit, Span.slice_append hstart hstop]
  · rw [hsplit, hstop, String.utf8ByteSize_append, String.utf8ByteSize_append]
    exact Nat.le_add_right _ _

/-- A command that stands alone on its line. -/
def bare (command : Command) (h : ∀ name ∈ command.names, isSymbol name = true) : Row where
  command
  names := List.all_eq_true.2 h
  indent_blank := rfl
  gap_blank := rfl
  gap_line := by simp
  comment_line := by simp

theorem text_bare (command : Command) (h : ∀ name ∈ command.names, isSymbol name = true) :
    (bare command h).text = command.text := by
  simp [bare, text, body, remark]

theorem exists_bare {commands : List Command}
    (h : ∀ command ∈ commands, ∀ name ∈ command.names, isSymbol name = true) :
    ∃ rows : List Row, rows.map text = commands.map Command.text ∧
      rows.map (·.command) = commands := by
  induction commands with
  | nil => exact ⟨[], rfl, rfl⟩
  | cons command rest ih =>
      rw [List.forall_mem_cons] at h
      obtain ⟨rows, htext, hcommand⟩ := ih h.2
      exact ⟨bare command h.1 :: rows, by rw [List.map_cons, htext, text_bare, List.map_cons],
        congrArg (command :: ·) hcommand⟩

end Row

theorem isSymbol_of_commands {unit source : String} {located : List (Located Command)}
    (h : commands unit source = .ok located) :
    ∀ command ∈ located.map (·.value), ∀ name ∈ command.names, isSymbol name = true := by
  rw [commands, collect, Asm.mapM_eq_ok_iff, List.map_id] at h
  intro command hcommand
  obtain ⟨entry, hentry, rfl⟩ := List.mem_map.1 hcommand
  have hmem : .ok entry ∈ items unit source := by
    rw [h]
    exact List.mem_map_of_mem hentry
  obtain ⟨line, -, hline⟩ := List.mem_map.1 hmem
  exact isSymbol_of_item hline

/--
Commands that are written on lines of their own are read back, each with the place of its text; and
the commands of a source text are read back from their own texts.
-/
theorem text_round_trip (unit : String) :
    (∀ (rows : List Row) (closed : Bool), ∃ located,
        commands unit (joinLines closed (rows.map Row.text)) = .ok located ∧
          located.map (·.value) = rows.map (·.command) ∧
          ∀ k entry, located[k]? = some entry →
            Row.Stands (joinLines closed (rows.map Row.text)) rows k entry) ∧
      ∀ source located, commands unit source = .ok located → ∀ closed, ∃ again,
        commands unit (joinLines closed (located.map fun entry => entry.value.text)) = .ok again ∧
          again.map (·.value) = located.map (·.value) := by
  refine ⟨fun rows closed => ?_, fun source located h closed => ?_⟩
  · exact ⟨_, Row.commands_joinLines unit closed rows, Row.map_value_located rows,
      fun k entry hentry => Row.stands_located closed hentry⟩
  · obtain ⟨rows, htext, hcommand⟩ := Row.exists_bare (isSymbol_of_commands h)
    have hread := Row.commands_joinLines unit closed rows
    rw [htext, List.map_map] at hread
    exact ⟨_, hread, (Row.map_value_located rows).trans hcommand⟩

namespace Sample

/-- A command behind blanks and before a comment, and one behind an empty line. -/
def rows : List Row :=
  [{ command := .push .constants 7
     indent := "\t "
     gap := " "
     comment := some " // seven"
     names := rfl
     indent_blank := rfl
     gap_blank := rfl
     gap_line := by decide
     comment_line := by decide },
   { command := .call "Math.max" 2
     indent := "\n"
     names := rfl
     indent_blank := rfl
     gap_blank := rfl
     gap_line := by decide
     comment_line := by decide }]

theorem round_trip_rows :
    (∃ located, commands "Main" "\t push constant 7 // // seven\n\ncall Math.max 2" = .ok located ∧
        located.map (·.value) = [.push .constants 7, .call "Math.max" 2] ∧
        ∀ k entry, located[k]? = some entry →
          Row.Stands "\t push constant 7 // // seven\n\ncall Math.max 2" rows k entry) ∧
      commands "Main" "push  constant 007//\n\nadd" =
        .ok [⟨.push .constants 7, 1, 0, 18⟩, ⟨.arith .add, 3, 22, 25⟩] ∧
      ∃ again, commands "Main" "push constant 7\nadd\n" = .ok again ∧
        again.map (·.value) = [.push .constants 7, .arith .add] := by
  have hread : commands "Main" "push  constant 007//\n\nadd" =
      .ok [⟨.push .constants 7, 1, 0, 18⟩, ⟨.arith .add, 3, 22, 25⟩] := rfl
  exact ⟨(text_round_trip "Main").1 rows false, hread,
    (text_round_trip "Main").2 _ _ hread true⟩

end Sample

end Source

end StackVm
