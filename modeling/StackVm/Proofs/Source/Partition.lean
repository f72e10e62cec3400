import StackVm.Proofs.Source.Bytes

/-! # Words and lines as bytes

The words of a text are the longest runs of bytes that are not blank, on the lines
between newlines and ahead of the first `//`.  Nothing of such a run is lost, and the
numbers of a span are those of the bytes before it.
-/

namespace StackVm

namespace Source

open Text

section

variable {number offset : Nat}

/-! ## Words -/

/-- Between two words stands at least one byte. -/
theorem pairwise_words (cs : List Char) :
    (words number offset cs).Pairwise fun x y => x.span.stop < y.span.start := by
  induction cs using runInduction generalizing offset with
  | nil => exact .nil
  | blank c cs hc ih =>
      rw [words_cons_blank hc]
      exact ih
  | run first rest hne hfirst hrest ih =>
      rw [words_run hne hfirst hrest, List.pairwise_cons]
      refine ⟨?_, ih⟩
      intro word hword
      obtain ⟨before, run, after, rfl, hrun, rfl⟩ := mem_words_iff.1 hword
      have hbefore : 0 < (bytes before).length :=
        List.length_pos_iff.2 fun h => hrun.before_ne_nil hrest (bytes_eq_nil_iff.1 h)
      rw [length_bytes] at hbefore
      simp only
      omega

/-! ## Lines -/

theorem line?_eq_some_iff {chars : List Char} {line : Line} :
    line? number offset chars = some line ↔
      words number offset (beforeComment chars) = line.words := by
  unfold line? Line.words
  cases words number offset (beforeComment chars) with
  | nil => simp
  | cons first rest =>
      simp only [Option.some.injEq, List.cons.injEq]
      constructor
      · rintro rfl
        exact ⟨rfl, rfl⟩
      · rintro ⟨rfl, rfl⟩
        rfl

theorem line?_eq_none_iff {chars : List Char} :
    line? number offset chars = none ↔ ∀ c ∈ beforeComment chars, isAsciiBlank c = true := by
  rw [← @words_eq_nil_iff number offset, line?]
  cases words number offset (beforeComment chars) <;> simp

theorem line_of_line? {chars : List Char} {line : Line}
    (h : line? number offset chars = some line) : line.span.line = number := by
  have hfirst : line.first ∈ words number offset (beforeComment chars) := by
    rw [line?_eq_some_iff.1 h]
    exact List.mem_cons_self
  obtain ⟨_, _, _, -, -, hword⟩ := mem_words_iff.1 hfirst
  rw [Line.span, hword]

theorem number_of_mem_linesFrom {texts : List (List Char)} {line : Line}
    (h : line ∈ linesFrom number offset texts) :
    number ≤ line.span.line ∧ line.span.line < number + texts.length := by
  induction texts generalizing number offset with
  | nil => cases h
  | cons text texts ih =>
      rw [linesFrom_cons, List.mem_append, Option.mem_toList] at h
      rw [List.length_cons]
      rcases h with h | h
      · have hline := line_of_line? h
        omega
      · have hline := ih h
        omega

theorem pairwise_linesFrom (texts : List (List Char)) :
    (linesFrom number offset texts).Pairwise fun x y => x.span.line < y.span.line := by
  induction texts generalizing number offset with
  | nil => exact .nil
  | cons text texts ih =>
      rw [linesFrom_cons]
      cases hline : line? number offset text with
      | none => exact ih
      | some line =>
          refine List.pairwise_cons.2 ⟨?_, ih⟩
          intro other hother
          have hnumber := line_of_line? hline
          have hlater := number_of_mem_linesFrom hother
          omega

theorem length_linesFrom_le (texts : List (List Char)) :
    (linesFrom number offset texts).length ≤ texts.length := by
  induction texts generalizing number offset with
  | nil => exact Nat.le_refl 0
  | cons text texts ih =>
      have hrest := @ih (number + 1) (offset + byteLength text + 1)
      rw [linesFrom_cons, List.length_append, List.length_cons]
      cases line? number offset text with
      | none =>
          rw [Option.toList_none, List.length_nil]
          omega
      | some line =>
          rw [Option.toList_some, List.length_singleton]
          omega

theorem length_lines_le (cs : List Char) : (Text.lines cs).length ≤ cs.count '\n' + 1 := by
  induction cs using lineInduction with
  | nil => exact Nat.zero_le 1
  | last text hne htext =>
      rw [lines_of_not_mem htext hne, List.length_singleton]
      omega
  | line text rest htext ih =>
      rw [lines_append_newline htext, count_append_newline htext, List.length_cons]
      omega

/-- A closed text has as many lines as newlines. -/
theorem length_lines_of_isClosed {cs : List Char} (h : IsClosed cs) :
    (Text.lines cs).length = cs.count '\n' := by
  induction cs, h using closedInduction with
  | nil => rfl
  | line text rest _ htext ih =>
      rw [lines_append_newline htext, count_append_newline htext, List.length_cons, ih, Nat.add_comm]

end

/-! ## Lines of bytes -/

/-- A line of bytes between newlines, cut at its first `//`. -/
structure Stretch (bytes : List UInt8) where
  prior : List UInt8
  code : List UInt8
  comment : List UInt8
  later : List UInt8
  split : bytes = prior ++ (code ++ comment) ++ later
  oneLine : newlineByte ∉ code ++ comment
  opens : ∀ b ∈ prior.getLast?, b = newlineByte
  closes : ∀ b ∈ later.head?, b = newlineByte
  mark : comment = [] ∨ [slashByte, slashByte] <+: comment
  first : ¬ [slashByte, slashByte] <:+: code ++ comment.take 1

namespace Stretch

section

variable {bytes : List UInt8} (row : Stretch bytes)

/-- Lines count from one. -/
def number : Nat :=
  1 + row.prior.count newlineByte

/-- Whether a longest run of bytes that are not blank starts and stops at given bytes. -/
def IsRun (start stop : Nat) : Prop :=
  ∃ before run after, row.code = before ++ run ++ after ∧
    start = row.prior.length + before.length ∧ stop = start + run.length ∧ run ≠ [] ∧
    (∀ b ∈ run, isBlankByte b = false) ∧ (∀ b ∈ before.getLast?, isBlankByte b = true) ∧
    ∀ b ∈ after.head?, isBlankByte b = true

end

variable {chars before code comment after : List Char}

/-- The characters that a line of bytes encodes, and those around it. -/
structure Spells (row : Stretch (Text.bytes chars)) (before code comment after : List Char) :
    Prop where
  split : chars = before ++ (code ++ comment) ++ after
  prior : Text.bytes before = row.prior
  code : Text.bytes code = row.code
  comment : Text.bytes comment = row.comment
  later : Text.bytes after = row.later

theorem isAsciiByte_of_isBlankByte {b : UInt8} (h : isBlankByte b = true) :
    isAsciiByte b = true := by
  simp only [isBlankByte, Bool.or_eq_true, beq_iff_eq] at h
  rcases h with (((rfl | rfl) | rfl) | rfl) | rfl <;> decide

/-- A line of bytes is cut out of a text beside newlines and a slash. -/
theorem exists_spells (row : Stretch (Text.bytes chars)) :
    ∃ before code comment after, row.Spells before code comment after := by
  have hnewline : ∀ b, b = newlineByte → isAsciiByte b = true := by
    rintro b rfl
    decide
  obtain ⟨front, after, rfl, hfront, hafter⟩ := exists_append_of_bytes row.split
    (.inr fun b hb => hnewline b (row.closes b hb))
  obtain ⟨before, text, rfl, hbefore, htext⟩ := exists_append_of_bytes hfront
    (.inl fun b hb => hnewline b (row.opens b hb))
  have hmark : ∀ b ∈ row.comment.head?, isAsciiByte b = true := by
    intro b hb
    rcases row.mark with hnone | ⟨rest, hcomment⟩
    · rw [hnone] at hb
      cases hb
    · rw [← hcomment] at hb
      cases hb
      decide
  obtain ⟨code, comment, rfl, hcode, hcomment⟩ := exists_append_of_bytes htext (.inr hmark)
  exact ⟨before, code, comment, after, rfl, hbefore, hcode, hcomment, hafter⟩

namespace Spells

variable {row : Stretch (Text.bytes chars)}

theorem isFullLine (h : row.Spells before code comment after) :
    IsFullLine before (code ++ comment) after where
  oneLine := by
    have hline := row.oneLine
    rwa [← h.code, ← h.comment, ← bytes_append, newlineByte_mem_iff] at hline
  opens := by
    have hopens := row.opens
    rwa [← h.prior, tells_newline.forall_getLast?_iff] at hopens
  closes := by
    have hcloses := row.closes
    rwa [← h.later, tells_newline.forall_head?_iff] at hcloses

/-- The cut of bytes is the cut of characters. -/
theorem isCut (h : row.Spells before code comment after) : IsCut code comment := by
  have hmark := row.mark
  have hfirst := row.first
  rw [← h.comment] at hmark hfirst
  rw [← h.code] at hfirst
  rcases hmark with hnone | ⟨rest, hslashes⟩
  · rw [bytes_eq_nil_iff] at hnone
    subst hnone
    refine ⟨.inl rfl, ?_⟩
    rwa [bytes_nil, List.take_nil, List.append_nil, slashes_infix_bytes_iff,
      ← List.append_nil code] at hfirst
  · obtain ⟨next, rfl, hnext⟩ := exists_cons_of_bytes_slash hslashes.symm
    obtain ⟨last, rfl, -⟩ := exists_cons_of_bytes_slash hnext
    refine ⟨.inr ⟨last, rfl⟩, ?_⟩
    have htake : Text.bytes code ++ (Text.bytes ('/' :: '/' :: last)).take 1 =
        Text.bytes (code ++ ['/']) := by
      rw [bytes_append]
      rfl
    rwa [htake, slashes_infix_bytes_iff] at hfirst

theorem number_eq (h : row.Spells before code comment after) :
    row.number = 1 + before.count '\n' := by
  rw [number, ← h.prior, count_newlineByte]

/-- The longest runs of bytes are the words. -/
theorem isRun_iff (h : row.Spells before code comment after) {start stop : Nat} :
    row.IsRun start stop ↔
      ∃ word ∈ words row.number (byteLength before) code, word.span = ⟨row.number, start, stop⟩ := by
  have hoffset : row.prior.length = byteLength before := by rw [← h.prior, length_bytes]
  constructor
  · rintro ⟨xs, ys, zs, hsplit, rfl, rfl, hne, hsolid, hopens, hcloses⟩
    rw [← h.code] at hsplit
    obtain ⟨front, behind, rfl, hfront, rfl⟩ := exists_append_of_bytes hsplit
      (.inr fun b hb => isAsciiByte_of_isBlankByte (hcloses b hb))
    obtain ⟨ahead, run, rfl, rfl, rfl⟩ := exists_append_of_bytes hfront
      (.inl fun b hb => isAsciiByte_of_isBlankByte (hopens b hb))
    have hrun : IsLongestRun ahead run behind := by
      refine ⟨fun hnil => hne (bytes_eq_nil_iff.2 hnil), ?_, ?_, ?_⟩
      · exact (tells_blank false).forall_mem_iff.1 hsolid
      · exact (tells_blank true).forall_getLast?_iff.1 hopens
      · exact (tells_blank true).forall_head?_iff.1 hcloses
    refine ⟨_, mem_words_iff.2 ⟨ahead, run, behind, rfl, hrun, rfl⟩, ?_⟩
    simp only [hoffset, length_bytes]
  · rintro ⟨word, hword, hspan⟩
    obtain ⟨ahead, run, behind, rfl, hrun, rfl⟩ := mem_words_iff.1 hword
    cases hspan
    refine ⟨Text.bytes ahead, Text.bytes run, Text.bytes behind, ?_, ?_, ?_, ?_, ?_, ?_, ?_⟩
    · rw [← h.code, bytes_append, bytes_append]
    · rw [hoffset, length_bytes]
    · rw [length_bytes]
    · exact fun hnil => hrun.ne_nil (bytes_eq_nil_iff.1 hnil)
    · exact (tells_blank false).forall_mem_iff.2 hrun.solid
    · exact (tells_blank true).forall_getLast?_iff.2 hrun.opens
    · exact (tells_blank true).forall_head?_iff.2 hrun.closes

end Spells

/-- The bytes of a full line, cut where its characters are. -/
def ofChars (hsplit : chars = before ++ (code ++ comment) ++ after)
    (h : IsFullLine before (code ++ comment) after) (hcut : IsCut code comment) :
    Stretch (Text.bytes chars) where
  prior := Text.bytes before
  code := Text.bytes code
  comment := Text.bytes comment
  later := Text.bytes after
  split := by rw [hsplit, bytes_append, bytes_append, bytes_append]
  oneLine := by
    rw [← bytes_append, newlineByte_mem_iff]
    exact h.oneLine
  opens := tells_newline.forall_getLast?_iff.2 h.opens
  closes := tells_newline.forall_head?_iff.2 h.closes
  mark := by
    rcases hcut.mark with hnone | ⟨rest, hcomment⟩
    · exact .inl (bytes_eq_nil_iff.2 hnone)
    · refine .inr ⟨Text.bytes rest, ?_⟩
      rw [← hcomment, bytes_append]
      rfl
  first := by
    have htake : (Text.bytes comment).take 1 = Text.bytes (comment.take 1) := by
      rcases hcut.mark with rfl | ⟨rest, rfl⟩ <;> rfl
    rw [htake, ← bytes_append, slashes_infix_bytes_iff]
    exact hcut.first

theorem spells_ofChars (hsplit : chars = before ++ (code ++ comment) ++ after)
    (h : IsFullLine before (code ++ comment) after) (hcut : IsCut code comment) :
    (ofChars hsplit h hcut).Spells before code comment after :=
  ⟨hsplit, rfl, rfl, rfl, rfl⟩

end Stretch

/-! ## Texts -/

def bytes (source : String) : List UInt8 :=
  source.toByteArray.data.toList

theorem bytes_eq (source : String) : bytes source = Text.bytes source.toList := by
  obtain ⟨chars, rfl⟩ : ∃ chars, String.ofList chars = source := ⟨_, String.ofList_toList⟩
  rw [bytes, String.toByteArray_ofList, List.utf8Encode, List.toList_data_toByteArray,
    String.toList_ofList]
  rfl

/-- What the words of a line of bytes are, and what the line of words spans. -/
structure Stretch.Gives {bytes : List UInt8} (row : Stretch bytes) (source : String) (line : Line) :
    Prop where
  runs : ∀ start stop, row.IsRun start stop ↔
    ∃ word ∈ line.words, word.span = ⟨row.number, start, stop⟩
  numbered : ∀ word ∈ line.words, word.span.line = row.number
  ordered : line.words.Pairwise fun x y => x.span.stop < y.span.start
  located : ∀ word ∈ line.words, word.span.Locates source word.text
  spanLine : line.span.line = row.number
  spanStart : line.words.head?.map (·.span.start) = some line.span.start
  spanStop : line.words.getLast?.map (·.span.stop) = some line.span.stop
  line_le_stop : line.span.line ≤ line.span.stop
  stop_le : line.span.stop ≤ source.utf8ByteSize

theorem locates_of_mem_lines {source : String} {line : Line} (h : line ∈ lines source) :
    ∀ word ∈ line.words, word.span.Locates source word.text := by
  intro word hword
  obtain ⟨hmarks, hphrase⟩ := (marked_of_mem_lines h).words word hword
  have hlocates := hmarks.locates hphrase
  rwa [String.ofList_toList] at hlocates

theorem getLast?_words (line : Line) : line.words.getLast? = some line.last := by
  rw [Line.words, List.getLast?_cons]
  rfl

namespace Stretch.Spells

variable {source : String} {row : Stretch (Text.bytes source.toList)} {line : Line}
  {before code comment after : List Char}

theorem lines_eq (h : row.Spells before code comment after) :
    lines source = linesFrom 1 0 (Text.lines before) ++
      ((line? row.number (byteLength before) (code ++ comment)).toList ++
        linesFrom (row.number + 1) (byteLength before + byteLength (code ++ comment) + 1)
          (Text.lines after.tail)) := by
  have hlines : lines source =
      linesFrom 1 0 (Text.lines (before ++ ((code ++ comment) ++ after))) := by
    rw [← List.append_assoc]
    exact congrArg (fun chars => linesFrom 1 0 (Text.lines chars)) h.split
  rw [hlines, linesFrom_append h.isFullLine.opens,
    linesFrom_line h.isFullLine.oneLine h.isFullLine.closes, h.number_eq, Nat.zero_add]

theorem gives (h : row.Spells before code comment after)
    (hline : line? row.number (byteLength before) (code ++ comment) = some line) :
    line ∈ lines source ∧ row.Gives source line := by
  have hwords : words row.number (byteLength before) code = line.words := by
    rw [← line?_eq_some_iff.1 hline, h.isCut.beforeComment_eq]
  have hmem : line ∈ lines source := by
    rw [h.lines_eq, hline]
    exact List.mem_append_right _ (List.mem_append_left _ List.mem_cons_self)
  have hnumbered : ∀ word ∈ line.words, word.span.line = row.number := by
    intro word hword
    rw [← hwords] at hword
    obtain ⟨_, _, _, -, -, rfl⟩ := mem_words_iff.1 hword
    rfl
  have hlocated := locates_of_mem_lines hmem
  have hlast : line.last ∈ line.words := List.mem_of_getLast? (getLast?_words line)
  refine ⟨hmem, ?_, hnumbered, ?_, hlocated, ?_, rfl, ?_, ?_, ?_⟩
  · intro start stop
    rw [h.isRun_iff, hwords]
  · rw [← hwords]
    exact pairwise_words code
  · exact hnumbered line.first List.mem_cons_self
  · rw [getLast?_words]
    rfl
  · have hline' : line.span.line = line.last.span.line := by
      rw [hnumbered line.last hlast]
      exact hnumbered line.first List.mem_cons_self
    rw [hline']
    exact (hlocated line.last hlast).line_le_stop
  · exact (hlocated line.last hlast).stop_le

end Stretch.Spells

/--
The lines of a source text are in order those lines of bytes between newlines that have a byte
other than a blank ahead of their first `//`.  Their words are the longest runs of such bytes; the
text of a word is what its span covers.  There are at most as many lines as newlines, and one.
-/
theorem lines_partition (source : String) :
    (lines source).Pairwise (fun x y => x.span.line < y.span.line) ∧
      (lines source).length ≤ (bytes source).count newlineByte + 1 ∧
      (∀ line ∈ lines source, ∃ row : Stretch (bytes source), row.Gives source line) ∧
      ∀ row : Stretch (bytes source),
        ((∃ b ∈ row.code, isBlankByte b = false) → ∃ line ∈ lines source, row.Gives source line) ∧
        ((∀ b ∈ row.code, isBlankByte b = true) →
          ∀ line ∈ lines source, line.span.line ≠ row.number) := by
  rw [bytes_eq]
  refine ⟨pairwise_linesFrom _, ?_, ?_, ?_⟩
  · rw [count_newlineByte]
    exact Nat.le_trans (length_linesFrom_le _) (length_lines_le _)
  · intro line hline
    obtain ⟨before, text, after, hsource, hfull, hread⟩ := exists_of_mem_linesFrom hline
    obtain ⟨code, comment, rfl, hcut⟩ : ∃ code comment, text = code ++ comment ∧ IsCut code comment :=
      ⟨_, exists_comment text⟩
    have hspells := Stretch.spells_ofChars hsource hfull hcut
    rw [← hspells.number_eq, Nat.zero_add] at hread
    exact ⟨_, (hspells.gives hread).2⟩
  · intro row
    obtain ⟨before, code, comment, after, hspells⟩ := row.exists_spells
    constructor
    · intro hsolid
      cases hline : line? row.number (byteLength before) (code ++ comment) with
      | some line => exact ⟨line, hspells.gives hline⟩
      | none =>
          rw [line?_eq_none_iff, hspells.isCut.beforeComment_eq,
            ← (tells_blank true).forall_mem_iff, hspells.code] at hline
          obtain ⟨b, hb, hblank⟩ := hsolid
          rw [hline b hb] at hblank
          cases hblank
    · intro hblank line hline heq
      have hnone : line? row.number (byteLength before) (code ++ comment) = none := by
        rw [line?_eq_none_iff, hspells.isCut.beforeComment_eq,
          ← (tells_blank true).forall_mem_iff, hspells.code]
        exact hblank
      rw [hspells.lines_eq, hnone, List.mem_append] at hline
      rcases hline with hearlier | hlater
      · have hnumber := (number_of_mem_linesFrom hearlier).2
        rw [length_lines_of_isClosed hspells.isFullLine.opens, ← hspells.number_eq] at hnumber
        omega
      · have hnumber := (number_of_mem_linesFrom hlater).1
        omega

namespace Sample

/-- A word of two bytes, a word behind a tab, and a line that has a comment only. -/
def accented : String := "é\tx// y\r\n // z"

/-- The bytes of the first line. -/
def accentedRow : Stretch (bytes accented) where
  prior := []
  code := [195, 169, 9, 120]
  comment := [47, 47, 32, 121, 13]
  later := [10, 32, 47, 47, 32, 122]
  split := by
    rw [bytes_eq]
    rfl
  oneLine := by decide
  opens := by simp
  closes := by simp [newlineByte]
  mark := by decide
  first := by decide

theorem gives_accented :
    lines accented = [⟨⟨"é", 1, 0, 2⟩, [⟨"x", 1, 3, 4⟩]⟩] ∧
      accentedRow.Gives accented ⟨⟨"é", 1, 0, 2⟩, [⟨"x", 1, 3, 4⟩]⟩ := by
  have hlines : lines accented = [⟨⟨"é", 1, 0, 2⟩, [⟨"x", 1, 3, 4⟩]⟩] := rfl
  obtain ⟨line, hline, hgives⟩ :=
    ((lines_partition accented).2.2.2 accentedRow).1 ⟨195, List.mem_cons_self, rfl⟩
  rw [hlines, List.mem_singleton] at hline
  subst hline
  exact ⟨hlines, hgives⟩

end Sample

end Source

end StackVm
