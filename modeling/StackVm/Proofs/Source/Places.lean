import StackVm.Proofs.Source.RoundTrip

/-! # Places of words

The span of a word, and the span of a line from its first word to its last, mark
what they were read from: their bytes are those of the text, whatever characters
stand before it, and their line counts the newlines before it.
-/

namespace StackVm

namespace Text

/-- A text on one line and outside of comments, with no blank at either end. -/
structure IsPhrase (cs : List Char) : Prop where
  ne_nil : cs ≠ []
  oneLine : '\n' ∉ cs
  noComment : ¬ ['/', '/'] <:+: cs
  first : ∀ c ∈ cs.head?, isAsciiBlank c = false
  last : ∀ c ∈ cs.getLast?, isAsciiBlank c = false

/-- A line is cut at its first `//`. -/
structure IsCut (code comment : List Char) : Prop where
  mark : comment = [] ∨ ['/', '/'] <+: comment
  first : ¬ ['/', '/'] <:+: code ++ comment.take 1

theorem exists_comment (cs : List Char) :
    ∃ comment, cs = beforeComment cs ++ comment ∧ IsCut (beforeComment cs) comment := by
  fun_induction beforeComment cs with
  | case1 => exact ⟨[], rfl, .inl rfl, by simp⟩
  | case2 rest =>
      have hone : ¬ ['/', '/'] <:+: ['/'] := by decide
      exact ⟨'/' :: '/' :: rest, rfl, .inr ⟨rest, rfl⟩, hone⟩
  | case3 c rest hmark ih =>
      obtain ⟨comment, hrest, hcut⟩ := ih
      refine ⟨comment, congrArg (c :: ·) hrest, hcut.mark, ?_⟩
      rw [List.cons_append, List.infix_cons_iff, not_or]
      refine ⟨fun hprefix => ?_, hcut.first⟩
      obtain ⟨rfl, hnext⟩ := List.cons_prefix_cons.1 hprefix
      have hwhole : beforeComment rest ++ comment.take 1 <+: rest := by
        conv => rhs; rw [hrest]
        exact List.prefix_append_right_inj _ |>.2 (List.take_prefix 1 comment)
      obtain ⟨more, hmore⟩ := hnext.trans hwhole
      exact hmark more rfl hmore.symm

theorem not_infix_beforeComment (cs : List Char) : ¬ ['/', '/'] <:+: beforeComment cs := by
  obtain ⟨comment, -, hcut⟩ := exists_comment cs
  exact fun h => hcut.first (h.trans (List.prefix_append _ _).isInfix)

theorem IsCut.beforeComment_eq {code comment : List Char} (h : IsCut code comment) :
    beforeComment (code ++ comment) = code := by
  induction code with
  | nil =>
      rcases h.mark with rfl | ⟨rest, rfl⟩ <;> rfl
  | cons c code ih =>
      have hfirst := h.first
      rw [List.cons_append, List.infix_cons_iff, not_or] at hfirst
      have hcode := ih ⟨h.mark, hfirst.2⟩
      rw [List.cons_append, beforeComment, hcode]
      rintro rest rfl hrest
      apply hfirst.1
      refine List.cons_prefix_cons.2 ⟨rfl, ?_⟩
      cases code with
      | nil =>
          have hnext : comment = '/' :: rest := hrest
          rw [hnext]
          exact List.prefix_rfl
      | cons d code =>
          obtain ⟨rfl, -⟩ := List.cons.inj hrest
          exact ⟨_, rfl⟩

theorem count_append_newline {text : List Char} (h : '\n' ∉ text) (rest : List Char) :
    (text ++ '\n' :: rest).count '\n' = 1 + rest.count '\n' := by
  rw [List.count_append, List.count_eq_zero.2 h, List.count_cons_self]
  omega

theorem byteLength_append_newline (text rest : List Char) :
    byteLength (text ++ '\n' :: rest) = byteLength text + 1 + byteLength rest := by
  rw [byteLength_append, byteLength_cons, Nat.add_assoc]
  rfl

/-- Texts are made up of lines with their newlines, and of a last line that may lack it. -/
@[elab_as_elim]
theorem lineInduction {motive : List Char → Prop} (nil : motive [])
    (last : ∀ text, text ≠ [] → '\n' ∉ text → motive text)
    (line : ∀ text rest, '\n' ∉ text → motive rest → motive (text ++ '\n' :: rest))
    (cs : List Char) : motive cs := by
  induction hlength : cs.length using Nat.strongRecOn generalizing cs with
  | ind length ih =>
      by_cases hnewline : '\n' ∈ cs
      · obtain ⟨text, rest, rfl, htext⟩ := List.eq_append_cons_of_mem hnewline
        rw [List.length_append, List.length_cons] at hlength
        exact line text rest htext (ih rest.length (by omega) rest rfl)
      · by_cases hempty : cs = []
        · rw [hempty]
          exact nil
        · exact last cs hempty hnewline

/-- A text that has no characters behind its last newline. -/
def IsClosed (cs : List Char) : Prop :=
  ∀ c ∈ cs.getLast?, c = '\n'

theorem isClosed_nil : IsClosed [] := by
  intro c hc
  cases hc

/-- Closed texts are made up of lines with their newlines. -/
@[elab_as_elim]
theorem closedInduction {motive : (cs : List Char) → IsClosed cs → Prop}
    (nil : ∀ h, motive [] h)
    (line : ∀ text rest h, '\n' ∉ text → motive rest h → ∀ h, motive (text ++ '\n' :: rest) h)
    (cs : List Char) (h : IsClosed cs) : motive cs h := by
  induction cs using lineInduction with
  | nil => exact nil h
  | last text hne htext =>
      have hlast := h _ (List.getLast?_eq_some_getLast hne)
      exact absurd (hlast ▸ List.getLast_mem hne) htext
  | line text rest htext ih =>
      have hrest : IsClosed rest := by
        intro c hc
        apply h
        rw [List.getLast?_append, List.getLast?_cons, Option.mem_def.1 hc]
        rfl
      exact line text rest hrest htext (ih hrest) h

/-- The text between two others is all that stands between two newlines. -/
structure IsFullLine (before text after : List Char) : Prop where
  oneLine : '\n' ∉ text
  opens : IsClosed before
  closes : ∀ c ∈ after.head?, c = '\n'

end Text

open Text

/-! ## Marks -/

/-- A span marks a text among characters that start at a given line and byte. -/
def Span.Marks (span : Span) (number offset : Nat) (chars text : List Char) : Prop :=
  ∃ before after, chars = before ++ text ++ after ∧
    span = ⟨number + before.count '\n', offset + byteLength before,
      offset + byteLength before + byteLength text⟩

namespace Span.Marks

variable {span : Span} {number offset : Nat} {chars text : List Char}

theorem within {prior : List Char} (later : List Char)
    (h : span.Marks (number + prior.count '\n') (offset + byteLength prior) chars text) :
    span.Marks number offset (prior ++ chars ++ later) text := by
  obtain ⟨before, after, rfl, rfl⟩ := h
  refine ⟨prior ++ before, after ++ later, by simp, ?_⟩
  rw [List.count_append, byteLength_append, Nat.add_assoc number, Nat.add_assoc offset]

theorem isInfix (h : span.Marks number offset chars text) : text <:+: chars := by
  obtain ⟨before, after, rfl, -⟩ := h
  exact ⟨before, after, rfl⟩

end Span.Marks

namespace Source

variable {number offset : Nat} {chars : List Char}

/-! ## Words -/

theorem mem_words {word : Word} (hline : '\n' ∉ chars)
    (hword : word ∈ words number offset chars) :
    word.span.Marks number offset chars word.text.toList ∧ word.text.toList ≠ [] ∧
      ∀ c ∈ word.text.toList, isAsciiBlank c = false := by
  obtain ⟨before, run, after, rfl, hrun, rfl⟩ := mem_words_iff.1 hword
  rw [String.toList_ofList]
  refine ⟨⟨before, after, rfl, ?_⟩, hrun.ne_nil, hrun.solid⟩
  rw [List.count_eq_zero.2 fun hmem => hline (by simp [hmem]), Nat.add_zero]

theorem span_cons (first second : Word) (others : List Word) :
    (Line.mk first (second :: others)).span =
      ⟨first.span.line, first.span.start, (Line.mk second others).span.stop⟩ := by
  simp [Line.span, Line.last, List.getLast?_cons]

/-- The span of words marks the text from the first of them to the last. -/
theorem span_marks {first : Word} {others : List Word} (hline : '\n' ∉ chars)
    (hwords : words number offset chars = first :: others) :
    ∃ text, (Line.mk first others).span.Marks number offset chars text ∧ text ≠ [] ∧
      (∀ c ∈ text.head?, isAsciiBlank c = false) ∧
      ∀ c ∈ text.getLast?, isAsciiBlank c = false := by
  induction chars using runInduction generalizing offset first others with
  | nil => cases hwords
  | blank c cs hc ih =>
      obtain ⟨hne, hcs⟩ : '\n' ≠ c ∧ '\n' ∉ cs := by simpa using hline
      rw [words_cons_blank hc] at hwords
      obtain ⟨text, ⟨before, after, rfl, hspan⟩, htext⟩ := ih hcs hwords
      refine ⟨text, ⟨c :: before, after, rfl, ?_⟩, htext⟩
      rw [hspan, List.count_cons_of_ne hne.symm, byteLength_cons, utf8Size_of_isAsciiBlank hc,
        ← Nat.add_assoc]
  | run run rest hne hrun hrest ih =>
      have hrunline : run.count '\n' = 0 :=
        List.count_eq_zero.2 fun hmem => hline (List.mem_append_left _ hmem)
      have hhead : ∀ more, ∀ c ∈ (run ++ more).head?, isAsciiBlank c = false := by
        intro more c hc
        rw [List.head?_append, List.head?_eq_some_head hne] at hc
        cases hc
        exact hrun _ (List.head_mem hne)
      rw [words_run hne hrun hrest] at hwords
      obtain ⟨rfl, rfl⟩ := List.cons.inj hwords
      cases hmore : words number (offset + byteLength run) rest with
      | nil =>
          refine ⟨run, ⟨[], rest, rfl, rfl⟩, hne, ?_, ?_⟩
          · simpa using hhead []
          · exact fun c hc => hrun c (List.mem_of_getLast? hc)
      | cons second others =>
          obtain ⟨text, ⟨before, after, rfl, hspan⟩, htext, -, hlast⟩ :=
            ih (fun hmem => hline (List.mem_append_right _ hmem)) hmore
          refine ⟨run ++ before ++ text, ⟨[], after, by simp, ?_⟩, ?_, ?_, ?_⟩
          · rw [span_cons, hspan]
            simp only [byteLength_append, byteLength_nil, List.count_nil, Nat.add_zero,
              Nat.add_assoc]
          · simp [hne]
          · rw [List.append_assoc]
            exact hhead (before ++ text)
          · intro c hc
            rw [List.getLast?_append, List.getLast?_eq_some_getLast htext] at hc
            exact hlast c (by rwa [List.getLast?_eq_some_getLast htext])

/-! ## Lines -/

theorem linesFrom_cons (others : List (List Char)) :
    linesFrom number offset (chars :: others) =
      (line? number offset chars).toList ++
        linesFrom (number + 1) (offset + byteLength chars + 1) others := by
  rw [linesFrom]
  cases line? number offset chars <;> rfl

/-- A line of a text gives what its words give, and the others follow. -/
theorem linesFrom_line {text after : List Char} (htext : '\n' ∉ text)
    (hafter : ∀ c ∈ after.head?, c = '\n') :
    linesFrom number offset (Text.lines (text ++ after)) =
      (line? number offset text).toList ++
        linesFrom (number + 1) (offset + byteLength text + 1) (Text.lines after.tail) := by
  cases after with
  | cons c after =>
      obtain rfl : c = '\n' := hafter c rfl
      rw [lines_append_newline htext, linesFrom_cons]
      rfl
  | nil =>
      rw [List.append_nil]
      by_cases hempty : text = []
      · rw [hempty]
        rfl
      · rw [lines_of_not_mem htext hempty, linesFrom_cons]
        rfl

/-- The lines behind a newline do not depend on those before it, except for their places. -/
theorem linesFrom_append {before : List Char} (h : IsClosed before) (rest : List Char) :
    linesFrom number offset (Text.lines (before ++ rest)) =
      linesFrom number offset (Text.lines before) ++
        linesFrom (number + before.count '\n') (offset + byteLength before) (Text.lines rest) := by
  induction before, h using closedInduction generalizing number offset with
  | nil => rfl
  | line text more _ htext ih =>
      rw [List.append_assoc, List.cons_append, lines_append_newline htext, lines_append_newline htext,
        linesFrom_cons, linesFrom_cons, ih, count_append_newline htext,
        byteLength_append_newline, List.append_assoc]
      simp only [Nat.add_assoc]

/-- A line is read from characters between two newlines. -/
theorem exists_of_mem_linesFrom {line : Line}
    (h : line ∈ linesFrom number offset (Text.lines chars)) :
    ∃ before text after, chars = before ++ text ++ after ∧ IsFullLine before text after ∧
      line? (number + before.count '\n') (offset + byteLength before) text = some line := by
  induction chars using lineInduction generalizing number offset with
  | nil => cases h
  | last text hne htext =>
      rw [lines_of_not_mem htext hne, linesFrom_cons, List.mem_append, Option.mem_toList] at h
      rcases h with hfirst | hrest
      · exact ⟨[], text, [], by simp, ⟨htext, isClosed_nil, by simp⟩, hfirst⟩
      · cases hrest
  | line text rest htext ih =>
      rw [lines_append_newline htext, linesFrom_cons, List.mem_append, Option.mem_toList] at h
      rcases h with hfirst | hrest
      · exact ⟨[], text, '\n' :: rest, rfl, ⟨htext, isClosed_nil, by simp⟩, hfirst⟩
      · obtain ⟨before, other, after, rfl, hother, hread⟩ := ih hrest
        refine ⟨text ++ '\n' :: before, other, after, by simp, ⟨hother.oneLine, ?_, hother.closes⟩, ?_⟩
        · exact forall_getLast?_append_cons (P := (· = '\n')) rfl hother.opens text
        · rw [count_append_newline htext, byteLength_append_newline, ← Nat.add_assoc,
            ← Nat.add_assoc, ← Nat.add_assoc]
          exact hread

/-- What a line of a text and its words mark. -/
structure Line.Marked (line : Line) (number offset : Nat) (chars : List Char) : Prop where
  words : ∀ word ∈ line.words,
    word.span.Marks number offset chars word.text.toList ∧ IsPhrase word.text.toList
  span : ∃ text, line.span.Marks number offset chars text ∧ IsPhrase text

theorem Line.Marked.within {line : Line} {prior : List Char} (later : List Char)
    (h : line.Marked (number + prior.count '\n') (offset + byteLength prior) chars) :
    line.Marked number offset (prior ++ chars ++ later) where
  words word hword := ⟨(h.words word hword).1.within later, (h.words word hword).2⟩
  span := by
    obtain ⟨text, hmarks, hphrase⟩ := h.span
    exact ⟨text, hmarks.within later, hphrase⟩

theorem marked_of_line? {line : Line} (hline : '\n' ∉ chars)
    (h : line? number offset chars = some line) : line.Marked number offset chars := by
  obtain ⟨comment, hcomment, -⟩ := exists_comment chars
  have hcode : '\n' ∉ beforeComment chars := by
    intro hmem
    rw [hcomment] at hline
    exact hline (List.mem_append_left _ hmem)
  have hphrase : ∀ {span : Span} {text : List Char},
      span.Marks number offset (beforeComment chars) text → text ≠ [] →
      (∀ c ∈ text.head?, isAsciiBlank c = false) → (∀ c ∈ text.getLast?, isAsciiBlank c = false) →
      IsPhrase text := by
    intro span text hmarks hne hfirst hlast
    refine ⟨hne, fun hmem => hcode (hmarks.isInfix.subset hmem), ?_, hfirst, hlast⟩
    exact fun hslashes => not_infix_beforeComment chars (hslashes.trans hmarks.isInfix)
  unfold line? at h
  cases hwords : words number offset (beforeComment chars) with
  | nil =>
      rw [hwords] at h
      cases h
  | cons first others =>
      rw [hwords] at h
      cases h
      have hmarked : (Line.mk first others).Marked number offset (beforeComment chars) := by
        constructor
        · intro word hword
          have hmem : word ∈ first :: others := hword
          rw [← hwords] at hmem
          obtain ⟨hmarks, hne, hplain⟩ := mem_words hcode hmem
          refine ⟨hmarks, hphrase hmarks hne ?_ ?_⟩
          · exact fun c hc => hplain c (List.mem_of_mem_head? hc)
          · exact fun c hc => hplain c (List.mem_of_getLast? hc)
        · obtain ⟨text, hmarks, hne, hfirst, hlast⟩ := span_marks hcode hwords
          exact ⟨text, hmarks, hphrase hmarks hne hfirst hlast⟩
      have hwithin := @Line.Marked.within number offset _ _ [] comment hmarked
      rwa [List.nil_append, ← hcomment] at hwithin

/-- The lines of a source text mark what they were read from. -/
theorem marked_of_mem_lines {source : String} {line : Line} (h : line ∈ lines source) :
    line.Marked 1 0 source.toList := by
  obtain ⟨before, text, after, hsource, htext, hline⟩ := exists_of_mem_linesFrom h
  rw [hsource]
  exact (marked_of_line? htext.oneLine hline).within after

end Source

/-! ## Slices -/

/-- What a reader of an error may rely on, if its span covers a text of a source. -/
structure Span.Locates (span : Span) (source text : String) : Prop where
  line : ∃ prior later, source = prior ++ later ∧ span.start = prior.utf8ByteSize ∧
    span.line = 1 + prior.toList.count '\n'
  start_lt_stop : span.start < span.stop
  stop_le : span.stop ≤ source.utf8ByteSize
  startValid : String.Pos.Raw.IsValid source ⟨span.start⟩
  stopValid : String.Pos.Raw.IsValid source ⟨span.stop⟩
  slice : span.slice source = text.toByteArray
  phrase : IsPhrase text.toList

/-- The newlines before a text are bytes before it. -/
theorem Span.Locates.line_le_stop {span : Span} {source text : String}
    (h : span.Locates source text) : span.line ≤ span.stop := by
  obtain ⟨prior, later, -, hstart, hcount⟩ := h.line
  have hle : prior.toList.count '\n' ≤ prior.utf8ByteSize :=
    Nat.le_trans List.count_le_length (length_le_utf8ByteSize prior)
  have hlt := h.start_lt_stop
  omega

theorem Span.Marks.locates {span : Span} {source : String} {text : List Char}
    (h : span.Marks 1 0 source.toList text) (hphrase : IsPhrase text) :
    span.Locates source (String.ofList text) := by
  obtain ⟨before, after, hsource, rfl⟩ := h
  obtain ⟨prior, rfl⟩ : ∃ prior : String, prior.toList = before := ⟨_, String.toList_ofList⟩
  obtain ⟨later, rfl⟩ : ∃ later : String, later.toList = after := ⟨_, String.toList_ofList⟩
  obtain ⟨text, rfl⟩ : ∃ string : String, string.toList = text := ⟨_, String.toList_ofList⟩
  rw [String.ofList_toList]
  obtain rfl : source = prior ++ text ++ later := by
    rw [← String.toList_inj, hsource, String.toList_append, String.toList_append]
  have hpos : 0 < text.utf8ByteSize :=
    Nat.lt_of_lt_of_le (List.length_pos_iff.2 hphrase.ne_nil) (length_le_utf8ByteSize text)
  simp only [Nat.zero_add, byteLength_toList]
  refine ⟨⟨prior, text ++ later, String.append_assoc, rfl, rfl⟩, ?_, ?_, ?_, ?_, ?_, hphrase⟩
  · exact Nat.lt_add_of_pos_right hpos
  · rw [String.utf8ByteSize_append, String.utf8ByteSize_append]
    exact Nat.le_add_right _ _
  · rw [String.Pos.Raw.isValid_iff_exists_append]
    exact ⟨prior, text ++ later, String.append_assoc, rfl⟩
  · rw [String.Pos.Raw.isValid_iff_exists_append]
    refine ⟨prior ++ text, later, rfl, ?_⟩
    rw [String.Pos.Raw.ext_iff, String.byteIdx_rawEndPos, String.utf8ByteSize_append]
  · exact Span.slice_append rfl rfl

end StackVm
