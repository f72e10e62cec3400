import StackVm.Proofs.Names

/-! # Words that are read back

Words with one space between two are read as they were written.  Blanks before them
only move their place, a line feed also to the next line, and blanks or a comment
after them change nothing.
-/

namespace StackVm

namespace Text

theorem byteLength_toList (text : String) : byteLength text.toList = text.utf8ByteSize := by
  have hbytes : ∀ cs : List Char, byteLength cs = (String.ofList cs).utf8ByteSize := by
    intro cs
    induction cs with
    | nil => rfl
    | cons c cs ih =>
        rw [byteLength_cons, String.ofList_cons, String.utf8ByteSize_append,
          String.utf8ByteSize_singleton, ih]
  rw [hbytes, String.ofList_toList]

theorem length_le_utf8ByteSize (text : String) : text.toList.length ≤ text.utf8ByteSize := by
  rw [← byteLength_toList]
  generalize text.toList = cs
  induction cs with
  | nil => exact Nat.le_refl _
  | cons c cs ih =>
      have hc := c.utf8Size_pos
      rw [List.length_cons, byteLength_cons]
      omega

/-! ## Blanks and comments -/

theorem utf8Size_of_isAsciiBlank {c : Char} (h : isAsciiBlank c = true) : c.utf8Size = 1 := by
  simp only [isAsciiBlank, Bool.or_eq_true, beq_iff_eq] at h
  rcases h with (((rfl | rfl) | rfl) | rfl) | rfl <;> decide

theorem ne_slash_of_isAsciiBlank {c : Char} (h : isAsciiBlank c = true) : c ≠ '/' := by
  rintro rfl
  cases h

theorem isAsciiBlank_of_isPlain {c : Char} (h : isPlain c = true) : isAsciiBlank c = false := by
  rw [Bool.eq_false_iff]
  intro hblank
  simp [isPlain, isBlank_of_isAsciiBlank hblank] at h

theorem beforeComment_of_not_mem {cs : List Char} (h : '/' ∉ cs) (rest : List Char) :
    beforeComment (cs ++ rest) = cs ++ beforeComment rest := by
  induction cs with
  | nil => rfl
  | cons c cs ih =>
      obtain ⟨hc, hcs⟩ : '/' ≠ c ∧ '/' ∉ cs := by simpa using h
      rw [List.cons_append, List.cons_append, ← ih hcs]
      simp [beforeComment, hc.symm]

theorem pieces_append {isMark : Char → Bool} {cs rest piece : List Char}
    {others : List (List Char)} (hcs : ∀ c ∈ cs, isMark c = false)
    (hrest : pieces isMark rest = piece :: others) :
    pieces isMark (cs ++ rest) = (cs ++ piece) :: others := by
  induction cs with
  | nil => exact hrest
  | cons c cs ih =>
      rw [List.forall_mem_cons] at hcs
      rw [List.cons_append, pieces_cons _ hcs.1, ih hcs.2, List.cons_append]

theorem forall_getLast?_append_cons {P : Char → Prop} {c : Char} {ys : List Char} (hc : P c)
    (hys : ∀ d ∈ ys.getLast?, P d) (xs : List Char) : ∀ d ∈ (xs ++ c :: ys).getLast?, P d := by
  intro d hd
  rw [List.getLast?_append, List.getLast?_cons] at hd
  cases hlast : ys.getLast? with
  | none =>
      rw [hlast] at hd
      cases hd
      exact hc
  | some e =>
      rw [hlast] at hd
      cases hd
      exact hys _ hlast

end Text

namespace Source

open Text

variable {number offset : Nat} {c : Char} {cs : List Char}

/-! ## Words on a line -/

theorem words_cons_blank (h : isAsciiBlank c = true) :
    words number offset (c :: cs) = words number (offset + 1) cs := by
  simp [words, pieces_mark _ h, wordsAt]

theorem words_of_blanks (h : ∀ c ∈ cs, isAsciiBlank c = true) : words number offset cs = [] := by
  induction cs generalizing offset with
  | nil => rfl
  | cons c cs ih =>
      rw [List.forall_mem_cons] at h
      rw [words_cons_blank h.1, ih h.2]

/-- A word ends at the first blank. -/
theorem words_run {run rest : List Char} (hne : run ≠ [])
    (hrun : ∀ c ∈ run, isAsciiBlank c = false) (hrest : ∀ c ∈ rest.head?, isAsciiBlank c = true) :
    words number offset (run ++ rest) =
      ⟨String.ofList run, ⟨number, offset, offset + byteLength run⟩⟩ ::
        words number (offset + byteLength run) rest := by
  have hpiece : ∀ others, wordsAt number offset (run :: others) =
      ⟨String.ofList run, ⟨number, offset, offset + byteLength run⟩⟩ ::
        wordsAt number (offset + byteLength run + 1) others := by
    intro others
    rw [wordsAt, if_neg (by simpa using hne)]
  cases rest with
  | nil =>
      rw [words, pieces_append hrun (pieces_nil _), List.append_nil, hpiece]
      rfl
  | cons c rest =>
      have hc : isAsciiBlank c = true := hrest c rfl
      rw [words, pieces_append hrun (pieces_mark rest hc), List.append_nil, hpiece,
        words_cons_blank hc, words]

theorem words_append {text : String} (htext : IsWord text) {rest : List Char}
    (hrest : ∀ c ∈ rest.head?, isAsciiBlank c = true) :
    words number offset (text.toList ++ rest) =
      ⟨text, ⟨number, offset, offset + text.utf8ByteSize⟩⟩ ::
        words number (offset + text.utf8ByteSize) rest := by
  have hplain : ∀ c ∈ text.toList, isAsciiBlank c = false :=
    fun c hc => isAsciiBlank_of_isPlain (List.all_eq_true.1 htext.plain c hc)
  rw [words_run htext.ne_nil hplain hrest, String.ofList_toList, byteLength_toList]

/-- Words from a place on, one byte between two. -/
def placed (number offset : Nat) : List String → List Word
  | [] => []
  | text :: rest =>
      ⟨text, ⟨number, offset, offset + text.utf8ByteSize⟩⟩ ::
        placed number (offset + text.utf8ByteSize + 1) rest

theorem words_intercalate {texts : List String} (htexts : ∀ text ∈ texts, IsWord text)
    {gap : List Char} (hgap : ∀ c ∈ gap, isAsciiBlank c = true) :
    words number offset ((" ".intercalate texts).toList ++ gap) = placed number offset texts := by
  induction texts generalizing offset with
  | nil => exact words_of_blanks hgap
  | cons text rest ih =>
      rw [List.forall_mem_cons] at htexts
      cases rest with
      | nil =>
          rw [String.intercalate_singleton, words_append htexts.1, words_of_blanks hgap]
          · rfl
          · intro c hc
            exact hgap c (List.mem_of_mem_head? hc)
      | cons next others =>
          have hspace : (" ".intercalate (text :: next :: others)).toList ++ gap =
              text.toList ++ ' ' :: ((" ".intercalate (next :: others)).toList ++ gap) := by
            simp [String.intercalate_cons_cons]
          rw [hspace, words_append htexts.1, words_cons_blank rfl, ih htexts.2]
          · rfl
          · rintro c ⟨⟩
            rfl

/-- Words with one space between two span the text that they make up. -/
theorem span_placed (number offset : Nat) (text : String) (rest : List String) :
    (Line.mk ⟨text, ⟨number, offset, offset + text.utf8ByteSize⟩⟩
        (placed number (offset + text.utf8ByteSize + 1) rest)).span =
      ⟨number, offset, offset + (" ".intercalate (text :: rest)).utf8ByteSize⟩ := by
  have hlast : (Line.mk ⟨text, ⟨number, offset, offset + text.utf8ByteSize⟩⟩
      (placed number (offset + text.utf8ByteSize + 1) rest)).last.span.stop =
        offset + (" ".intercalate (text :: rest)).utf8ByteSize := by
    induction rest generalizing text offset with
    | nil => simp [placed, Line.last, String.intercalate_singleton]
    | cons next others ih =>
        have hnext := ih (offset + text.utf8ByteSize + 1) next
        simp only [Line.last, placed, List.getLast?_cons, Option.getD_some] at hnext ⊢
        rw [hnext, String.intercalate_cons_cons, String.utf8ByteSize_append,
          String.utf8ByteSize_append]
        have hspace : " ".utf8ByteSize = 1 := by decide
        omega
  rw [Line.span, hlast]

/-! ## Longest runs -/

theorem exists_run {c : Char} (cs : List Char) (h : isAsciiBlank c = false) :
    ∃ run rest, c :: cs = run ++ rest ∧ run ≠ [] ∧ (∀ d ∈ run, isAsciiBlank d = false) ∧
      ∀ d ∈ rest.head?, isAsciiBlank d = true := by
  refine ⟨(c :: cs).takeWhile (!isAsciiBlank ·), (c :: cs).dropWhile (!isAsciiBlank ·),
    List.takeWhile_append_dropWhile.symm, by simp [h], ?_, ?_⟩
  · intro d hd
    simpa using List.all_eq_true.1 List.all_takeWhile d hd
  · intro d hd
    have hstop := List.head?_dropWhile_not (!isAsciiBlank ·) (c :: cs)
    rw [show _ = some d from hd] at hstop
    simpa using hstop

/-- Texts are made up of blanks and of runs that a blank ends. -/
@[elab_as_elim]
theorem runInduction {motive : List Char → Prop} (nil : motive [])
    (blank : ∀ c cs, isAsciiBlank c = true → motive cs → motive (c :: cs))
    (run : ∀ run rest, run ≠ [] → (∀ c ∈ run, isAsciiBlank c = false) →
      (∀ c ∈ rest.head?, isAsciiBlank c = true) → motive rest → motive (run ++ rest))
    (cs : List Char) : motive cs := by
  induction hlength : cs.length using Nat.strongRecOn generalizing cs with
  | ind length ih =>
      cases cs with
      | nil => exact nil
      | cons c cs =>
          cases hc : isAsciiBlank c with
          | true => exact blank c cs hc (ih cs.length (by simp [← hlength]) cs rfl)
          | false =>
              obtain ⟨word, rest, hsplit, hne, hword, hrest⟩ := exists_run cs hc
              have hpos := List.length_pos_iff.2 hne
              rw [hsplit] at hlength ⊢
              rw [List.length_append] at hlength
              exact run word rest hne hword hrest (ih rest.length (by omega) rest rfl)

theorem words_append_blank {mark : Char} (hmark : isAsciiBlank mark = true) (xs ys : List Char) :
    words number offset (xs ++ mark :: ys) =
      words number offset xs ++ words number (offset + byteLength xs + 1) ys := by
  induction xs using runInduction generalizing offset with
  | nil => rw [List.nil_append, words_cons_blank hmark]; rfl
  | blank c cs hc ih =>
      rw [List.cons_append, words_cons_blank hc, words_cons_blank hc, ih, byteLength_cons,
        utf8Size_of_isAsciiBlank hc]
      simp only [Nat.add_assoc]
  | run run rest hne hrun hrest ih =>
      have hnext : ∀ c ∈ (rest ++ mark :: ys).head?, isAsciiBlank c = true := by
        cases rest with
        | nil =>
            intro c hc
            cases hc
            exact hmark
        | cons d rest => exact hrest
      rw [List.append_assoc, words_run hne hrun hnext, words_run hne hrun hrest, ih,
        byteLength_append, List.cons_append]
      simp only [Nat.add_assoc]

/-- Words behind a blank do not depend on what stands before it. -/
theorem words_append_of_blank {before : List Char}
    (h : ∀ c ∈ before.getLast?, isAsciiBlank c = true) (rest : List Char) :
    words number offset (before ++ rest) =
      words number offset before ++ words number (offset + byteLength before) rest := by
  rcases List.eq_nil_or_concat before with rfl | ⟨xs, mark, rfl⟩
  · rfl
  · rw [List.concat_eq_append] at h ⊢
    have hmark : isAsciiBlank mark = true := h mark (by simp)
    have hbefore : words number offset (xs ++ [mark]) = words number offset xs := by
      rw [words_append_blank hmark]
      exact List.append_nil _
    rw [List.append_assoc, List.singleton_append, words_append_blank hmark, hbefore,
      byteLength_append, byteLength_cons, utf8Size_of_isAsciiBlank hmark]
    rfl

theorem words_eq_nil_iff {cs : List Char} :
    words number offset cs = [] ↔ ∀ c ∈ cs, isAsciiBlank c = true := by
  refine ⟨?_, words_of_blanks⟩
  induction cs using runInduction generalizing offset with
  | nil => simp
  | blank c cs hc ih =>
      intro h
      rw [words_cons_blank hc] at h
      exact List.forall_mem_cons.2 ⟨hc, ih h⟩
  | run run rest hne hrun hrest ih =>
      intro h
      rw [words_run hne hrun hrest] at h
      cases h

/-- The text between two others is a longest run of characters that are not blank. -/
structure IsLongestRun (before run after : List Char) : Prop where
  ne_nil : run ≠ []
  solid : ∀ c ∈ run, isAsciiBlank c = false
  opens : ∀ c ∈ before.getLast?, isAsciiBlank c = true
  closes : ∀ c ∈ after.head?, isAsciiBlank c = true

/-- A run at the start of a text that starts with a blank has something before it. -/
theorem IsLongestRun.before_ne_nil {before run after : List Char} (h : IsLongestRun before run after)
    (hhead : ∀ c ∈ (before ++ run ++ after).head?, isAsciiBlank c = true) : before ≠ [] := by
  intro hnil
  subst hnil
  cases run with
  | nil => exact h.ne_nil rfl
  | cons c run =>
      have hblank := hhead c rfl
      rw [h.solid c List.mem_cons_self] at hblank
      cases hblank

/-- The words of a text are its longest runs. -/
theorem mem_words_iff {cs : List Char} {word : Word} :
    word ∈ words number offset cs ↔
      ∃ before run after, cs = before ++ run ++ after ∧ IsLongestRun before run after ∧
        word = ⟨String.ofList run, ⟨number, offset + byteLength before,
          offset + byteLength before + byteLength run⟩⟩ := by
  constructor
  · intro h
    induction cs using runInduction generalizing offset with
    | nil => cases h
    | blank c cs hc ih =>
        rw [words_cons_blank hc] at h
        obtain ⟨before, run, after, rfl, hrun, rfl⟩ := ih h
        refine ⟨c :: before, run, after, rfl, ⟨hrun.ne_nil, hrun.solid, ?_, hrun.closes⟩, ?_⟩
        · exact forall_getLast?_append_cons hc hrun.opens []
        · rw [byteLength_cons, utf8Size_of_isAsciiBlank hc, ← Nat.add_assoc]
    | run first rest hne hfirst hrest ih =>
        rw [words_run hne hfirst hrest, List.mem_cons] at h
        rcases h with rfl | h
        · exact ⟨[], first, rest, rfl, ⟨hne, hfirst, by simp, hrest⟩, rfl⟩
        · obtain ⟨before, run, after, rfl, hrun, rfl⟩ := ih h
          have hbefore := hrun.before_ne_nil hrest
          refine ⟨first ++ before, run, after, by simp, ⟨hrun.ne_nil, hrun.solid, ?_, hrun.closes⟩, ?_⟩
          · intro d hd
            rw [List.getLast?_append, List.getLast?_eq_some_getLast hbefore] at hd
            exact hrun.opens d (by rwa [List.getLast?_eq_some_getLast hbefore])
          · rw [byteLength_append, ← Nat.add_assoc]
  · rintro ⟨before, run, after, rfl, hrun, rfl⟩
    rw [List.append_assoc, words_append_of_blank hrun.opens,
      words_run hrun.ne_nil hrun.solid hrun.closes]
    exact List.mem_append_right _ List.mem_cons_self

/-! ## Lines of a text -/

theorem linesFrom_newline :
    linesFrom number offset (Text.lines ('\n' :: cs)) =
      linesFrom (number + 1) (offset + 1) (Text.lines cs) := by
  rw [lines_newline]
  rfl

theorem linesFrom_blank (h : isAsciiBlank c = true) (hline : c ≠ '\n') :
    linesFrom number offset (Text.lines (c :: cs)) = linesFrom number (offset + 1) (Text.lines cs) := by
  have hslash : '/' ∉ [c] := by simpa using (ne_slash_of_isAsciiBlank h).symm
  have hcomment : ∀ line, beforeComment (c :: line) = c :: beforeComment line :=
    beforeComment_of_not_mem hslash
  have hmoved : ∀ line, line? number offset (c :: line) = line? number (offset + 1) line := by
    intro line
    rw [line?, line?, hcomment, words_cons_blank h]
  rw [lines_cons _ hline]
  cases Text.lines cs with
  | nil =>
      simp only [linesFrom, hmoved]
      rfl
  | cons line others =>
      simp only [linesFrom, hmoved, byteLength_cons, utf8Size_of_isAsciiBlank h]
      rw [Nat.add_assoc offset 1]

/-- Blanks before a text move its lines. -/
theorem linesFrom_blanks {indent : List Char} (h : ∀ c ∈ indent, isAsciiBlank c = true) :
    linesFrom number offset (Text.lines (indent ++ cs)) =
      linesFrom (number + indent.count '\n') (offset + byteLength indent) (Text.lines cs) := by
  induction indent generalizing number offset with
  | nil => rfl
  | cons c indent ih =>
      rw [List.forall_mem_cons] at h
      rw [List.cons_append, byteLength_cons, utf8Size_of_isAsciiBlank h.1]
      by_cases hline : c = '\n'
      · subst hline
        rw [linesFrom_newline, ih h.2, List.count_cons_self, Nat.add_assoc, Nat.add_assoc,
          Nat.add_comm 1 (List.count _ _)]
      · rw [linesFrom_blank h.1 hline, ih h.2, List.count_cons_of_ne hline, Nat.add_assoc]

end Source

end StackVm
