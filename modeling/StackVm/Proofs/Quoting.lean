import StackVm.Proofs.Project

/-! # Quoted values

A project file is a sequence of headings, assignments, comments and blank lines.  The text
between the quotes of a key's last assignment is the value that the project gets, whatever
characters it holds and whatever comment comes after it.
-/

namespace StackVm

namespace Text

/-! ## Trimming -/

/-- A text with no character of a kind at its ends. -/
def IsTrimmed (p : Char → Bool) (cs : List Char) : Prop :=
  (∀ c ∈ cs.head?, p c = false) ∧ ∀ c ∈ cs.getLast?, p c = false

/-- A trimmed text with characters of a kind around it. -/
def Padded (p : Char → Bool) (core cs : List Char) : Prop :=
  IsTrimmed p core ∧ ∃ lead trail, (∀ c ∈ lead, p c = true) ∧ (∀ c ∈ trail, p c = true) ∧
    cs = lead ++ core ++ trail

section

variable {p : Char → Bool} {cs core left right : List Char} {mark : Char}

theorem dropWhile_append_of_head (hleft : ∀ c ∈ left, p c = true)
    (hright : ∀ c ∈ right.head?, p c = false) : (left ++ right).dropWhile p = right := by
  rw [List.dropWhile_append_of_pos hleft]
  cases right with
  | nil => rfl
  | cons c right => rw [List.dropWhile_cons_of_neg (by simp [hright c rfl])]

theorem head?_dropWhile_eq_false (p : Char → Bool) (cs : List Char) :
    ∀ c ∈ (cs.dropWhile p).head?, p c = false := by
  intro c hc
  have hstop := List.head?_dropWhile_not p cs
  rw [Option.mem_def.1 hc] at hstop
  exact hstop

/-- A mark that is not of the kind stops the dropping on both sides. -/
theorem dropWhile_append_cons (hmark : p mark = false) (left right : List Char) :
    (left ++ mark :: right).dropWhile p = left.dropWhile p ++ mark :: right := by
  induction left with
  | nil => rw [List.nil_append, List.dropWhile_cons_of_neg (by simp [hmark])]; rfl
  | cons c left ih =>
      by_cases hc : p c = true
      · rw [List.cons_append, List.dropWhile_cons_of_pos hc, List.dropWhile_cons_of_pos hc, ih]
      · rw [List.cons_append, List.dropWhile_cons_of_neg hc, List.dropWhile_cons_of_neg hc]
        rfl

theorem padded_trimBy (p : Char → Bool) (cs : List Char) : Padded p (trimBy p cs) cs := by
  have hback : trimBy p cs ++ ((cs.dropWhile p).reverse.takeWhile p).reverse = cs.dropWhile p := by
    rw [trimBy, ← List.reverse_append, List.takeWhile_append_dropWhile, List.reverse_reverse]
  refine ⟨⟨?_, ?_⟩, cs.takeWhile p, ((cs.dropWhile p).reverse.takeWhile p).reverse, ?_, ?_, ?_⟩
  · intro c hc
    refine head?_dropWhile_eq_false p cs c ?_
    rw [← hback, Option.mem_def, List.head?_append, Option.mem_def.1 hc, Option.some_or]
  · rw [trimBy, List.getLast?_reverse]
    exact head?_dropWhile_eq_false p _
  · exact List.all_eq_true.1 List.all_takeWhile
  · simp only [List.mem_reverse]
    exact List.all_eq_true.1 List.all_takeWhile
  · rw [List.append_assoc, hback, List.takeWhile_append_dropWhile]

theorem trimBy_eq_iff : trimBy p cs = core ↔ Padded p core cs := by
  constructor
  · rintro rfl
    exact padded_trimBy p cs
  · rintro ⟨⟨hhead, hlast⟩, lead, trail, hlead, htrail, rfl⟩
    cases core with
    | nil =>
        have hnone : (lead ++ trail).dropWhile p = [] := by
          rw [List.dropWhile_append_of_pos hlead, ← List.append_nil trail]
          exact List.dropWhile_append_of_pos htrail
        rw [List.append_nil, trimBy, hnone]
        rfl
    | cons c core =>
        have hfront : (lead ++ (c :: core) ++ trail).dropWhile p = c :: core ++ trail := by
          rw [List.append_assoc]
          exact dropWhile_append_of_head hlead hhead
        have hback : (trail.reverse ++ (c :: core).reverse).dropWhile p = (c :: core).reverse := by
          refine dropWhile_append_of_head ?_ ?_
          · simpa only [List.mem_reverse] using htrail
          · rwa [List.head?_reverse]
        rw [trimBy, hfront, List.reverse_append, hback, List.reverse_reverse]

theorem trim_eq_iff : trim cs = core ↔ Padded isBlank core cs :=
  trimBy_eq_iff

theorem trimEnd_append_cons (hmark : isBlank mark = false) (left right : List Char) :
    trimEnd (left ++ mark :: right) = left ++ mark :: trimEnd right := by
  rw [trimEnd, List.reverse_append, List.reverse_cons, List.append_assoc, List.singleton_append,
    dropWhile_append_cons hmark, List.reverse_append, List.reverse_cons, List.reverse_reverse,
    List.append_assoc, List.singleton_append]
  rfl

theorem trimEnd_of_blanks (h : ∀ c ∈ cs, isBlank c = true) : trimEnd cs = [] := by
  have hnone : (cs.reverse ++ []).dropWhile isBlank = [] :=
    List.dropWhile_append_of_pos fun c hc => h c (List.mem_reverse.1 hc)
  rw [trimEnd, ← List.append_nil cs.reverse, hnone]
  rfl

theorem trim_append_cons (hmark : isBlank mark = false) (left right : List Char) :
    trim (left ++ mark :: right) = left.dropWhile isBlank ++ mark :: trimEnd right := by
  rw [trim, trimBy, dropWhile_append_cons hmark]
  exact trimEnd_append_cons hmark _ right

theorem trim_dropWhile (cs : List Char) : trim (cs.dropWhile isBlank) = trim cs := by
  have hagain : (cs.dropWhile isBlank).dropWhile isBlank = cs.dropWhile isBlank :=
    dropWhile_append_of_head (List.forall_mem_nil _) (head?_dropWhile_eq_false isBlank cs)
  rw [trim, trimBy, hagain]
  rfl

theorem trim_trimEnd (cs : List Char) : trim (trimEnd cs) = trim cs := by
  by_cases hcs : ∃ c ∈ cs, isBlank c = false
  · obtain ⟨c, hmem, hc⟩ := hcs
    obtain ⟨left, right, rfl⟩ := List.append_of_mem hmem
    have hagain : trimEnd (trimEnd right) = trimEnd right := by
      rw [trimEnd, trimEnd, List.reverse_reverse]
      exact congrArg List.reverse
        (dropWhile_append_of_head (List.forall_mem_nil _) (head?_dropWhile_eq_false isBlank _))
    rw [trimEnd_append_cons hc, trim_append_cons hc, trim_append_cons hc, hagain]
  · have hblank : ∀ c ∈ cs, isBlank c = true := by simpa using hcs
    have hnil : trim cs = [] :=
      trim_eq_iff.2 ⟨⟨by simp, by simp⟩, cs, [], hblank, List.forall_mem_nil _, by simp⟩
    rw [trimEnd_of_blanks hblank, hnil]
    rfl

theorem head?_trim (cs : List Char) : (trim cs).head? = (cs.dropWhile isBlank).head? := by
  cases hdrop : cs.dropWhile isBlank with
  | nil => rw [trim, trimBy, hdrop]; rfl
  | cons c rest =>
      have hc : isBlank c = false := head?_dropWhile_eq_false isBlank cs c (by rw [hdrop]; rfl)
      have htrim := trim_append_cons hc [] rest
      rw [List.nil_append, ← hdrop, trim_dropWhile] at htrim
      rw [htrim]
      rfl

end

end Text

namespace Project

open Text (Padded IsTrimmed isBlank)

/-! ## Lines -/

/-- A line `[name]`, with blanks around the brackets and inside of them. -/
def IsHeading (name : String) (line : List Char) : Prop :=
  ∃ inner, Padded isBlank ('[' :: inner ++ [']']) line ∧ Padded isBlank name.toList inner

/--
A line that assigns to a key, which is what stands ahead of the first `=`.

The key may be quoted.  A heading is no assignment, and neither is a comment.
-/
def Assigns (key : String) (line : List Char) : Prop :=
  (∀ name, ¬ IsHeading name line) ∧
    ∃ left word right, line = left ++ '=' :: right ∧ '=' ∉ left ∧ Padded isBlank word left ∧
      word.head? ≠ some '#' ∧ Padded (· == '"') key.toList word

variable {line left right : List Char} {name key : String}

theorem readAssignment_append (hleft : '=' ∉ left) (right : List Char) :
    readAssignment (left ++ '=' :: right) =
      .assignment (String.ofList (unquote (Text.trim left)))
        (String.ofList (dropComment (Text.trim right))) := by
  have hpass : ∀ c ∈ left, (c != '=') = true := Asm.ne_mark_of_mem hleft
  unfold readAssignment
  rw [List.dropWhile_append_of_pos hpass, List.takeWhile_append_of_pos hpass,
    List.dropWhile_cons_of_neg (by decide), List.takeWhile_cons_of_neg (by decide), List.append_nil]

theorem readAssignment_of_not_mem {text : List Char} (h : '=' ∉ text) :
    readAssignment text = .other := by
  have hdrop : (text ++ []).dropWhile (· != '=') = [] :=
    List.dropWhile_append_of_pos (Asm.ne_mark_of_mem h)
  unfold readAssignment
  rw [← List.append_nil text, hdrop]

theorem readAssignment_ne_heading (text : List Char) : readAssignment text ≠ .heading name := by
  unfold readAssignment
  split <;> simp

theorem readLine_eq_heading_iff : readLine line = .heading name ↔ IsHeading name line := by
  constructor
  · intro h
    unfold readLine at h
    split at h
    · cases h
    · cases h
    · next rest htrim =>
        split at h
        · next hlast =>
            obtain ⟨inner, rfl⟩ := List.getLast?_eq_some_iff.1 hlast
            rw [List.dropLast_concat] at h
            refine ⟨inner, Text.trim_eq_iff.1 htrim, Text.trim_eq_iff.1 ?_⟩
            rw [← Line.heading.inj h, String.toList_ofList]
        · exact absurd h (readAssignment_ne_heading _)
    · exact absurd h (readAssignment_ne_heading _)
  · rintro ⟨inner, hline, hname⟩
    rw [readLine, Text.trim_eq_iff.2 hline]
    simp only [List.cons_append, List.getLast?_concat, if_pos, List.dropLast_concat]
    rw [Text.trim_eq_iff.2 hname, String.ofList_toList]

/-- What a line is read as: nothing, a heading, or else an assignment if it is well-formed. -/
theorem readLine_cases (line : List Char) :
    (readLine line = .blank ∧ (Text.trim line = [] ∨ (Text.trim line).head? = some '#')) ∨
      (∃ name, readLine line = .heading name) ∨
      readLine line = readAssignment (Text.trim line) ∧ (Text.trim line).head? ≠ some '#' := by
  unfold readLine
  split
  · next htrim => exact .inl ⟨rfl, .inl htrim⟩
  · next htrim => exact .inl ⟨rfl, .inr (by rw [htrim]; rfl)⟩
  · next rest htrim =>
      split
      · exact .inr (.inl ⟨_, rfl⟩)
      · exact .inr (.inr ⟨by rw [htrim], by simp [htrim]⟩)
  · next hhash _ =>
      refine .inr (.inr ⟨rfl, fun hhead => ?_⟩)
      obtain ⟨rest, hrest⟩ := List.head?_eq_some_iff.1 hhead
      exact hhash rest hrest

theorem head?_trim_append (left right : List Char) :
    (Text.trim (left ++ '=' :: right)).head? = (Text.trim left).head?.or (some '=') := by
  rw [Text.trim_append_cons (by decide), List.head?_append, Text.head?_trim]
  rfl

theorem readLine_append (hheading : ∀ name, ¬ IsHeading name (left ++ '=' :: right))
    (hleft : '=' ∉ left) (hcomment : (Text.trim left).head? ≠ some '#') :
    readLine (left ++ '=' :: right) =
      .assignment (String.ofList (unquote (Text.trim left)))
        (String.ofList (dropComment (Text.trim right))) := by
  have htrim := Text.trim_append_cons (by decide : isBlank '=' = false) left right
  have hdrop : '=' ∉ left.dropWhile isBlank := fun h => hleft ((List.dropWhile_sublist _).mem h)
  rcases readLine_cases (left ++ '=' :: right) with ⟨-, hnil | hhash⟩ | ⟨name, hname⟩ | ⟨hread, -⟩
  · simp [htrim] at hnil
  · rw [head?_trim_append] at hhash
    cases hhead : (Text.trim left).head? with
    | none =>
        rw [hhead] at hhash
        cases hhash
    | some c =>
        rw [hhead] at hhash hcomment
        exact absurd hhash hcomment
  · exact absurd (readLine_eq_heading_iff.1 hname) (hheading name)
  · rw [hread, htrim, readAssignment_append hdrop, Text.trim_dropWhile, Text.trim_trimEnd]

theorem exists_readLine_eq_assignment_iff :
    (∃ raw, readLine line = .assignment key raw) ↔ Assigns key line := by
  constructor
  · rintro ⟨raw, hread⟩
    have hheading : ∀ name, ¬ IsHeading name line := by
      intro name hname
      rw [readLine_eq_heading_iff.2 hname] at hread
      cases hread
    have hmem : '=' ∈ line := by
      rcases readLine_cases line with ⟨hblank, -⟩ | ⟨name, hname⟩ | ⟨hassignment, -⟩
      · rw [hblank] at hread
        cases hread
      · exact absurd (readLine_eq_heading_iff.1 hname) (hheading name)
      · refine Decidable.byContradiction fun habsent => ?_
        obtain ⟨-, lead, trail, -, -, hline⟩ := Text.padded_trimBy isBlank line
        have habsent : '=' ∉ Text.trim line := by
          intro h
          refine habsent ?_
          rw [hline]
          exact List.mem_append_left _ (List.mem_append_right _ h)
        rw [hassignment, readAssignment_of_not_mem habsent] at hread
        cases hread
    obtain ⟨left, right, rfl, hleft⟩ := List.eq_append_cons_of_mem hmem
    have hcomment : (Text.trim left).head? ≠ some '#' := by
      intro hhash
      have hhead := head?_trim_append left right
      rw [hhash, Option.some_or] at hhead
      rcases readLine_cases (left ++ '=' :: right) with ⟨hblank, -⟩ | ⟨name, hname⟩ | ⟨-, hother⟩
      · rw [hblank] at hread
        cases hread
      · exact hheading name (readLine_eq_heading_iff.1 hname)
      · exact hother hhead
    rw [readLine_append hheading hleft hcomment] at hread
    refine ⟨hheading, left, Text.trim left, right, rfl, hleft, Text.trim_eq_iff.1 rfl, hcomment, ?_⟩
    rw [← (Line.assignment.inj hread).1, String.toList_ofList]
    exact Text.padded_trimBy _ _
  · rintro ⟨hheading, left, word, right, rfl, hleft, hword, hcomment, hkey⟩
    rw [← Text.trim_eq_iff.2 hword] at hcomment
    refine ⟨String.ofList (dropComment (Text.trim right)), ?_⟩
    rw [readLine_append hheading hleft hcomment, Text.trim_eq_iff.2 hword, unquote,
      Text.trimBy_eq_iff.2 hkey, String.ofList_toList]

/-! ## Sections -/

/-- Whether the last heading on lines opens a section. -/
def InSection (part : String) (lines : List (List Char)) : Prop :=
  ∃ before line after, lines = before ++ line :: after ∧ IsHeading part line ∧
    ∀ later ∈ after, ∀ name, ¬ IsHeading name later

/-- The section that lines leave open, the first of which stands in a given section. -/
def partAfter (part : String) : List (List Char) → String
  | [] => part
  | line :: rest =>
      match readLine line with
      | .heading name => partAfter name rest
      | _ => partAfter part rest

variable {part : String} {lines : List (List Char)}

theorem inSection_cons_iff :
    InSection part (line :: lines) ↔
      InSection part lines ∨
        IsHeading part line ∧ ∀ later ∈ lines, ∀ name, ¬ IsHeading name later := by
  constructor
  · rintro ⟨before, heading, after, hlines, hheading, hafter⟩
    cases before with
    | nil =>
        obtain ⟨rfl, rfl⟩ := List.cons.inj hlines
        exact .inr ⟨hheading, hafter⟩
    | cons first before =>
        obtain ⟨rfl, rfl⟩ := List.cons.inj hlines
        exact .inl ⟨before, heading, after, rfl, hheading, hafter⟩
  · rintro (⟨before, heading, after, rfl, hheading, hafter⟩ | ⟨hheading, hafter⟩)
    · exact ⟨line :: before, heading, after, rfl, hheading, hafter⟩
    · exact ⟨[], line, lines, rfl, hheading, hafter⟩

theorem partAfter_eq_iff (start : String) :
    partAfter start lines = part ↔
      InSection part lines ∨
        start = part ∧ ∀ line ∈ lines, ∀ name, ¬ IsHeading name line := by
  induction lines generalizing start with
  | nil =>
      constructor
      · intro h
        exact .inr ⟨h, List.forall_mem_nil _⟩
      · rintro (⟨before, line, after, hlines, -⟩ | ⟨h, -⟩)
        · simp at hlines
        · exact h
  | cons line rest ih =>
      rw [partAfter, inSection_cons_iff, List.forall_mem_cons]
      split
      · next opened hline =>
          have hheading := readLine_eq_heading_iff.1 hline
          have hsame : IsHeading part line ↔ opened = part := by
            rw [← readLine_eq_heading_iff, hline, Line.heading.injEq]
          rw [ih, hsame]
          constructor
          · exact .inl
          · rintro (h | ⟨-, hnone, -⟩)
            · exact h
            · exact absurd hheading (hnone opened)
      · next hline =>
          have hnone : ∀ name, ¬ IsHeading name line := by
            intro name hname
            exact hline name (readLine_eq_heading_iff.2 hname)
          rw [ih]
          simp [hnone]

theorem partAfter_append (start : String) (xs ys : List (List Char)) :
    partAfter start (xs ++ ys) = partAfter (partAfter start xs) ys := by
  induction xs generalizing start with
  | nil => rfl
  | cons line rest ih =>
      rw [List.cons_append, partAfter, partAfter]
      split <;> exact ih _

theorem settingsFrom_append (start : String) (xs ys : List (List Char)) :
    settingsFrom start (xs ++ ys) =
      settingsFrom start xs ++ settingsFrom (partAfter start xs) ys := by
  induction xs generalizing start with
  | nil => rfl
  | cons line rest ih =>
      rw [List.cons_append, settingsFrom, settingsFrom, partAfter]
      cases hline : readLine line <;> simp [ih]

theorem mem_settingsFrom_iff {start : String} {setting : Setting} :
    setting ∈ settingsFrom start lines ↔
      ∃ before line after, lines = before ++ line :: after ∧
        setting.part = partAfter start before ∧
        readLine line = .assignment setting.key setting.raw := by
  constructor
  · intro h
    induction lines generalizing start with
    | nil => cases h
    | cons line rest ih =>
        have hlater : ∀ {opened}, setting ∈ settingsFrom opened rest →
            (∀ before, partAfter start (line :: before) = partAfter opened before) →
            ∃ before other after, line :: rest = before ++ other :: after ∧
              setting.part = partAfter start before ∧
              readLine other = .assignment setting.key setting.raw := by
          intro opened hmem hopened
          obtain ⟨before, other, after, rfl, hpart, hother⟩ := ih hmem
          exact ⟨line :: before, other, after, rfl, by rw [hopened, hpart], hother⟩
        rw [settingsFrom] at h
        split at h
        · next hline => exact hlater h fun before => by rw [partAfter, hline]
        · next hline => exact hlater h fun before => by rw [partAfter, hline]
        · next hline =>
            cases h with
            | head => exact ⟨[], line, rest, rfl, rfl, hline⟩
            | tail _ h => exact hlater h fun before => by rw [partAfter, hline]
        · next hline => exact hlater h fun before => by rw [partAfter, hline]
  · rintro ⟨before, line, after, rfl, hpart, hline⟩
    rw [settingsFrom_append, settingsFrom, hline, ← hpart]
    exact List.mem_append_right _ List.mem_cons_self

/-- The last line that assigns to a key in a section. -/
def LastAssigned (text part key : String) (line : List Char) : Prop :=
  ∃ before after, Text.lines text.toList = before ++ line :: after ∧ InSection part before ∧
    ∀ between other rest, after = between ++ other :: rest →
      InSection part (before ++ line :: between) → ¬ Assigns key other

/-- The lines after the last one hold no setting of the key in the section. -/
theorem lastAssigned_iff {text : String} (hpart : part ≠ "") :
    LastAssigned text part key line ↔
      ∃ before after, Text.lines text.toList = before ++ line :: after ∧
        partAfter "" before = part ∧
        ∀ setting ∈ settingsFrom (partAfter "" (before ++ [line])) after,
          ¬ (setting.part = part ∧ setting.key = key) := by
  have hsection : ∀ {lines}, InSection part lines ↔ partAfter "" lines = part := by
    intro lines
    rw [partAfter_eq_iff, or_iff_left fun h => hpart h.1.symm]
  have hbetween : ∀ before between : List (List Char),
      partAfter (partAfter "" (before ++ [line])) between = partAfter "" (before ++ line :: between) := by
    intro before between
    rw [← partAfter_append, List.append_assoc, List.singleton_append]
  constructor
  · rintro ⟨before, after, hlines, hbefore, hafter⟩
    refine ⟨before, after, hlines, hsection.1 hbefore, ?_⟩
    rintro setting hsetting ⟨rfl, rfl⟩
    obtain ⟨between, other, rest, rfl, hopen, hother⟩ := mem_settingsFrom_iff.1 hsetting
    rw [hbetween] at hopen
    exact hafter between other rest rfl (hsection.2 hopen.symm)
      (exists_readLine_eq_assignment_iff.1 ⟨setting.raw, hother⟩)
  · rintro ⟨before, after, hlines, hbefore, hafter⟩
    refine ⟨before, after, hlines, hsection.2 hbefore, ?_⟩
    rintro between other rest rfl hopen hassigns
    obtain ⟨raw, hother⟩ := exists_readLine_eq_assignment_iff.2 hassigns
    refine hafter ⟨part, key, raw⟩ (mem_settingsFrom_iff.2 ?_) ⟨rfl, rfl⟩
    exact ⟨between, other, rest, rfl, by rw [hbetween, hsection.1 hopen], hother⟩

theorem lastSetting_of_lastAssigned {text raw : String} (hpart : part ≠ "")
    (hlast : LastAssigned text part key line) (hline : readLine line = .assignment key raw) :
    LastSetting (settings text) part key raw := by
  obtain ⟨before, after, hlines, hbefore, hafter⟩ := (lastAssigned_iff hpart).1 hlast
  have hopen : partAfter "" (before ++ [line]) = part := by
    rw [partAfter_append, hbefore, partAfter, hline]
    rfl
  refine ⟨settingsFrom "" before, settingsFrom part after, ?_, hopen ▸ hafter⟩
  rw [settings, hlines, settingsFrom_append, hbefore, settingsFrom, hline]

/-! ## Quoted values -/

/-- What may follow a value: blanks, and a comment. -/
def IsRemark (cs : List Char) : Prop :=
  ∃ gap, (∀ c ∈ gap, isBlank c = true) ∧ (cs = gap ∨ ∃ comment, cs = gap ++ '#' :: comment)

/-- A line `key = "value"`, with blanks anywhere between its parts, and maybe a comment at its end. -/
def IsQuoted (key value : String) (line : List Char) : Prop :=
  ∃ left gap remark, Padded isBlank key.toList left ∧ (∀ c ∈ gap, isBlank c = true) ∧
    IsRemark remark ∧ line = left ++ '=' :: gap ++ '"' :: value.toList ++ '"' :: remark

theorem beforeHash?_quoted {value : List Char} (hvalue : '"' ∉ value) (rest : List Char) :
    beforeHash? true (value ++ '"' :: rest) =
      (beforeHash? false rest).map fun kept => value ++ '"' :: kept := by
  induction value with
  | nil => simp [beforeHash?]
  | cons c value ih =>
      obtain ⟨hc, hvalue⟩ : '"' ≠ c ∧ '"' ∉ value := by simpa using hvalue
      rw [List.cons_append, beforeHash?, if_neg (by simp), if_neg (Ne.symm hc), ih hvalue,
        Option.map_map]
      rfl

theorem beforeHash?_blanks {gap : List Char} (hgap : ∀ c ∈ gap, isBlank c = true)
    (rest : List Char) :
    beforeHash? false (gap ++ rest) = (beforeHash? false rest).map (gap ++ ·) := by
  induction gap with
  | nil => simp
  | cons c gap ih =>
      rw [List.forall_mem_cons] at hgap
      have hhash : c ≠ '#' := by
        rintro rfl
        exact absurd hgap.1 (by decide)
      have hquote : c ≠ '"' := by
        rintro rfl
        exact absurd hgap.1 (by decide)
      rw [List.cons_append, beforeHash?, if_neg (by simp [hhash]), if_neg hquote, ih hgap.2,
        Option.map_map]
      rfl

theorem dropComment_quoted {value remark : List Char} (hvalue : '"' ∉ value)
    (hremark : IsRemark remark) :
    dropComment ('"' :: value ++ '"' :: Text.trimEnd remark) = '"' :: value ++ ['"'] := by
  have hopen : ∀ rest, beforeHash? false ('"' :: value ++ '"' :: rest) =
      (beforeHash? false rest).map fun kept => '"' :: value ++ '"' :: kept := by
    intro rest
    rw [List.cons_append, beforeHash?, if_neg (by simp), if_pos rfl, Bool.not_false,
      beforeHash?_quoted hvalue, Option.map_map]
    rfl
  obtain ⟨gap, hgap, rfl | ⟨comment, rfl⟩⟩ := hremark
  · rw [Text.trimEnd_of_blanks hgap, dropComment, hopen]
    rfl
  · rw [Text.trimEnd_append_cons (by decide), dropComment, hopen, beforeHash?_blanks hgap]
    simp only [beforeHash?, and_self, if_true, Option.map_some, List.append_nil]
    rw [Text.trimEnd_append_cons (by decide), Text.trimEnd_of_blanks hgap]

theorem plain_quoted {value : String} (hvalue : '"' ∉ value.toList) :
    plain (String.ofList ('"' :: value.toList ++ ['"'])) = value := by
  have hno : ∀ c ∈ value.toList, (c == '"') = false := by
    intro c hc
    rw [beq_eq_false_iff_ne]
    rintro rfl
    exact hvalue hc
  have hpadded : Padded (· == '"') value.toList ('"' :: value.toList ++ ['"']) :=
    ⟨⟨fun c hc => hno c (List.mem_of_mem_head? hc), fun c hc => hno c (List.mem_of_mem_getLast? hc)⟩,
      ['"'], ['"'], by simp, by simp, rfl⟩
  rw [plain, String.toList_ofList, unquote, Text.trimBy_eq_iff.2 hpadded, String.ofList_toList]

/-- A key that no other part of a line can be taken for. -/
structure IsPlainKey (key : String) : Prop where
  equals : '=' ∉ key.toList
  unquoted : IsTrimmed (· == '"') key.toList
  start : ∃ c, key.toList.head? = some c ∧ c ≠ '#' ∧ c ≠ '['

theorem readLine_of_isQuoted {value : String} (hkey : IsPlainKey key) (hvalue : '"' ∉ value.toList)
    (h : IsQuoted key value line) :
    readLine line = .assignment key (String.ofList ('"' :: value.toList ++ ['"'])) := by
  obtain ⟨left, gap, remark, hleft, hgap, hremark, rfl⟩ := h
  have htrim : Text.trim left = key.toList := Text.trim_eq_iff.2 hleft
  obtain ⟨start, hstart, hhash, hbracket⟩ := hkey.start
  have hhead : ∀ right, (Text.trim (left ++ '=' :: right)).head? = some start := by
    intro right
    rw [head?_trim_append, htrim, hstart]
    rfl
  have hequals : '=' ∉ left := by
    obtain ⟨-, lead, trail, hlead, htrail, rfl⟩ := hleft
    have hblank : ∀ {blanks : List Char}, (∀ c ∈ blanks, isBlank c = true) → '=' ∉ blanks :=
      fun h hmem => absurd (h '=' hmem) (by decide)
    simp [hblank hlead, hblank htrail, hkey.equals]
  have hright : Text.trim (gap ++ '"' :: value.toList ++ '"' :: remark) =
      '"' :: value.toList ++ '"' :: Text.trimEnd remark := by
    have hnone : (gap ++ []).dropWhile isBlank = [] := List.dropWhile_append_of_pos hgap
    rw [List.append_assoc, List.cons_append, Text.trim_append_cons (by decide),
      Text.trimEnd_append_cons (by decide), ← List.append_nil gap, hnone]
    rfl
  have hheading : ∀ name, ¬ IsHeading name
      (left ++ '=' :: (gap ++ '"' :: value.toList ++ '"' :: remark)) := by
    rintro name ⟨inner, hinner, -⟩
    have hfirst := hhead (gap ++ '"' :: value.toList ++ '"' :: remark)
    rw [Text.trim_eq_iff.2 hinner] at hfirst
    exact hbracket (Option.some.inj hfirst).symm
  have hline := readLine_append hheading hequals (by simp [htrim, hstart, hhash])
  rw [htrim, hright, dropComment_quoted hvalue hremark, unquote,
    Text.trimBy_eq_iff.2 ⟨hkey.unquoted, [], [], by simp⟩, String.ofList_toList] at hline
  simpa only [List.append_assoc, List.cons_append] using hline

/-! ## Texts of a project -/

inductive TextKey where
  | name
  | entry
  | output
  | target
  deriving DecidableEq, Repr

namespace TextKey

def word : TextKey → String
  | .name => "name"
  | .entry => "entry"
  | .output => "output"
  | .target => "target"

/-- The value that a project has for a key. -/
def value? : TextKey → Project → Option String
  | .name, project => project.name
  | .entry, project => project.entry
  | .output, project => project.output.map Path.text
  | .target, project => project.target

theorem isPlainKey (key : TextKey) : IsPlainKey key.word := by
  cases key <;>
    exact ⟨by decide, ⟨by rintro c ⟨⟩; rfl, by rintro c ⟨⟩; rfl⟩, ⟨_, rfl, by decide, by decide⟩⟩

theorem value?_of_sets {setting : Setting} {project next : Project}
    (h : project.Sets setting next) (key : TextKey) :
    key.value? next =
      if setting.part = "project" ∧ setting.key = key.word then some (plain setting.raw)
      else key.value? project := by
  cases h with
  | unknown raw hknown =>
      rw [if_neg]
      rintro ⟨rfl, rfl⟩
      cases key <;> exact hknown (by decide)
  | _ => cases key <;> simp [value?, word]

end TextKey

/--
A project has for a key what stands between the quotes of the key's last assignment, whatever the
other lines and the comment after it hold.
-/
theorem quoted_value_kept {directory : Path} {text value : String} {project : Project}
    {line : List Char} (key : TextKey) (hparse : parse directory text = .ok project)
    (hlast : LastAssigned text "project" key.word line) (hquoted : IsQuoted key.word value line)
    (hvalue : '"' ∉ value.toList) : key.value? project = some value := by
  have hline := readLine_of_isQuoted key.isPlainKey hvalue hquoted
  have hsetting := lastSetting_of_lastAssigned (by decide) hlast hline
  have hkeeps : ∀ {setting : Setting} {project next : Project}, project.Sets setting next →
      ¬ (setting.part = "project" ∧ setting.key = key.word) →
      key.value? next = key.value? project := by
    intro setting project next hset hother
    rw [TextKey.value?_of_sets hset, if_neg hother]
  obtain ⟨middle, next, hset, hproject⟩ :=
    exists_sets_of_lastSetting key.value? hkeeps hsetting (parse_eq_ok_iff.1 hparse).2.1
  rw [hproject, TextKey.value?_of_sets hset, if_pos ⟨rfl, rfl⟩, plain_quoted hvalue]

namespace Sample

/-- The last assignment in the section is not the last in the file. -/
def noisy : String :=
  "[project]\nname=\"a\"\n\tname = \" #=[b] \"# \"c]\n[x]\nname=\"y\"\n"

def noisyLine : List Char :=
  ['\t', 'n', 'a', 'm', 'e', ' ', '=', ' ', '"', ' ', '#', '=', '[', 'b', ']', ' ', '"', '#', ' ',
    '"', 'c', ']']

theorem value_kept_noisy :
    parse ⟨""⟩ noisy = .ok { name := some " #=[b] " } ∧
      LastAssigned noisy "project" "name" noisyLine ∧ IsQuoted "name" " #=[b] " noisyLine ∧
      TextKey.name.value? { name := some " #=[b] " } = some " #=[b] " := by
  have hparse : parse ⟨""⟩ noisy = .ok { name := some " #=[b] " } :=
    toOption_eq_some_iff.1 (by decide +kernel)
  have hlast : LastAssigned noisy "project" "name" noisyLine :=
    (lastAssigned_iff (by decide)).2 ⟨["[project]".toList, "name=\"a\"".toList],
      ["[x]".toList, "name=\"y\"".toList], by decide +kernel, by decide +kernel, by decide +kernel⟩
  have hquoted : IsQuoted "name" " #=[b] " noisyLine :=
    ⟨['\t', 'n', 'a', 'm', 'e', ' '], [' '], ['#', ' ', '"', 'c', ']'],
      ⟨⟨by rintro c ⟨⟩; rfl, by rintro c ⟨⟩; rfl⟩, ['\t'], [' '], List.all_eq_true.1 rfl,
        List.all_eq_true.1 rfl, rfl⟩,
      List.all_eq_true.1 rfl, ⟨[], List.forall_mem_nil _, .inr ⟨_, rfl⟩⟩, rfl⟩
  exact ⟨hparse, hlast, hquoted, quoted_value_kept .name hparse hlast hquoted (by decide)⟩

end Sample

end Project

end StackVm
