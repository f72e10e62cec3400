import StackVm.Proofs.Eager
import StackVm.Proofs.Lowering.Refused
import StackVm.Proofs.Source.Places

/-! # Where errors point

An error about a source names the unit of the line at which the work ended.  Its
span is that of the word that cannot be read, or that of the whole line if the
words are too many or too few, or if their command is refused.
-/

namespace StackVm

/-- The word that an error is about, if it is about a single word. -/
def Error.word? : Error → Option String
  | .invalidSegment _ _ word .unknownName => some word
  | .malformedCommand _ _ (.unknownVerb word) => some word
  | .malformedCommand _ _ (.notANumber word) => some word
  | .malformedCommand _ _ (.numberTooLarge word) => some word
  | .malformedCommand _ _ (.invalidSymbol word) => some word
  | _ => none

theorem bind_eq_error_iff {ε α β : Type} {x : Except ε α} {f : α → Except ε β} {error : ε} :
    (x >>= f) = .error error ↔ x = .error error ∨ ∃ a, x = .ok a ∧ f a = .error error := by
  cases x <;> simp [bind, Except.bind]

namespace Source

/-! ## Lines that cannot be read -/

/-- An error points at a word. -/
structure Word.Blamed (word : Word) (unit : String) (error : Error) : Prop where
  unit : error.unit? = some unit
  text : error.word? = some word.text
  span : error.span? = some word.span

/-- An error points at a word of a line, or at the whole line. -/
def Line.Blamed (line : Line) (unit : String) (error : Error) : Prop :=
  (∃ word ∈ line.words, word.Blamed unit error) ∨
    error.unit? = some unit ∧ error.word? = none ∧ error.span? = some line.span

variable {unit : String} {word : Word} {line : Line} {error : Error}

theorem readSegment_blames (h : readSegment unit word = .error error) :
    word.Blamed unit error := by
  unfold readSegment at h
  split at h
  · cases h
  · cases h
    exact ⟨rfl, rfl, rfl⟩

theorem readNumber_blames (h : readNumber unit word = .error error) :
    word.Blamed unit error := by
  unfold readNumber at h
  split at h
  · split at h
    · cases h
    · cases h
      exact ⟨rfl, rfl, rfl⟩
  · cases h
    exact ⟨rfl, rfl, rfl⟩

theorem readSymbol_blames (h : readSymbol unit word = .error error) :
    word.Blamed unit error := by
  unfold readSymbol at h
  split at h
  · cases h
  · cases h
    exact ⟨rfl, rfl, rfl⟩

theorem operandCountError_blames (verb : Verb) :
    line.Blamed unit (operandCountError unit line verb) :=
  .inr ⟨rfl, rfl, rfl⟩

theorem readOperands_blames {verb : Verb} (h : readOperands unit line verb = .error error) :
    line.Blamed unit error := by
  have hone : ∀ {α : Type} {x : Except Error α} {f : α → Command} {name : Word},
      (do let a ← x; return f a : Except Error Command) = .error error → line.rest = [name] →
      (x = .error error → name.Blamed unit error) → line.Blamed unit error := by
    intro α x f name hread hrest hblames
    rcases bind_eq_error_iff.1 hread with hx | ⟨a, -, hmade⟩
    · exact .inl ⟨name, by simp [Line.words, hrest], hblames hx⟩
    · cases hmade
  have htwo : ∀ {α β : Type} {x : Except Error α} {y : Except Error β} {f : α → β → Command}
      {first second : Word},
      (do let a ← x; let b ← y; return f a b : Except Error Command) = .error error →
      line.rest = [first, second] → (x = .error error → first.Blamed unit error) →
      (y = .error error → second.Blamed unit error) → line.Blamed unit error := by
    intro α β x y f first second hread hrest hfirst hsecond
    rcases bind_eq_error_iff.1 hread with hx | ⟨a, -, hnext⟩
    · exact .inl ⟨first, by simp [Line.words, hrest], hfirst hx⟩
    · rcases bind_eq_error_iff.1 hnext with hy | ⟨b, -, hmade⟩
      · exact .inl ⟨second, by simp [Line.words, hrest], hsecond hy⟩
      · cases hmade
  unfold readOperands at h
  split at h
  case h_1 | h_2 => cases h
  case h_3 hrest | h_4 hrest | h_5 hrest => exact hone h hrest readSymbol_blames
  case h_6 hrest | h_7 hrest => exact htwo h hrest readSegment_blames readNumber_blames
  case h_8 hrest | h_9 hrest => exact htwo h hrest readSymbol_blames readNumber_blames
  case h_10 =>
      cases h
      exact operandCountError_blames _

/-- A line that spells no command is to blame, or one of its words is. -/
theorem item_blames (h : item unit line = .error error) : line.Blamed unit error := by
  have hread : readCommand unit line = .error error := by
    cases hcommand : readCommand unit line with
    | ok command => simp [item, hcommand, Except.map] at h
    | error other => simpa [item, hcommand, Except.map] using h
  unfold readCommand at hread
  split at hread
  · exact readOperands_blames hread
  · cases hread
    exact .inl ⟨line.first, List.mem_cons_self, rfl, rfl, rfl⟩

theorem span_of_item {located : Located Command} (h : item unit line = .ok located) :
    located.span = line.span := by
  cases hcommand : readCommand unit line with
  | error other => simp [item, hcommand, Except.map] at h
  | ok command =>
      simp only [item, hcommand, Except.map, Except.ok.injEq] at h
      rw [← h]

end Source

/-! ## Commands that are refused -/

namespace Lowering

theorem ne_unknownName_of_place {lowering : Lowering} {segment : Segment} {index : UInt16}
    {fault : SegmentFault} (h : lowering.place segment index = .error fault) :
    fault ≠ .unknownName := by
  cases segment with
  | constants | statics => cases h
  | temps | pointers =>
      rw [(cell_eq_error_iff.1 h).2]
      exact nofun
  | locals | arguments | this | that =>
      rw [(offset_eq_error_iff.1 h).2]
      exact nofun

/-- A refused command is blamed as a whole. -/
theorem Refuses.blames {lowering : Lowering} {span : Span} {command : Command} {error : Error}
    (h : lowering.Refuses span command error) :
    error.unit? = some lowering.unit ∧ error.word? = none ∧ error.span? = some span := by
  have hword : ∀ {segment : Segment} {fault : SegmentFault}, fault ≠ .unknownName →
      (Error.invalidSegment lowering.unit span segment.word fault).word? = none := by
    intro segment fault hne
    cases fault with
    | unknownName => exact absurd rfl hne
    | _ => rfl
  cases h with
  | @push segment index fault hplace =>
      refine ⟨rfl, hword ?_, rfl⟩
      unfold pushPlace at hplace
      split at hplace
      · cases hplace
        exact nofun
      · exact ne_unknownName_of_place hplace
  | @pop segment index fault hplace =>
      refine ⟨rfl, hword ?_, rfl⟩
      unfold popPlace at hplace
      split at hplace
      · cases hplace
        exact nofun
      · exact ne_unknownName_of_place hplace
  | call name haccepts => exact ⟨rfl, rfl, rfl⟩

theorem unit_of_commands {lowering next : Lowering} {commands : List (Located Command)} {code : Code}
    (h : lowering.commands commands = (.ok code, next)) : next.unit = lowering.unit := by
  rw [(commands_eq_ok_iff.1 h).next]
  clear h
  induction commands generalizing lowering with
  | nil => rfl
  | cons first rest ih => exact ih.trans (Block.unit_next_command lowering first)

/-! ## Programs -/

/--
The line at which the work on a program ends: the units before its unit and the
lines before it are read and lowered, and it is not.
-/
def FaultAt (lowering : Lowering) (units : List SourceUnit) (unit : SourceUnit)
    (line : Source.Line) (error : Error) : Prop :=
  ∃ before after parsed code first, units = before ++ unit :: after ∧
    before.mapM SourceUnit.parse = .ok parsed ∧ lowering.units parsed = .ok (code, first) ∧
    ∃ earlier later commands lowered next, Source.lines unit.source = earlier ++ line :: later ∧
      earlier.map (Source.item unit.name) = commands.map .ok ∧
      first.unitCommands unit.name commands = (.ok lowered, next) ∧
      (Source.item unit.name line >>= next.command) = .error error

variable {lowering : Lowering} {units : List SourceUnit} {unit : SourceUnit} {line : Source.Line}
  {error : Error}

theorem FirstFault.exists_faultAt (h : lowering.FirstFault units error) :
    ∃ unit line, lowering.FaultAt units unit line error := by
  obtain ⟨before, unit, after, parsed, code, first, hunits, hparsed, hlowered, hline⟩ := h
  obtain ⟨earlier, line, later, commands, lowered, next, hlines, hitems, hcommands, herror⟩ := hline
  exact ⟨unit, line, before, after, parsed, code, first, hunits, hparsed, hlowered, earlier, later,
    commands, lowered, next, hlines, hitems, hcommands, herror⟩

namespace FaultAt

theorem unit_mem (h : lowering.FaultAt units unit line error) : unit ∈ units := by
  obtain ⟨before, after, _, _, _, rfl, -⟩ := h
  exact List.mem_append_right _ List.mem_cons_self

theorem line_mem (h : lowering.FaultAt units unit line error) :
    line ∈ Source.lines unit.source := by
  obtain ⟨_, _, _, _, _, -, -, -, earlier, later, _, _, _, hlines, -⟩ := h
  rw [hlines]
  exact List.mem_append_right _ List.mem_cons_self

/-- The line is blamed under the name of its unit. -/
theorem blamed (h : lowering.FaultAt units unit line error) : line.Blamed unit.name error := by
  obtain ⟨_, _, _, _, first, -, -, -, _, _, _, _, next, -, -, hcommands, herror⟩ := h
  rcases bind_eq_error_iff.1 herror with hitem | ⟨located, hitem, hrefused⟩
  · exact Source.item_blames hitem
  · have hunit : next.unit = unit.name := unit_of_commands hcommands
    have hblames := (command_eq_error_iff.1 hrefused).blames
    rw [hunit, Source.span_of_item hitem] at hblames
    exact .inr hblames

/-- The span of the error covers the blamed word, or the line from its first word to its last. -/
theorem locates (h : lowering.FaultAt units unit line error) {span : Span}
    (hspan : error.span? = some span) :
    (∀ word ∈ line.words, word.span.Locates unit.source word.text) ∧
      ∃ text, span.Locates unit.source text ∧
        (∀ word, error.word? = some word → text = word ∧ ⟨word, span⟩ ∈ line.words) ∧
        (error.word? = none → span = line.span) := by
  have hmarked := Source.marked_of_mem_lines h.line_mem
  have hwords : ∀ word ∈ line.words, word.span.Locates unit.source word.text := by
    intro word hword
    obtain ⟨hmarks, hphrase⟩ := hmarked.words word hword
    have hlocates := hmarks.locates hphrase
    rwa [String.ofList_toList] at hlocates
  refine ⟨hwords, ?_⟩
  rcases h.blamed with ⟨word, hword, hblamed⟩ | ⟨-, hnone, hline⟩
  · obtain rfl : word.span = span := Option.some.inj (hblamed.span.symm.trans hspan)
    refine ⟨word.text, hwords word hword, ?_, ?_⟩
    · intro other hother
      obtain rfl : word.text = other := Option.some.inj (hblamed.text.symm.trans hother)
      exact ⟨rfl, hword⟩
    · intro hnone
      rw [hblamed.text] at hnone
      cases hnone
  · obtain rfl : line.span = span := Option.some.inj (hline.symm.trans hspan)
    obtain ⟨text, hmarks, hphrase⟩ := hmarked.span
    refine ⟨String.ofList text, hmarks.locates hphrase, ?_, fun _ => rfl⟩
    intro other hother
    rw [hnone] at hother
    cases hother

theorem unit?_eq (h : lowering.FaultAt units unit line error) : error.unit? = some unit.name := by
  rcases h.blamed with ⟨word, -, hblamed⟩ | ⟨hunit, -⟩
  · exact hblamed.unit
  · exact hunit

end FaultAt

end Lowering

/-- An error about a source ends the work at a line. -/
theorem exists_faultAt_of_compileWith {options : Options} {bootstrap : Bool} {units : List SourceUnit}
    {error : Error} {name : String} (h : compileWith options bootstrap units = .error error)
    (hunit : error.unit? = some name) :
    ∃ lowering unit line, Lowering.ofOptions options = .ok lowering ∧
      lowering.FaultAt units unit line error := by
  rcases compileWith_eq_error_iff.1 h with ⟨-, rfl⟩ | ⟨lowering, hlowering, hopening | hfault⟩
  · cases hunit
  · unfold Lowering.opening at hopening
    split at hopening
    · unfold Lowering.bootstrap at hopening
      split at hopening
      · cases hopening
      · cases hopening
        cases hunit
    · cases hopening
  · obtain ⟨-, -, hfault⟩ := hfault
    obtain ⟨unit, line, hat⟩ := hfault.exists_faultAt
    exact ⟨lowering, unit, line, hlowering, hat⟩

namespace Input

/-- A file is found under the name of its unit if no other file has it. -/
theorem file?_eq_some {input : Input} (hnames : (input.units.map SourceUnit.name).Nodup)
    {file : SourceFile} (hfile : file ∈ input.files) :
    input.file? file.unit.name = some file := by
  unfold Input.units at hnames
  unfold Input.file?
  generalize input.files = files at hnames hfile
  induction files with
  | nil => cases hfile
  | cons first rest ih =>
      rw [List.map_cons, List.map_cons, List.nodup_cons] at hnames
      rcases List.mem_cons.1 hfile with rfl | hrest
      · simp
      · have hne : first.unit.name ≠ file.unit.name := by
          intro heq
          apply hnames.1
          rw [heq]
          exact List.mem_map_of_mem (List.mem_map_of_mem hrest)
        rw [List.find?_cons_of_neg (by simpa using hne)]
        exact ih hnames.2 hrest

/--
An error about a segment or a command names the unit of the line at which the
work ended.  The file of that name holds this line, and the span covers a word of
it or the line from its first word to its last, as the error says.
-/
theorem error_points_at_line {input : Input} (hnames : (input.units.map SourceUnit.name).Nodup)
    {options : Options} {bootstrap : Bool} {error : Error} {name : String} {span : Span}
    (hfails : compileWith options bootstrap input.units = .error error ∨
      input.check options = .error error)
    (hplace : (∃ word reason, error = .invalidSegment name span word reason) ∨
      ∃ reason, error = .malformedCommand name span reason) :
    ∃ file lowering line, file ∈ input.files ∧ input.file? name = some file ∧
      Lowering.ofOptions options = .ok lowering ∧
      lowering.FaultAt input.units file.unit line error ∧
      (∀ word ∈ line.words, word.span.Locates file.unit.source word.text) ∧
      ∃ text, span.Locates file.unit.source text ∧
        (∀ word, error.word? = some word → text = word ∧ ⟨word, span⟩ ∈ line.words) ∧
        (error.word? = none → span = line.span) := by
  obtain ⟨hunit, hspan⟩ : error.unit? = some name ∧ error.span? = some span := by
    rcases hplace with ⟨word, reason, rfl⟩ | ⟨reason, rfl⟩ <;> exact ⟨rfl, rfl⟩
  obtain ⟨bootstrap, hfails⟩ :
      ∃ bootstrap, compileWith options bootstrap input.units = .error error := by
    rcases hfails with hfails | hfails
    · exact ⟨bootstrap, hfails⟩
    · refine ⟨options.bootstrap.enabled input.isDirectory, ?_⟩
      rw [input.check_eq] at hfails
      cases hcompile : compileWith options (options.bootstrap.enabled input.isDirectory)
          input.units with
      | ok result => simp [hcompile, Except.map] at hfails
      | error other => simpa [hcompile, Except.map] using hfails
  obtain ⟨lowering, unit, line, hlowering, hat⟩ := exists_faultAt_of_compileWith hfails hunit
  obtain ⟨file, hfile, rfl⟩ := List.mem_map.1 hat.unit_mem
  obtain rfl : file.unit.name = name := Option.some.inj (hat.unit?_eq.symm.trans hunit)
  exact ⟨file, lowering, line, hfile, file?_eq_some hnames hfile, hlowering, hat,
    hat.locates hspan⟩

end Input

namespace Sample

/-- Two files; in the second a segment is misspelt, behind characters of two bytes. -/
def misspelt : Input where
  path := ⟨"prog"⟩
  files := [⟨⟨"prog/Main.vm"⟩, ⟨"Main", "push constant 1\n"⟩⟩,
    ⟨⟨"prog/Other.vm"⟩, ⟨"Other", "// größe\n\n\tpush lokal 2 // lokale Größe\n"⟩⟩]
  isDirectory := true

def misspeltError : Error :=
  .invalidSegment "Other" ⟨3, 18, 23⟩ "lokal" .unknownName

theorem error_points_at_misspelt :
    (misspelt.units.map SourceUnit.name).Nodup ∧ misspelt.check {} = .error misspeltError ∧
      ∃ file, misspelt.file? "Other" = some file ∧
        (Span.mk 3 18 23).slice file.unit.source = "lokal".toByteArray ∧
        String.Pos.Raw.IsValid file.unit.source ⟨18⟩ := by
  have hnames : (misspelt.units.map SourceUnit.name).Nodup := by
    decide
  have hfails : misspelt.check {} = .error misspeltError := by
    rw [Input.check_eq, compileWith_eq]
    rfl
  obtain ⟨file, lowering, line, -, hfile, -, -, -, text, hlocates, hword, -⟩ :=
    @Input.error_points_at_line misspelt hnames {} true misspeltError "Other" ⟨3, 18, 23⟩
      (.inr hfails) (.inl ⟨"lokal", .unknownName, rfl⟩)
  obtain ⟨rfl, -⟩ := hword "lokal" rfl
  exact ⟨hnames, hfails, file, hfile, hlocates.slice, hlocates.startValid⟩

end Sample

end StackVm
