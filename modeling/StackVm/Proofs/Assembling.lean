import StackVm.Proofs.Asm.Resolution
import StackVm.Proofs.Statics

/-! # Which programs assemble

The text of a compiled program stays within the grammar of the assembler.  What
is left to refuse is a symbol that is declared twice, a function with the name of
a predefined symbol, and a program that is too long.
-/

namespace StackVm

open Asm Text

/-! ## The codes of lines -/

namespace Asm

/-- The codes that the assembler reads from lines. -/
def lineCodes (lines : Code) : List (List Char) :=
  lines.filterMap fun
    | .comment _ => none
    | .label name => some (labelCode (squeezed name))
    | .code instruction => some instruction.squeezed.text.toList

@[simp] theorem lineCodes_comment (text : String) (lines : Code) :
    lineCodes (.comment text :: lines) = lineCodes lines := rfl

@[simp] theorem lineCodes_label (name : String) (lines : Code) :
    lineCodes (.label name :: lines) = labelCode (squeezed name) :: lineCodes lines := rfl

@[simp] theorem lineCodes_code (instruction : Instruction) (lines : Code) :
    lineCodes (.code instruction :: lines) =
      instruction.squeezed.text.toList :: lineCodes lines := rfl

theorem lines_render_text {limit : UInt16} {lines : Code}
    (h : ∀ line ∈ lines, line.Legible limit) :
    Text.lines (render (lines.map Line.text)).toList =
      lines.map fun line => line.text.toList := by
  rw [lines_render, List.map_map]
  · rfl
  · intro text htext
    obtain ⟨line, hline, rfl⟩ := List.mem_map.1 htext
    exact Line.newline_not_mem_text (h line hline)

theorem codesOf_render {limit : UInt16} {lines : Code}
    (h : ∀ line ∈ lines, line.Legible limit) :
    codesOf (render (lines.map Line.text)) = lineCodes lines := by
  rw [codesOf, lines_render_text h, List.map_map]
  induction lines with
  | nil => rfl
  | cons line rest ih =>
      have hrest := ih fun other hother => h other (List.mem_cons_of_mem _ hother)
      have hline := Line.codeOf_text (h line List.mem_cons_self)
      rw [List.map_cons, List.filter_cons, hrest, Function.comp_apply, hline]
      cases line with
      | comment text => rfl
      | label name =>
          rw [Line.codeText_label, if_pos (by simp [labelCode]), lineCodes_label]
      | code instruction =>
          have hne : instruction.squeezed.text.toList ≠ [] :=
            instruction.squeezed.text_ne_nil
          rw [lineCodes_code]
          exact if_pos (decide_eq_true hne)

theorem labelNames_lineCodes (lines : Code) :
    labelNames (lineCodes lines) = (Code.labels lines).map squeezed := by
  induction lines with
  | nil => rfl
  | cons line rest ih =>
      cases line with
      | comment text => exact ih
      | label name =>
          rw [lineCodes_label, labelNames_cons_label, ih]
          rfl
      | code instruction =>
          rw [lineCodes_code, labelNames_cons_code (Instruction.head?_text_ne _), ih]
          rfl

theorem instructionCodes_lineCodes (lines : Code) :
    instructionCodes (lineCodes lines) =
      (instructions lines).map fun instruction => instruction.squeezed.text.toList := by
  induction lines with
  | nil => rfl
  | cons line rest ih =>
      cases line with
      | comment text => exact ih
      | label name => rw [lineCodes_label, instructionCodes_cons_label, ih, instructions_label]
      | code instruction =>
          rw [lineCodes_code, instructionCodes_cons_code (Instruction.head?_text_ne _), ih,
            instructions_code, List.map_cons]

theorem getLast?_of_mem_lineCodes {lines : Code} {code : List Char} (h : code ∈ lineCodes lines)
    (hhead : code.head? = some '(') : code.getLast? = some ')' := by
  obtain ⟨line, -, hline⟩ := List.mem_filterMap.1 h
  cases line with
  | comment text => cases hline
  | label name =>
      cases hline
      exact getLast?_labelCode _
  | code instruction =>
      cases hline
      exact absurd hhead (Instruction.head?_text_ne _)

theorem mem_instructions {lines : Code} {instruction : Instruction} :
    instruction ∈ instructions lines ↔ .code instruction ∈ lines := by
  rw [instructions, List.mem_filterMap]
  constructor
  · rintro ⟨line, hline, hcode⟩
    cases line with
    | comment text => cases hcode
    | label name => cases hcode
    | code other =>
        cases hcode
        exact hline
  · exact fun hline => ⟨_, hline, rfl⟩

/-- Legible lines assemble if and only if their labels can be told apart, there is room for their
instructions, and no name is taken for a number. -/
theorem exists_assemble_render_iff {machine : Machine} {lines : Code}
    (h : ∀ line ∈ lines, line.Legible machine.maxConstant) :
    (∃ program, assemble machine (render (lines.map Line.text)) = .ok program) ↔
      ((Code.labels lines).map squeezed).Nodup ∧
        (∀ name ∈ (Code.labels lines).map squeezed, name ∉ predefined.map Prod.fst) ∧
        Code.size lines ≤ maxWord ∧ (instructions lines).all Instruction.isRead = true := by
  have hlength : (instructionCodes (lineCodes lines)).length = Code.size lines := by
    rw [instructionCodes_lineCodes, List.length_map, length_instructions]
  have hread : (∀ code ∈ instructionCodes (lineCodes lines), ∃ instruction,
      Says machine.maxConstant code instruction) ↔
        (instructions lines).all Instruction.isRead = true := by
    rw [instructionCodes_lineCodes, List.forall_mem_map, List.all_eq_true]
    refine forall_congr' fun instruction => forall_congr' fun hmem => ?_
    simp only [← readInstruction_eq_ok_iff,
      readInstruction_squeezed_eq_ok_iff (h _ (mem_instructions.1 hmem))]
    exact ⟨fun ⟨_, hread, _⟩ => hread, fun hread => ⟨_, hread, rfl⟩⟩
  rw [exists_assemble_eq_ok_iff, codesOf_render h, ← labelNames_lineCodes, ← hlength, ← hread]
  constructor
  · intro hcodes
    exact ⟨hcodes.distinct, hcodes.fresh, hcodes.room, (wellFormed_iff.1 hcodes).2⟩
  · rintro ⟨hdistinct, hfresh, hroom, hcodes⟩
    refine wellFormed_iff.2 ⟨⟨fun code => getLast?_of_mem_lineCodes, hdistinct, ?_, ?_⟩, hcodes⟩
    · intro name hname
      rw [Layout.address?_eq_none_iff, List.append_nil]
      exact hfresh name hname
    · rwa [Nat.zero_add]

/-- Whether a line of a text is neither a label nor a comment. -/
def isInstructionLine (line : List Char) : Bool :=
  line.head? != some '(' && !(['/', '/'].isPrefixOf line)

theorem isInstructionLine_text {limit : UInt16} {instruction : Instruction}
    (h : instruction.Legible limit) : isInstructionLine instruction.text.toList = true := by
  have hhead := instruction.head?_text_ne
  have hline := (Instruction.isOneLine_text h).2
  have hne := instruction.text_ne_nil
  generalize instruction.text.toList = cs at hhead hline hne
  have hslashes : ['/', '/'].isPrefixOf cs = false := by
    rw [Bool.eq_false_iff]
    intro hslashes
    obtain ⟨rest, rfl⟩ := List.isPrefixOf_iff_prefix.1 hslashes
    exact hne hline.symm
  rw [isInstructionLine, hslashes, Bool.not_false, Bool.and_true, bne_iff_ne]
  exact hhead

theorem length_filter_isInstructionLine {limit : UInt16} {lines : Code}
    (h : ∀ line ∈ lines, line.Legible limit) :
    ((Text.lines (render (lines.map Line.text)).toList).filter isInstructionLine).length =
      Code.size lines := by
  rw [lines_render_text h]
  induction lines with
  | nil => rfl
  | cons line rest ih =>
      have hrest := ih fun other hother => h other (List.mem_cons_of_mem _ hother)
      rw [List.map_cons, List.filter_cons]
      cases line with
      | comment text =>
          have hno : isInstructionLine (Line.comment text).text.toList = false := by
            simp [isInstructionLine, Line.text]
          rw [hno, Code.size_comment]
          exact hrest
      | label name =>
          have hno : isInstructionLine (Line.label name).text.toList = false := by
            simp [isInstructionLine, Line.text]
          rw [hno, Code.size_label]
          exact hrest
      | code instruction =>
          have hyes : isInstructionLine (Line.code instruction).text.toList = true :=
            isInstructionLine_text (h _ List.mem_cons_self)
          rw [hyes, Code.size_code, if_pos rfl, List.length_cons, hrest]

end Asm

/-! ## Names -/

theorem Source.exists_isSymbolStart {name : String} (h : isSymbol name = true) :
    ∃ c rest, name.toList = c :: rest ∧ isSymbolStart c = true := by
  unfold isSymbol at h
  cases hname : name.toList with
  | nil => simp [hname] at h
  | cons c rest =>
      simp only [hname, Bool.and_eq_true] at h
      exact ⟨c, rest, rfl, h.1⟩

/-- A name that the assembler takes for a symbol, as it is. -/
structure IsPlainName (name : String) : Prop where
  plain : name.toList.all isPlain = true
  notDigit : ∃ c rest, name.toList = c :: rest ∧ c.isDigit = false

namespace IsPlainName

variable {name : String}

theorem of_isSymbol (h : Source.isSymbol name = true) : IsPlainName name := by
  obtain ⟨c, rest, hname, hstart⟩ := Source.exists_isSymbolStart h
  exact ⟨Source.all_isPlain_of_isSymbol h, c, rest, hname,
    (Source.isPlain_of_isSymbolStart hstart).2.1⟩

theorem append (h : IsPlainName name) {last : String} (hlast : last.toList.all isPlain = true) :
    IsPlainName (name ++ last) := by
  obtain ⟨c, rest, hname, hdigit⟩ := h.notDigit
  refine ⟨?_, c, rest ++ last.toList, ?_, hdigit⟩
  · rw [String.toList_append, List.all_append, h.plain, hlast, Bool.and_self]
  · rw [String.toList_append, hname, List.cons_append]

theorem generatedLabel (purpose : LabelPurpose) (number : Nat) :
    IsPlainName (StackVm.generatedLabel purpose number) := by
  have hmark : IsPlainName ("$" ++ purpose.word ++ ".") := by
    cases purpose <;> exact ⟨by decide, '$', _, rfl, by decide⟩
  exact hmark.append (all_isPlain_repr number)

theorem staticSymbol {lowering : Lowering} (h : Source.isSymbol lowering.unit = true)
    (index : UInt16) : IsPlainName (lowering.staticSymbol index) :=
  ((of_isSymbol h).append (by decide)).append (all_isPlain_repr index.toNat)

theorem scopedLabel {lowering : Lowering} {label : String}
    (hunit : Source.isSymbol lowering.unit = true)
    (hfunction : ∀ function, lowering.function = some function →
      Source.isSymbol function = true)
    (hlabel : Source.isSymbol label = true) : IsPlainName (lowering.scopedLabel label) := by
  have hplain := Source.all_isPlain_of_isSymbol hlabel
  rw [Lowering.scopedLabel]
  split
  · next function h => exact ((of_isSymbol (hfunction function h)).append (by decide)).append hplain
  · exact ((of_isSymbol hunit).append (by decide)).append hplain

theorem squeezed_eq (h : IsPlainName name) : squeezed name = name := by
  rw [squeezed, squeeze_of_plain h.plain, String.ofList_toList]

theorem isRead_load (h : IsPlainName name) :
    (Instruction.load (.symbol name)).isRead = true := by
  obtain ⟨c, rest, hname, hdigit⟩ := h.notDigit
  rw [Instruction.isRead, squeeze_of_plain h.plain, hname]
  simp [hdigit]

end IsPlainName

theorem Asm.Line.Within.isRead {defined used : List String} {instruction : Instruction}
    (h : (Line.code instruction).Within defined used)
    (hused : ∀ name ∈ used, IsPlainName name) : instruction.isRead = true := by
  have hregisters : ∀ name ∈ registerNames, Source.isSymbol name = true := by
    decide
  cases h with
  | compute dest comp jump => rfl
  | constant hle => rfl
  | register hname => exact (IsPlainName.of_isSymbol (hregisters _ hname)).isRead_load
  | symbol hname => exact (hused _ hname).isRead_load

/-! ## Declared symbols -/

/-- The symbol that a command declares: a function, or a label in its scope. -/
def Site.declared? (site : Site) : Option String :=
  match site.command with
  | .function name _ => some name
  | .label name => some (site.scope.symbol name)
  | _ => none

/-- Whether a symbol could not be a generated label. -/
def notGenerated (name : String) : Bool :=
  name.toList.head? != some '$'

theorem notGenerated_append {name : String} (h : Source.isSymbol name = true) (last : String) :
    notGenerated (name ++ last) = true := by
  obtain ⟨c, rest, hname, hstart⟩ := Source.exists_isSymbolStart h
  have hdollar := (Source.isPlain_of_isSymbolStart hstart).2.2
  simpa [notGenerated, hname] using hdollar

theorem notGenerated_of_isSymbol {name : String} (h : Source.isSymbol name = true) :
    notGenerated name = true := by
  simpa using notGenerated_append h ""

namespace Lowering

variable {lowering : Lowering} {command : Command}

theorem notGenerated_scopedLabel (hunit : Source.isSymbol lowering.unit = true)
    (hfunction : ∀ function, lowering.function = some function → Source.isSymbol function = true)
    (label : String) : notGenerated (lowering.scopedLabel label) = true := by
  rw [scopedLabel]
  split
  · next function h =>
      rw [functionLabel, String.append_assoc]
      exact notGenerated_append (hfunction function h) _
  · rw [unitLabel, String.append_assoc]
    exact notGenerated_append hunit _

/-- Of the names that a command defines, those that are not generated are the declared ones. -/
theorem filter_labelsOf (hunit : Source.isSymbol lowering.unit = true)
    (hfunction : ∀ function, lowering.function = some function → Source.isSymbol function = true)
    (hnames : ∀ name ∈ command.names, Source.isSymbol name = true) :
    (lowering.labelsOf command).filter notGenerated =
      (Site.declared? ⟨lowering.unit, lowering.function, command⟩).toList := by
  have hgenerated : ∀ purpose ahead, notGenerated (lowering.freshLabel purpose ahead) = false := by
    intro purpose ahead
    simp [notGenerated, freshLabel, generatedLabel]
  cases command with
  | arith op => cases op <;> simp [labelsOf, Site.declared?, hgenerated]
  | label label =>
      have hscoped : lowering.scopedLabel label =
          Scope.symbol (Site.scope ⟨lowering.unit, lowering.function, .label label⟩) label :=
        scopedLabel_eq rfl rfl label
      rw [labelsOf, List.filter_cons, notGenerated_scopedLabel hunit hfunction, hscoped]
      rfl
  | function name locals =>
      have hname := notGenerated_of_isSymbol (hnames name (by simp [Command.names]))
      simp [labelsOf, Site.declared?, hname]
  | call name args => simp [labelsOf, Site.declared?, hgenerated]
  | _ => rfl

end Lowering

/-! ## Programs -/

/-- A program for the standard machine in which all names are symbols. -/
structure Symbolic (options : Options) (units : List SourceUnit) : Prop where
  machine : options.machine = .hack
  unitNames : ∀ unit ∈ units, Source.isSymbol unit.name = true
  entry : options.bootstrap.enabled true = true → Source.isSymbol options.entry = true

/-- All lines of a program. -/
def Options.allLines (options : Options) (units : List SourceUnit) : Code :=
  options.openingLines ++ options.lines units

/-- The symbols that the commands of units declare. -/
def declaredSymbols (units : List SourceUnit) : List String :=
  (Site.ofUnits units).filterMap Site.declared?

/-- The code of a command has an instruction for each label that it takes. -/
theorem Lowering.Lowers.labelsTaken_le_size {lowering : Lowering} {command : Command} {code : Code}
    (h : lowering.Lowers command code) : command.labelsTaken ≤ Code.size code := by
  cases h with
  | arith op => cases op <;> exact Nat.le_of_ble_eq_true rfl
  | call name haccepts => exact Nat.le_of_ble_eq_true rfl
  | push _ | pop _ | label _ | goto _ | ifGoto _ | function _ _ | ret => exact Nat.zero_le _

theorem Block.labelsTaken_le_size (block : Block) : block.labelsTaken ≤ Code.size block.code := by
  obtain ⟨lowering, request⟩ := block
  cases request with
  | unit name | bootstrap entry => exact Nat.zero_le _
  | command command =>
      cases h : lowering.command command with
      | ok answer =>
          simp only [labelsTaken, code, outcome, h]
          exact (Lowering.command_eq_ok_iff.1 h).1.labelsTaken_le_size
      | error error =>
          simp only [labelsTaken, h]
          exact Nat.zero_le _

theorem Block.labelsTakenAll_le_size (blocks : List Block) :
    Block.labelsTakenAll blocks ≤ Code.size (blocks.flatMap Block.code) := by
  induction blocks with
  | nil => exact Nat.zero_le _
  | cons block rest ih =>
      rw [labelsTakenAll, List.foldr_cons, List.flatMap_cons, Code.size_append]
      exact Nat.add_le_add block.labelsTaken_le_size ih

/-- A program that fits in instruction memory has too few labels for the counter to run over. -/
theorem Options.count_labels_le_one {options : Options} {units : List SourceUnit}
    (hsize : Code.size (options.lines units) ≤ maxWord) (purpose : LabelPurpose) (number : Nat) :
    (options.labels units).count (generatedLabel purpose number) ≤ 1 := by
  have hscope : options.lowering.scope.Symbolic := trivial
  have hnames : ∀ command, Request.command command ∈ units.flatMap SourceUnit.requests →
      ∀ name ∈ command.value.names, Source.isSymbol name = true := by
    intro command hcommand
    obtain ⟨unit, -, hcommand⟩ := List.mem_flatMap.1 hcommand
    rw [SourceUnit.requests, List.mem_cons] at hcommand
    rcases hcommand with hunit | hcommand
    · cases hunit
    · obtain ⟨other, hother, heq⟩ := List.mem_map.1 hcommand
      cases heq
      exact SourceUnit.isSymbol_of_mem_commands (List.mem_map_of_mem hother)
  have htaken := Block.labelsTakenAll_le_size (options.unitBlocks units)
  rw [lines, Block.size_flatMap_lines] at hsize
  have hroom : (0 : UInt32).toNat + Block.labelsTakenAll (options.unitBlocks units) < UInt32.size := by
    rw [UInt32.toNat_zero, Nat.zero_add]
    exact Nat.lt_of_le_of_lt (Nat.le_trans htaken hsize) (by decide)
  refine Nat.le_trans (Lowering.count_labels_trace_le hscope hnames hroom purpose number) ?_
  split <;> decide

/-- No label is predefined if and only if no function is, for all other labels have a mark. -/
theorem Options.labels_not_predefined_iff {options : Options} {units : List SourceUnit} :
    (∀ name ∈ options.labels units, name ∉ predefined.map Prod.fst) ↔
      ∀ site ∈ Site.ofUnits units, ∀ name ∈ predefined.map Prod.fst,
        site.declaresFunction name = false := by
  have hmark : ∀ name ∈ predefined.map Prod.fst, '$' ∉ name.toList := by
    decide
  constructor
  · intro hlabels site hsite name hname
    rw [Bool.eq_false_iff]
    exact fun hdeclares =>
      hlabels name (mem_labels_of_declaresFunction hsite hdeclares) hname
  · intro hfunctions name hlabel hname
    rcases dollar_mem_of_mem_labels hlabel with hdollar | ⟨site, hsite, hdeclares⟩
    · exact hmark name hname hdollar
    · rw [hfunctions site hsite name hname] at hdeclares
      cases hdeclares

namespace Symbolic

variable {options : Options} {units : List SourceUnit} {text : String}

theorem wellNamed (h : Symbolic options units) : WellNamed options units :=
  ⟨h.machine, fun unit hunit => (IsName.of_isSymbol (h.unitNames unit hunit)).isOneLine⟩

theorem isSymbol_unit (h : Symbolic options units) {lowering : Lowering}
    {command : Located Command} (hblock : ⟨lowering, .command command⟩ ∈ options.unitBlocks units) :
    Source.isSymbol lowering.unit = true := by
  have hsite : ⟨lowering.unit, lowering.function, command.value⟩ ∈ Site.ofUnits units :=
    options.site_mem_ofUnits units hblock rfl
  obtain ⟨unit, hunit, hname, -⟩ := Site.mem_ofUnits hsite
  rw [show lowering.unit = unit.name from hname]
  exact h.unitNames unit hunit

theorem openingLines_eq (h : Symbolic options units)
    (hbootstrap : options.bootstrap.enabled true = true) :
    options.openingLines =
      (if options.annotate then [.comment ("bootstrap: " ++ options.entry)] else []) ++
        Code.bootstrap 261 options.entry := by
  have hcode : (Block.mk options.lowering (.bootstrap options.entry)).code =
      Code.bootstrap 261 options.entry := by
    have hsp : options.lowering.machine.initialSp? = some 261 := by
      rw [show options.lowering.machine = .hack from h.machine]
      exact Machine.initialSp?_hack
    simp only [Block.code, Block.outcome, Lowering.bootstrap, hsp]
  simp only [Options.openingLines, Options.openingBlocks, Options.openingRequests, hbootstrap,
    if_true, Lowering.trace, List.flatMap_cons, List.flatMap_nil, List.append_nil, Block.lines,
    Block.remark?, hcode]
  cases options.annotate <;> rfl

theorem labels_openingLines (h : Symbolic options units) :
    Code.labels options.openingLines = [] := by
  cases hbootstrap : options.bootstrap.enabled true with
  | false =>
      simp [Options.openingLines, Options.openingBlocks, Options.openingRequests, hbootstrap,
        Lowering.trace]
  | true =>
      rw [h.openingLines_eq hbootstrap]
      cases options.annotate <;> rfl

theorem of_mem_openingLines (h : Symbolic options units) {line : Line}
    (hline : line ∈ options.openingLines) :
    line.Legible 32767 ∧ ∀ instruction, line = .code instruction → instruction.isRead = true := by
  cases hbootstrap : options.bootstrap.enabled true with
  | false =>
      simp [Options.openingLines, Options.openingBlocks, Options.openingRequests, hbootstrap,
        Lowering.trace] at hline
  | true =>
      have hentry := h.entry hbootstrap
      have hname := IsName.of_isSymbol hentry
      rw [h.openingLines_eq hbootstrap] at hline
      rcases List.mem_append.1 hline with hline | hline
      · obtain rfl : line = .comment ("bootstrap: " ++ options.entry) := by
          cases hannotate : options.annotate <;> simp [hannotate] at hline
          exact hline
        refine ⟨by simpa [Line.Legible] using hname.isOneLine.1, ?_⟩
        intro instruction hcode
        cases hcode
      · have hwithin : line.Within [] [options.entry] :=
          Code.within_bootstrap (by decide) options.entry line hline
        refine ⟨hwithin.legible (by simp) (by simpa using hname), ?_⟩
        rintro instruction rfl
        exact hwithin.isRead (by simpa using IsPlainName.of_isSymbol hentry)

theorem isPlainName_of_mem (h : Symbolic options units)
    (hcompiled : Compiled options (options.bootstrap.enabled true) units text)
    {lowering : Lowering} {command : Located Command} {name : String}
    (hblock : ⟨lowering, .command command⟩ ∈ options.unitBlocks units)
    (hname : name ∈ lowering.labelsOf command.value ∨ name ∈ lowering.symbolsOf command.value) :
    IsPlainName name := by
  have hnamed := h.wellNamed.named_of_mem_unitBlocks hcompiled hblock
  have hunit := h.isSymbol_unit hblock
  rcases Lowering.name_cases (hnamed.names command rfl) hname with
    ⟨purpose, number, rfl⟩ | ⟨index, rfl⟩ | ⟨label, hlabel, rfl⟩ | hsymbol
  · exact .generatedLabel purpose number
  · exact .staticSymbol hunit index
  · exact .scopedLabel hunit (hnamed.function command rfl) hlabel
  · exact .of_isSymbol hsymbol

theorem of_mem_lines (h : Symbolic options units)
    (hcompiled : Compiled options (options.bootstrap.enabled true) units text) {line : Line}
    (hline : line ∈ options.lines units) :
    line.Legible 32767 ∧ ∀ instruction, line = .code instruction → instruction.isRead = true := by
  obtain ⟨block, hblock, hline⟩ := List.mem_flatMap.1 hline
  have hnamed := h.wellNamed.named_of_mem_unitBlocks hcompiled hblock
  refine ⟨hnamed.legible_lines options.annotate hline, ?_⟩
  rintro instruction rfl
  have hcode : .code instruction ∈ block.code := by
    unfold Block.lines at hline
    split at hline
    · split at hline
      · exact (List.mem_cons.1 hline).resolve_left nofun
      · exact hline
    · exact hline
  obtain ⟨lowering, request⟩ := block
  cases request with
  | unit name => cases hcode
  | bootstrap entry => exact absurd rfl (hnamed.command entry)
  | command command =>
      have hlowers := (Lowering.command_eq_ok_iff.1 hnamed.accepted).1
      exact (hlowers.within hnamed.machine _ hcode).isRead
        fun name hname => h.isPlainName_of_mem hcompiled hblock (.inr hname)

theorem of_mem_allLines (h : Symbolic options units)
    (hcompiled : Compiled options (options.bootstrap.enabled true) units text) {line : Line}
    (hline : line ∈ options.allLines units) :
    line.Legible 32767 ∧ ∀ instruction, line = .code instruction → instruction.isRead = true :=
  (List.mem_append.1 hline).elim h.of_mem_openingLines (h.of_mem_lines hcompiled)

theorem exists_labelsOf (h : Symbolic options units)
    (hcompiled : Compiled options (options.bootstrap.enabled true) units text) {name : String}
    (hname : name ∈ options.labels units) :
    ∃ lowering command, ⟨lowering, .command command⟩ ∈ options.unitBlocks units ∧
      name ∈ lowering.labelsOf command.value := by
  obtain ⟨block, hblock, hname⟩ := Options.mem_labels_iff.1 hname
  have hnamed := h.wellNamed.named_of_mem_unitBlocks hcompiled hblock
  obtain ⟨lowering, request⟩ := block
  cases request with
  | unit other => cases hname
  | bootstrap entry => exact absurd rfl (hnamed.command entry)
  | command command =>
      rw [(Lowering.command_eq_ok_iff.1 hnamed.accepted).1.labels_eq] at hname
      exact ⟨lowering, command, hblock, hname⟩

theorem map_squeezed_labels (h : Symbolic options units)
    (hcompiled : Compiled options (options.bootstrap.enabled true) units text) :
    (options.labels units).map squeezed = options.labels units := by
  refine (List.map_congr_left fun name hname => ?_).trans (List.map_id _)
  obtain ⟨lowering, command, hblock, hlabel⟩ := h.exists_labelsOf hcompiled hname
  exact (h.isPlainName_of_mem hcompiled hblock (.inl hlabel)).squeezed_eq

/-- A label that looks generated is generated. -/
theorem isGenerated_of_mem_labels (h : Symbolic options units)
    (hcompiled : Compiled options (options.bootstrap.enabled true) units text) {name : String}
    (hname : name ∈ options.labels units) (hgenerated : notGenerated name = false) :
    IsGenerated name := by
  obtain ⟨lowering, command, hblock, hlabel⟩ := h.exists_labelsOf hcompiled hname
  have hnamed := h.wellNamed.named_of_mem_unitBlocks hcompiled hblock
  have hunit := h.isSymbol_unit hblock
  have hnot : notGenerated name ≠ true := Bool.eq_false_iff.1 hgenerated
  rcases Lowering.name_cases (hnamed.names command rfl) (.inl hlabel) with
    hlabel | ⟨index, rfl⟩ | ⟨label, -, rfl⟩ | hsymbol
  · exact hlabel
  · rw [Lowering.staticSymbol, String.append_assoc] at hnot
    exact absurd (notGenerated_append hunit _) hnot
  · exact absurd (Lowering.notGenerated_scopedLabel hunit (hnamed.function command rfl) label) hnot
  · exact absurd (notGenerated_of_isSymbol hsymbol) hnot

/-- The labels of a program that are not generated are its declared symbols. -/
theorem filter_labels (h : Symbolic options units)
    (hcompiled : Compiled options (options.bootstrap.enabled true) units text) :
    (options.labels units).filter notGenerated = declaredSymbols units := by
  have hblock : ∀ block ∈ options.unitBlocks units,
      (Code.labels block.code).filter notGenerated =
        (block.site?.bind Site.declared?).toList := by
    intro block hblock
    have hnamed := h.wellNamed.named_of_mem_unitBlocks hcompiled hblock
    obtain ⟨lowering, request⟩ := block
    cases request with
    | unit name => rfl
    | bootstrap entry => exact absurd rfl (hnamed.command entry)
    | command command =>
        rw [(Lowering.command_eq_ok_iff.1 hnamed.accepted).1.labels_eq]
        exact Lowering.filter_labelsOf (h.isSymbol_unit hblock) (hnamed.function command rfl)
          (hnamed.names command rfl)
  rw [declaredSymbols, ← Lowering.sites_trace_units options.lowering units, Options.labels,
    ← Options.unitBlocks]
  generalize options.unitBlocks units = blocks at hblock
  induction blocks with
  | nil => rfl
  | cons block rest ih =>
      have hrest := ih fun other hother => hblock other (List.mem_cons_of_mem _ hother)
      rw [List.flatMap_cons, Code.labels_append, List.filter_append, hrest,
        hblock block List.mem_cons_self, List.filterMap_cons]
      cases block.site? with
      | none => rfl
      | some site =>
          rw [List.filterMap_cons, Option.bind_some]
          cases site.declared? <;> rfl

/-- The labels of a program are distinct if and only if its declared symbols are: a generated label
is defined once. -/
theorem nodup_labels_iff (h : Symbolic options units)
    (hcompiled : Compiled options (options.bootstrap.enabled true) units text)
    (hsize : Code.size (options.lines units) ≤ maxWord) :
    (options.labels units).Nodup ↔ (declaredSymbols units).Nodup := by
  rw [← h.filter_labels hcompiled]
  refine ⟨List.Nodup.sublist List.filter_sublist, fun hdeclared => ?_⟩
  rw [List.nodup_iff_count] at hdeclared ⊢
  intro name
  by_cases hname : notGenerated name = true
  · rw [← List.count_filter hname]
    exact hdeclared name
  · by_cases hmem : name ∈ options.labels units
    · obtain ⟨purpose, number, rfl⟩ :=
        h.isGenerated_of_mem_labels hcompiled hmem (Bool.eq_false_iff.2 hname)
      exact Options.count_labels_le_one hsize purpose number
    · rw [List.count_eq_zero_of_not_mem hmem]
      exact Nat.zero_le 1

/-- A compiled program assembles if and only if its declared symbols are distinct, no function has
the name of a predefined symbol, and there are at most 65535 instructions, one for each word. -/
theorem assembles_iff (h : Symbolic options units)
    (hcompile : compileUnits options units = .ok text) :
    ((∃ program, assemble options.machine text = .ok program) ↔
      (declaredSymbols units).Nodup ∧
        (∀ site ∈ Site.ofUnits units, ∀ name ∈ predefined.map Prod.fst,
          site.declaresFunction name = false) ∧
        ((Text.lines text.toList).filter isInstructionLine).length ≤ 65535) ∧
      ∀ program, assemble options.machine text = .ok program →
        program.words.length = ((Text.lines text.toList).filter isInstructionLine).length := by
  have hcompiled := compileUnits_eq_ok_iff.1 hcompile
  have htext : text = render ((options.allLines units).map Line.text) := by
    rw [hcompiled.text, Block.render, options.blocks_eq, List.flatMap_append]
    rfl
  have hlegible : ∀ line ∈ options.allLines units, line.Legible Machine.hack.maxConstant :=
    fun line hline => (h.of_mem_allLines hcompiled hline).1
  have hread : (instructions (options.allLines units)).all Instruction.isRead = true :=
    List.all_eq_true.2 fun instruction hmem =>
      (h.of_mem_allLines hcompiled (mem_instructions.1 hmem)).2 instruction rfl
  have hlabels : (Code.labels (options.allLines units)).map squeezed = options.labels units := by
    rw [Options.allLines, Code.labels_append, h.labels_openingLines, List.nil_append,
      options.labels_lines, h.map_squeezed_labels hcompiled]
  have hsize := length_filter_isInstructionLine hlegible
  have hnodup : Code.size (options.allLines units) ≤ maxWord →
      ((options.labels units).Nodup ↔ (declaredSymbols units).Nodup) := by
    intro hroom
    rw [Options.allLines, Code.size_append] at hroom
    exact h.nodup_labels_iff hcompiled (Nat.le_trans (Nat.le_add_left _ _) hroom)
  rw [h.machine, htext]
  constructor
  · rw [exists_assemble_render_iff hlegible, hlabels, Options.labels_not_predefined_iff, hsize]
    constructor
    · rintro ⟨hdistinct, hfunctions, hroom, -⟩
      exact ⟨(hnodup hroom).1 hdistinct, hfunctions, hroom⟩
    · rintro ⟨hdistinct, hfunctions, hroom⟩
      exact ⟨(hnodup hroom).2 hdistinct, hfunctions, hroom, hread⟩
  · intro program hprogram
    rw [length_words_of_assemble hprogram, codesOf_render hlegible, instructionCodes_lineCodes,
      List.length_map, length_instructions, hsize]

end Symbolic

namespace Sample

/-- The sample program assembles, so it meets the conditions for that. -/
theorem assembles_linked :
    Symbolic options [unit] ∧
      ∃ text, compileUnits options [unit] = .ok text ∧ (declaredSymbols [unit]).Nodup ∧
        (∀ site ∈ Site.ofUnits [unit], ∀ name ∈ predefined.map Prod.fst,
          site.declaresFunction name = false) ∧
        ((Text.lines text.toList).filter isInstructionLine).length ≤ 65535 ∧
        program.words.length = ((Text.lines text.toList).filter isInstructionLine).length := by
  have hsymbolic : Symbolic options [unit] :=
    ⟨rfl, List.forall_mem_singleton.2 (by decide), nofun⟩
  obtain ⟨text, hcompile, hassemble⟩ := linked.yields
  obtain ⟨hiff, hwords⟩ := hsymbolic.assembles_iff hcompile
  obtain ⟨hdeclared, hfunctions, hlength⟩ := hiff.1 ⟨program, hassemble⟩
  exact ⟨hsymbolic, text, hcompile, hdeclared, hfunctions, hlength, hwords program hassemble⟩

end Sample

end StackVm
