import StackVm.Proofs.Source.Grammar
import StackVm.Proofs.Source.Partition
import StackVm.Source.Lint

/-! # Warnings and scopes

A unit is scanned for warnings up to its first function, and a lowering scopes flow
commands to the unit until a function is opened.  Both find the same commands, and a
warning names the symbol that the lowering writes.
-/

namespace StackVm

/-! ## Flow commands outside of functions -/

/-- The lines of a `label`, `goto` or `if-goto` whose label has a given symbol. -/
def Command.flowLines (symbol : String) : Command → List String
  | .label _ => ["(" ++ symbol ++ ")"]
  | .goto _ => ["@" ++ symbol, "0;JMP"]
  | .ifGoto _ => ["@SP", "AM=M-1", "D=M", "@" ++ symbol, "D;JNE"]
  | _ => []

theorem Command.flowLabel?_eq_some_iff {command : Command} {label : String} :
    command.flowLabel? = some label ↔
      command = .label label ∨ command = .goto label ∨ command = .ifGoto label := by
  cases command <;> simp [flowLabel?]

namespace Block

/-- A flow command has the lines of its label's symbol in the current scope. -/
theorem lines_of_flowLabel (lowering : Lowering) {command : Located Command} {label : String}
    (h : command.value.flowLabel? = some label) :
    (Block.mk lowering (.command command)).code.map Asm.Line.text =
      command.value.flowLines (lowering.scopedLabel label) := by
  obtain ⟨value, span⟩ := command
  rcases Command.flowLabel?_eq_some_iff.1 h with rfl | rfl | rfl <;> rfl

/-- A `label`, `goto` or `if-goto` that is lowered while there is no current function. -/
def IsLoose (block : Block) : Prop :=
  block.lowering.function = none ∧ ∃ command label, block.request = .command command ∧
    (command.value = .label label ∨ command.value = .goto label ∨ command.value = .ifGoto label)

/-- A warning shows the command of a block and its place, and names the symbol in its lines. -/
def ReportedBy (block : Block) (warning : Diagnostic) : Prop :=
  ∃ command symbol, block.request = .command command ∧
    block.code.map Asm.Line.text = command.value.flowLines symbol ∧
    warning.severity = .warning ∧ warning.span = command.span ∧
    warning.message = "'" ++ command.value.text ++ "' comes before any function" ∧
    warning.notes = ["scoped to the unit as " ++ symbol] ∧ warning.help = none

/-- In order, a warning for each loose block and none for any other. -/
inductive Reported : List Block → List Diagnostic → Prop where
  | nil : Reported [] []
  | loose {block : Block} {blocks : List Block} {warning : Diagnostic} {warnings : List Diagnostic}
      (h : block.IsLoose) (hreport : block.ReportedBy warning) (rest : Reported blocks warnings) :
      Reported (block :: blocks) (warning :: warnings)
  | other {block : Block} {blocks : List Block} {warnings : List Diagnostic}
      (h : ¬ block.IsLoose) (rest : Reported blocks warnings) : Reported (block :: blocks) warnings

end Block

namespace Lowering

variable {lowering : Lowering} {commands : List (Located Command)} {block : Block}

/-- A unit stays inside of functions once it has opened one. -/
theorem function_of_mem_trace (h : lowering.function ≠ none)
    (hblock : block ∈ lowering.trace (commands.map .command)) : block.lowering.function ≠ none := by
  induction commands generalizing lowering with
  | nil => cases hblock
  | cons first rest ih =>
      rcases List.mem_cons.1 hblock with rfl | hrest
      · exact h
      · refine ih ?_ hrest
        rw [Block.function_next_command]
        cases first.value <;> simp [Site.functionAfter, h]

theorem reported_nil {blocks : List Block} (h : ∀ block ∈ blocks, block.lowering.function ≠ none) :
    Block.Reported blocks [] := by
  induction blocks with
  | nil => exact .nil
  | cons block rest ih =>
      rw [List.forall_mem_cons] at h
      exact .other (fun hloose => h.1 hloose.1) (ih h.2)

end Lowering

namespace Source

variable {unit source : String} {commands : List (Located Command)}

def staysOutside (command : Located Command) : Bool :=
  !opensFunction (.ok command)

/-- The warnings about commands, the first of which stands in no function. -/
def warningsAbout (unit : String) (commands : List (Located Command)) : List Diagnostic :=
  (commands.takeWhile staysOutside).filterMap (warning? unit)

theorem lint_of_commands (h : Source.commands unit source = .ok commands) :
    lint unit source = .ok (warningsAbout unit commands) := by
  have hahead : collect ((items unit source).takeWhile fun item => !opensFunction item) =
      .ok (commands.takeWhile staysOutside) := by
    rw [collect_eq_ok_iff, collect_eq_ok_iff.1 h, List.takeWhile_map]
    rfl
  rw [lint, hahead]
  rfl

/-- The commands of a source stand on different lines, one below the other. -/
theorem pairwise_commands (h : Source.commands unit source = .ok commands) :
    commands.Pairwise fun x y => x.span.line < y.span.line := by
  have hitems : ((lines source).map (item unit)).Pairwise fun x y =>
      ∀ a b, x = .ok a → y = .ok b → a.span.line < b.span.line := by
    refine List.pairwise_map.2 ((pairwise_linesFrom _).imp ?_)
    intro first second hlt a b ha hb
    rwa [span_of_item ha, span_of_item hb]
  have hcommands : (lines source).map (item unit) = commands.map .ok := collect_eq_ok_iff.1 h
  rw [hcommands, List.pairwise_map] at hitems
  exact hitems.imp fun hlt => hlt _ _ rfl rfl

/-! ## One pass beside the other -/

section

variable {lowering : Lowering}

/-- A command that opens no function leaves the unit outside of functions. -/
theorem function_next_of_staysOutside {command : Located Command} (h : staysOutside command = true)
    (hfunction : lowering.function = none) :
    (Block.mk lowering (.command command)).next.function = none := by
  obtain ⟨value, span⟩ := command
  rw [Block.function_next_command]
  cases value with
  | function name locals => cases h
  | _ => exact hfunction

/-- A command that opens a function is not warned about, and the commands behind it are inside. -/
theorem inside_of_opens {command : Located Command} (h : staysOutside command = false) :
    warning? unit command = none ∧
      (Block.mk lowering (.command command)).next.function ≠ none := by
  obtain ⟨value, span⟩ := command
  cases value with
  | function name locals =>
      rw [Block.function_next_command]
      exact ⟨rfl, Option.some_ne_none name⟩
  | _ => cases h

/-- The warning about a command reports the block of the command. -/
theorem reportedBy_warning {command : Located Command} {warning : Diagnostic}
    (hfunction : lowering.function = none)
    (h : warning? lowering.unit command = some warning) :
    (Block.mk lowering (.command command)).IsLoose ∧
      (Block.mk lowering (.command command)).ReportedBy warning := by
  obtain ⟨label, hlabel, rfl⟩ := Option.map_eq_some_iff.1 h
  have hsymbol : unitLabel lowering.unit label = lowering.scopedLabel label := by
    rw [Lowering.scopedLabel, hfunction]
  refine ⟨⟨hfunction, command, label, rfl, Command.flowLabel?_eq_some_iff.1 hlabel⟩,
    command, unitLabel lowering.unit label, rfl, ?_, rfl, rfl, rfl, rfl, rfl⟩
  rw [hsymbol]
  exact Block.lines_of_flowLabel lowering hlabel

theorem not_isLoose {command : Located Command} (h : warning? unit command = none) :
    ¬ (Block.mk lowering (.command command)).IsLoose := by
  rintro ⟨-, _, label, ⟨⟩, hvalue⟩
  rw [← Command.flowLabel?_eq_some_iff] at hvalue
  rw [warning?, hvalue] at h
  cases h

/-- Outside of functions the warnings about the commands to come report their blocks. -/
theorem reported_trace (hunit : lowering.unit = unit) (hfunction : lowering.function = none) :
    Block.Reported (lowering.trace (commands.map .command)) (warningsAbout unit commands) := by
  induction commands generalizing lowering with
  | nil => exact .nil
  | cons first rest ih =>
      cases houtside : staysOutside first with
      | false =>
          have hnone : warningsAbout unit (first :: rest) = [] := by
            rw [warningsAbout, List.takeWhile_cons_of_neg (by simp [houtside])]
            rfl
          obtain ⟨hwarning, hinside⟩ := @inside_of_opens unit lowering first houtside
          rw [hnone]
          exact .other (not_isLoose hwarning)
            (Lowering.reported_nil fun block => Lowering.function_of_mem_trace hinside)
      | true =>
          have hrest := ih ((Block.unit_next_command lowering first).trans hunit)
            (function_next_of_staysOutside houtside hfunction)
          have hahead : warningsAbout unit (first :: rest) =
              (warning? unit first).toList ++ warningsAbout unit rest := by
            rw [warningsAbout, List.takeWhile_cons_of_pos houtside, List.filterMap_cons]
            cases warning? unit first <;> rfl
          rw [hahead]
          cases hwarning : warning? unit first with
          | none => exact .other (not_isLoose hwarning) hrest
          | some warning =>
              rw [← hunit] at hwarning
              obtain ⟨hloose, hreport⟩ := reportedBy_warning hfunction hwarning
              exact .loose hloose hreport hrest

/-- What is lowered inside of a function stands behind the commands that may be warned about. -/
theorem mem_dropWhile_of_inside {block : Block} {command : Located Command}
    (hfunction : lowering.function = none)
    (hblock : block ∈ lowering.trace (commands.map .command))
    (hinside : block.lowering.function ≠ none) (hrequest : block.request = .command command) :
    command ∈ commands.dropWhile staysOutside := by
  induction commands generalizing lowering with
  | nil => cases hblock
  | cons first rest ih =>
      rcases List.mem_cons.1 hblock with rfl | hrest
      · exact absurd hfunction hinside
      · cases houtside : staysOutside first with
        | true =>
            rw [List.dropWhile_cons_of_pos houtside]
            exact ih (function_next_of_staysOutside houtside hfunction) hrest
        | false =>
            have hmem := Lowering.request_mem_of_mem_trace hrest
            rw [hrequest] at hmem
            obtain ⟨_, hcommand, ⟨⟩⟩ := List.mem_map.1 hmem
            rw [List.dropWhile_cons_of_neg (by simp [houtside])]
            exact List.mem_cons_of_mem _ hcommand

end

theorem exists_of_mem_warningsAbout {warning : Diagnostic}
    (h : warning ∈ warningsAbout unit commands) :
    ∃ command ∈ commands.takeWhile staysOutside, warning.span = command.span := by
  obtain ⟨command, hcommand, hwarning⟩ := List.mem_filterMap.1 h
  obtain ⟨label, -, rfl⟩ := Option.map_eq_some_iff.1 hwarning
  exact ⟨command, hcommand, rfl⟩

/--
The warnings about a unit that can be read and lowered are one for one and in order its `label`,
`goto` and `if-goto` commands that are lowered outside of functions, whatever was lowered before.
Each shows the command and its place, and the symbol in its lines.  No place of a command inside of
a function is that of a warning.
-/
theorem lint_reports_loose {lowering next : Lowering} {code : Code}
    (hread : Source.commands unit source = .ok commands)
    (hlower : lowering.unitCommands unit commands = (.ok code, next)) :
    ∃ warnings, lint unit source = .ok warnings ∧
      (lowering.setUnit unit).Accepts (commands.map .command) code next ∧
      Block.Reported ((lowering.setUnit unit).trace (commands.map .command)) warnings ∧
      ∀ block ∈ (lowering.setUnit unit).trace (commands.map .command),
        block.lowering.function ≠ none → ∀ command, block.request = .command command →
          ∀ warning ∈ warnings, warning.span ≠ command.span := by
  refine ⟨_, lint_of_commands hread, Lowering.commands_eq_ok_iff.1 hlower,
    reported_trace rfl rfl, ?_⟩
  intro block hblock hinside command hrequest warning hwarning hspan
  obtain ⟨other, hother, hplace⟩ := exists_of_mem_warningsAbout hwarning
  have hcommand := mem_dropWhile_of_inside rfl hblock hinside hrequest
  have hpairwise := pairwise_commands hread
  rw [← @List.takeWhile_append_dropWhile _ staysOutside commands, List.pairwise_append] at hpairwise
  have hlt := hpairwise.2.2 other hother command hcommand
  rw [← hplace, hspan] at hlt
  exact Nat.lt_irrefl _ hlt

namespace Sample

/-- A label and a jump ahead of the first function, and the same jump inside of it. -/
def early : String :=
  "label A\nif-goto A\nfunction f 0\ngoto A\n"

def earlyCommands : List (Located Command) :=
  [⟨.label "A", ⟨1, 0, 7⟩⟩, ⟨.ifGoto "A", ⟨2, 8, 17⟩⟩, ⟨.function "f" 0, ⟨3, 18, 30⟩⟩,
    ⟨.goto "A", ⟨4, 31, 37⟩⟩]

/-- A lowering in the midst of a function of another unit. -/
def busy : Lowering :=
  { machine := .hack, unit := "Other", function := some "Other.run", labels := 3 }

def earlyWarnings : List Diagnostic :=
  [{ severity := .warning, message := "'label A' comes before any function",
     span := ⟨1, 0, 7⟩, notes := ["scoped to the unit as Prog$$A"] },
    { severity := .warning, message := "'if-goto A' comes before any function",
      span := ⟨2, 8, 17⟩, notes := ["scoped to the unit as Prog$$A"] }]

theorem reports_early :
    Source.commands "Prog" early = .ok earlyCommands ∧
      (∃ code next, busy.unitCommands "Prog" earlyCommands = (.ok code, next)) ∧
      lint "Prog" early = .ok earlyWarnings ∧
      Block.Reported ((busy.setUnit "Prog").trace (earlyCommands.map .command)) earlyWarnings := by
  have hread : Source.commands "Prog" early = .ok earlyCommands := rfl
  have haccepted : ∀ block ∈ (busy.setUnit "Prog").trace (earlyCommands.map .command),
      block.Accepted := by decide
  obtain ⟨code, next, hlower⟩ :
      ∃ code next, busy.unitCommands "Prog" earlyCommands = (.ok code, next) :=
    ⟨_, _, Lowering.commands_eq_ok_iff.2 ⟨haccepted, rfl, rfl⟩⟩
  have hlint : lint "Prog" early = .ok earlyWarnings := by
    rw [lint_of_commands hread]
    rfl
  obtain ⟨warnings, hwarnings, -, hreported, -⟩ := lint_reports_loose hread hlower
  rw [hlint] at hwarnings
  cases hwarnings
  exact ⟨hread, ⟨code, next, hlower⟩, hlint, hreported⟩

end Sample

end Source

end StackVm
