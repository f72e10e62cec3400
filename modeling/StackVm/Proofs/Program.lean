import StackVm.Proofs.Asm.Linking
import StackVm.Proofs.Compile
import StackVm.Proofs.Lowering.Symbols

/-! # Linked programs

A program that compiles and assembles has the code of each command at the
command's address.
-/

namespace StackVm

open Asm Text

/-! ## The commands of a program -/

namespace Site

theorem mem_ofCommands {unit : String} {function : Option String} {commands : List Command}
    {site : Site} (h : site ∈ ofCommands unit function commands) :
    site.unit = unit ∧ site.command ∈ commands ∧
      ∀ name, site.function = some name →
        function = some name ∨ ∃ locals, Command.function name locals ∈ commands := by
  induction commands generalizing function with
  | nil => cases h
  | cons command rest ih =>
      rw [ofCommands, List.mem_cons] at h
      rcases h with rfl | h
      · exact ⟨rfl, List.mem_cons_self, fun name hname => .inl hname⟩
      · obtain ⟨hunit, hcommand, hfunction⟩ := ih h
        refine ⟨hunit, List.mem_cons_of_mem _ hcommand, fun name hname => ?_⟩
        rcases hfunction name hname with hopen | ⟨locals, hlocals⟩
        · unfold functionAfter at hopen
          split at hopen
          · cases hopen
            exact .inr ⟨_, List.mem_cons_self⟩
          · exact .inl hopen
        · exact .inr ⟨locals, List.mem_cons_of_mem _ hlocals⟩

/-- A command of a program stands in one of its units, and in a function of that unit. -/
theorem mem_ofUnits {units : List SourceUnit} {site : Site} (h : site ∈ ofUnits units) :
    ∃ unit ∈ units, site.unit = unit.name ∧ site.command ∈ unit.commands.map (·.value) ∧
      ∀ name, site.function = some name →
        ∃ locals, Command.function name locals ∈ unit.commands.map (·.value) := by
  obtain ⟨unit, hunit, h⟩ := List.mem_flatMap.1 h
  obtain ⟨hname, hcommand, hfunction⟩ := mem_ofCommands h
  refine ⟨unit, hunit, hname, hcommand, fun name hname => ?_⟩
  exact (hfunction name hname).resolve_left (by simp)

end Site

theorem SourceUnit.isSymbol_of_mem_commands {unit : SourceUnit} {command : Command}
    (h : command ∈ unit.commands.map (·.value)) :
    ∀ name ∈ command.names, Source.isSymbol name = true := by
  obtain ⟨located, hlocated, rfl⟩ := List.mem_map.1 h
  obtain ⟨item, hitem, hoption⟩ := List.mem_filterMap.1 hlocated
  obtain ⟨line, -, rfl⟩ := List.mem_map.1 hitem
  exact Source.isSymbol_of_item (toOption_eq_some_iff.1 hoption)

/-! ## Names -/

/-- A name in a command's code is generated, made from a symbol or a symbol itself. -/
theorem Lowering.name_cases {lowering : Lowering} {command : Command} {name : String}
    (hnames : ∀ name ∈ command.names, Source.isSymbol name = true)
    (h : name ∈ lowering.labelsOf command ∨ name ∈ lowering.symbolsOf command) :
    (∃ purpose number, name = generatedLabel purpose number) ∨
      (∃ index, name = lowering.staticSymbol index) ∨
      (∃ label, Source.isSymbol label = true ∧ name = lowering.scopedLabel label) ∨
      Source.isSymbol name = true := by
  have hgenerated : ∀ purpose ahead, ∃ purpose' number,
      lowering.freshLabel purpose ahead = generatedLabel purpose' number :=
    fun purpose ahead => ⟨purpose, _, rfl⟩
  cases command with
  | arith op =>
      cases op <;> simp [labelsOf, symbolsOf] at h
      all_goals
        rcases h with rfl | rfl
        · exact .inl (hgenerated _ _)
        · exact .inl (hgenerated _ _)
  | push segment index | pop segment index =>
      cases segment <;> simp [labelsOf, symbolsOf] at h
      exact .inr (.inl ⟨index, h⟩)
  | label label | goto label | ifGoto label =>
      simp [labelsOf, symbolsOf] at h
      exact .inr (.inr (.inl ⟨label, hnames label (by simp [Command.names]), h⟩))
  | function function locals =>
      simp [labelsOf, symbolsOf] at h
      subst h
      exact .inr (.inr (.inr (hnames _ (by simp [Command.names]))))
  | call function args =>
      simp [labelsOf, symbolsOf] at h
      rcases h with rfl | rfl | rfl
      · exact .inl (hgenerated _ _)
      · exact .inr (.inr (.inr (hnames _ (by simp [Command.names]))))
      · exact .inl (hgenerated _ _)
  | ret => simp [labelsOf, symbolsOf] at h

/-- The names of a command's code are names if those around it are. -/
theorem Lowering.isName_of_mem {lowering : Lowering} {command : Command} {name : String}
    (hunit : IsOneLine lowering.unit.toList)
    (hfunction : ∀ function, lowering.function = some function → Source.isSymbol function = true)
    (hnames : ∀ name ∈ command.names, Source.isSymbol name = true)
    (h : name ∈ lowering.labelsOf command ∨ name ∈ lowering.symbolsOf command) : IsName name := by
  rcases name_cases hnames h with
    ⟨purpose, number, rfl⟩ | ⟨index, rfl⟩ | ⟨label, hlabel, rfl⟩ | hsymbol
  · exact .generatedLabel purpose number
  · exact .staticSymbol hunit index
  · exact .scopedLabel hunit hfunction hlabel
  · exact .of_isSymbol hsymbol

/-! ## Lines -/

/-- A block whose request the lowering accepts and whose names stay on their lines. -/
structure Block.Named (block : Block) : Prop where
  accepted : block.Accepted
  machine : block.lowering.machine = .hack
  command : ∀ entry, block.request ≠ .bootstrap entry
  unit : ∀ command, block.request = .command command → IsOneLine block.lowering.unit.toList
  function : ∀ command, block.request = .command command →
    ∀ function, block.lowering.function = some function → Source.isSymbol function = true
  names : ∀ command, block.request = .command command →
    ∀ name ∈ command.value.names, Source.isSymbol name = true

namespace Block.Named

variable {block : Block}

theorem legible_code (h : block.Named) {line : Line} (hline : line ∈ block.code) :
    line.Legible 32767 := by
  obtain ⟨lowering, request⟩ := block
  cases request with
  | unit name => cases hline
  | bootstrap entry => exact absurd rfl (h.command entry)
  | command command =>
      have hlowers := (Lowering.command_eq_ok_iff.1 h.accepted).1
      have hname : ∀ name, name ∈ lowering.labelsOf command.value ∨
          name ∈ lowering.symbolsOf command.value → IsName name :=
        fun _ => Lowering.isName_of_mem (h.unit command rfl) (h.function command rfl)
          (h.names command rfl)
      exact (hlowers.within h.machine line hline).legible (fun name hn => hname name (.inl hn))
        (fun name hn => hname name (.inr hn))

theorem legible_lines (h : block.Named) (annotate : Bool) {line : Line}
    (hline : line ∈ block.lines annotate) : line.Legible 32767 := by
  have hremark : ∀ remark, block.remark? = some remark → '\n' ∉ remark.toList := by
    intro remark hremark
    obtain ⟨lowering, request⟩ := block
    cases request with
    | unit name => cases hremark
    | bootstrap entry => exact absurd rfl (h.command entry)
    | command command =>
        cases hremark
        exact Command.newline_not_mem_text (h.names command rfl)
  unfold Block.lines at hline
  split at hline
  · next remark hsome =>
      split at hline
      · rcases List.mem_cons.1 hline with rfl | hline
        · exact hremark remark hsome
        · exact h.legible_code hline
      · exact h.legible_code hline
  · exact h.legible_code hline

end Block.Named

/-- The lines before the first unit of a program. -/
def Options.openingLines (options : Options) : Code :=
  (options.openingBlocks (options.bootstrap.enabled true)).flatMap (Block.lines options.annotate)

/-- The lines of the units of a program. -/
def Options.lines (options : Options) (units : List SourceUnit) : Code :=
  (options.unitBlocks units).flatMap (Block.lines options.annotate)

theorem Block.mem_lines {block : Block} {line : Line} (annotate : Bool)
    (h : line ∈ block.code) : line ∈ block.lines annotate := by
  unfold Block.lines
  split
  · split
    · exact List.mem_cons_of_mem _ h
    · exact h
  · exact h

/-- Comments take no room. -/
theorem Block.size_lines (block : Block) (annotate : Bool) :
    Code.size (block.lines annotate) = Code.size block.code := by
  unfold Block.lines
  split
  · split <;> simp
  · rfl

theorem Block.size_flatMap_lines (blocks : List Block) (annotate : Bool) :
    Code.size (blocks.flatMap (Block.lines annotate)) = Code.size (blocks.flatMap Block.code) := by
  induction blocks with
  | nil => rfl
  | cons block rest ih =>
      simp only [List.flatMap_cons, Code.size_append, Block.size_lines, ih]

theorem Asm.Placed.of_lines {program : Program} {annotate : Bool} {blocks : List Block}
    {address : Nat} (h : Placed program address (blocks.flatMap (Block.lines annotate))) :
    Placed program address (blocks.flatMap Block.code) := by
  induction blocks generalizing address with
  | nil => trivial
  | cons block rest ih =>
      rw [List.flatMap_cons, Placed.append_iff, Block.size_lines] at h
      rw [List.flatMap_cons, Placed.append_iff]
      refine ⟨?_, ih h.2⟩
      have hlines := h.1
      unfold Block.lines at hlines
      split at hlines
      · split at hlines <;> exact hlines
      · exact hlines

/-! ## Linking -/

/-- A program for the standard machine whose units have names that stay on their lines. -/
structure WellNamed (options : Options) (units : List SourceUnit) : Prop where
  machine : options.machine = .hack
  unitNames : ∀ unit ∈ units, IsOneLine unit.name.toList

namespace WellNamed

variable {options : Options} {units : List SourceUnit} {text : String}

theorem named_of_mem_unitBlocks (h : WellNamed options units)
    (hcompiled : Compiled options (options.bootstrap.enabled true) units text) {block : Block}
    (hblock : block ∈ options.unitBlocks units) : block.Named := by
  have haccepted : block.Accepted := by
    apply hcompiled.accepted
    rw [options.blocks_eq]
    exact List.mem_append_right _ hblock
  have hmachine : block.lowering.machine = .hack := by
    rw [Lowering.machine_of_mem_trace hblock, ← h.machine]
    rfl
  have hsite : ∀ command, block.request = .command command →
      ⟨block.lowering.unit, block.lowering.function, command.value⟩ ∈ Site.ofUnits units := by
    intro command hcommand
    exact options.site_mem_ofUnits units hblock (by simp [Block.site?, hcommand])
  refine ⟨haccepted, hmachine, options.request_ne_bootstrap units hblock, ?_, ?_, ?_⟩
  · intro command hcommand
    obtain ⟨unit, hunit, hname, -⟩ := Site.mem_ofUnits (hsite command hcommand)
    rw [show block.lowering.unit = unit.name from hname]
    exact h.unitNames unit hunit
  · intro command hcommand function hfunction
    obtain ⟨unit, -, -, -, hopened⟩ := Site.mem_ofUnits (hsite command hcommand)
    obtain ⟨locals, hlocals⟩ := hopened function hfunction
    exact SourceUnit.isSymbol_of_mem_commands hlocals function (by simp [Command.names])
  · intro command hcommand
    obtain ⟨unit, -, -, hmem, -⟩ := Site.mem_ofUnits (hsite command hcommand)
    exact SourceUnit.isSymbol_of_mem_commands hmem

/-- The text of a program assembles if and only if its opening and its lines do. -/
theorem assemble_eq_ok_iff (h : WellNamed options units)
    (hcompiled : Compiled options (options.bootstrap.enabled true) units text)
    {program : Program} :
    assemble options.machine text = .ok program ↔
      ∃ opening layout, Opening.Opens opening .hack (options.openingLines.map Line.text) ∧
        Assembled .hack opening (options.lines units) layout program := by
  have hlegible : ∀ line ∈ options.lines units, line.Legible 32767 := by
    intro line hline
    obtain ⟨block, hblock, hline⟩ := List.mem_flatMap.1 hline
    exact (h.named_of_mem_unitBlocks hcompiled hblock).legible_lines options.annotate hline
  rw [hcompiled.text, h.machine, Block.render, options.blocks_eq, List.flatMap_append,
    List.map_append]
  exact assemble_render_eq_ok_iff hlegible

end WellNamed

/-- Units compile to a text that assembles to a program. -/
def Options.Yields (options : Options) (units : List SourceUnit) (program : Program) : Prop :=
  ∃ text, compileUnits options units = .ok text ∧ assemble options.machine text = .ok program

/--
A program for the standard machine that compiles and assembles, fits in
instruction memory, and declares all that it jumps to.
-/
structure Built (options : Options) (units : List SourceUnit) (program : Program) : Prop where
  machine : options.machine = .hack
  yields : options.Yields units program
  length_le : program.words.length ≤ 32767
  declared : ∀ site ∈ Site.ofUnits units, site.targetDeclared (Site.ofUnits units) = true

/-- A program that is built from units whose names stay on one line of the assembly text. -/
structure Linked (options : Options) (units : List SourceUnit) (program : Program) : Prop
    extends Built options units program where
  unitNames : ∀ unit ∈ units, IsOneLine unit.name.toList

/--
The address of the code for the command at a position: the code from there on
fills the rest of instruction memory.
-/
def Options.commandAddress (options : Options) (units : List SourceUnit) (program : Program)
    (position : Nat) : Nat :=
  program.words.length - Code.size (((options.commandBlocks units).drop position).flatMap Block.code)

theorem Options.commandAddress_eq {options : Options} {units : List SourceUnit} {program : Program}
    {position words rest : Nat} (hwords : program.words.length = words)
    (hrest : Code.size (((options.commandBlocks units).drop position).flatMap Block.code) = rest) :
    options.commandAddress units program position = words - rest := by
  rw [commandAddress, hwords, hrest]

theorem Linked.wellNamed {options : Options} {units : List SourceUnit} {program : Program}
    (h : Linked options units program) : WellNamed options units :=
  ⟨h.machine, h.unitNames⟩

namespace WellNamed

variable {options : Options} {units : List SourceUnit} {program : Program}

/-- A program that units yield consists of an opening and the lines of the units. -/
theorem assembled (h : WellNamed options units) (hyields : options.Yields units program) :
    ∃ text opening layout, Compiled options (options.bootstrap.enabled true) units text ∧
      Opening.Opens opening .hack (options.openingLines.map Line.text) ∧
      Assembled .hack opening (options.lines units) layout program := by
  obtain ⟨text, hcompile, hassemble⟩ := hyields
  have hcompiled := compileUnits_eq_ok_iff.1 hcompile
  obtain ⟨opening, layout, hopens, hassembled⟩ := (h.assemble_eq_ok_iff hcompiled).1 hassemble
  exact ⟨text, opening, layout, hcompiled, hopens, hassembled⟩

/-- The code of the commands stands at the end of instruction memory. -/
theorem placed (h : WellNamed options units) (hyields : options.Yields units program) :
    ∃ address,
      program.words.length =
          address + Code.size ((options.commandBlocks units).flatMap Block.code) ∧
        Placed program address ((options.commandBlocks units).flatMap Block.code) := by
  obtain ⟨text, opening, layout, -, hopens, hassembled⟩ := h.assembled hyields
  have hplaced := (hassembled.placed hopens.size_layout).of_lines
  have hlength := hassembled.length_words
  rw [Options.lines, Block.size_flatMap_lines] at hlength
  rw [options.flatMap_code_unitBlocks] at hplaced hlength
  exact ⟨opening.instructions.length, hlength, hplaced⟩

end WellNamed

/-- The block of a command, its address and its code. -/
structure HasCode (options : Options) (units : List SourceUnit) (program : Program)
    (position : Nat) (site : Site) (lowering : Lowering) (code : Code) : Prop where
  unit : lowering.unit = site.unit
  function : lowering.function = site.function
  machine : lowering.machine = .hack
  lowers : lowering.Lowers site.command code
  emitted : ∀ line ∈ code, line ∈ options.lines units
  placed : Placed program (options.commandAddress units program position) code
  next : options.commandAddress units program (position + 1) =
    options.commandAddress units program position + Code.size code

/-- The code of each command stands at the command's address. -/
theorem WellNamed.exists_hasCode {options : Options} {units : List SourceUnit}
    {program : Program} (h : WellNamed options units) (hyields : options.Yields units program)
    {position : Nat} {site : Site} (hsite : (Site.ofUnits units)[position]? = some site) :
    ∃ lowering code, HasCode options units program position site lowering code := by
  rw [options.site?_commandBlocks, Option.bind_eq_some_iff] at hsite
  obtain ⟨block, hblock, hsite⟩ := hsite
  have hmem : block ∈ options.unitBlocks units :=
    (List.mem_filter.1 (List.mem_of_getElem? hblock)).1
  obtain ⟨text, opening, layout, hcompiled, -, -⟩ := h.assembled hyields
  have hnamed := h.named_of_mem_unitBlocks hcompiled hmem
  obtain ⟨hlt, hget⟩ := List.getElem?_eq_some_iff.1 hblock
  have hsplit : (options.commandBlocks units).drop position =
      block :: (options.commandBlocks units).drop (position + 1) := by
    rw [← hget, List.getElem_cons_drop]
  obtain ⟨first, hlength, hplaced⟩ := h.placed hyields
  rw [← List.take_append_drop position (options.commandBlocks units), hsplit,
    List.flatMap_append, List.flatMap_cons] at hplaced hlength
  simp only [Code.size_append] at hlength
  have haddress : options.commandAddress units program position =
      first + Code.size (((options.commandBlocks units).take position).flatMap Block.code) := by
    rw [Options.commandAddress, hsplit, List.flatMap_cons, Code.size_append]
    omega
  have hnext : options.commandAddress units program (position + 1) =
      options.commandAddress units program position + Code.size block.code := by
    rw [haddress, Options.commandAddress]
    omega
  have hemitted : ∀ line ∈ block.code, line ∈ options.lines units :=
    fun line hline => List.mem_flatMap.2 ⟨block, hmem, Block.mem_lines options.annotate hline⟩
  obtain ⟨lowering, request⟩ := block
  cases request with
  | unit name => cases hsite
  | bootstrap entry => cases hsite
  | command command =>
      cases hsite
      refine ⟨lowering, (Block.mk lowering (.command command)).code, rfl, rfl, hnamed.machine,
        (Lowering.command_eq_ok_iff.1 hnamed.accepted).1, hemitted, ?_, hnext⟩
      rw [haddress]
      exact hplaced.right.left

/-! ## Building from the commands of the units -/

/-- Units with the commands that they hold. -/
abbrev Parts := List (SourceUnit × List (Located Command))

namespace Parts

variable {parts : Parts}

def units (parts : Parts) : List SourceUnit :=
  parts.map Prod.fst

def blocks (parts : Parts) (options : Options) : List Block :=
  options.lowering.trace
    (parts.flatMap fun part => .unit part.1.name :: part.2.map Request.command)

def sites (parts : Parts) : List Site :=
  parts.flatMap fun part => Site.ofCommands part.1.name none (part.2.map (·.value))

theorem unitBlocks_units (h : ∀ part ∈ parts, part.1.Reads part.2) (options : Options) :
    options.unitBlocks parts.units = parts.blocks options := by
  have hrequests : parts.units.flatMap SourceUnit.requests =
      parts.flatMap fun part => .unit part.1.name :: part.2.map Request.command := by
    rw [units, List.flatMap_map, List.flatMap_def, List.flatMap_def]
    refine congrArg List.flatten (List.map_congr_left fun part hpart => ?_)
    rw [SourceUnit.requests, (h part hpart).commands_eq]
  rw [Options.unitBlocks, hrequests, blocks]

theorem ofUnits_units (h : ∀ part ∈ parts, part.1.Reads part.2) :
    Site.ofUnits parts.units = parts.sites := by
  rw [Site.ofUnits, sites, units, List.flatMap_map, List.flatMap_def, List.flatMap_def]
  refine congrArg List.flatten (List.map_congr_left fun part hpart => ?_)
  rw [(h part hpart).commands_eq]

/-- Units are built if their text has the code of lines that assemble. -/
theorem built {options : Options} {lines : Code} (hreads : ∀ part ∈ parts, part.1.Reads part.2)
    (hmachine : options.machine = .hack) (htarget : options.target = "hack")
    (hbootstrap : options.bootstrap.enabled true = false)
    (haccepted : ∀ block ∈ parts.blocks options, block.Accepted)
    (hcode : codeLines (Block.render options.annotate (parts.blocks options)) =
      codeLines (render (lines.map Line.text)))
    (hlegible : ∀ line ∈ lines, line.Legible 32767)
    (hread : (instructions lines).all Instruction.isRead = true)
    (hlayout : (Layout.addAll {} (codeLinesFrom 1 lines)).toOption.isSome = true)
    (hsize : Code.size lines ≤ 32767)
    (hdeclared : ∀ site ∈ parts.sites, site.targetDeclared parts.sites = true) :
    Built options parts.units (programOf .hack lines) ∧
      Placed (programOf .hack lines) 0 lines := by
  have hblocks : options.blocks false parts.units = parts.blocks options := by
    rw [options.blocks_eq, unitBlocks_units hreads]
    rfl
  have hcompiled : Compiled options (options.bootstrap.enabled true) parts.units
      (Block.render options.annotate (parts.blocks options)) := by
    rw [hbootstrap]
    refine ⟨htarget, ?_, by rwa [hblocks], by rw [hblocks]⟩
    intro unit hunit
    obtain ⟨part, hpart, rfl⟩ := List.mem_map.1 hunit
    exact (hreads part hpart).allCommands
  obtain ⟨layout, hassembled⟩ : ∃ layout, Assembled .hack {} lines layout (programOf .hack lines) :=
    assembled_programOf hread hlayout
  refine ⟨⟨hmachine, ⟨_, compileUnits_eq_ok_iff.2 hcompiled, ?_⟩, ?_, ?_⟩, hassembled.placed rfl⟩
  · rw [hmachine, assemble, hcode]
    exact hassembled.assemble_render_eq_ok hlegible
  · rw [hassembled.length_words]
    simpa using hsize
  · rwa [ofUnits_units hreads]

end Parts

end StackVm
