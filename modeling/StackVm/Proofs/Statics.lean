import StackVm.Proofs.Asm.Variables
import StackVm.Proofs.Lowering.Labels
import StackVm.Proofs.Simulation

/-! # Static variables

A static variable is an assembler variable with the unit's name in its own name.
It is private to its unit if the assembler finds no label of that name and tells
it from all other static variables, which blanks in a unit's name can prevent.
-/

namespace StackVm

open Asm Text

structure Static where
  unit : String
  index : UInt16
  deriving DecidableEq, Repr

/-- The name of a static variable in assembly. -/
def Static.name (static : Static) : String :=
  static.unit ++ "." ++ static.index.toNat.repr

/-- The static variable that a command pushes or pops. -/
def Site.static? (site : Site) : Option Static :=
  match site.command with
  | .push .statics index => some ⟨site.unit, index⟩
  | .pop .statics index => some ⟨site.unit, index⟩
  | _ => none

/-- The static variables that units use. -/
def Static.ofUnits (units : List SourceUnit) : List Static :=
  (Site.ofUnits units).filterMap Site.static?

/-- The labels that the code of units defines. -/
def Options.labels (options : Options) (units : List SourceUnit) : List String :=
  Code.labels ((options.unitBlocks units).flatMap Block.code)

/-! ## The opening of a program -/

namespace Asm

/-- A line without a label that stays on its line. -/
structure Line.IsQuiet (line : Line) : Prop where
  newline : '\n' ∉ line.text.toList
  head : (codeOf line.text.toList).head? ≠ some '('

theorem Line.isQuiet_code {instruction : Instruction}
    (h : ∀ name, instruction.symbol? = some name → '\n' ∉ name.toList) :
    (Line.code instruction).IsQuiet := by
  cases instruction with
  | compute dest comp jump =>
      have hplain := Instruction.all_isPlain_text_compute dest comp jump
      refine ⟨(isOneLine_of_plain hplain).1, ?_⟩
      have hcode : codeOf (Instruction.compute dest comp jump).text.toList =
          (Instruction.compute dest comp jump).text.toList := by
        rw [codeOf, (isOneLine_of_plain hplain).2]
        exact squeeze_of_plain hplain
      rw [Line.text, hcode]
      exact Instruction.head?_text_ne _
  | load address =>
      have htext : (Line.code (.load address)).text.toList = '@' :: address.text.toList := by
        simp [Line.text, Instruction.text]
      refine ⟨?_, ?_⟩
      · rw [htext, List.mem_cons, not_or]
        refine ⟨by decide, ?_⟩
        cases address with
        | constant value => exact not_mem_repr (by decide) value.toNat
        | symbol name => exact h name rfl
      · rw [htext]
        simp [codeOf, beforeComment, isBlank, whiteSpaceRanges]

theorem mem_codeLines_render {texts : List String} {line : CodeLine}
    (h : ∀ text ∈ texts, '\n' ∉ text.toList) (hline : line ∈ codeLines (render texts)) :
    ∃ text ∈ texts, line.code = codeOf text.toList := by
  rw [codeLines, lines_render h] at hline
  obtain ⟨⟨cs, number⟩, hmem, hcode⟩ := List.mem_filterMap.1 hline
  obtain ⟨text, htext, rfl⟩ := List.mem_map.1 (List.fst_mem_of_mem_zipIdx hmem)
  refine ⟨text, htext, ?_⟩
  dsimp only at hcode
  split at hcode
  · cases hcode
  · cases hcode
    rfl

theorem length_codeLines_render_le {texts : List String}
    (h : ∀ text ∈ texts, '\n' ∉ text.toList) :
    (codeLines (render texts)).length ≤ texts.length := by
  rw [codeLines, lines_render h]
  refine Nat.le_trans (List.length_filterMap_le _ _) (Nat.le_of_eq ?_)
  rw [List.length_zipIdx, List.length_map]

theorem Layout.labels_of_addAll {layout final : Layout} {lines : List CodeLine}
    (hlines : ∀ line ∈ lines, line.isLabel = false) (h : layout.addAll lines = .ok final) :
    final.labels = layout.labels := by
  refine addAll_keeps (p := fun reached => reached.labels = layout.labels) ?_ rfl h
  intro line hline reached next hlabels hadd
  rcases add_eq_ok_iff.1 hadd with ⟨name, hcode, -⟩ | ⟨-, -, rfl⟩
  · have hlabel := hlines line hline
    rw [CodeLine.isLabel, hcode, head?_labelCode] at hlabel
    cases hlabel
  · exact hlabels

/-- An opening of quiet lines defines no labels, and has no more instructions than lines. -/
theorem Opening.Opens.of_isQuiet {opening : Opening} {machine : Machine} {lines : Code}
    (hquiet : ∀ line ∈ lines, line.IsQuiet) (h : opening.Opens machine (lines.map Line.text)) :
    opening.layout.labels = [] ∧ opening.instructions.length ≤ lines.length := by
  have hnewline : ∀ text ∈ lines.map Line.text, '\n' ∉ text.toList := by
    intro text htext
    obtain ⟨line, hline, rfl⟩ := List.mem_map.1 htext
    exact (hquiet line hline).newline
  refine ⟨?_, ?_⟩
  · apply Layout.labels_of_addAll _ h.firstPass
    intro codeLine hcodeLine
    obtain ⟨text, htext, hcode⟩ := mem_codeLines_render hnewline hcodeLine
    obtain ⟨line, hline, rfl⟩ := List.mem_map.1 htext
    rw [CodeLine.isLabel, hcode, beq_eq_false_iff_ne]
    exact (hquiet line hline).head
  · rw [length_of_mapM_eq_ok h.read]
    refine Nat.le_trans (List.length_filter_le _ _) ?_
    exact Nat.le_trans (length_codeLines_render_le hnewline) (Nat.le_of_eq (List.length_map _))

end Asm

/-- The opening of a program is a bootstrap, if it has one. -/
theorem Options.openingLines_cases (options : Options) :
    options.openingLines.length ≤ 7 ∧ ∀ line ∈ options.openingLines,
      line = .comment ("bootstrap: " ++ options.entry) ∨
        ∃ sp, line ∈ Code.bootstrap sp options.entry := by
  have hcode : (Block.mk options.lowering (.bootstrap options.entry)).code = [] ∨
      ∃ sp, (Block.mk options.lowering (.bootstrap options.entry)).code =
        Code.bootstrap sp options.entry := by
    simp only [Block.code, Block.outcome, Lowering.bootstrap]
    cases options.lowering.machine.initialSp? with
    | none => exact .inl rfl
    | some sp => exact .inr ⟨sp, rfl⟩
  have hblock : ∀ annotate, ((Block.mk options.lowering (.bootstrap options.entry)).lines
      annotate).length ≤ 7 ∧
      ∀ line ∈ (Block.mk options.lowering (.bootstrap options.entry)).lines annotate,
        line = .comment ("bootstrap: " ++ options.entry) ∨
          ∃ sp, line ∈ Code.bootstrap sp options.entry := by
    intro annotate
    simp only [Block.lines, Block.remark?]
    rcases hcode with hcode | ⟨sp, hcode⟩ <;> rw [hcode] <;> cases annotate
    · simp
    · simp
    · exact ⟨show 6 ≤ 7 by decide, fun line hline => .inr ⟨sp, hline⟩⟩
    · refine ⟨Nat.le_refl 7, fun line hline => ?_⟩
      exact (List.mem_cons.1 hline).imp id fun hline => ⟨sp, hline⟩
  cases hbootstrap : options.bootstrap.enabled true with
  | false => simp [openingLines, openingBlocks, openingRequests, hbootstrap, Lowering.trace]
  | true =>
      simpa [openingLines, openingBlocks, openingRequests, hbootstrap, Lowering.trace]
        using hblock options.annotate

theorem Options.isQuiet_of_mem_openingLines {options : Options} {line : Line}
    (hentry : '\n' ∉ options.entry.toList) (hline : line ∈ options.openingLines) :
    line.IsQuiet := by
  rcases options.openingLines_cases.2 line hline with rfl | ⟨sp, hline⟩
  · refine ⟨?_, ?_⟩
    · simpa [Line.text] using hentry
    · simp [Line.text, codeOf, beforeComment]
  · simp only [Code.bootstrap, Code.jumpTo, List.mem_append, List.mem_cons, List.not_mem_nil,
      or_false] at hline
    rcases hline with (rfl | rfl | rfl | rfl) | rfl | rfl
    all_goals
      apply Line.isQuiet_code
      rintro name ⟨⟩
    · decide
    · exact hentry

/-! ## How many symbols code loads -/

theorem Code.two_mul_length_loads_append_le {xs ys : Code}
    (hx : 2 * (loads xs).length ≤ size xs) (hy : 2 * (loads ys).length ≤ size ys) :
    2 * (loads (xs ++ ys)).length ≤ size (xs ++ ys) := by
  rw [loads_append, List.length_append, size_append]
  omega

namespace Lowering

variable {lowering : Lowering} {command : Command} {code : Code}

/-- At most every other instruction of a command loads a symbol. -/
theorem Lowers.two_mul_length_loads_le (h : lowering.Lowers command code) :
    2 * (Code.loads code).length ≤ Code.size code := by
  cases h with
  | arith op =>
      cases op
      all_goals
        repeat' apply Code.two_mul_length_loads_append_le
        all_goals exact Nat.le_of_ble_eq_true rfl
  | @push segment index place hplace => cases place <;> exact Nat.le_of_ble_eq_true rfl
  | @pop segment index place hplace => cases place <;> exact Nat.le_of_ble_eq_true rfl
  | function name locals =>
      have hzeros : ∀ count : Nat, Code.size (Code.zeros count) = 6 * count := by
        intro count
        induction count with
        | zero => rfl
        | succ count ih =>
            rw [Code.zeros_succ, Code.size_append, ih, Nat.mul_succ, Nat.add_comm]
            rfl
      rw [Code.loads_function, List.length_replicate, Code.function, Code.size_append, hzeros]
      omega
  | label name | goto name | ifGoto name => exact Nat.le_of_ble_eq_true rfl
  | call name haccepts | ret =>
      repeat' apply Code.two_mul_length_loads_append_le
      all_goals exact Nat.le_of_ble_eq_true rfl

end Lowering

theorem Code.loads_eq (code : Code) :
    Code.loads code = (instructions code).filterMap Instruction.symbol? := by
  rw [Code.loads, instructions, List.filterMap_filterMap]
  congr 1
  funext line
  cases line with
  | comment text => rfl
  | label name => rfl
  | code instruction =>
      cases instruction with
      | compute dest comp jump => rfl
      | load address => cases address <;> rfl

namespace Block

theorem two_mul_length_loads_lines_le (block : Block) (annotate : Bool) :
    2 * (Code.loads (block.lines annotate)).length ≤ Code.size (block.lines annotate) := by
  have hcode : 2 * (Code.loads block.code).length ≤ Code.size block.code := by
    obtain ⟨lowering, request⟩ := block
    cases request with
    | unit name => exact Nat.le_refl 0
    | bootstrap entry =>
        simp only [code, outcome, Lowering.bootstrap]
        cases lowering.machine.initialSp? with
        | none => exact Nat.le_refl 0
        | some sp => exact Nat.le_of_ble_eq_true rfl
    | command command =>
        rcases lowers_or_refused lowering command with ⟨hlowers, -⟩ | hrefused
        · exact hlowers.two_mul_length_loads_le
        · rw [hrefused]
          exact Nat.le_refl 0
  unfold lines
  split
  · split <;> exact hcode
  · exact hcode

theorem two_mul_length_loads_flatMap_le (blocks : List Block) (annotate : Bool) :
    2 * (Code.loads (blocks.flatMap (lines annotate))).length ≤
      Code.size (blocks.flatMap (lines annotate)) := by
  induction blocks with
  | nil => exact Nat.le_refl 0
  | cons block rest ih =>
      rw [List.flatMap_cons]
      exact Code.two_mul_length_loads_append_le (block.two_mul_length_loads_lines_le annotate) ih

theorem labels_lines (block : Block) (annotate : Bool) :
    Code.labels (block.lines annotate) = Code.labels block.code := by
  unfold lines
  split
  · split <;> rfl
  · rfl

end Block

theorem Options.labels_lines (options : Options) (units : List SourceUnit) :
    Code.labels (options.lines units) = options.labels units := by
  rw [lines, labels, Code.labels, Code.labels, List.filterMap_flatMap, List.filterMap_flatMap]
  exact congrArg (List.flatMap · _) (funext fun block => block.labels_lines options.annotate)

theorem Options.label_mem_lines_iff {options : Options} {units : List SourceUnit}
    {name : String} :
    .label name ∈ options.lines units ↔ name ∈ options.labels units := by
  have hmem : ∀ code : Code, .label name ∈ code ↔ name ∈ Code.labels code := by
    intro code
    rw [Code.labels, List.mem_filterMap]
    constructor
    · exact fun h => ⟨_, h, rfl⟩
    · rintro ⟨line, hline, hname⟩
      cases line with
      | label other =>
          cases hname
          exact hline
      | comment text => cases hname
      | code instruction => cases hname
  rw [← labels_lines]
  exact hmem _

/-! ## Static variables in a program -/

namespace Static

variable {static : Static}

theorem toList_squeezed_name (static : Static) :
    (squeezed static.name).toList =
      squeeze static.unit.toList ++ '.' :: static.index.toNat.repr.toList := by
  have hindex : squeeze static.index.toNat.repr.toList = static.index.toNat.repr.toList :=
    squeeze_of_plain (all_isPlain_repr _)
  have hpoint : squeeze ".".toList = ".".toList := by
    decide
  rw [squeezed, String.toList_ofList, name, String.toList_append, String.toList_append,
    squeeze_append, squeeze_append, hpoint, hindex, List.append_assoc]
  rfl

/-- No predefined symbol is the name of a static variable, because none has a point. -/
theorem lookup_predefined_name (static : Static) :
    predefined.lookup (squeezed static.name) = none := by
  have hpoints : ∀ entry ∈ predefined, '.' ∉ entry.1.toList := by
    decide
  rw [List.lookup_eq_none_iff]
  intro entry hentry
  rw [bne_iff_ne]
  intro heq
  apply hpoints entry hentry
  rw [← heq, toList_squeezed_name]
  exact List.mem_append_right _ List.mem_cons_self

theorem mem_ofUnits_iff {units : List SourceUnit} :
    static ∈ ofUnits units ↔
      ∃ (position : Nat) (site : Site), (Site.ofUnits units)[position]? = some site ∧
        site.static? = some static := by
  rw [ofUnits, List.mem_filterMap]
  constructor
  · rintro ⟨site, hsite, hstatic⟩
    obtain ⟨position, hposition⟩ := List.mem_iff_getElem?.1 hsite
    exact ⟨position, site, hposition, hstatic⟩
  · rintro ⟨position, site, hposition, hstatic⟩
    exact ⟨site, List.mem_of_getElem? hposition, hstatic⟩

theorem exists_unit {units : List SourceUnit} (h : static ∈ ofUnits units) :
    ∃ unit ∈ units, static.unit = unit.name := by
  obtain ⟨site, hsite, hstatic⟩ := List.mem_filterMap.1 h
  obtain ⟨unit, hunit, hname, -⟩ := Site.mem_ofUnits hsite
  refine ⟨unit, hunit, ?_⟩
  rw [← hname]
  unfold Site.static? at hstatic
  split at hstatic
  · cases hstatic
    rfl
  · cases hstatic
    rfl
  · cases hstatic

end Static

/-- The code of a command with a static variable starts by loading the variable's address. -/
theorem Lowering.Lowers.code_of_static {lowering : Lowering} {site : Site} {code : Code}
    {static : Static} (h : lowering.Lowers site.command code) (hunit : lowering.unit = site.unit)
    (hstatic : site.static? = some static) : ∃ rest, code = Code.load static.name :: rest := by
  obtain ⟨unit, function, command⟩ := site
  have hname : ∀ index : UInt16, lowering.staticSymbol index = Static.name ⟨unit, index⟩ := by
    intro index
    rw [Lowering.staticSymbol, Static.name, hunit]
  cases h with
  | @push segment index place hplace =>
      cases segment with
      | statics =>
          cases hstatic
          cases hplace
          exact ⟨_, congrArg (fun name => Code.push (.symbol name)) (hname index)⟩
      | _ => cases hstatic
  | @pop segment index place hplace =>
      cases segment with
      | statics =>
          cases hstatic
          cases hplace
          exact ⟨_, congrArg (fun name => Code.pop lowering.machine.popScratch (.symbol name))
            (hname index)⟩
      | _ => cases hstatic
  | _ => cases hstatic

/-- Static variables have names of their own, blanks left out. -/
structure StaticsApart (options : Options) (units : List SourceUnit) : Prop where
  notLabel : ∀ static ∈ Static.ofUnits units, ∀ label ∈ options.labels units,
    squeezed label ≠ squeezed static.name
  distinct : ∀ x ∈ Static.ofUnits units, ∀ y ∈ Static.ofUnits units,
    squeezed x.name = squeezed y.name → x = y

/-! ## Units whose names are symbols -/

theorem squeezed_of_isSymbol {name : String} (h : Source.isSymbol name = true) :
    squeezed name = name := by
  rw [squeezed, squeeze_of_plain (Source.all_isPlain_of_isSymbol h), String.ofList_toList]

namespace Static

theorem squeezed_name_of_isSymbol {static : Static} (h : Source.isSymbol static.unit = true) :
    squeezed static.name = static.name := by
  rw [← String.toList_inj, toList_squeezed_name,
    squeeze_of_plain (Source.all_isPlain_of_isSymbol h)]
  simp [name]

theorem dollar_not_mem_name {static : Static} (h : Source.isSymbol static.unit = true) :
    '$' ∉ static.name.toList := by
  have hunit := Source.dollar_not_mem_of_isSymbol h
  have hindex := not_mem_repr (show '$'.isDigit = false by decide) static.index.toNat
  rw [name, String.toList_append, String.toList_append, List.mem_append, List.mem_append, not_or,
    not_or]
  exact ⟨⟨hunit, by decide⟩, hindex⟩

/-- The name of a static variable tells its unit and its index. -/
theorem name_inj {x y : Static} (h : x.name = y.name) : x = y := by
  have htext : x.unit.toList ++ '.' :: x.index.toNat.repr.toList =
      y.unit.toList ++ '.' :: y.index.toNat.repr.toList := by
    simpa [name] using congrArg String.toList h
  obtain ⟨hunit, hindex⟩ := append_cons_inj (not_mem_repr (by decide) _)
    (not_mem_repr (by decide) _) htext
  obtain ⟨unit, index⟩ := x
  obtain ⟨unit', index'⟩ := y
  rw [Static.mk.injEq]
  exact ⟨String.toList_inj.1 hunit, UInt16.toNat_inj.1 (eq_of_toList_repr_eq hindex)⟩

end Static

theorem Lowering.dollar_mem_of_mem_labelsOf {lowering : Lowering} {command : Command}
    {label : String} (h : label ∈ lowering.labelsOf command) :
    '$' ∈ label.toList ∨ ∃ locals, command = .function label locals := by
  have hgenerated : ∀ {purpose : LabelPurpose} {ahead : UInt32},
      '$' ∈ (lowering.freshLabel purpose ahead).toList :=
    fun {purpose ahead} => IsGenerated.dollar_mem ⟨purpose, (lowering.labels + ahead).toNat, rfl⟩
  cases command with
  | arith op =>
      cases op with
      | eq | gt | lt =>
          simp only [labelsOf, List.mem_cons, List.not_mem_nil, or_false] at h
          rcases h with rfl | rfl <;> exact .inl hgenerated
      | _ => cases h
  | label name =>
      rw [labelsOf, List.mem_singleton] at h
      subst h
      left
      rw [toList_scopedLabel]
      exact List.mem_append_right _ List.mem_cons_self
  | function name locals =>
      rw [labelsOf, List.mem_singleton] at h
      exact .inr ⟨locals, by rw [h]⟩
  | call name args =>
      rw [labelsOf, List.mem_singleton] at h
      subst h
      exact .inl hgenerated
  | push _ _ | pop _ _ | goto _ | ifGoto _ | ret => cases h

namespace Options

variable {options : Options} {units : List SourceUnit} {name : String}

theorem mem_labels_iff :
    name ∈ options.labels units ↔
      ∃ block ∈ options.unitBlocks units, name ∈ Code.labels block.code := by
  rw [labels, Code.labels, List.filterMap_flatMap, List.mem_flatMap]
  rfl

/-- A label without the mark of the lowering is a function. -/
theorem dollar_mem_of_mem_labels (h : name ∈ options.labels units) :
    '$' ∈ name.toList ∨ ∃ site ∈ Site.ofUnits units, site.declaresFunction name = true := by
  obtain ⟨block, hblock, hname⟩ := mem_labels_iff.1 h
  have hsite := fun site => @options.site_mem_ofUnits units block site hblock
  have hbootstrap := options.request_ne_bootstrap units hblock
  obtain ⟨lowering, request⟩ := block
  cases request with
  | unit other => cases hname
  | bootstrap entry => exact absurd rfl (hbootstrap entry)
  | command command =>
      rcases Block.lowers_or_refused lowering command with ⟨hlowers, -⟩ | hrefused
      · rw [hlowers.labels_eq] at hname
        refine (Lowering.dollar_mem_of_mem_labelsOf hname).imp id ?_
        rintro ⟨locals, hcommand⟩
        refine ⟨_, hsite _ rfl, ?_⟩
        simp [Site.declaresFunction, hcommand]
      · rw [hrefused] at hname
        cases hname

theorem mem_labels_of_declaresFunction {site : Site} (hsite : site ∈ Site.ofUnits units)
    (h : site.declaresFunction name = true) : name ∈ options.labels units := by
  rw [← Lowering.sites_trace_units options.lowering units] at hsite
  obtain ⟨block, hblock, hsite⟩ := List.mem_filterMap.1 hsite
  refine mem_labels_iff.2 ⟨block, hblock, ?_⟩
  obtain ⟨lowering, request⟩ := block
  cases request with
  | unit other => cases hsite
  | bootstrap entry => cases hsite
  | command command =>
      cases hsite
      obtain ⟨value, span⟩ := command
      cases value with
      | function other locals =>
          obtain rfl : other = name := by simpa [Site.declaresFunction] using h
          rw [Block.code_function, Code.labels_function]
          exact List.mem_cons_self
      | _ => cases h

end Options

theorem Site.isSymbol_of_declaresFunction {units : List SourceUnit} {site : Site} {name : String}
    (hsite : site ∈ Site.ofUnits units) (h : site.declaresFunction name = true) :
    Source.isSymbol name = true := by
  obtain ⟨unit, -, -, hcommand, -⟩ := Site.mem_ofUnits hsite
  apply SourceUnit.isSymbol_of_mem_commands hcommand
  unfold declaresFunction at h
  split at h
  · next other locals hfunction =>
      rw [hfunction, ← beq_iff_eq.1 h]
      exact List.mem_singleton.2 rfl
  · cases h

/--
If units have symbols for names, then all that can take away a static variable
is a function of its name.
-/
theorem staticsApart_iff {options : Options} {units : List SourceUnit}
    (hunits : ∀ unit ∈ units, Source.isSymbol unit.name = true) :
    StaticsApart options units ↔ ∀ static ∈ Static.ofUnits units,
      ∀ site ∈ Site.ofUnits units, site.declaresFunction static.name = false := by
  have hsymbol : ∀ {static : Static}, static ∈ Static.ofUnits units →
      Source.isSymbol static.unit = true := by
    intro static hstatic
    obtain ⟨unit, hunit, hname⟩ := Static.exists_unit hstatic
    rw [hname]
    exact hunits unit hunit
  constructor
  · intro hapart static hstatic site hsite
    rw [Bool.eq_false_iff]
    intro hdeclares
    exact hapart.notLabel static hstatic static.name
      (Options.mem_labels_of_declaresFunction hsite hdeclares) rfl
  · intro hfunctions
    refine ⟨?_, ?_⟩
    · intro static hstatic label hlabel heq
      rw [Static.squeezed_name_of_isSymbol (hsymbol hstatic)] at heq
      have hname : '$' ∉ (squeezed label).toList := by
        rw [heq]
        exact Static.dollar_not_mem_name (hsymbol hstatic)
      rcases Options.dollar_mem_of_mem_labels hlabel with hdollar | ⟨site, hsite, hdeclares⟩
      · apply hname
        rw [squeezed, String.toList_ofList, squeeze, List.mem_filter]
        exact ⟨hdollar, by decide⟩
      · have hlabel := squeezed_of_isSymbol (Site.isSymbol_of_declaresFunction hsite hdeclares)
        have hfunction := hfunctions static hstatic site hsite
        rw [← heq, hlabel, hdeclares] at hfunction
        cases hfunction
    · intro x hx y hy heq
      rw [Static.squeezed_name_of_isSymbol (hsymbol hx),
        Static.squeezed_name_of_isSymbol (hsymbol hy)] at heq
      exact Static.name_inj heq

/-! ## Privacy -/

/-- Every static variable of a program is a cell of its own. -/
structure StaticsPrivate (options : Options) (units : List SourceUnit) (program : Program) :
    Prop where
  /-- A push or pop starts by loading the variable's address. -/
  loaded : ∀ (position : Nat) (site : Site) (static : Static),
    (Site.ofUnits units)[position]? = some site → site.static? = some static →
      program.words[options.commandAddress units program position]? =
        some (program.resolve static.name)
  isVariable : ∀ static ∈ Static.ofUnits units,
    squeezed static.name ∈ program.symbols.variableNames
  base_le : ∀ static ∈ Static.ofUnits units,
    options.machine.variableBase ≤ program.resolve static.name
  eq_iff : ∀ x ∈ Static.ofUnits units, ∀ y ∈ Static.ofUnits units,
    program.resolve x.name = program.resolve y.name ↔ x = y

namespace WellNamed

variable {options : Options} {units : List SourceUnit} {program : Program}

theorem load_mem_lines (h : WellNamed options units) (hyields : options.Yields units program)
    {static : Static} (hstatic : static ∈ Static.ofUnits units) :
    Code.load static.name ∈ options.lines units := by
  obtain ⟨position, site, hsite, hstatic⟩ := Static.mem_ofUnits_iff.1 hstatic
  obtain ⟨lowering, code, hcode⟩ := h.exists_hasCode hyields hsite
  obtain ⟨rest, hrest⟩ := hcode.lowers.code_of_static hcode.unit hstatic
  apply hcode.emitted
  rw [hrest]
  exact List.mem_cons_self

theorem word_of_static (h : WellNamed options units) (hyields : options.Yields units program)
    {position : Nat} {site : Site} {static : Static}
    (hsite : (Site.ofUnits units)[position]? = some site) (hstatic : site.static? = some static) :
    program.words[options.commandAddress units program position]? =
      some (program.resolve static.name) := by
  obtain ⟨lowering, code, hcode⟩ := h.exists_hasCode hyields hsite
  obtain ⟨rest, hrest⟩ := hcode.lowers.code_of_static hcode.unit hstatic
  have hplaced := hcode.placed
  rw [hrest] at hplaced
  exact hplaced.1

/-- Variables are so few that their addresses do not wrap around. -/
theorem length_variableNames_le (hentry : '\n' ∉ options.entry.toList) {opening : Opening}
    {layout : Layout} (hopens : opening.Opens .hack (options.openingLines.map Line.text))
    (hassembled : Assembled .hack opening (options.lines units) layout program) :
    program.symbols.variableNames.length ≤ 32775 := by
  have hopening : opening.instructions.length ≤ 7 :=
    Nat.le_trans (hopens.of_isQuiet fun _ => options.isQuiet_of_mem_openingLines hentry).2
      options.openingLines_cases.1
  have hloads := Block.two_mul_length_loads_flatMap_le (options.unitBlocks units) options.annotate
  have hnames := hassembled.length_variableNames_le
  have hsize : layout.size ≤ 65535 :=
    Layout.size_le_of_addAll (Layout.size_le_of_addAll (Nat.zero_le _) hopens.firstPass)
      hassembled.firstPass
  rw [(Layout.extends_of_addAll hassembled.firstPass).size] at hsize
  rw [← Code.loads_eq] at hnames
  change 2 * (Code.loads (options.lines units)).length ≤ Code.size (options.lines units) at hloads
  omega

theorem isOneLine_unit (h : WellNamed options units) {static : Static}
    (hstatic : static ∈ Static.ofUnits units) : IsOneLine static.unit.toList := by
  obtain ⟨unit, hunit, hname⟩ := Static.exists_unit hstatic
  rw [hname]
  exact h.unitNames unit hunit

/-- A static variable is a variable of the program if and only if no label has its name. -/
theorem mem_variableNames_iff (h : WellNamed options units)
    (hentry : '\n' ∉ options.entry.toList) (hyields : options.Yields units program)
    {static : Static} (hstatic : static ∈ Static.ofUnits units) :
    squeezed static.name ∈ program.symbols.variableNames ↔
      ∀ label ∈ options.labels units, squeezed label ≠ squeezed static.name := by
  obtain ⟨text, opening, layout, -, hopens, hassembled⟩ := h.assembled hyields
  have hlabels : opening.layout.labels = [] :=
    (hopens.of_isQuiet fun _ => options.isQuiet_of_mem_openingLines hentry).1
  have hopening : opening.layout.address? (squeezed static.name) = none := by
    rw [Layout.address?, static.lookup_predefined_name, hlabels]
    rfl
  rw [hassembled.mem_variableNames_iff (h.load_mem_lines hyields hstatic),
    hassembled.address?_eq_none_iff]
  constructor
  · intro hnone label hlabel
    exact hnone.2 label (Options.label_mem_lines_iff.2 hlabel)
  · intro hnone
    exact ⟨hopening, fun label hlabel => hnone label (Options.label_mem_lines_iff.1 hlabel)⟩

end WellNamed

/-- The line that loads a static variable is read unless the name starts like a number. -/
theorem Static.exists_read_iff {static : Static} (h : IsOneLine static.unit.toList) :
    (∃ instruction, readInstruction 32767 (codeOf (Code.load static.name).text.toList) =
        .ok instruction) ↔
      (squeezed static.name).toList.head?.any Char.isDigit = false := by
  have hname : IsName static.name :=
    @IsName.staticSymbol { machine := .hack, unit := static.unit } h static.index
  have hlegible : (Instruction.load (.symbol static.name)).Legible 32767 :=
    ⟨hname.isOneLine, hname.notNumber⟩
  have hcode : codeOf (Code.load static.name).text.toList =
      (Instruction.load (.symbol static.name)).squeezed.text.toList :=
    @Line.codeOf_text 32767 (Code.load static.name) hlegible
  rw [hcode]
  simp only [readInstruction_squeezed_eq_ok_iff hlegible, Instruction.isRead,
    Bool.not_eq_true', squeezed, String.toList_ofList]
  exact exists_eq_right

/--
Static variables are private if and only if they have names of their own, which
the assembler accepts unless they start like numbers.
-/
theorem WellNamed.statics_private_iff {options : Options} {units : List SourceUnit}
    (h : WellNamed options units) (hentry : '\n' ∉ options.entry.toList) :
    (∀ static ∈ Static.ofUnits units,
      (∃ instruction, readInstruction 32767 (codeOf (Code.load static.name).text.toList) =
          .ok instruction) ↔
        (squeezed static.name).toList.head?.any Char.isDigit = false) ∧
      ∀ program, options.Yields units program →
        (StaticsPrivate options units program ↔ StaticsApart options units) := by
  refine ⟨fun static hstatic => Static.exists_read_iff (h.isOneLine_unit hstatic), ?_⟩
  intro program hyields
  obtain ⟨text, opening, layout, -, hopens, hassembled⟩ := h.assembled hyields
  have hlength := length_variableNames_le hentry hopens hassembled
  have hvariable : ∀ {static : Static}, static ∈ Static.ofUnits units →
      (squeezed static.name ∈ program.symbols.variableNames ↔
        ∀ label ∈ options.labels units, squeezed label ≠ squeezed static.name) :=
    h.mem_variableNames_iff hentry hyields
  constructor
  · intro hprivate
    refine ⟨fun static hstatic => (hvariable hstatic).1 (hprivate.isVariable static hstatic), ?_⟩
    intro x hx y hy heq
    exact (hprivate.eq_iff x hx y hy).1 ((hassembled.resolve_eq_iff (by omega)
      (hprivate.isVariable x hx) (hprivate.isVariable y hy)).2 heq)
  · intro hapart
    have hmem : ∀ {static : Static}, static ∈ Static.ofUnits units →
        squeezed static.name ∈ program.symbols.variableNames :=
      fun hstatic => (hvariable hstatic).2 (hapart.notLabel _ hstatic)
    refine ⟨fun _ _ _ => h.word_of_static hyields, fun _ => hmem, ?_, ?_⟩
    · intro static hstatic
      rw [h.machine]
      exact hassembled.base_le_resolve (Nat.le_trans (Nat.add_le_add_left hlength 16) (by decide))
        (hmem hstatic)
    · intro x hx y hy
      rw [hassembled.resolve_eq_iff (by omega) (hmem hx) (hmem hy)]
      exact ⟨hapart.distinct x hx y hy, fun heq => by rw [heq]⟩

/-! ## Two programs with static variables -/

namespace Sample

/-- Two units that use a static variable of the same index. -/
def separateParts : Parts :=
  [(⟨"Foo", render ["push constant 1", "pop static 0"]⟩,
      [⟨.push .constants 1, ⟨1, 0, 15⟩⟩, ⟨.pop .statics 0, ⟨2, 16, 28⟩⟩]),
    (⟨"Bar", render ["push static 0"]⟩, [⟨.push .statics 0, ⟨1, 0, 13⟩⟩])]

/-- A unit with a static variable and a function of the same name. -/
def takenParts : Parts :=
  [(⟨"Main", render ["push static 0", "function Main.0 0"]⟩,
      [⟨.push .statics 0, ⟨1, 0, 13⟩⟩, ⟨.function "Main.0" 0, ⟨2, 14, 31⟩⟩])]

def programOfParts (parts : Parts) : Program :=
  programOf .hack ((parts.blocks options).flatMap (Block.lines false))

theorem reads_separate : ∀ part ∈ separateParts, part.1.Reads part.2 := by
  decide +kernel

theorem reads_taken : ∀ part ∈ takenParts, part.1.Reads part.2 := by
  decide +kernel

theorem yields_separate : options.Yields separateParts.units (programOfParts separateParts) :=
  (Parts.built reads_separate rfl rfl rfl (by decide +kernel) rfl (by decide +kernel)
    (by decide +kernel) (by decide +kernel) (by decide +kernel) (by decide)).1.yields

theorem yields_taken : options.Yields takenParts.units (programOfParts takenParts) :=
  (Parts.built reads_taken rfl rfl rfl (by decide +kernel) rfl (by decide +kernel)
    (by decide +kernel) (by decide +kernel) (by decide +kernel) (by decide)).1.yields

theorem apart_separate : StaticsApart options separateParts.units := by
  apply (staticsApart_iff (by decide)).2
  rw [Static.ofUnits, Parts.ofUnits_units reads_separate]
  decide

theorem not_apart_taken : ¬ StaticsApart options takenParts.units := by
  rw [staticsApart_iff (by decide), Static.ofUnits, Parts.ofUnits_units reads_taken]
  decide

/-- Units share no static variables, but a function can take the place of one. -/
theorem statics_private_separate :
    WellNamed options separateParts.units ∧ WellNamed options takenParts.units ∧
      '\n' ∉ options.entry.toList ∧
      options.Yields separateParts.units (programOfParts separateParts) ∧
      StaticsPrivate options separateParts.units (programOfParts separateParts) ∧
      options.Yields takenParts.units (programOfParts takenParts) ∧
      ¬ StaticsPrivate options takenParts.units (programOfParts takenParts) := by
  have hseparate : WellNamed options separateParts.units := ⟨rfl, by decide⟩
  have htaken : WellNamed options takenParts.units := ⟨rfl, by decide⟩
  have hentry : '\n' ∉ options.entry.toList := by
    decide
  refine ⟨hseparate, htaken, hentry, yields_separate, ?_, yields_taken, ?_⟩
  · exact ((hseparate.statics_private_iff hentry).2 _ yields_separate).2 apart_separate
  · intro hprivate
    exact not_apart_taken (((htaken.statics_private_iff hentry).2 _ yields_taken).1 hprivate)

end Sample

end StackVm
