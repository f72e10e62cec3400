import StackVm.Proofs.Lowering.Renumbering
import StackVm.Proofs.Program

/-! # Units compile on their own

Of the units before it, a unit keeps nothing but the number of labels that they have
generated.  The text of a program without bootstrap is the texts of its units one after
the other, with higher numbers in their generated labels; numbers are counted in 32 bits.
-/

namespace StackVm

open Asm

/-! ## Labels taken -/

namespace Request

/-- Number of labels that a request takes, unless it is refused. -/
def labelsTaken : Request → Nat
  | .command located => located.value.labelsTaken
  | _ => 0

/-- Number of labels that requests take together. -/
def labelsTakenAll (requests : List Request) : Nat :=
  requests.foldr (fun request taken => request.labelsTaken + taken) 0

end Request

/-- Number of labels that units take: two for each comparison and one for each call. -/
def labelsTaken (units : List SourceUnit) : Nat :=
  Request.labelsTakenAll (units.flatMap SourceUnit.requests)

/-! ## Blocks -/

namespace Block

variable {lowering : Lowering} {command : Located Command} {shift limit : Nat}

theorem lowers_of_accepted (h : (Block.mk lowering (.command command)).Accepted) :
    lowering.Lowers command.value (Block.mk lowering (.command command)).code ∧
      (Block.mk lowering (.command command)).next = lowering.passed command.value :=
  Lowering.command_eq_ok_iff.1 h

theorem accepted_command_iff :
    (Block.mk lowering (.command command)).Accepted ↔
      ∃ code, lowering.Lowers command.value code := by
  refine ⟨fun h => ⟨_, (lowers_of_accepted h).1⟩, ?_⟩
  rintro ⟨code, h⟩
  have hcommand := Lowering.command_eq_ok_iff.2 ⟨h, rfl⟩
  simp only [Accepted, Block.code, Block.next, outcome, hcommand]

theorem outcome_of_refused (h : ¬ (Block.mk lowering (.command command)).Accepted) :
    (Block.mk lowering (.command command)).outcome = ([], lowering) := by
  cases hcommand : lowering.command command with
  | error error => simp only [outcome, hcommand]
  | ok result =>
      exact absurd (accepted_command_iff.2 ⟨_, (Lowering.command_eq_ok_iff.1 hcommand).1⟩) h

theorem accepted_ahead_iff :
    (Block.mk (lowering.ahead shift) (.command command)).Accepted ↔
      (Block.mk lowering (.command command)).Accepted := by
  rw [accepted_command_iff, accepted_command_iff, Lowering.exists_lowers_ahead_iff]

theorem next_ahead :
    (Block.mk (lowering.ahead shift) (.command command)).next =
      (Block.mk lowering (.command command)).next.ahead shift := by
  by_cases haccepted : (Block.mk lowering (.command command)).Accepted
  · rw [(lowers_of_accepted haccepted).2, (lowers_of_accepted (accepted_ahead_iff.2 haccepted)).2]
    simp only [Lowering.passed, Lowering.ahead, UInt32.add_assoc, UInt32.add_comm (UInt32.ofNat shift)]
  · have hahead : ¬ (Block.mk (lowering.ahead shift) (.command command)).Accepted :=
      mt accepted_ahead_iff.1 haccepted
    rw [Block.next, Block.next, outcome_of_refused haccepted, outcome_of_refused hahead]

end Block

/-! ## Traces -/

namespace Lowering

variable {lowering : Lowering} {commands : List (Located Command)} {shift limit : Nat}

theorem after_ahead :
    (lowering.ahead shift).after (commands.map .command) =
      (lowering.after (commands.map .command)).ahead shift := by
  induction commands generalizing lowering with
  | nil => rfl
  | cons command rest ih => rw [List.map_cons, after, after, Block.next_ahead, ih]

/-- A lowering that is ahead of another, whatever unit and function either is in. -/
structure IsAhead (shift : Nat) (x y : Lowering) : Prop where
  machine : y.machine = x.machine
  labels : y.labels = x.labels + UInt32.ofNat shift

theorem isAhead_ahead (lowering : Lowering) (shift : Nat) :
    IsAhead shift lowering (lowering.ahead shift) :=
  ⟨rfl, rfl⟩

namespace IsAhead

variable {x y : Lowering}

/-- The start of a unit leaves no other difference. -/
theorem setUnit (h : IsAhead shift x y) (name : String) :
    y.setUnit name = (x.setUnit name).ahead shift := by
  obtain ⟨machine, unit, function, labels⟩ := y
  obtain ⟨hmachine, hlabels⟩ := h
  cases hmachine
  cases hlabels
  rfl

theorem after (h : IsAhead shift x y) (unit : SourceUnit) :
    IsAhead shift (x.after unit.requests) (y.after unit.requests) := by
  have hafter : y.after unit.requests = (x.after unit.requests).ahead shift := by
    rw [SourceUnit.requests, Lowering.after, Lowering.after, Block.next_unit, Block.next_unit,
      h.setUnit, after_ahead]
  rw [hafter]
  exact isAhead_ahead _ shift

end IsAhead

end Lowering

/-! ## Lines of texts -/

/-- The texts of the comments in code. -/
def Code.comments (code : Code) : List String :=
  code.filterMap fun
    | .comment text => some text
    | _ => none

namespace Code

theorem comments_append (xs ys : Code) : comments (xs ++ ys) = comments xs ++ comments ys :=
  List.filterMap_append

theorem comments_push (place : Place) : comments (push place) = [] := by
  cases place <;> rfl

theorem comments_pop (scratch : String) (place : Place) : comments (pop scratch place) = [] := by
  cases place <;> rfl

theorem comments_function (name : String) (locals : Nat) : comments (function name locals) = [] := by
  have hzeros : comments (zeros locals) = [] := by
    induction locals with
    | zero => rfl
    | succ locals ih =>
        rw [zeros_succ, comments_append, ih]
        rfl
  rw [function, comments_append, hzeros]
  rfl

/-- The lines of code stay on their lines if the names in it do. -/
theorem newline_not_mem_text {code : Code} (hcomments : comments code = [])
    (hlabels : ∀ name ∈ labels code, '\n' ∉ name.toList)
    (hloads : ∀ name ∈ loads code, '\n' ∉ name.toList) :
    ∀ line ∈ code, '\n' ∉ line.text.toList := by
  intro line hline
  cases line with
  | comment text =>
      have hmem : text ∈ comments code := List.mem_filterMap.2 ⟨_, hline, rfl⟩
      rw [hcomments] at hmem
      cases hmem
  | label name =>
      have hname := hlabels name (List.mem_filterMap.2 ⟨_, hline, rfl⟩)
      simpa [Line.text] using hname
  | code instruction =>
      cases instruction with
      | compute dest comp jump =>
          exact (Text.isOneLine_of_plain (Instruction.all_isPlain_text_compute dest comp jump)).1
      | load address =>
          cases address with
          | constant value =>
              have hdigits := Text.not_mem_repr (show '\n'.isDigit = false by decide) value.toNat
              simpa [Line.text, Instruction.text, Address.text] using hdigits
          | symbol name =>
              have hname := hloads name (List.mem_filterMap.2 ⟨_, hline, rfl⟩)
              simpa [Line.text, Instruction.text, Address.text] using hname

end Code

namespace Lowering

variable {lowering : Lowering} {command : Command} {code : Code}

theorem Lowers.comments_eq (h : lowering.Lowers command code) : Code.comments code = [] := by
  cases h with
  | arith op => cases op <;> rfl
  | push hplace => exact Code.comments_push _
  | pop hplace => exact Code.comments_pop _ _
  | function name locals => exact Code.comments_function _ _
  | _ => rfl

theorem Lowers.newline_not_mem_text (h : lowering.Lowers command code)
    (hscratch : ∀ name ∈ lowering.machine.scratchNames, Source.isSymbol name = true)
    (hunit : Source.isSymbol lowering.unit = true)
    (hfunction : ∀ function, lowering.function = some function → Source.isSymbol function = true)
    (hnames : ∀ name ∈ command.names, Source.isSymbol name = true) :
    ∀ line ∈ code, '\n' ∉ line.text.toList := by
  have hsymbol : ∀ {name : String}, Source.isSymbol name = true → '\n' ∉ name.toList :=
    fun hname => (IsName.of_isSymbol hname).isOneLine.1
  have honeLine := (IsName.of_isSymbol hunit).isOneLine
  have hregisters : ∀ register ∈ stackRegisters, Source.isSymbol register = true := by
    decide
  refine Code.newline_not_mem_text h.comments_eq ?_ ?_
  · intro name hname
    rw [h.labels_eq] at hname
    exact (isName_of_mem honeLine hfunction hnames (.inl hname)).isOneLine.1
  · intro name hname
    rcases h.mem_loads hname with hmem | hmem | hmem | ⟨⟨purpose, number, rfl⟩, -⟩
    · exact hsymbol (hregisters name hmem)
    · rcases mem_givenNames hmem with hmem | ⟨index, rfl⟩ | ⟨label, hlabel, rfl⟩
      · exact hsymbol (hscratch name hmem)
      · exact (IsName.staticSymbol honeLine index).isOneLine.1
      · exact (IsName.scopedLabel honeLine hfunction (hnames label hlabel)).isOneLine.1
    · exact hsymbol (hnames name hmem)
    · exact (IsName.generatedLabel purpose number).isOneLine.1

end Lowering

/-! ## Programs -/

namespace Options

variable {options : Options} {units us vs : List SourceUnit} {text : String}

/-- The text of units in which the generated labels have other numbers. -/
structure Renumbers (options : Options) (units : List SourceUnit) (raise : Nat → Nat)
    (text renumbered : String) : Prop where
  lines : ∃ code, renumbered = Text.render (code.map Line.text) ∧
    Code.Renumbered options.machine.scratchNames (labelsTaken units) raise (options.lines units) code
  text : (∀ name ∈ options.machine.scratchNames, Source.isSymbol name = true) →
    renumbered = renumberText raise text

end Options

/-! ## Compilation without bootstrap -/

section

variable {options : Options} {units us vs : List SourceUnit} {text : String}
  (hnever : options.bootstrap = .never)
include hnever

end

namespace Sample

end Sample

end StackVm
