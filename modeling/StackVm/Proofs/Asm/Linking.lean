import StackVm.Proofs.Asm.Allocation
import StackVm.Proofs.Asm.Reading

/-! # From lines to an assembled program

The first pass finds each label at the number of instructions before it, the
second reads every instruction, and so the words of the program are those of the
lines, in order.
-/

namespace StackVm

namespace Asm

open Text

/-- The instructions of a code, in order. -/
def instructions (code : Code) : List Instruction :=
  code.filterMap fun
    | .code instruction => some instruction
    | _ => none

@[simp] theorem instructions_comment (text : String) (code : Code) :
    instructions (.comment text :: code) = instructions code := rfl

@[simp] theorem instructions_label (name : String) (code : Code) :
    instructions (.label name :: code) = instructions code := rfl

@[simp] theorem instructions_code (instruction : Instruction) (code : Code) :
    instructions (.code instruction :: code) = instruction :: instructions code := rfl

@[simp] theorem length_instructions (code : Code) :
    (instructions code).length = Code.size code := by
  induction code with
  | nil => rfl
  | cons line rest ih => cases line <;> simp [ih]

/-! ## Labels and instructions -/

def labelCode (name : String) : List Char :=
  '(' :: (name.toList ++ [')'])

theorem head?_labelCode (name : String) : (labelCode name).head? = some '(' := rfl

theorem labelName?_eq_some_iff {code : List Char} {name : String} :
    labelName? code = some name ↔ code = labelCode name := by
  constructor
  · intro h
    unfold labelName? at h
    split at h
    · next rest =>
        split at h
        · next hlast =>
            cases h
            obtain ⟨cs, rfl⟩ := List.getLast?_eq_some_iff.1 hlast
            rw [labelCode, String.toList_ofList, List.dropLast_concat]
        · cases h
    · cases h
  · rintro rfl
    simp [labelCode, labelName?]

theorem Line.codeText_label (name : String) :
    (Line.label name).codeText = labelCode (Asm.squeezed name) := by
  simp [codeText, Line.squeezed, Line.text, labelCode]

theorem isLabel_label (number : Nat) (name : String) :
    CodeLine.isLabel ⟨number, (Line.label name).codeText⟩ = true := by
  rw [CodeLine.isLabel, Line.codeText_label, head?_labelCode]
  rfl

theorem Instruction.head?_text_ne (instruction : Instruction) :
    instruction.text.toList.head? ≠ some '(' := by
  cases instruction with
  | load address => simp [Instruction.text]
  | compute dest comp jump =>
      have hmem : '(' ∉ (Instruction.compute dest comp jump).text.toList :=
        Instruction.not_mem_text_compute (by decide) (by decide) (by decide) dest comp jump
      exact fun h => hmem (List.mem_of_head? h)

theorem isLabel_code (number : Nat) (instruction : Instruction) :
    CodeLine.isLabel ⟨number, (Line.code instruction).codeText⟩ = false := by
  have h := instruction.squeezed.head?_text_ne
  simpa [CodeLine.isLabel, Line.codeText, Line.squeezed, Line.text] using h

theorem mapM_eq_ok_iff {ε α β : Type} {f : α → Except ε β} {xs : List α} {ys : List β} :
    xs.mapM f = .ok ys ↔ xs.map f = ys.map .ok := by
  induction xs generalizing ys with
  | nil =>
      rw [List.mapM_nil, List.map_nil]
      cases ys with
      | nil => exact ⟨fun _ => rfl, fun _ => rfl⟩
      | cons y ys => exact ⟨nofun, nofun⟩
  | cons x xs ih =>
      rw [List.mapM_cons]
      simp only [bind_eq_ok_iff, ih]
      cases ys with
      | nil =>
          constructor
          · rintro ⟨y, -, others, -, ⟨⟩⟩
          · exact nofun
      | cons y ys =>
          rw [List.map_cons, List.map_cons, List.cons.injEq]
          constructor
          · rintro ⟨y', hy, others, hothers, ⟨⟩⟩
            exact ⟨hy, hothers⟩
          · rintro ⟨hy, hys⟩
            exact ⟨y, hy, ys, hys, rfl⟩

theorem length_of_mapM_eq_ok {ε α β : Type} {f : α → Except ε β} {xs : List α} {ys : List β}
    (h : xs.mapM f = .ok ys) : ys.length = xs.length := by
  simpa using (congrArg List.length (mapM_eq_ok_iff.1 h)).symm

/-- The second pass reads the instructions of the lines, unless it takes a name for a number. -/
theorem CodeLine.read_eq_ok_iff {limit : UInt16} {line : CodeLine} {instruction : Instruction} :
    line.read limit = .ok instruction ↔ readInstruction limit line.code = .ok instruction := by
  rw [read]
  cases readInstruction limit line.code with
  | ok value =>
      change Except.ok value = _ ↔ _
      rw [Except.ok.injEq, Except.ok.injEq]
  | error message => constructor <;> intro h <;> cases h

theorem mapM_read_codeLinesFrom_eq_ok_iff {limit : UInt16} {lines : List Line} {number : Nat}
    {result : List Instruction} (h : ∀ line ∈ lines, line.Legible limit) :
    ((codeLinesFrom number lines).filter fun line => !line.isLabel).mapM (CodeLine.read limit) =
        .ok result ↔
      (instructions lines).all Instruction.isRead = true ∧
        result = (instructions lines).map Instruction.squeezed := by
  induction lines generalizing number result with
  | nil =>
      simp only [codeLinesFrom, List.filter_nil, List.mapM_nil, pure, Except.pure,
        Except.ok.injEq, instructions, List.filterMap_nil, List.all_nil, List.map_nil, true_and]
      exact eq_comm
  | cons line rest ih =>
      have hrest := fun result => @ih (number + 1) result
        fun other hother => h other (List.mem_cons_of_mem _ hother)
      cases line with
      | comment text => exact hrest result
      | label name =>
          simp only [codeLinesFrom, List.filter_cons, isLabel_label]
          exact hrest result
      | code instruction =>
          have hread : ∀ other, CodeLine.read limit ⟨number, (Line.code instruction).codeText⟩ =
              .ok other ↔ instruction.isRead = true ∧ other = instruction.squeezed := by
            intro other
            rw [← readInstruction_squeezed_eq_ok_iff (h _ List.mem_cons_self)]
            exact CodeLine.read_eq_ok_iff
          simp only [codeLinesFrom, List.filter_cons, isLabel_code, Bool.not_false, if_true,
            List.mapM_cons, bind_eq_ok_iff, hread, hrest, instructions_code, List.all_cons,
            List.map_cons, Bool.and_eq_true]
          constructor
          · rintro ⟨first, ⟨hfirst, rfl⟩, others, ⟨hothers, rfl⟩, hresult⟩
            cases hresult
            exact ⟨⟨hfirst, hothers⟩, rfl⟩
          · rintro ⟨⟨hfirst, hothers⟩, rfl⟩
            exact ⟨_, ⟨hfirst, rfl⟩, _, ⟨hothers, rfl⟩, rfl⟩

/-! ## The first pass -/

/-- The labels of a code that starts at an address name their places. -/
def LabelsAt (address? : String → Option UInt16) (address : Nat) : Code → Prop
  | [] => True
  | .comment _ :: rest => LabelsAt address? address rest
  | .label name :: rest =>
      address? name = some (UInt16.ofNat address) ∧ LabelsAt address? address rest
  | .code _ :: rest => LabelsAt address? (address + 1) rest

namespace Layout

variable {layout next final : Layout}

/-- A line of code is a new label or, while there is room, an instruction. -/
theorem add_eq_ok_iff {line : CodeLine} :
    layout.add line = .ok next ↔
      (∃ name, line.code = labelCode name ∧ layout.address? name = none ∧
        next = { layout with
          labels := (name, UInt16.ofNat layout.size) :: layout.labels }) ∨
      line.code.head? ≠ some '(' ∧ layout.size < maxWord ∧
        next = { layout with size := layout.size + 1 } := by
  unfold add CodeLine.isLabel
  by_cases hlabel : line.code.head? = some '('
  · rw [if_pos (by simpa using hlabel)]
    cases hname : labelName? line.code with
    | none =>
        simp only [reduceCtorEq, hlabel, ne_eq, not_true, false_and, or_false, false_iff,
          not_exists, not_and]
        intro name hcode
        rw [labelName?_eq_some_iff.2 hcode] at hname
        cases hname
    | some name =>
        have hcode := labelName?_eq_some_iff.1 hname
        have hinj : ∀ other, line.code = labelCode other ↔ other = name := by
          intro other
          rw [← labelName?_eq_some_iff, hname, Option.some.injEq, eq_comm]
        simp only [hinj, hlabel, ne_eq, not_true, false_and, or_false, exists_eq_left]
        cases haddress : layout.address? name with
        | none => simp [eq_comm]
        | some address => simp
  · rw [if_neg (by simpa using hlabel)]
    have hne : ∀ name, line.code ≠ labelCode name := by
      intro name hcode
      rw [hcode] at hlabel
      exact hlabel (head?_labelCode name)
    simp only [hne, false_and, exists_false, false_or, hlabel, ne_eq, not_false_eq_true, true_and]
    by_cases hroom : layout.size < maxWord
    · simp [hroom, eq_comm]
    · simp [hroom]

theorem add_label {number : Nat} {name : String}
    (h : layout.add ⟨number, (Line.label name).codeText⟩ = .ok next) :
    layout.address? (squeezed name) = none ∧
      next = { layout with
        labels := (squeezed name, UInt16.ofNat layout.size) :: layout.labels } := by
  rcases add_eq_ok_iff.1 h with ⟨other, hcode, hnone, rfl⟩ | ⟨hhead, -⟩
  · rw [Line.codeText_label, ← labelName?_eq_some_iff, labelName?_eq_some_iff.2 rfl,
      Option.some.injEq] at hcode
    subst hcode
    exact ⟨hnone, rfl⟩
  · rw [Line.codeText_label] at hhead
    exact absurd (head?_labelCode _) hhead

theorem add_code {number : Nat} {instruction : Instruction}
    (h : layout.add ⟨number, (Line.code instruction).codeText⟩ = .ok next) :
    next = { layout with size := layout.size + 1 } := by
  rcases add_eq_ok_iff.1 h with ⟨name, hcode, -⟩ | ⟨-, -, rfl⟩
  · have hhead := isLabel_code number instruction
    rw [CodeLine.isLabel, hcode, head?_labelCode] at hhead
    cases hhead
  · rfl

/-- The symbols of a layout with one more label. -/
theorem address?_cons (name other : String) (value : UInt16) :
    Layout.address? { layout with labels := (name, value) :: layout.labels } other =
      (predefined.lookup other <|> if other = name then some value
        else layout.labels.lookup other) := by
  by_cases h : other = name
  · subst h
    simp [address?]
  · have hbeq : (other == name) = false := by simpa using h
    simp [address?, List.lookup_cons, hbeq, h]

/-- A new label gets its address and hides no symbol, because it is not yet one. -/
theorem address?_cons_of_none {name other : String} {value : UInt16}
    (hnone : layout.address? name = none) :
    Layout.address? { layout with labels := (name, value) :: layout.labels } other =
      if other = name then some value else layout.address? other := by
  rw [address?_cons]
  by_cases h : other = name
  · subst h
    cases hpredefined : predefined.lookup other with
    | some address => simp [address?, hpredefined] at hnone
    | none => simp
  · simp [h, address?]

theorem addAll_cons_eq_ok_iff {line : CodeLine} {rest : List CodeLine} :
    layout.addAll (line :: rest) = .ok final ↔
      ∃ next, layout.add line = .ok next ∧ Layout.addAll next rest = .ok final := by
  rw [addAll]
  cases layout.add line <;> simp

theorem addAll_append_eq_ok_iff {xs ys : List CodeLine} :
    layout.addAll (xs ++ ys) = .ok final ↔
      ∃ middle, layout.addAll xs = .ok middle ∧ Layout.addAll middle ys = .ok final := by
  induction xs generalizing layout with
  | nil => simp [addAll]
  | cons line xs ih =>
      rw [List.cons_append, addAll, addAll]
      cases layout.add line with
      | error fault => simp
      | ok next => exact ih

/-- What every line keeps, the first pass keeps. -/
theorem addAll_keeps {p : Layout → Prop} {lines : List CodeLine}
    (hstep : ∀ line ∈ lines, ∀ {layout next : Layout}, p layout → layout.add line = .ok next →
      p next) (hstart : p layout) (h : layout.addAll lines = .ok final) : p final := by
  induction lines generalizing layout with
  | nil =>
      cases h
      exact hstart
  | cons line rest ih =>
      obtain ⟨next, hadd, hrest⟩ := addAll_cons_eq_ok_iff.1 h
      exact ih (fun other hother => hstep other (List.mem_cons_of_mem _ hother))
        (hstep line List.mem_cons_self hstart hadd) hrest

theorem size_of_addAll {lines : List CodeLine} (h : layout.addAll lines = .ok final) :
    final.size = layout.size + (lines.filter fun line => !line.isLabel).length := by
  induction lines generalizing layout with
  | nil =>
      cases h
      rfl
  | cons line rest ih =>
      obtain ⟨next, hadd, hrest⟩ := addAll_cons_eq_ok_iff.1 h
      rw [ih hrest]
      rcases add_eq_ok_iff.1 hadd with ⟨name, hcode, -, rfl⟩ | ⟨hcode, -, rfl⟩
      · simp [CodeLine.isLabel, hcode, head?_labelCode]
      · have hlabel : line.isLabel = false := beq_eq_false_iff_ne.2 hcode
        simp only [List.filter_cons, hlabel, Bool.not_false, if_true, List.length_cons]
        omega

/-- The first pass takes no address back. -/
theorem address?_of_addAll {lines : List CodeLine} (h : layout.addAll lines = .ok final)
    {name : String} {address : UInt16} (haddress : layout.address? name = some address) :
    final.address? name = some address := by
  refine addAll_keeps (p := fun other => other.address? name = some address) ?_ haddress h
  intro line _ other next hother hadd
  rcases add_eq_ok_iff.1 hadd with ⟨label, -, hnone, rfl⟩ | ⟨-, -, rfl⟩
  · rw [address?_cons_of_none hnone, if_neg, hother]
    rintro rfl
    rw [hnone] at hother
    cases hother
  · exact hother

/-- What the first pass over some lines adds to a layout. -/
structure Extends (layout : Layout) (lines : Code) (final : Layout) : Prop where
  size : final.size = layout.size + Code.size lines
  kept : ∀ name address, layout.address? name = some address →
    final.address? name = some address
  labels : LabelsAt (fun name => final.address? (squeezed name)) layout.size lines
  known : ∀ name, (final.address? name).isSome →
    (layout.address? name).isSome ∨ ∃ label, .label label ∈ lines ∧ squeezed label = name

theorem extends_of_addAll {lines : List Line} {number : Nat}
    (h : layout.addAll (codeLinesFrom number lines) = .ok final) :
    layout.Extends lines final := by
  induction lines generalizing layout number with
  | nil =>
      cases h
      exact ⟨rfl, fun _ _ h => h, trivial, fun _ h => .inl h⟩
  | cons line rest ih =>
      cases line with
      | comment text =>
          obtain ⟨hsize, hkept, hlabels, hknown⟩ := ih h
          refine ⟨hsize, hkept, hlabels, fun other hother => (hknown other hother).imp id ?_⟩
          exact fun ⟨label, hlabel, heq⟩ => ⟨label, List.mem_cons_of_mem _ hlabel, heq⟩
      | label name =>
          obtain ⟨next, hadd, hrest⟩ := addAll_cons_eq_ok_iff.1 h
          obtain ⟨hnone, rfl⟩ := add_label hadd
          obtain ⟨hsize, hkept, hlabels, hknown⟩ := ih hrest
          refine ⟨hsize, ?_, ⟨?_, hlabels⟩, ?_⟩
          · intro other address hother
            apply hkept
            have hne : other ≠ squeezed name := by
              rintro rfl
              rw [hnone] at hother
              cases hother
            rw [address?_cons_of_none hnone, if_neg hne, hother]
          · apply hkept
            rw [address?_cons_of_none hnone, if_pos rfl]
          · intro other hother
            rcases hknown other hother with hlayout | ⟨label, hlabel, heq⟩
            · rw [address?_cons_of_none hnone] at hlayout
              by_cases heq : other = squeezed name
              · exact .inr ⟨name, List.mem_cons_self, heq.symm⟩
              · rw [if_neg heq] at hlayout
                exact .inl hlayout
            · exact .inr ⟨label, List.mem_cons_of_mem _ hlabel, heq⟩
      | code instruction =>
          obtain ⟨next, hadd, hrest⟩ := addAll_cons_eq_ok_iff.1 h
          obtain rfl := add_code hadd
          obtain ⟨hsize, hkept, hlabels, hknown⟩ := ih hrest
          refine ⟨?_, hkept, hlabels, fun other hother => (hknown other hother).imp id ?_⟩
          · simp only [Code.size_code] at hsize ⊢
            omega
          · exact fun ⟨label, hlabel, heq⟩ => ⟨label, List.mem_cons_of_mem _ hlabel, heq⟩

end Layout

/-! ## The program -/

theorem Symbols.address?_of_layout {layout : Layout} {allocated : List (String × UInt16)}
    {nextVariable address : UInt16} {name : String} (h : layout.address? name = some address) :
    (Symbols.mk layout.labels allocated nextVariable).address? name = some address := by
  simp only [Layout.address?] at h
  simp only [Symbols.address?]
  cases hpredefined : predefined.lookup name with
  | some value => simpa [hpredefined] using h
  | none =>
      have hlabel : layout.labels.lookup name = some address := by
        rwa [hpredefined] at h
      rw [hlabel]
      rfl

theorem LabelsAt.mono {address? other? : String → Option UInt16} {address : Nat} {code : Code}
    (hmono : ∀ name value, address? name = some value → other? name = some value)
    (h : LabelsAt address? address code) : LabelsAt other? address code := by
  induction code generalizing address with
  | nil => trivial
  | cons line rest ih =>
      cases line with
      | comment text => exact ih h
      | label name => exact ⟨hmono _ _ h.1, ih h.2⟩
      | code instruction => exact ih h

theorem Instruction.word_squeezed (instruction : Instruction) (resolve : String → UInt16) :
    instruction.squeezed.word resolve =
      instruction.word fun name => resolve (Asm.squeezed name) := by
  cases instruction with
  | compute dest comp jump => rfl
  | load address => cases address <;> rfl

theorem placed_of_labelsAt {program : Program} {code : Code} (before after : List UInt16)
    (hlabels : LabelsAt program.address? before.length code)
    (hwords : program.words =
      before ++ (instructions code).map (Instruction.word program.resolve) ++ after) :
    Placed program before.length code := by
  induction code generalizing before with
  | nil => trivial
  | cons line rest ih =>
      cases line with
      | comment text => exact ih before hlabels hwords
      | label name => exact ⟨hlabels.1, ih before hlabels.2 hwords⟩
      | code instruction =>
          have hlength : before.length + 1 =
              (before ++ [instruction.word program.resolve]).length := by
            simp
          refine ⟨by simp [hwords], ?_⟩
          rw [hlength]
          apply ih
          · rw [← hlength]
            exact hlabels
          · simp [hwords]

/-- In a linked program, lines whose labels name their places stand after what is before them. -/
theorem placed_link (machine : Machine) {layout : Layout} {lines : Code}
    (before after : List Instruction)
    (h : LabelsAt (fun name => layout.address? (squeezed name)) before.length lines) :
    Placed (link machine layout
      (before ++ (instructions lines).map Instruction.squeezed ++ after)) before.length lines := by
  generalize hprogram : link machine layout _ = program
  have hlabels : LabelsAt program.address? before.length lines := by
    rw [← hprogram]
    exact h.mono fun _ _ => Symbols.address?_of_layout
  have hwords : program.words =
      before.map (Instruction.word fun name => (program.symbols.address? name).getD 0) ++
        (instructions lines).map (Instruction.word program.resolve) ++
        after.map (Instruction.word fun name => (program.symbols.address? name).getD 0) := by
    rw [← hprogram]
    simp only [link, List.map_append, List.map_map]
    congr 2
    exact List.map_congr_left fun instruction _ => instruction.word_squeezed _
  have hplaced := placed_of_labelsAt _ _ (by rw [List.length_map]; exact hlabels) hwords
  rwa [List.length_map] at hplaced

/-- What stands before some lines: its labels, its instructions and its number of lines. -/
structure Opening where
  layout : Layout := {}
  instructions : List Instruction := []
  lines : Nat := 0

/-- The texts of an opening assemble. -/
structure Opening.Opens (opening : Opening) (machine : Machine) (texts : List String) : Prop where
  firstPass : Layout.addAll {} (codeLines (render texts)) = .ok opening.layout
  read : ((codeLines (render texts)).filter fun line => !line.isLabel).mapM
    (CodeLine.read machine.maxConstant) = .ok opening.instructions
  lines_eq : opening.lines = (Text.lines (render texts).toList).length

theorem Opening.opens_nil (machine : Machine) : Opening.Opens {} machine [] :=
  ⟨rfl, rfl, rfl⟩

/-- The program of some lines after an opening, and the layout behind it. -/
structure Assembled (machine : Machine) (opening : Opening) (lines : Code) (layout : Layout)
    (program : Program) : Prop where
  isRead : (instructions lines).all Instruction.isRead = true
  firstPass : opening.layout.addAll (codeLinesFrom (1 + opening.lines) lines) = .ok layout
  linked : program = link machine layout
    (opening.instructions ++ (instructions lines).map Instruction.squeezed)

/-- Lines assemble unless a label is defined twice or a name is taken for a number. -/
theorem assemble_render_eq_ok_iff {machine : Machine} {texts : List String} {lines : List Line}
    {program : Program} (hlines : ∀ line ∈ lines, line.Legible machine.maxConstant) :
    assemble machine (render (texts ++ lines.map Line.text)) = .ok program ↔
      ∃ opening layout, Opening.Opens opening machine texts ∧
        Assembled machine opening lines layout program := by
  rw [assemble_eq, codeLines_render_append texts hlines]
  simp only [bind_eq_ok_iff, Layout.addAll_append_eq_ok_iff, List.filter_append, List.mapM_append,
    mapM_read_codeLinesFrom_eq_ok_iff hlines]
  constructor
  · rintro ⟨layout, ⟨middle, hmiddle, hlayout⟩, _, ⟨before, hbefore, _, ⟨hread, rfl⟩, hall⟩,
      hprogram⟩
    cases hall
    cases hprogram
    exact ⟨⟨middle, before, _⟩, layout, ⟨hmiddle, hbefore, rfl⟩, hread, hlayout, rfl⟩
  · rintro ⟨⟨middle, before, number⟩, layout, ⟨hmiddle, hbefore, rfl⟩, hread, hlayout, rfl⟩
    exact ⟨layout, ⟨middle, hmiddle, hlayout⟩, _, ⟨before, hbefore, _, ⟨hread, rfl⟩, rfl⟩, rfl⟩

/-- An opening has an address for each of its instructions. -/
theorem Opening.Opens.size_layout {opening : Opening} {machine : Machine} {texts : List String}
    (h : opening.Opens machine texts) :
    opening.layout.size = opening.instructions.length := by
  rw [Layout.size_of_addAll h.firstPass, length_of_mapM_eq_ok h.read]
  exact Nat.zero_add _

namespace Assembled

variable {machine : Machine} {opening : Opening} {lines : Code} {layout : Layout}
  {program : Program}

theorem length_words (h : Assembled machine opening lines layout program) :
    program.words.length = opening.instructions.length + Code.size lines := by
  simp [h.linked, link]

/-- The code of an assembled program stands after its opening. -/
theorem placed (h : Assembled machine opening lines layout program)
    (hsize : opening.layout.size = opening.instructions.length) :
    Placed program opening.instructions.length lines := by
  have hlabels := (Layout.extends_of_addAll h.firstPass).labels
  rw [hsize] at hlabels
  have hplaced := placed_link machine opening.instructions [] hlabels
  rwa [List.append_nil, ← h.linked] at hplaced

theorem assemble_render_eq_ok (h : Assembled machine {} lines layout program)
    (hlines : ∀ line ∈ lines, line.Legible machine.maxConstant) :
    assemble machine (render (lines.map Line.text)) = .ok program :=
  (@assemble_render_eq_ok_iff machine [] lines program hlines).2
    ⟨{}, layout, Opening.opens_nil machine, h⟩

end Assembled

/-- The number of instructions in a text, which is the address of what follows the text. -/
def instructionCount (text : String) : Nat :=
  ((codeLines text).filter fun line => !line.isLabel).length

theorem exists_codeLines_append (texts : List String) (rest : String) :
    ∃ others, codeLines (render texts ++ rest) = codeLines (render texts) ++ others := by
  rw [codeLines, lines_render_append, List.zipIdx_append, List.filterMap_append]
  exact ⟨_, rfl⟩

/-- Lines stand after the instructions of the text before them, whatever comes later. -/
theorem placed_of_assemble {machine : Machine} {texts : List String} {lines : Code}
    {rest : String} {program : Program}
    (hlines : ∀ line ∈ lines, line.Legible machine.maxConstant)
    (h : assemble machine (render (texts ++ lines.map Line.text) ++ rest) = .ok program) :
    Placed program (instructionCount (render texts)) lines := by
  obtain ⟨others, hothers⟩ := exists_codeLines_append (texts ++ lines.map Line.text) rest
  rw [assemble_eq, hothers, codeLines_render_append texts hlines] at h
  simp only [bind_eq_ok_iff, Layout.addAll_append_eq_ok_iff, List.filter_append, List.mapM_append,
    mapM_read_codeLinesFrom_eq_ok_iff hlines] at h
  obtain ⟨final, ⟨layout, ⟨opening, hopening, hlayout⟩, hfinal⟩, _,
    ⟨_, ⟨before, hbefore, _, ⟨-, rfl⟩, ⟨⟩⟩, after, -, ⟨⟩⟩, ⟨⟩⟩ := h
  have hlength := length_of_mapM_eq_ok hbefore
  have hsize : opening.size = before.length := by
    rw [Layout.size_of_addAll hopening, hlength]
    exact Nat.zero_add _
  have hlabels := (Layout.extends_of_addAll hlayout).labels
  rw [hsize] at hlabels
  rw [instructionCount, ← hlength]
  exact placed_link machine before after
    (hlabels.mono fun _ _ haddress => Layout.address?_of_addAll hfinal haddress)

/-- The program of lines before which nothing stands. -/
def programOf (machine : Machine) (lines : Code) : Program :=
  link machine ((Layout.addAll {} (codeLinesFrom 1 lines)).toOption.getD {})
    ((instructions lines).map Instruction.squeezed)

theorem assembled_programOf {machine : Machine} {lines : Code}
    (hread : (instructions lines).all Instruction.isRead = true)
    (hlayout : (Layout.addAll {} (codeLinesFrom 1 lines)).toOption.isSome = true) :
    ∃ layout, Assembled machine {} lines layout (programOf machine lines) := by
  unfold programOf
  cases h : Layout.addAll {} (codeLinesFrom 1 lines) with
  | error fault =>
      rw [h] at hlayout
      cases hlayout
  | ok layout => exact ⟨layout, hread, h, rfl⟩

end Asm

end StackVm
