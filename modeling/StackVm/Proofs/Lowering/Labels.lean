import StackVm.Proofs.Lowering.Symbols

/-! # Label hygiene

A lowering makes two kinds of symbols: numbered labels of its own, and labels of
the source with their scope before them.  The dollar sign, which no symbol of the
source language contains, keeps them apart from each other and from functions.
The last dollar sign of a scoped label ends its scope, whatever the unit is called.
-/

namespace StackVm

open Asm

/-! ## The symbols that a lowering makes -/

theorem Source.dollar_not_mem_of_isSymbol {name : String} (h : isSymbol name = true) :
    '$' ∉ name.toList := by
  unfold isSymbol at h
  intro hmem
  cases hname : name.toList with
  | nil => simp [hname] at hmem
  | cons c rest =>
      simp only [hname, Bool.and_eq_true, List.all_eq_true] at h
      rw [hname, List.mem_cons] at hmem
      rcases hmem with rfl | hrest
      · exact (isPlain_of_isSymbolStart h.1).2.2 rfl
      · exact (isPlain_of_isSymbolRest (h.2 _ hrest)).2 rfl

/-- A label that a lowering has numbered. -/
def IsGenerated (name : String) : Prop :=
  ∃ purpose number, name = generatedLabel purpose number

theorem toList_generatedLabel (purpose : LabelPurpose) (number : Nat) :
    (generatedLabel purpose number).toList =
      [] ++ '$' :: (purpose.word.toList ++ '.' :: number.repr.toList) := by
  simp [generatedLabel]

theorem dollar_not_mem_numbered (purpose : LabelPurpose) (number : Nat) :
    '$' ∉ purpose.word.toList ++ '.' :: number.repr.toList := by
  have hword : '$' ∉ purpose.word.toList := by
    cases purpose <;> decide
  have hdigits := Text.not_mem_repr (show '$'.isDigit = false by decide) number
  rw [List.mem_append, List.mem_cons, not_or, not_or]
  exact ⟨hword, by decide, hdigits⟩

/-- Generated labels differ in their purpose or their number. -/
theorem generatedLabel_inj {p q : LabelPurpose} {m n : Nat}
    (h : generatedLabel p m = generatedLabel q n) : p = q ∧ m = n := by
  have htext := congrArg String.toList h
  rw [toList_generatedLabel, toList_generatedLabel, List.nil_append, List.nil_append,
    List.cons.injEq] at htext
  have hpoint : ∀ number : Nat, '.' ∉ number.repr.toList := Text.not_mem_repr (by decide)
  obtain ⟨hword, hnumber⟩ := Text.append_cons_inj (hpoint m) (hpoint n) htext.2
  refine ⟨?_, Text.eq_of_toList_repr_eq hnumber⟩
  revert hword
  cases p <;> cases q <;> decide

theorem generatedLabel_eq_iff {p q : LabelPurpose} {m n : Nat} :
    generatedLabel p m = generatedLabel q n ↔ p = q ∧ m = n := by
  refine ⟨generatedLabel_inj, ?_⟩
  rintro ⟨rfl, rfl⟩
  rfl

theorem IsGenerated.dollar_mem {name : String} (h : IsGenerated name) : '$' ∈ name.toList := by
  obtain ⟨purpose, number, rfl⟩ := h
  rw [toList_generatedLabel]
  exact List.mem_append_right _ List.mem_cons_self

/-- What stands before the last dollar sign of the labels of a scope. -/
def Scope.stem : Scope → String
  | .function name => name
  | .unit name => name ++ "$"

/-- The functions of a scope are symbols of the source language. -/
def Scope.Symbolic : Scope → Prop
  | .function name => Source.isSymbol name = true
  | .unit _ => True

theorem Scope.Symbolic.eq_of_stem_eq {x y : Scope} (hx : x.Symbolic) (hy : y.Symbolic)
    (h : x.stem = y.stem) : x = y := by
  have hmixed : ∀ {function unit : String}, Source.isSymbol function = true →
      function ≠ unit ++ "$" := by
    intro function unit hfunction heq
    apply Source.dollar_not_mem_of_isSymbol hfunction
    simp [heq]
  cases x with
  | function f =>
      cases y with
      | function g => exact congrArg Scope.function h
      | unit u => exact absurd h (hmixed hx)
  | unit u =>
      cases y with
      | function g => exact absurd h.symm (hmixed hy)
      | unit v =>
          have htext := congrArg String.toList h
          simp only [stem, String.toList_append] at htext
          exact congrArg Scope.unit (String.toList_inj.1 (List.append_cancel_right htext))

theorem Scope.Symbolic.stem_ne_nil {scope : Scope} (h : scope.Symbolic) :
    scope.stem.toList ≠ [] := by
  cases scope with
  | function name =>
      intro hnil
      have hsymbol : Source.isSymbol name = true := h
      have hname : name.toList = [] := hnil
      simp [Source.isSymbol, hname] at hsymbol
  | unit name => simp [stem]

namespace Lowering

/-- The scope of the labels that are lowered next. -/
def scope (lowering : Lowering) : Scope :=
  match lowering.function with
  | some name => .function name
  | none => .unit lowering.unit

theorem toList_scopedLabel (lowering : Lowering) (label : String) :
    (lowering.scopedLabel label).toList = lowering.scope.stem.toList ++ '$' :: label.toList := by
  cases hfunction : lowering.function with
  | some name => simp [scopedLabel, scope, hfunction, functionLabel, Scope.stem]
  | none => simp [scopedLabel, scope, hfunction, unitLabel, Scope.stem]

/-- Scoped labels are the same if and only if the labels and their scopes are. -/
theorem scopedLabel_eq_iff {x y : Lowering} {l m : String} (hx : x.scope.Symbolic)
    (hy : y.scope.Symbolic) (hl : Source.isSymbol l = true) (hm : Source.isSymbol m = true) :
    x.scopedLabel l = y.scopedLabel m ↔ l = m ∧ x.scope = y.scope := by
  rw [← String.toList_inj, toList_scopedLabel, toList_scopedLabel]
  constructor
  · intro h
    obtain ⟨hstem, hlabel⟩ := Text.append_cons_inj (Source.dollar_not_mem_of_isSymbol hl)
      (Source.dollar_not_mem_of_isSymbol hm) h
    exact ⟨String.toList_inj.1 hlabel, hx.eq_of_stem_eq hy (String.toList_inj.1 hstem)⟩
  · rintro ⟨rfl, hscope⟩
    rw [hscope]

theorem not_isGenerated_scopedLabel {lowering : Lowering} {label : String}
    (hscope : lowering.scope.Symbolic) (hlabel : Source.isSymbol label = true) :
    ¬ IsGenerated (lowering.scopedLabel label) := by
  rintro ⟨purpose, number, h⟩
  have htext := congrArg String.toList h
  rw [toList_scopedLabel, toList_generatedLabel] at htext
  exact hscope.stem_ne_nil (Text.append_cons_inj (Source.dollar_not_mem_of_isSymbol hlabel)
    (dollar_not_mem_numbered purpose number) htext).1

theorem scopedLabel_ne_of_isSymbol {name : String} (lowering : Lowering) (label : String)
    (h : Source.isSymbol name = true) : lowering.scopedLabel label ≠ name := by
  rintro rfl
  apply Source.dollar_not_mem_of_isSymbol h
  simp [toList_scopedLabel]

end Lowering

theorem not_isGenerated_of_isSymbol {name : String} (h : Source.isSymbol name = true) :
    ¬ IsGenerated name :=
  fun hgenerated => Source.dollar_not_mem_of_isSymbol h hgenerated.dollar_mem

/-! ## Requests with symbols of the source language -/

/-- The names in a request, and the function that it stands in, are symbols. -/
structure Block.Symbolic (block : Block) : Prop where
  scope : block.lowering.scope.Symbolic
  names : ∀ command, block.request = .command command →
    ∀ name ∈ command.value.names, Source.isSymbol name = true

theorem Block.Symbolic.scope_next {block : Block} (h : block.Symbolic) :
    block.next.scope.Symbolic := by
  obtain ⟨lowering, request⟩ := block
  cases request with
  | unit name => trivial
  | bootstrap entry =>
      rw [next_bootstrap]
      exact h.scope
  | command command =>
      have hnames := h.names command rfl
      have hscope := h.scope
      simp only [Lowering.scope, function_next_command, unit_next_command] at hscope ⊢
      obtain ⟨value, span⟩ := command
      cases value with
      | function name locals => exact hnames name (by simp [Command.names])
      | _ => exact hscope

/-- Names that are symbols make every block of a trace symbolic. -/
theorem Lowering.symbolic_of_mem_trace {lowering : Lowering} {requests : List Request}
    {block : Block} (hscope : lowering.scope.Symbolic)
    (hnames : ∀ command, Request.command command ∈ requests →
      ∀ name ∈ command.value.names, Source.isSymbol name = true)
    (h : block ∈ lowering.trace requests) : block.Symbolic := by
  induction requests generalizing lowering with
  | nil => cases h
  | cons request rest ih =>
      have hfirst : (Block.mk lowering request).Symbolic := by
        refine ⟨hscope, fun command hcommand => hnames command ?_⟩
        rw [← show request = .command command from hcommand]
        exact List.mem_cons_self
      cases h with
      | head => exact hfirst
      | tail _ h =>
          exact ih hfirst.scope_next
            (fun command hcommand => hnames command (List.mem_cons_of_mem _ hcommand)) h

/-! ## Defined labels -/

namespace Lowering

variable {lowering : Lowering} {command : Command} {code : Code}

theorem count_eq_zero_of_not_isGenerated {name : String} (h : ¬ IsGenerated name)
    (purpose : LabelPurpose) (number : Nat) :
    [name].count (generatedLabel purpose number) = 0 := by
  rw [List.count_eq_zero, List.mem_singleton]
  exact fun heq => h ⟨purpose, number, heq.symm⟩

/-- Until the counter has run through all its values, labels are numbered one after the other. -/
theorem freshLabel_eq {ahead : UInt32} (h : lowering.labels.toNat + ahead.toNat < UInt32.size)
    (purpose : LabelPurpose) :
    lowering.freshLabel purpose ahead =
      generatedLabel purpose (lowering.labels.toNat + ahead.toNat) := by
  rw [freshLabel, UInt32.toNat_add]
  exact congrArg (generatedLabel purpose) (Nat.mod_eq_of_lt h)

/-- A command defines a generated label at most once, and only with a number that it takes. -/
theorem count_labelsOf_le (hscope : lowering.scope.Symbolic)
    (hnames : ∀ name ∈ command.names, Source.isSymbol name = true)
    (hroom : lowering.labels.toNat + command.labelsTaken < UInt32.size) (purpose : LabelPurpose)
    (number : Nat) :
    (lowering.labelsOf command).count (generatedLabel purpose number) ≤
      if lowering.labels.toNat < number ∧ number ≤ lowering.labels.toNat + command.labelsTaken then 1
      else 0 := by
  have hcomparison (hroom : lowering.labels.toNat + 2 < UInt32.size) :
      [lowering.freshLabel .isTrue 1, lowering.freshLabel .isEnd 2].count
        (generatedLabel purpose number) ≤
          if lowering.labels.toNat < number ∧ number ≤ lowering.labels.toNat + 2 then 1 else 0 := by
    have hfirst : lowering.labels.toNat + UInt32.toNat 1 < UInt32.size := Nat.lt_of_succ_lt hroom
    have hsecond : lowering.labels.toNat + UInt32.toNat 2 < UInt32.size := hroom
    rw [freshLabel_eq hfirst, freshLabel_eq hsecond]
    simp only [List.count_cons, List.count_nil, beq_iff_eq, generatedLabel_eq_iff,
      UInt32.toNat_one, UInt32.reduceToNat]
    cases purpose <;> grind
  cases command with
  | arith op =>
      cases op with
      | eq | gt | lt => exact hcomparison hroom
      | _ => exact Nat.zero_le _
  | label name =>
      rw [labelsOf, count_eq_zero_of_not_isGenerated
        (not_isGenerated_scopedLabel hscope (hnames name (by simp [Command.names])))]
      exact Nat.zero_le _
  | function name locals =>
      rw [labelsOf, count_eq_zero_of_not_isGenerated
        (not_isGenerated_of_isSymbol (hnames name (by simp [Command.names])))]
      exact Nat.zero_le _
  | call name args =>
      have hfirst : lowering.labels.toNat + UInt32.toNat 1 < UInt32.size := hroom
      rw [labelsOf, freshLabel_eq hfirst]
      simp only [Command.labelsTaken, List.count_cons, List.count_nil, beq_iff_eq,
        generatedLabel_eq_iff, UInt32.toNat_one]
      grind
  | push _ _ | pop _ _ | goto _ | ifGoto _ | ret => exact Nat.zero_le _

end Lowering

namespace Block

variable {block : Block}

/-- A command has the code of its kind, or it is refused. -/
theorem lowers_or_refused (lowering : Lowering) (command : Located Command) :
    lowering.Lowers command.value (Block.mk lowering (.command command)).code ∧
        (Block.mk lowering (.command command)).next = lowering.passed command.value ∨
      (Block.mk lowering (.command command)).code = [] := by
  cases h : lowering.command command with
  | ok result =>
      refine .inl ?_
      simp only [code, next, outcome, h]
      exact Lowering.command_eq_ok_iff.1 h
  | error error =>
      refine .inr ?_
      simp only [code, outcome, h]

/-- Number of labels that a request takes; none if it is refused. -/
def labelsTaken (block : Block) : Nat :=
  match block.request with
  | .unit _ => 0
  | .bootstrap _ => 0
  | .command command =>
      match block.lowering.command command with
      | .ok _ => command.value.labelsTaken
      | .error _ => 0

/-- Number of labels that blocks take together. -/
def labelsTakenAll (blocks : List Block) : Nat :=
  blocks.foldr (fun block taken => block.labelsTaken + taken) 0

theorem labels_next (block : Block) :
    block.next.labels = block.lowering.labels + UInt32.ofNat block.labelsTaken := by
  obtain ⟨lowering, request⟩ := block
  have hnone : lowering.labels + UInt32.ofNat 0 = lowering.labels := UInt32.add_zero _
  cases request with
  | unit name => exact hnone.symm
  | bootstrap entry =>
      rw [next_bootstrap]
      exact hnone.symm
  | command command =>
      cases h : lowering.command command with
      | ok answer =>
          simp only [next, outcome, labelsTaken, h]
          rw [(Lowering.command_eq_ok_iff.1 h).2]
          rfl
      | error error =>
          simp only [next, outcome, labelsTaken, h]
          exact hnone.symm

theorem toNat_labels_next {block : Block}
    (h : block.lowering.labels.toNat + block.labelsTaken < UInt32.size) :
    block.next.labels.toNat = block.lowering.labels.toNat + block.labelsTaken := by
  have htaken : block.labelsTaken < UInt32.size := Nat.lt_of_le_of_lt (Nat.le_add_left _ _) h
  rw [labels_next, UInt32.toNat_add, UInt32.toNat_ofNat_of_lt' htaken]
  exact Nat.mod_eq_of_lt h

theorem labels_code_bootstrap (lowering : Lowering) (entry : String) :
    Code.labels (Block.mk lowering (.bootstrap entry)).code = [] := by
  simp only [code, outcome]
  split
  · next code h =>
      unfold Lowering.bootstrap at h
      split at h
      · cases h
        rfl
      · cases h
  · rfl

/-- A block defines a generated label at most once, and only with a number that it takes. -/
theorem Symbolic.count_labels_le (h : block.Symbolic)
    (hroom : block.lowering.labels.toNat + block.labelsTaken < UInt32.size)
    (purpose : LabelPurpose) (number : Nat) :
    (Code.labels block.code).count (generatedLabel purpose number) ≤
      if block.lowering.labels.toNat < number ∧
          number ≤ block.lowering.labels.toNat + block.labelsTaken then 1 else 0 := by
  obtain ⟨lowering, request⟩ := block
  cases request with
  | unit name => exact Nat.zero_le _
  | bootstrap entry =>
      rw [labels_code_bootstrap]
      exact Nat.zero_le _
  | command command =>
      cases hresult : lowering.command command with
      | ok answer =>
          have hlowers := (Lowering.command_eq_ok_iff.1 hresult).1
          simp only [labelsTaken, code, outcome, hresult] at hroom ⊢
          rw [hlowers.labels_eq]
          exact Lowering.count_labelsOf_le h.scope (h.names command rfl) hroom purpose number
      | error error =>
          simp only [code, outcome, hresult]
          exact Nat.zero_le _

end Block

/-- A lowering that goes on from some number defines each later label at most once. -/
theorem Lowering.count_labels_trace_le {lowering : Lowering} {requests : List Request}
    (hscope : lowering.scope.Symbolic)
    (hnames : ∀ command, Request.command command ∈ requests →
      ∀ name ∈ command.value.names, Source.isSymbol name = true)
    (hroom : lowering.labels.toNat + Block.labelsTakenAll (lowering.trace requests) < UInt32.size)
    (purpose : LabelPurpose) (number : Nat) :
    (Code.labels ((lowering.trace requests).flatMap Block.code)).count
        (generatedLabel purpose number) ≤
      if lowering.labels.toNat < number then 1 else 0 := by
  induction requests generalizing lowering with
  | nil => exact Nat.zero_le _
  | cons request rest ih =>
      have hfirst : (Block.mk lowering request).Symbolic :=
        symbolic_of_mem_trace hscope hnames List.mem_cons_self
      rw [trace, Block.labelsTakenAll, List.foldr_cons, ← Nat.add_assoc] at hroom
      have hnow : lowering.labels.toNat + (Block.mk lowering request).labelsTaken < UInt32.size :=
        Nat.lt_of_le_of_lt (Nat.le_add_right _ _) hroom
      have hnext : (Block.mk lowering request).next.labels.toNat =
          lowering.labels.toNat + (Block.mk lowering request).labelsTaken :=
        Block.toNat_labels_next hnow
      have hblock := hfirst.count_labels_le hnow purpose number
      have hrest := ih hfirst.scope_next
        (fun command hcommand => hnames command (List.mem_cons_of_mem _ hcommand))
        (by rw [hnext]; exact hroom)
      rw [hnext] at hrest
      rw [trace, List.flatMap_cons, Code.labels_append, List.count_append]
      dsimp only at hblock hrest
      by_cases hlast : number ≤ lowering.labels.toNat + (Block.mk lowering request).labelsTaken
      · rw [if_neg (Nat.not_lt.2 hlast)] at hrest
        simp only [hlast, and_true] at hblock
        omega
      · rw [if_neg fun h => hlast h.2] at hblock
        rw [if_pos (by omega)] at hrest ⊢
        omega

/-! ## References -/

/-- The symbols that code loads, in order. -/
def Code.loads (code : Code) : List String :=
  code.filterMap fun
    | .code (.load (.symbol name)) => some name
    | _ => none

/-- The registers that every machine has. -/
def stackRegisters : List String :=
  ["SP", "LCL", "ARG", "THIS", "THAT"]

/-- The symbol that a place is reached through. -/
def Place.symbols : Place → List String
  | .symbol name => [name]
  | .offset base _ => [base.name]
  | _ => []

namespace Code

theorem loads_append (xs ys : Code) : loads (xs ++ ys) = loads xs ++ loads ys := by
  simp [loads]

theorem loads_push (place : Place) : loads (push place) = place.symbols ++ ["SP"] := by
  cases place <;> rfl

theorem loads_pop (scratch : String) (place : Place) :
    loads (pop scratch place) = place.symbols ++ [scratch, "SP", scratch] := by
  cases place <;> rfl

theorem loads_function (name : String) (locals : Nat) :
    loads (function name locals) = List.replicate locals "SP" := by
  have hzeros : loads (zeros locals) = List.replicate locals "SP" := by
    induction locals with
    | zero => rfl
    | succ locals ih =>
        rw [zeros_succ, loads_append, ih, List.replicate_succ]
        rfl
  rw [function, loads_append, hzeros]
  rfl

theorem loads_comparison (condition : Jump) (trueLabel endLabel : String) :
    loads (comparison condition trueLabel endLabel) =
      ["SP", trueLabel, "SP", endLabel, "SP"] := rfl

theorem loads_call (returnLabel name : String) (args : UInt16) :
    loads (call returnLabel name args) =
      returnLabel :: (["SP", "LCL", "SP", "ARG", "SP", "THIS", "SP", "THAT", "SP", "SP", "ARG",
        "SP", "LCL"] ++ [name]) := rfl

theorem loads_ret (popScratch frame returnAddress : String) :
    loads (ret popScratch frame returnAddress) =
      ["LCL", frame, returnAddress, "ARG", popScratch, "SP", popScratch, "ARG", "SP", frame,
        "THAT", frame, "THIS", frame, "ARG", frame, "LCL", returnAddress] := rfl

end Code

namespace Lowering

variable {lowering : Lowering} {command : Command} {code : Code}

/-- Names in the code of a command that are made from the source text or given by the machine. -/
def givenNames (lowering : Lowering) : Command → List String
  | .push .statics index => [lowering.staticSymbol index]
  | .pop segment index =>
      [lowering.machine.popScratch] ++
        if segment = .statics then [lowering.staticSymbol index] else []
  | .goto name => [lowering.scopedLabel name]
  | .ifGoto name => [lowering.scopedLabel name]
  | .ret => [lowering.machine.popScratch, lowering.machine.frameScratch,
      lowering.machine.returnScratch]
  | _ => []

theorem mem_symbols_of_hasPlace {index : UInt16} {segment : Segment} {place : Place}
    {name : String} (h : lowering.HasPlace index segment place) (hname : name ∈ place.symbols) :
    name ∈ stackRegisters ∨ segment = .statics ∧ name = lowering.staticSymbol index := by
  cases h with
  | symbol => exact .inr ⟨rfl, List.mem_singleton.1 hname⟩
  | @offset segment base hbase hle =>
      rw [Place.symbols, List.mem_singleton] at hname
      subst hname
      left
      cases base <;> decide
  | immediate | temp hlt | pointer hlt => cases hname

/--
Code refers to registers, to given names, to names of the command, and to
generated labels that it defines itself.
-/
theorem Lowers.mem_loads (h : lowering.Lowers command code) {name : String}
    (hname : name ∈ Code.loads code) :
    name ∈ stackRegisters ∨ name ∈ lowering.givenNames command ∨ name ∈ command.names ∨
      IsGenerated name ∧ name ∈ Code.labels code := by
  have hregister : name = "SP" → name ∈ stackRegisters := by
    rintro rfl
    decide
  cases h with
  | arith op =>
      have hcomparison : ∀ condition : Jump, name ∈ Code.loads (Code.comparison condition
            (lowering.freshLabel .isTrue 1) (lowering.freshLabel .isEnd 2)) →
          name = "SP" ∨ IsGenerated name ∧ name ∈
            [lowering.freshLabel .isTrue 1, lowering.freshLabel .isEnd 2] := by
        intro condition hmem
        rw [Code.loads_comparison] at hmem
        simp only [List.mem_cons, List.not_mem_nil, or_false] at hmem ⊢
        rcases hmem with h | rfl | h | rfl | h
        · exact .inl h
        · exact .inr ⟨⟨_, _, rfl⟩, .inl rfl⟩
        · exact .inl h
        · exact .inr ⟨⟨_, _, rfl⟩, .inr rfl⟩
        · exact .inl h
      cases op with
      | eq | gt | lt =>
          rcases hcomparison _ hname with hsp | hlabel
          · exact .inl (hregister hsp)
          · exact .inr (.inr (.inr hlabel))
      | _ => exact .inl (hregister (List.mem_singleton.1 hname))
  | @push segment index place hplace =>
      rw [Code.loads_push, List.mem_append, List.mem_singleton] at hname
      rcases hname with hname | hsp
      · rcases mem_symbols_of_hasPlace (hasPlace_of_pushPlace hplace).1 hname with h | ⟨rfl, rfl⟩
        · exact .inl h
        · exact .inr (.inl (List.mem_singleton.2 rfl))
      · exact .inl (hregister hsp)
  | @pop segment index place hplace =>
      rw [Code.loads_pop, List.mem_append] at hname
      rcases hname with hname | hname
      · rcases mem_symbols_of_hasPlace (hasPlace_of_popPlace hplace).1 hname with h | ⟨rfl, rfl⟩
        · exact .inl h
        · exact .inr (.inl (List.mem_cons_of_mem _ (List.mem_singleton.2 rfl)))
      · simp only [List.mem_cons, List.not_mem_nil, or_false] at hname
        rcases hname with rfl | hsp | rfl
        · exact .inr (.inl List.mem_cons_self)
        · exact .inl (hregister hsp)
        · exact .inr (.inl List.mem_cons_self)
  | label label => cases hname
  | goto label => exact .inr (.inl hname)
  | ifGoto label =>
      have hloads : name ∈ ["SP", lowering.scopedLabel label] := hname
      rcases List.mem_cons.1 hloads with hsp | hlabel
      · exact .inl (hregister hsp)
      · exact .inr (.inl hlabel)
  | function function locals =>
      rw [Code.loads_function] at hname
      exact .inl (hregister (List.eq_of_mem_replicate hname))
  | @call function args haccepts =>
      rw [Code.loads_call, List.mem_cons, List.mem_append] at hname
      rcases hname with rfl | hpointers | hfunction
      · exact .inr (.inr (.inr ⟨⟨_, _, rfl⟩, List.mem_singleton.2 rfl⟩))
      · have hsaved : ∀ other ∈ ["SP", "LCL", "SP", "ARG", "SP", "THIS", "SP", "THAT", "SP", "SP",
            "ARG", "SP", "LCL"], other ∈ stackRegisters := by
          decide
        exact .inl (hsaved name hpointers)
      · exact .inr (.inr (.inl hfunction))
  | ret =>
      have hgiven : lowering.givenNames .ret = [lowering.machine.popScratch,
          lowering.machine.frameScratch, lowering.machine.returnScratch] := rfl
      rw [Code.loads_ret] at hname
      simp only [hgiven, List.mem_cons, List.not_mem_nil, or_false, stackRegisters] at hname ⊢
      grind

end Lowering

/-! ## Hygiene -/

/-- The label that a command defines or jumps to. -/
def Command.label? : Command → Option String
  | .label name => some name
  | .goto name => some name
  | .ifGoto name => some name
  | _ => none

namespace Block

variable {block : Block} {name : String}

/-- Names in the code of a block that the source text, the entry or the machine gives. -/
def givenNames (block : Block) : List String :=
  match block.request with
  | .unit _ => []
  | .bootstrap entry => [entry]
  | .command command => block.lowering.givenNames command.value

/-- The label that a block defines or jumps to. -/
def label? (block : Block) : Option String :=
  match block.request with
  | .command command => command.value.label?
  | _ => none

/-- The symbol that stands for that label in the lines of the block. -/
def scopedSymbol? (block : Block) : Option String :=
  match block.request with
  | .command ⟨.label _, _⟩ => (Code.labels block.code).head?
  | .command ⟨.goto _, _⟩ => (Code.loads block.code).getLast?
  | .command ⟨.ifGoto _, _⟩ => (Code.loads block.code).getLast?
  | _ => none

/-- The symbol of the function that a block defines or calls, in the lines of the block. -/
def functionSymbol? (block : Block) : Option String :=
  match block.request with
  | .command ⟨.function _ _, _⟩ => (Code.labels block.code).head?
  | .command ⟨.call _ _, _⟩ => (Code.loads block.code).getLast?
  | _ => none

theorem scopedSymbol?_eq (block : Block) :
    block.scopedSymbol? = block.label?.map block.lowering.scopedLabel := by
  obtain ⟨lowering, request⟩ := block
  cases request with
  | unit name => rfl
  | bootstrap entry => rfl
  | command command =>
      obtain ⟨value, span⟩ := command
      cases value <;> rfl

theorem Symbolic.isSymbol_label (h : block.Symbolic) (hname : block.label? = some name) :
    Source.isSymbol name = true := by
  obtain ⟨lowering, request⟩ := block
  cases request with
  | unit other => cases hname
  | bootstrap entry => cases hname
  | command command =>
      obtain ⟨value, span⟩ := command
      apply h.names _ rfl
      cases value with
      | label other | goto other | ifGoto other =>
          cases hname
          exact List.mem_singleton.2 rfl
      | _ => cases hname

theorem Symbolic.isSymbol_function (h : block.Symbolic)
    (hname : block.functionSymbol? = some name) : Source.isSymbol name = true := by
  obtain ⟨lowering, request⟩ := block
  cases request with
  | unit other => cases hname
  | bootstrap entry => cases hname
  | command command =>
      have hlowers := lowers_or_refused lowering command
      obtain ⟨value, span⟩ := command
      apply h.names _ rfl
      cases value with
      | function other locals =>
          change (Code.labels (Block.code _)).head? = some name at hname
          rw [code_function, Code.labels_function] at hname
          cases hname
          exact List.mem_singleton.2 rfl
      | call other args =>
          change (Code.loads (Block.code _)).getLast? = some name at hname
          rcases hlowers with ⟨hlowers, -⟩ | hcode
          · generalize Block.code _ = code at hlowers hname
            cases hlowers
            cases hname
            exact List.mem_singleton.2 rfl
          · rw [hcode] at hname
            cases hname
      | _ => cases hname

theorem mem_loads_bootstrap {lowering : Lowering} {entry : String}
    (h : name ∈ Code.loads (Block.mk lowering (.bootstrap entry)).code) :
    name = "SP" ∨ name = entry := by
  simp only [code, outcome, Lowering.bootstrap] at h
  split at h
  · next hsp =>
      split at hsp
      · cases hsp
        have hloads : name ∈ ["SP", entry] := h
        simpa using hloads
      · cases hsp
  · cases h

/-- A reference with the mark of a generated label is to one that the block defines itself. -/
theorem Symbolic.mem_loads (h : block.Symbolic) (hname : name ∈ Code.loads block.code)
    (hmark : name.toList.head? = some '$') (hgiven : name ∉ block.givenNames) :
    IsGenerated name ∧ name ∈ Code.labels block.code := by
  have hregister : ∀ register ∈ stackRegisters, register.toList.head? ≠ some '$' := by
    decide
  obtain ⟨lowering, request⟩ := block
  cases request with
  | unit other => cases hname
  | bootstrap entry =>
      rcases mem_loads_bootstrap hname with rfl | rfl
      · cases hmark
      · exact absurd (List.mem_singleton.2 rfl) hgiven
  | command command =>
      rcases lowers_or_refused lowering command with ⟨hlowers, -⟩ | hcode
      · rcases hlowers.mem_loads hname with hmem | hmem | hmem | hlabel
        · exact absurd hmark (hregister name hmem)
        · exact absurd hmem hgiven
        · have hdollar := Source.dollar_not_mem_of_isSymbol (h.names command rfl name hmem)
          exact absurd (List.mem_of_mem_head? (Option.mem_def.2 hmark)) hdollar
        · exact hlabel
      · rw [hcode] at hname
        cases hname

end Block

/-- The names in some blocks do not get in each other's way. -/
structure Hygienic (blocks : List Block) : Prop where
  /-- Generated labels are distinct as long as their number fits in 32 bits. -/
  generated_once : Block.labelsTakenAll blocks < UInt32.size → ∀ purpose number,
    (Code.labels (blocks.flatMap Block.code)).count (generatedLabel purpose number) ≤ 1
  /-- A reference with the mark of a generated label has its definition in the same block. -/
  generated_defined : ∀ block ∈ blocks, ∀ name ∈ Code.loads block.code,
    name.toList.head? = some '$' → name ∉ block.givenNames →
      name ∈ Code.labels block.code ∧ (Block.labelsTakenAll blocks < UInt32.size →
        (Code.labels (blocks.flatMap Block.code)).count name = 1)
  function_not_generated : ∀ block ∈ blocks, ∀ name, block.functionSymbol? = some name →
    ¬ IsGenerated name
  scoped_not_generated : ∀ block ∈ blocks, ∀ name, block.scopedSymbol? = some name →
    ¬ IsGenerated name
  function_ne_scoped : ∀ x ∈ blocks, ∀ y ∈ blocks, ∀ name, x.functionSymbol? = some name →
    y.scopedSymbol? ≠ some name
  scoped_eq_iff : ∀ x ∈ blocks, ∀ y ∈ blocks, ∀ l m, x.label? = some l → y.label? = some m →
    (x.scopedSymbol? = y.scopedSymbol? ↔ l = m ∧ x.lowering.scope = y.lowering.scope)

/--
All that a lowering writes is hygienic, whatever its units are called, if labels
and functions are symbols of the source language.
-/
theorem Lowering.hygienic_trace (machine : Machine) {requests : List Request}
    (hnames : ∀ command, Request.command command ∈ requests →
      ∀ name ∈ command.value.names, Source.isSymbol name = true) :
    Hygienic (Lowering.trace { machine := machine } requests) := by
  have hscope : (Lowering.scope { machine := machine }).Symbolic := trivial
  have hsymbolic : ∀ {block : Block}, block ∈ Lowering.trace { machine := machine } requests →
      block.Symbolic := fun h => symbolic_of_mem_trace hscope hnames h
  have honce : Block.labelsTakenAll (Lowering.trace { machine := machine } requests) < UInt32.size →
      ∀ purpose number, (Code.labels ((Lowering.trace { machine := machine }
        requests).flatMap Block.code)).count (generatedLabel purpose number) ≤ 1 := by
    intro hfew purpose number
    have hroom : (0 : UInt32).toNat + Block.labelsTakenAll
        (Lowering.trace { machine := machine } requests) < UInt32.size := (Nat.zero_add _).symm ▸ hfew
    refine Nat.le_trans (count_labels_trace_le hscope hnames hroom purpose number) ?_
    split <;> omega
  have hscoped : ∀ {block : Block} {name : String}, block.scopedSymbol? = some name →
      ∃ label, block.label? = some label ∧ block.lowering.scopedLabel label = name := by
    intro block name h
    rw [block.scopedSymbol?_eq] at h
    exact Option.map_eq_some_iff.1 h
  refine ⟨honce, ?_, ?_, ?_, ?_, ?_⟩
  · intro block hblock name hname hmark hgiven
    obtain ⟨⟨purpose, number, rfl⟩, hlabel⟩ :=
      (hsymbolic hblock).mem_loads hname hmark hgiven
    refine ⟨hlabel, fun hfew =>
      Nat.le_antisymm (honce hfew purpose number) (List.count_pos_iff.2 ?_)⟩
    rw [Code.labels, List.filterMap_flatMap]
    exact List.mem_flatMap.2 ⟨block, hblock, hlabel⟩
  · intro block hblock name hname
    exact not_isGenerated_of_isSymbol ((hsymbolic hblock).isSymbol_function hname)
  · intro block hblock name hname
    obtain ⟨label, hlabel, rfl⟩ := hscoped hname
    exact not_isGenerated_scopedLabel (hsymbolic hblock).scope
      ((hsymbolic hblock).isSymbol_label hlabel)
  · intro x hx y hy name hfunction hname
    obtain ⟨label, -, rfl⟩ := hscoped hname
    exact scopedLabel_ne_of_isSymbol y.lowering label
      ((hsymbolic hx).isSymbol_function hfunction) rfl
  · intro x hx y hy l m hl hm
    rw [x.scopedSymbol?_eq, y.scopedSymbol?_eq, hl, hm, Option.map_some, Option.map_some,
      Option.some.injEq]
    exact scopedLabel_eq_iff (hsymbolic hx).scope (hsymbolic hy).scope
      ((hsymbolic hx).isSymbol_label hl) ((hsymbolic hy).isSymbol_label hm)

namespace Sample

/-- Requests for two units, the first of which is called like a generated label. -/
def session : List Request :=
  [.bootstrap "Main.f", .unit "$true", .command ⟨.push .statics 1, .absent⟩,
    .command ⟨.arith .eq, .absent⟩, .command ⟨.label "a", .absent⟩,
    .command ⟨.pop .constants 0, .absent⟩, .unit "Main", .command ⟨.goto "a", .absent⟩,
    .command ⟨.function "Main.f" 2, .absent⟩, .command ⟨.arith .lt, .absent⟩,
    .command ⟨.ifGoto "a", .absent⟩, .command ⟨.call "Main.f" 1, .absent⟩]

theorem isSymbol_session : ∀ command, Request.command command ∈ session →
    ∀ name ∈ command.value.names, Source.isSymbol name = true := by
  intro command h
  simp only [session, List.mem_cons, List.not_mem_nil, or_false, false_or, reduceCtorEq,
    Request.command.injEq] at h
  rcases h with rfl | rfl | rfl | rfl | rfl | rfl | rfl | rfl | rfl <;> decide

theorem hygienic_session :
    (∀ command, Request.command command ∈ session →
      ∀ name ∈ command.value.names, Source.isSymbol name = true) ∧
      Block.labelsTakenAll (Lowering.trace { machine := .hack } session) = 5 ∧
      Hygienic (Lowering.trace { machine := .hack } session) :=
  ⟨isSymbol_session, rfl, Lowering.hygienic_trace .hack isSymbol_session⟩

end Sample

end StackVm
