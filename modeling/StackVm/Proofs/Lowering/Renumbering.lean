import StackVm.Proofs.Lowering.Labels

/-! # Renumbered code

A lowering that has generated more labels gives the same code for a command, with higher numbers
in the generated labels and nowhere else.  It accepts the same commands.  Numbers are raised in 32
bits, so that those of a very long program start again at zero.
-/

namespace StackVm

open Asm

/-! ## Names -/

/-- The number of a generated label that has a given purpose. -/
def generatedNumber? (purpose : LabelPurpose) (name : String) : Option Nat :=
  let number := Text.decimalValue (name.toList.drop (purpose.word.toList.length + 2))
  if name = generatedLabel purpose number then some number else none

/-- The number of a label after `shift` more labels. -/
def raisedBy (shift number : Nat) : Nat :=
  (number + shift) % UInt32.size

/-- Give a label another number, if it is a generated one. -/
def renumber (raise : Nat → Nat) (name : String) : String :=
  ([LabelPurpose.isTrue, .isEnd, .ret].findSome? fun purpose =>
    (generatedNumber? purpose name).map fun number =>
      generatedLabel purpose (raise number)).getD name

/--
Generated labels, which have numbers up to `limit`, are given other numbers; other names stay, and so
do those that are given.
-/
inductive Renumbers (given : List String) (limit : Nat) (raise : Nat → Nat) :
    String → String → Prop where
  | kept {name : String} (h : ¬ IsGenerated name) : Renumbers given limit raise name name
  | given {name : String} (h : name ∈ given) : Renumbers given limit raise name name
  | generated (purpose : LabelPurpose) {number : Nat} (h : number ≤ limit) :
      Renumbers given limit raise (generatedLabel purpose number)
        (generatedLabel purpose (raise number))

namespace Renumbers

variable {given : List String} {limit : Nat} {raise other : Nat → Nat} {x y : String}

theorem congr (h : Renumbers given limit raise x y)
    (hsame : ∀ number ≤ limit, raise number = other number) : Renumbers given limit other x y := by
  cases h with
  | kept hname => exact .kept hname
  | given hname => exact .given hname
  | generated purpose hnumber =>
      rw [hsame _ hnumber]
      exact .generated purpose hnumber

end Renumbers

/-! ## Code -/

namespace Code

/-- Code that differs in the names it loads and defines: those have other numbers. -/
inductive Renumbered (given : List String) (limit : Nat) (raise : Nat → Nat) :
    Code → Code → Prop where
  | nil : Renumbered given limit raise [] []
  | comment {xs ys : Code} (text : String) (h : Renumbered given limit raise xs ys) :
      Renumbered given limit raise (.comment text :: xs) (.comment text :: ys)
  | label {xs ys : Code} {x y : String} (hname : Renumbers [] limit raise x y)
      (h : Renumbered given limit raise xs ys) :
      Renumbered given limit raise (.label x :: xs) (.label y :: ys)
  | load {xs ys : Code} {x y : String} (hname : Renumbers given limit raise x y)
      (h : Renumbered given limit raise xs ys) :
      Renumbered given limit raise (load x :: xs) (load y :: ys)
  | constant {xs ys : Code} (value : UInt16) (h : Renumbered given limit raise xs ys) :
      Renumbered given limit raise (loadConstant value :: xs) (loadConstant value :: ys)
  | compute {xs ys : Code} (dest : Dest) (comp : Comp) (jump : Jump)
      (h : Renumbered given limit raise xs ys) :
      Renumbered given limit raise (.code (.compute dest comp jump) :: xs)
        (.code (.compute dest comp jump) :: ys)

variable {given : List String} {limit : Nat} {raise other : Nat → Nat}

/-- Only the numbers of labels in the code matter. -/
theorem Renumbered.congr {xs ys : Code} (h : Renumbered given limit raise xs ys)
    (hsame : ∀ number ≤ limit, raise number = other number) :
    Renumbered given limit other xs ys := by
  induction h with
  | nil => exact .nil
  | comment text _ ih => exact .comment text ih
  | label hname _ ih => exact .label (hname.congr hsame) ih
  | load hname _ ih => exact .load (hname.congr hsame) ih
  | constant value _ ih => exact .constant value ih
  | compute dest comp jump _ ih => exact .compute dest comp jump ih

theorem Renumbered.append {xs xs' ys ys' : Code} (hxs : Renumbered given limit raise xs xs')
    (hys : Renumbered given limit raise ys ys') : Renumbered given limit raise (xs ++ ys) (xs' ++ ys') := by
  induction hxs with
  | nil => exact hys
  | comment text _ ih => exact .comment text ih
  | label hname _ ih => exact .label hname ih
  | load hname _ ih => exact .load hname ih
  | constant value _ ih => exact .constant value ih
  | compute dest comp jump _ ih => exact .compute dest comp jump ih

/-- Code without generated labels stays as it is. -/
theorem renumbered_self {code : Code} (hlabels : ∀ name ∈ labels code, ¬ IsGenerated name)
    (hloads : ∀ name ∈ loads code, ¬ IsGenerated name ∨ name ∈ given) :
    Renumbered given limit raise code code := by
  induction code with
  | nil => exact .nil
  | cons line code ih =>
      cases line with
      | comment text => exact .comment text (ih hlabels hloads)
      | label name =>
          obtain ⟨hname, hrest⟩ := List.forall_mem_cons.1 hlabels
          exact .label (.kept hname) (ih hrest hloads)
      | code instruction =>
          cases instruction with
          | compute dest comp jump => exact .compute dest comp jump (ih hlabels hloads)
          | load address =>
              cases address with
              | constant value => exact .constant value (ih hlabels hloads)
              | symbol name =>
                  obtain ⟨hname, hrest⟩ := List.forall_mem_cons.1 hloads
                  rcases hname with hname | hname
                  · exact .load (.kept hname) (ih hlabels hrest)
                  · exact .load (.given hname) (ih hlabels hrest)

end Code

/-- Give the generated labels of a line other numbers. -/
def Asm.Line.renumber (raise : Nat → Nat) : Line → Line
  | .label name => .label (StackVm.renumber raise name)
  | .code (.load (.symbol name)) => .code (.load (.symbol (StackVm.renumber raise name)))
  | line => line

/-- The registers that a machine names for the use of the lowering. -/
def Machine.scratchNames (machine : Machine) : List String :=
  [machine.popScratch, machine.frameScratch, machine.returnScratch]

theorem not_isGenerated_of_mem_stackRegisters {name : String} (h : name ∈ stackRegisters) :
    ¬ IsGenerated name := by
  have hsymbols : ∀ register ∈ stackRegisters, Source.isSymbol register = true := by
    decide
  exact not_isGenerated_of_isSymbol (hsymbols name h)

namespace Lowering

variable {lowering : Lowering} {command : Command} {code : Code}

/-- The same lowering after more generated labels. -/
def ahead (lowering : Lowering) (shift : Nat) : Lowering :=
  { lowering with labels := lowering.labels + UInt32.ofNat shift }

theorem not_isGenerated_staticSymbol (hunit : Source.isSymbol lowering.unit = true)
    (index : UInt16) : ¬ IsGenerated (lowering.staticSymbol index) := by
  intro hgenerated
  have hmem := hgenerated.dollar_mem
  rw [staticSymbol, String.toList_append, String.toList_append, List.mem_append,
    List.mem_append] at hmem
  rcases hmem with (hmem | hmem) | hmem
  · exact Source.dollar_not_mem_of_isSymbol hunit hmem
  · revert hmem
    decide
  · exact Text.not_mem_repr (by decide) _ hmem

/-- Names that are given to the code of a command: registers, statics and scoped labels. -/
theorem mem_givenNames {name : String} (h : name ∈ lowering.givenNames command) :
    name ∈ lowering.machine.scratchNames ∨ (∃ index, name = lowering.staticSymbol index) ∨
      ∃ label ∈ command.names, name = lowering.scopedLabel label := by
  cases command with
  | push segment index =>
      cases segment with
      | statics => exact .inr (.inl ⟨index, List.mem_singleton.1 h⟩)
      | _ => cases h
  | pop segment index =>
      rcases List.mem_append.1 h with hmem | hmem
      · rw [List.mem_singleton.1 hmem]
        exact .inl List.mem_cons_self
      · split at hmem
        · exact .inr (.inl ⟨index, List.mem_singleton.1 hmem⟩)
        · cases hmem
  | goto label | ifGoto label =>
      exact .inr (.inr ⟨label, List.mem_cons_self, List.mem_singleton.1 h⟩)
  | ret => exact .inl h
  | arith op | label name | function name locals | call name args => cases h

section

variable (hunit : Source.isSymbol lowering.unit = true) (hscope : lowering.scope.Symbolic)
  (hnames : ∀ name ∈ command.names, Source.isSymbol name = true)
include hunit hscope hnames

omit hunit in
theorem not_isGenerated_of_mem_labelsOf (hfree : command.labelsTaken = 0) {name : String}
    (h : name ∈ lowering.labelsOf command) : ¬ IsGenerated name := by
  cases command with
  | arith op =>
      cases op with
      | eq | gt | lt => cases hfree
      | _ => cases h
  | label label =>
      rw [List.mem_singleton.1 h]
      exact not_isGenerated_scopedLabel hscope (hnames label List.mem_cons_self)
  | function function locals =>
      rw [List.mem_singleton.1 h]
      exact not_isGenerated_of_isSymbol (hnames function List.mem_cons_self)
  | call function args => cases hfree
  | push _ _ | pop _ _ | goto _ | ifGoto _ | ret => cases h

/-- The code of a command that takes no label has none of its own. -/
theorem Lowers.renumbered_self (h : lowering.Lowers command code)
    (hfree : command.labelsTaken = 0) (limit : Nat) (raise : Nat → Nat) :
    Code.Renumbered lowering.machine.scratchNames limit raise code code := by
  have hlabels : ∀ name ∈ Code.labels code, ¬ IsGenerated name := by
    rw [h.labels_eq]
    exact fun name hname => not_isGenerated_of_mem_labelsOf hscope hnames hfree hname
  refine Code.renumbered_self hlabels fun name hname => ?_
  rcases h.mem_loads hname with hmem | hmem | hmem | ⟨hgenerated, hmem⟩
  · exact .inl (not_isGenerated_of_mem_stackRegisters hmem)
  · rcases mem_givenNames hmem with hscratch | ⟨index, rfl⟩ | ⟨label, hlabel, rfl⟩
    · exact .inr hscratch
    · exact .inl (not_isGenerated_staticSymbol hunit index)
    · exact .inl (not_isGenerated_scopedLabel hscope (hnames label hlabel))
  · exact .inl (not_isGenerated_of_isSymbol (hnames name hmem))
  · exact absurd hgenerated (hlabels name hmem)

end

theorem renumbers_freshLabel (given : List String) (shift : Nat) {limit : Nat}
    (purpose : LabelPurpose) {number : UInt32}
    (hlimit : lowering.labels.toNat + number.toNat ≤ limit) :
    Renumbers given limit (raisedBy shift) (lowering.freshLabel purpose number)
      ((lowering.ahead shift).freshLabel purpose number) := by
  have hsum : (lowering.labels + number).toNat ≤ limit :=
    Nat.le_trans (UInt32.toNat_add _ _ ▸ Nat.mod_le _ _) hlimit
  have hnumber : (lowering.labels + UInt32.ofNat shift + number).toNat =
      raisedBy shift (lowering.labels + number).toNat := by
    simp only [raisedBy, UInt32.toNat_add, UInt32.toNat_ofNat', UInt32.size]
    omega
  have hfresh : (lowering.ahead shift).freshLabel purpose number =
      generatedLabel purpose (raisedBy shift (lowering.labels + number).toNat) :=
    congrArg (generatedLabel purpose) hnumber
  rw [hfresh]
  exact .generated purpose hsum

/-- A lowering that is ahead has code for the same commands. -/
theorem exists_lowers_ahead_iff {shift : Nat} :
    (∃ code, (lowering.ahead shift).Lowers command code) ↔ ∃ code, lowering.Lowers command code := by
  constructor
  · rintro ⟨code, h⟩
    cases h with
    | push hplace => exact ⟨_, .push hplace⟩
    | pop hplace => exact ⟨_, .pop hplace⟩
    | call name haccepts => exact ⟨_, .call name haccepts⟩
    | _ => exact ⟨_, by constructor⟩
  · rintro ⟨code, h⟩
    cases h with
    | push hplace => exact ⟨_, .push hplace⟩
    | pop hplace => exact ⟨_, .pop hplace⟩
    | call name haccepts => exact ⟨_, .call name haccepts⟩
    | _ => exact ⟨_, by constructor⟩

end Lowering

namespace Code

variable {given : List String} {limit : Nat} {raise : Nat → Nat}

theorem renumbered_registers {code : Code} (names : List String) (hlabels : labels code = [])
    (hloads : loads code = names) (hnames : ∀ name ∈ names, name ∈ stackRegisters) :
    Renumbered given limit raise code code := by
  subst hloads
  refine renumbered_self ?_ fun name hname => ?_
  · rw [hlabels]
    exact List.forall_mem_nil _
  · exact .inl (not_isGenerated_of_mem_stackRegisters (hnames name hname))

theorem renumbered_comparison (condition : Jump) {x y x' y' : String}
    (hx : ∀ given, Renumbers given limit raise x x') (hy : ∀ given, Renumbers given limit raise y y') :
    Renumbered given limit raise (comparison condition x y) (comparison condition x' y') := by
  have hpop : Renumbered given limit raise popD popD := renumbered_registers ["SP"] rfl rfl (by decide)
  have hunary : ∀ comp, Renumbered given limit raise (unary comp) (unary comp) :=
    fun comp => renumbered_registers ["SP"] rfl rfl (by decide)
  have hbranch : Renumbered given limit raise
      [assign toA (.pred .a), assign toD (.subD .m), load x, jumpIf .d condition]
      [assign toA (.pred .a), assign toD (.subD .m), load x', jumpIf .d condition] :=
    .compute _ _ _ (.compute _ _ _ (.load (hx given) (.compute _ _ _ .nil)))
  have hjump : Renumbered given limit raise (jumpTo y) (jumpTo y') :=
    .load (hy given) (.compute _ _ _ .nil)
  exact (((((hpop.append hbranch).append (hunary _)).append hjump).append
    (.label (hx []) .nil)).append (hunary _)).append (.label (hy []) .nil)

theorem renumbered_call {label label' name : String} (args : UInt16)
    (hlabel : ∀ given, Renumbers given limit raise label label') (hname : ¬ IsGenerated name) :
    Renumbered given limit raise (call label name args) (call label' name args) := by
  have hlabels : Renumbered given limit raise [load label, assign toD (.it .a)]
      [load label', assign toD (.it .a)] :=
    .load (hlabel given) (.compute _ _ _ .nil)
  have hpush : Renumbered given limit raise pushD pushD := renumbered_registers ["SP"] rfl rfl (by decide)
  have hsaved : Renumbered given limit raise (Pointer.saved.flatMap savePointer)
      (Pointer.saved.flatMap savePointer) :=
    renumbered_registers ["LCL", "SP", "ARG", "SP", "THIS", "SP", "THAT", "SP"] rfl rfl (by decide)
  have hjump : Renumbered given limit raise (jumpTo name) (jumpTo name) :=
    .load (.kept hname) (.compute _ _ _ .nil)
  refine ((((hlabels.append hpush).append hsaved).append ?_).append ?_).append hjump |>.append
    (.label (hlabel []) .nil)
  · exact renumbered_registers ["SP", "ARG"] rfl rfl (by decide)
  · exact renumbered_registers ["SP", "LCL"] rfl rfl (by decide)

end Code

namespace Lowering

variable {lowering : Lowering} {command : Command} {code : Code}

/-- A lowering that is ahead gives the same code, numbered higher. -/
theorem Lowers.renumbered (h : lowering.Lowers command code)
    (hunit : Source.isSymbol lowering.unit = true) (hscope : lowering.scope.Symbolic)
    (hnames : ∀ name ∈ command.names, Source.isSymbol name = true) (shift : Nat) {limit : Nat}
    (hlimit : lowering.labels.toNat + command.labelsTaken ≤ limit) :
    ∃ other, (lowering.ahead shift).Lowers command other ∧
      Code.Renumbered lowering.machine.scratchNames limit (raisedBy shift) code other := by
  have hself : command.labelsTaken = 0 →
      Code.Renumbered lowering.machine.scratchNames limit (raisedBy shift) code code :=
    fun hfree => h.renumbered_self hunit hscope hnames hfree limit _
  have hcomparison : ∀ condition, lowering.labels.toNat + 2 ≤ limit →
      Code.Renumbered lowering.machine.scratchNames limit (raisedBy shift)
        (Lowering.arith.comparison lowering condition)
        (Lowering.arith.comparison (lowering.ahead shift) condition) := by
    intro condition hlimit
    have hfirst : lowering.labels.toNat + UInt32.toNat 1 ≤ limit := Nat.le_of_succ_le hlimit
    exact Code.renumbered_comparison condition
      (fun given => renumbers_freshLabel given shift _ hfirst)
      (fun given => renumbers_freshLabel given shift _ hlimit)
  cases h with
  | arith op =>
      refine ⟨_, .arith op, ?_⟩
      cases op with
      | eq | gt | lt => exact hcomparison _ hlimit
      | _ => exact hself rfl
  | call name haccepts =>
      exact ⟨_, .call name haccepts, Code.renumbered_call _
        (fun given => renumbers_freshLabel given shift _ hlimit)
        (not_isGenerated_of_isSymbol (hnames name List.mem_cons_self))⟩
  | push hplace => exact ⟨_, .push hplace, hself rfl⟩
  | pop hplace => exact ⟨_, .pop hplace, hself rfl⟩
  | label name => exact ⟨_, .label name, hself rfl⟩
  | goto name => exact ⟨_, .goto name, hself rfl⟩
  | ifGoto name => exact ⟨_, .ifGoto name, hself rfl⟩
  | function name locals => exact ⟨_, .function name locals, hself rfl⟩
  | ret => exact ⟨_, .ret, hself rfl⟩

end Lowering

/-! ## Texts -/

/-- Give the generated label another number that a line of a text loads or defines. -/
def renumberLine (raise : Nat → Nat) : List Char → String
  | '@' :: name => "@" ++ renumber raise (String.ofList name)
  | '(' :: rest =>
      if rest.getLast? = some ')' then
        "(" ++ renumber raise (String.ofList rest.dropLast) ++ ")"
      else String.ofList ('(' :: rest)
  | line => String.ofList line

/-- Give the generated labels of a text other numbers. -/
def renumberText (raise : Nat → Nat) (text : String) : String :=
  Text.render ((Text.lines text.toList).map (renumberLine raise))

end StackVm
