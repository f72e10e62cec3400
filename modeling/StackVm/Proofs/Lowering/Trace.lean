import StackVm.Proofs.Asm.Placed
import StackVm.Proofs.Lowering.Accepted

/-! # Traces of a lowering

What a lowering does when it is asked for units, bootstraps and commands one
after the other.  Each request gives a block of code, and a refused one gives
none and changes nothing.
-/

namespace StackVm

/-- A request to a lowering. -/
inductive Request where
  | unit (name : String)
  | bootstrap (entry : String)
  | command (command : Located Command)
  deriving DecidableEq, Repr

/-- A request and the lowering that receives it. -/
structure Block where
  lowering : Lowering
  request : Request
  deriving DecidableEq, Repr

namespace Block

/-- The code of a block and the lowering after it. -/
def outcome (block : Block) : Code × Lowering :=
  match block.request with
  | .unit name => ([], block.lowering.setUnit name)
  | .bootstrap entry =>
      match block.lowering.bootstrap entry with
      | .ok code => (code, block.lowering)
      | .error _ => ([], block.lowering)
  | .command command =>
      match block.lowering.command command with
      | .ok (code, next) => (code, next)
      | .error _ => ([], block.lowering)

def code (block : Block) : Code :=
  block.outcome.1

def next (block : Block) : Lowering :=
  block.outcome.2

/-- Whether the lowering accepts the request. -/
def Accepted (block : Block) : Prop :=
  match block.request with
  | .unit _ => True
  | .bootstrap entry => block.lowering.bootstrap entry = .ok block.code
  | .command command => block.lowering.command command = .ok (block.code, block.next)

instance (block : Block) : Decidable block.Accepted :=
  match block with
  | ⟨_, .unit _⟩ => .isTrue trivial
  | ⟨lowering, .bootstrap entry⟩ =>
      decidable_of_iff ((lowering.bootstrap entry).toOption.isSome = true) <| by
        simp only [Accepted, code, outcome]
        cases lowering.bootstrap entry <;> simp [Except.toOption]
  | ⟨lowering, .command command⟩ =>
      decidable_of_iff ((lowering.command command).toOption.isSome = true) <| by
        simp only [Accepted, code, next, outcome]
        cases lowering.command command <;> simp [Except.toOption]

/-- The command of a block with the unit and the function that it stands in. -/
def site? (block : Block) : Option Site :=
  match block.request with
  | .command command => some ⟨block.lowering.unit, block.lowering.function, command.value⟩
  | _ => none

/-- What a request leaves as it was, and how it changes the current unit and function. -/
theorem next_command (lowering : Lowering) (command : Located Command) :
    (Block.mk lowering (.command command)).next = lowering.passed command.value ∨
      (Block.mk lowering (.command command)).next = lowering ∧
        Site.functionAfter lowering.function command.value = lowering.function := by
  cases h : lowering.command command with
  | ok result =>
      refine .inl ?_
      simp only [next, outcome, h]
      exact (Lowering.command_eq_ok_iff.1 h).2
  | error error =>
      refine .inr ⟨by simp only [next, outcome, h], ?_⟩
      rw [Lowering.command_eq_answer] at h
      obtain ⟨value, span⟩ := command
      cases value with
      | function name locals => cases h
      | _ => rfl

theorem code_function (lowering : Lowering) (name : String) (locals : UInt16) (span : Span) :
    (Block.mk lowering (.command ⟨.function name locals, span⟩)).code =
      Code.function name locals.toNat := by
  simp only [code, outcome, Lowering.command_eq_answer, Lowering.answer]

theorem unit_next_command (lowering : Lowering) (command : Located Command) :
    (Block.mk lowering (.command command)).next.unit = lowering.unit := by
  rcases next_command lowering command with h | ⟨h, -⟩
  · exact (congrArg Lowering.unit h).trans rfl
  · exact congrArg Lowering.unit h

theorem function_next_command (lowering : Lowering) (command : Located Command) :
    (Block.mk lowering (.command command)).next.function =
      Site.functionAfter lowering.function command.value := by
  rcases next_command lowering command with h | ⟨h, hfunction⟩ <;> rw [h]
  · rfl
  · exact hfunction.symm

@[simp] theorem next_unit (lowering : Lowering) (name : String) :
    (Block.mk lowering (.unit name)).next = lowering.setUnit name := rfl

@[simp] theorem next_bootstrap (lowering : Lowering) (entry : String) :
    (Block.mk lowering (.bootstrap entry)).next = lowering := by
  simp only [next, outcome]
  split <;> rfl

theorem machine_next (block : Block) : block.next.machine = block.lowering.machine := by
  obtain ⟨lowering, request⟩ := block
  cases request with
  | unit name => rfl
  | bootstrap entry => rw [next_bootstrap]
  | command command =>
      rcases next_command lowering command with h | ⟨h, -⟩
      · exact (congrArg Lowering.machine h).trans rfl
      · exact congrArg Lowering.machine h

end Block

namespace Lowering

/-- The blocks of consecutive requests. -/
def trace (lowering : Lowering) : List Request → List Block
  | [] => []
  | request :: rest => ⟨lowering, request⟩ :: (Block.mk lowering request).next.trace rest

/-- The lowering after consecutive requests. -/
def after (lowering : Lowering) : List Request → Lowering
  | [] => lowering
  | request :: rest => (Block.mk lowering request).next.after rest

theorem trace_append (lowering : Lowering) (xs ys : List Request) :
    lowering.trace (xs ++ ys) = lowering.trace xs ++ (lowering.after xs).trace ys := by
  induction xs generalizing lowering with
  | nil => rfl
  | cons request xs ih => simp [trace, after, ih]

theorem after_append (lowering : Lowering) (xs ys : List Request) :
    lowering.after (xs ++ ys) = (lowering.after xs).after ys := by
  induction xs generalizing lowering with
  | nil => rfl
  | cons request xs ih => simp [after, ih]

/-- The commands of a trace stand in the functions that the commands before them open. -/
theorem sites_trace_commands (lowering : Lowering) (commands : List (Located Command)) :
    (lowering.trace (commands.map .command)).filterMap Block.site? =
      Site.ofCommands lowering.unit lowering.function (commands.map (·.value)) := by
  induction commands generalizing lowering with
  | nil => rfl
  | cons command rest ih =>
      simp [trace, Site.ofCommands, Block.site?, ih, Block.unit_next_command,
        Block.function_next_command]

theorem machine_of_mem_trace {lowering : Lowering} {requests : List Request} {block : Block}
    (h : block ∈ lowering.trace requests) : block.lowering.machine = lowering.machine := by
  induction requests generalizing lowering with
  | nil => cases h
  | cons request rest ih =>
      cases h with
      | head => rfl
      | tail _ h => rw [ih h, Block.machine_next]

theorem machine_after (lowering : Lowering) (requests : List Request) :
    (lowering.after requests).machine = lowering.machine := by
  induction requests generalizing lowering with
  | nil => rfl
  | cons request rest ih => rw [after, ih, Block.machine_next]

end Lowering

/-! ## Programs -/

def SourceUnit.requests (unit : SourceUnit) : List Request :=
  .unit unit.name :: unit.commands.map .command

/-- The request for the bootstrap, if it is wanted. -/
def Options.openingRequests (options : Options) (bootstrap : Bool) : List Request :=
  if bootstrap then [.bootstrap options.entry] else []

/-- The requests that lower a program. -/
def Options.requests (options : Options) (bootstrap : Bool) (units : List SourceUnit) :
    List Request :=
  options.openingRequests bootstrap ++ units.flatMap SourceUnit.requests

/-- The lowering that a program starts with. -/
def Options.lowering (options : Options) : Lowering :=
  { machine := options.machine }

def Options.blocks (options : Options) (bootstrap : Bool) (units : List SourceUnit) :
    List Block :=
  options.lowering.trace (options.requests bootstrap units)

namespace Lowering

theorem sites_trace_units (lowering : Lowering) (units : List SourceUnit) :
    (lowering.trace (units.flatMap SourceUnit.requests)).filterMap Block.site? =
      Site.ofUnits units := by
  induction units generalizing lowering with
  | nil => rfl
  | cons unit rest ih =>
      have hunit : (lowering.trace unit.requests).filterMap Block.site? =
          Site.ofCommands unit.name none (unit.commands.map (·.value)) :=
        sites_trace_commands (lowering.setUnit unit.name) unit.commands
      simp only [Site.ofUnits, List.flatMap_cons, trace_append, List.filterMap_append] at ih ⊢
      rw [hunit, ih]

theorem request_mem_of_mem_trace {lowering : Lowering} {requests : List Request} {block : Block}
    (h : block ∈ lowering.trace requests) : block.request ∈ requests := by
  induction requests generalizing lowering with
  | nil => cases h
  | cons request rest ih =>
      cases h with
      | head => exact List.mem_cons_self
      | tail _ h => exact List.mem_cons_of_mem _ (ih h)

end Lowering

namespace Options

variable (options : Options) (units : List SourceUnit)

def openingBlocks (bootstrap : Bool) : List Block :=
  options.lowering.trace (options.openingRequests bootstrap)

def unitBlocks : List Block :=
  options.lowering.trace (units.flatMap SourceUnit.requests)

/-- The blocks of the commands alone: the start of a unit has no code. -/
def commandBlocks : List Block :=
  (options.unitBlocks units).filter (·.site?.isSome)

/-- The bootstrap leaves the lowering as it was. -/
theorem blocks_eq (bootstrap : Bool) :
    options.blocks bootstrap units = options.openingBlocks bootstrap ++ options.unitBlocks units := by
  have hafter : options.lowering.after (options.openingRequests bootstrap) = options.lowering := by
    cases bootstrap <;> simp [openingRequests, Lowering.after]
  rw [blocks, requests, Lowering.trace_append, hafter, openingBlocks, unitBlocks]

theorem request_ne_bootstrap {block : Block} (h : block ∈ options.unitBlocks units)
    (entry : String) : block.request ≠ .bootstrap entry := by
  have hrequest := Lowering.request_mem_of_mem_trace h
  intro heq
  simp [heq, SourceUnit.requests] at hrequest

theorem site_mem_ofUnits {block : Block} {site : Site} (h : block ∈ options.unitBlocks units)
    (hsite : block.site? = some site) : site ∈ Site.ofUnits units := by
  rw [← Lowering.sites_trace_units options.lowering units]
  exact List.mem_filterMap.2 ⟨block, h, hsite⟩

/-- The code of the units is the code of their commands. -/
theorem flatMap_code_unitBlocks :
    (options.unitBlocks units).flatMap Block.code =
      (options.commandBlocks units).flatMap Block.code := by
  have hcode : ∀ block ∈ options.unitBlocks units, block.site? = none → block.code = [] := by
    intro block hblock hsite
    have hrequest := options.request_ne_bootstrap units hblock
    obtain ⟨lowering, request⟩ := block
    cases request with
    | unit name => rfl
    | bootstrap entry => exact absurd rfl (hrequest entry)
    | command command => cases hsite
  rw [commandBlocks]
  generalize options.unitBlocks units = blocks at hcode ⊢
  induction blocks with
  | nil => rfl
  | cons block rest ih =>
      have hrest := ih fun other hother => hcode other (List.mem_cons_of_mem _ hother)
      cases hsite : block.site? with
      | none => simp [hsite, hrest, hcode block List.mem_cons_self hsite]
      | some site => simp [hsite, hrest]

/-- The blocks of commands have the sites of the program, in order. -/
theorem site?_commandBlocks (position : Nat) :
    (Site.ofUnits units)[position]? =
      ((options.commandBlocks units)[position]?).bind Block.site? := by
  rw [← Lowering.sites_trace_units options.lowering units, commandBlocks, unitBlocks]
  generalize options.lowering.trace (units.flatMap SourceUnit.requests) = blocks
  induction blocks generalizing position with
  | nil => rfl
  | cons block rest ih =>
      cases hsite : block.site? with
      | none => simp [hsite, ih]
      | some site =>
          cases position with
          | zero => simp [hsite]
          | succ position => simp [hsite, ih]

end Options

end StackVm
