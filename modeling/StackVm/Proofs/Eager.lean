import StackVm.Input
import StackVm.Proofs.Asm.Linking
import StackVm.Proofs.Compile

/-! # Units as a whole

The work on a program goes line by line and ends at the first fault.  Reading all
units and then lowering them, each as a whole, succeeds on the same programs with
the same text.  The two differ in the fault that they name, since a line that cannot
be read may stand behind one that cannot be lowered.
-/

namespace StackVm

structure ParsedUnit where
  name : String
  commands : List (Located Command)
  deriving DecidableEq, Repr

/-- Read a unit as a whole. -/
def SourceUnit.parse (unit : SourceUnit) : Except Error ParsedUnit :=
  (Source.commands unit.name unit.source).map (ParsedUnit.mk unit.name)

namespace Lowering

def opening (lowering : Lowering) (bootstrap : Bool) (entry : String) : Except Error Code :=
  if bootstrap then lowering.bootstrap entry else .ok []

/-- Lower whole units, one after the other: their code, and the lowering after it. -/
def units (lowering : Lowering) : List ParsedUnit → Except Error (Code × Lowering)
  | [] => .ok ([], lowering)
  | unit :: rest =>
      match lowering.unitCommands unit.name unit.commands with
      | (.error error, _) => .error error
      | (.ok code, next) => (next.units rest).map fun result => (code ++ result.1, result.2)

/--
A line of a unit that ends the work: the lines before it spell commands, which are
lowered, and the line spells none or its command is refused.
-/
def FaultyLine (lowering : Lowering) (unit : SourceUnit) (error : Error) : Prop :=
  ∃ earlier line later commands code next,
    Source.lines unit.source = earlier ++ line :: later ∧
      earlier.map (Source.item unit.name) = commands.map .ok ∧
      lowering.unitCommands unit.name commands = (.ok code, next) ∧
      (Source.item unit.name line >>= next.command) = .error error

/-- The first such line of a program: all units before its unit are read and lowered as a whole. -/
def FirstFault (lowering : Lowering) (units : List SourceUnit) (error : Error) : Prop :=
  ∃ before unit after parsed code next,
    units = before ++ unit :: after ∧
      before.mapM SourceUnit.parse = .ok parsed ∧
      lowering.units parsed = .ok (code, next) ∧
      next.FaultyLine unit error

end Lowering

/-- Compile a program by work on whole units: all are read before any is lowered. -/
def compileWhole (options : Options) (bootstrap : Bool) (units : List SourceUnit) :
    Except Error (String × Nat) := do
  let lowering ← Lowering.ofOptions options
  let opening ← lowering.opening bootstrap options.entry
  let parsed ← units.mapM SourceUnit.parse
  let (code, _) ← lowering.units parsed
  return (Text.render ((opening ++ code).map Asm.Line.text),
    (parsed.flatMap ParsedUnit.commands).length)

/-! ## Reading -/

theorem Session.eq_map_ok_iff {items : List Source.Item} {commands : List (Located Command)} :
    items = commands.map .ok ↔
      AllCommands items ∧ commands = items.filterMap Except.toOption := by
  constructor
  · rintro rfl
    refine ⟨by simp [AllCommands], ?_⟩
    have hcomp : Except.toOption ∘ (Except.ok : Located Command → Source.Item) = some := rfl
    rw [List.filterMap_map, hcomp, List.filterMap_some]
  · rintro ⟨hall, rfl⟩
    induction items with
    | nil => rfl
    | cons item rest ih =>
        obtain ⟨command, rfl⟩ := hall _ List.mem_cons_self
        have hrest := ih fun other hother => hall other (List.mem_cons_of_mem _ hother)
        exact congrArg (Except.ok command :: ·) hrest

namespace SourceUnit

/-- The commands of a unit, past faults. -/
def parsed (unit : SourceUnit) : ParsedUnit :=
  ⟨unit.name, unit.commands⟩

theorem parse_eq_ok_iff {unit : SourceUnit} {result : ParsedUnit} :
    unit.parse = .ok result ↔
      Session.AllCommands (Source.items unit.name unit.source) ∧ result = unit.parsed := by
  have hcommands : ∀ commands, Source.commands unit.name unit.source = .ok commands ↔
      Session.AllCommands (Source.items unit.name unit.source) ∧ commands = unit.commands := by
    intro commands
    rw [Source.commands, Source.collect, Asm.mapM_eq_ok_iff, List.map_id, Session.eq_map_ok_iff,
      SourceUnit.commands]
  constructor
  · intro h
    cases hread : Source.commands unit.name unit.source with
    | error error => simp [parse, hread, Except.map] at h
    | ok commands =>
        obtain ⟨hall, rfl⟩ := (hcommands commands).1 hread
        rw [parse, hread] at h
        cases h
        exact ⟨hall, rfl⟩
  · rintro ⟨hall, rfl⟩
    rw [parse, (hcommands unit.commands).2 ⟨hall, rfl⟩]
    rfl

theorem mapM_parse_eq_ok_iff {units : List SourceUnit} {results : List ParsedUnit} :
    units.mapM parse = .ok results ↔
      (∀ unit ∈ units, Session.AllCommands (Source.items unit.name unit.source)) ∧
        results = units.map parsed := by
  rw [Asm.mapM_eq_ok_iff]
  induction units generalizing results with
  | nil => simp [eq_comm]
  | cons unit rest ih =>
      cases results with
      | nil => simp
      | cons result others =>
          simp only [List.map_cons, List.cons.injEq, parse_eq_ok_iff, ih, List.forall_mem_cons]
          exact and_and_and_comm

end SourceUnit

/-! ## Lowering -/

def ParsedUnit.requests (unit : ParsedUnit) : List Request :=
  .unit unit.name :: unit.commands.map .command

namespace Lowering

variable {lowering next : Lowering} {code : Code}

/-- All requests are accepted; their code, and the lowering after them. -/
structure Accepts (lowering : Lowering) (requests : List Request) (code : Code)
    (next : Lowering) : Prop where
  accepted : ∀ block ∈ lowering.trace requests, block.Accepted
  code : code = (lowering.trace requests).flatMap Block.code
  next : next = lowering.after requests

theorem accepts_nil : lowering.Accepts [] code next ↔ code = [] ∧ next = lowering := by
  constructor
  · rintro ⟨-, hcode, hnext⟩
    exact ⟨hcode, hnext⟩
  · rintro ⟨hcode, hnext⟩
    exact ⟨by simp [trace], hcode, hnext⟩

theorem accepts_singleton {request : Request} :
    lowering.Accepts [request] code next ↔
      (Block.mk lowering request).Accepted ∧ (Block.mk lowering request).outcome = (code, next) := by
  constructor
  · rintro ⟨haccepted, rfl, rfl⟩
    exact ⟨haccepted _ List.mem_cons_self, by simp [trace, after, Block.code, Block.next]⟩
  · rintro ⟨haccepted, houtcome⟩
    refine ⟨by simpa [trace] using haccepted, ?_, ?_⟩ <;>
      simp [trace, after, Block.code, Block.next, houtcome]

theorem accepts_unit {name : String} :
    lowering.Accepts [.unit name] code next ↔ code = [] ∧ next = lowering.setUnit name := by
  simp [accepts_singleton, Block.Accepted, Block.outcome, eq_comm]

theorem accepts_bootstrap {entry : String} :
    lowering.Accepts [.bootstrap entry] code next ↔
      lowering.bootstrap entry = .ok code ∧ next = lowering := by
  rw [accepts_singleton]
  cases h : lowering.bootstrap entry <;>
    simp [Block.Accepted, Block.code, Block.outcome, h, eq_comm]

theorem accepts_command {command : Located Command} :
    lowering.Accepts [.command command] code next ↔
      lowering.command command = .ok (code, next) := by
  rw [accepts_singleton]
  cases h : lowering.command command <;>
    simp [Block.Accepted, Block.code, Block.next, Block.outcome, h, Prod.ext_iff]

theorem accepts_append {xs ys : List Request} :
    lowering.Accepts (xs ++ ys) code next ↔
      ∃ head middle tail, lowering.Accepts xs head middle ∧ middle.Accepts ys tail next ∧
        code = head ++ tail := by
  constructor
  · rintro ⟨haccepted, rfl, rfl⟩
    rw [trace_append, List.forall_mem_append] at haccepted
    refine ⟨_, _, _, ⟨haccepted.1, rfl, rfl⟩, ⟨haccepted.2, rfl, after_append _ _ _⟩, ?_⟩
    rw [trace_append, List.flatMap_append]
  · rintro ⟨_, _, _, ⟨hxs, rfl, rfl⟩, ⟨hys, rfl, rfl⟩, rfl⟩
    refine ⟨?_, ?_, (after_append _ _ _).symm⟩
    · rw [trace_append, List.forall_mem_append]
      exact ⟨hxs, hys⟩
    · rw [trace_append, List.flatMap_append]

theorem accepts_cons {request : Request} {rest : List Request} :
    lowering.Accepts (request :: rest) code next ↔
      ∃ head middle tail, lowering.Accepts [request] head middle ∧ middle.Accepts rest tail next ∧
        code = head ++ tail := by
  rw [← List.singleton_append, accepts_append]

/-- An emitter puts out the code of commands as long as each is accepted where it stands. -/
theorem forM_command_eq_ok_iff {commands : List (Located Command)} {out : Array Asm.Line}
    {after : Emitter} :
    commands.forM Emitter.command ⟨lowering, out⟩ = .ok () after ↔
      ∃ code, lowering.Accepts (commands.map .command) code after.lowering ∧
        after.out = out ++ code := by
  obtain ⟨next, written⟩ := after
  induction commands generalizing lowering out with
  | nil =>
      simp only [List.map_nil, accepts_nil]
      constructor
      · rintro ⟨⟩
        exact ⟨[], ⟨rfl, rfl⟩, Array.appendList_nil.symm⟩
      · rintro ⟨_, ⟨rfl, rfl⟩, hout⟩
        rw [Array.appendList_nil] at hout
        cases hout
        rfl
  | cons first rest ih =>
      have hcommand := Emitter.command_eq ⟨lowering, out⟩ first
      have haccepts : ∀ code, lowering.Accepts (.command first :: rest.map .command) code next ↔
          ∃ head middle tail, lowering.command first = .ok (head, middle) ∧
            middle.Accepts (rest.map .command) tail next ∧ code = head ++ tail := by
        intro code
        rw [accepts_cons]
        simp only [accepts_command]
      simp only [List.map_cons, haccepts]
      change (Emitter.command first >>= fun _ => rest.forM Emitter.command) ⟨lowering, out⟩ = _ ↔ _
      cases hfirst : lowering.command first with
      | error error =>
          rw [hfirst] at hcommand
          rw [Staged.bind_of_error hcommand]
          constructor
          · rintro ⟨⟩
          · rintro ⟨_, ⟨_, _, _, ⟨⟩, _⟩, _⟩
      | ok answer =>
          obtain ⟨head, middle⟩ := answer
          rw [hfirst] at hcommand
          rw [Staged.bind_of_ok hcommand, ih]
          constructor
          · rintro ⟨tail, hrest, hout⟩
            exact ⟨_, ⟨head, middle, tail, rfl, hrest, rfl⟩, hout.trans (Emitter.append_append _ _ _)⟩
          · rintro ⟨_, ⟨_, _, tail, ⟨⟩, hrest, rfl⟩, hout⟩
            exact ⟨tail, hrest, hout.trans (Emitter.append_append _ _ _).symm⟩

/-- Commands are lowered as a whole if each is accepted where it stands. -/
theorem commands_eq_ok_iff {commands : List (Located Command)} :
    lowering.commands commands = (.ok code, next) ↔
      lowering.Accepts (commands.map .command) code next := by
  have hwhole : lowering.commands commands = (.ok code, next) ↔
      commands.forM Emitter.command ⟨lowering, #[]⟩ = .ok () ⟨next, code.toArray⟩ := by
    rw [Lowering.commands]
    cases commands.forM Emitter.command ⟨lowering, #[]⟩ with
    | error error after => exact ⟨nofun, nofun⟩
    | ok _ after =>
        constructor
        · rintro ⟨⟩
          rfl
        · rintro ⟨⟩
          rfl
  rw [hwhole, forM_command_eq_ok_iff]
  constructor
  · rintro ⟨accepted, haccepts, hout⟩
    rw [← Array.toList_inj, Array.toList_appendList] at hout
    exact (show code = accepted from hout) ▸ haccepts
  · intro haccepts
    exact ⟨code, haccepts, Array.ext' (by rw [Array.toList_appendList]; rfl)⟩

theorem unitCommands_eq_ok_iff {unit : ParsedUnit} :
    lowering.unitCommands unit.name unit.commands = (.ok code, next) ↔
      lowering.Accepts unit.requests code next := by
  rw [unitCommands, commands_eq_ok_iff, ParsedUnit.requests, accepts_cons]
  simp only [accepts_unit]
  constructor
  · exact fun h => ⟨[], _, code, ⟨rfl, rfl⟩, h, rfl⟩
  · rintro ⟨_, _, _, ⟨rfl, rfl⟩, h, rfl⟩
    exact h

theorem units_cons_eq_ok_iff {first : ParsedUnit} {rest : List ParsedUnit} :
    lowering.units (first :: rest) = .ok (code, next) ↔
      ∃ head middle tail, lowering.unitCommands first.name first.commands = (.ok head, middle) ∧
        middle.units rest = .ok (tail, next) ∧ code = head ++ tail := by
  cases hfirst : lowering.unitCommands first.name first.commands with
  | mk answer middle =>
      cases answer with
      | error error => simp [units, hfirst]
      | ok head =>
          simp only [units, hfirst]
          constructor
          · intro h
            cases hrest : middle.units rest with
            | error error => simp [hrest, Except.map] at h
            | ok result =>
                rw [hrest] at h
                cases h
                exact ⟨head, middle, result.1, rfl, hrest, rfl⟩
          · rintro ⟨_, _, tail, ⟨⟩, hrest, rfl⟩
            rw [hrest]
            rfl

/-- Units are lowered as a whole if each of their commands is accepted where it stands. -/
theorem units_eq_ok_iff {units : List ParsedUnit} :
    lowering.units units = .ok (code, next) ↔
      lowering.Accepts (units.flatMap ParsedUnit.requests) code next := by
  induction units generalizing lowering code with
  | nil => simp [Lowering.units, accepts_nil, eq_comm]
  | cons first rest ih =>
      rw [List.flatMap_cons, accepts_append]
      simp only [units_cons_eq_ok_iff, unitCommands_eq_ok_iff, ih]

theorem opening_eq_ok_iff {options : Options} {bootstrap : Bool} :
    lowering.opening bootstrap options.entry = .ok code ∧ next = lowering ↔
      lowering.Accepts (options.openingRequests bootstrap) code next := by
  cases bootstrap with
  | false => simp [opening, Options.openingRequests, accepts_nil, eq_comm]
  | true => simp [opening, Options.openingRequests, accepts_bootstrap]

end Lowering

/-! ## Line by line -/

namespace Plan

variable {lowering : Lowering} {made : List Request} {error : Error}

theorem andThen_eq_ok_iff {first second : Plan} :
    (first.andThen second).requests lowering = .ok made ↔
      ∃ xs ys, first.requests lowering = .ok xs ∧
        second.requests (lowering.after xs) = .ok ys ∧ made = xs ++ ys := by
  simp only [andThen, bind_eq_ok_iff]
  constructor
  · rintro ⟨xs, hxs, ys, hys, ⟨⟩⟩
    exact ⟨xs, ys, hxs, hys, rfl⟩
  · rintro ⟨xs, ys, hxs, hys, rfl⟩
    exact ⟨xs, hxs, ys, hys, rfl⟩

theorem andThen_eq_error_iff {first second : Plan} :
    (first.andThen second).requests lowering = .error error ↔
      first.requests lowering = .error error ∨
        ∃ xs, first.requests lowering = .ok xs ∧
          second.requests (lowering.after xs) = .error error := by
  cases hfirst : first.requests lowering with
  | error other => simp [andThen, hfirst, bind, Except.bind]
  | ok xs =>
      cases hsecond : second.requests (lowering.after xs) <;>
        simp [andThen, hfirst, hsecond, bind, Except.bind, pure, Except.pure]

/-- Plans that are followed one by one end at the first that ends the work. -/
theorem sequence_eq_error_iff {α : Type} {plan : α → Plan} {list : List α} :
    (sequence (list.map plan)).requests lowering = .error error ↔
      ∃ before last after made, list = before ++ last :: after ∧
        (sequence (before.map plan)).requests lowering = .ok made ∧
        (plan last).requests (lowering.after made) = .error error := by
  induction list generalizing lowering with
  | nil => simp [sequence, done]
  | cons first rest ih =>
      rw [List.map_cons, sequence, andThen_eq_error_iff]
      constructor
      · rintro (herror | ⟨xs, hxs, herror⟩)
        · exact ⟨[], first, rest, [], rfl, rfl, herror⟩
        · obtain ⟨before, last, after, ys, rfl, hys, herror⟩ := ih.1 herror
          refine ⟨first :: before, last, after, xs ++ ys, rfl, ?_, ?_⟩
          · exact andThen_eq_ok_iff.2 ⟨xs, ys, hxs, hys, rfl⟩
          · rwa [Lowering.after_append]
      · rintro ⟨before, last, after, made, hsplit, hmade, herror⟩
        cases before with
        | nil =>
            cases hsplit
            cases hmade
            exact .inl herror
        | cons other before =>
            cases hsplit
            obtain ⟨xs, ys, hxs, hys, rfl⟩ := andThen_eq_ok_iff.1 hmade
            rw [Lowering.after_append] at herror
            exact .inr ⟨xs, hxs, ih.2 ⟨before, last, after, ys, rfl, hys, herror⟩⟩

theorem item_eq_error_iff {entry : Source.Item} :
    (item entry).requests lowering = .error error ↔
      (entry >>= lowering.command) = .error error := by
  cases entry with
  | error other =>
      change Except.error other = _ ↔ Except.error other = _
      rw [Except.error.injEq, Except.error.injEq]
  | ok command =>
      change _ ↔ lowering.command command = .error error
      cases h : lowering.command command <;> simp [item, request, Block.refusal?, h]

theorem items_eq_ok_iff {list : List Source.Item} :
    (items list).requests lowering = .ok made ↔
      ∃ commands code next, list = commands.map .ok ∧
        lowering.commands commands = (.ok code, next) ∧ made = commands.map .command := by
  rw [asks_items]
  simp only [Session.eq_map_ok_iff, Lowering.commands_eq_ok_iff]
  constructor
  · rintro ⟨hall, haccepted, rfl⟩
    exact ⟨_, _, _, ⟨hall, rfl⟩, ⟨haccepted, rfl, rfl⟩, rfl⟩
  · rintro ⟨_, _, _, ⟨hall, rfl⟩, ⟨haccepted, -, -⟩, rfl⟩
    exact ⟨hall, haccepted, rfl⟩

theorem units_eq_ok_iff {list : List SourceUnit} :
    (units list).requests lowering = .ok made ↔
      ∃ parsed code next, list.mapM SourceUnit.parse = .ok parsed ∧
        lowering.units parsed = .ok (code, next) ∧ made = parsed.flatMap ParsedUnit.requests := by
  rw [asks_units]
  have hrequests : list.flatMap SourceUnit.requests =
      (list.map SourceUnit.parsed).flatMap ParsedUnit.requests := by
    rw [List.flatMap_map]
    rfl
  simp only [SourceUnit.mapM_parse_eq_ok_iff, Lowering.units_eq_ok_iff, hrequests]
  constructor
  · rintro ⟨hall, haccepted, rfl⟩
    exact ⟨_, _, _, ⟨hall, rfl⟩, ⟨haccepted, rfl, rfl⟩, rfl⟩
  · rintro ⟨_, _, _, ⟨hall, rfl⟩, ⟨haccepted, -, -⟩, rfl⟩
    exact ⟨hall, haccepted, rfl⟩

theorem unit_eq_error_iff {source : SourceUnit} :
    (unit source).requests lowering = .error error ↔ lowering.FaultyLine source error := by
  have hunit : (unit source).requests lowering = .error error ↔
      (items (Source.items source.name source.source)).requests
        (lowering.setUnit source.name) = .error error := by
    rw [unit, andThen_eq_error_iff]
    constructor
    · rintro (h | ⟨xs, ⟨⟩, h⟩)
      · cases h
      · exact h
    · exact fun h => .inr ⟨_, rfl, h⟩
  rw [hunit, items, Source.items, List.map_map, sequence_eq_error_iff]
  constructor
  · rintro ⟨earlier, line, later, made, hsplit, hmade, herror⟩
    rw [← List.map_map] at hmade
    obtain ⟨commands, code, next, hcommands, hcode, rfl⟩ := items_eq_ok_iff.1 hmade
    have hnext := (Lowering.commands_eq_ok_iff.1 hcode).next
    rw [← hnext] at herror
    exact ⟨earlier, line, later, commands, code, next, hsplit, hcommands, hcode,
      item_eq_error_iff.1 herror⟩
  · rintro ⟨earlier, line, later, commands, code, next, hsplit, hcommands, hcode, herror⟩
    have hnext := (Lowering.commands_eq_ok_iff.1 hcode).next
    refine ⟨earlier, line, later, commands.map .command, hsplit, ?_, ?_⟩
    · rw [← List.map_map]
      exact items_eq_ok_iff.2 ⟨commands, code, next, hcommands, hcode, rfl⟩
    · rw [← hnext]
      exact item_eq_error_iff.2 herror

theorem units_eq_error_iff {list : List SourceUnit} :
    (units list).requests lowering = .error error ↔ lowering.FirstFault list error := by
  rw [units, sequence_eq_error_iff]
  constructor
  · rintro ⟨before, unit, after, made, hsplit, hmade, herror⟩
    obtain ⟨parsed, code, next, hparsed, hcode, rfl⟩ := units_eq_ok_iff.1 hmade
    have hnext := (Lowering.units_eq_ok_iff.1 hcode).next
    rw [← hnext] at herror
    exact ⟨before, unit, after, parsed, code, next, hsplit, hparsed, hcode,
      unit_eq_error_iff.1 herror⟩
  · rintro ⟨before, unit, after, parsed, code, next, hsplit, hparsed, hcode, herror⟩
    have hnext := (Lowering.units_eq_ok_iff.1 hcode).next
    refine ⟨before, unit, after, parsed.flatMap ParsedUnit.requests, hsplit, ?_, ?_⟩
    · exact units_eq_ok_iff.2 ⟨parsed, code, next, hparsed, hcode, rfl⟩
    · rw [← hnext]
      exact unit_eq_error_iff.2 herror

theorem requests_opening (options : Options) (bootstrap : Bool) :
    (opening bootstrap options.entry).requests lowering =
      (lowering.opening bootstrap options.entry).map fun _ =>
        options.openingRequests bootstrap := by
  cases bootstrap with
  | false => rfl
  | true =>
      change (request (.bootstrap options.entry)).requests lowering =
        (lowering.bootstrap options.entry).map fun _ => [.bootstrap options.entry]
      cases h : lowering.bootstrap options.entry <;>
        simp [request, Block.refusal?, h, Except.map]

end Plan

/-! ## Programs -/

theorem Block.render_false (blocks : List Block) :
    render false blocks = Text.render ((blocks.flatMap code).map Asm.Line.text) := by
  have hlines : lines false = code := by
    funext block
    cases hremark : block.remark? <;> simp [lines, hremark]
  rw [render, hlines]

theorem ParsedUnit.filterMap_requests (units : List ParsedUnit) :
    (units.flatMap requests).filterMap Request.command? = units.flatMap commands := by
  have hunit : ∀ unit : ParsedUnit, unit.requests.filterMap Request.command? = unit.commands := by
    intro unit
    have hcommand : Request.command? ∘ Request.command = some := rfl
    rw [requests, List.filterMap_cons_none rfl, List.filterMap_map, hcommand, List.filterMap_some]
  simp only [List.filterMap_flatMap, hunit]

namespace Options

variable {options : Options} {bootstrap : Bool} {units : List SourceUnit}

/-- The work on whole units, all of whose steps succeed. -/
structure Whole (options : Options) (bootstrap : Bool) (units : List SourceUnit) where
  opening : Code
  parsed : List ParsedUnit
  code : Code
  next : Lowering
  opened : options.lowering.opening bootstrap options.entry = .ok opening
  read : units.mapM SourceUnit.parse = .ok parsed
  lowered : options.lowering.units parsed = .ok (code, next)

namespace Whole

def requests (whole : options.Whole bootstrap units) : List Request :=
  options.openingRequests bootstrap ++ whole.parsed.flatMap ParsedUnit.requests

/-- The text of a program and the number of its commands. -/
def result (whole : options.Whole bootstrap units) : String × Nat :=
  (Text.render ((whole.opening ++ whole.code).map Asm.Line.text),
    (whole.parsed.flatMap ParsedUnit.commands).length)

variable (whole : options.Whole bootstrap units)

theorem accepts :
    options.lowering.Accepts whole.requests (whole.opening ++ whole.code) whole.next :=
  Lowering.accepts_append.2 ⟨whole.opening, _, whole.code,
    Lowering.opening_eq_ok_iff.1 ⟨whole.opened, rfl⟩, Lowering.units_eq_ok_iff.1 whole.lowered, rfl⟩

theorem result_eq :
    (Block.render false (options.lowering.trace whole.requests),
      (whole.requests.filterMap Request.command?).length) = whole.result := by
  have hopening : (options.openingRequests bootstrap).filterMap Request.command? = [] := by
    cases bootstrap <;> rfl
  rw [Block.render_false, ← whole.accepts.code, requests, List.filterMap_append, hopening,
    List.nil_append, ParsedUnit.filterMap_requests]
  rfl

end Whole

theorem plan_eq_ok_iff_whole {made : List Request} (htarget : options.target = "hack") :
    options.plan bootstrap units = .ok made ↔
      ∃ whole : options.Whole bootstrap units, made = whole.requests := by
  rw [plan_of_target htarget, Plan.andThen_eq_ok_iff, Plan.requests_opening]
  constructor
  · rintro ⟨_, ys, hxs, hys, rfl⟩
    cases hopening : options.lowering.opening bootstrap options.entry with
    | error error => simp [hopening, Except.map] at hxs
    | ok opening =>
        rw [hopening] at hxs
        cases hxs
        rw [← (Lowering.opening_eq_ok_iff.1 ⟨hopening, rfl⟩).next] at hys
        obtain ⟨parsed, code, next, hparsed, hcode, rfl⟩ := Plan.units_eq_ok_iff.1 hys
        exact ⟨⟨opening, parsed, code, next, hopening, hparsed, hcode⟩, rfl⟩
  · rintro ⟨⟨opening, parsed, code, next, hopening, hparsed, hcode⟩, rfl⟩
    rw [hopening]
    refine ⟨_, _, rfl, ?_, rfl⟩
    rw [← (Lowering.opening_eq_ok_iff.1 ⟨hopening, rfl⟩).next]
    exact Plan.units_eq_ok_iff.2 ⟨parsed, code, next, hparsed, hcode, rfl⟩

theorem plan_eq_error_iff {error : Error} (htarget : options.target = "hack") :
    options.plan bootstrap units = .error error ↔
      options.lowering.opening bootstrap options.entry = .error error ∨
        ∃ opening, options.lowering.opening bootstrap options.entry = .ok opening ∧
          options.lowering.FirstFault units error := by
  rw [plan_of_target htarget, Plan.andThen_eq_error_iff, Plan.requests_opening]
  cases hopening : options.lowering.opening bootstrap options.entry with
  | error error => simp [Except.map]
  | ok opening =>
      have hafter := (Lowering.opening_eq_ok_iff.1 ⟨hopening, rfl⟩).next
      simp [Except.map, ← hafter, Plan.units_eq_error_iff]

end Options

section

variable {options : Options} {bootstrap : Bool} {units : List SourceUnit}

theorem compileWhole_eq_ok_iff {result : String × Nat} (htarget : options.target = "hack") :
    compileWhole options bootstrap units = .ok result ↔
      ∃ whole : options.Whole bootstrap units, whole.result = result := by
  simp only [compileWhole, Options.ofOptions_eq htarget, bind_eq_ok_iff]
  constructor
  · rintro ⟨_, ⟨⟩, opening, hopening, parsed, hparsed, lowered, hcode, ⟨⟩⟩
    exact ⟨⟨opening, parsed, lowered.1, lowered.2, hopening, hparsed, hcode⟩, rfl⟩
  · rintro ⟨⟨opening, parsed, code, next, hopening, hparsed, hcode⟩, rfl⟩
    exact ⟨_, rfl, opening, hopening, parsed, hparsed, _, hcode, rfl⟩

theorem compileWith_eq_ok_iff_compileWhole {result : String × Nat}
    (hplain : options.annotate = false) :
    compileWith options bootstrap units = .ok result ↔
      compileWhole options bootstrap units = .ok result := by
  have hwith : compileWith options bootstrap units = .ok result ↔
      ∃ made, options.plan bootstrap units = .ok made ∧
        (Block.render false (options.lowering.trace made),
          (made.filterMap Request.command?).length) = result := by
    rw [compileWith_eq, hplain]
    cases options.plan bootstrap units <;> simp [Except.map]
  rw [hwith]
  by_cases htarget : options.target = "hack"
  · simp only [Options.plan_eq_ok_iff_whole htarget, compileWhole_eq_ok_iff htarget]
    constructor
    · rintro ⟨_, ⟨whole, rfl⟩, rfl⟩
      exact ⟨whole, whole.result_eq.symm⟩
    · rintro ⟨whole, rfl⟩
      exact ⟨_, ⟨whole, rfl⟩, whole.result_eq⟩
  · simp [Options.plan_of_target_ne htarget, compileWhole, Lowering.ofOptions, htarget, bind,
      Except.bind]

theorem compileWith_eq_error_iff {error : Error} :
    compileWith options bootstrap units = .error error ↔
      options.target ≠ "hack" ∧ error = .unknownTarget options.target ∨
        ∃ lowering, Lowering.ofOptions options = .ok lowering ∧
          (lowering.opening bootstrap options.entry = .error error ∨
            ∃ opening, lowering.opening bootstrap options.entry = .ok opening ∧
              lowering.FirstFault units error) := by
  have hwith : compileWith options bootstrap units = .error error ↔
      options.plan bootstrap units = .error error := by
    rw [compileWith_eq]
    cases options.plan bootstrap units <;> simp [Except.map]
  rw [hwith]
  by_cases htarget : options.target = "hack"
  · simp [Options.plan_eq_error_iff htarget, htarget, Options.ofOptions_eq htarget]
  · simp [Options.plan_of_target_ne htarget, Lowering.ofOptions, htarget, eq_comm]

theorem Input.check_eq (input : Input) :
    input.check options =
      (compileWith options (options.bootstrap.enabled input.isDirectory) input.units).map
        Prod.snd := by
  rw [compileWith_eq]
  change (drive ({} : Discard) options _ input.units).map Prod.snd = _
  rw [map_snd_drive options _ input.units (Discard.tireless {})]
  cases options.plan (options.bootstrap.enabled input.isDirectory) input.units <;> rfl

end

/--
Without comments, line by line and on whole units the same programs compile to the same text.  A
program that does not compile has the error of its target, else of its bootstrap, else of its first
faulty line.  Checking it gives the same number of commands or the same error.
-/
theorem compileWith_whole (options : Options) (bootstrap : Bool) (units : List SourceUnit)
    (hplain : options.annotate = false) :
    (∀ result, compileWith options bootstrap units = .ok result ↔
        compileWhole options bootstrap units = .ok result) ∧
      (∀ error, compileWith options bootstrap units = .error error ↔
        options.target ≠ "hack" ∧ error = .unknownTarget options.target ∨
          ∃ lowering, Lowering.ofOptions options = .ok lowering ∧
            (lowering.opening bootstrap options.entry = .error error ∨
              ∃ opening, lowering.opening bootstrap options.entry = .ok opening ∧
                lowering.FirstFault units error)) ∧
      ∀ input : Input, input.units = units →
        options.bootstrap.enabled input.isDirectory = bootstrap →
          input.check options = (compileWith options bootstrap units).map Prod.snd := by
  refine ⟨fun _ => compileWith_eq_ok_iff_compileWhole hplain,
    fun _ => compileWith_eq_error_iff, ?_⟩
  rintro input rfl rfl
  exact input.check_eq

namespace Sample

/-- A command that is refused, and after it two lines that cannot be read. -/
def faultyUnits : List SourceUnit :=
  [⟨"Main", "push constant 1\npop constant 0\npull"⟩, ⟨"Other", "jump"⟩]

def refusedError : Error :=
  .invalidSegment "Main" ⟨2, 16, 30⟩ "constant" .constantTarget

theorem whole_faulty :
    ({} : Options).annotate = false ∧
      faultyUnits.mapM SourceUnit.parse =
        .error (.malformedCommand "Main" ⟨3, 31, 35⟩ (.unknownVerb "pull")) ∧
      compileWith {} true faultyUnits = .error refusedError ∧
      ({} : Options).lowering.FirstFault faultyUnits refusedError := by
  have herror : compileWith {} true faultyUnits = .error refusedError := by
    rw [compileWith_eq]
    rfl
  refine ⟨rfl, rfl, herror, ?_⟩
  rcases ((compileWith_whole {} true faultyUnits rfl).2.1 refusedError).1 herror with
    ⟨htarget, -⟩ | ⟨_, ⟨⟩, hopening | ⟨opening, -, hfault⟩⟩
  · exact absurd rfl htarget
  · cases hopening
  · exact hfault

end Sample

end StackVm
