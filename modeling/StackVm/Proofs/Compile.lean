import StackVm.Proofs.Names
import StackVm.Proofs.Session

/-! # The text of a compiled program

What the work on a program asks of the lowering, line by line, is a plan: requests
that are all accepted, or the error that ends the work.  Plans know nothing of sinks
and comments.  A program compiles to the text of the blocks of its plan.
-/

namespace StackVm

/-! ## Plans -/

/-- Requests that a lowering accepts one after the other, or the error that ends the work. -/
structure Plan where
  requests : Lowering → Except Error (List Request)
  accepted : ∀ {lowering : Lowering} {made : List Request}, requests lowering = .ok made →
    ∀ block ∈ lowering.trace made, block.Accepted

namespace Plan

variable {lowering : Lowering} {made : List Request} {error : Error}

/-- Ask for nothing. -/
def done : Plan where
  requests _ := .ok []
  accepted := by
    rintro lowering made ⟨⟩
    simp [Lowering.trace]

/-- End the work. -/
def stop (error : Error) : Plan where
  requests _ := .error error
  accepted h := by cases h

/-- Make one request. -/
def request (request : Request) : Plan where
  requests lowering :=
    match (Block.mk lowering request).refusal? with
    | some error => .error error
    | none => .ok [request]
  accepted := by
    intro lowering made h
    split at h
    · cases h
    · next hrefusal =>
        cases h
        simpa [Lowering.trace] using Block.accepted_iff.2 hrefusal

/-- Follow two plans, one after the other. -/
def andThen (first second : Plan) : Plan where
  requests lowering := do
    let xs ← first.requests lowering
    let ys ← second.requests (lowering.after xs)
    return xs ++ ys
  accepted := by
    intro lowering made h
    obtain ⟨xs, hxs, h⟩ := bind_eq_ok_iff.1 h
    obtain ⟨ys, hys, h⟩ := bind_eq_ok_iff.1 h
    cases h
    rw [Lowering.trace_append, List.forall_mem_append]
    exact ⟨first.accepted hxs, second.accepted hys⟩

/-- Follow plans one by one. -/
def sequence : List Plan → Plan
  | [] => done
  | first :: rest => first.andThen (sequence rest)

/-- Lower an item, or end the work at its fault. -/
def item : Source.Item → Plan
  | .error error => stop error
  | .ok command => request (.command command)

/-- Read and lower items one by one. -/
def items (list : List Source.Item) : Plan :=
  sequence (list.map item)

/-- Read and lower a unit. -/
def unit (unit : SourceUnit) : Plan :=
  (request (.unit unit.name)).andThen (items (Source.items unit.name unit.source))

/-- Read and lower units one by one. -/
def units (list : List SourceUnit) : Plan :=
  sequence (list.map unit)

/-- Make the bootstrap, if it is wanted. -/
def opening (bootstrap : Bool) (entry : String) : Plan :=
  if bootstrap then request (.bootstrap entry) else done

end Plan

/-- What the work on a program asks of its lowering. -/
def Options.plan (options : Options) (bootstrap : Bool) (units : List SourceUnit) :
    Except Error (List Request) := do
  let lowering ← Lowering.ofOptions options
  ((Plan.opening bootstrap options.entry).andThen (Plan.units units)).requests lowering

/-! ## Sessions follow plans -/

namespace Session

theorem after_bind {σ : Type} (first second : Work σ Unit) (session : Session σ) :
    session.after (first >>= fun _ => second) =
      session.after first >>= fun next => next.after second := by
  cases h : first session with
  | ok value next =>
      simp only [after, h, Staged.bind_of_ok h]
      rfl
  | error error next =>
      simp only [after, h, Staged.bind_of_error h]
      rfl

variable {σ : Type} [Sink σ] {session : Session σ}

/-- Work that does what a plan says, as long as no write is refused. -/
def Follows (work : Work σ Unit) (plan : Plan) : Prop :=
  ∀ session : Session σ, session.Live →
    session.after work = (plan.requests session.lowering).map session.requests

theorem follows_pure : Follows (pure () : Work σ Unit) .done :=
  fun _ _ => rfl

theorem follows_act (request : Request) : Follows (act request : Work σ Unit) (.request request) := by
  intro session hlive
  have hact := act_eq hlive.pending request
  simp only [Plan.request]
  cases hrefusal : (Block.mk session.lowering request).refusal? with
  | some error =>
      rw [request_of_refused hlive.failure hrefusal, told_of_failed rfl] at hact
      rw [after, hact]
      rfl
  | none =>
      have hnext := hlive.request (Block.accepted_iff.2 hrefusal)
      rw [told_of_live hnext.failure] at hact
      rw [after, hact]
      rfl

theorem Follows.bind {first second : Work σ Unit} {p q : Plan}
    (hfirst : Follows first p) (hsecond : Follows second q) :
    Follows (first >>= fun _ => second) (p.andThen q) := by
  intro session hlive
  simp only [after_bind, hfirst session hlive, Plan.andThen]
  cases hp : p.requests session.lowering with
  | error error => rfl
  | ok made =>
      have hnext := hlive.requests (p.accepted hp)
      have hlowering := (serves_requests hnext.failure).lowering
      change (session.requests made).after second =
        (q.requests (session.lowering.after made) >>= fun others =>
          .ok (made ++ others)).map session.requests
      rw [hsecond _ hnext, hlowering]
      cases q.requests (session.lowering.after made) with
      | error error => rfl
      | ok others => exact congrArg Except.ok (requests_append session made others).symm

theorem follows_sequence {α : Type} {work : α → Work σ Unit} {plan : α → Plan}
    (h : ∀ a, Follows (work a) (plan a)) (list : List α) :
    Follows (list.forM work) (.sequence (list.map plan)) := by
  induction list with
  | nil => exact follows_pure
  | cons first rest ih => exact (h first).bind ih

theorem follows_item (entry : Source.Item) : Follows (item entry : Work σ Unit) (.item entry) := by
  cases entry with
  | error error => exact fun _ _ => rfl
  | ok command => exact follows_act (.command command)

theorem follows_source (unit : SourceUnit) :
    Follows (source unit : Work σ Unit) (.unit unit) :=
  (follows_act (.unit unit.name)).bind (follows_sequence follows_item _)

theorem follows_opening (bootstrap : Bool) (entry : String) :
    Follows (opening bootstrap entry : Work σ Unit) (.opening bootstrap entry) := by
  cases bootstrap with
  | false => exact follows_pure
  | true => exact follows_act (.bootstrap entry)

end Session

namespace Options

variable {options : Options} {bootstrap : Bool} {units : List SourceUnit} {made : List Request}

theorem ofOptions_eq (h : options.target = "hack") :
    Lowering.ofOptions options = .ok options.lowering := by
  simp only [Lowering.ofOptions, h, if_true]
  rfl

theorem plan_of_target (h : options.target = "hack") :
    options.plan bootstrap units =
      ((Plan.opening bootstrap options.entry).andThen (Plan.units units)).requests
        options.lowering := by
  rw [plan, ofOptions_eq h]
  rfl

theorem plan_of_target_ne (h : options.target ≠ "hack") :
    options.plan bootstrap units = .error (.unknownTarget options.target) := by
  simp only [plan, Lowering.ofOptions, h, if_false]
  rfl

theorem target_of_plan (h : options.plan bootstrap units = .ok made) : options.target = "hack" := by
  by_cases htarget : options.target = "hack"
  · exact htarget
  · rw [plan_of_target_ne htarget] at h
    cases h

theorem accepted_of_plan (h : options.plan bootstrap units = .ok made) :
    ∀ block ∈ options.lowering.trace made, block.Accepted := by
  rw [plan_of_target (target_of_plan h)] at h
  exact Plan.accepted _ h

end Options

section

variable {σ : Type} [Sink σ] {sink : σ} (options : Options) (bootstrap : Bool)
  (units : List SourceUnit)

/-- Over a sink that refuses nothing, the work goes as planned. -/
theorem drive_eq (hsink : Sink.Tireless sink) :
    drive sink options bootstrap units = do
      let made ← options.plan bootstrap units
      let final ← ((Session.opened options sink "<output>").requests made).finish
      return (final, (made.filterMap Request.command?).length) := by
  by_cases htarget : options.target = "hack"
  · have hstart : Session.start options sink = .ok (.opened options sink "<output>") := by
      rw [Session.start, Options.ofOptions_eq htarget]
      rfl
    have hlive : (Session.opened options sink "<output>").Live := ⟨rfl, rfl, hsink⟩
    have hfollows : (Session.opened options sink "<output>").after (do
        Session.opening bootstrap options.entry
        units.forM Session.source) =
          (options.plan bootstrap units).map (Session.opened options sink "<output>").requests := by
      rw [Options.plan_of_target htarget]
      exact ((Session.follows_opening bootstrap options.entry).bind
        (Session.follows_sequence Session.follows_source units)) _ hlive
    rw [drive, hstart]
    change ((Session.opened options sink "<output>").after _ >>= _) = _
    rw [hfollows]
    cases hplan : options.plan bootstrap units with
    | error error => rfl
    | ok made =>
        have hnext := hlive.requests (Options.accepted_of_plan hplan)
        have hcommands : ((Session.opened options sink "<output>").requests made).commands =
            (made.filterMap Request.command?).length :=
          (Session.serves_requests hnext.failure).commands.trans (Nat.zero_add _)
        change (((Session.opened options sink "<output>").requests made).finish >>= fun final =>
          .ok (final, ((Session.opened options sink "<output>").requests made).commands)) = _
        rw [hcommands]
        rfl
  · have hstart : Session.start options sink = .error (.unknownTarget options.target) := by
      simp only [Session.start, Lowering.ofOptions, htarget, if_false]
      rfl
    rw [Options.plan_of_target_ne htarget, drive, hstart]
    rfl

/-- The number of commands, or the error, does not depend on the sink or on comments. -/
theorem map_snd_drive (hsink : Sink.Tireless sink) :
    (drive sink options bootstrap units).map Prod.snd =
      (options.plan bootstrap units).map fun made => (made.filterMap Request.command?).length := by
  rw [drive_eq options bootstrap units hsink]
  cases hplan : options.plan bootstrap units with
  | error error => rfl
  | ok made =>
      have hlive : (Session.opened options sink "<output>").Live := ⟨rfl, rfl, hsink⟩
      obtain ⟨final, hfinish⟩ := (hlive.requests (Options.accepted_of_plan hplan)).finish
      change Except.map Prod.snd (((Session.opened options sink "<output>").requests made).finish >>=
        fun final => .ok (final, _)) = _
      rw [hfinish]
      rfl

/-- A program compiles to the text of the blocks of its plan. -/
theorem compileWith_eq :
    compileWith options bootstrap units =
      (options.plan bootstrap units).map fun made =>
        (Block.render options.annotate (options.lowering.trace made),
          (made.filterMap Request.command?).length) := by
  have htireless : Sink.Tireless ({} : Store) := Store.tireless rfl
  have hdrive : compileWith options bootstrap units =
      (drive ({} : Store) options bootstrap units).map fun result =>
        (result.1.text, result.2) := by
    rw [compileWith]
    cases drive ({} : Store) options bootstrap units <;> rfl
  rw [hdrive, drive_eq options bootstrap units htireless]
  cases hplan : options.plan bootstrap units with
  | error error => rfl
  | ok made =>
      have hlive : (Session.opened options ({} : Store) "<output>").Live := ⟨rfl, rfl, htireless⟩
      have hnext := hlive.requests (Options.accepted_of_plan hplan)
      obtain ⟨final, hfinish⟩ := hnext.finish
      have htext : final.text = Block.render options.annotate (options.lowering.trace made) := by
        rw [Session.contents_of_finish Store.keeps_text hfinish,
          (Session.serves_requests hnext.failure).written Store.text Store.keeps_text]
        exact String.empty_append
      change Except.map _ (((Session.opened options ({} : Store) "<output>").requests made).finish >>=
        fun final => .ok (final, _)) = _
      rw [hfinish]
      exact congrArg (fun text => Except.ok (text, _)) htext

end

/-! ## Programs that compile -/

/-- Every item of a unit must be a command. -/
def Session.AllCommands (items : List Source.Item) : Prop :=
  ∀ item ∈ items, ∃ command, item = .ok command

namespace Plan

/-- A plan that makes some requests if it is valid and they are accepted, and only then. -/
def Asks (plan : Plan) (valid : Prop) (asked : List Request) : Prop :=
  ∀ (lowering : Lowering) (made : List Request), plan.requests lowering = .ok made ↔
    valid ∧ (∀ block ∈ lowering.trace asked, block.Accepted) ∧ made = asked

theorem asks_done : done.Asks True [] := by
  intro lowering made
  simp [done, Lowering.trace, eq_comm]

theorem asks_stop (error : Error) (asked : List Request) : (stop error).Asks False asked := by
  intro lowering made
  simp [stop]

theorem asks_request (asked : Request) : (request asked).Asks True [asked] := by
  intro lowering made
  cases hrefusal : (Block.mk lowering asked).refusal? with
  | some error => simp [request, hrefusal, Lowering.trace, Block.accepted_iff]
  | none => simp [request, hrefusal, Lowering.trace, Block.accepted_iff, eq_comm]

theorem Asks.congr {plan : Plan} {p q : Prop} {asked : List Request} (h : plan.Asks p asked)
    (hiff : q ↔ p) : plan.Asks q asked := by
  rwa [propext hiff]

theorem Asks.andThen {first second : Plan} {p q : Prop} {xs ys : List Request}
    (hfirst : first.Asks p xs) (hsecond : second.Asks q ys) :
    (first.andThen second).Asks (p ∧ q) (xs ++ ys) := by
  intro lowering made
  rw [Lowering.trace_append, List.forall_mem_append]
  simp only [Plan.andThen, bind_eq_ok_iff, hfirst lowering, hsecond (lowering.after _)]
  constructor
  · rintro ⟨_, ⟨hp, hxs, rfl⟩, _, ⟨hq, hys, rfl⟩, ⟨⟩⟩
    exact ⟨⟨hp, hq⟩, ⟨hxs, hys⟩, rfl⟩
  · rintro ⟨⟨hp, hq⟩, ⟨hxs, hys⟩, rfl⟩
    exact ⟨xs, ⟨hp, hxs, rfl⟩, ys, ⟨hq, hys, rfl⟩, rfl⟩

theorem asks_sequence {α : Type} {plan : α → Plan} {valid : α → Prop}
    {asked : α → List Request} (h : ∀ a, (plan a).Asks (valid a) (asked a)) (list : List α) :
    (sequence (list.map plan)).Asks (∀ a ∈ list, valid a) (list.flatMap asked) := by
  induction list with
  | nil => exact asks_done.congr (by simp)
  | cons first rest ih => exact ((h first).andThen ih).congr (by simp)

theorem asks_item (entry : Source.Item) :
    (item entry).Asks (∃ command, entry = .ok command) (entry.toOption.toList.map .command) := by
  cases entry with
  | error error => exact (asks_stop error _).congr (by simp)
  | ok command => exact (asks_request (.command command)).congr (by simp)

theorem asks_items (list : List Source.Item) :
    (items list).Asks (Session.AllCommands list)
      ((list.filterMap Except.toOption).map .command) := by
  have hasked : (list.filterMap Except.toOption).map Request.command =
      list.flatMap fun entry => entry.toOption.toList.map .command := by
    induction list with
    | nil => rfl
    | cons entry rest ih =>
        rw [List.flatMap_cons, ← ih]
        cases entry <;> rfl
  rw [hasked]
  exact asks_sequence asks_item list

theorem asks_unit (source : SourceUnit) :
    (unit source).Asks (Session.AllCommands (Source.items source.name source.source))
      source.requests :=
  ((asks_request (.unit source.name)).andThen (asks_items _)).congr (by simp)

theorem asks_units (list : List SourceUnit) :
    (units list).Asks (∀ unit ∈ list, Session.AllCommands (Source.items unit.name unit.source))
      (list.flatMap SourceUnit.requests) :=
  asks_sequence asks_unit list

theorem asks_opening (options : Options) (bootstrap : Bool) :
    (opening bootstrap options.entry).Asks True (options.openingRequests bootstrap) := by
  cases bootstrap with
  | false => exact asks_done
  | true => exact asks_request (.bootstrap options.entry)

end Plan

theorem Options.plan_eq_ok_iff {options : Options} {bootstrap : Bool} {units : List SourceUnit}
    {made : List Request} :
    options.plan bootstrap units = .ok made ↔
      options.target = "hack" ∧
        (∀ unit ∈ units, Session.AllCommands (Source.items unit.name unit.source)) ∧
        (∀ block ∈ options.blocks bootstrap units, block.Accepted) ∧
        made = options.requests bootstrap units := by
  by_cases htarget : options.target = "hack"
  · have hplan := (Plan.asks_opening options bootstrap).andThen (Plan.asks_units units)
      options.lowering made
    rw [Options.plan_of_target htarget, hplan]
    simp [htarget, blocks, requests]
  · simp [Options.plan_of_target_ne htarget, htarget]

/-- What makes a program compile, and what text it compiles to. -/
structure Compiled (options : Options) (bootstrap : Bool) (units : List SourceUnit)
    (text : String) : Prop where
  target : options.target = "hack"
  items : ∀ unit ∈ units, Session.AllCommands (Source.items unit.name unit.source)
  accepted : ∀ block ∈ options.blocks bootstrap units, block.Accepted
  text : text = Block.render options.annotate (options.blocks bootstrap units)

/-- A program compiles to the text of its blocks, if its items and requests have no fault. -/
theorem compileUnits_eq_ok_iff {options : Options} {units : List SourceUnit} {text : String} :
    compileUnits options units = .ok text ↔
      Compiled options (options.bootstrap.enabled true) units text := by
  have hplan : compileUnits options units = .ok text ↔
      ∃ made, options.plan (options.bootstrap.enabled true) units = .ok made ∧
        Block.render options.annotate (options.lowering.trace made) = text := by
    rw [compileUnits, compileWith_eq]
    cases options.plan (options.bootstrap.enabled true) units <;> simp [Functor.map, Except.map]
  rw [hplan]
  simp only [Options.plan_eq_ok_iff]
  constructor
  · rintro ⟨_, ⟨htarget, hitems, haccepted, rfl⟩, rfl⟩
    exact ⟨htarget, hitems, haccepted, rfl⟩
  · rintro ⟨htarget, hitems, haccepted, rfl⟩
    exact ⟨_, ⟨htarget, hitems, haccepted, rfl⟩, rfl⟩

/-- The commands of a unit, none of whose lines is faulty. -/
def SourceUnit.Reads (unit : SourceUnit) (commands : List (Located Command)) : Prop :=
  (Source.items unit.name unit.source).map Except.toOption = commands.map some

instance (unit : SourceUnit) (commands : List (Located Command)) :
    Decidable (unit.Reads commands) :=
  inferInstanceAs (Decidable (_ = _))

namespace SourceUnit.Reads

variable {unit : SourceUnit} {commands : List (Located Command)}

theorem commands_eq (h : unit.Reads commands) : unit.commands = commands := by
  have hfilter := congrArg (List.filterMap id) h
  simpa [SourceUnit.commands, List.filterMap_map] using hfilter

theorem allCommands (h : unit.Reads commands) :
    Session.AllCommands (Source.items unit.name unit.source) := by
  intro item hitem
  have hmem : item.toOption ∈ commands.map some := by
    rw [← h]
    exact List.mem_map_of_mem hitem
  cases item with
  | ok command => exact ⟨command, rfl⟩
  | error error => simp [Except.toOption] at hmem

end SourceUnit.Reads

end StackVm
