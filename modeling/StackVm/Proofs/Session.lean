import StackVm.Proofs.Lowering.Trace
import StackVm.Proofs.Output
import StackVm.Session

/-! # What a session passes on

A session passes each request to its lowering and writes the lines of the block
that the lowering answers with.  After its first failure it does nothing.  Until
then the sink and the buffer hold the text of all blocks so far, whatever the sink
is and whenever it begins to refuse what it is offered.
-/

namespace StackVm

/-! ## Blocks -/

/-- The command that a request passes on. -/
def Request.command? : Request → Option (Located Command)
  | .unit _ => none
  | .bootstrap _ => none
  | .command located => some located

namespace Block

/-- The text of the comment before a block. -/
def remark? (block : Block) : Option String :=
  match block.request with
  | .unit _ => none
  | .bootstrap entry => some ("bootstrap: " ++ entry)
  | .command command => some command.value.text

/-- The lines of a block, after its comment if comments are wanted. -/
def lines (annotate : Bool) (block : Block) : List Asm.Line :=
  match block.remark? with
  | some remark => if annotate then .comment remark :: block.code else block.code
  | none => block.code

def render (annotate : Bool) (blocks : List Block) : String :=
  Text.render ((blocks.flatMap (lines annotate)).map Asm.Line.text)

@[simp] theorem render_nil (annotate : Bool) : render annotate [] = "" := rfl

@[simp] theorem render_append (annotate : Bool) (xs ys : List Block) :
    render annotate (xs ++ ys) = render annotate xs ++ render annotate ys := by
  simp [render]

/-- The error with which the lowering refuses the request. -/
def refusal? (block : Block) : Option Error :=
  match block.request with
  | .unit _ => none
  | .bootstrap entry =>
      match block.lowering.bootstrap entry with
      | .ok _ => none
      | .error error => some error
  | .command command =>
      match block.lowering.command command with
      | .ok _ => none
      | .error error => some error

theorem accepted_iff {block : Block} : block.Accepted ↔ block.refusal? = none := by
  obtain ⟨lowering, request⟩ := block
  cases request with
  | unit name => exact ⟨fun _ => rfl, fun _ => trivial⟩
  | bootstrap entry =>
      cases h : lowering.bootstrap entry <;> simp [Accepted, refusal?, code, outcome, h]
  | command command =>
      cases h : lowering.command command <;> simp [Accepted, refusal?, code, next, outcome, h]

end Block

namespace Session

open Staged

/-! ## Stages

An operation that begins with no lines pending ends with none.
-/

section

variable {σ : Type} {session : Session σ} {error : Error}

/-- The end of an operation: it fails if the session has. -/
def told (session : Session σ) : EStateM.Result Error (Session σ) Unit :=
  match session.failure with
  | none => .ok () session
  | some error => .error error session

theorem told_of_live (h : session.failure = none) : session.told = .ok () session := by
  simp [told, h]

theorem told_of_failed (h : session.failure = some error) :
    session.told = .error error session := by
  simp [told, h]

@[simp] theorem left_told (session : Session σ) : left session.told = session := by
  cases h : session.failure <;> simp [told, h, left]

@[simp] theorem error?_told (session : Session σ) : error? session.told = session.failure := by
  cases h : session.failure <;> simp [told, h, error?]

theorem check_eq (session : Session σ) : check session = session.told := by
  cases h : session.failure <;> simp only [check, get_bind, told, h] <;> rfl

variable {comment : String} {work : Emitter.Work Unit}

/-- The pending lines after a comment, if comments are wanted. -/
def remarked (session : Session σ) (comment : String) : Array Asm.Line :=
  if session.annotate then session.pending.push (.comment comment) else session.pending

theorem remark_eq (session : Session σ) (comment : String) :
    remark comment session = .ok () { session with pending := session.remarked comment } := by
  obtain ⟨lowering, writer, annotate, sinkName, failure, pending, commands⟩ := session
  cases annotate <;> rfl

theorem toList_remarked (hrest : session.pending = #[]) (code : Code) :
    (session.remarked comment ++ code).toList =
      if session.annotate then .comment comment :: code else code := by
  cases h : session.annotate <;> simp [remarked, h, hrest]

theorem collect_eq (h : session.failure = none) :
    collect comment work session =
      lower work { session with pending := session.remarked comment } :=
  (bind_of_ok ((check_eq session).trans (told_of_live h))).trans
    (bind_of_ok (remark_eq session comment))

theorem collect_of_failed (h : session.failure = some error) :
    collect comment work session = .error error session :=
  bind_of_error ((check_eq session).trans (told_of_failed h))

theorem collect_of_error (hlive : session.failure = none) (hrest : session.pending = #[])
    (hwork : ∀ out, work ⟨session.lowering, out⟩ = .error error ⟨session.lowering, out⟩) :
    collect comment work session = .error error { session with failure := some error } := by
  rw [collect_eq hlive, lower, get_bind, hwork]
  obtain ⟨lowering, writer, annotate, sinkName, failure, pending, commands⟩ := session
  cases hlive
  cases hrest
  rfl

theorem collect_of_ok {next : Lowering} {code : Code} (hlive : session.failure = none)
    (hwork : ∀ out, work ⟨session.lowering, out⟩ = .ok () ⟨next, out ++ code⟩) :
    collect comment work session = .ok ()
      { session with lowering := next, pending := session.remarked comment ++ code } := by
  rw [collect_eq hlive, lower, get_bind, hwork]
  rfl

end

/-! ## Requests -/

variable {σ : Type} [Sink σ]

/-- Write lines, and keep the fault of the sink. -/
def emit (session : Session σ) (lines : List String) : Session σ :=
  { session with
    writer := (session.writer.writeLines lines).1
    failure := ((session.writer.writeLines lines).2.map (Error.io session.sinkName)).or
      session.failure }

/--
What becomes of a session that serves a request: nothing if it has failed, else it
keeps the refusal of the lowering, or goes on and writes the block.
-/
def request (session : Session σ) (request : Request) : Session σ :=
  if session.failure.isSome then session
  else
    match (Block.mk session.lowering request).refusal? with
    | some error => { session with failure := some error }
    | none =>
        { session with
          lowering := (Block.mk session.lowering request).next
          commands := session.commands + ([request].filterMap Request.command?).length }.emit
          (((Block.mk session.lowering request).lines session.annotate).map Asm.Line.text)

/-- What becomes of a session that serves consecutive requests. -/
def requests (session : Session σ) (requests : List Request) : Session σ :=
  requests.foldl request session

theorem requests_append (session : Session σ) (xs ys : List Request) :
    session.requests (xs ++ ys) = (session.requests xs).requests ys :=
  List.foldl_append

variable {session : Session σ} {error : Error} {contents : σ → String}

theorem request_of_failed (h : session.failure = some error) (request : Request) :
    session.request request = session := by
  simp [Session.request, h]

theorem request_of_refused (h : session.failure = none) {request : Request}
    (hrefusal : (Block.mk session.lowering request).refusal? = some error) :
    session.request request = { session with failure := some error } := by
  simp [Session.request, h, hrefusal]

/-- An accepted request is counted if it is a command, and its block is written. -/
theorem request_of_accepted (h : session.failure = none) {request : Request}
    (haccepted : (Block.mk session.lowering request).Accepted) :
    session.request request =
      { session with
        lowering := (Block.mk session.lowering request).next
        commands := session.commands + ([request].filterMap Request.command?).length }.emit
        (((Block.mk session.lowering request).lines session.annotate).map Asm.Line.text) := by
  simp [Session.request, h, Block.accepted_iff.1 haccepted]

theorem requests_of_failed (h : session.failure = some error) (requests : List Request) :
    session.requests requests = session := by
  induction requests with
  | nil => rfl
  | cons request rest ih => rwa [Session.requests, List.foldl_cons, request_of_failed h]

/-- What becomes of a session that serves requests without a failure. -/
structure Serves (session : Session σ) (requests : List Request) (next : Session σ) : Prop where
  accepted : ∀ block ∈ session.lowering.trace requests, block.Accepted
  lowering : next.lowering = session.lowering.after requests
  annotate : next.annotate = session.annotate
  commands : next.commands = session.commands + (requests.filterMap Request.command?).length
  written : ∀ contents : σ → String, Sink.Keeps contents →
    next.writer.written contents = session.writer.written contents ++
      Block.render session.annotate (session.lowering.trace requests)

theorem Serves.trans {middle next : Session σ} {xs ys : List Request}
    (hxs : session.Serves xs middle) (hys : middle.Serves ys next) :
    session.Serves (xs ++ ys) next where
  accepted := by
    rw [Lowering.trace_append, List.forall_mem_append]
    exact ⟨hxs.accepted, hxs.lowering ▸ hys.accepted⟩
  lowering := by rw [hys.lowering, hxs.lowering, Lowering.after_append]
  annotate := by rw [hys.annotate, hxs.annotate]
  commands := by
    rw [hys.commands, hxs.commands, List.filterMap_append, List.length_append, Nat.add_assoc]
  written := by
    intro contents hkeeps
    rw [hys.written contents hkeeps, hxs.written contents hkeeps, hxs.lowering, hxs.annotate,
      Lowering.trace_append, Block.render_append, String.append_assoc]

theorem failure_of_requests {requests : List Request}
    (h : (session.requests requests).failure = none) : session.failure = none := by
  cases hfailure : session.failure with
  | none => rfl
  | some error =>
      rw [requests_of_failed hfailure, hfailure] at h
      cases h

/-- A session goes on only after an accepted request, all of whose lines were written. -/
theorem serves_request {request : Request} (h : (session.request request).failure = none) :
    session.Serves [request] (session.request request) := by
  have hlive : session.failure = none :=
    failure_of_requests (show (session.requests [request]).failure = none from h)
  cases hrefusal : (Block.mk session.lowering request).refusal? with
  | some error =>
      rw [request_of_refused hlive hrefusal] at h
      cases h
  | none =>
      have haccepted := Block.accepted_iff.2 hrefusal
      rw [request_of_accepted hlive haccepted, emit] at h ⊢
      refine ⟨by simpa [Lowering.trace] using haccepted, rfl, rfl, rfl, ?_⟩
      intro contents hkeeps
      refine (Writer.written_writeLines hkeeps (Prod.ext rfl ?_)).trans ?_
      · simpa [hlive] using h
      · simp [Block.render, Lowering.trace]

theorem serves_requests {requests : List Request} (h : (session.requests requests).failure = none) :
    session.Serves requests (session.requests requests) := by
  induction requests generalizing session with
  | nil => exact ⟨by simp [Lowering.trace], rfl, rfl, rfl, by simp [Session.requests, Lowering.trace]⟩
  | cons request rest ih => exact (serves_request (failure_of_requests h)).trans (ih h)

theorem finish_of_failed (h : session.failure = some error) : session.finish = .error error := by
  simp [finish, h]

theorem finish_eq_ok {sink : σ} (h : session.finish = .ok sink) :
    session.failure = none ∧ ∃ writer, session.writer.flush = (writer, none) ∧ writer.sink = sink := by
  cases hfailure : session.failure with
  | some error =>
      rw [finish_of_failed hfailure] at h
      cases h
  | none =>
      cases hflush : session.writer.flush with
      | mk writer fault =>
          cases fault with
          | some fault => simp [finish, hfailure, hflush] at h
          | none => exact ⟨rfl, writer, rfl, by simpa [finish, hfailure, hflush] using h⟩

theorem contents_of_finish (hkeeps : Sink.Keeps contents) {sink : σ}
    (h : session.finish = .ok sink) : contents sink = session.writer.written contents := by
  obtain ⟨-, writer, hflush, rfl⟩ := finish_eq_ok h
  obtain ⟨hwritten, hempty⟩ := Writer.written_flush hkeeps hflush
  rw [← hwritten, Writer.written, hempty, String.append_empty]

/-! ## Sinks that refuse nothing -/

/-- A session between operations that has not failed and whose sink refuses nothing. -/
structure Live (session : Session σ) : Prop where
  failure : session.failure = none
  pending : session.pending = #[]
  tireless : Sink.Tireless session.writer.sink

theorem Live.request (h : session.Live) {request : Request}
    (haccepted : (Block.mk session.lowering request).Accepted) : (session.request request).Live := by
  rw [request_of_accepted h.failure haccepted, emit]
  obtain ⟨writer, hwrite, hwriter⟩ := Writer.writeLines_of_tireless h.tireless
    (((Block.mk session.lowering request).lines session.annotate).map Asm.Line.text)
  exact ⟨by simp [hwrite, h.failure], h.pending, by simpa [hwrite] using hwriter⟩

theorem Live.requests (h : session.Live) {requests : List Request}
    (haccepted : ∀ block ∈ session.lowering.trace requests, block.Accepted) :
    (session.requests requests).Live := by
  induction requests generalizing session with
  | nil => exact h
  | cons request rest ih =>
      obtain ⟨hfirst, hrest⟩ := List.forall_mem_cons.1 haccepted
      have hnext := h.request hfirst
      exact ih hnext ((serves_request hnext.failure).lowering ▸ hrest)

theorem Live.finish (h : session.Live) : ∃ sink, session.finish = .ok sink := by
  obtain ⟨writer, hflush, -⟩ := Writer.flush_of_tireless h.tireless
  exact ⟨writer.sink, by simp [Session.finish, h.failure, hflush]⟩

/-! ## Operations -/

theorem writePending_eq (hlive : session.failure = none) :
    writePending session =
      ({ session with pending := #[] }.emit (session.pending.toList.map Asm.Line.text)).told := by
  obtain ⟨lowering, writer, annotate, sinkName, failure, pending, commands⟩ := session
  cases hlive
  cases hwrite : writer.writeLines (pending.toList.map Asm.Line.text) with
  | mk next fault =>
      cases fault with
      | none => simp only [writePending, emit, hwrite, told, Option.map_none, Option.none_or]
      | some fault =>
          simp only [writePending, emit, hwrite, told, Option.map_some, Option.some_or]
          rfl

/-- The operation that passes a request on. -/
def act : Request → Work σ Unit
  | .unit name => setUnit name
  | .bootstrap entry => bootstrap entry
  | .command command => Session.command command

theorem act_of_failed (h : session.failure = some error) (request : Request) :
    act request session = .error error session := by
  cases request with
  | unit name => exact bind_of_error ((check_eq session).trans (told_of_failed h))
  | bootstrap entry => exact bind_of_error (collect_of_failed h)
  | command command => exact bind_of_error (collect_of_failed h)

theorem act_of_refused (hlive : session.failure = none) (hrest : session.pending = #[])
    {request : Request} (hrefusal : (Block.mk session.lowering request).refusal? = some error) :
    act request session = .error error { session with failure := some error } := by
  cases request with
  | unit name => cases hrefusal
  | bootstrap entry =>
      cases hcode : session.lowering.bootstrap entry <;>
        simp [Block.refusal?, hcode] at hrefusal
      subst hrefusal
      exact bind_of_error (collect_of_error hlive hrest fun _ => Emitter.bootstrap_of_error _ hcode)
  | command command =>
      cases hcode : session.lowering.command command <;>
        simp [Block.refusal?, hcode] at hrefusal
      subst hrefusal
      exact bind_of_error (collect_of_error hlive hrest fun _ => Emitter.command_of_error _ hcode)

theorem act_of_accepted (hlive : session.failure = none) (hrest : session.pending = #[])
    {request : Request} (haccepted : (Block.mk session.lowering request).Accepted) :
    act request session = (session.request request).told := by
  rw [request_of_accepted hlive haccepted]
  obtain ⟨lowering, writer, annotate, sinkName, failure, pending, commands⟩ := session
  cases hlive
  cases hrest
  cases request with
  | unit name => rfl
  | bootstrap entry =>
      have hcode : lowering.bootstrap entry = .ok (Block.mk lowering (.bootstrap entry)).code :=
        haccepted
      refine (bind_of_ok (collect_of_ok rfl fun _ => Emitter.bootstrap_of_ok _ hcode)).trans ?_
      simp only [writePending_eq, toList_remarked, Block.next_bootstrap]
      rfl
  | command command =>
      have hcode : lowering.command command = .ok ((Block.mk lowering (.command command)).code,
          (Block.mk lowering (.command command)).next) := haccepted
      refine (bind_of_ok (collect_of_ok rfl fun _ => Emitter.command_of_ok _ hcode)).trans ?_
      simp only [modify_bind, writePending_eq, toList_remarked]
      rfl

/-- An operation does what its request says, and fails if and only if the session then has. -/
theorem act_eq (hrest : session.pending = #[]) (request : Request) :
    act request session = (session.request request).told := by
  cases hfailure : session.failure with
  | some error => rw [act_of_failed hfailure, request_of_failed hfailure, told_of_failed hfailure]
  | none =>
      cases hrefusal : (Block.mk session.lowering request).refusal? with
      | some error =>
          rw [act_of_refused hfailure hrest hrefusal, request_of_refused hfailure hrefusal,
            told_of_failed rfl]
      | none => exact act_of_accepted hfailure hrest (Block.accepted_iff.2 hrefusal)

theorem pending_request (session : Session σ) (request : Request) :
    (session.request request).pending = session.pending := by
  simp only [Session.request]
  split
  · rfl
  · split <;> rfl

theorem pending_requests (session : Session σ) (requests : List Request) :
    (session.requests requests).pending = session.pending := by
  induction requests generalizing session with
  | nil => rfl
  | cons request rest ih => exact (ih _).trans (pending_request session request)

theorem forM_act (hlive : session.failure = none) (hrest : session.pending = #[])
    (requests : List Request) : requests.forM act session = (session.requests requests).told := by
  induction requests generalizing session with
  | nil => exact (told_of_live hlive).symm
  | cons request rest ih =>
      have hact := act_eq hrest request
      cases hfailure : (session.request request).failure with
      | some error =>
          have hsame : session.requests (request :: rest) = session.request request :=
            requests_of_failed hfailure rest
          rw [hsame, told_of_failed hfailure]
          exact bind_of_error (hact.trans (told_of_failed hfailure))
      | none =>
          refine (bind_of_ok (hact.trans (told_of_live hfailure))).trans ?_
          exact ih hfailure ((pending_request session request).trans hrest)

/-! ## Calls -/

/-- An operation that a caller asks of a session. -/
inductive Call where
  | setUnit (name : String)
  | bootstrap (entry : String)
  | command (command : Located Command)
  | unit (name : String) (commands : List (Located Command))
  deriving DecidableEq, Repr

/-- The requests that an operation passes to the lowering. -/
def Call.requests : Call → List Request
  | .setUnit name => [.unit name]
  | .bootstrap entry => [.bootstrap entry]
  | .command located => [.command located]
  | .unit name commands => .unit name :: commands.map .command

def Call.work : Call → Work σ Unit
  | .setUnit name => Session.setUnit name
  | .bootstrap entry => Session.bootstrap entry
  | .command located => Session.command located
  | .unit name commands => Session.unit name commands

/-- Perform an operation, and go on with what it leaves. -/
def call (session : Session σ) (call : Call) : Session σ :=
  left (call.work session)

/-- Perform consecutive operations. -/
def calls (session : Session σ) (calls : List Call) : Session σ :=
  calls.foldl call session

/-- What a caller sees of an operation: its error, if it fails, and the number of commands after it. -/
structure Answer where
  error? : Option Error
  commands : Nat
  deriving DecidableEq, Repr

/-- What a caller sees of consecutive operations. -/
def answers (session : Session σ) : List Call → List Answer
  | [] => []
  | call :: rest =>
      ⟨Staged.error? (call.work session), (session.call call).commands⟩ ::
        (session.call call).answers rest

theorem forM_command (commands : List (Located Command)) :
    (commands.forM Session.command : Work σ Unit) = (commands.map Request.command).forM act := by
  induction commands with
  | nil => rfl
  | cons command rest ih => exact congrArg (Session.command command >>= fun _ => ·) ih

theorem work_eq (hrest : session.pending = #[]) (call : Call) :
    call.work session = (session.requests call.requests).told := by
  cases call with
  | unit name commands =>
      cases hfailure : session.failure with
      | some error =>
          rw [requests_of_failed hfailure, told_of_failed hfailure]
          exact bind_of_error (act_of_failed hfailure (.unit name))
      | none =>
          rw [← forM_act hfailure hrest, Call.work, Session.unit, forM_command]
          rfl
  | setUnit name => exact act_eq hrest (.unit name)
  | bootstrap entry => exact act_eq hrest (.bootstrap entry)
  | command command => exact act_eq hrest (.command command)

theorem call_eq_requests (hrest : session.pending = #[]) (call : Call) :
    session.call call = session.requests call.requests := by
  rw [Session.call, work_eq hrest, left_told]

theorem calls_eq_requests (hrest : session.pending = #[]) (calls : List Call) :
    session.calls calls = session.requests (calls.flatMap Call.requests) := by
  induction calls generalizing session with
  | nil => rfl
  | cons call rest ih =>
      rw [Session.calls, List.foldl_cons, call_eq_requests hrest, List.flatMap_cons, requests_append]
      exact ih ((pending_requests session _).trans hrest)

theorem answers_cons (hrest : session.pending = #[]) (call : Call) (rest : List Call) :
    session.answers (call :: rest) =
      ⟨(session.call call).failure, (session.call call).commands⟩ ::
        (session.call call).answers rest := by
  rw [answers, Session.call, work_eq hrest, left_told, error?_told]

theorem answers_of_failed (hrest : session.pending = #[]) (h : session.failure = some error)
    (calls : List Call) :
    ∀ answer ∈ session.answers calls, answer = ⟨some error, session.commands⟩ := by
  induction calls with
  | nil => simp [answers]
  | cons call rest ih =>
      have hsame : session.call call = session := by
        rw [call_eq_requests hrest, requests_of_failed h]
      rw [answers_cons hrest, hsame, h]
      exact List.forall_mem_cons.2 ⟨rfl, ih⟩

/-- A failed operation and everything after it show the same. -/
theorem answers_of_error (hrest : session.pending = #[]) {calls : List Call} {index : Nat}
    {answer : Answer}
    (hanswer : (session.answers calls)[index]? = some answer) (herror : answer.error? = some error) :
    (∀ later ∈ (session.answers calls).drop index, later = answer) ∧
      (session.calls calls).failure = some error ∧
      (session.calls calls).commands = answer.commands := by
  induction calls generalizing session index with
  | nil => simp [answers] at hanswer
  | cons call rest ih =>
      have hnext : (session.call call).pending = #[] := by
        rw [call_eq_requests hrest, pending_requests, hrest]
      rw [answers_cons hrest] at hanswer ⊢
      cases index with
      | succ index => exact ih hnext hanswer
      | zero =>
          cases hanswer
          have hfailure : (session.call call).failure = some error := herror
          have hsame : session.calls (call :: rest) = session.call call :=
            (calls_eq_requests hnext rest).trans (requests_of_failed hfailure _)
          rw [hsame, hfailure]
          refine ⟨?_, rfl, rfl⟩
          rw [List.drop_zero]
          exact List.forall_mem_cons.2 ⟨rfl, answers_of_failed hnext hfailure rest⟩

/-- A session before its first operation. -/
def opened (options : Options) (sink : σ) (sinkName : String) : Session σ :=
  { lowering := options.lowering, writer := { sink }, annotate := options.annotate, sinkName }

theorem error?_of_finish (hrest : session.pending = #[]) {calls : List Call} {final : σ}
    (h : (session.calls calls).finish = .ok final) :
    ∀ answer ∈ session.answers calls, answer.error? = none := by
  intro answer hanswer
  obtain ⟨index, hindex⟩ := List.getElem?_of_mem hanswer
  cases herror : answer.error? with
  | none => rfl
  | some error =>
      have hfailure := (finish_eq_ok h).1
      rw [(answers_of_error hrest hindex herror).2.1] at hfailure
      cases hfailure

/--
An operation that fails is the last that does anything: all later ones and the end fail with its
error, and no command is counted after it.  If none fails and the end succeeds, the sink has
received the lines of all blocks that the lowering by itself answers with, and nothing else.  Only
the lowering and the sink make an operation fail.
-/
theorem calls_outcome (hkeeps : Sink.Keeps contents) (options : Options) (sink : σ)
    (sinkName : String) (calls : List Call) :
    (∀ (index : Nat) (answer : Answer) (error : Error),
      ((opened options sink sinkName).answers calls)[index]? = some answer →
      answer.error? = some error →
        (∀ later ∈ ((opened options sink sinkName).answers calls).drop index, later = answer) ∧
          ((opened options sink sinkName).calls calls).finish = .error error ∧
          ((opened options sink sinkName).calls calls).commands = answer.commands) ∧
      (∀ final : σ, (∀ answer ∈ (opened options sink sinkName).answers calls, answer.error? = none) →
        ((opened options sink sinkName).calls calls).finish = .ok final →
          (∀ block ∈ options.lowering.trace (calls.flatMap Call.requests), block.Accepted) ∧
            contents final = contents sink ++ Block.render options.annotate
              (options.lowering.trace (calls.flatMap Call.requests))) ∧
      (Sink.Tireless sink →
        (∀ block ∈ options.lowering.trace (calls.flatMap Call.requests), block.Accepted) →
          (∀ answer ∈ (opened options sink sinkName).answers calls, answer.error? = none) ∧
            ∃ final, ((opened options sink sinkName).calls calls).finish = .ok final) := by
  refine ⟨?_, ?_, ?_⟩
  · intro index answer error hanswer herror
    obtain ⟨hlater, hfailure, hcommands⟩ := answers_of_error rfl hanswer herror
    exact ⟨hlater, finish_of_failed hfailure, hcommands⟩
  · intro final _ hfinish
    have hfailure := (finish_eq_ok hfinish).1
    rw [calls_eq_requests rfl] at hfailure
    have hserves := serves_requests hfailure
    have hopened : (opened options sink sinkName).writer.written contents = contents sink :=
      String.append_empty
    refine ⟨hserves.accepted, ?_⟩
    rw [contents_of_finish hkeeps hfinish, calls_eq_requests rfl, hserves.written contents hkeeps,
      hopened]
    rfl
  · intro htireless haccepted
    have hlive : (opened options sink sinkName).Live := ⟨rfl, rfl, htireless⟩
    obtain ⟨final, hfinish⟩ := (hlive.requests haccepted).finish
    rw [← calls_eq_requests rfl] at hfinish
    exact ⟨error?_of_finish rfl hfinish, final, hfinish⟩

end Session

namespace Sample

def writing : Session Store :=
  .opened { annotate := true } {} "Prog.asm"

def servedCalls : List Session.Call :=
  [.bootstrap "Sys.init", .unit "Main" [⟨.push .statics 3, .absent⟩, ⟨.goto "end", .absent⟩]]

/-- The third operation cannot be served. -/
def refusedCalls : List Session.Call :=
  servedCalls ++ [.command ⟨.pop .constants 3, ⟨4, 30, 44⟩⟩, .setUnit "Other",
    .command ⟨.ret, .absent⟩]

def refusal : Error :=
  .invalidSegment "Main" ⟨4, 30, 44⟩ "constant" .constantTarget

theorem outcome_writing :
    Sink.Keeps Store.text ∧
      ((∀ later ∈ (writing.answers refusedCalls).drop 2, later = ⟨some refusal, 2⟩) ∧
        (writing.calls refusedCalls).finish = .error refusal) ∧
      ∃ store, (writing.calls servedCalls).finish = .ok store ∧
        store.text = "// bootstrap: Sys.init\n@261\nD=A\n@SP\nM=D\n@Sys.init\n0;JMP\n" ++
          "// push static 3\n@Main.3\nD=M\n@SP\nM=M+1\nA=M-1\nM=D\n" ++
          "// goto end\n@Main$$end\n0;JMP\n" := by
  have hrefused := (Session.calls_outcome Store.keeps_text { annotate := true } {} "Prog.asm"
    refusedCalls).1 2 ⟨some refusal, 2⟩ refusal (by decide +kernel) rfl
  have houtcome := Session.calls_outcome Store.keeps_text { annotate := true } {} "Prog.asm"
    servedCalls
  obtain ⟨hnone, store, hfinish⟩ := houtcome.2.2 (Store.tireless rfl) (by decide +kernel)
  have hserved := houtcome.2.1 store hnone hfinish
  exact ⟨Store.keeps_text, ⟨hrefused.1, hrefused.2.1⟩, store, hfinish,
    hserved.2.trans (by decide +kernel)⟩

end Sample

end StackVm
