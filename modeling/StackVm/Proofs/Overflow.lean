import StackVm.Proofs.Session

/-! # Sinks with a limit

A sink that is full refuses the text that would pass its limit, and the buffer decides
which text that is.  Whether a session succeeds does not depend on it: it does if and
only if the whole output is within the limit.  At every moment the sink has the start
of the output.
-/

namespace StackVm

/-! ## Sinks side by side -/

namespace Sink

variable {σ τ : Type} [Sink σ] [Sink τ]

/-- A relation between sinks that lasts, and that shows in no answer. -/
def Lasts (related : σ → τ → Prop) : Prop :=
  ∀ (x : σ) (y : τ) (text : String), related x y →
    related (Sink.write x text).1 (Sink.write y text).1 ∧
      (Sink.write x text).2 = (Sink.write y text).2

end Sink

namespace Writer

variable {σ τ : Type} [Sink σ] [Sink τ] {related : σ → τ → Prop} {x : Writer σ} {y : Writer τ}

/-- Writers with the same buffer, before sinks that are related. -/
structure Beside (related : σ → τ → Prop) (x : Writer σ) (y : Writer τ) : Prop where
  sink : related x.sink y.sink
  buffer : x.buffer = y.buffer

/-- Operations that give the same answer, and writers that are related as before. -/
structure Agree (related : σ → τ → Prop) (x : Writer σ × Option IoFault)
    (y : Writer τ × Option IoFault) : Prop where
  beside : Beside related x.1 y.1
  fault : x.2 = y.2

section

variable (hlasts : Sink.Lasts related)
include hlasts

theorem Beside.flush (h : Beside related x y) : Agree related x.flush y.flush := by
  obtain ⟨sink, buffer⟩ := x
  obtain ⟨other, _⟩ := y
  obtain ⟨hsink, rfl⟩ := h
  unfold Writer.flush
  by_cases hempty : buffer.isEmpty = true
  · simp only [hempty, if_true]
    exact ⟨⟨hsink, rfl⟩, rfl⟩
  · obtain ⟨hnext, hfault⟩ := hlasts sink other buffer hsink
    simp only [hempty]
    cases hx : Sink.write sink buffer with
    | mk next fault =>
        cases hy : Sink.write other buffer with
        | mk next' fault' =>
            rw [hx, hy] at hnext hfault
            cases hfault
            cases fault <;> exact ⟨⟨hnext, rfl⟩, rfl⟩

theorem Beside.reserve (h : Beside related x y) (size : Nat) :
    Agree related (x.reserve size) (y.reserve size) := by
  unfold Writer.reserve spare
  rw [h.buffer]
  split
  · exact ⟨h, rfl⟩
  · exact h.flush hlasts

theorem Beside.accept (h : Beside related x y) (text : String) :
    Agree related (x.accept text) (y.accept text) := by
  obtain ⟨sink, buffer⟩ := x
  obtain ⟨other, _⟩ := y
  obtain ⟨hsink, rfl⟩ := h
  unfold Writer.accept
  by_cases hsize : text.utf8ByteSize < capacity
  · simp only [hsize, if_true]
    exact ⟨⟨hsink, rfl⟩, rfl⟩
  · obtain ⟨hnext, hfault⟩ := hlasts sink other text hsink
    simp only [hsize, if_false]
    exact ⟨⟨hnext, rfl⟩, hfault⟩

theorem Beside.write (h : Beside related x y) (text : String) :
    Agree related (x.write text) (y.write text) := by
  unfold Writer.write
  have hreserve := h.reserve hlasts text.utf8ByteSize
  cases hx : x.reserve text.utf8ByteSize with
  | mk next fault =>
      cases hy : y.reserve text.utf8ByteSize with
      | mk next' fault' =>
          rw [hx, hy] at hreserve
          obtain ⟨hbeside, hfault⟩ := hreserve
          cases hfault
          cases fault with
          | none => exact hbeside.accept hlasts text
          | some fault => exact ⟨hbeside, rfl⟩

theorem Beside.writeAll (h : Beside related x y) (texts : List String) :
    Agree related (x.writeAll texts) (y.writeAll texts) := by
  induction texts generalizing x y with
  | nil => exact ⟨h, rfl⟩
  | cons text rest ih =>
      unfold Writer.writeAll
      have hwrite := h.write hlasts text
      cases hx : x.write text with
      | mk next fault =>
          cases hy : y.write text with
          | mk next' fault' =>
              rw [hx, hy] at hwrite
              obtain ⟨hbeside, hfault⟩ := hwrite
              cases hfault
              cases fault with
              | none => exact ih hbeside
              | some fault => exact ⟨hbeside, rfl⟩

end

end Writer

namespace Session

variable {σ τ : Type} [Sink σ] [Sink τ] {related : σ → τ → Prop} {x : Session σ} {y : Session τ}

/-- Sessions that differ in their sinks only, and these are related. -/
structure Beside (related : σ → τ → Prop) (x : Session σ) (y : Session τ) : Prop where
  lowering : x.lowering = y.lowering
  writer : x.writer.Beside related y.writer
  annotate : x.annotate = y.annotate
  sinkName : x.sinkName = y.sinkName
  failure : x.failure = y.failure
  commands : x.commands = y.commands

section

variable (hlasts : Sink.Lasts related)
include hlasts

theorem Beside.emit (h : Beside related x y) (lines : List String) :
    Beside related (x.emit lines) (y.emit lines) := by
  have hagree := h.writer.writeAll hlasts (lines.flatMap fun line => [line, "\n"])
  unfold Session.emit
  refine ⟨h.lowering, hagree.beside, h.annotate, h.sinkName, ?_, h.commands⟩
  simp only [Writer.writeLines, hagree.fault, h.sinkName, h.failure]

theorem Beside.request (h : Beside related x y) (request : Request) :
    Beside related (x.request request) (y.request request) := by
  cases hfailure : y.failure with
  | some error =>
      rw [request_of_failed (h.failure.trans hfailure), request_of_failed hfailure]
      exact h
  | none =>
      have hlive := h.failure.trans hfailure
      cases hrefusal : (Block.mk y.lowering request).refusal? with
      | some error =>
          rw [request_of_refused hlive (h.lowering ▸ hrefusal), request_of_refused hfailure hrefusal]
          exact ⟨h.lowering, h.writer, h.annotate, h.sinkName, rfl, h.commands⟩
      | none =>
          have haccepted := Block.accepted_iff.2 hrefusal
          rw [request_of_accepted hlive (h.lowering ▸ haccepted),
            request_of_accepted hfailure haccepted, h.annotate, h.lowering]
          refine Beside.emit hlasts ?_ _
          exact ⟨rfl, h.writer, rfl, h.sinkName, h.failure, congrArg (· + _) h.commands⟩

theorem Beside.requests (h : Beside related x y) (requests : List Request) :
    Beside related (x.requests requests) (y.requests requests) := by
  induction requests generalizing x y with
  | nil => exact h
  | cons request rest ih => exact ih (h.request hlasts request)

end

end Session

/-! ## Moments -/

/-- A sink and all that it was before, from the first text on. -/
structure Recorder (σ : Type) where
  sink : σ
  past : List σ := []

namespace Recorder

variable {σ : Type} [Sink σ]

instance : Sink (Recorder σ) where
  write recorder text :=
    (⟨(Sink.write recorder.sink text).1, recorder.past ++ [recorder.sink]⟩,
      (Sink.write recorder.sink text).2)

/-- What the sink was at every moment, and is. -/
def moments (recorder : Recorder σ) : List σ :=
  recorder.past ++ [recorder.sink]

end Recorder

namespace Store

variable {limit : Nat} {store : Store} {text : String}

/-- A store with a limit, which it keeps. -/
structure Limited (limit : Nat) (store : Store) : Prop where
  limit_eq : store.limit = some limit
  size_le : store.text.utf8ByteSize ≤ limit

theorem Limited.admits_iff (h : Limited limit store) :
    store.admits text = true ↔ store.text.utf8ByteSize + text.utf8ByteSize ≤ limit := by
  simp only [admits, h.limit_eq, decide_eq_true_eq]

theorem Limited.write_of_le (h : Limited limit store)
    (hle : store.text.utf8ByteSize + text.utf8ByteSize ≤ limit) :
    Sink.write store text = (⟨some limit, store.text ++ text⟩, none) := by
  have hwrite : store.write text = (⟨store.limit, store.text ++ text⟩, none) :=
    if_pos (h.admits_iff.2 hle)
  rw [← h.limit_eq]
  exact hwrite

theorem Limited.write_of_lt (h : Limited limit store)
    (hlt : limit < store.text.utf8ByteSize + text.utf8ByteSize) :
    Sink.write store text = (store, some .full) :=
  if_neg fun hadmits => Nat.not_le_of_lt hlt (h.admits_iff.1 hadmits)

theorem Limited.write (h : Limited limit store) (text : String) :
    Limited limit (Sink.write store text).1 := by
  by_cases hle : store.text.utf8ByteSize + text.utf8ByteSize ≤ limit
  · rw [h.write_of_le hle]
    exact ⟨rfl, by rwa [String.utf8ByteSize_append]⟩
  · rw [h.write_of_lt (Nat.lt_of_not_le hle)]
    exact h

/-- What a store has stays at the start of what it has later. -/
theorem text_prefix_write (store : Store) (text : String) :
    store.text.toList <+: (Sink.write store text).1.text.toList := by
  simp only [Sink.write, Store.write]
  split
  · rw [String.toList_append]
    exact List.prefix_append _ _
  · exact List.prefix_rfl

theorem lasts_limited (limit : Nat) :
    Sink.Lasts fun x y : Store => x = y ∧ Limited limit x := by
  rintro x _ text ⟨rfl, hlimited⟩
  exact ⟨⟨rfl, hlimited.write text⟩, rfl⟩

theorem lasts_recorder :
    Sink.Lasts fun (x : Recorder Store) (y : Store) =>
      x.sink = y ∧ ∀ moment ∈ x.past, moment.text.toList <+: y.text.toList := by
  rintro x _ text ⟨rfl, hpast⟩
  refine ⟨⟨rfl, ?_⟩, rfl⟩
  intro moment hmoment
  rcases List.mem_append.1 hmoment with hmem | hmem
  · exact (hpast moment hmem).trans (text_prefix_write x.sink text)
  · cases List.mem_singleton.1 hmem
    exact text_prefix_write x.sink text

end Store

/-! ## Writers before a limited store -/

namespace Writer

variable {limit : Nat} {writer next : Writer Store} {text : String} {fault : IoFault}

/-- Why a store refused what a writer passed on, and that nothing was lost. -/
structure Refused (limit : Nat) (writer next : Writer Store) (text : String) (fault : IoFault) :
    Prop where
  full : fault = .full
  lt_size : limit < (writer.written Store.text ++ text).utf8ByteSize
  kept : next.written Store.text = writer.written Store.text

theorem refused_flush (hlimited : Store.Limited limit writer.sink)
    (h : writer.flush = (next, some fault)) : Refused limit writer next "" fault := by
  obtain ⟨store, buffer⟩ := writer
  unfold flush at h
  split at h
  · cases h
  · by_cases hle : store.text.utf8ByteSize + buffer.utf8ByteSize ≤ limit
    · simp only [hlimited.write_of_le hle] at h
      cases h
    · have hlt := Nat.lt_of_not_le hle
      simp only [hlimited.write_of_lt hlt] at h
      cases h
      refine ⟨rfl, ?_, rfl⟩
      rwa [String.append_empty, written, String.utf8ByteSize_append]

theorem refused_accept (hlimited : Store.Limited limit writer.sink)
    (hbuffer : capacity ≤ text.utf8ByteSize → writer.buffer = "")
    (h : writer.accept text = (next, some fault)) : Refused limit writer next text fault := by
  obtain ⟨store, buffer⟩ := writer
  by_cases hsize : text.utf8ByteSize < capacity
  · simp only [accept, hsize, if_true] at h
    cases h
  · have hempty : buffer = "" := hbuffer (Nat.le_of_not_lt hsize)
    simp only [accept, hsize, if_false] at h
    by_cases hle : store.text.utf8ByteSize + text.utf8ByteSize ≤ limit
    · rw [hlimited.write_of_le hle] at h
      cases h
    · have hlt := Nat.lt_of_not_le hle
      rw [hlimited.write_of_lt hlt] at h
      cases h
      refine ⟨rfl, ?_, rfl⟩
      rwa [written, hempty, String.append_empty, String.utf8ByteSize_append]

theorem limited_reserve (hlimited : Store.Limited limit writer.sink) (size : Nat) :
    Store.Limited limit (writer.reserve size).1.sink :=
  (Beside.reserve (Store.lasts_limited limit) ⟨⟨rfl, hlimited⟩, rfl⟩ size).beside.sink.2

theorem refused_write (hlimited : Store.Limited limit writer.sink)
    (h : writer.write text = (next, some fault)) : Refused limit writer next text fault := by
  unfold write at h
  split at h
  · next failed other hreserve =>
      cases h
      unfold reserve at hreserve
      split at hreserve
      · cases hreserve
      · obtain ⟨hfull, hlt, hkept⟩ := refused_flush hlimited hreserve
        refine ⟨hfull, ?_, hkept⟩
        rw [String.append_empty] at hlt
        rw [String.utf8ByteSize_append]
        omega
  · next reserved hreserve =>
      obtain ⟨hwritten, hbuffer⟩ := written_reserve Store.keeps_text hreserve
      have hreserved := limited_reserve hlimited text.utf8ByteSize
      rw [hreserve] at hreserved
      obtain ⟨hfull, hlt, hkept⟩ := refused_accept hreserved hbuffer h
      rw [hwritten] at hlt hkept
      exact ⟨hfull, hlt, hkept⟩

theorem limited_write (hlimited : Store.Limited limit writer.sink) (text : String) :
    Store.Limited limit (writer.write text).1.sink :=
  (Beside.write (Store.lasts_limited limit) ⟨⟨rfl, hlimited⟩, rfl⟩ text).beside.sink.2

/-- A store refuses only if the texts pass its limit; until then it was given their start. -/
theorem refused_writeAll {texts : List String} (hlimited : Store.Limited limit writer.sink)
    (h : writer.writeAll texts = (next, some fault)) :
    fault = .full ∧
      limit < (writer.written Store.text ++ String.join texts).utf8ByteSize ∧
      (next.written Store.text).toList <+:
        (writer.written Store.text ++ String.join texts).toList := by
  induction texts generalizing writer with
  | nil => cases h
  | cons text rest ih =>
      rw [String.join_cons, ← String.append_assoc]
      unfold writeAll at h
      split at h
      · next hwrite =>
          cases h
          obtain ⟨hfull, hlt, hkept⟩ := refused_write hlimited hwrite
          refine ⟨hfull, ?_, ?_⟩
          · rw [String.utf8ByteSize_append]
            omega
          · rw [hkept, String.append_assoc, String.toList_append]
            exact List.prefix_append _ _
      · next middle hwrite =>
          have hmiddle := limited_write hlimited text
          rw [hwrite] at hmiddle
          have hrest := ih hmiddle h
          rwa [written_write Store.keeps_text hwrite] at hrest

theorem limited_flush (hlimited : Store.Limited limit writer.sink) :
    Store.Limited limit writer.flush.1.sink :=
  (Beside.flush (Store.lasts_limited limit) ⟨⟨rfl, hlimited⟩, rfl⟩).beside.sink.2

/-- Of what was written, the store has the start, also once the buffer was passed on. -/
theorem flush_prefix_written (hlimited : Store.Limited limit writer.sink) :
    writer.flush.1.sink.text.toList <+: (writer.written Store.text).toList := by
  have hwritten : writer.flush.1.written Store.text = writer.written Store.text := by
    cases hflush : writer.flush with
    | mk next fault =>
        cases fault with
        | none => exact (written_flush Store.keeps_text hflush).1
        | some fault => exact (refused_flush hlimited hflush).kept
  rw [← hwritten, written, String.toList_append]
  exact List.prefix_append _ _

end Writer

/-! ## Sessions before a limited store -/

namespace Session

theorem sinkName_request {σ : Type} [Sink σ] (session : Session σ) (request : Request) :
    (session.request request).sinkName = session.sinkName := by
  cases hfailure : session.failure with
  | some error => rw [request_of_failed hfailure]
  | none =>
      cases hrefusal : (Block.mk session.lowering request).refusal? with
      | some error => rw [request_of_refused hfailure hrefusal]
      | none => rw [request_of_accepted hfailure (Block.accepted_iff.2 hrefusal), emit]

theorem sinkName_requests {σ : Type} [Sink σ] (session : Session σ) (requests : List Request) :
    (session.requests requests).sinkName = session.sinkName := by
  induction requests generalizing session with
  | nil => rfl
  | cons request rest ih => exact (ih _).trans (sinkName_request session request)

variable {limit : Nat} {session : Session Store}

/-- A session that ended since its output passes the limit of the store. -/
structure Overflown (limit : Nat) (output : String) (session : Session Store) : Prop where
  failure : session.failure = some (.io session.sinkName .full)
  lt_size : limit < output.utf8ByteSize
  start : (session.writer.written Store.text).toList <+: output.toList

theorem Overflown.append {output : String} (h : session.Overflown limit output) (more : String) :
    session.Overflown limit (output ++ more) where
  failure := h.failure
  lt_size := by
    rw [String.utf8ByteSize_append]
    exact Nat.lt_of_lt_of_le h.lt_size (Nat.le_add_right _ _)
  start := by
    rw [String.toList_append]
    exact h.start.trans (List.prefix_append _ _)

theorem limited_requests (hlimited : Store.Limited limit session.writer.sink)
    (requests : List Request) : Store.Limited limit (session.requests requests).writer.sink := by
  have hbeside : session.Beside (fun x y => x = y ∧ Store.Limited limit x) session :=
    ⟨rfl, ⟨⟨rfl, hlimited⟩, rfl⟩, rfl, rfl, rfl, rfl⟩
  exact (hbeside.requests (Store.lasts_limited limit) requests).writer.sink.2

theorem overflown_request (hlimited : Store.Limited limit session.writer.sink)
    (hlive : session.failure = none) {request : Request}
    (haccepted : (Block.mk session.lowering request).Accepted)
    (hfailed : (session.request request).failure ≠ none) :
    (session.request request).Overflown limit
      (session.writer.written Store.text ++
        Block.render session.annotate [⟨session.lowering, request⟩]) := by
  rw [request_of_accepted hlive haccepted, emit] at hfailed ⊢
  cases hwrite : session.writer.writeLines
      (((Block.mk session.lowering request).lines session.annotate).map Asm.Line.text) with
  | mk next fault =>
      cases fault with
      | none => simp [hwrite, hlive] at hfailed
      | some fault =>
          obtain ⟨rfl, hlt, hstart⟩ := Writer.refused_writeAll hlimited hwrite
          have hrender : Block.render session.annotate [⟨session.lowering, request⟩] =
              String.join ((((Block.mk session.lowering request).lines session.annotate).map
                Asm.Line.text).flatMap fun line => [line, "\n"]) := by
            rw [Block.render, List.flatMap_singleton]
            rfl
          rw [hrender]
          exact ⟨by simp, hlt, by simpa [hwrite] using hstart⟩

/-- If all requests are accepted, a session fails only since its output passes the limit. -/
theorem overflown_requests {requests : List Request}
    (hlimited : Store.Limited limit session.writer.sink) (hlive : session.failure = none)
    (haccepted : ∀ block ∈ session.lowering.trace requests, block.Accepted)
    (hfailed : (session.requests requests).failure ≠ none) :
    (session.requests requests).Overflown limit
      (session.writer.written Store.text ++
        Block.render session.annotate (session.lowering.trace requests)) := by
  induction requests generalizing session with
  | nil => exact absurd hlive hfailed
  | cons request rest ih =>
      obtain ⟨hfirst, hrest⟩ := List.forall_mem_cons.1 haccepted
      have hrender : Block.render session.annotate (session.lowering.trace (request :: rest)) =
          Block.render session.annotate [⟨session.lowering, request⟩] ++
            Block.render session.annotate
              ((Block.mk session.lowering request).next.trace rest) := by
        rw [← Block.render_append]
        rfl
      rw [hrender, ← String.append_assoc]
      cases hfailure : (session.request request).failure with
      | some error =>
          have hsame : session.requests (request :: rest) = session.request request :=
            requests_of_failed hfailure rest
          rw [hsame]
          refine (overflown_request hlimited hlive hfirst ?_).append _
          simp [hfailure]
      | none =>
          have hserves := serves_request hfailure
          have hsink : Store.Limited limit (session.request request).writer.sink :=
            limited_requests hlimited [request]
          have hnext := ih hsink hfailure (hserves.lowering ▸ hrest) hfailed
          rw [hserves.written Store.text Store.keeps_text, hserves.lowering, hserves.annotate] at hnext
          exact hnext

/-- What the end of a session makes of an output within the limit, and of one past it. -/
theorem finish_of_limited (hlimited : Store.Limited limit session.writer.sink)
    (hlive : session.failure = none) :
    ((session.writer.written Store.text).utf8ByteSize ≤ limit ∧
        ∃ final, session.finish = .ok final) ∨
      (limit < (session.writer.written Store.text).utf8ByteSize ∧
        session.finish = .error (.io session.sinkName .full)) := by
  cases hflush : session.writer.flush with
  | mk next fault =>
      cases fault with
      | none =>
          obtain ⟨hwritten, hempty⟩ := Writer.written_flush Store.keeps_text hflush
          have hnext := Writer.limited_flush hlimited
          rw [hflush] at hnext
          refine .inl ⟨?_, next.sink, by simp [finish, hlive, hflush]⟩
          rw [← hwritten, Writer.written, hempty, String.append_empty]
          exact hnext.size_le
      | some fault =>
          obtain ⟨rfl, hlt, -⟩ := Writer.refused_flush hlimited hflush
          rw [String.append_empty] at hlt
          exact .inr ⟨hlt, by simp [finish, hlive, hflush]⟩

/-- The text of everything that operations make. -/
def output (options : Options) (calls : List Call) : String :=
  Block.render options.annotate (options.lowering.trace (calls.flatMap Call.requests))

/-- A session before an empty store that takes a limited number of bytes. -/
def openedWithin (limit : Nat) (options : Options) (sinkName : String) : Session Store :=
  opened options { limit := some limit } sinkName

/-- The same, before a store whose moments are recorded. -/
def openedWatched (limit : Nat) (options : Options) (sinkName : String) :
    Session (Recorder Store) :=
  opened options { sink := { limit := some limit } } sinkName

variable {options : Options} {sinkName : String} {calls : List Call}

theorem limited_openedWithin :
    Store.Limited limit (openedWithin limit options sinkName).writer.sink :=
  ⟨rfl, Nat.zero_le limit⟩

theorem limited_calls_openedWithin (limit : Nat) (options : Options) (sinkName : String)
    (calls : List Call) :
    Store.Limited limit ((openedWithin limit options sinkName).calls calls).writer.sink := by
  rw [calls_eq_requests rfl]
  exact limited_requests limited_openedWithin _

theorem written_openedWithin :
    (openedWithin limit options sinkName).writer.written Store.text = "" :=
  rfl

theorem written_calls_openedWithin
    (h : ((openedWithin limit options sinkName).calls calls).failure = none) :
    ((openedWithin limit options sinkName).calls calls).writer.written Store.text =
      output options calls := by
  rw [calls_eq_requests rfl] at h ⊢
  rw [(serves_requests h).written Store.text Store.keeps_text, written_openedWithin,
    String.empty_append]
  rfl

/-- All that was written is the start of the output, whether the session fails or not. -/
theorem written_prefix_output
    (haccepted : ∀ block ∈ options.lowering.trace (calls.flatMap Call.requests), block.Accepted) :
    (((openedWithin limit options sinkName).calls calls).writer.written Store.text).toList <+:
      (output options calls).toList := by
  by_cases hlive : ((openedWithin limit options sinkName).calls calls).failure = none
  · have hwritten := written_calls_openedWithin hlive
    exact hwritten ▸ List.prefix_rfl
  · rw [calls_eq_requests rfl] at hlive ⊢
    have hstart := (overflown_requests limited_openedWithin rfl haccepted hlive).start
    rwa [written_openedWithin, String.empty_append] at hstart

/-- A store that is watched is the same store, and all that it was before is the start of it. -/
theorem flush_calls_openedWatched (limit : Nat) (options : Options) (sinkName : String)
    (calls : List Call) :
    ((openedWatched limit options sinkName).calls calls).writer.flush.1.sink.sink =
        ((openedWithin limit options sinkName).calls calls).writer.flush.1.sink ∧
      ∀ moment ∈ ((openedWatched limit options sinkName).calls calls).writer.flush.1.sink.past,
        moment.text.toList <+:
          ((openedWithin limit options sinkName).calls calls).writer.flush.1.sink.text.toList := by
  have hopened : (openedWatched limit options sinkName).Beside
      (fun (x : Recorder Store) (y : Store) =>
        x.sink = y ∧ ∀ moment ∈ x.past, moment.text.toList <+: y.text.toList)
      (openedWithin limit options sinkName) :=
    ⟨rfl, ⟨⟨rfl, List.forall_mem_nil _⟩, rfl⟩, rfl, rfl, rfl, rfl⟩
  have hcalls := hopened.requests Store.lasts_recorder (calls.flatMap Call.requests)
  rw [← calls_eq_requests rfl, ← calls_eq_requests rfl] at hcalls
  exact (hcalls.writer.flush Store.lasts_recorder).beside.sink

/-- The end of the session, by the size of the output. -/
theorem finish_openedWithin
    (haccepted : ∀ block ∈ options.lowering.trace (calls.flatMap Call.requests), block.Accepted) :
    ((output options calls).utf8ByteSize ≤ limit ∧
        ∃ final, ((openedWithin limit options sinkName).calls calls).finish = .ok final) ∨
      (limit < (output options calls).utf8ByteSize ∧
        ((openedWithin limit options sinkName).calls calls).finish = .error (.io sinkName .full)) := by
  have hname := sinkName_requests (openedWithin limit options sinkName) (calls.flatMap Call.requests)
  rw [← calls_eq_requests rfl] at hname
  by_cases hlive : ((openedWithin limit options sinkName).calls calls).failure = none
  · have hfinish := finish_of_limited (limited_calls_openedWithin limit options sinkName calls) hlive
    rwa [written_calls_openedWithin hlive, hname] at hfinish
  · rw [calls_eq_requests rfl] at hlive
    have hoverflown := overflown_requests limited_openedWithin rfl haccepted hlive
    rw [← calls_eq_requests rfl] at hoverflown
    have hfailure := hoverflown.failure
    rw [hname] at hfailure
    refine .inr ⟨?_, finish_of_failed hfailure⟩
    have hlt := hoverflown.lt_size
    rwa [written_openedWithin, String.empty_append] at hlt

/--
Operations that the lowering accepts succeed before a store with a limit, the end included, if and
only if their output is within the limit; then the store has this output.  Otherwise the end and
every operation that fails give the error of the full store.  At every moment the store has the
start of the output.
-/
theorem calls_within_limit (limit : Nat) (options : Options) (sinkName : String) (calls : List Call)
    (haccepted : ∀ block ∈ options.lowering.trace (calls.flatMap Call.requests), block.Accepted) :
    ((∃ final, ((openedWithin limit options sinkName).calls calls).finish = .ok final) ↔
        (output options calls).utf8ByteSize ≤ limit) ∧
      (∀ final, ((openedWithin limit options sinkName).calls calls).finish = .ok final →
        (∀ answer ∈ (openedWithin limit options sinkName).answers calls, answer.error? = none) ∧
          final.text = output options calls) ∧
      (limit < (output options calls).utf8ByteSize →
        ((openedWithin limit options sinkName).calls calls).finish = .error (.io sinkName .full) ∧
          ∀ answer ∈ (openedWithin limit options sinkName).answers calls,
            ∀ error, answer.error? = some error → error = .io sinkName .full) ∧
      (((openedWatched limit options sinkName).calls calls).writer.flush.1.sink.sink =
          ((openedWithin limit options sinkName).calls calls).writer.flush.1.sink ∧
        ∀ moment ∈ ((openedWatched limit options sinkName).calls calls).writer.flush.1.sink.moments,
          moment.text.toList <+: (output options calls).toList) := by
  have hfinish := @finish_openedWithin limit options sinkName calls haccepted
  refine ⟨?_, ?_, ?_, ?_⟩
  · rcases hfinish with ⟨hle, hok⟩ | ⟨hlt, herror⟩
    · exact ⟨fun _ => hle, fun _ => hok⟩
    · constructor
      · rintro ⟨final, hok⟩
        rw [herror] at hok
        cases hok
      · intro hle
        omega
  · intro final hok
    refine ⟨error?_of_finish rfl hok, ?_⟩
    rw [contents_of_finish Store.keeps_text hok,
      written_calls_openedWithin (finish_eq_ok hok).1]
  · intro hlt
    rcases hfinish with ⟨hle, -⟩ | ⟨-, herror⟩
    · omega
    · refine ⟨herror, ?_⟩
      intro answer hanswer error hfailed
      obtain ⟨index, hindex⟩ := List.getElem?_of_mem hanswer
      have hfailure := finish_of_failed (answers_of_error rfl hindex hfailed).2.1
      rw [herror] at hfailure
      cases hfailure
      rfl
  · obtain ⟨hsink, hpast⟩ := flush_calls_openedWatched limit options sinkName calls
    have hstart := (Writer.flush_prefix_written
      (limited_calls_openedWithin limit options sinkName calls)).trans
        (written_prefix_output haccepted)
    refine ⟨hsink, ?_⟩
    intro moment hmoment
    rcases List.mem_append.1 hmoment with hmem | hmem
    · exact (hpast moment hmem).trans hstart
    · rw [List.mem_singleton.1 hmem, hsink]
      exact hstart

end Session

namespace Sample

/-- Labels, the second of which may be longer than the buffer. -/
def labelCalls (name : String) : List Session.Call :=
  [.unit "Main" [⟨.label "start", .absent⟩], .command ⟨.label name, .absent⟩,
    .command ⟨.label "end", .absent⟩]

def longName : String :=
  String.ofList (List.replicate 8200 'a')

theorem size_replicate (size : Nat) :
    (String.ofList (List.replicate size 'a')).utf8ByteSize = size := by
  induction size with
  | zero => rfl
  | succ size ih =>
      rw [List.replicate_succ, String.ofList_cons, String.utf8ByteSize_append, ih]
      exact Nat.add_comm 1 size

theorem outcome_label (lowering : Lowering) (name : String) :
    (Block.mk lowering (.command ⟨.label name, .absent⟩)).outcome =
      ([.label (lowering.scopedLabel name)], lowering) := by
  simp only [Block.outcome, Lowering.command_eq_answer, Lowering.answer]
  rfl

theorem accepted_label (lowering : Lowering) (name : String) :
    (Block.mk lowering (.command ⟨.label name, .absent⟩)).Accepted := by
  simp only [Block.Accepted, Block.code, Block.next, outcome_label]
  simp only [Lowering.command_eq_answer, Lowering.answer]
  rfl

theorem lines_label (lowering : Lowering) (name : String) :
    (Block.mk lowering (.command ⟨.label name, .absent⟩)).lines false =
      [.label (lowering.scopedLabel name)] := by
  simp [Block.lines, Block.remark?, Block.code, outcome_label]

theorem trace_labelCalls (name : String) :
    ({} : Options).lowering.trace ((labelCalls name).flatMap Session.Call.requests) =
      ⟨({} : Options).lowering, .unit "Main"⟩ ::
        ["start", name, "end"].map fun label =>
          ⟨({} : Options).lowering.setUnit "Main", .command ⟨.label label, .absent⟩⟩ := by
  simp [labelCalls, Session.Call.requests, Lowering.trace, Block.next, outcome_label]
  rfl

theorem accepted_labelCalls (name : String) :
    ∀ block ∈ ({} : Options).lowering.trace ((labelCalls name).flatMap Session.Call.requests),
      block.Accepted := by
  rw [trace_labelCalls]
  intro block hblock
  rcases List.mem_cons.1 hblock with rfl | hlabel
  · trivial
  · obtain ⟨label, -, rfl⟩ := List.mem_map.1 hlabel
    exact accepted_label _ label

theorem size_labelCalls (name : String) :
    (Session.output {} (labelCalls name)).utf8ByteSize = 35 + name.utf8ByteSize := by
  have hlines : Session.output {} (labelCalls name) =
      Text.render ["(Main$$start)", "(" ++ ("Main$$" ++ name) ++ ")", "(Main$$end)"] := by
    rw [Session.output, trace_labelCalls, Block.render]
    simp only [List.map_cons, List.map_nil, List.flatMap_cons, List.flatMap_nil, lines_label]
    rfl
  have hsizes : (Session.output {} (labelCalls name)).utf8ByteSize =
      14 + (1 + (6 + name.utf8ByteSize) + 1) + 1 + 11 + 1 := by
    rw [hlines]
    simp only [Text.render, List.flatMap_cons, List.flatMap_nil, String.join, List.foldl,
      List.cons_append, List.nil_append, String.utf8ByteSize_append]
    rfl
  omega

def buffering : Writer Store :=
  ⟨⟨some 8192, ""⟩, "(Main$$start)\n"⟩

/-- A line as long as the buffer first sends the buffer on; then there is no room for the line. -/
theorem write_buffering {line : String} (hline : Writer.capacity ≤ line.utf8ByteSize) :
    buffering.write line = (⟨⟨some 8192, "(Main$$start)\n"⟩, ""⟩, some .full) := by
  have hsize : 8192 ≤ line.utf8ByteSize := hline
  have hreserve : buffering.reserve line.utf8ByteSize =
      (⟨⟨some 8192, "(Main$$start)\n"⟩, ""⟩, none) := by
    have hspare : buffering.spare = 8178 := rfl
    rw [Writer.reserve, if_neg (by omega)]
    decide +kernel
  have hadmits : (Store.mk (some 8192) "(Main$$start)\n").admits line = false := by
    have htaken : "(Main$$start)\n".utf8ByteSize = 14 := rfl
    simp only [Store.admits, htaken, decide_eq_false_iff_not]
    omega
  simp [Writer.write, hreserve, Writer.accept, Nat.not_lt.2 hline, Sink.write, Store.write, hadmits]

theorem answer_labelCalls {name : String} (hname : 8192 ≤ name.utf8ByteSize) :
    ((Session.openedWithin 8192 {} "Prog.asm").answers (labelCalls name))[1]? =
      some ⟨some (.io "Prog.asm" .full), 2⟩ := by
  have hfirst : (Session.openedWithin 8192 {} "Prog.asm").call
      (.unit "Main" [⟨.label "start", .absent⟩]) =
        { Session.openedWithin 8192 {} "Prog.asm" with
          lowering := ({} : Options).lowering.setUnit "Main"
          writer := buffering
          commands := 1 } := by
    rw [Session.call_eq_requests rfl]
    rfl
  have hline : Writer.capacity ≤ ("(" ++ ("Main$$" ++ name) ++ ")").utf8ByteSize := by
    simp only [String.utf8ByteSize_append, Writer.capacity]
    omega
  have hrefused : (buffering.writeLines ["(" ++ ("Main$$" ++ name) ++ ")"]).2 = some .full := by
    simp only [Writer.writeLines, List.flatMap_cons, List.cons_append, Writer.writeAll,
      write_buffering hline]
  have hlines : ((Block.mk (({} : Options).lowering.setUnit "Main")
      (.command ⟨.label name, .absent⟩)).lines false).map Asm.Line.text =
        ["(" ++ ("Main$$" ++ name) ++ ")"] := by
    rw [lines_label]
    rfl
  rw [labelCalls, Session.answers_cons rfl, hfirst, Session.answers_cons rfl,
    Session.call_eq_requests rfl, Session.Call.requests, Session.requests, List.foldl_cons,
    List.foldl_nil, Session.request_of_accepted rfl (accepted_label _ _), Session.emit]
  change some (Session.Answer.mk (((buffering.writeLines (((Block.mk
    (({} : Options).lowering.setUnit "Main") (.command ⟨.label name, .absent⟩)).lines false).map
      Asm.Line.text)).2.map (Error.io "Prog.asm")).or none) 2) = _
  rw [hlines, hrefused]
  rfl

/--
The output of 8235 bytes does not fit into the buffer.  One byte less is refused at the end; with
room for as much as the buffer, the label that is longer than it is refused.
-/
theorem within_limit_writing :
    Writer.capacity < (Session.output {} (labelCalls longName)).utf8ByteSize ∧
      (∃ final, ((Session.openedWithin 8235 {} "Prog.asm").calls (labelCalls longName)).finish =
        .ok final ∧ final.text = Session.output {} (labelCalls longName)) ∧
      ((Session.openedWithin 8234 {} "Prog.asm").calls (labelCalls longName)).finish =
        .error (.io "Prog.asm" .full) ∧
      ((Session.openedWithin 8192 {} "Prog.asm").calls (labelCalls longName)).finish =
        .error (.io "Prog.asm" .full) ∧
      ((Session.openedWithin 8192 {} "Prog.asm").answers (labelCalls longName))[1]? =
        some ⟨some (.io "Prog.asm" .full), 2⟩ := by
  have hname : longName.utf8ByteSize = 8200 := size_replicate 8200
  have hsize := size_labelCalls longName
  rw [hname] at hsize
  have hlimit := fun limit => Session.calls_within_limit limit {} "Prog.asm" (labelCalls longName)
    (accepted_labelCalls longName)
  rw [hsize] at hlimit ⊢
  obtain ⟨final, hfinish⟩ := (hlimit 8235).1.2 (Nat.le_refl _)
  exact ⟨by decide, ⟨final, hfinish, ((hlimit 8235).2.1 final hfinish).2⟩,
    ((hlimit 8234).2.2.1 (by decide)).1, ((hlimit 8192).2.2.1 (by decide)).1,
    answer_labelCalls (by omega)⟩

end Sample

end StackVm
