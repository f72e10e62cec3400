import StackVm.Proofs.Lowering.Refused
import StackVm.Proofs.Lowering.Trace

/-! # Failures leave nothing behind

A command that fails leaves the emitter as it was.  So work that goes on after failures puts out
the lines of the other commands alone.
-/

namespace StackVm

/-- Whether a request is no command that a machine refuses. -/
def Request.isServed (machine : Machine) : Request → Bool
  | .unit _ => true
  | .bootstrap _ => true
  | .command located => !located.value.isRefused machine

namespace Emitter

variable (emitter : Emitter)

theorem command_eq_error {located : Located Command} {error : Error} {after : Emitter}
    (h : command located emitter = .error error after) :
    after = emitter ∧ emitter.lowering.command located = .error error := by
  rw [command_eq] at h
  cases hresult : emitter.lowering.command located with
  | ok answer =>
      rw [hresult] at h
      cases h
  | error other =>
      rw [hresult] at h
      cases h
      exact ⟨rfl, rfl⟩

theorem command_eq_ok {located : Located Command} {after : Emitter}
    (h : command located emitter = .ok () after) :
    ∃ code, emitter.lowering.command located = .ok (code, after.lowering) ∧
      after.out = emitter.out ++ code := by
  rw [command_eq] at h
  cases hresult : emitter.lowering.command located with
  | ok answer =>
      rw [hresult] at h
      cases h
      exact ⟨answer.1, rfl, rfl⟩
  | error error =>
      rw [hresult] at h
      cases h

/-! ## Going on after a failure -/

def work : Request → Work Unit
  | .unit name => modify fun emitter => { emitter with lowering := emitter.lowering.setUnit name }
  | .bootstrap entry => bootstrap entry
  | .command located => command located

/-- Serve a request, and go on with what a failure leaves. -/
def serve (emitter : Emitter) (request : Request) : Emitter :=
  match work request emitter with
  | .ok _ next => next
  | .error _ next => next

/-- Serve consecutive requests. -/
def serveAll (emitter : Emitter) (requests : List Request) : Emitter :=
  requests.foldl serve emitter

/-- Each request puts out the code of its block. -/
theorem serve_eq (request : Request) :
    emitter.serve request =
      ⟨(Block.mk emitter.lowering request).next,
        emitter.out ++ (Block.mk emitter.lowering request).code⟩ := by
  cases request with
  | unit name =>
      rw [Block.code, Block.outcome, Array.appendList_nil]
      rfl
  | bootstrap entry =>
      rw [serve, work, Block.next_bootstrap, Block.code, Block.outcome]
      cases hcode : emitter.lowering.bootstrap entry with
      | ok code => simp only [bootstrap_of_ok emitter hcode, hcode, extend]
      | error error => simp only [bootstrap_of_error emitter hcode, hcode, Array.appendList_nil]
  | command located =>
      simp only [serve, work, command_eq, Block.next, Block.code, Block.outcome]
      cases emitter.lowering.command located with
      | ok answer => rfl
      | error error => simp [whole]

theorem serveAll_eq (requests : List Request) :
    emitter.serveAll requests =
      ⟨emitter.lowering.after requests,
        emitter.out ++ (emitter.lowering.trace requests).flatMap Block.code⟩ := by
  induction requests generalizing emitter with
  | nil => simp [serveAll, Lowering.after, Lowering.trace]
  | cons request rest ih =>
      change (emitter.serve request).serveAll rest = _
      rw [ih, serve_eq, append_append]
      rfl

theorem serve_of_isRefused {located : Located Command}
    (h : located.value.isRefused emitter.lowering.machine = true) :
    emitter.serve (.command located) = emitter := by
  obtain ⟨error, hrefuses⟩ := (Lowering.exists_refuses_iff located.span).2 h
  simp only [serve, work, command_eq, Lowering.command_eq_error_iff.2 hrefuses, whole]

/-- Refused commands may as well not be there. -/
theorem serveAll_filter (requests : List Request) :
    emitter.serveAll requests =
      emitter.serveAll (requests.filter (Request.isServed emitter.lowering.machine)) := by
  induction requests generalizing emitter with
  | nil => rfl
  | cons request rest ih =>
      have hmachine : (emitter.serve request).lowering.machine = emitter.lowering.machine := by
        rw [serve_eq]
        exact Block.machine_next _
      have hrest := ih (emitter.serve request)
      rw [hmachine] at hrest
      by_cases hserved : request.isServed emitter.lowering.machine = true
      · rw [List.filter_cons_of_pos hserved]
        exact hrest
      · rw [List.filter_cons_of_neg hserved]
        cases request with
        | unit name | bootstrap entry => exact absurd rfl hserved
        | command located =>
            rw [Request.isServed, Bool.not_eq_true', Bool.not_eq_false] at hserved
            rw [serve_of_isRefused emitter hserved] at hrest
            change (emitter.serve (.command located)).serveAll rest = _
            rw [serve_of_isRefused emitter hserved, hrest]

/--
A command fails if and only if it asks for more than the machine has, with an error about its
segment or its arguments that carries the current unit and the place of the command.  It then leaves
the lines, the unit, the function and the labels as they were, so that work that goes on after
failures has the outcome of the other requests alone.
-/
theorem failure_leaves_nothing (located : Located Command) :
    ((∃ error after, command located emitter = .error error after) ↔
        located.value.isRefused emitter.lowering.machine = true) ∧
      (∀ error after, command located emitter = .error error after →
        after = emitter ∧ emitter.lowering.command located = .error error ∧
          ((∃ segment index reason,
              (located.value = .push segment index ∨ located.value = .pop segment index) ∧
                error = .invalidSegment emitter.lowering.unit located.span segment.word reason) ∨
            ∃ name args reason, located.value = .call name args ∧
              error = .malformedCommand emitter.lowering.unit located.span reason)) ∧
      (∀ after, command located emitter = .ok () after →
        ∃ code, emitter.lowering.command located = .ok (code, after.lowering) ∧
          after.out = emitter.out ++ code) ∧
      ∀ requests,
        emitter.serveAll requests =
            emitter.serveAll (requests.filter (Request.isServed emitter.lowering.machine)) ∧
          emitter.serveAll requests =
            ⟨emitter.lowering.after requests,
              emitter.out ++ (emitter.lowering.trace requests).flatMap Block.code⟩ := by
  refine ⟨⟨?_, ?_⟩, ?_, fun after => command_eq_ok emitter,
    fun requests => ⟨emitter.serveAll_filter requests, emitter.serveAll_eq requests⟩⟩
  · rintro ⟨error, after, hfails⟩
    obtain ⟨-, herror⟩ := command_eq_error emitter hfails
    exact (Lowering.exists_refuses_iff located.span).1
      ⟨error, Lowering.command_eq_error_iff.1 herror⟩
  · intro hrefused
    obtain ⟨error, hrefuses⟩ := (Lowering.exists_refuses_iff located.span).2 hrefused
    refine ⟨error, emitter, ?_⟩
    rw [command_eq, Lowering.command_eq_error_iff.2 hrefuses, whole]
  · intro error after hfails
    obtain ⟨hafter, herror⟩ := command_eq_error emitter hfails
    exact ⟨hafter, herror, (Lowering.command_eq_error_iff.1 herror).error_cases⟩

end Emitter

end StackVm
