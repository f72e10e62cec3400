/-! # Work in stages

Work on a state that may fail between two of its stages.  A failure leaves the
state as it is at that moment, so what the stages before it have changed stays
changed.
-/

namespace StackVm

namespace Staged

/-- The state that work leaves, whether it fails or not. -/
def left {ε σ α : Type} : EStateM.Result ε σ α → σ
  | .ok _ state => state
  | .error _ state => state

def error? {ε σ α : Type} : EStateM.Result ε σ α → Option ε
  | .ok _ _ => none
  | .error error _ => some error

variable {ε σ α β : Type} {work : EStateM ε σ α} {state next : σ}

theorem bind_of_ok {rest : α → EStateM ε σ β} {value : α} (h : work state = .ok value next) :
    (work >>= rest) state = rest value next := by
  change EStateM.bind work rest state = _
  rw [EStateM.bind, h]

/-- Nothing comes after a failure. -/
theorem bind_of_error {rest : α → EStateM ε σ β} {error : ε} (h : work state = .error error next) :
    (work >>= rest) state = .error error next := by
  change EStateM.bind work rest state = _
  rw [EStateM.bind, h]

theorem get_bind (rest : σ → EStateM ε σ β) (state : σ) :
    (get >>= rest) state = rest state state := rfl

theorem modify_bind (f : σ → σ) (rest : PUnit → EStateM ε σ β) (state : σ) :
    (modify f >>= rest) state = rest () (f state) := rfl

end Staged

end StackVm
