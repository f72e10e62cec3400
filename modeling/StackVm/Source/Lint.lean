import StackVm.Lowering
import StackVm.Source.Parse

/-!
# Warnings about a source unit

A `label`, `goto` or `if-goto` ahead of the first function is scoped to the
unit, so that a jump there cannot reach a label inside a function.
-/

namespace StackVm

namespace Source

def opensFunction : Item → Bool
  | .ok ⟨.function _ _, _⟩ => true
  | _ => false

/-- The warning about a command ahead of the first function. -/
def warning? (unit : String) (command : Located Command) : Option Diagnostic :=
  command.value.flowLabel?.map fun label =>
    { severity := .warning
      message := s!"'{command.value.text}' comes before any function"
      span := command.span
      notes := [s!"scoped to the unit as {unitLabel unit label}"] }

/-- The warnings about a unit, unless a fault stands ahead of its first function. -/
def lint (unit source : String) : Except Error (List Diagnostic) := do
  let ahead ← collect ((items unit source).takeWhile fun item => !opensFunction item)
  return ahead.filterMap (warning? unit)

end Source

end StackVm
