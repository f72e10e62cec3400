import StackVm.Error

/-!
# Sinks

A sink is a place that text is written to.  It may refuse a write, for a reason
of its own and at any moment.
-/

namespace StackVm

class Sink (σ : Type) where
  /-- Offer a text: the sink afterwards, and the reason if it refused the text. -/
  write : σ → String → σ × Option IoFault

/-- A sink that keeps what it takes, up to a limit in bytes. -/
structure Store where
  /-- The largest number of bytes to take in all; any number, if there is no limit. -/
  limit : Option Nat := none
  /-- Everything taken so far. -/
  text : String := ""
  deriving DecidableEq, Repr

namespace Store

/-- Whether a further text stays within the limit. -/
def admits (store : Store) (text : String) : Bool :=
  match store.limit with
  | none => true
  | some limit => store.text.utf8ByteSize + text.utf8ByteSize ≤ limit

/-- Take a text whole, or refuse it whole. -/
def write (store : Store) (text : String) : Store × Option IoFault :=
  if store.admits text then
    match store with
    | ⟨limit, taken⟩ => (⟨limit, taken ++ text⟩, none)
  else
    (store, some .full)

instance : Sink Store where
  write := write

end Store

/-- A sink that takes everything and keeps nothing. -/
structure Discard where
  deriving DecidableEq, Repr

instance : Sink Discard where
  write sink _ := (sink, none)

end StackVm
