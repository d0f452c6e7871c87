namespace ScopedAggregation

/-- The callback that waits, if any, and whether callbacks are still taken. -/
structure Debouncer (α : Type) where
  pending : Option α := none
  stopped : Bool := false
deriving DecidableEq, Repr

namespace Debouncer

variable {α : Type}

/-- Takes a callback in place of the one that waits. -/
def trigger (callback : α) (d : Debouncer α) : Debouncer α :=
  if d.stopped then d else { d with pending := some callback }

/-- A timer has run out: picks up the callback that waits, to be run now. -/
def fire (d : Debouncer α) : Option α × Debouncer α :=
  (if d.stopped then none else d.pending, { d with pending := none })

/-- Drops the callback that waits and takes no more. -/
def stop (_ : Debouncer α) : Debouncer α := { pending := none, stopped := true }

end Debouncer

end ScopedAggregation
