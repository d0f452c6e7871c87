import ScopedAggregation.Expr.Compile
import ScopedAggregation.Table

namespace ScopedAggregation

structure Metrics where
  compilations : Table Nat := []
  definitions : Nat := 0
deriving DecidableEq, Repr

/-- The label of a compilation's outcome. -/
def Attempt.label (a : Attempt) : Text :=
  match a.outcome with
  | .ok _ => text "success"
  | .error e => e.kind.label

namespace Metrics

/-- Counts a compilation. -/
def observe (m : Metrics) (a : Attempt) : Metrics :=
  let old := (m.compilations.get? a.label).getD 0
  { m with compilations := m.compilations.insert a.label (old + 1) }

/-- All compilations. -/
def total (m : Metrics) : Nat := m.compilations.foldl (fun n (_, k) => n + k) 0

/-- The lines of the counters, those of outcomes in order of their labels. -/
def lines (m : Metrics) : List Text :=
  m.compilations.map (fun (label, n) =>
    text "aggexpr_compilations_total\x7bresult=\"" ++ label ++ text "\"\x7d " ++ Text.ofNat n)
  ++ [text "aggexpr_compile_duration_seconds_count " ++ Text.ofNat m.total,
    text "aggexpr_definitions " ++ Text.ofNat m.definitions]

def render (m : Metrics) : Text := Text.join [Ascii.newline] m.lines

end Metrics

end ScopedAggregation
