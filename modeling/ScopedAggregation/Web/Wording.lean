import ScopedAggregation.Error
import ScopedAggregation.Time

namespace ScopedAggregation.Web

/-- Shown in place of a moment that is not known. -/
def unknownTime : Text := text "—"

/-- A number of units of time that have passed. -/
def ago (n : Int) (unit : String) : Text :=
  Text.ofInt n ++ text (if n = 1 then " " ++ unit else " " ++ unit ++ "s") ++ text " ago"

/-- How long ago a moment was, in the greatest unit that has passed in full. -/
def timeAgo (now t : Instant) : Text :=
  if t = .none then unknownTime
  else
    let seconds := (now.nanos - t.nanos).tdiv 1000000000
    if seconds < 60 then text "just now"
    else if seconds < 3600 then ago (seconds / 60) "minute"
    else if seconds < 86400 then ago (seconds / 3600) "hour"
    else ago (seconds / 86400) "day"

def formatTime (t : Instant) : Text := if t = .none then unknownTime else t.display

/-- A text cannot be cut before its beginning. -/
structure CutError where
  max : Int
deriving DecidableEq, Repr

def CutError.message (e : CutError) : Text :=
  text "runtime error: slice bounds out of range [:" ++ Text.ofInt e.max ++ text "]"

/-- The first bytes of a text, with dots in place of the rest. -/
def truncate (max : Int) (s : Text) : Except CutError Text :=
  if s.length ≤ max then .ok s
  else if max < 0 then .error ⟨max⟩
  else .ok (s.take max.toNat ++ text "...")

/-- The lines of a text: one more than it has ends of lines, but none if it is empty. -/
def countLines (s : Text) : Nat :=
  if s.isEmpty then 0 else s.countP (· = Ascii.newline) + 1

/-- The style of an error, by the name of its kind. -/
def kindClass (kind : Text) : Text :=
  if kind = ErrorKind.unresolvedName.name then text "kind-unresolved"
  else if kind = ErrorKind.depthExceeded.name then text "kind-depth"
  else if kind = ErrorKind.invalidArgument.name then text "kind-invalid"
  else text "kind-parse"

end ScopedAggregation.Web
