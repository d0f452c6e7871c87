import ScopedAggregation.Expr.Compile

namespace ScopedAggregation

/-- How much a log line matters. -/
inductive LogLevel where
  | debug
  | info
  | warn
  | error
deriving DecidableEq, Repr

namespace LogLevel

def name : LogLevel → Text
  | .debug => text "DEBUG"
  | .info => text "INFO"
  | .warn => text "WARN"
  | .error => text "ERROR"

/-- The order of levels. -/
def rank : LogLevel → Nat
  | .debug => 0
  | .info => 1
  | .warn => 2
  | .error => 3

end LogLevel

/-- The value of an attribute. -/
inductive LogValue where
  | text (s : Text)
  | int (i : Int)
  | bool (b : Bool)
deriving DecidableEq, Repr

def LogValue.display : LogValue → Text
  | .text s => s
  | .int i => Text.ofInt i
  | .bool b => if b then ScopedAggregation.text "true" else ScopedAggregation.text "false"

/-- A line of the log. -/
structure LogLine where
  level : LogLevel
  message : Text
  attributes : List (Text × LogValue) := []
deriving DecidableEq, Repr

/-- A line from a plain message and plainly named attributes. -/
def LogLine.of (level : LogLevel) (message : String)
    (attributes : List (String × LogValue) := []) : LogLine :=
  ⟨level, text message, attributes.map fun (k, v) => (text k, v)⟩

/-- The line with its attributes after the message. -/
def LogLine.display (l : LogLine) : Text :=
  Text.join [Ascii.space]
    (l.level.name :: l.message
      :: l.attributes.map fun (k, v) => k ++ [Ascii.equals] ++ v.display)

/-- The line that a compilation leaves; one without a root leaves none. -/
def Attempt.logLine? (a : Attempt) : Option LogLine :=
  a.node.map fun node =>
    match a.outcome with
    | .ok depth => .of .debug "compiled expression" [("node", .text node), ("depth", .int depth)]
    | .error e => .of .debug "compile failed" [("node", .text node), ("error", .text e.message)]

end ScopedAggregation
