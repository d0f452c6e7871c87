import ScopedAggregation.Error
import ScopedAggregation.Value

namespace ScopedAggregation

mutual

/-- An expression. `absent` stands for a missing sub-expression that was accepted; it renders as
null. `faulty` is an object whose construction failed, and keeps the error. -/
inductive Expr where
  | absent
  | field (path : Text)
  | var (name : Text)
  | literal (v : Value)
  | raw (v : Value)
  | operator (op : Text) (args : List Expr)
  | array (elements : List Expr)
  | object (entries : List (Text × Expr))
  | faulty (error : CompileError)
  | map (input : Source) (item : Text) (body : Expr)
  | filter (input : Source) (item : Text) (cond : Expr)
  | reduce (input : Source) (initial body : Expr)
  | letIn (vars : List (Text × Expr)) (body : Expr)

/-- The array that an iterating construct reads: a field path or an expression. -/
inductive Source where
  | field (path : Text)
  | expr (e : Expr)

end

instance : Inhabited Expr := ⟨.absent⟩

namespace Expr

/-- The word for a node in messages and log lines. -/
def nodeType : Expr → Text
  | .absent => []
  | .field _ => text "field"
  | .var _ => text "variable"
  | .literal _ => text "literal"
  | .raw _ => text "document"
  | .operator op _ => op
  | .array _ => text "array"
  | .object _ => text "object"
  | .faulty _ => text "object"
  | .map .. => text "$map"
  | .filter .. => text "$filter"
  | .reduce .. => text "$reduce"
  | .letIn .. => text "$let"

/-- The constant null. -/
def null : Expr := .literal .null

/-- Nothing was given, or something that stands for nothing. -/
def isMissing : Option Expr → Bool
  | none => true
  | some .absent => true
  | some _ => false

end Expr

end ScopedAggregation
