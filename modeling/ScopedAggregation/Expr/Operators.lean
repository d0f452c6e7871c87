import ScopedAggregation.Expr

namespace ScopedAggregation

/-- An operator with the least and, if there is one, the greatest number of its arguments. -/
structure Arity where
  op : Text := []
  least : Nat := 0
  most : Option Nat := some 0
deriving DecidableEq, Repr

namespace Arity

def accepts (a : Arity) (n : Nat) : Bool :=
  a.least ≤ n && match a.most with
    | some m => n ≤ m
    | none => true

end Arity

/-- Function names with the least and the greatest number of arguments. -/
def argumentBounds : List (String × Nat × Option Nat) :=
  [("add", 1, none), ("subtract", 2, some 2), ("multiply", 1, none), ("divide", 2, some 2),
   ("mod", 2, some 2), ("abs", 1, some 1), ("size", 1, some 1), ("arrayElemAt", 2, some 2),
   ("concatArrays", 1, none), ("in", 2, some 2), ("concat", 1, none), ("toUpper", 1, some 1),
   ("toLower", 1, some 1), ("eq", 2, some 2), ("ne", 2, some 2), ("gt", 2, some 2),
   ("gte", 2, some 2), ("lt", 2, some 2), ("lte", 2, some 2), ("and", 1, none), ("or", 1, none),
   ("not", 1, some 1), ("cond", 3, some 3), ("ifNull", 2, none)]

/-- The operators by their function names; an operator is rendered with a dollar sign before it. -/
def operators : List (Text × Arity) :=
  argumentBounds.map fun (name, least, most) =>
    (text name, ⟨Ascii.dollar :: text name, least, most⟩)

/-- The operator called by a function name. -/
def operatorNamed? (name : Text) : Option Arity := operators.lookup name

/-- The bounds of an operator by its rendered name. -/
def arityOf? (op : Text) : Option Arity :=
  (operators.find? fun (_, a) => a.op = op).map (·.2)

end ScopedAggregation
