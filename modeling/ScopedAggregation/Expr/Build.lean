import ScopedAggregation.Expr
import ScopedAggregation.Value.Plain

namespace ScopedAggregation.Expr

/-- A missing part renders as null. -/
def orNull (e : Option Expr) : Expr := e.getD null

def operatorOf (op : Text) (args : List (Option Expr)) : Expr := .operator op (args.map orNull)

def arrayOf (elements : List (Option Expr)) : Expr := .array (elements.map orNull)

/-- Adds an entry to an object unless the key is taken or the object is already faulty. -/
def addEntry (key : Text) (value : Expr) : Expr → Expr
  | .object entries =>
    if entries.any (·.1 = key) then
      .faulty { cause := .repeatedKey, name := key, node := text "object" }
    else .object (entries ++ [(key, value)])
  | e => e

/-- An object from keys and values of equal number. -/
def objectOf (keys : List Text) (values : List (Option Expr)) : Expr :=
  if keys.length = values.length then
    (keys.zip values).foldl (fun o (k, v) => addEntry k (orNull v) o) (.object [])
  else
    .faulty { cause := .unequalLengths keys.length values.length, node := text "object" }

/-- An argument of an object: plain data, or an expression that may be missing. -/
inductive Argument where
  | plain (p : Plain)
  | expr (e : Option Expr)

namespace Argument

/-- The expression that an argument stands for as a value. -/
def toExpr : Argument → Expr
  | .plain p => .literal p.toValue
  | .expr e => orNull e

/-- The argument as it is named in messages. -/
def shown : Argument → Text
  | .plain p => p.shown
  | .expr none => text "<nil>"
  | .expr (some e) => e.nodeType

end Argument

/-- Adds entries from alternating keys and values, stopping at the first fault. -/
def addPairs : Expr → List Argument → Expr
  | .object entries, .plain (.string key) :: value :: rest =>
    addPairs (addEntry key value.toExpr (.object entries)) rest
  | .object _, key :: _ :: _ =>
    .faulty { cause := .keyNotString key.shown, node := text "object" }
  | o, _ => o

/-- An object from alternating keys and values. -/
def objectOfPairs (pairs : List Argument) : Expr :=
  if pairs.length % 2 = 0 then addPairs (.object []) pairs
  else .faulty { cause := .unpairedKeys, node := text "object" }

/-- A variable name must not carry a sigil or contain a path separator. -/
def checkVariableName (node name : Text) : Except CompileError Unit :=
  if name.any fun b => b = Ascii.dollar || b = Ascii.dot then
    .error { cause := .malformedVariable, name := name, node := node }
  else .ok ()

/-- The input of an iterating construct: an empty field path is no input. -/
def checkInput (node : Text) : Option Source → Except CompileError Source
  | none => .error { cause := .noInput, node := node }
  | some (.field []) => .error { cause := .noInput, node := node }
  | some s => .ok s

/-- An expression that has to be there. -/
def need (node : Text) (cause : Cause) : Option Expr → Except CompileError Expr
  | none => .error { cause := cause, node := node }
  | some .absent => .error { cause := cause, node := node }
  | some e => .ok e

/-- The input and item name of a construct that visits every item. -/
def checkIteration (node : Text) (input : Option Source) (item : Text) :
    Except CompileError Source := do
  let input ← checkInput node input
  if item = [] then .error { cause := .noItemName, node := node }
  else
    checkVariableName node item
    pure input

/-- Applies an expression to every item of an array. -/
def mapItems (input : Option Source) (item : Text) (body : Option Expr) :
    Except CompileError Expr := do
  let input ← checkIteration (text "$map") input item
  let body ← need (text "$map") .noMapping body
  pure (.map input item body)

/-- Keeps the items of an array that satisfy a condition. -/
def filterItems (input : Option Source) (item : Text) (cond : Option Expr) :
    Except CompileError Expr := do
  let input ← checkIteration (text "$filter") input item
  let cond ← need (text "$filter") .noCondition cond
  pure (.filter input item cond)

/-- Folds an array into one value. -/
def reduceItems (input : Option Source) (initial body : Option Expr) :
    Except CompileError Expr := do
  let input ← checkInput (text "$reduce") input
  let initial ← need (text "$reduce") .noInitialValue initial
  let body ← need (text "$reduce") .noFold body
  pure (.reduce input initial body)

/-- Checks declarations from the given index on, given the names declared before them. -/
def checkVariables (index : Nat) (seen : List Text) :
    List (Text × Option Expr) → Except CompileError (List (Text × Expr))
  | [] => .ok []
  | (name, value) :: rest => do
    let node := text "$let"
    if name = [] then .error { cause := .unnamedVariable index, node := node }
    else
      checkVariableName node name
      if seen.any (· = name) then
        .error { cause := .repeatedVariable, name := name, node := node }
      else
        match value with
        | none => .error { cause := .noVariableValue, name := name, node := node }
        | some .absent => .error { cause := .noVariableValue, name := name, node := node }
        | some value =>
          let rest ← checkVariables (index + 1) (name :: seen) rest
          pure ((name, value) :: rest)

/-- Binds variables for a body. -/
def define (vars : List (Text × Option Expr)) (body : Option Expr) : Except CompileError Expr := do
  let vars ← checkVariables 0 [] vars
  let body ← need (text "$let") .noBody body
  pure (.letIn vars body)

end ScopedAggregation.Expr
