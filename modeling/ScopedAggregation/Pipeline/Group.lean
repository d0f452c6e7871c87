import ScopedAggregation.Expr.Build
import ScopedAggregation.Expr.Compile

namespace ScopedAggregation

/-- One accumulated output. -/
structure Accumulator where
  op : Text
  output : Text
  value : Expr

/-- A grouping: its key fields, its outputs in order, and the first fault of its construction. -/
structure GroupStage where
  keys : Fields
  accumulators : List Accumulator := []
  error : Option CompileError := none

/-- What is accumulated: a field, an expression or a constant, if anything. -/
inductive Operand where
  | missing
  | fieldName (name : Text)
  | expr (e : Expr)
  | constant (p : Plain)

namespace GroupStage

def nodeName : Text := text "$group"

/-- A grouping by the given fields. -/
def ofKeys (fields : List Field) : GroupStage := { keys := .ofList fields }

/-- The expression that an operand stands for. -/
def operandExpr (op : Text) : Operand → Except CompileError Expr
  | .missing => .error { cause := .noOperand, node := op }
  | .fieldName [] => .error { cause := .noFieldName, node := op }
  | .fieldName name => .ok (.field name)
  | .expr e => .ok e
  | .constant p => .ok (.literal p.toValue)

def hasOutput (output : Text) (g : GroupStage) : Bool := g.accumulators.any (·.output = output)

/-- Why an output cannot be added, if it cannot. -/
def outputFault? (op output : Text) (g : GroupStage) : Option CompileError :=
  if output = [] then some { cause := .noOutputName, node := op }
  else if output = text "_id" || g.hasOutput output then
    some { cause := .repeatedOutput, name := output, node := nodeName }
  else if g.keys.contains output then
    some { cause := .outputIsKey, name := output, node := nodeName }
  else none

/-- Adds an accumulated output. -/
def accumulate (op : Text) (operand : Operand) (output : Text) (g : GroupStage) : GroupStage :=
  match g.error with
  | some _ => g
  | none =>
    match operandExpr op operand with
    | .error e => { g with error := some e }
    | .ok value =>
      match g.outputFault? op output with
      | some e => { g with error := some e }
      | none => { g with accumulators := g.accumulators ++ [⟨op, output, value⟩] }

/-- The fields that the next stage sees: the key under `_id`, each key field where it was put, and
the outputs. -/
def fields (g : GroupStage) : Fields :=
  let key (f : Field) : Field :=
    Field.renamed f.name (if 1 < g.keys.size then text "_id." ++ f.name else text "_id")
  .ofList (Field.ofName (text "_id") :: g.keys.toList.map key
    ++ g.accumulators.map fun a => Field.ofName a.output)

/-- Renders the targets of key fields under their names. -/
def renderKeys (c : Compiler) (ctx : Context) :
    List Field → Compiling CompileError (List (Text × Value))
  | [] => pure []
  | f :: fs => do
    let v ← c.run (some (.field f.target)) ctx
    let rest ← renderKeys c ctx fs
    pure ((f.name, v) :: rest)

/-- The key: null without fields, the reference of a single one, a document of several. -/
def renderKey (c : Compiler) (ctx : Context) (g : GroupStage) : Compiling CompileError Value :=
  match g.keys.toList with
  | [] => pure .null
  | [f] => c.run (some (.field f.target)) ctx
  | fs => do
    let entries ← renderKeys c ctx fs
    pure (.document entries)

/-- Renders the outputs under their names. -/
def renderOutputs (c : Compiler) (ctx : Context) :
    List Accumulator → Compiling CompileError (List (Text × Value))
  | [] => pure []
  | a :: rest => do
    let v ← c.run (some a.value) ctx
    let rest ← renderOutputs c ctx rest
    pure ((a.output, Value.doc a.op v) :: rest)

def render (c : Compiler) (ctx : Context) (g : GroupStage) : Compiling CompileError Value :=
  match g.error with
  | some e => throw e
  | none => do
    let key ← g.renderKey c ctx
    let outputs ← renderOutputs c ctx g.accumulators
    pure (Value.doc nodeName (.document ((text "_id", key) :: outputs)))

end GroupStage

end ScopedAggregation
